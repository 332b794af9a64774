import F7ly.Fs.Fat32

/-!
# Clusters and chains

What the cluster functions do to a volume whose chains are in range, end with an
end mark and share no cluster (`WF`). The bytes of a cluster are those of its
sectors (`clusByte`). `rw_clus` moves them one sector at a time, `reloc_clus`
finds the cluster of an offset from the cached position, and a cluster that it
allocates is the first free one, which is in no chain.
-/

namespace F7ly.Fs.Fat32

open Function List

variable {g : Geometry} {v v' : Volume}

/-- Byte `i` from the start of sector `sec`. -/
def spanByte (v : Volume) (sec i : Nat) : UInt8 := v.sectors (sec + i / bsize) (i % bsize)

def Geometry.Data (g : Geometry) (c : Nat) : Prop := 2 ≤ c ∧ c ≤ g.dataClusCnt + 1

instance (c : Nat) : Decidable (g.Data c) := inferInstanceAs (Decidable (_ ∧ _))

def clusByte (g : Geometry) (v : Volume) (c i : Nat) : UInt8 :=
  spanByte v (firstSecOfClus g c) i

variable {c i n o : Nat}

theorem firstSec_eq (hc : g.Data c) :
    firstSecOfClus g c = (c - 2) * g.secPerClus + g.firstDataSec := by
  obtain ⟨hlo, hhi⟩ := hc
  have hle : (c - 2) * g.secPerClus + g.secPerClus ≤ g.dataClusCnt * g.secPerClus := by
    rw [← Nat.succ_mul]
    exact Nat.mul_le_mul_right _ (by omega)
  have hdata := g.data_le
  have hpos := g.secPerClus_pos
  rw [firstSecOfClus, show c + 2 ^ 32 - 2 = (c - 2) + 2 ^ 32 by omega, Nat.add_mul,
    Nat.add_right_comm, Nat.add_mul_mod_self_left, Nat.mod_eq_of_lt (by omega)]

theorem sectors_apart {c' : Nat} (hc : g.Data c) (hc' : g.Data c') (hne : c ≠ c') :
    firstSecOfClus g c + g.secPerClus ≤ firstSecOfClus g c' ∨
      firstSecOfClus g c' + g.secPerClus ≤ firstSecOfClus g c := by
  have hlt : ∀ {a b : Nat}, g.Data a → a < b →
      (a - 2) * g.secPerClus + g.secPerClus ≤ (b - 2) * g.secPerClus := by
    intro a b ha hab
    rw [← Nat.succ_mul]
    exact Nat.mul_le_mul_right _ (by have := ha.1; omega)
  rw [firstSec_eq hc, firstSec_eq hc']
  rcases Nat.lt_or_gt_of_ne hne with h | h
  · have := hlt hc h
    omega
  · have := hlt hc' h
    omega

theorem clus_sectors (hi : i < g.bytsPerClus) : i / bsize < g.secPerClus := by
  rw [Nat.div_lt_iff_lt_mul (by decide)]
  exact hi

theorem clusByte_congr
    (h : ∀ sec j, firstSecOfClus g c ≤ sec → sec < firstSecOfClus g c + g.secPerClus →
      j < bsize → v'.sectors sec j = v.sectors sec j) (hi : i < g.bytsPerClus) :
    clusByte g v' c i = clusByte g v c i := by
  exact h _ _ (Nat.le_add_right ..) (Nat.add_lt_add_left (clus_sectors hi) _)
    (Nat.mod_lt _ (by decide))

theorem accessible_eq {p : Nat → Bool} {a : Nat} (h : ∀ i, i < n → p (a + i) = true) :
    accessible p a n = n := by
  induction n generalizing a with
  | zero => rfl
  | succ n ih =>
      have hzero : p a = true := h 0 (by omega)
      rw [accessible, if_pos hzero, ih fun i hi => ?_]
      have := h (i + 1) (by omega)
      rwa [show a + (i + 1) = a + 1 + i by omega] at this

theorem accessible_le (p : Nat → Bool) (a n : Nat) : accessible p a n ≤ n := by
  induction n generalizing a with
  | zero => exact Nat.le_refl _
  | succ n ih =>
      rw [accessible]
      split
      · exact Nat.succ_le_succ (ih _)
      · exact Nat.zero_le _

theorem block_of_round {b m : Nat} (hm : m ≤ b - o % b) (hlo : o ≤ i)
    (hhi : i < o + m) : i / b = o / b ∧ i % b = o % b + (i - o) := by
  have ho := Nat.div_add_mod o b
  have hi : i = o % b + (i - o) + b * (o / b) := by omega
  have hlt : o % b + (i - o) < b := by omega
  have hdiv : i / b = o / b := by
    rw [hi, Nat.add_mul_div_left _ _ (by omega), Nat.div_eq_of_lt hlt, Nat.zero_add]
  have := Nat.div_add_mod i b
  rw [hdiv] at this
  omega

theorem round_next :
    (o + (bsize - o % bsize)) / bsize = o / bsize + 1 ∧ (o + (bsize - o % bsize)) % bsize = 0 := by
  unfold bsize
  omega

/-- The loop of `rw_clus`, with an invariant of the bytes moved. `o` is the offset
of the first byte from sector `sec₀` on. The loop moves all bytes, or stops in a
round that fails. -/
theorem rwLoop_rule {σ : Type} (io : Nat → Nat → Nat → Nat → σ → σ × Bool) (n sec₀ o : Nat)
    (I : Nat → σ → Prop)
    (hstep : ∀ tot m s, 0 < m → tot + m ≤ n → m ≤ bsize - (o + tot) % bsize → I tot s →
      (io (sec₀ + (o + tot) / bsize) ((o + tot) % bsize) m tot s).2 = true →
      I (tot + m) (io (sec₀ + (o + tot) / bsize) ((o + tot) % bsize) m tot s).1) :
    ∀ fuel tot sec off s, tot ≤ n → n - tot ≤ fuel → off % bsize = (o + tot) % bsize →
      (tot < n → sec = sec₀ + (o + tot) / bsize) → I tot s →
      (∃ s', rwLoop io n fuel sec off tot s = (n, s') ∧ I n s') ∨
      ∃ r m s₁, r + m ≤ n ∧ 0 < m ∧ m ≤ bsize - (o + r) % bsize ∧ I r s₁ ∧
        (io (sec₀ + (o + r) / bsize) ((o + r) % bsize) m r s₁).2 = false ∧
        rwLoop io n fuel sec off tot s =
          (r, (io (sec₀ + (o + r) / bsize) ((o + r) % bsize) m r s₁).1) := by
  intro fuel
  induction fuel with
  | zero =>
      intro tot sec off s htot hfuel _ _ hI
      obtain rfl : tot = n := by omega
      exact .inl ⟨s, rfl, hI⟩
  | succ fuel ih =>
      intro tot sec off s htot hfuel hoff hsec hI
      rw [rwLoop]
      by_cases hlt : tot < n
      · obtain rfl := hsec hlt
        obtain ⟨m, hm⟩ : ∃ m, m = min (bsize - (o + tot) % bsize) (n - tot) := ⟨_, rfl⟩
        have hmod := Nat.mod_lt (o + tot) (show 0 < bsize by decide)
        have hle : m ≤ bsize - (o + tot) % bsize := by omega
        have hn : tot + m ≤ n := by omega
        have hround := hstep tot m s (by omega) hn hle hI
        rw [if_pos hlt, hoff, ← hm]
        dsimp only
        cases hio : io (sec₀ + (o + tot) / bsize) ((o + tot) % bsize) m tot s with
        | mk s₁ ok =>
            rw [hio] at hround
            cases ok with
            | true =>
                refine ih (tot + m) _ (off + m) s₁ hn (by omega) ?_ ?_ (hround rfl)
                · rw [← Nat.add_assoc, Nat.add_mod, hoff, ← Nat.add_mod]
                · intro hmore
                  obtain rfl : m = bsize - (o + tot) % bsize := by omega
                  rw [← Nat.add_assoc o, round_next.1, Nat.add_assoc]
            | false =>
                exact .inr ⟨tot, m, s, hn, by omega, hle, hI, by rw [hio], by rw [hio]⟩
      · obtain rfl : tot = n := by omega
        exact .inl ⟨s, by rw [if_neg hlt], hI⟩

/-- One round of a write, as bytes from sector `sec₀` on. -/
theorem spanByte_copyIn {mem : Nat → Option UInt8} {src sec₀ m tot : Nat}
    (hmem : ∀ i, i < m → (mem (src + tot + i)).isSome) (hm : m ≤ bsize - o % bsize) (i : Nat) :
    spanByte (copyIn mem src (sec₀ + o / bsize) (o % bsize) m tot v).1 sec₀ i =
      if o ≤ i ∧ i < o + m then (mem (src + tot + (i - o))).getD 0 else spanByte v sec₀ i := by
  have hk : accessible (fun a => (mem a).isSome) (src + tot) m = m := accessible_eq hmem
  unfold copyIn spanByte
  by_cases hi : o ≤ i ∧ i < o + m
  · obtain ⟨hdiv, hmod⟩ := block_of_round hm hi.1 hi.2
    rw [if_pos hi, hdiv]
    dsimp only
    rw [update_self, hmod, if_pos (by omega)]
    congr 3
    omega
  · dsimp only
    rw [update_apply]
    split
    · next heq =>
        have hdiv : i / bsize = o / bsize := by omega
        beta_reduce
        rw [if_neg, hdiv]
        intro hin
        apply hi
        have h₁ := Nat.div_add_mod i bsize
        have h₂ := Nat.div_add_mod o bsize
        rw [hdiv] at h₁
        omega
    · rfl

/-- A write of `n` bytes, from memory that can be read. -/
theorem rwLoop_copyIn (mem : Nat → Option UInt8) (src : Nat)
    (hmem : ∀ i, i < n → (mem (src + i)).isSome) (sec₀ o : Nat) (v : Volume) :
    ∃ v', rwLoop (copyIn mem src) n n (sec₀ + o / bsize) (o % bsize) 0 v = (n, v') ∧
      v'.fat = v.fat ∧ (∀ sec, sec < sec₀ ∨ sec₀ + (o + n - 1) / bsize < sec →
        v'.sectors sec = v.sectors sec) ∧ ∀ i, spanByte v' sec₀ i =
        if o ≤ i ∧ i < o + n then (mem (src + (i - o))).getD 0 else spanByte v sec₀ i := by
  let I : Nat → Volume → Prop := fun tot v' =>
    v'.fat = v.fat ∧ (∀ sec, sec < sec₀ ∨ sec₀ + (o + n - 1) / bsize < sec →
      v'.sectors sec = v.sectors sec) ∧
    ∀ i, spanByte v' sec₀ i =
      if o ≤ i ∧ i < o + tot then (mem (src + (i - o))).getD 0 else spanByte v sec₀ i
  have hread : ∀ tot m, tot + m ≤ n → ∀ i, i < m → (mem (src + tot + i)).isSome := by
    intro tot m hn i hi
    rw [Nat.add_assoc]
    exact hmem _ (by omega)
  have hstep := rwLoop_rule (copyIn mem src) n sec₀ o I ?_ n 0
    (sec₀ + o / bsize) (o % bsize) v (Nat.zero_le n) (Nat.le_refl _) (Nat.mod_mod ..)
    (fun _ => rfl) ⟨rfl, fun _ _ => rfl, fun i => by rw [if_neg (by omega)]⟩
  · rcases hstep with ⟨v', hrun, hI⟩ | ⟨r, m, v₁, hn, _, _, _, hbad, _⟩
    · exact ⟨v', hrun, hI⟩
    · have := accessible_eq (p := fun a => (mem a).isSome) (hread r m hn)
      simp [copyIn, this] at hbad
  · intro tot m v₁ hpos hn hm ⟨hfat, hout, hbyte⟩ _
    refine ⟨hfat, fun sec hsec => ?_, fun i => ?_⟩
    · have hlast : (o + tot) / bsize ≤ (o + n - 1) / bsize := Nat.div_le_div_right (by omega)
      have hne : sec ≠ sec₀ + (o + tot) / bsize := by
        rcases hsec with hlt | hgt
        · exact Nat.ne_of_lt (Nat.lt_of_lt_of_le hlt (Nat.le_add_right ..))
        · exact Nat.ne_of_gt (Nat.lt_of_le_of_lt (Nat.add_le_add_left hlast _) hgt)
      rw [← hout sec hsec]
      exact update_of_ne hne ..
    · rw [spanByte_copyIn (hread tot m hn) hm, hbyte]
      by_cases h : o + tot ≤ i ∧ i < o + tot + m
      · rw [if_pos h, if_pos (by omega), show src + tot + (i - (o + tot)) = src + (i - o) by omega]
      · rw [if_neg h]
        exact if_congr (by omega) rfl rfl

/-- A read of `n` bytes. The bytes that arrive are those of the sectors; all do
when the destination can be written. -/
theorem rwLoop_copyOut (writable : Nat → Bool) (dst : Nat) (sec₀ o : Nat)
    (v : Volume) (out : Nat → UInt8) :
    ∃ r k out', rwLoop (copyOut v writable dst) n n (sec₀ + o / bsize) (o % bsize) 0 out =
        (r, out') ∧ r ≤ k ∧ k ≤ n ∧ (∀ a, out' a =
        if dst ≤ a ∧ a < dst + k then spanByte v sec₀ (o + (a - dst)) else out a) ∧
      ((∀ i, i < n → writable (dst + i) = true) → r = n) := by
  let I : Nat → (Nat → UInt8) → Prop := fun tot out' =>
    ∀ a, out' a = if dst ≤ a ∧ a < dst + tot then spanByte v sec₀ (o + (a - dst)) else out a
  have hround : ∀ tot m k out₁, m ≤ bsize - (o + tot) % bsize → k ≤ m → I tot out₁ →
      accessible writable (dst + tot) m = k →
      I (tot + k)
        (copyOut v writable dst (sec₀ + (o + tot) / bsize) ((o + tot) % bsize) m tot out₁).1 := by
    intro tot m k out₁ hm hk hI hacc a
    rw [copyOut, hacc]
    dsimp only
    by_cases h : dst + tot ≤ a ∧ a < dst + tot + k
    · obtain ⟨hdiv, hmod⟩ := block_of_round (i := o + (a - dst)) hm (by omega) (by omega)
      rw [if_pos h, if_pos (by omega), spanByte, hdiv, hmod]
      congr 1
      omega
    · rw [if_neg h, hI a]
      exact if_congr (by omega) rfl rfl
  have hrun := rwLoop_rule (copyOut v writable dst) n sec₀ o I ?_
    n 0 (sec₀ + o / bsize) (o % bsize) out (Nat.zero_le n) (Nat.le_refl _) (Nat.mod_mod ..)
    (fun _ => rfl) fun a => by rw [if_neg (by omega)]
  · rcases hrun with ⟨out', hrun, hI⟩ | ⟨r, m, out₁, hn, _, hm, hI, hbad, hrun⟩
    · exact ⟨n, n, out', hrun, Nat.le_refl _, Nat.le_refl _, hI, fun _ => rfl⟩
    · have hk := accessible_le writable (dst + r) m
      refine ⟨r, _, _, hrun, Nat.le_add_right .., ?_, hround r m _ out₁ hm hk hI rfl, ?_⟩
      · omega
      · intro hall
        have hacc : accessible writable (dst + r) m = m := accessible_eq fun i hi => by
          rw [Nat.add_assoc]
          exact hall _ (by omega)
        simp [copyOut, hacc] at hbad
  · intro tot m out₁ _ hn hm hI hok
    have hacc : accessible writable (dst + tot) m = m := by simpa [copyOut] using hok
    exact hround tot m m out₁ hm (Nat.le_refl _) hI hacc

theorem rwClus_eq {σ : Type} {io : Nat → Nat → Nat → Nat → σ → σ × Bool} {s : σ}
    (hfit : o + n ≤ g.bytsPerClus) :
    rwClus g io c o n s =
      some (rwLoop io n n (firstSecOfClus g c + o / bsize) (o % bsize) 0 s) := by
  rw [rwClus, if_neg]
  exact Nat.not_lt.mpr (Nat.le_trans (Nat.mod_le ..) hfit)

theorem rwClus_copyIn {mem : Nat → Option UInt8} {src : Nat} (hc : g.Data c)
    (hpos : 0 < n) (hfit : o + n ≤ g.bytsPerClus) (hmem : ∀ i, i < n → (mem (src + i)).isSome) :
    ∃ v', rwClus g (copyIn mem src) c o n v = some (n, v') ∧ v'.fat = v.fat ∧
      (∀ i, clusByte g v' c i =
        if o ≤ i ∧ i < o + n then (mem (src + (i - o))).getD 0 else clusByte g v c i) ∧
      ∀ d, g.Data d → d ≠ c → ∀ i, i < g.bytsPerClus → clusByte g v' d i = clusByte g v d i := by
  obtain ⟨v', hrun, hfat, hout, hbyte⟩ := rwLoop_copyIn mem src hmem (firstSecOfClus g c) o v
  refine ⟨v', by rw [rwClus_eq hfit, hrun], hfat, hbyte, fun d hd hne i hi => ?_⟩
  have hlast : (o + n - 1) / bsize < g.secPerClus := clus_sectors (by omega)
  refine clusByte_congr (fun sec j hlo hhi _ => ?_) hi
  rw [hout sec]
  rcases sectors_apart hd hc hne with h | h
  · exact .inl (Nat.lt_of_lt_of_le hhi h)
  · exact .inr (Nat.lt_of_lt_of_le (Nat.add_lt_add_left hlast _) (Nat.le_trans h hlo))

theorem rwClus_copyOut (v : Volume) (writable : Nat → Bool) (dst c : Nat)
    (out : Nat → UInt8) (hfit : o + n ≤ g.bytsPerClus) :
    ∃ r k out', rwClus g (copyOut v writable dst) c o n out = some (r, out') ∧ r ≤ k ∧ k ≤ n ∧
      (∀ a, out' a = if dst ≤ a ∧ a < dst + k then clusByte g v c (o + (a - dst)) else out a) ∧
      ((∀ i, i < n → writable (dst + i) = true) → r = n) := by
  obtain ⟨r, k, out', hrun, h⟩ := rwLoop_copyOut writable dst (firstSecOfClus g c) o v out
  exact ⟨r, k, out', by rw [rwClus_eq hfit, hrun], h⟩

theorem clusByte_zeroClus {d : Nat} (hc : g.Data c) (hd : g.Data d) (hne : d ≠ c)
    (hi : i < g.bytsPerClus) : clusByte g (zeroClus g v c) d i = clusByte g v d i := by
  refine clusByte_congr (fun sec j hlo hhi _ => ?_) hi
  have := sectors_apart hd hc hne
  exact if_neg (by omega)

/-- Each cluster's entry is the next one, and the last entry is an end mark, one of
`0x0ffffff8` to `0x0fffffff`. -/
def Linked (fat : Nat → Nat) : List Nat → Prop
  | [] => True
  | [c] => eoc ≤ fat c ∧ fat c ≤ eoc + 7
  | c :: d :: cs => fat c = d ∧ Linked fat (d :: cs)

/-- Chains in range that end with an end mark and share no cluster. -/
structure WF (g : Geometry) (v : Volume) (chains : List (List Nat)) : Prop where
  data : ∀ cs ∈ chains, ∀ c ∈ cs, g.Data c
  linked : ∀ cs ∈ chains, Linked v.fat cs
  disjoint : chains.flatten.Nodup

def freeClusters (g : Geometry) (v : Volume) : List Nat :=
  (range g.fatEntries).filter (v.fat · = 0)

variable {fat fat' : Nat → Nat} {cs : List Nat} {chains : List (List Nat)}

theorem Linked.congr (h : ∀ c ∈ cs, fat' c = fat c) (hl : Linked fat cs) : Linked fat' cs := by
  induction cs with
  | nil => trivial
  | cons c cs ih =>
      cases cs with
      | nil =>
          have hc := h c (by simp)
          rw [Linked, hc]
          exact hl
      | cons d cs =>
          have hc := h c (by simp)
          exact ⟨hc.trans hl.1, ih (fun x hx => h x (mem_cons_of_mem _ hx)) hl.2⟩

theorem Linked.next {d : Nat} (hl : Linked fat cs) (hc : cs[i]? = some c)
    (hd : cs[i + 1]? = some d) : fat c = d := by
  induction cs generalizing i with
  | nil => simp at hc
  | cons a cs ih =>
      cases cs with
      | nil => simp at hd
      | cons b cs =>
          cases i with
          | zero =>
              simp only [getElem?_cons_zero, Option.some.injEq, getElem?_cons_succ] at hc hd
              rw [← hc, ← hd]
              exact hl.1
          | succ i => exact ih hl.2 hc hd

theorem Linked.last (hl : Linked fat cs) (hc : cs[i]? = some c)
    (hi : i + 1 = cs.length) : eoc ≤ fat c ∧ fat c ≤ eoc + 7 := by
  induction cs generalizing i with
  | nil => simp at hc
  | cons a cs ih =>
      cases cs with
      | nil =>
          obtain rfl : i = 0 := by simpa using hi
          obtain rfl : a = c := by simpa using hc
          exact hl
      | cons b cs =>
          cases i with
          | zero => simp at hi
          | succ i => exact ih hl.2 hc (by simpa using hi)

theorem Linked.ne_zero (hl : Linked fat cs) (hdata : ∀ c ∈ cs, g.Data c)
    (hc : c ∈ cs) : fat c ≠ 0 := by
  obtain ⟨i, hi, rfl⟩ := getElem_of_mem hc
  by_cases hlast : i + 1 = cs.length
  · have := (hl.last (getElem?_eq_getElem hi) hlast).1
    unfold eoc at this
    omega
  · have hi' : i + 1 < cs.length := by omega
    rw [hl.next (getElem?_eq_getElem hi) (getElem?_eq_getElem hi')]
    have := (hdata _ (getElem_mem hi')).1
    omega

theorem WF.not_mem (hwf : WF g v chains) (hc : v.fat c = 0) : c ∉ chains.flatten := by
  intro hmem
  obtain ⟨cs, hcs, hin⟩ := mem_flatten.mp hmem
  exact (hwf.linked cs hcs).ne_zero (hwf.data cs hcs) hin hc

/-- The volume after `alloc_clus` took `c`. -/
def taken (g : Geometry) (v : Volume) (c : Nat) : Volume :=
  zeroClus g { v with fat := update v.fat c (eoc + 7) } c

theorem taken_fat : (taken g v c).fat = update v.fat c (eoc + 7) := rfl

theorem allocClus_eq : allocClus g v = (freeClusters g v).head?.map fun c => (c, taken g v c) := by
  rw [allocClus, freeClusters, head?_filter]
  split
  · next h => rw [h]; rfl
  · next h => rw [h]; rfl

theorem free_of_mem (hc : c ∈ freeClusters g v) : v.fat c = 0 := by
  simpa using (mem_filter.mp hc).2

theorem freeClusters_update {x : Nat} {rest : List Nat} (h : freeClusters g v = c :: rest)
    (hx : x ≠ 0) (hv : v'.fat = update v.fat c x) : freeClusters g v' = rest := by
  have hnodup : (c :: rest).Nodup := h ▸ nodup_range.filter _
  have hfilter : freeClusters g v' = (freeClusters g v).filter (· ≠ c) := by
    rw [freeClusters, freeClusters, filter_filter]
    refine filter_congr fun d _ => ?_
    rw [hv, update_apply]
    by_cases hd : d = c
    · simp [hd, hx]
    · simp [hd]
  rw [hfilter, h, filter_cons_of_neg (by simp)]
  refine filter_eq_self.mpr fun d hd => ?_
  simpa using fun heq : d = c => (nodup_cons.mp hnodup).1 (heq ▸ hd)

theorem freeClusters_congr {l x : Nat} (hl : v.fat l ≠ 0) (hx : x ≠ 0)
    (hv : v'.fat = update v.fat l x) : freeClusters g v' = freeClusters g v := by
  refine filter_congr fun d _ => ?_
  rw [hv, update_apply]
  by_cases hd : d = l
  · simp [hd, hx, hl]
  · simp [hd]

theorem Linked.append {l : Nat} (hl : Linked fat cs) (hnodup : cs.Nodup) (hc : c ∉ cs)
    (hlast : cs.getLast? = some l) : Linked (update (update fat c (eoc + 7)) l c) (cs ++ [c]) := by
  induction cs with
  | nil => simp at hlast
  | cons a cs ih =>
      obtain ⟨hac, hc⟩ := ne_and_not_mem_of_not_mem_cons hc
      obtain ⟨ha, hnodup⟩ := nodup_cons.mp hnodup
      cases cs with
      | nil =>
          obtain rfl : a = l := by simpa using hlast
          refine ⟨update_self .., ?_⟩
          rw [Linked, update_of_ne hac, update_self]
          exact ⟨Nat.le_add_right .., Nat.le_refl _⟩
      | cons b cs =>
          have hlast' : (b :: cs).getLast? = some l := by
            rwa [getLast?_cons_cons] at hlast
          have hal : a ≠ l := fun h => ha (h ▸ mem_of_getLast? hlast')
          refine ⟨?_, ih hl.2 hnodup hc hlast'⟩
          rw [update_of_ne hal, update_of_ne (Ne.symm hac)]
          exact hl.1

theorem WF.first {others : List (List Nat)} (hwf : WF g v ([] :: others))
    (hc : g.Data c) (hfree : v.fat c = 0) : WF g (taken g v c) ([c] :: others) := by
  have hnot := hwf.not_mem hfree
  constructor
  · intro ds hds d hd
    rcases mem_cons.mp hds with rfl | hds
    · rwa [mem_singleton.mp hd]
    · exact hwf.data ds (mem_cons_of_mem _ hds) d hd
  · intro ds hds
    rcases mem_cons.mp hds with rfl | hds
    · rw [Linked, taken_fat, update_self]
      exact ⟨Nat.le_add_right .., Nat.le_refl _⟩
    · refine (hwf.linked ds (mem_cons_of_mem _ hds)).congr fun d hd => ?_
      refine update_of_ne (fun h => hnot ?_) ..
      exact h ▸ mem_flatten_of_mem (mem_cons_of_mem _ hds) hd
  · exact nodup_cons.mpr ⟨hnot, hwf.disjoint⟩

theorem WF.grow {others : List (List Nat)} (hwf : WF g v (cs :: others)) {l : Nat}
    (hc : g.Data c) (hfree : v.fat c = 0) (hlast : cs.getLast? = some l) :
    WF g (writeFat g (taken g v c) l c) ((cs ++ [c]) :: others) := by
  have hnot := hwf.not_mem hfree
  obtain ⟨hcs, hothers⟩ := not_or.mp (mem_append.not.mp hnot)
  have hdis := hwf.disjoint
  rw [flatten_cons, nodup_append] at hdis
  have hl := mem_of_getLast? hlast
  have hfat : (writeFat g (taken g v c) l c).fat = update (update v.fat c (eoc + 7)) l c := by
    rw [writeFat, if_neg]
    · rfl
    · have := (hwf.data cs (mem_cons_self ..) l hl).2
      omega
  constructor
  · intro ds hds d hd
    rcases mem_cons.mp hds with rfl | hds
    · rcases mem_append.mp hd with hd | hd
      · exact hwf.data cs (mem_cons_self ..) d hd
      · rwa [mem_singleton.mp hd]
    · exact hwf.data ds (mem_cons_of_mem _ hds) d hd
  · intro ds hds
    rw [hfat]
    rcases mem_cons.mp hds with rfl | hds
    · exact (hwf.linked cs (mem_cons_self ..)).append hdis.1 hcs hlast
    · refine (hwf.linked ds (mem_cons_of_mem _ hds)).congr fun d hd => ?_
      have hin := mem_flatten_of_mem hds hd
      rw [update_of_ne fun h => hdis.2.2 l hl d hin h.symm,
        update_of_ne fun h : d = c => hothers (h ▸ hin)]
  · rw [flatten_cons, append_assoc, singleton_append]
    exact (perm_middle.nodup_iff).mpr (nodup_cons.mpr ⟨hnot, by
      exact hwf.disjoint⟩)

end F7ly.Fs.Fat32
