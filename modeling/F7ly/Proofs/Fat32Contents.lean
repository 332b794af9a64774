import F7ly.Proofs.Fat32File

/-!
# Reading back what was written

The loops of `ewrite` and `eread`, and what a read returns after a write.
-/

namespace F7ly.Fs.Fat32

open List

variable {g : Geometry} {v v' : Volume} {e e' : Entry} {cs : List Nat}
  {others : List (List Nat)} {new : Nat → UInt8} {mem : Nat → Option UInt8}

/-- The clusters that a chain lacks for a file that ends at `hi`. -/
def needed (g : Geometry) (cs : List Nat) (hi : Nat) : Nat :=
  (hi + g.bytsPerClus - 1) / g.bytsPerClus - cs.length

def FreeData (g : Geometry) (v : Volume) (k : Nat) : Prop :=
  ∀ c ∈ (freeClusters g v).take k, g.Data c

theorem needed_pos {hi : Nat} (h : cs.length * g.bytsPerClus < hi) :
    needed g cs hi = needed g cs hi - 1 + 1 := by
  have hle : cs.length + 1 ≤ (hi + g.bytsPerClus - 1) / g.bytsPerClus := by
    rw [Nat.le_div_iff_mul_le (bytsPerClus_pos g), Nat.succ_mul]
    omega
  unfold needed
  omega

theorem needed_append {hi c : Nat} : needed g (cs ++ [c]) hi = needed g cs hi - 1 := by
  simp only [needed, length_append, length_singleton]
  omega

variable {rest : List Nat} {off : Nat} {content : Nat → UInt8}

theorem FreeData.head {k c : Nat} (h : FreeData g v (k + 1))
    (hfree : freeClusters g v = c :: rest) : g.Data c :=
  h c (by rw [hfree]; exact mem_cons_self ..)

theorem FreeData.tail {k c : Nat} (h : FreeData g v (k + 1))
    (hfree : freeClusters g v = c :: rest) (hv : freeClusters g v' = rest) : FreeData g v' k := by
  intro d hd
  rw [hv] at hd
  exact h d (by rw [hfree, take_succ_cons]; exact mem_cons_of_mem _ hd)

theorem freeClusters_taken {c : Nat} (h : freeClusters g v = c :: rest) :
    freeClusters g (taken g v c) = rest :=
  freeClusters_update h (by decide) taken_fat

variable (new) in
/-- `reloc_clus` in the loop of `ewrite`: it panics, or it ends at the cluster of
the offset, in a chain that has it. -/
theorem relocClus_write (hwf : WF g v (cs :: others)) (hne : cs ≠ [])
    (hfirst : e.firstClus = cs.headD 0) (hpos : cs[e.clusCnt]? = some e.curClus)
    {hi : Nat} (hoff : off ≤ cs.length * g.bytsPerClus) (hhi : off < hi)
    (hfree : FreeData g v (needed g cs hi)) :
    relocClus g v e off true = none ∨ ∃ v₁ cs₁, relocClus g v e off true =
        some (some (off % g.bytsPerClus), v₁, e.moveTo cs₁ (off / g.bytsPerClus)) ∧
      off / g.bytsPerClus < cs₁.length ∧ Wrote g v cs others new off off v₁ cs₁ ∧
      FreeData g v₁ (needed g cs₁ hi) := by
  have hb := bytsPerClus_pos g
  by_cases hlt : off / g.bytsPerClus < cs.length
  · exact .inr ⟨v, cs, relocClus_within hwf hfirst hpos true hlt, hlt, .refl hwf hoff, hfree⟩
  · have hge : cs.length * g.bytsPerClus ≤ off :=
      (Nat.le_div_iff_mul_le hb).mp (Nat.not_lt.mp hlt)
    have hend : off / g.bytsPerClus = cs.length := by
      rw [Nat.le_antisymm hoff hge, Nat.mul_div_cancel _ hb]
    rw [relocClus_grow hwf hne hpos hend]
    cases hclus : freeClusters g v with
    | nil => exact .inl rfl
    | cons c rest =>
        rw [needed_pos (by omega)] at hfree
        have hc := hfree.head hclus
        have hzero : v.fat c = 0 := free_of_mem (by rw [hclus]; exact mem_cons_self ..)
        have hlast := getLast?_eq_some_getLast hne
        have hl := getLast_mem hne
        refine .inr ⟨_, cs ++ [c], by rw [hend], by rw [hend]; simp,
          wrote_grow hwf hc hzero hlast ?_, ?_⟩
        · rw [Nat.succ_mul]
          omega
        · rw [needed_append]
          refine hfree.tail hclus ((freeClusters_congr (l := cs.getLast hne) (x := c)
            ?_ ?_ ?_).trans (freeClusters_taken hclus))
          · have hcl : cs.getLast hne ≠ c := fun h => by
              refine hwf.not_mem hzero ?_
              rw [← h, flatten_cons]
              exact mem_append_left _ hl
            rw [taken_fat, Function.update_of_ne hcl]
            exact (hwf.linked cs (mem_cons_self ..)).ne_zero
              (hwf.data cs (mem_cons_self ..)) hl
          · have := hc.1
            omega
          · rw [writeFat, if_neg]
            have := (hwf.data cs (mem_cons_self ..) _ hl).2
            omega

/-- The loop of `ewrite` writes all bytes, when it can read them. -/
theorem ewriteLoop_wrote (new : Nat → UInt8) {src n : Nat}
    (hmem : ∀ i, i < n → (mem (src + i)).isSome) :
    ∀ fuel off tot v e cs, tot ≤ n → n - tot ≤ fuel → WF g v (cs :: others) → cs ≠ [] →
      e.firstClus = cs.headD 0 → cs[e.clusCnt]? = some e.curClus → off ≤ cs.length * g.bytsPerClus →
      (∀ p, off ≤ p → p < off + (n - tot) → new p = (mem (src + tot + (p - off))).getD 0) →
      FreeData g v (needed g cs (off + (n - tot))) →
      ∀ tot' off' v' e', ewriteLoop g mem src n fuel off tot v e = some (tot', off', v', e') →
        tot' = n ∧ off' = off + (n - tot) ∧
        ∃ cs' i, Wrote g v cs others new off off' v' cs' ∧ i < cs'.length ∧
          e' = e.moveTo cs' i := by
  have hdone : ∀ off v (e : Entry) cs, WF g v (cs :: others) → cs[e.clusCnt]? = some e.curClus →
      off ≤ cs.length * g.bytsPerClus →
      ∃ cs' i, Wrote g v cs others new off off v cs' ∧ i < cs'.length ∧
        e = e.moveTo cs' i := fun off v e cs hwf hpos hoff =>
    ⟨cs, e.clusCnt, .refl hwf hoff, (List.getElem?_eq_some_iff.mp hpos).1, (moveTo_self hpos).symm⟩
  intro fuel
  induction fuel with
  | zero =>
      intro off tot v e cs htot hfuel hwf _ _ hpos hoff _ _ tot' off' v' e' hrun
      obtain ⟨rfl, rfl, rfl, rfl⟩ : tot = tot' ∧ off = off' ∧ v = v' ∧ e = e' := by
        simpa [ewriteLoop] using hrun
      obtain rfl : tot = n := by omega
      rw [Nat.sub_self]
      exact ⟨rfl, rfl, hdone off v e cs hwf hpos hoff⟩
  | succ fuel ih =>
      intro off tot v e cs htot hfuel hwf hne hfirst hpos hoff hnew hfree tot' off' v' e' hrun
      rw [ewriteLoop] at hrun
      by_cases hlt : tot < n
      · rw [if_pos hlt] at hrun
        rcases relocClus_write new hwf hne hfirst hpos hoff
          (show off < off + (n - tot) by omega) hfree with hnone | ⟨v₁, cs₁, hloc, hin, hw₁, hfree₁⟩
        · rw [hnone] at hrun
          simp at hrun
        · obtain ⟨m, hm⟩ : ∃ m, m = min (g.bytsPerClus - off % g.bytsPerClus) (n - tot) := ⟨_, rfl⟩
          have hmod := Nat.mod_lt off (bytsPerClus_pos g)
          obtain ⟨v₂, hrw, hfat, hw₂⟩ := wrote_clus new mem (src + tot) (m := m)
            hw₁.wf hin (by omega) (by omega)
            (fun i hi => by rw [Nat.add_assoc]; exact hmem _ (by omega))
            (fun p hlo hhi => hnew p hlo (by omega))
          rw [hloc] at hrun
          dsimp only at hrun
          rw [← hm, show (e.moveTo cs₁ (off / g.bytsPerClus)).curClus =
            cs₁.getD (off / g.bytsPerClus) 0 from rfl, hrw] at hrun
          dsimp only at hrun
          rw [if_pos rfl] at hrun
          have hrest : off + m + (n - (tot + m)) = off + (n - tot) := by omega
          have hne₁ : cs₁ ≠ [] := fun h => by simp [h] at hin
          have hfirst₁ : (e.moveTo cs₁ (off / g.bytsPerClus)).firstClus = cs₁.headD 0 := by
            obtain ⟨es, rfl⟩ := hw₁.grows
            cases cs with
            | nil => exact absurd rfl hne
            | cons c cs => exact hfirst
          have hfree₂ : FreeData g v₂ (needed g cs₁ (off + m + (n - (tot + m)))) := by
            rw [hrest, FreeData, freeClusters, hfat]
            exact hfree₁
          obtain ⟨htot', hoff', cs', i, hw₃, hi, he'⟩ := ih (off + m) (tot + m) v₂ _ cs₁
            (by omega) (by omega) hw₂.wf hne₁ hfirst₁ (moveTo_position hin) hw₂.room
            (fun p hlo hhi => by
              rw [hnew p (by omega) (by omega)]
              congr 2
              omega) hfree₂ tot' off' v' e' hrun
          refine ⟨htot', hoff'.trans hrest, cs', i, ?_, hi, he'⟩
          exact hw₁.trans (hw₂.trans hw₃ (by omega) (by omega)) (by omega) (by omega)
      · rw [if_neg hlt] at hrun
        obtain ⟨rfl, rfl, rfl, rfl⟩ : tot = tot' ∧ off = off' ∧ v = v' ∧ e = e' := by
          simpa using hrun
        obtain rfl : tot = n := by omega
        rw [Nat.sub_self]
        exact ⟨rfl, rfl, hdone off v e cs hwf hpos hoff⟩

theorem asInt_pos {n : Nat} (hn : n < 2 ^ 32) (h : 0 < asInt n) : asInt n = n := by
  unfold asInt at h ⊢
  split at h
  · next hlt => rw [if_pos hlt]
  · omega

theorem ewrite_inv {src n : Nat} {r : Int}
    (hrun : ewrite g v e mem src off n = some (r, v', e')) (hr : 0 < r) :
    off ≤ e.fileSize ∧ off + n < 2 ^ 32 ∧ ∃ v₁ e₁ tot off' e₂, (e.firstClus ≠ 0 ∧ v₁ = v ∧ e₁ = e ∨
        e.firstClus = 0 ∧ ∃ c, allocClus g v = some (c, v₁) ∧
          e₁ = { e with curClus := c, firstClus := c, clusCnt := 0, dirty := true }) ∧
      ewriteLoop g mem src n n off 0 v₁ e₁ = some (tot, off', v', e₂) ∧ r = asInt tot ∧
      e' = if n > 0 ∧ off' > e₂.fileSize then { e₂ with fileSize := off', dirty := true }
        else e₂ := by
  rw [ewrite] at hrun
  split at hrun
  · obtain ⟨rfl, _⟩ : -1 = r ∧ _ := by simpa using hrun
    omega
  next hok =>
  refine ⟨by omega, by omega, ?_⟩
  by_cases hfirst : e.firstClus = 0
  · rw [if_pos hfirst] at hrun
    cases halloc : allocClus g v with
    | none => simp [halloc] at hrun
    | some p =>
        rw [halloc] at hrun
        dsimp only at hrun
        split at hrun
        · cases hrun
        · next tot off' v₂ e₂ hloop =>
            obtain ⟨rfl, rfl, rfl⟩ := by simpa using hrun
            exact ⟨_, _, tot, off', e₂, .inr ⟨hfirst, _, rfl, rfl⟩, hloop, rfl, rfl⟩
  · rw [if_neg hfirst] at hrun
    dsimp only at hrun
    split at hrun
    · cases hrun
    · next tot off' v₂ e₂ hloop =>
        obtain ⟨rfl, rfl, rfl⟩ := by simpa using hrun
        exact ⟨_, _, tot, off', e₂, .inl ⟨hfirst, rfl, rfl⟩, hloop, rfl, rfl⟩

theorem FileAt.nil_iff (hwf : WF g v (cs :: others)) (hfile : FileAt g e cs) :
    e.firstClus = 0 ↔ cs = [] := by
  constructor
  · intro h
    cases cs with
    | nil => rfl
    | cons c cs =>
        have hc := (hwf.data _ (mem_cons_self ..) c (mem_cons_self ..)).1
        have := hfile.first
        rw [h, headD_cons] at this
        omega
  · intro h
    rw [hfile.first, h]
    rfl

theorem ewrite_wrote {src n : Nat} {r : Int} (hwf : WF g v (cs :: others))
    (hfile : FileAt g e cs) (hmem : ∀ i, i < n → (mem (src + i)).isSome)
    (hfree : FreeData g v (needed g cs (off + n)))
    (hrun : ewrite g v e mem src off n = some (r, v', e')) (hr : 0 < r) :
    r = n ∧ ∃ cs', Wrote g v cs others (fun p => (mem (src + (p - off))).getD 0) off (off + n)
        v' cs' ∧ FileAt g e' cs' ∧ e'.fileSize = max e.fileSize (off + n) := by
  obtain ⟨hoff, hfit, v₁, e₁, tot, off', e₂, hstart, hloop, hret, he'⟩ := ewrite_inv hrun hr
  have hn : 0 < n := by
    rcases Nat.eq_zero_or_pos n with rfl | hn
    · obtain ⟨rfl, _⟩ : 0 = tot ∧ _ := by simpa [ewriteLoop] using hloop
      simp [asInt, hret] at hr
    · exact hn
  -- the chain that the loop starts with
  obtain ⟨cs₁, hw₁, hne₁, hfirst₁, hpos₁, hsize₁, hfree₁⟩ : ∃ cs₁,
      Wrote g v cs others (fun p => (mem (src + (p - off))).getD 0) off off v₁ cs₁ ∧ cs₁ ≠ [] ∧
      e₁.firstClus = cs₁.headD 0 ∧ cs₁[e₁.clusCnt]? = some e₁.curClus ∧
      e₁.fileSize = e.fileSize ∧ FreeData g v₁ (needed g cs₁ (off + n)) := by
    rcases hstart with ⟨hzero, rfl, rfl⟩ | ⟨hzero, c, halloc, rfl⟩
    · have hne : cs ≠ [] := fun h => hzero ((hfile.nil_iff hwf).mpr h)
      exact ⟨cs, .refl hwf (Nat.le_trans hoff hfile.size), hne, hfile.first,
        hfile.position hne, rfl, hfree⟩
    · obtain rfl := (hfile.nil_iff hwf).mp hzero
      have hsize := hfile.size
      rw [length_nil, Nat.zero_mul] at hsize
      obtain rfl : off = 0 := by omega
      rw [allocClus_eq] at halloc
      cases hclus : freeClusters g v with
      | nil => simp [hclus] at halloc
      | cons d rest =>
          obtain ⟨rfl, rfl⟩ : d = c ∧ taken g v d = v₁ := by simpa [hclus] using halloc
          rw [needed_pos (by simpa using hn)] at hfree
          have hzero : v.fat d = 0 := free_of_mem (by rw [hclus]; exact mem_cons_self ..)
          refine ⟨[d], wrote_first hwf (hfree.head hclus) hzero, by simp, rfl, rfl, rfl, ?_⟩
          have := hfree.tail hclus (freeClusters_taken hclus)
          rwa [← needed_append (c := d)] at this
  obtain ⟨rfl, rfl, cs', i, hw₂, hi, rfl⟩ := ewriteLoop_wrote
    (fun p => (mem (src + (p - off))).getD 0) hmem n off 0 v₁ e₁ cs₁
    (Nat.zero_le _) (Nat.le_refl _) hw₁.wf hne₁ hfirst₁ hpos₁ hw₁.room
    (fun p _ _ => rfl) hfree₁ tot off' v' e₂ hloop
  have hw := hw₁.trans hw₂ (Nat.le_refl _) (Nat.le_add_right ..)
  have hfirst' : e₁.firstClus = cs'.headD 0 := by
    obtain ⟨es, rfl⟩ := hw₂.grows
    cases cs₁ with
    | nil => exact absurd rfl hne₁
    | cons c cs => exact hfirst₁
  have hcap : cs.length * g.bytsPerClus ≤ cs'.length * g.bytsPerClus :=
    Nat.mul_le_mul_right _ hw.grows.length_le
  have hsize := hfile.size
  have hroom := hw.room
  refine ⟨hret.trans (asInt_pos (by omega) (hret ▸ hr)), cs', hw, ?_, ?_⟩
  · subst he'
    split
    · exact ⟨hfirst', hroom, fun _ => moveTo_position (e := e₁) hi⟩
    · refine ⟨hfirst', ?_, fun _ => moveTo_position hi⟩
      exact hsize₁ ▸ Nat.le_trans hsize hcap
  · subst he'
    have hmove : (e₁.moveTo cs' i).fileSize = e.fileSize := hsize₁
    rw [hmove]
    split
    · next h => exact (Nat.max_eq_right (Nat.le_of_lt h.2)).symm
    · next h =>
        rw [hmove]
        exact (Nat.max_eq_left (Nat.not_lt.mp fun hlt => h ⟨hn, hlt⟩)).symm

/-- `k` bytes of `content`, from `off` on, went to `dst`. -/
def Arrived (content : Nat → UInt8) (dst off k : Nat) (out out' : Nat → UInt8) : Prop :=
  ∀ a, out' a = if dst ≤ a ∧ a < dst + k then content (off + (a - dst)) else out a

theorem Arrived.zero {dst : Nat} {out : Nat → UInt8} :
    Arrived content dst off 0 out out := fun a => by rw [if_neg (by omega)]

theorem Arrived.append {dst k k' : Nat} {out out₁ out' : Nat → UInt8}
    (h₁ : Arrived content dst off k out out₁)
    (h₂ : Arrived content (dst + k) (off + k) k' out₁ out') :
    Arrived content dst off (k + k') out out' := by
  intro a
  rw [h₂ a, h₁ a]
  by_cases ha : dst + k ≤ a ∧ a < dst + k + k'
  · rw [if_pos ha, if_pos (by omega), show off + k + (a - (dst + k)) = off + (a - dst) by omega]
  · rw [if_neg ha]
    exact if_congr (by omega) rfl rfl

/-- One round of the loop of `eread`. -/
theorem arrived_clus (v : Volume) (cs : List Nat) (writable : Nat → Bool) (dst : Nat)
    (out : Nat → UInt8) {m : Nat} (hm : m ≤ g.bytsPerClus - off % g.bytsPerClus) :
    ∃ r k out', rwClus g (copyOut v writable dst) (cs.getD (off / g.bytsPerClus) 0)
        (off % g.bytsPerClus) m out = some (r, out') ∧ r ≤ k ∧ k ≤ m ∧
      Arrived (fileByte g v cs) dst off k out out' ∧
      ((∀ i, i < m → writable (dst + i) = true) → r = m) := by
  have hmod := Nat.mod_lt off (bytsPerClus_pos g)
  obtain ⟨r, k, out', hrw, hrk, hkm, hout, hall⟩ :=
    rwClus_copyOut v writable dst (cs.getD (off / g.bytsPerClus) 0) out
      (show off % g.bytsPerClus + m ≤ g.bytsPerClus by omega)
  refine ⟨r, k, out', hrw, hrk, hkm, fun a => ?_, hall⟩
  rw [hout a]
  by_cases ha : dst ≤ a ∧ a < dst + k
  · obtain ⟨hdiv, hpmod⟩ := block_of_round (i := off + (a - dst)) hm (by omega) (by omega)
    rw [if_pos ha, if_pos ha, fileByte, hdiv, hpmod, Nat.add_sub_cancel_left]
  · rw [if_neg ha, if_neg ha]

/-- The loop of `eread`, inside the chain. -/
theorem ereadLoop_arrived (writable : Nat → Bool) (dst n : Nat) (hwf : WF g v (cs :: others)) :
    ∀ fuel off tot e out, tot ≤ n → n - tot ≤ fuel →
      off + (n - tot) ≤ cs.length * g.bytsPerClus → FileAt g e cs →
      ∃ r k e' out', ereadLoop g v writable dst n fuel off tot e out = some (r, e', out') ∧
        r ≤ tot + k ∧ tot + k ≤ n ∧ Arrived (fileByte g v cs) (dst + tot) off k out out' ∧
        FileAt g e' cs ∧ e'.fileSize = e.fileSize ∧
        ((∀ i, i < n → writable (dst + i) = true) → r = n) := by
  intro fuel
  induction fuel with
  | zero =>
      intro off tot e out htot hfuel _ hfile
      exact ⟨tot, 0, e, out, rfl, Nat.le_refl _, htot, .zero, hfile, rfl, fun _ => by omega⟩
  | succ fuel ih =>
      intro off tot e out htot hfuel hoff hfile
      rw [ereadLoop]
      by_cases hlt : tot < n
      · have hin : off / g.bytsPerClus < cs.length := index_lt (by omega)
        have hne : cs ≠ [] := fun h => by simp [h] at hin
        have hpos := hfile.position hne
        have hcur : e.curClus < eoc := data_lt_eoc
          (hwf.data cs (mem_cons_self ..) _ (mem_of_getElem? hpos))
        have hmoved : FileAt g (e.moveTo cs (off / g.bytsPerClus)) cs :=
          ⟨hfile.first, hfile.size, fun _ => moveTo_position hin⟩
        have hmod := Nat.mod_lt off (bytsPerClus_pos g)
        obtain ⟨m, hm⟩ : ∃ m, m = min (g.bytsPerClus - off % g.bytsPerClus) (n - tot) := ⟨_, rfl⟩
        obtain ⟨r, k, out₁, hrw, hrk, hkm, harr, hall⟩ := arrived_clus v cs writable (dst + tot)
          out (show m ≤ g.bytsPerClus - off % g.bytsPerClus by omega)
        rw [if_pos ⟨hcur, hlt⟩, relocClus_within hwf hfile.first hpos false hin]
        dsimp only
        rw [← hm, show (e.moveTo cs (off / g.bytsPerClus)).curClus =
          cs.getD (off / g.bytsPerClus) 0 from rfl, hrw]
        dsimp only
        by_cases hfull : r = m
        · obtain rfl : k = m := by omega
          rw [if_pos hfull]
          obtain ⟨r', k', e', out', hrun, hrk', hkn, harr', hfile', hsize', hall'⟩ :=
            ih (off + k) (tot + k) (e.moveTo cs (off / g.bytsPerClus)) out₁ (by omega)
              (by omega) (by omega) hmoved
          rw [← Nat.add_assoc] at harr'
          exact ⟨r', k + k', e', out', hrun, by omega, by omega, harr.append harr', hfile',
            hsize', hall'⟩
        · rw [if_neg hfull]
          refine ⟨tot, k, _, out₁, rfl, by omega, by omega, harr, hmoved, rfl, ?_⟩
          intro hw
          refine absurd (hall fun i hi => ?_) hfull
          rw [Nat.add_assoc]
          exact hw _ (by omega)
      · rw [if_neg (by omega)]
        exact ⟨tot, 0, e, out, rfl, Nat.le_refl _, htot, .zero, hfile, rfl, fun _ => by omega⟩

/-- What `eread` does with a file that holds `content`. The bytes that arrive, those
of a copy that failed included, are bytes of the file at their place. A read of an
ordinary file returns all that it asks for and the file has, if it can store them. -/
def Reads (g : Geometry) (v : Volume) (e : Entry) (cs : List Nat) (content : Nat → UInt8) : Prop :=
  ∀ writable dst off n out, ∃ r k e' out',
    eread g v e writable dst off n out = some (asInt r, e', out') ∧ r ≤ k ∧ k ≤ n ∧
    (0 < k → off + k ≤ e.fileSize) ∧ Arrived content dst off k out out' ∧
    FileAt g e' cs ∧ e'.fileSize = e.fileSize ∧
    (off ≤ e.fileSize → off + n < 2 ^ 32 → e.attr &&& attrDirectory = 0 →
      (∀ i, i < min n (e.fileSize - off) → writable (dst + i) = true) →
      r = min n (e.fileSize - off))

theorem eread_reads (hwf : WF g v (cs :: others)) (hfile : FileAt g e cs) :
    Reads g v e cs (fileByte g v cs) := by
  intro writable dst off n out
  rw [eread]
  split
  · next hbad =>
      refine ⟨0, 0, e, out, rfl, Nat.le_refl _, Nat.zero_le _, fun h => absurd h (by omega),
        .zero, hfile, rfl, fun hoff hfit hdir _ => ?_⟩
      rcases hbad with h | h | h
      · omega
      · omega
      · exact absurd hdir h
  next hok =>
  have hn : (if off + n > e.fileSize then e.fileSize - off else n) = min n (e.fileSize - off) := by
    split <;> omega
  have hsize := hfile.size
  rw [hn]
  obtain ⟨r, k, e', out', hrun, hrk, hkn, harr, hfile', hsize', hall⟩ :=
    ereadLoop_arrived writable dst (min n (e.fileSize - off)) hwf
      (min n (e.fileSize - off)) off 0 e out (Nat.zero_le _) (Nat.le_refl _) (by omega) hfile
  dsimp only
  rw [hrun]
  exact ⟨r, k, e', out', rfl, by omega, by omega, fun _ => by omega, harr, hfile', hsize',
    fun _ _ _ hw => hall hw⟩

theorem Reads.congr {content' : Nat → UInt8} (h : Reads g v e cs content)
    (heq : ∀ p, p < e.fileSize → content' p = content p) : Reads g v e cs content' := by
  intro writable dst off n out
  obtain ⟨r, k, e', out', hrun, hrk, hkn, hsize, harr, hrest⟩ := h writable dst off n out
  refine ⟨r, k, e', out', hrun, hrk, hkn, hsize, fun a => ?_, hrest⟩
  rw [harr a]
  by_cases ha : dst ≤ a ∧ a < dst + k
  · rw [if_pos ha, if_pos ha, heq _ (by omega)]
  · rw [if_neg ha, if_neg ha]

/-- The loop of `etrunc` frees the chain and nothing else. -/
theorem truncLoop_chain {s fuel : Nat} (hdata : ∀ c ∈ cs, g.Data c) (hl : Linked v.fat cs)
    (hnodup : cs.Nodup) (hend : cs = [] → ¬(2 ≤ s ∧ s < eoc))
    (hstart : ∀ c, cs.head? = some c → s = c) (hfuel : cs.length ≤ fuel) :
    truncLoop g fuel s v = some { v with fat := fun c => if c ∈ cs then 0 else v.fat c } := by
  induction cs generalizing s fuel v with
  | nil =>
      cases fuel with
      | zero => rw [truncLoop, if_neg (hend rfl)]; simp
      | succ fuel => rw [truncLoop, if_neg (hend rfl)]; simp
  | cons c cs ih =>
      obtain rfl : s = c := hstart c rfl
      have hc := hdata s (mem_cons_self ..)
      obtain ⟨hs, hnodup⟩ := nodup_cons.mp hnodup
      have hsame : ∀ d ∈ cs, (freeClus g v s).fat d = v.fat d := fun d hd => by
        rw [freeClus, writeFat, if_neg (by have := hc.2; omega)]
        exact Function.update_of_ne (fun h : d = s => hs (h ▸ hd)) ..
      obtain ⟨fuel, rfl⟩ : ∃ k, fuel = k + 1 := ⟨fuel - 1, by simp at hfuel; omega⟩
      rw [truncLoop, if_pos ⟨hc.1, data_lt_eoc hc⟩, readFat_data hc,
        ih (fun d hd => hdata d (mem_cons_of_mem _ hd)) ?_ hnodup ?_ ?_
          (by simpa using hfuel)]
      · rw [freeClus, writeFat, if_neg (by have := hc.2; omega)]
        congr 2
        funext d
        by_cases hd : d = s
        · subst hd
          simp
        · simp [hd]
      · refine Linked.congr hsame ?_
        cases cs with
        | nil => trivial
        | cons d cs => exact hl.2
      · intro hnil
        subst hnil
        exact fun h => absurd h.2 (Nat.not_lt.mpr hl.1)
      · intro d hd
        cases cs with
        | nil => cases hd
        | cons x cs => exact hl.1.trans (Option.some.inj hd)

/-- `etrunc` ends and frees the clusters of the file and no others. The file has no
cluster then, and the other files have their chains and bytes. -/
theorem etrunc_chain {fuel : Nat} (hwf : WF g v (cs :: others)) (hfile : FileAt g e cs)
    (hfuel : cs.length ≤ fuel) :
    ∃ v' e', etrunc g fuel v e = some (v', e') ∧ WF g v' ([] :: others) ∧ FileAt g e' [] ∧
      (∀ c, v'.fat c = if c ∈ cs then 0 else v.fat c) ∧
      ∀ ds ∈ others, ∀ p, fileByte g v' ds p = fileByte g v ds p := by
  have hdata := hwf.data cs (mem_cons_self ..)
  have htrunc := truncLoop_chain (s := e.firstClus) hdata
    (hwf.linked cs (mem_cons_self ..)) hwf.nodup
    (fun h => by rw [(hfile.nil_iff hwf).mpr h]; decide)
    (fun c hc => by
      rw [hfile.first, headD_eq_head?_getD, hc]
      rfl) hfuel
  refine ⟨{ v with fat := fun c => if c ∈ cs then 0 else v.fat c }, _,
    by rw [etrunc, htrunc], ⟨?_, ?_, ?_⟩, ⟨rfl, Nat.zero_le _, fun h => absurd rfl h⟩,
    fun c => rfl, fun ds _ p => rfl⟩
  · intro ds hds d hd
    rcases mem_cons.mp hds with rfl | hds
    · cases hd
    · exact hwf.data ds (mem_cons_of_mem _ hds) d hd
  · intro ds hds
    rcases mem_cons.mp hds with rfl | hds
    · trivial
    · refine (hwf.linked ds (mem_cons_of_mem _ hds)).congr fun d hd => if_neg fun hin => ?_
      exact hwf.ne_of_others hin hds hd rfl
  · have hdis := hwf.disjoint
    rw [flatten_cons, nodup_append] at hdis
    exact hdis.2.1

/-- After a write that returned `r`, a read returns the old bytes with `[off, off + r)`
replaced, the size is the larger of the old size and `off + r`, the other files keep
their chains and bytes, and the chains are in range and disjoint again. The source of
the write can be read, and the entries that it takes are data clusters. A read never
returns bytes that are not in the file. -/
theorem file_contents_of_readable (g : Geometry) :
    (∀ v cs others e mem src off n r v' e', WF g v (cs :: others) → FileAt g e cs →
      (∀ i, i < n → (mem (src + i)).isSome) → FreeData g v (needed g cs (off + n)) →
      ewrite g v e mem src off n = some (r, v', e') → 0 < r →
      (e'.fileSize : Int) = max (e.fileSize : Int) (off + r) ∧
      (∃ cs', WF g v' (cs' :: others) ∧ FileAt g e' cs' ∧ Reads g v' e' cs' fun p =>
          if off ≤ p ∧ (p : Int) < off + r then (mem (src + (p - off))).getD 0
          else fileByte g v cs p) ∧ ∀ ds ∈ others, ∀ p, p < ds.length * g.bytsPerClus →
        fileByte g v' ds p = fileByte g v ds p) ∧
    ∀ v cs others e, WF g v (cs :: others) → FileAt g e cs → Reads g v e cs (fileByte g v cs) := by
  refine ⟨?_, fun v cs others e hwf hfile => eread_reads hwf hfile⟩
  intro v cs others e mem src off n r v' e' hwf hfile hmem hfree hrun hr
  obtain ⟨rfl, cs', hw, hfile', hsize⟩ := ewrite_wrote hwf hfile hmem hfree hrun hr
  refine ⟨by omega, ⟨cs', hw.wf, hfile', ?_⟩, hw.frame⟩
  refine (eread_reads hw.wf hfile').congr fun p hp => ?_
  have hold := hfile.size
  have hoff := (ewrite_inv hrun hr).1
  by_cases hin : off ≤ p ∧ p < off + n
  · rw [if_pos (by omega), hw.inside p hin.1 hin.2]
  · rw [if_neg (by omega), hw.outside p (by omega) hin]

/-- A volume with three clusters of two sectors, and a file in clusters 2 and 3. -/
def threeClusters : Geometry where
  firstDataSec := 4
  dataClusCnt := 3
  secPerClus := 2
  fatEntries := 128
  secPerClus_pos := by decide
  data_le := by decide
  dataClusCnt_lt := by decide

def twoUsed : Volume where
  fat := fun c => if c = 2 then 3 else if c ≤ 3 then eoc + 7 else 0
  sectors := fun _ _ => 0

def twoLong : Entry :=
  { attr := 0x20, firstClus := 2, fileSize := 2048, curClus := 2, clusCnt := 0, dirty := false }

theorem twoUsed_wf : WF threeClusters twoUsed [[2, 3]] := by
  refine ⟨?_, ?_, by decide⟩
  · intro cs hcs c hc
    obtain rfl : cs = [2, 3] := by simpa using hcs
    rcases (by simpa using hc : c = 2 ∨ c = 3) with rfl | rfl <;> decide
  · intro cs hcs
    obtain rfl : cs = [2, 3] := by simpa using hcs
    exact ⟨rfl, by decide, by decide⟩

theorem twoLong_at : FileAt threeClusters twoLong [2, 3] :=
  ⟨rfl, by decide, fun _ => rfl⟩

theorem etrunc_chain_two : ∃ v' e', etrunc threeClusters 2 twoUsed twoLong = some (v', e') ∧
    v'.fat 2 = 0 ∧ v'.fat 3 = 0 ∧ FileAt threeClusters e' [] := by
  obtain ⟨v', e', hrun, -, hfile, hfat, -⟩ := etrunc_chain twoUsed_wf twoLong_at (Nat.le_refl 2)
  exact ⟨v', e', hrun, hfat 2, hfat 3, hfile⟩

/-- A write behind the end takes cluster 4. -/
theorem file_contents_of_readable_append :
    ∃ v' e', ewrite threeClusters twoUsed twoLong (fun _ => some 1) 0 2040 16 =
        some (16, v', e') ∧ e'.fileSize = 2056 ∧
      ∃ cs', WF threeClusters v' [cs'] ∧ FileAt threeClusters e' cs' := by
  obtain ⟨⟨r, v', e'⟩, hrun, rfl⟩ := Option.map_eq_some_iff.mp (show
    (ewrite threeClusters twoUsed twoLong (fun _ => some 1) 0 2040 16).map (fun p => p.1) =
      some 16 by decide +kernel)
  have hfree : FreeData threeClusters twoUsed (needed threeClusters [2, 3] (2040 + 16)) := by
    unfold FreeData
    decide +kernel
  obtain ⟨hsize, ⟨cs', hwf, hfile, _⟩, _⟩ := (file_contents_of_readable threeClusters).1
    twoUsed [2, 3] [] twoLong _ 0 2040 16 _ v' e' twoUsed_wf twoLong_at (fun _ _ => rfl) hfree
    hrun (by decide)
  refine ⟨v', e', hrun, ?_, cs', hwf, hfile⟩
  have : (e'.fileSize : Int) = 2056 := hsize
  omega

/-- The volume with its last data cluster taken by another file. -/
def allUsed : Volume := { twoUsed with fat := Function.update twoUsed.fat 4 (eoc + 7) }

theorem allUsed_wf : WF threeClusters allUsed [[2, 3], [4]] := by
  refine ⟨?_, ?_, by decide⟩
  · intro cs hcs c hc
    rcases (by simpa using hcs : cs = [2, 3] ∨ cs = [4]) with rfl | rfl
    · rcases (by simpa using hc : c = 2 ∨ c = 3) with rfl | rfl <;> decide
    · obtain rfl : c = 4 := by simpa using hc
      decide
  · intro cs hcs
    rcases (by simpa using hcs : cs = [2, 3] ∨ cs = [4]) with rfl | rfl
    · exact ⟨rfl, by decide, by decide⟩
    · exact ⟨by decide, by decide⟩

/-- No data cluster is free, so an append takes the next free entry of the FAT, which has
no cluster. The write returns its byte, and the file has no chain in range any more. -/
theorem entry_without_cluster_taken :
    WF threeClusters allUsed [[2, 3], [4]] ∧ FileAt threeClusters twoLong [2, 3] ∧
    ∃ v' e', ewrite threeClusters allUsed twoLong (fun _ => some 1) 0 2048 1 = some (1, v', e') ∧
      ¬∃ cs', WF threeClusters v' [cs', [4]] ∧ FileAt threeClusters e' cs' := by
  refine ⟨allUsed_wf, twoLong_at, ?_⟩
  obtain ⟨⟨r, v', e'⟩, hrun, hres⟩ := Option.map_eq_some_iff.mp (show
    (ewrite threeClusters allUsed twoLong (fun _ => some 1) 0 2048 1).map
      (fun p => (p.1, p.2.2.firstClus, p.2.1.fat 2, p.2.1.fat 3)) = some (1, 2, 3, 5) by
        decide +kernel)
  simp only [Prod.mk.injEq] at hres
  obtain ⟨rfl, hfirst, h2, h3⟩ := hres
  refine ⟨v', e', hrun, ?_⟩
  rintro ⟨cs', hwf, hfile⟩
  have hlinked := hwf.linked cs' (by simp)
  have hdata := hwf.data cs' (by simp)
  have hhead := hfile.first
  -- the chain would have to run through 2 and 3 into 5
  rcases cs' with _ | ⟨a, _ | ⟨b, _ | ⟨c, cs⟩⟩⟩ <;>
    simp only [List.headD_cons, List.headD_nil, hfirst] at hhead
  · cases hhead
  · subst hhead
    simp [Linked, h2, eoc] at hlinked
  · subst hhead
    obtain ⟨rfl, hb⟩ : 3 = b ∧ Linked v'.fat [b] := by simpa only [Linked, h2] using hlinked
    simp [Linked, h3, eoc] at hb
  · subst hhead
    obtain ⟨rfl, rfl, -⟩ : 3 = b ∧ v'.fat b = c ∧ Linked v'.fat (c :: cs) := by
      simpa only [Linked, h2] using hlinked
    exact absurd (hdata 5 (by simp [h3])) (by decide)

end F7ly.Fs.Fat32
