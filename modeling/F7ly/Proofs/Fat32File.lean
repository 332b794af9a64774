import F7ly.Proofs.Fat32Chain

/-!
# FAT32 file contents

A file is its chain of clusters and its size (`FileAt`), and its bytes are those of
the chain (`fileByte`). `Wrote` is what a piece of a write does: the bytes of the
piece are the new ones, the chain only grows, and the files beside it stay. The
pieces compose, so the loop of `ewrite` is one `Wrote`.

The clusters that a write takes are the first free entries of the FAT. The scan
goes over all entries, those without a cluster included, so a write is right when
the entries that it takes are data clusters. It also has to be able to read all of
its source: a write that stops inside a cluster has changed bytes that it does not
count.
-/

namespace F7ly.Fs.Fat32

open List

variable {g : Geometry} {v v' : Volume} {e : Entry} {cs : List Nat}
  {others : List (List Nat)}

theorem bytsPerClus_pos (g : Geometry) : 0 < g.bytsPerClus :=
  Nat.mul_pos g.secPerClus_pos (by decide)

def fileByte (g : Geometry) (v : Volume) (cs : List Nat) (p : Nat) : UInt8 :=
  clusByte g v (cs.getD (p / g.bytsPerClus) 0) (p % g.bytsPerClus)

/-- The entry of a file with chain `cs`. The cached position is one of the chain. -/
structure FileAt (g : Geometry) (e : Entry) (cs : List Nat) : Prop where
  first : e.firstClus = cs.headD 0
  size : e.fileSize ≤ cs.length * g.bytsPerClus
  position : cs ≠ [] → cs[e.clusCnt]? = some e.curClus

/-- The entry with its position at cluster `i` of the file. -/
def Entry.moveTo (e : Entry) (cs : List Nat) (i : Nat) : Entry :=
  { e with curClus := cs.getD i 0, clusCnt := i }

theorem moveTo_self (h : cs[e.clusCnt]? = some e.curClus) : e.moveTo cs e.clusCnt = e := by
  rw [Entry.moveTo, getD_eq_getElem?_getD, h]
  rfl

variable {i c off p : Nat} {ds : List Nat} {chains : List (List Nat)}

theorem moveTo_position (hi : i < cs.length) :
    cs[(e.moveTo cs i).clusCnt]? = some (e.moveTo cs i).curClus := by
  simp [Entry.moveTo, hi]

theorem getD_mem (hi : i < cs.length) : cs.getD i 0 ∈ cs := by
  simp [hi]

theorem getD_append_left (hpre : cs <+: ds) (hi : i < cs.length) : ds.getD i 0 = cs.getD i 0 := by
  obtain ⟨es, rfl⟩ := hpre
  simp [getElem?_append_left hi]

theorem readFat_data (hc : g.Data c) : readFat g v c = v.fat c := by
  have := g.dataClusCnt_lt
  obtain ⟨_, hle⟩ := hc
  rw [readFat, if_neg (by omega), if_neg (by omega)]

theorem data_lt_eoc (hc : g.Data c) : c < eoc := by
  have := g.dataClusCnt_lt
  obtain ⟨_, hle⟩ := hc
  omega

theorem readFat_next (hdata : ∀ c ∈ cs, g.Data c) (hl : Linked v.fat cs)
    (hi : i + 1 < cs.length) : readFat g v (cs.getD i 0) = cs.getD (i + 1) 0 := by
  rw [readFat_data (hdata _ (getD_mem (by omega)))]
  refine hl.next (i := i) ?_ ?_
  · simp [show i < cs.length by omega]
  · simp [hi]

/-- The first loop of `reloc_clus`, inside the chain. -/
theorem relocForward_within (hdata : ∀ c ∈ cs, g.Data c) (hl : Linked v.fat cs)
    (alloc : Bool) {k : Nat} (hik : i + k < cs.length) :
    relocForward g alloc k v (e.moveTo cs i) = some (true, v, e.moveTo cs (i + k)) := by
  induction k generalizing i with
  | zero => rfl
  | succ k ih =>
      have hnext : readFat g v (e.moveTo cs i).curClus = cs.getD (i + 1) 0 :=
        readFat_next hdata hl (by omega)
      have hlt := data_lt_eoc (hdata _ (getD_mem (show i + 1 < cs.length by omega)))
      rw [relocForward, hnext]
      rw [if_neg (by omega), show i + (k + 1) = i + 1 + k by omega]
      exact ih (by omega)

theorem relocRestart_within (hdata : ∀ c ∈ cs, g.Data c) (hl : Linked v.fat cs) {k : Nat}
    (hik : i + k < cs.length) :
    relocRestart g v k (e.moveTo cs i) = some (e.moveTo cs (i + k)) := by
  induction k generalizing i with
  | zero => rfl
  | succ k ih =>
      have hnext : readFat g v (e.moveTo cs i).curClus = cs.getD (i + 1) 0 :=
        readFat_next hdata hl (by omega)
      have hlt := data_lt_eoc (hdata _ (getD_mem (show i + 1 < cs.length by omega)))
      rw [relocRestart, hnext]
      rw [if_neg (by omega), show i + (k + 1) = i + 1 + k by omega]
      exact ih (by omega)

theorem relocClus_within (hwf : WF g v (cs :: others)) (hfirst : e.firstClus = cs.headD 0)
    (hpos : cs[e.clusCnt]? = some e.curClus) (alloc : Bool)
    (hoff : off / g.bytsPerClus < cs.length) :
    relocClus g v e off alloc =
      some (some (off % g.bytsPerClus), v, e.moveTo cs (off / g.bytsPerClus)) := by
  have hdata := hwf.data cs (mem_cons_self ..)
  have hl := hwf.linked cs (mem_cons_self ..)
  obtain ⟨i, hi⟩ : ∃ i, i = e.clusCnt := ⟨_, rfl⟩
  have he : e.moveTo cs i = e := hi ▸ moveTo_self hpos
  rw [relocClus]
  by_cases hback : off / g.bytsPerClus < i
  · -- the position is behind the offset: the loop starts again
    rw [show off / g.bytsPerClus - e.clusCnt = 0 by omega, relocForward]
    dsimp only
    have hstart : ({ e with curClus := e.firstClus, clusCnt := 0 } : Entry) = e.moveTo cs 0 := by
      rw [Entry.moveTo, hfirst]
      cases cs <;> rfl
    rw [if_pos (hi ▸ hback), hstart, relocRestart_within hdata hl (by omega), Nat.zero_add]
  · have hsum : i + (off / g.bytsPerClus - i) = off / g.bytsPerClus := by omega
    rw [← hi, show relocForward g alloc (off / g.bytsPerClus - i) v e =
      some (true, v, e.moveTo cs (off / g.bytsPerClus)) by
        rw [← he, relocForward_within hdata hl alloc (by omega), hsum]
        rfl]
    dsimp only
    rw [if_neg (by exact Nat.lt_irrefl _)]

theorem relocForward_add (alloc : Bool) {a b : Nat} {v₁ : Volume} {e₁ : Entry}
    (h : relocForward g alloc a v e = some (true, v₁, e₁)) :
    relocForward g alloc (a + b) v e = relocForward g alloc b v₁ e₁ := by
  induction a generalizing v e with
  | zero =>
      obtain ⟨rfl, rfl⟩ : v = v₁ ∧ e = e₁ := by simpa [relocForward] using h
      rw [Nat.zero_add]
  | succ a ih =>
      rw [show a + 1 + b = a + b + 1 by omega]
      rw [relocForward] at h ⊢
      split at h
      · next hend =>
          rw [if_pos hend]
          cases alloc with
          | false => simp at h
          | true =>
              cases hc : allocClus g v with
              | none => simp [hc] at h
              | some p =>
                  simp only [hc] at h ⊢
                  exact ih h
      · next hend =>
          rw [if_neg hend]
          exact ih h

/-- The first loop of `reloc_clus`, up to the last cluster. -/
theorem relocForward_last (hdata : ∀ c ∈ cs, g.Data c) (hl : Linked v.fat cs) (hne : cs ≠ [])
    (hpos : cs[e.clusCnt]? = some e.curClus) (alloc : Bool) :
    relocForward g alloc (cs.length - 1 - e.clusCnt) v e =
        some (true, v, e.moveTo cs (cs.length - 1)) ∧
      (e.moveTo cs (cs.length - 1)).curClus = cs.getLast hne ∧
      readFat g v (cs.getLast hne) = v.fat (cs.getLast hne) ∧
      eoc ≤ v.fat (cs.getLast hne) ∧ v.fat (cs.getLast hne) < 2 ^ 31 := by
  have hlt := (List.getElem?_eq_some_iff.mp hpos).1
  have hget : cs[cs.length - 1]? = some (cs.getLast hne) := by
    rw [List.getLast_eq_getElem, List.getElem?_eq_getElem]
  obtain ⟨hlo, hhi⟩ := hl.last hget (by omega)
  refine ⟨?_, ?_, readFat_data (hdata _ (List.getLast_mem hne)), hlo, ?_⟩
  · have hfwd := relocForward_within (e := e) hdata hl alloc
      (show e.clusCnt + (cs.length - 1 - e.clusCnt) < cs.length by omega)
    rw [moveTo_self hpos] at hfwd
    rw [hfwd, show e.clusCnt + (cs.length - 1 - e.clusCnt) = cs.length - 1 by omega]
  · rw [Entry.moveTo, List.getD_eq_getElem?_getD, hget]
    rfl
  · unfold eoc at hhi
    omega

theorem relocClus_beyond (hwf : WF g v (cs :: others)) (hne : cs ≠ [])
    (hpos : cs[e.clusCnt]? = some e.curClus) (hoff : cs.length ≤ off / g.bytsPerClus) :
    relocClus g v e off false =
      some (none, v, { e with curClus := e.firstClus, clusCnt := 0 }) := by
  have hlt := (List.getElem?_eq_some_iff.mp hpos).1
  obtain ⟨hfwd, hcur, hend, hlo, hhi⟩ := relocForward_last
    (hwf.data cs (List.mem_cons_self ..)) (hwf.linked cs (List.mem_cons_self ..)) hne hpos false
  rw [relocClus, show off / g.bytsPerClus - e.clusCnt =
      cs.length - 1 - e.clusCnt + (off / g.bytsPerClus - cs.length + 1) by omega,
    relocForward_add false hfwd, relocForward, hcur, hend, if_pos ⟨hlo, hhi⟩]
  rfl

theorem relocClus_grow (hwf : WF g v (cs :: others)) (hne : cs ≠ [])
    (hpos : cs[e.clusCnt]? = some e.curClus) (hoff : off / g.bytsPerClus = cs.length) :
    relocClus g v e off true = match freeClusters g v with
      | [] => none
      | c :: _ => some (some (off % g.bytsPerClus),
          writeFat g (taken g v c) (cs.getLast hne) c, e.moveTo (cs ++ [c]) cs.length) := by
  have hlt := (List.getElem?_eq_some_iff.mp hpos).1
  obtain ⟨hfwd, hcur, hend, hlo, hhi⟩ := relocForward_last
    (hwf.data cs (List.mem_cons_self ..)) (hwf.linked cs (List.mem_cons_self ..)) hne hpos true
  rw [relocClus, hoff, show cs.length - e.clusCnt = cs.length - 1 - e.clusCnt + 1 by omega,
    relocForward_add true hfwd, relocForward, hcur, hend, if_pos ⟨hlo, hhi⟩, if_pos rfl,
    allocClus_eq]
  cases hfree : freeClusters g v with
  | nil => rfl
  | cons c rest =>
      simp only [List.head?_cons, Option.map_some, relocForward]
      have hcnt : (e.moveTo cs (cs.length - 1)).clusCnt + 1 = cs.length :=
        Nat.sub_add_cancel (by omega)
      rw [hcnt, if_neg (Nat.lt_irrefl _)]
      simp [Entry.moveTo]

/-- What happened to a file with chain `cs` when `[lo, hi)` was written with `new`. -/
structure Wrote (g : Geometry) (v : Volume) (cs : List Nat) (others : List (List Nat))
    (new : Nat → UInt8) (lo hi : Nat) (v' : Volume) (cs' : List Nat) : Prop where
  wf : WF g v' (cs' :: others)
  grows : cs <+: cs'
  room : hi ≤ cs'.length * g.bytsPerClus
  inside : ∀ p, lo ≤ p → p < hi → fileByte g v' cs' p = new p
  outside : ∀ p, p < cs.length * g.bytsPerClus → ¬(lo ≤ p ∧ p < hi) →
    fileByte g v' cs' p = fileByte g v cs p
  frame : ∀ ds ∈ others, ∀ p, p < ds.length * g.bytsPerClus → fileByte g v' ds p = fileByte g v ds p

variable {new : Nat → UInt8} {lo mid hi : Nat}

theorem Wrote.refl (hwf : WF g v (cs :: others)) (hlo : lo ≤ cs.length * g.bytsPerClus) :
    Wrote g v cs others new lo lo v cs :=
  ⟨hwf, prefix_rfl, hlo, fun p _ _ => by omega, fun _ _ _ => rfl, fun _ _ _ _ => rfl⟩

theorem Wrote.trans {v₁ v₂ : Volume} {cs₁ cs₂ : List Nat}
    (h₁ : Wrote g v cs others new lo mid v₁ cs₁) (h₂ : Wrote g v₁ cs₁ others new mid hi v₂ cs₂)
    (hlo : lo ≤ mid) (hhi : mid ≤ hi) : Wrote g v cs others new lo hi v₂ cs₂ := by
  have hcap : cs.length * g.bytsPerClus ≤ cs₁.length * g.bytsPerClus :=
    Nat.mul_le_mul_right _ h₁.grows.length_le
  refine ⟨h₂.wf, h₁.grows.trans h₂.grows, h₂.room, fun p hp hp' => ?_,
    fun p hp hout => ?_, fun ds hds p hp => ?_⟩
  · by_cases hmid : p < mid
    · rw [h₂.outside p (Nat.lt_of_lt_of_le hmid h₁.room) (by omega)]
      exact h₁.inside p hp hmid
    · exact h₂.inside p (by omega) hp'
  · rw [h₂.outside p (by omega) (by omega)]
    exact h₁.outside p hp (by omega)
  · exact (h₂.frame ds hds p hp).trans (h₁.frame ds hds p hp)

theorem WF.congr (hwf : WF g v chains) (hfat : v'.fat = v.fat) : WF g v' chains :=
  ⟨hwf.data, hfat ▸ hwf.linked, hwf.disjoint⟩

theorem index_lt (hp : p < ds.length * g.bytsPerClus) : p / g.bytsPerClus < ds.length :=
  (Nat.div_lt_iff_lt_mul (bytsPerClus_pos g)).mpr hp

theorem WF.data_at (hwf : WF g v chains)
    (hds : ds ∈ chains) (hi : i < ds.length) : g.Data (ds.getD i 0) :=
  hwf.data ds hds _ (getD_mem hi)

theorem WF.ne_of_others (hwf : WF g v (cs :: others)) (hc : c ∈ cs)
    (hds : ds ∈ others) {d : Nat} (hd : d ∈ ds) : d ≠ c := by
  have hdis := hwf.disjoint
  rw [flatten_cons, nodup_append] at hdis
  exact fun h => hdis.2.2 c hc d (mem_flatten_of_mem hds hd) h.symm

theorem WF.nodup (hwf : WF g v (cs :: others)) : cs.Nodup := by
  have hdis := hwf.disjoint
  rw [flatten_cons, nodup_append] at hdis
  exact hdis.1

theorem wrote_clus (new : Nat → UInt8) (mem : Nat → Option UInt8) (src : Nat) {m : Nat}
    (hwf : WF g v (cs :: others)) (hoff : off / g.bytsPerClus < cs.length) (hpos : 0 < m)
    (hm : m ≤ g.bytsPerClus - off % g.bytsPerClus) (hmem : ∀ i, i < m → (mem (src + i)).isSome)
    (hnew : ∀ p, off ≤ p → p < off + m → new p = (mem (src + (p - off))).getD 0) :
    ∃ v', rwClus g (copyIn mem src) (cs.getD (off / g.bytsPerClus) 0)
        (off % g.bytsPerClus) m v = some (m, v') ∧
      v'.fat = v.fat ∧ Wrote g v cs others new off (off + m) v' cs := by
  have hb := bytsPerClus_pos g
  have hin := getD_mem hoff
  have hc := hwf.data_at (mem_cons_self ..) hoff
  obtain ⟨v', hrun, hfat, hbyte, hother⟩ :=
    rwClus_copyIn (v := v) (o := off % g.bytsPerClus) hc hpos (by omega) hmem
  refine ⟨v', hrun, hfat, hwf.congr hfat, prefix_rfl, ?_, fun p hlo hhi => ?_,
    fun p hp hout => ?_, fun ds hds p hp => ?_⟩
  · have hle : (off / g.bytsPerClus + 1) * g.bytsPerClus ≤ cs.length * g.bytsPerClus :=
      Nat.mul_le_mul_right _ hoff
    have := Nat.div_add_mod off g.bytsPerClus
    rw [Nat.succ_mul, Nat.mul_comm] at hle
    omega
  · obtain ⟨hdiv, hpmod⟩ := block_of_round hm hlo hhi
    rw [fileByte, hdiv, hpmod, hbyte, if_pos (by omega), hnew p hlo hhi]
    congr 3
    omega
  · by_cases hdiv : p / g.bytsPerClus = off / g.bytsPerClus
    · rw [fileByte, fileByte, hdiv, hbyte, if_neg]
      have h₁ := Nat.div_add_mod p g.bytsPerClus
      have h₂ := Nat.div_add_mod off g.bytsPerClus
      rw [hdiv] at h₁
      omega
    · have hp' := index_lt hp
      refine hother _ (hwf.data_at (mem_cons_self ..) hp') (fun heq => hdiv ?_) _
        (Nat.mod_lt _ hb)
      simp only [getD_eq_getElem?_getD, getElem?_eq_getElem hp', getElem?_eq_getElem hoff] at heq
      exact (List.Nodup.getElem_inj_iff hwf.nodup).mp heq
  · have hp' := index_lt hp
    exact hother _ (hwf.data_at (mem_cons_of_mem _ hds) hp')
      (hwf.ne_of_others hin hds (getD_mem hp')) _ (Nat.mod_lt _ hb)

theorem fileByte_taken (hwf : WF g v chains)
    (hc : g.Data c) (hfree : v.fat c = 0) (hds : ds ∈ chains) (hp : p < ds.length * g.bytsPerClus) :
    fileByte g (taken g v c) ds p = fileByte g v ds p := by
  have hin := getD_mem (index_lt hp)
  refine (clusByte_zeroClus hc (hwf.data ds hds _ hin) (fun h => hwf.not_mem hfree ?_)
    (Nat.mod_lt _ (bytsPerClus_pos g))).trans rfl
  exact h ▸ mem_flatten_of_mem hds hin

theorem fileByte_writeFat {x : Nat} : fileByte g (writeFat g v c x) ds p = fileByte g v ds p := by
  rw [writeFat]
  split <;> rfl

theorem fileByte_grows {cs' : List Nat} (hpre : cs <+: cs')
    (hp : p < cs.length * g.bytsPerClus) : fileByte g v cs' p = fileByte g v cs p := by
  rw [fileByte, fileByte, getD_append_left hpre (index_lt hp)]

theorem wrote_grow (hwf : WF g v (cs :: others)) {l : Nat} (hc : g.Data c)
    (hfree : v.fat c = 0) (hlast : cs.getLast? = some l)
    (hlo : lo ≤ (cs.length + 1) * g.bytsPerClus) :
    Wrote g v cs others new lo lo (writeFat g (taken g v c) l c) (cs ++ [c]) := by
  refine ⟨hwf.grow hc hfree hlast, prefix_append .., ?_, fun p _ _ => by omega,
    fun p hp _ => ?_, fun ds hds p hp => ?_⟩
  · simpa using hlo
  · rw [fileByte_grows (prefix_append ..) hp, fileByte_writeFat,
      fileByte_taken hwf hc hfree (mem_cons_self ..) hp]
  · rw [fileByte_writeFat, fileByte_taken hwf hc hfree (mem_cons_of_mem _ hds) hp]

theorem wrote_first (hwf : WF g v ([] :: others)) (hc : g.Data c)
    (hfree : v.fat c = 0) : Wrote g v [] others new 0 0 (taken g v c) [c] := by
  refine ⟨hwf.first hc hfree, nil_prefix, Nat.zero_le _, fun p _ _ => by omega,
    fun p hp _ => ?_, fun ds hds p hp => ?_⟩
  · simp at hp
  · exact fileByte_taken hwf hc hfree (mem_cons_of_mem _ hds) hp

end F7ly.Fs.Fat32
