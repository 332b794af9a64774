import F7ly.Proofs.Pmm

/-!
# Batches and single calls

`retain_pages_batch` and `release_pages_batch` take the lock once for a whole array. What
they do to it is what `retain_page` and `free_page` do to the entries one after the other,
so a page that is named twice is counted twice. Two things are their own. The answer of
the first is one bit for each entry: an entry that cannot be retained does not take back
the others. And the second panics at an allocated page without a count, which `free_page`
returns to the tree.
-/

namespace F7ly.Mem

open F7ly.Interval F7ly.Run BuddySystem List

/-- `retain_page` for one entry after the other, and its answers. -/
def Pmm.retainEach : List Address → Pmm → Except PmmFault (List Bool × Pmm)
  | [], m => .ok ([], m)
  | pa :: pages, m => do
      let (ok, m) ← m.retainPage pa
      let (answers, m) ← retainEach pages m
      return (ok :: answers, m)

def answerMask (answers : List Bool) : BitVec 64 := (BitVec.ofBoolListLE answers).setWidth 64

theorem answerMask_getLsbD (answers : List Bool) {i : Nat} (hi : i < 64) :
    (answerMask answers).getLsbD i = answers.getD i false := by
  simp [answerMask, hi]

theorem answerMask_nil : answerMask [] = 0 := rfl

theorem answerMask_cons (ok : Bool) (answers : List Bool) :
    answerMask (ok :: answers) = (if ok then 1#64 else 0) ||| answerMask answers <<< 1 := by
  refine BitVec.eq_of_getLsbD_eq fun i hi => ?_
  rw [answerMask_getLsbD _ hi, BitVec.getLsbD_or, BitVec.getLsbD_shiftLeft]
  cases i with
  | zero => cases ok <;> simp
  | succ i =>
      rw [answerMask_getLsbD _ (by omega)]
      cases ok <;> simp [hi]

theorem retainLoop_eq (pages : List Address) (index : Nat) (retained : BitVec 64) (m : Pmm) :
    Pmm.retainLoop pages index retained m =
      (m.retainEach pages).map fun r => (retained ||| answerMask r.1 <<< index, r.2) := by
  induction pages generalizing index retained m with
  | nil => simp [Pmm.retainLoop, Pmm.retainEach, Except.map, answerMask_nil]
  | cons pa pages ih =>
      rw [Agree.retainLoop_cons, Pmm.retainEach]
      cases m.retainPage pa with
      | error fault => rfl
      | ok r =>
          obtain ⟨ok, m₁⟩ := r
          dsimp only [bind, Except.bind]
          rw [ih]
          cases m₁.retainEach pages with
          | error fault => rfl
          | ok r =>
              dsimp only [Except.map, pure, Except.pure]
              rw [answerMask_cons, BitVec.shiftLeft_or_distrib, ← BitVec.shiftLeft_add,
                Nat.add_comm 1, ← BitVec.or_assoc]
              cases ok <;> simp

variable {pages : List Address}

theorem retainEach_length : ∀ {m m' : Pmm} {answers : List Bool},
    m.retainEach pages = .ok (answers, m') → answers.length = pages.length := by
  induction pages with
  | nil =>
      intro m m' answers h
      cases h
      rfl
  | cons pa pages ih =>
      intro m m' answers h
      obtain ⟨⟨ok, m₁⟩, -, h⟩ := bind_eq_ok.mp h
      obtain ⟨⟨rest, m₂⟩, hrest, h⟩ := bind_eq_ok.mp h
      cases h
      rw [length_cons, length_cons, ih hrest]

theorem retainEach_none : ∀ {m m' : Pmm} {answers : List Bool},
    m.retainEach pages = .ok (answers, m') → true ∉ answers → m' = m := by
  induction pages with
  | nil =>
      intro m m' answers h _
      cases h
      rfl
  | cons pa pages ih =>
      intro m m' answers h hnone
      obtain ⟨⟨ok, m₁⟩, hretain, h⟩ := bind_eq_ok.mp h
      obtain ⟨⟨rest, m₂⟩, hrest, h⟩ := bind_eq_ok.mp h
      cases h
      obtain ⟨hok, hrest'⟩ := not_or.mp (mt mem_cons.mpr hnone)
      rw [ih hrest hrest']
      obtain ⟨p, -, hretain⟩ := bind_eq_ok.mp hretain
      split at hretain
      · cases hretain
        rfl
      · split at hretain
        · cases hretain
          rfl
        · cases hretain
          exact absurd rfl hok

section Release

variable {m m' : Pmm} {live : List (Nat × Nat)} {pa : Address}

theorem releasePage_eq (hs : BuddyRun.Inv m.pageCount ⟨m.buddy, live⟩)
    (hsmall : m.pageCount < 2 ^ 32) (hnull : m.pageCount ≤ m.pageOf 0)
    (hsingle : ∀ c ∈ live, Covers c (m.pageOf pa) → c.2 = 1) :
    m.releasePage pa = m.freePage pa ∨
      m.releasePage pa = .error .zeroRefcount ∧ m.Allocated (m.pageOf pa) ∧
        m.refcounts (m.pageOf pa) = 0 := by
  rw [Pmm.releasePage, Pmm.freePage]
  by_cases h0 : pa = 0
  · subst h0
    rw [if_pos rfl, m.pa2pgnm_eq (by decide)]
    dsimp only [bind, Except.bind]
    rw [if_pos hnull]
    exact .inl rfl
  rw [if_neg h0]
  cases hp : m.pa2pgnm pa with
  | error fault => exact .inl rfl
  | ok p =>
      cases Pmm.pa2pgnm_inv hp
      generalize m.pageOf pa = p at hsingle ⊢
      dsimp only [bind, Except.bind]
      by_cases hrange : p ≥ m.pageCount
      · rw [if_pos hrange, if_pos hrange]
        exact .inl rfl
      rw [if_neg hrange, if_neg hrange, Nat.mod_eq_of_lt (by omega)]
      have hanswers : Answers live p (m.buddy.queryPage p) := hs.answers (by omega)
      by_cases hfree : (!(m.buddy.queryPage p).inRange) = true ∨ (m.buddy.queryPage p).isFree = true
      · rw [if_pos hfree, if_pos hfree]
        exact .inl rfl
      have hheld : (m.buddy.queryPage p).isFree = false :=
        Bool.not_eq_true _ ▸ (not_or.mp hfree).2
      obtain ⟨hmem, hcov⟩ := hanswers.block hheld
      have hone : (m.buddy.queryPage p).blockPages = 1 := hsingle _ hmem hcov
      rw [hone] at hcov
      have hstart := covers_one.mp hcov
      rw [if_neg hfree, if_neg hfree,
        if_neg (not_or.mpr ⟨not_not.mpr hone, not_not.mpr hstart.symm⟩),
        if_neg (Nat.not_lt.mpr hone.le)]
      by_cases hzero : m.refcounts p = 0
      · rw [if_pos hzero]
        exact .inr ⟨rfl, ⟨by omega, hheld⟩, hzero⟩
      · rw [if_neg hzero]
        exact .inl rfl

/-- What a release leaves: no more blocks, and a page that is still in one has a count if
it had one. -/
theorem freePage_keeps (hs : BuddyRun.Inv m.pageCount ⟨m.buddy, live⟩)
    (hsmall : m.pageCount < 2 ^ 32)
    (hsingle : ∀ c ∈ live, Covers c (m.pageOf pa) → c.2 = 1) (h : m.freePage pa = .ok m') :
    m.Same m' ∧ ∃ live' ⊆ live, BuddyRun.Inv m.pageCount ⟨m'.buddy, live'⟩ ∧
      ∀ c ∈ live', ∀ q, Covers c q → m.refcounts q ≠ 0 → m'.refcounts q ≠ 0 := by
  obtain ⟨p, hp, h⟩ := bind_eq_ok.mp h
  cases Pmm.pa2pgnm_inv hp
  generalize m.pageOf pa = p at hsingle h
  split at h
  · cases h
    exact ⟨⟨rfl, rfl⟩, live, List.Subset.refl _, hs, fun _ _ _ _ hq => hq⟩
  next hrange =>
  dsimp only at h
  rw [Nat.mod_eq_of_lt (by omega)] at h
  split at h
  · cases h
  next hfree =>
  have hanswers : Answers live p (m.buddy.queryPage p) := hs.answers (by omega)
  obtain ⟨hmem, hcov⟩ := hanswers.block (Bool.not_eq_true _ ▸ (not_or.mp hfree).2)
  have hone : (m.buddy.queryPage p).blockPages = 1 := hsingle _ hmem hcov
  rw [if_neg (Nat.not_lt.mpr hone.le), Pmm.dropPage] at h
  split at h
  · next hmany =>
    cases h
    refine ⟨⟨rfl, rfl⟩, live, List.Subset.refl _, hs, fun c hc q hq hcount => ?_⟩
    dsimp only
    rcases eq_or_ne q p with rfl | hne
    · rw [Function.update_self]
      intro hzero
      have hnat := congrArg UInt16.toNat hzero
      rw [UInt16.toNat_sub_of_le _ _ (UInt16.le_of_lt hmany)] at hnat
      have hlt := UInt16.lt_iff_toNat_lt.mp hmany
      change 1 < _ at hlt
      change _ - 1 = 0 at hnat
      omega
    · rwa [Function.update_of_ne hne]
  · obtain ⟨b, hb, h⟩ := bind_eq_ok.mp h
    cases h
    obtain ⟨b', hb', hinv⟩ := BuddyRun.free_inv (by omega) hs (p : Int)
    rw [ofBuddy_eq_ok.mp hb] at hb'
    cases hb'
    refine ⟨⟨rfl, rfl⟩, _, fun c hc => (mem_filter.mp hc).1, hinv, fun c hc q hq hcount => ?_⟩
    dsimp only
    rcases eq_or_ne q p with rfl | hne
    · obtain ⟨hc, hstart⟩ := mem_filter.mp hc
      have hlen := hsingle c hc hq
      obtain ⟨start, len⟩ := c
      cases hlen
      cases covers_one.mp hq
      simp at hstart
    · rwa [Function.update_of_ne hne]

end Release

theorem allocated_iff_covered {m : Pmm} {live : List (Nat × Nat)}
    (hs : BuddyRun.Inv m.pageCount ⟨m.buddy, live⟩) {p : Nat} (hp : p < m.pageCount) :
    m.Allocated p ↔ ∃ c ∈ live, Covers c p := by
  have hanswers : Answers live p (m.buddy.queryPage p) := hs.answers hp
  rw [Pmm.Allocated, and_iff_right hp, ← Bool.not_eq_true, hanswers.free]
  simp

/-- The batch is `free_page` for one entry after the other, or stops at a page of the
array that is allocated and has no count. -/
theorem releasePagesBatch_eq :
    ∀ {m : Pmm} {live : List (Nat × Nat)}, BuddyRun.Inv m.pageCount ⟨m.buddy, live⟩ →
      m.pageCount < 2 ^ 32 → m.pageCount ≤ m.pageOf 0 →
      (∀ pa ∈ pages, ∀ c ∈ live, Covers c (m.pageOf pa) → c.2 = 1) →
      m.releasePagesBatch pages = pages.foldlM Pmm.freePage m ∨
        m.releasePagesBatch pages = .error .zeroRefcount ∧
          ∃ pa ∈ pages, m.Allocated (m.pageOf pa) ∧ m.refcounts (m.pageOf pa) = 0 := by
  induction pages with
  | nil => exact fun _ _ _ _ => .inl rfl
  | cons pa pages ih =>
      intro m live hs hsmall hnull hsingle
      rw [Pmm.releasePagesBatch, foldlM_cons, foldlM_cons]
      rcases releasePage_eq hs hsmall hnull (hsingle pa mem_cons_self) with
        heq | ⟨herror, hzero⟩
      · rw [heq]
        cases hfree : m.freePage pa with
        | error fault => exact .inl rfl
        | ok m₁ =>
            obtain ⟨hsame, live', hsub, hs', hcounts⟩ :=
              freePage_keeps hs hsmall (hsingle pa mem_cons_self) hfree
            rw [← hsame.pageCount] at hs' hsmall hnull
            rcases ih hs' hsmall (hsame.pageOf ▸ hnull) (fun q hq c hc hcov =>
                hsingle q (mem_cons_of_mem _ hq) c (hsub hc) (hsame.pageOf ▸ hcov)) with
              heq' | ⟨herror, q, hq, hheld, hzero⟩
            · exact .inl heq'
            · refine .inr ⟨herror, q, mem_cons_of_mem _ hq, ?_⟩
              obtain ⟨c, hc, hcov⟩ := (allocated_iff_covered hs' hheld.1).mp hheld
              rw [hsame.pageOf] at hcov hzero hheld
              have hlt : m.pageOf q < m.pageCount := hsame.pageCount ▸ hheld.1
              refine ⟨(allocated_iff_covered hs hlt).mpr ⟨c, hsub hc, hcov⟩, ?_⟩
              by_contra hne
              exact hcounts c hc _ hcov hne hzero
      · rw [herror]
        exact .inr ⟨rfl, pa, mem_cons_self, hzero⟩

/-- What a batch of pages means, in one state of the manager. -/
structure Pmm.BatchLaw (m : Pmm) (pages : List Address) : Prop where
  retain : pages.length ≤ 64 →
    m.retainPagesBatch pages = (m.retainEach pages).map fun r => (answerMask r.1, r.2)
  tooLarge : 64 < pages.length → m.retainPagesBatch pages = .error .batchTooLarge
  unretained : ∀ m', m.retainPagesBatch pages = .ok (0, m') → m' = m
  /-- For an array that names no block of several pages. -/
  release :
    (∀ pa ∈ pages, m.Allocated (m.pageOf pa) → (m.buddy.queryPage (m.pageOf pa)).blockPages = 1) →
    m.releasePagesBatch pages = pages.foldlM Pmm.freePage m ∨
      m.releasePagesBatch pages = .error .zeroRefcount ∧
        ∃ pa ∈ pages, m.Allocated (m.pageOf pa) ∧ m.refcounts (m.pageOf pa) = 0

theorem retainPagesBatch_eq {m : Pmm} (h : pages.length ≤ 64) :
    m.retainPagesBatch pages = (m.retainEach pages).map fun r => (answerMask r.1, r.2) := by
  rw [Pmm.retainPagesBatch, if_neg (by omega), retainLoop_eq]
  simp

theorem retainPagesBatch_unretained {m m' : Pmm}
    (h : m.retainPagesBatch pages = .ok (0, m')) : m' = m := by
  by_cases hlen : pages.length ≤ 64
  · rw [retainPagesBatch_eq hlen] at h
    obtain ⟨⟨answers, m₁⟩, heach, h⟩ := map_eq_ok.mp h
    obtain ⟨hmask, rfl⟩ := Prod.mk.inj h
    refine retainEach_none heach fun hmem => ?_
    obtain ⟨i, hi, hget⟩ := getElem_of_mem hmem
    have hbit := answerMask_getLsbD answers (i := i) (by rw [retainEach_length heach] at hi; omega)
    rw [hmask, getD_eq_getElem _ _ hi, hget] at hbit
    simp at hbit
  · rw [Pmm.retainPagesBatch, if_pos (by omega)] at h
    cases h

theorem batchLaw {m : Pmm} {live : List (Nat × Nat)}
    (hs : BuddyRun.Inv m.pageCount ⟨m.buddy, live⟩) (hsmall : m.pageCount < 2 ^ 32)
    (hnull : m.pageCount ≤ m.pageOf 0) (pages : List Address) : m.BatchLaw pages where
  retain := retainPagesBatch_eq
  tooLarge h := by rw [Pmm.retainPagesBatch, if_pos h]
  unretained _ := retainPagesBatch_unretained
  release hsingle := by
    refine releasePagesBatch_eq hs hsmall hnull fun pa hpa c hc hcov => ?_
    have hlt : m.pageOf pa < m.pageCount :=
      Nat.lt_of_lt_of_le hcov.2 (hs.isBlock c hc).inside
    have hone := hsingle pa hpa ((allocated_iff_covered hs hlt).mpr ⟨c, hc, hcov⟩)
    rwa [(hs.good.queryBlock (m.pageOf pa) c hc hcov).2] at hone

def Pmm.recount (m : Pmm) (refcounts : Nat → UInt16) : Pmm := { m with refcounts }

/-- The law holds in every state of the tree that a run reaches, with any counts beside
it, if null is not a managed page; and with the counts of the run a batch never stops at a
page without one. -/
theorem pmmRun_batchLaw (boot : Boot) (ops : List PmmOp) (s : PmmRun)
    (hrun : pmmRun boot ops = .ok s) (hnull : s.pmm.pageCount ≤ s.pmm.pageOf 0)
    (pages : List Address) :
    (∀ refcounts, (s.pmm.recount refcounts).BatchLaw pages) ∧
      ∀ pa, s.pmm.Allocated (s.pmm.pageOf pa) → s.pmm.refcounts (s.pmm.pageOf pa) ≠ 0 := by
  have h := pmmRun_agree hrun
  refine ⟨fun refcounts => ?_, fun pa hheld hzero => ?_⟩
  · exact batchLaw (m := s.pmm.recount refcounts) h.buddy
      (Nat.lt_of_le_of_lt h.small (by decide)) hnull pages
  · have hpos := (h.inStep.allocated _ hheld.1).mpr hheld
    rw [hzero] at hpos
    exact absurd hpos (by decide)

/-- A page named twice, with null between. -/
theorem pmmRun_batchLaw_twice : ∃ s, pmmRun fourPages [.tryAllocPage] = .ok s ∧
    s.pmm.pageCount ≤ s.pmm.pageOf 0 ∧
    (∀ refcounts, (s.pmm.recount refcounts).BatchLaw [0x80000000, 0, 0x80000000]) ∧
    ∀ pa, s.pmm.Allocated (s.pmm.pageOf pa) → s.pmm.refcounts (s.pmm.pageOf pa) ≠ 0 :=
  ⟨_, rfl, by decide, pmmRun_batchLaw fourPages [.tryAllocPage] _ rfl (by decide) _⟩

/-- With page 0 allocated, a batch that names it and a free page retains the one and not
the other; and with its count cleared, `free_page` returns where the batch panics. -/
theorem retainPagesBatch_keeps_some : ∃ s, pmmRun fourPages [.tryAllocPage] = .ok s ∧
    (∃ m, s.pmm.retainPagesBatch [0x80000000, 0x80001000] = .ok (1, m) ∧
      s.pmm.refcounts 0 = 1 ∧ m.refcounts 0 = 2) ∧
    (∃ m, (s.pmm.recount fun _ => 0).freePage 0x80000000 = .ok m) ∧
    (s.pmm.recount fun _ => 0).releasePagesBatch [0x80000000] = .error .zeroRefcount :=
  ⟨_, rfl, ⟨_, rfl, rfl, rfl⟩, ⟨_, rfl⟩, rfl⟩

/-- No page gets lost between the two: in every run the buddy's counter of free pages is the
number of pages without a reference. -/
theorem pmmRun_freePages (boot : Boot) (ops : List PmmOp) (s : PmmRun)
    (hrun : pmmRun boot ops = .ok s) :
    s.pmm.buddy.freePageCount = Nat.count (s.pmm.refcounts · = 0) s.pmm.pageCount := by
  have h := pmmRun_agree hrun
  rw [h.buddy.good.counter, Nat.count_eq_card_filter_range, Nat.count_eq_card_filter_range]
  refine congrArg Finset.card (Finset.filter_congr fun p hp => ?_)
  have hp : p < s.pmm.pageCount := Finset.mem_range.mp hp
  rw [h.isFree_iff hp, ← h.counted p hp]
  exact UInt16.toNat_inj (b := 0)

theorem pmmRun_freePages_fourPages : ∃ s, pmmRun fourPages [.tryAllocPages 2] = .ok s ∧
    s.pmm.buddy.freePageCount = 2 ∧ Nat.count (s.pmm.refcounts · = 0) s.pmm.pageCount = 2 :=
  ⟨_, rfl, rfl, (pmmRun_freePages fourPages [.tryAllocPages 2] _ rfl).symm⟩

end F7ly.Mem
