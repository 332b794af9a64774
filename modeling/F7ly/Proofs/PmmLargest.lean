import F7ly.Mem.PmmInit

/-!
# The largest interval

`largest_usable_interval` returns a longest interval of whole pages that no reserved
range cuts, where a range cuts what reaches into the pages it touches from both sides.
`Swept` is what the loop keeps about one such list: the cursor is behind every range
already seen, and an interval longer than the best one starts at the cursor or later.

For a range with bytes in it, not to be cut is to have none of them. A range without
bytes still cuts, at the page that it names, and that can cost the longest interval;
and a range of memory that starts in the last page of the address space is rounded up
to zero. These are the two conditions under which the result is not what one wants.
-/

namespace F7ly.Mem

theorem pgRoundUp_le {a b : Nat} (hb : b % 4096 = 0) (h : a ≤ b) (hlt : b < 2 ^ 64) :
    pgRoundUp a ≤ b := by
  unfold pgRoundUp pgRoundDown add64 pgSize
  omega

theorem le_pgRoundDown {a b : Nat} (ha : a % 4096 = 0) (h : a ≤ b) : a ≤ pgRoundDown b := by
  unfold pgRoundDown pgSize
  omega

theorem pgRoundDown_mono {a b : Nat} (h : a ≤ b) : pgRoundDown a ≤ pgRoundDown b :=
  Nat.mul_le_mul_right _ (Nat.div_le_div_right h)

theorem pgRoundDown_aligned {a : Nat} (h : a % 4096 = 0) : pgRoundDown a = a := by
  unfold pgRoundDown pgSize
  omega

/-- Some page that `r` touches is inside the interval, or on both sides of a seam. -/
def ReservedRange.Cuts (r : ReservedRange) (i : UsableInterval) : Prop :=
  i.start < pgRoundUp r.stop ∧ pgRoundDown r.start < i.top

/-- An interval of whole pages between `start` and `top`. -/
structure UsableInterval.Paged (start top : Nat) (i : UsableInterval) : Prop where
  startPaged : i.start % 4096 = 0
  topPaged : i.top % 4096 = 0
  lower : start ≤ i.start
  nonempty : i.start < i.top
  upper : i.top ≤ top

/-- An interval of whole pages that no range cuts. -/
structure UsableInterval.Uncut (start top : Nat) (ranges : List ReservedRange)
    (i : UsableInterval) : Prop extends UsableInterval.Paged start top i where
  uncut : ∀ r ∈ ranges, ¬ r.Cuts i

variable {i : UsableInterval}

theorem UsableInterval.Paged.bytes_eq {start top : Nat}
    (h : i.Paged start top) : i.bytes = i.top - i.start := if_pos h.nonempty

/-- What the loop over the sorted ranges keeps, with `rs` ahead of it. A cursor at the
top is behind everything. -/
structure Swept (start top : Nat) (ranges rs : List ReservedRange) (cursor : Nat)
    (best : UsableInterval) : Prop where
  paged : cursor % 4096 = 0
  lt : cursor < 2 ^ 64
  lower : start ≤ cursor
  passed : ∀ r ∈ ranges, r ∈ rs ∨ pgRoundUp r.stop ≤ cursor ∨ top ≤ pgRoundDown r.start ∨
    top ≤ cursor
  uncut : best = {} ∨ best.Uncut start top ranges
  largest : ∀ i : UsableInterval, i.Uncut start top ranges → i.bytes ≤ best.bytes ∨ cursor ≤ i.start

section Sweep

variable {start top cursor : Nat} {ranges rs : List ReservedRange} {best : UsableInterval}

theorem Swept.consider (h : Swept start top ranges rs cursor best) {gapTop : Nat}
    (hgap : gapTop % 4096 = 0) (htop : gapTop ≤ top)
    (hahead : ∀ r ∈ rs, gapTop ≤ pgRoundDown r.start) :
    (best.consider cursor gapTop = {} ∨ (best.consider cursor gapTop).Uncut start top ranges) ∧
    ∀ i : UsableInterval, i.Uncut start top ranges → i.bytes ≤ best.bytes ∨
      cursor ≤ i.start ∧ i.top ≤ gapTop → i.bytes ≤ (best.consider cursor gapTop).bytes := by
  rw [UsableInterval.consider, pgRoundUp_aligned h.paged h.lt, pgRoundDown_aligned hgap]
  split
  · next hlonger =>
    have hgapPaged : UsableInterval.Paged start top ⟨cursor, gapTop⟩ :=
      ⟨h.paged, hgap, h.lower, hlonger.1, htop⟩
    refine ⟨.inr ⟨hgapPaged, fun r hr hcut => ?_⟩, fun i hi hor => ?_⟩
    · have hlo := hcut.1
      have hhi := hcut.2
      dsimp only at hlo hhi
      rcases h.passed r hr with hmem | hpast
      · have := hahead r hmem
        omega
      · omega
    · have := hi.bytes_eq
      rw [hgapPaged.bytes_eq]
      dsimp only
      omega
  next hshorter =>
  refine ⟨h.uncut, fun i hi hor => ?_⟩
  have := hi.bytes_eq
  omega

theorem Swept.next {x : ReservedRange} (h : Swept start top ranges (x :: rs) cursor best)
    (htop : top % 4096 = 0) (hmem : x ∈ ranges) (hfirst : ∀ r ∈ rs, x.start ≤ r.start) :
    Swept start top ranges rs (if pgRoundUp x.stop > cursor then pgRoundUp x.stop else cursor)
      (if pgRoundDown x.start > cursor then
        best.consider cursor (if pgRoundDown x.start < top then pgRoundDown x.start else top)
      else best) := by
  have hle : cursor ≤ if pgRoundUp x.stop > cursor then pgRoundUp x.stop else cursor := by
    split <;> omega
  have hstop : pgRoundUp x.stop ≤
      if pgRoundUp x.stop > cursor then pgRoundUp x.stop else cursor := by
    split <;> omega
  have hpaged : (if pgRoundUp x.stop > cursor then pgRoundUp x.stop else cursor) % 4096 = 0 ∧
      (if pgRoundUp x.stop > cursor then pgRoundUp x.stop else cursor) < 2 ^ 64 := by
    split
    · exact ⟨pgRoundUp_mod _, pgRoundUp_lt _⟩
    · exact ⟨h.paged, h.lt⟩
  have hpassed : ∀ r ∈ ranges, r ∈ rs ∨
      pgRoundUp r.stop ≤ (if pgRoundUp x.stop > cursor then pgRoundUp x.stop else cursor) ∨
      top ≤ pgRoundDown r.start ∨
      top ≤ if pgRoundUp x.stop > cursor then pgRoundUp x.stop else cursor := by
    intro r hr
    rcases h.passed r hr with hmem | hpast
    · rcases List.mem_cons.mp hmem with rfl | hmem
      · exact .inr (.inl hstop)
      · exact .inl hmem
    · exact .inr (by omega)
  -- An interval from the cursor on ends before `x` or starts after it.
  have hside : ∀ i : UsableInterval, i.Uncut start top ranges → cursor ≤ i.start →
      i.top ≤ pgRoundDown x.start ∨
        (if pgRoundUp x.stop > cursor then pgRoundUp x.stop else cursor) ≤ i.start := by
    intro i hi hcursor
    have hcut := hi.uncut x hmem
    rw [ReservedRange.Cuts] at hcut
    split <;> omega
  generalize hcursor' : (if pgRoundUp x.stop > cursor then pgRoundUp x.stop else cursor) =
    cursor' at *
  split
  · have hdown := pgRoundDown_mod x.start
    have hahead : ∀ r ∈ x :: rs, (if pgRoundDown x.start < top then pgRoundDown x.start else top) ≤
          pgRoundDown r.start := by
      intro r hr
      have hmono : pgRoundDown x.start ≤ pgRoundDown r.start := by
        rcases List.mem_cons.mp hr with rfl | hr
        · exact Nat.le_refl _
        · exact pgRoundDown_mono (hfirst r hr)
      split <;> omega
    obtain ⟨huncut, hlargest⟩ :=
      h.consider (by split <;> omega) (by split <;> omega) hahead
    refine ⟨hpaged.1, hpaged.2, h.lower.trans hle, hpassed, huncut, fun i hi => ?_⟩
    rcases h.largest i hi with hshort | hcursor
    · exact .inl (hlargest i hi (.inl hshort))
    · rcases hside i hi hcursor with hbefore | hafter
      · have := hi.upper
        exact .inl (hlargest i hi (.inr ⟨hcursor, by split <;> omega⟩))
      · exact .inr hafter
  · refine ⟨hpaged.1, hpaged.2, h.lower.trans hle, hpassed, h.uncut, fun i hi => ?_⟩
    rcases h.largest i hi with hshort | hcursor
    · exact .inl hshort
    · have := hi.nonempty
      exact .inr ((hside i hi hcursor).resolve_left (by omega))

theorem sweep_swept (htop : top % 4096 = 0) (rs : List ReservedRange) (hsub : rs ⊆ ranges)
    (hsorted : rs.Pairwise fun a b => a.start ≤ b.start)
    (h : Swept start top ranges rs cursor best) :
    Swept start top ranges [] (sweep top rs cursor best).1 (sweep top rs cursor best).2 := by
  induction rs generalizing cursor best with
  | nil => exact h
  | cons x rs ih =>
      obtain ⟨hfirst, hrest⟩ := List.pairwise_cons.mp hsorted
      obtain ⟨hmem, hsub⟩ := List.cons_subset.mp hsub
      rw [sweep]
      by_cases hskip : x.stop ≤ cursor ∨ x.start ≥ top
      · rw [if_pos hskip]
        refine ih hsub hrest { h with passed := fun r hr => ?_ }
        rcases h.passed r hr with hr | hpast
        · rcases List.mem_cons.mp hr with rfl | hr
          · rcases hskip with hskip | hskip
            · exact .inr (.inl (pgRoundUp_le h.paged hskip h.lt))
            · exact .inr (.inr (.inl (le_pgRoundDown htop hskip)))
          · exact .inl hr
        · exact .inr hpast
      · rw [if_neg hskip]
        have hnext := h.next htop hmem hfirst
        dsimp only
        generalize (if pgRoundUp x.stop > cursor then pgRoundUp x.stop else cursor) = cursor'
          at hnext ⊢
        split
        · next hdone =>
          exact { hnext with passed := fun r hr => .inr (.inr (.inr hdone)) }
        · exact ih hsub hrest hnext

end Sweep

theorem largestUsableInterval_largest (rawStart rawTop : Nat)
    {reserved : List ReservedRange} (hcount : reserved.length ≤ maxReservedRanges) :
    (largestUsableInterval rawStart rawTop reserved = {} ∨
      (largestUsableInterval rawStart rawTop reserved).Uncut (pgRoundUp rawStart) rawTop reserved) ∧
    ∀ i : UsableInterval, i.Uncut (pgRoundUp rawStart) rawTop reserved →
      i.bytes ≤ (largestUsableInterval rawStart rawTop reserved).bytes := by
  have hdown := pgRoundDown_le rawTop
  have hmod := pgRoundDown_mod rawTop
  -- Whole pages below the top are below the rounded top.
  have hround : ∀ i : UsableInterval, i.Uncut (pgRoundUp rawStart) rawTop reserved →
      i.Uncut (pgRoundUp rawStart) (pgRoundDown rawTop) reserved := fun i hi =>
    { hi with upper := le_pgRoundDown hi.topPaged hi.upper }
  rw [largestUsableInterval, List.take_of_length_le hcount]
  dsimp only
  split
  · refine ⟨.inl rfl, fun i hi => ?_⟩
    have := (hround i hi).upper
    have := hi.lower
    have := hi.nonempty
    omega
  · have hperm := ExchangeSort.sort_perm ReservedRange.start reserved
    have hstart : Swept (pgRoundUp rawStart) (pgRoundDown rawTop) reserved
        (ExchangeSort.sort ReservedRange.start reserved) (pgRoundUp rawStart) {} :=
      ⟨pgRoundUp_mod _, pgRoundUp_lt _, Nat.le_refl _,
        fun r hr => .inl (hperm.mem_iff.mpr hr), .inl rfl, fun i hi => .inr hi.lower⟩
    have hend := sweep_swept hmod _ hperm.subset
      (ExchangeSort.sort_sorted ReservedRange.start reserved) hstart
    obtain ⟨huncut, hlargest⟩ := hend.consider hmod (Nat.le_refl _) (by simp)
    refine ⟨huncut.imp_right fun h => { h with upper := h.upper.trans hdown }, fun i hi => ?_⟩
    have hi := hround i hi
    exact hlargest i hi ((hend.largest i hi).imp_right fun h => ⟨h, hi.upper⟩)

/-- An interval of whole pages of the raw range without a byte of a reserved range. -/
structure UsableInterval.Usable (rawStart rawTop : Nat) (reserved : List ReservedRange)
    (i : UsableInterval) : Prop extends UsableInterval.Paged rawStart rawTop i where
  clear : ∀ r ∈ reserved, ∀ a, r.start ≤ a → a < r.stop → ¬ (i.start ≤ a ∧ a < i.top)

def UsableInterval.Whole (reserved : List ReservedRange) (i : UsableInterval) : Prop :=
  ∀ r ∈ reserved, r.stop ≤ r.start → ¬ r.Cuts i

/-- A usable interval, or none, and one that no other exceeds. -/
structure UsableInterval.Best (rawStart rawTop : Nat) (reserved : List ReservedRange)
    (i : UsableInterval) : Prop where
  usable : i = {} ∨ i.Usable rawStart rawTop reserved
  largest : ∀ j : UsableInterval, j.Usable rawStart rawTop reserved → j.bytes ≤ i.bytes

/-- A range with bytes cuts exactly the intervals of whole pages that have some of
them. -/
theorem ReservedRange.cuts_iff {start top : Nat} {r : ReservedRange}
    (hi : i.Paged start top) (hr : r.start < r.stop) (hfits : r.stop ≤ lastPage) :
    r.Cuts i ↔ ∃ a, r.start ≤ a ∧ a < r.stop ∧ i.start ≤ a ∧ a < i.top := by
  have hpaged := hi.startPaged
  have htop := hi.topPaged
  have hne := hi.nonempty
  have hcuts : r.Cuts i ↔ i.start < r.stop ∧ r.start < i.top := by
    unfold lastPage at hfits
    unfold ReservedRange.Cuts pgRoundUp pgRoundDown add64 pgSize
    omega
  rw [hcuts]
  constructor
  · intro ⟨h1, h2⟩
    exact ⟨max r.start i.start, by omega, by omega, by omega, by omega⟩
  · intro ⟨a, h1, h2, h3, h4⟩
    omega

theorem UsableInterval.uncut_iff {start top : Nat} {reserved : List ReservedRange}
    (hfits : ∀ r ∈ reserved, r.stop ≤ lastPage) :
    i.Uncut start top reserved ↔ i.Usable start top reserved ∧ i.Whole reserved := by
  constructor
  · intro h
    refine ⟨⟨h.toPaged, fun r hr a h1 h2 h3 => ?_⟩, fun r hr _ => h.uncut r hr⟩
    exact h.uncut r hr ((ReservedRange.cuts_iff h.toPaged (by omega) (hfits r hr)).mpr
      ⟨a, h1, h2, h3⟩)
  · intro ⟨h, hwhole⟩
    refine ⟨h.toPaged, fun r hr hcut => ?_⟩
    rcases Nat.lt_or_ge r.start r.stop with hlt | hge
    · obtain ⟨a, h1, h2, h3⟩ :=
        (ReservedRange.cuts_iff h.toPaged hlt (hfits r hr)).mp hcut
      exact h.clear r hr a h1 h2 h3
    · exact hwhole r hr hge hcut

/-- When the result is a largest usable interval. A raw range that starts in the last
page has no whole page, so nothing must be found; for any other, some longest usable
interval must not be cut by a range without bytes. -/
def Unbroken (rawStart rawTop : Nat) (reserved : List ReservedRange) : Prop :=
  if rawStart ≤ lastPage then
    ∀ i : UsableInterval, i.Usable rawStart rawTop reserved →
      ∃ j : UsableInterval, j.Usable rawStart rawTop reserved ∧ j.Whole reserved ∧ i.bytes ≤ j.bytes
  else ¬ ∃ i : UsableInterval, i.Usable 0 rawTop reserved ∧ i.Whole reserved

section Best

variable {rawStart rawTop : Nat} {reserved : List ReservedRange}

/-- Whole pages from `rawStart` on start at its page or later. -/
theorem usable_pgRoundUp (hstart : rawStart ≤ lastPage) (htop : rawTop < 2 ^ 64) :
    i.Usable (pgRoundUp rawStart) rawTop reserved ↔ i.Usable rawStart rawTop reserved := by
  constructor
  · intro h
    exact { h with lower := (le_pgRoundUp hstart).trans h.lower }
  · intro h
    have := h.nonempty
    have := h.upper
    exact { h with lower := pgRoundUp_le h.startPaged h.lower (by omega) }

theorem not_usable_lastPage (hstart : lastPage < rawStart) (htop : rawTop < 2 ^ 64)
    : ¬ i.Usable rawStart rawTop reserved := by
  intro h
  have := h.startPaged
  have := h.lower
  have := h.nonempty
  have := h.upper
  unfold lastPage at hstart
  omega

theorem pgRoundUp_lastPage (hstart : lastPage < rawStart) (hlt : rawStart < 2 ^ 64) :
    pgRoundUp rawStart = 0 := by
  unfold lastPage at hstart
  unfold pgRoundUp pgRoundDown add64 pgSize
  omega

theorem UsableInterval.Usable.bytes_pos (h : i.Usable rawStart rawTop reserved) : 0 < i.bytes := by
  have := h.nonempty
  rw [h.bytes_eq]
  omega

/-- The interval returned is a largest usable one exactly when the input is unbroken. -/
theorem largestUsableInterval_best_iff (hstart : rawStart < 2 ^ 64) (htop : rawTop < 2 ^ 64)
    (hcount : reserved.length ≤ maxReservedRanges) (hfits : ∀ r ∈ reserved, r.stop ≤ lastPage) :
    (largestUsableInterval rawStart rawTop reserved).Best rawStart rawTop reserved ↔
      Unbroken rawStart rawTop reserved := by
  obtain ⟨huncut, hlargest⟩ := largestUsableInterval_largest rawStart rawTop hcount
  simp only [UsableInterval.uncut_iff hfits] at huncut hlargest
  generalize largestUsableInterval rawStart rawTop reserved = best at huncut hlargest
  rw [Unbroken]
  split
  · next hfirst =>
    simp only [usable_pgRoundUp hfirst htop] at huncut hlargest
    constructor
    · intro h i hi
      rcases huncut with rfl | ⟨husable, hwhole⟩
      · exact absurd (h.largest i hi) (Nat.not_le.mpr hi.bytes_pos)
      · exact ⟨best, husable, hwhole, h.largest i hi⟩
    · intro h
      refine ⟨huncut.imp_right And.left, fun i hi => ?_⟩
      obtain ⟨j, hj, hwhole, hle⟩ := h i hi
      exact hle.trans (hlargest j ⟨hj, hwhole⟩)
  next hlast =>
  have hlast : lastPage < rawStart := Nat.not_le.mp hlast
  rw [pgRoundUp_lastPage hlast hstart] at huncut hlargest
  constructor
  · intro h ⟨i, hi⟩
    obtain rfl := h.usable.resolve_right (not_usable_lastPage hlast htop)
    exact absurd (hlargest i hi) (Nat.not_le.mpr hi.1.bytes_pos)
  · intro h
    refine ⟨.inl (huncut.resolve_right fun hbest => h ⟨best, hbest⟩), fun i hi => ?_⟩
    exact absurd hi (not_usable_lastPage hlast htop)

end Best

theorem largestUsableInterval_best_iff_one :
    (largestUsableInterval 0 16384 [⟨4096, 8192⟩]).Best 0 16384 [⟨4096, 8192⟩] ↔
      Unbroken 0 16384 [⟨4096, 8192⟩] :=
  largestUsableInterval_best_iff (by decide) (by decide) (by decide) (by decide)

/-- Four free pages and a range without bytes in the middle give two pages; and from
the last page of the address space, where a region of the device tree may be, the pages
at its other end are found. -/
theorem largestUsableInterval_not_best :
    ¬ (largestUsableInterval 0 16384 [⟨8192, 8192⟩]).Best 0 16384 [⟨8192, 8192⟩] ∧
    ¬ (largestUsableInterval (2 ^ 64 - 1) 16384 []).Best (2 ^ 64 - 1) 16384 [] ∧
    ¬ (largestUsableInterval (2 ^ 64 - 2) (2 ^ 64 - 1) []).Best (2 ^ 64 - 2) (2 ^ 64 - 1) [] := by
  refine ⟨fun h => ?_, fun h => ?_, fun h => ?_⟩
  · have hall : UsableInterval.Usable 0 16384 [⟨8192, 8192⟩] ⟨0, 16384⟩ :=
      ⟨⟨by decide, by decide, by decide, by decide, by decide⟩, fun r hr a h1 h2 => by
        obtain rfl := List.mem_singleton.mp hr
        dsimp only at h1 h2
        omega⟩
    exact absurd (h.largest _ hall) (by decide)
  all_goals
    rcases h.usable with hnone | husable
    · exact absurd hnone (by decide)
    · exact absurd husable.lower (by decide)

end F7ly.Mem
