import F7ly.Proofs.BuddyRefine

/-!
# The allocator after initialisation

`Initialize` writes the leaves and then every parent from its children, from
the last to the first. When it is done the array is a well-formed tree with
no allocated block. It gets that far exactly when the tree has at most 29
levels: with 30, `1 << (level + 1)` is the least `int` and the subtraction
that follows it overflows.
-/

namespace F7ly.Mem.BuddySystem

open F7ly.HeapTree F7ly.Interval BTree

theorem nextPowerOfTwo_eq {x : Nat} (hx : x ≤ 2 ^ 31) : nextPowerOfTwo x = 2 ^ Nat.clog 2 x := by
  by_cases h0 : x = 0
  · simp [nextPowerOfTwo, h0]
  · have hle : Nat.clog 2 x ≤ 31 := Nat.clog_le_of_le_pow hx
    have hlt : 2 ^ Nat.clog 2 x < 2 ^ 32 :=
      Nat.pow_lt_pow_right (by omega) (by omega)
    rw [nextPowerOfTwo, if_neg h0, BitSmear.smear32_pred_succ h0 (by omega), Nat.mod_eq_of_lt hlt]

theorem capacityPagesFor_eq {n : Nat} (h0 : n ≠ 0) (hn : n ≤ 2 ^ 31) :
    capacityPagesFor n = 2 ^ Nat.clog 2 n := by
  rw [capacityPagesFor, if_pos h0, nextPowerOfTwo_eq hn]

/-- Above `2 ^ 31` pages the capacity wraps to zero. -/
theorem capacityPagesFor_wide {n : Nat} (hlo : 2 ^ 31 < n) (hhi : n < 2 ^ 32) :
    capacityPagesFor n = 0 := by
  have hclog : Nat.clog 2 n = 32 := Nat.le_antisymm (Nat.clog_le_of_le_pow hhi.le)
    (Nat.lt_clog_iff_pow_lt (by omega) |>.mpr hlo)
  rw [capacityPagesFor, if_pos (by omega), nextPowerOfTwo, if_neg (by omega),
    BitSmear.smear32_pred_succ (by omega) hhi.le, hclog, Nat.mod_self]

theorem requiredTreeBytes_wide {n : Nat} (hlo : 2 ^ 31 < n) (hhi : n < 2 ^ 32) :
    requiredTreeBytes n = 2 ^ 64 - 1 := by
  rw [requiredTreeBytes, capacityPagesFor_wide hlo hhi]
  decide

theorem levelLoop_eq {L : Nat} (hL : L ≤ 31) : ∀ {fuel l : Nat}, l ≤ L →
    L ≤ l + fuel → levelLoop (2 ^ L) fuel l = L := by
  intro fuel
  induction fuel with
  | zero => intro l h1 h2; exact Nat.le_antisymm h1 h2
  | succ fuel ih =>
      intro l h1 h2
      have hmod : 2 ^ l % 2 ^ 32 = 2 ^ l :=
        Nat.mod_eq_of_lt (Nat.pow_lt_pow_right (by omega) (by omega))
      rw [levelLoop, hmod]
      rcases Nat.eq_or_lt_of_le h1 with rfl | hlt
      · rw [if_neg (Nat.lt_irrefl _)]
      · rw [if_pos (Nat.pow_lt_pow_right (by omega) hlt)]
        exact ih hlt (by omega)

theorem markLeaves_eq (leafStart pageCount : Nat) (t : Nat → NodeState) :
    ∀ (n p : Nat), p < n → markLeaves leafStart pageCount n t (leafStart + p) =
        if p ≥ pageCount then .full else .unused := by
  intro n
  induction n with
  | zero => intro p hp; omega
  | succ n ih =>
      intro p hp
      rw [markLeaves]
      rcases Nat.eq_or_lt_of_le (Nat.lt_succ_iff.mp hp) with rfl | hlt
      · rw [set_same]
      · rw [set_other _ _ (by omega), ih p hlt]

/-- After the loop every node up to `n` is what a round computes from the
final array: a round reads only nodes after the one it writes. -/
theorem rebuildLoop_spec (maxNodes : Int) : ∀ (n : Nat) (t : Nat → NodeState),
    (∀ j, n ≤ j → rebuildLoop maxNodes n t j = t j) ∧ (∀ i, i < n → rebuildLoop maxNodes n t i =
      rebuiltState (rebuildLoop maxNodes n t) i maxNodes) := by
  intro n
  induction n with
  | zero => intro t; exact ⟨fun _ _ => rfl, fun i hi => absurd hi (by omega)⟩
  | succ n ih =>
      intro t
      obtain ⟨hkeep, hnode⟩ := ih (set t n (rebuiltState t n maxNodes))
      have hrest : ∀ j, n + 1 ≤ j → rebuildLoop maxNodes (n + 1) t j = t j := by
        intro j hj
        rw [rebuildLoop, hkeep j (by omega), set_other _ _ (by omega)]
      refine ⟨hrest, fun i hi => ?_⟩
      rcases Nat.eq_or_lt_of_le (Nat.lt_succ_iff.mp hi) with rfl | hlt
      · have hl := hrest (i * 2 + 1) (by omega)
        have hr := hrest (i * 2 + 1 + 1) (by omega)
        simp only [rebuiltState, hl, hr]
        rw [rebuildLoop, hkeep i (Nat.le_refl i), set_same]
        rfl
      · exact hnode i hlt

theorem rebuiltState_eq {t : Nat → NodeState} {i : Nat} {maxNodes : Int}
    (hmax : ((i * 2 + 2 : Nat) : Int) < maxNodes)
    (hl : t (i * 2 + 1) ≠ .used) (hr : t (i * 2 + 2) ≠ .used) :
    rebuiltState t i maxNodes = summarizeChildrenState t i := by
  rw [rebuiltState]
  rw [if_neg (by omega), summarizeChildrenState]
  revert hl hr
  cases t (i * 2 + 1) <;> cases t (i * 2 + 2) <;> simp [summarize]

theorem rebuiltState_ne_used (t : Nat → NodeState) (i : Nat) (maxNodes : Int) :
    rebuiltState t i maxNodes ≠ .used := by
  rw [rebuiltState]
  repeat' split
  all_goals simp

/-- What the two passes leave behind: the leaves, the parents' summaries, and
no block in use. -/
structure Fresh (N : Nat) (b : BuddySystem) : Prop where
  leaves : ∀ p, p < 2 ^ b.level → b.tree (2 ^ b.level - 1 + p) = if p ≥ N then .full else .unused
  parents : ∀ i, i < 2 ^ b.level - 1 → b.tree i = summarizeChildrenState b.tree i

variable {N storage bytes : Nat} {b : BuddySystem}

theorem Fresh.wf (hb : Fresh N b) :
    ∀ {h depth i off : Nat}, At b depth h i off →
      Wf N h off (view b.tree h i) ∧ blocks h off (view b.tree h i) = [] := by
  intro h
  induction h with
  | zero =>
      intro depth i off ha
      obtain ⟨-, hlevel, -, hlo, hhi, hoff⟩ := ha
      rw [Nat.add_zero] at hlevel
      have hleaf := hb.leaves off (by rw [hlevel]; omega)
      rw [hlevel, show 2 ^ depth - 1 + off = i by omega] at hleaf
      rw [view, hleaf]
      refine ⟨.leaf (fun h => ?_) (fun h => if_pos h), ?_⟩
      · rw [if_neg (by omega)]
        exact .inl rfl
      · rw [blocks]
        split <;> simp
  | succ h ih =>
      intro depth i off ha
      obtain ⟨hwl, hbl⟩ := ih ha.left
      obtain ⟨hwr, hbr⟩ := ih ha.right
      have hi : i < 2 ^ b.level - 1 := by
        have hle : 2 ^ (depth + 1) ≤ 2 ^ b.level :=
          Nat.pow_le_pow_right (by omega) (by rw [ha.level]; omega)
        have := ha.upper
        omega
      have hroot : b.tree i = summarize (view b.tree h (i * 2 + 1)).root
          (view b.tree h (i * 2 + 2)).root := by
        rw [root_view, root_view]
        exact hb.parents i hi
      rw [view, hroot]
      exact ⟨hwl.join hwr, by rw [blocks_join, hbl, hbr]; rfl⟩

/-- The allocator `Initialize` returns for `N` pages. -/
structure Initial (N : Nat) (b : BuddySystem) : Prop where
  pageCount : b.pageCount = N
  freePageCount : b.freePageCount = N
  root : At b 0 b.level 0 0
  fits : N ≤ 2 ^ b.level
  fresh : Fresh N b

theorem shlOne_subOne {k : Nat} (hk : k ≤ 30) :
    (do subOne (← shlOne k)) = (.ok ((2 ^ k - 1 : Nat) : Int) : Except BuddyFault Int) := by
  have hk1 : 1 ≤ 2 ^ k := Nat.one_le_two_pow
  have hcast : (2 : Int) ^ k = ((2 ^ k : Nat) : Int) := by rfl
  simp only [shlOne_eq (show k < 31 by omega), bind, Except.bind, subOne]
  rw [hcast, if_pos (by omega)]
  congr 1
  omega

theorem markUnusableLeaves_eq (hl : b.level ≤ 29) (hc : b.capacityPages = 2 ^ b.level) :
    markUnusableLeaves b = .ok
      { b with
        tree := markLeaves (2 ^ b.level - 1) b.pageCount (2 ^ b.level)
          b.tree } := by
  -- The leaves end where the array does, so the second loop has nothing left.
  have hrest : 2 ^ (b.level + 1) - 1 - (2 ^ b.level - 1 + 2 ^ b.level) = 0 := by
    omega
  rw [markUnusableLeaves, shlOne_subOne (by omega), shlOne_subOne (by omega)]
  simp only [bind, Except.bind, pure, Except.pure, Int.toNat_natCast, hc, hrest, markRest]

theorem rebuildParentStates_eq (hl : b.level ≤ 29) :
    rebuildParentStates b = .ok
      { b with
        tree := rebuildLoop ((2 ^ (b.level + 1) - 1 : Nat) : Int)
          (2 ^ b.level - 1) b.tree } := by
  have hlast : (do subOne (← subOne (← shlOne b.level))) =
      (.ok (((2 ^ b.level - 1 : Nat) : Int) - 1) : Except BuddyFault Int) := by
    have h := shlOne_subOne (show b.level ≤ 30 by omega)
    simp only [shlOne_eq (show b.level < 31 by omega), bind, Except.bind] at h ⊢
    rw [h]
    simp only [subOne]
    rw [if_pos (by omega)]
  rw [rebuildParentStates, shlOne_subOne (by omega), hlast]
  simp only [bind, Except.bind, pure, Except.pure, Int.sub_add_cancel, Int.toNat_natCast]

theorem fresh_of_passes (t : Nat → NodeState)
    (hb : b.tree = rebuildLoop ((2 ^ (b.level + 1) - 1 : Nat) : Int)
      (2 ^ b.level - 1) (markLeaves (2 ^ b.level - 1) N (2 ^ b.level) t)) : Fresh N b := by
  obtain ⟨hkeep, hnode⟩ := rebuildLoop_spec
    ((2 ^ (b.level + 1) - 1 : Nat) : Int) (2 ^ b.level - 1)
    (markLeaves (2 ^ b.level - 1) N (2 ^ b.level) t)
  rw [← hb] at hkeep hnode
  have hleaves : ∀ p, p < 2 ^ b.level → b.tree (2 ^ b.level - 1 + p) =
      if p ≥ N then .full else .unused := by
    intro p hp
    rw [hkeep _ (by omega), markLeaves_eq _ _ _ _ _ hp]
  have hne : ∀ j, j < 2 ^ (b.level + 1) - 1 → b.tree j ≠ .used := by
    intro j hj
    rcases Nat.lt_or_ge j (2 ^ b.level - 1) with hlt | hge
    · rw [hnode j hlt]
      exact rebuiltState_ne_used _ _ _
    · have hp := hleaves (j - (2 ^ b.level - 1)) (by omega)
      rw [show 2 ^ b.level - 1 + (j - (2 ^ b.level - 1)) = j by omega] at hp
      rw [hp]
      split <;> simp
  refine ⟨hleaves, fun i hi => ?_⟩
  rw [hnode i hi]
  exact rebuiltState_eq (by omega) (hne _ (by omega)) (hne _ (by omega))

theorem initializeSystem_ok (h1 : 1 ≤ N)
    (hN : N ≤ 2 ^ 29) (hs : storage ≠ 0) (hb : requiredTreeBytes N ≤ bytes) :
    ∃ b, initializeSystem N storage bytes = .ok b ∧ Initial N b := by
  have hL : Nat.clog 2 N ≤ 29 := Nat.clog_le_of_le_pow hN
  have hcap : capacityPagesFor N = 2 ^ Nat.clog 2 N :=
    capacityPagesFor_eq (by omega) (by omega)
  have hlevel : levelLoop (2 ^ Nat.clog 2 N) 32 0 = Nat.clog 2 N :=
    levelLoop_eq (by omega) (by omega) (by omega)
  rw [initializeSystem]
  simp only [if_pos (show N ≠ 0 by omega), hcap, hlevel]
  rw [if_neg (by omega)]
  simp only [bind, Except.bind]
  rw [markUnusableLeaves_eq hL rfl]
  dsimp only
  rw [rebuildParentStates_eq hL]
  refine ⟨_, rfl, rfl, rfl, ?_, Nat.le_pow_clog (by omega) N, fresh_of_passes _ rfl⟩
  exact ⟨rfl, by simp, hL, by simp, by simp, by simp⟩

/-- More than `2 ^ 29` pages take thirty levels, and the pass over the leaves
starts by computing `(1 << 31) - 1`. -/
theorem initializeSystem_fault (hlo : 2 ^ 29 < N)
    (hhi : N ≤ 2 ^ 30) (hs : storage ≠ 0) (hb : requiredTreeBytes N ≤ bytes) :
    initializeSystem N storage bytes = .error .undefinedBehavior := by
  have hL : Nat.clog 2 N = 30 :=
    Nat.le_antisymm (Nat.clog_le_of_le_pow hhi) (Nat.lt_clog_iff_pow_lt (by omega) |>.mpr hlo)
  have hcap : capacityPagesFor N = 2 ^ 30 := by
    rw [capacityPagesFor_eq (by omega) (by omega), hL]
  rw [initializeSystem]
  simp only [if_pos (show N ≠ 0 by omega), hcap]
  rw [if_neg (by omega)]
  rfl

/-- With page numbers that are `int`, what `Initialize` returns is an allocator
over all of the pages. -/
theorem initializeSystem_initial (h1 : 1 ≤ N) (hN : N ≤ 2 ^ 31)
    (h : initializeSystem N storage bytes = .ok b) : Initial N b := by
  by_cases hroom : storage = 0 ∨ requiredTreeBytes N > bytes
  · rw [initializeSystem] at h
    simp only [if_pos (show N ≠ 0 by omega)] at h
    rw [if_pos hroom] at h
    cases h
  obtain ⟨hs, hgt⟩ := not_or.mp hroom
  have hb : requiredTreeBytes N ≤ bytes := Nat.not_lt.mp hgt
  rcases Nat.lt_or_ge (2 ^ 29) N with hlo | hN29
  · rcases Nat.lt_or_ge (2 ^ 30) N with hlo' | hhi
    · have hL : Nat.clog 2 N = 31 := Nat.le_antisymm (Nat.clog_le_of_le_pow hN)
        (Nat.lt_clog_iff_pow_lt (by omega) |>.mpr hlo')
      have hcap : capacityPagesFor N = 2 ^ 31 := by
        rw [capacityPagesFor_eq (by omega) hN, hL]
      rw [initializeSystem] at h
      simp only [if_pos (show N ≠ 0 by omega), hcap] at h
      rw [if_neg (by omega)] at h
      cases h
    · rw [initializeSystem_fault hlo hhi hs hb] at h
      cases h
  · obtain ⟨b', hb', hinit⟩ := initializeSystem_ok h1 hN29 hs hb
    rw [hb'] at h
    exact Except.ok.inj h ▸ hinit

/-- No tree that lies in the address space has room for the number of nodes that
follows from a capacity of zero. -/
theorem initializeSystem_wide (hlo : 2 ^ 31 < N)
    (hhi : N < 2 ^ 32) (hroom : storage + bytes < 2 ^ 64) :
    initializeSystem N storage bytes = .error .treeStorageTooSmall := by
  have hbytes := requiredTreeBytes_wide hlo hhi
  rw [initializeSystem]
  simp only [if_pos (show N ≠ 0 by omega)]
  rw [if_pos (by omega)]
  rfl

/-- Whatever number of pages it is given, what `Initialize` returns is an allocator
over them; no pages count as one. -/
theorem initializeSystem_reaches (hN : N < 2 ^ 32) (hroom : storage + bytes < 2 ^ 64)
    (h : initializeSystem N storage bytes = .ok b) : Initial (max N 1) b := by
  rcases Nat.lt_or_ge (2 ^ 31) N with hlo | hle
  · rw [initializeSystem_wide hlo hN hroom] at h
    cases h
  · rcases Nat.eq_zero_or_pos N with rfl | hpos
    · exact initializeSystem_initial (Nat.le_refl 1) (by omega) h
    · rw [Nat.max_eq_left hpos]
      exact initializeSystem_initial hpos hle h

end F7ly.Mem.BuddySystem
