import F7ly.Proofs.BuddyTree

/-!
# The array walks compute the tree operations

Each recursive walk of `Mem/Buddy.lean` is compared with its tree function on
the view of the subtree it is called on. The statements all have the same
three parts: the walk's answer, the view of the array it leaves, and a frame,
that nothing outside the subtree was written. `At` is the address arithmetic
the comparison runs on; the bound of 29 levels in it is where the source's
`1 << (depth + 1)` stays an ordinary `int` at every depth the walks reach.
-/

namespace F7ly.Mem.BuddySystem

open F7ly.HeapTree F7ly.Interval BTree

theorem shlOne_eq {k : Nat} (hk : k < 31) : shlOne k = .ok (2 ^ k) := if_pos hk

/-- Node `i` is at `depth`, `h` levels above the leaves, and its block starts
at page `off`. -/
structure At (b : BuddySystem) (depth h i off : Nat) : Prop where
  capacity : b.capacityPages = 2 ^ b.level
  level : b.level = depth + h
  small : b.level ≤ 29
  lower : 2 ^ depth ≤ i + 1
  upper : i + 1 < 2 ^ (depth + 1)
  offset : off = (i + 1 - 2 ^ depth) * 2 ^ h

variable {b : BuddySystem} {depth h i off : Nat} {t t' : Nat → NodeState}

theorem At.left (ha : At b depth (h + 1) i off) : At b (depth + 1) h (i * 2 + 1) off := by
  obtain ⟨h1, h2, h3, h4, h5, h6⟩ := ha
  refine ⟨h1, by omega, h3, ?_, ?_, ?_⟩
  · omega
  · omega
  · rw [h6, show i * 2 + 1 + 1 - 2 ^ (depth + 1) = (i + 1 - 2 ^ depth) * 2 by
      omega]
    ring

theorem At.right (ha : At b depth (h + 1) i off) :
    At b (depth + 1) h (i * 2 + 2) (off + 2 ^ h) := by
  obtain ⟨h1, h2, h3, h4, h5, h6⟩ := ha
  refine ⟨h1, by omega, h3, ?_, ?_, ?_⟩
  · omega
  · omega
  · rw [h6, show i * 2 + 2 + 1 - 2 ^ (depth + 1) = (i + 1 - 2 ^ depth) * 2 + 1 by omega]
    ring

theorem At.update (ha : At b depth h i off) (t : Nat → NodeState) (n : Nat) :
    At { b with tree := t, freePageCount := n } depth h i off :=
  ⟨ha.capacity, ha.level, ha.small, ha.lower, ha.upper, ha.offset⟩

theorem At.blockPages (ha : At b depth h i off) : nodeBlockPages b depth = 2 ^ h := by
  rw [nodeBlockPages, ha.capacity, ha.level, Nat.shiftRight_eq_div_pow,
    Nat.pow_add, Nat.mul_div_cancel_left _ (Nat.two_pow_pos depth)]

theorem At.dvd (ha : At b depth h i off) : 2 ^ h ∣ off :=
  ha.offset ▸ Nat.dvd_mul_left _ _

theorem nodeDepthLoop_eq (hd : depth ≤ 29)
    (hlo : 2 ^ depth ≤ i + 1) (hhi : i + 1 < 2 ^ (depth + 1)) :
    ∀ {fuel d : Nat}, d ≤ depth → depth < d + fuel → nodeDepthLoop (i + 1) fuel d = .ok depth := by
  intro fuel
  induction fuel with
  | zero => intro d h1 h2; omega
  | succ fuel ih =>
      intro d h1 h2
      simp only [nodeDepthLoop, shlOne_eq (show d + 1 < 31 by omega), bind, Except.bind]
      rcases Nat.eq_or_lt_of_le h1 with rfl | hlt
      · rw [if_neg (by exact_mod_cast Nat.not_le.mpr hhi)]
        rfl
      · have hpow : 2 ^ (d + 1) ≤ 2 ^ depth := Nat.pow_le_pow_right (by omega) hlt
        rw [if_pos (by exact_mod_cast Nat.le_trans hpow hlo)]
        exact ih hlt (by omega)

theorem At.nodeOffsetPages (ha : At b depth h i off) : nodeOffsetPages b i = .ok (off : Int) := by
  obtain ⟨h1, h2, h3, h4, h5, h6⟩ := ha
  have hdepth : nodeDepth i = .ok depth :=
    nodeDepthLoop_eq (by omega) h4 h5 (by omega) (by omega)
  have hcast : ((i : Int) + 1) - 2 ^ depth = ((i + 1 - 2 ^ depth : Nat) : Int) := by
    rw [Nat.cast_sub h4]
    rfl
  simp only [BuddySystem.nodeOffsetPages, hdepth, shlOne_eq (show depth < 31 by omega),
    bind, Except.bind]
  rw [hcast, h2, Nat.add_sub_cancel_left, h6]
  rfl

/-- `t'` differs from `t` at most on the subtree below `i`. -/
def FrameOf (h i : Nat) (t t' : Nat → NodeState) : Prop :=
  ∀ j, ¬ Below h i j → t' j = t j

theorem FrameOf.view_right (hf : FrameOf h (i * 2 + 1) t t') :
    view t' h (i * 2 + 2) = view t h (i * 2 + 2) :=
  view_congr fun _ hj => hf _ fun hl => below_disjoint hl hj

theorem FrameOf.view_left (hf : FrameOf h (i * 2 + 2) t t') :
    view t' h (i * 2 + 1) = view t h (i * 2 + 1) :=
  view_congr fun _ hj => hf _ fun hr => below_disjoint hj hr

theorem FrameOf.set_root (hf : ∀ j, ¬ Below h i j → t' j = t j) (s : NodeState) :
    FrameOf h i t (set t' i s) := by
  intro j hj
  have hne : j ≠ i := by
    rintro rfl
    exact hj (below_self h j)
  rw [set_other _ _ hne, hf j hj]

/-- The view after the two halves have been brought up to date and the node
has been summarised from them. -/
theorem view_summarized {l r : BTree}
    (hl : view t h (i * 2 + 1) = l) (hr : view t h (i * 2 + 2) = r) :
    view (set t i (summarizeChildrenState t i)) (h + 1) i =
      .node (summarize l.root r.root) l r := by
  subst hl hr
  rw [view_set_root, view, PTree.setRoot, summarizeChildrenState, root_view, root_view]

theorem set_eq_self {s : NodeState} (hs : t i = s) : set t i s = t := by
  funext j
  by_cases h : j = i
  · subst h; rw [set_same, hs]
  · rw [set_other _ _ h]

/-- What `allocate_from_node` does to the subtree it is called on. -/
structure Allocated (b : BuddySystem) (h i o : Nat) (T : BTree)
    (t : Nat → NodeState) (res : Option Nat × (Nat → NodeState)) : Prop where
  node : ∃ n, res.1 = some n ∧ nodeOffsetPages b n = .ok (o : Int)
  view : view res.2 h i = T
  frame : FrameOf h i t res.2

/-- The descent into a node that is split, or unused with unused halves: both
are marked split before the children are tried. -/
theorem allocateFromNode_descend {pages fuel : Nat} (hlt : pages < nodeBlockPages b depth)
    (hs : (t i = .unused ∧ t (i * 2 + 1) = .unused ∧ t (i * 2 + 2) = .unused) ∨ t i = .split) :
    allocateFromNode b pages (fuel + 1) i depth t =
      match allocateFromNode b pages fuel (i * 2 + 1) (depth + 1) (set t i .split) with
      | (some n, t) => (some n, set t i (summarizeChildrenState t i))
      | (none, t) =>
          ((allocateFromNode b pages fuel (i * 2 + 2) (depth + 1) t).1,
            set (allocateFromNode b pages fuel (i * 2 + 2) (depth + 1) t).2 i
              (summarizeChildrenState
                (allocateFromNode b pages fuel (i * 2 + 2) (depth + 1) t).2 i)) := by
  have hsplit : (if t i = .unused then splitUnusedNode t i else t) = set t i .split := by
    rcases hs with ⟨h0, h1, h2⟩ | h0
    · have hl : set t i .split (i * 2 + 1) = .unused := by
        rw [set_other _ _ (by omega), h1]
      have hr : set t i .split (i * 2 + 2) = .unused := by
        rw [set_other _ _ (by omega), h2]
      rw [if_pos h0, splitUnusedNode, if_neg (by simp [h0]), set_eq_self hl, set_eq_self hr]
    · rw [if_neg (by simp [h0]), set_eq_self h0]
  have hopen : ¬ (t i = .used ∨ t i = .full) := by
    rcases hs with ⟨h0, -⟩ | h0 <;> simp [h0]
  rw [allocateFromNode]
  simp only [hsplit, set_same, ne_eq, not_true_eq_false, if_false]
  rw [if_neg (by omega), if_neg hopen, if_neg (by omega)]
  split
  · next n t' h => simp [h]
  · next t' h => simp [h]

/-- A block of the right size is taken if it is unused. -/
theorem allocateFromNode_whole {pages off : Nat} (ha : At b depth h i off)
    (heq : 2 ^ h = pages) (t : Nat → NodeState) (fuel : Nat) :
    if t i = .unused then
      Allocated b h i off ((HeapTree.view t h i).setRoot .used) t
        (allocateFromNode b pages (fuel + 1) i depth t)
    else allocateFromNode b pages (fuel + 1) i depth t = (none, t) := by
  rw [allocateFromNode, ha.blockPages]
  simp only [heq, Nat.lt_irrefl, if_false, if_true]
  by_cases hs : t i = .unused
  · rw [if_pos hs, if_neg (by simp [hs]), if_neg (by simp [hs])]
    exact ⟨⟨i, rfl, ha.nodeOffsetPages⟩, view_set_root .., FrameOf.set_root (fun _ _ => rfl) _⟩
  · rw [if_neg hs]
    split <;> rfl

theorem split_of_full {N k off : Nat} (hlt : 2 ^ k < 2 ^ (h + 1))
    (hs : t i = .unused ∨ t i = .split) (left : Wf N h off (view t h (i * 2 + 1)))
    (whole : t i = .unused → t (i * 2 + 1) = .unused)
    (hnone : allocT (2 ^ k) h off (view t h (i * 2 + 1)) = none) : t i = .split := by
  refine hs.resolve_left fun h0 => ?_
  have hk : k < h + 1 := (Nat.pow_lt_pow_iff_right (a := 2) (by omega)).mp hlt
  obtain ⟨o, t', hsome⟩ := allocT_unused left (by rw [root_view]; exact whole h0)
    (Nat.le_of_lt_succ hk)
  rw [hsome] at hnone
  cases hnone

theorem allocateFromNode_spec {N k : Nat} :
    ∀ {h fuel depth i off : Nat} {t : Nat → NodeState},
      At b depth h i off → h < fuel → Wf N h off (view t h i) →
      match allocT (2 ^ k) h off (view t h i) with
      | none => allocateFromNode b (2 ^ k) fuel i depth t = (none, t)
      | some (o, T) =>
          Allocated b h i o T t (allocateFromNode b (2 ^ k) fuel i depth t) := by
  intro h
  induction h with
  | zero =>
      intro fuel depth i off t ha hf hw
      obtain ⟨fuel, rfl⟩ : ∃ f, fuel = f + 1 := ⟨fuel - 1, by omega⟩
      simp only [view, allocT]
      by_cases heq : 2 ^ 0 = 2 ^ k
      · have hwhole := allocateFromNode_whole ha heq t fuel
        by_cases hs : t i = .unused
        · rw [if_pos hs] at hwhole
          rw [if_pos ⟨heq, hs⟩]
          exact hwhole
        · rw [if_neg hs] at hwhole
          rw [if_neg fun hc => hs hc.2]
          exact hwhole
      · have hk : 0 < 2 ^ k := Nat.two_pow_pos k
        rw [if_neg fun hc => heq hc.1, allocateFromNode, ha.blockPages]
        exact if_pos (by omega)
  | succ h ih =>
      intro fuel depth i off t ha hf hw
      obtain ⟨fuel, rfl⟩ : ∃ f, fuel = f + 1 := ⟨fuel - 1, by omega⟩
      rw [view] at hw ⊢
      cases hw with
      | node left right whole parts =>
      rw [root_view, root_view] at whole parts
      rw [allocT]
      by_cases heq : 2 ^ (h + 1) = 2 ^ k
      · have hwhole := allocateFromNode_whole ha heq t fuel
        rw [if_pos heq]
        by_cases hs : t i = .unused
        · rw [if_pos hs] at hwhole ⊢
          exact hwhole
        · rw [if_neg hs] at hwhole ⊢
          exact hwhole
      rw [if_neg heq]
      by_cases hlt : 2 ^ k < 2 ^ (h + 1) ∧ (t i = .unused ∨ t i = .split)
      · rw [if_pos hlt]
        obtain ⟨hlt, hs⟩ := hlt
        simp only [Nat.add_sub_cancel]
        rw [allocateFromNode_descend (by rw [ha.blockPages]; exact hlt)
          (hs.imp_left fun h0 => ⟨h0, whole (.inl h0)⟩)]
        -- Marking the node split does not show in either half.
        have hvl : view (set t i .split) h (i * 2 + 1) = view t h (i * 2 + 1) :=
          view_set_out (not_below_left h i)
        have hvr : view (set t i .split) h (i * 2 + 2) = view t h (i * 2 + 2) :=
          view_set_out (not_below_right h i)
        have hframe : FrameOf (h + 1) i t (set t i .split) :=
          FrameOf.set_root (fun _ _ => rfl) _
        have hl := ih ha.left (show h < fuel by omega) (hvl ▸ left)
        rw [hvl] at hl
        split at hl
        · next hnone =>
          have hr := ih ha.right (show h < fuel by omega) (hvr ▸ right)
          rw [hvr] at hr
          simp only [hnone, hl]
          split at hr
          · -- Neither half has room, so the node was not unused.
            next hnone' =>
            simp only [hnone', hr]
            have hsplit := split_of_full hlt hs left (fun h0 => (whole (.inl h0)).1) hnone
            rw [set_eq_self hsplit, set_eq_self]
            exact parts (.inl hsplit)
          next o r' hsome =>
          simp only [hsome]
          obtain ⟨hnode, hview, hfr⟩ := hr
          refine ⟨hnode, view_summarized ?_ hview, FrameOf.set_root ?_ _⟩
          · rw [FrameOf.view_left hfr, hvl]
          · exact fun j hj =>
              (hfr j fun hb => hj (below_right hb)).trans (hframe j hj)
        next o l' hsome =>
        simp only [hsome]
        obtain ⟨⟨n, hn, hoff⟩, hview, hfr⟩ := hl
        rcases hres : allocateFromNode b (2 ^ k) fuel (i * 2 + 1) (depth + 1)
          (set t i .split) with ⟨a, t'⟩
        rw [hres] at hn hview hfr
        obtain rfl : a = some n := hn
        refine ⟨⟨n, rfl, hoff⟩, view_summarized hview ?_, FrameOf.set_root ?_ _⟩
        · rw [FrameOf.view_right hfr, hvr]
        · exact fun j hj =>
            (hfr j fun hb => hj (below_left hb)).trans (hframe j hj)
      · -- Too large a request, or a node with no room at all.
        rw [if_neg hlt]
        dsimp only
        rw [allocateFromNode, ha.blockPages]
        split
        · rfl
        next hle =>
        have hfull : t i = .used ∨ t i = .full := by
          have hne : ¬ (t i = .unused ∨ t i = .split) :=
            fun h0 => hlt ⟨by omega, h0⟩
          revert hne
          cases t i <;> simp
        rw [if_pos hfull]

/-- The walk below a node with blocks in it, once the half it goes to has
released the block. -/
theorem freeFromNode_descend {target fuel : Nat}
    (ha : At b depth (h + 1) i off) (hlo : off ≤ target)
    (hhi : target < off + 2 ^ (h + 1)) (hs : t i = .split ∨ t i = .full)
    (hrun : freeFromNode b target fuel
      (if target < off + 2 ^ h then i * 2 + 1 else i * 2 + 2) (depth + 1) t = .ok (true, t')) :
    freeFromNode b target (fuel + 1) i depth t =
      .ok (true, set t' i (summarizeChildrenState t' i)) := by
  have hhalf : (2 : Nat) ^ (h + 1) / 2 = 2 ^ h := by omega
  have hrange : ¬ ((target : Int) < off ∨ (target : Int) ≥ off + (2 ^ (h + 1) : Nat)) := by omega
  have hside : (target : Int) < off + (2 ^ h : Nat) ↔ target < off + 2 ^ h := by
    omega
  have hne : t i ≠ .used ∧ t i ≠ .unused := by
    rcases hs with h0 | h0 <;> simp [h0]
  simp only [freeFromNode, ha.nodeOffsetPages, ha.blockPages, bind, Except.bind]
  rw [if_neg hrange, if_neg hne.1, if_neg hne.2, hhalf]
  simp only [hside, hrun]
  rfl

/-- Where the tree operation releases a block below the node, so does the
walk. -/
theorem freeFromNode_spec {target : Nat} :
    ∀ {h fuel depth i off : Nat} {t : Nat → NodeState} {T : BTree},
      At b depth h i off → h < fuel → off ≤ target → target < off + 2 ^ h →
      freeT target h off (view t h i) = some T →
      ∃ t', freeFromNode b target fuel i depth t = .ok (true, t') ∧
        view t' h i = T ∧ FrameOf h i t t' := by
  intro h
  induction h with
  | zero =>
      intro fuel depth i off t T ha hf hlo hhi hT
      obtain ⟨fuel, rfl⟩ : ∃ f, fuel = f + 1 := ⟨fuel - 1, by omega⟩
      rw [view, freeT] at hT
      split at hT
      · next hc =>
        cases hT
        refine ⟨set t i .unused, ?_, by simp [view], FrameOf.set_root (fun _ _ => rfl) _⟩
        simp only [freeFromNode, ha.nodeOffsetPages, ha.blockPages, bind, Except.bind]
        rw [if_neg (by omega), if_pos hc.1, if_neg (by simp [hc.2])]
        rfl
      · cases hT
  | succ h ih =>
      intro fuel depth i off t T ha hf hlo hhi hT
      obtain ⟨fuel, rfl⟩ : ∃ f, fuel = f + 1 := ⟨fuel - 1, by omega⟩
      -- Both states that have blocks below descend in the same way.
      have hdescend : t i = .split ∨ t i = .full →
          freeT target (h + 1) off (.node .full (view t h (i * 2 + 1)) (view t h (i * 2 + 2))) =
            some T →
          ∃ t', freeFromNode b target (fuel + 1) i depth t = .ok (true, t') ∧
            view t' (h + 1) i = T ∧ FrameOf (h + 1) i t t' := by
        intro hs hT
        simp only [freeT, Nat.add_sub_cancel] at hT
        by_cases hside : target < off + 2 ^ h
        · rw [if_pos hside] at hT
          split at hT
          · next l' hl =>
            cases hT
            obtain ⟨t', hrun, hview, hfr⟩ :=
              ih ha.left (show h < fuel by omega) hlo hside hl
            refine ⟨_, freeFromNode_descend ha hlo hhi hs
              (by rw [if_pos hside, hrun]), ?_, FrameOf.set_root ?_ _⟩
            · exact view_summarized hview (FrameOf.view_right hfr)
            · exact fun j hj => hfr j fun hb => hj (below_left hb)
          · cases hT
        · rw [if_neg hside] at hT
          split at hT
          · next r' hr =>
            cases hT
            obtain ⟨t', hrun, hview, hfr⟩ :=
              ih ha.right (show h < fuel by omega) (by omega) (by omega) hr
            refine ⟨_, freeFromNode_descend ha hlo hhi hs
              (by rw [if_neg hside, hrun]), ?_, FrameOf.set_root ?_ _⟩
            · exact view_summarized (FrameOf.view_left hfr) hview
            · exact fun j hj => hfr j fun hb => hj (below_right hb)
          · cases hT
      rw [view] at hT
      cases hs : t i with
      | unused =>
          rw [hs] at hT
          simp [freeT] at hT
      | used =>
          rw [hs] at hT
          simp only [freeT] at hT
          split at hT
          · next heq =>
            cases hT
            refine ⟨set t i .unused, ?_, ?_, FrameOf.set_root (fun _ _ => rfl) _⟩
            · simp only [freeFromNode, ha.nodeOffsetPages, ha.blockPages, bind, Except.bind]
              rw [if_neg (by omega), if_pos hs, if_neg (by simp [heq])]
              rfl
            · rw [view_set_root, view, PTree.setRoot]
          · cases hT
      | split =>
          rw [hs] at hT
          exact hdescend (.inl hs) hT
      | full =>
          rw [hs] at hT
          exact hdescend (.inr hs) hT

/-- What a query of a managed page returns: the page is free exactly when no
block covers it, and otherwise the answer is the block that does. -/
structure Answers (blocks : List (Nat × Nat)) (page : Nat)
    (res : PageQueryResult) : Prop where
  inRange : res.inRange = true
  free : res.isFree = true ↔ ∀ c ∈ blocks, ¬ Covers c page
  block : res.isFree = false → (res.blockOffset, res.blockPages) ∈ blocks ∧
      Covers (res.blockOffset, res.blockPages) page

theorem queryPageFromNode_spec {page : Nat} (hp : page < b.pageCount) :
    ∀ {h fuel depth i off : Nat}, At b depth h i off → h < fuel → off ≤ page → page < off + 2 ^ h →
      Wf b.pageCount h off (view b.tree h i) → Answers (blocks h off (view b.tree h i)) page
        (queryPageFromNode b page fuel i depth off (2 ^ h)) := by
  intro h
  induction h with
  | zero =>
      intro fuel depth i off ha hf hlo hhi hw
      obtain ⟨fuel, rfl⟩ : ∃ f, fuel = f + 1 := ⟨fuel - 1, by omega⟩
      rw [queryPageFromNode]
      cases hw with
      | leaf inside beyond =>
      have hs := inside (by omega)
      have hpage : Covers (off, 1) page := ⟨hlo, hhi⟩
      rcases hs with hs | hs <;>
        constructor <;> simp [hp, hs, blocks, view, hpage]
  | succ h ih =>
      intro fuel depth i off ha hf hlo hhi hw
      obtain ⟨fuel, rfl⟩ : ∃ f, fuel = f + 1 := ⟨fuel - 1, by omega⟩
      have hhalf : (2 : Nat) ^ (h + 1) / 2 = 2 ^ h := by omega
      have hpage : Covers (off, 2 ^ (h + 1)) page := ⟨hlo, hhi⟩
      rw [queryPageFromNode]
      rw [view] at hw ⊢
      cases hw with
      | node left right whole parts =>
      -- The half the walk goes to is the one whose blocks can cover the page.
      have hsub : Answers (blocks h off (view b.tree h (i * 2 + 1)) ++
            blocks h (off + 2 ^ h) (view b.tree h (i * 2 + 2))) page
          (if page < off + 2 ^ h then
            queryPageFromNode b page fuel (i * 2 + 1) (depth + 1) off (2 ^ h)
          else queryPageFromNode b page fuel (i * 2 + 2) (depth + 1)
            (off + 2 ^ h) (2 ^ h)) := by
        by_cases hside : page < off + 2 ^ h
        · rw [if_pos hside]
          obtain ⟨h1, h2, h3⟩ :=
            ih ha.left (show h < fuel by omega) hlo hside left
          refine ⟨h1, h2.trans ?_, fun hf => ?_⟩
          · rw [List.forall_mem_append]
            refine ⟨fun h0 => ⟨h0, fun c hc hcov => ?_⟩, fun h0 => h0.1⟩
            have := (right.isBlock ha.right.dvd c hc).lower
            exact absurd hcov.1 (by omega)
          · exact ⟨List.mem_append_left _ (h3 hf).1, (h3 hf).2⟩
        · rw [if_neg hside]
          obtain ⟨h1, h2, h3⟩ :=
            ih ha.right (show h < fuel by omega) (by omega) (by omega) right
          refine ⟨h1, h2.trans ?_, fun hf => ?_⟩
          · rw [List.forall_mem_append]
            refine ⟨fun h0 => ⟨fun c hc hcov => ?_, h0⟩, fun h0 => h0.2⟩
            have := (left.isBlock ha.left.dvd c hc).upper
            exact absurd hcov.2 (by omega)
          · exact ⟨List.mem_append_right _ (h3 hf).1, (h3 hf).2⟩
      cases hs : b.tree i with
      | unused => constructor <;> simp [hp, blocks]
      | used => constructor <;> simp [hp, blocks, hpage]
      | split =>
          simpa [hp, hhalf, blocks] using hsub
      | full =>
          simpa [hp, hhalf, blocks] using hsub

end F7ly.Mem.BuddySystem
