import F7ly.Mem.BuddyTree

/-!
# The buddy tree partitions its pages

What `allocT` and `freeT` do to the list of allocated blocks: the first adds
the block it returns, the second removes the block it was given, and both
keep the shape `Wf`. From the shape alone the blocks are disjoint, aligned to
their own length and inside the managed pages, so the two facts together are
all the allocator's callers need.
-/

namespace F7ly.Mem.BTree

open F7ly.HeapTree F7ly.Interval
open BuddySystem (summarize)

theorem summarize_eq_unused {l r : NodeState} :
    summarize l r = .unused ↔ l = .unused ∧ r = .unused := by
  cases l <;> cases r <;> decide

theorem summarize_ne_used (l r : NodeState) : summarize l r ≠ .used := by
  cases l <;> cases r <;> decide

variable {N h off : Nat} {t : BTree}

theorem Wf.join {l r : BTree} (hl : Wf N h off l) (hr : Wf N h (off + 2 ^ h) r) :
    Wf N (h + 1) off (.node (summarize l.root r.root) l r) := by
  refine .node hl hr (fun h => ?_) (fun _ => rfl)
  rcases h with h | h
  · exact summarize_eq_unused.mp h
  · exact absurd h (summarize_ne_used _ _)

theorem Wf.inside (hw : Wf N h off t)
    (ht : t.root = .unused ∨ t.root = .used) : off + 2 ^ h ≤ N := by
  induction hw with
  | leaf inside beyond =>
      rename_i off s
      by_contra hlt
      simp_all [PTree.root]
  | node left right whole parts ihl ihr =>
      rename_i h off s l r
      have hr := ihr (.inl (whole ht).2)
      omega

theorem blocks_unused (ht : t.root = .unused) : blocks h off t = [] := by
  cases t <;> simp_all [blocks, PTree.root]

theorem blocks_join (h off : Nat) (l r : BTree) :
    blocks (h + 1) off (.node (summarize l.root r.root) l r) =
      blocks h off l ++ blocks h (off + 2 ^ h) r := by
  rcases hs : summarize l.root r.root with _ | _ | _ | _
  · obtain ⟨hl, hr⟩ := summarize_eq_unused.mp hs
    rw [blocks_unused hl, blocks_unused hr]
    rfl
  · exact absurd hs (summarize_ne_used _ _)
  · rfl
  · rfl

/-- What a block of a well-formed tree is: a power of two of pages, aligned,
below the node and inside the managed pages. -/
structure IsBlock (N h off : Nat) (b : Nat × Nat) : Prop where
  lower : off ≤ b.1
  upper : b.1 + b.2 ≤ off + 2 ^ h
  inside : b.1 + b.2 ≤ N
  pow : ∃ k, k ≤ h ∧ b.2 = 2 ^ k
  aligned : b.2 ∣ b.1

theorem IsBlock.pos {b : Nat × Nat} (hb : IsBlock N h off b) : 0 < b.2 := by
  obtain ⟨k, -, hk⟩ := hb.pow
  rw [hk]
  exact Nat.two_pow_pos k

theorem Wf.isBlock (hw : Wf N h off t)
    (hoff : 2 ^ h ∣ off) : ∀ b ∈ blocks h off t, IsBlock N h off b := by
  induction hw with
  | leaf inside beyond =>
      rename_i off s
      intro b hb
      by_cases hs : s = .used
      · simp only [blocks, hs, if_true, List.mem_singleton] at hb
        subst hb
        refine ⟨Nat.le_refl _, Nat.le_refl _, ?_, ⟨0, by omega, rfl⟩, hoff⟩
        exact Wf.inside (.leaf inside beyond) (.inr hs)
      · simp [blocks, hs] at hb
  | node left right whole parts ihl ihr =>
      rename_i h off s l r
      have hdl : 2 ^ h ∣ off := Nat.dvd_trans (pow_dvd_pow 2 (by omega)) hoff
      have hdr : 2 ^ h ∣ off + 2 ^ h := Nat.dvd_add hdl (Nat.dvd_refl _)
      -- A block of either half is one of the whole.
      have hsub : ∀ b ∈ blocks h off l ++ blocks h (off + 2 ^ h) r, IsBlock N (h + 1) off b := by
        intro b hb
        rcases List.mem_append.mp hb with hb | hb
        · obtain ⟨h1, h2, h3, ⟨k, hk, h4⟩, h5⟩ := ihl hdl b hb
          exact ⟨h1, by omega, h3, ⟨k, by omega, h4⟩, h5⟩
        · obtain ⟨h1, h2, h3, ⟨k, hk, h4⟩, h5⟩ := ihr hdr b hb
          exact ⟨by omega, by omega, h3, ⟨k, by omega, h4⟩, h5⟩
      cases s with
      | unused => intro b hb; simp [blocks] at hb
      | used =>
          intro b hb
          simp only [blocks, List.mem_singleton] at hb
          subst hb
          refine ⟨Nat.le_refl _, Nat.le_refl _, ?_, ⟨h + 1, Nat.le_refl _, rfl⟩, hoff⟩
          exact Wf.inside (.node left right whole parts) (.inr rfl)
      | split => exact hsub
      | full => exact hsub

theorem Wf.apart (hw : Wf N h off t) (hoff : 2 ^ h ∣ off) : (blocks h off t).Pairwise Apart := by
  induction hw with
  | leaf inside beyond => rw [blocks]; split <;> simp
  | node left right whole parts ihl ihr =>
      rename_i h off s l r
      have hdl : 2 ^ h ∣ off := Nat.dvd_trans (pow_dvd_pow 2 (by omega)) hoff
      have hdr : 2 ^ h ∣ off + 2 ^ h := Nat.dvd_add hdl (Nat.dvd_refl _)
      have hsub : (blocks h off l ++ blocks h (off + 2 ^ h) r).Pairwise Apart := by
        refine List.pairwise_append.mpr ⟨ihl hdl, ihr hdr, fun a ha b hb => ?_⟩
        exact .inl (Nat.le_trans (left.isBlock hdl a ha).upper
          (right.isBlock hdr b hb).lower)
      cases s with
      | unused => simp [blocks]
      | used => simp [blocks]
      | split => exact hsub
      | full => exact hsub

theorem allocT_unused {k : Nat} (hw : Wf N h off t) (ht : t.root = .unused) (hk : k ≤ h) :
    ∃ o t', allocT (2 ^ k) h off t = some (o, t') := by
  induction hw with
  | leaf inside beyond =>
      obtain rfl : k = 0 := by omega
      exact ⟨_, _, if_pos ⟨rfl, ht⟩⟩
  | node left right whole parts ihl ihr =>
      rename_i h off s l r
      obtain rfl : s = .unused := ht
      rcases Nat.eq_or_lt_of_le hk with rfl | hlt
      · simp [allocT]
      · obtain ⟨o, l', hl⟩ := ihl (whole (.inl rfl)).1 (by omega)
        have hpow : (2 : Nat) ^ k < 2 ^ (h + 1) :=
          Nat.pow_lt_pow_right (by omega) hlt
        simp [allocT, hpow, Nat.ne_of_gt hpow, hl]

theorem allocT_too_long {pages : Nat} (hlt : 2 ^ h < pages) : allocT pages h off t = none := by
  have hne : 2 ^ h ≠ pages := by omega
  cases t with
  | leaf s => simp [allocT, hne]
  | node s l r => simp [allocT, hne, Nat.not_lt.mpr hlt.le]

theorem allocT_spec {pages o : Nat} {t' : BTree} (hw : Wf N h off t)
    (ha : allocT pages h off t = some (o, t')) :
    Wf N h off t' ∧ (blocks h off t').Perm ((o, pages) :: blocks h off t) := by
  induction hw generalizing o t' with
  | leaf inside beyond =>
      rename_i off s
      rw [allocT] at ha
      split at ha
      · next hc =>
        obtain ⟨rfl, rfl⟩ := hc
        obtain ⟨rfl, rfl⟩ := ha
        refine ⟨.leaf (fun _ => .inr rfl) (fun h => ?_), by simp [blocks]⟩
        exact absurd (beyond h) (by simp)
      · cases ha
  | node left right whole parts ihl ihr =>
      rename_i h off s l r
      rw [allocT] at ha
      split at ha
      · -- The block itself has the right size.
        next hsize =>
        split at ha
        · next hs =>
          obtain ⟨rfl, rfl⟩ := ha
          subst hs
          refine ⟨.node left right (fun _ => whole (.inl rfl)) (by simp), ?_⟩
          simp [blocks, hsize]
        · cases ha
      · split at ha
        · -- Descend; an unused node has the blocks of its unused halves.
          next hc =>
          have hblocks : blocks (h + 1) off (.node s l r) =
              blocks h off l ++ blocks h (off + 2 ^ h) r := by
            rcases hc.2 with rfl | rfl
            · obtain ⟨hl, hr⟩ := whole (.inl rfl)
              rw [blocks_unused hl, blocks_unused hr, blocks_unused rfl]
              rfl
            · rfl
          split at ha
          · next o' l' hl =>
            obtain ⟨rfl, rfl⟩ := ha
            obtain ⟨hwl, hpl⟩ := ihl hl
            refine ⟨hwl.join right, ?_⟩
            rw [blocks_join, hblocks]
            exact hpl.append_right _
          · split at ha
            · next o' r' hr =>
              obtain ⟨rfl, rfl⟩ := ha
              obtain ⟨hwr, hpr⟩ := ihr hr
              refine ⟨left.join hwr, ?_⟩
              rw [blocks_join, hblocks]
              exact (hpr.append_left _).trans List.perm_middle
            · cases ha
        · cases ha

/-- Releasing an allocated block succeeds, keeps the shape and removes exactly
that block. -/
theorem freeT_spec {target len : Nat} (hw : Wf N h off t)
    (hoff : 2 ^ h ∣ off) (hm : (target, len) ∈ blocks h off t) :
    ∃ t', freeT target h off t = some t' ∧ Wf N h off t' ∧
      (blocks h off t).Perm ((target, len) :: blocks h off t') := by
  induction hw with
  | leaf inside beyond =>
      rename_i off s
      rw [blocks] at hm
      split at hm
      · next hs =>
        obtain ⟨rfl, rfl⟩ : target = off ∧ len = 2 ^ 0 := by simpa using hm
        refine ⟨.leaf .unused, by simp [freeT, hs], ?_, by simp [blocks, hs]⟩
        refine .leaf (fun _ => .inl rfl) (fun h => ?_)
        exact absurd (beyond h) (by simp [hs])
      · cases hm
  | node left right whole parts ihl ihr =>
      rename_i h off s l r
      have hdl : 2 ^ h ∣ off := Nat.dvd_trans (pow_dvd_pow 2 (by omega)) hoff
      have hdr : 2 ^ h ∣ off + 2 ^ h := Nat.dvd_add hdl (Nat.dvd_refl _)
      -- The block lies in one half, and the walk picks that half.
      have hsub : (target, len) ∈ blocks h off l ++ blocks h (off + 2 ^ h) r →
          ∃ t', freeT target (h + 1) off (.node .full l r) = some t' ∧ Wf N (h + 1) off t' ∧
            (blocks h off l ++ blocks h (off + 2 ^ h) r).Perm
              ((target, len) :: blocks (h + 1) off t') := by
        intro hm
        rcases List.mem_append.mp hm with hm | hm
        · have hb := left.isBlock hdl _ hm
          have hlt : target < off + 2 ^ h :=
            Nat.lt_of_lt_of_le (Nat.lt_add_of_pos_right hb.pos) hb.upper
          obtain ⟨l', hf, hwl, hpl⟩ := ihl hdl hm
          refine ⟨_, by simp [freeT, if_pos hlt, hf], hwl.join right, ?_⟩
          rw [blocks_join]
          exact hpl.append_right _
        · have hb := right.isBlock hdr _ hm
          obtain ⟨r', hf, hwr, hpr⟩ := ihr hdr hm
          refine ⟨_, by simp [freeT, if_neg (Nat.not_lt.mpr hb.lower), hf], left.join hwr, ?_⟩
          rw [blocks_join]
          exact (hpr.append_left _).trans List.perm_middle
      cases s with
      | unused => simp [blocks] at hm
      | used =>
          obtain ⟨rfl, rfl⟩ : target = off ∧ len = 2 ^ (h + 1) := by
            simpa [blocks] using hm
          refine ⟨.node .unused l r, by simp [freeT], ?_, by simp [blocks]⟩
          exact .node left right (fun _ => whole (.inr rfl)) (by simp)
      | split => exact hsub hm
      | full => exact hsub hm

end F7ly.Mem.BTree
