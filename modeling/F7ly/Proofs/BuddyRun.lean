import F7ly.Lib.Run
import F7ly.Proofs.BuddyInit

/-!
# Runs of the buddy allocator

A run is `Initialize` followed by any calls of `Alloc` and `Free` with any
`int` arguments. Beside the allocator it carries the list a caller could keep
for itself, the blocks it was handed and has not given back, and the results
say that the allocator agrees with that list at every point. `Inv` is what
one call preserves and `Good` what it means for the caller.
-/

namespace F7ly.Mem

open F7ly.HeapTree F7ly.Interval BTree BuddySystem

/-- A call with its `int` argument. -/
inductive BuddyOp where
  | alloc (size : Int32)
  | free (offset : Int32)

/-- The allocator and the blocks its callers hold. -/
structure BuddyRun where
  sys : BuddySystem
  live : List (Nat × Nat)

/-- One call. A released offset leaves the callers' list whether or not it was
in it. -/
def BuddyRun.step (s : BuddyRun) : BuddyOp → Except BuddyFault BuddyRun
  | .alloc size => do
      let (offset, b) ← s.sys.alloc size.toInt
      if offset < 0 then return ⟨b, s.live⟩
      return ⟨b, (offset.toNat, nextPowerOfTwo (max size.toInt 1).toNat) :: s.live⟩
  | .free offset => do
      let b ← s.sys.free offset.toInt
      return ⟨b, s.live.filter fun blk => (blk.1 : Int) ≠ offset.toInt⟩

/-- A whole run over `totalPages` pages. -/
def buddyRun (totalPages treeStorage treeStorageBytes : Nat)
    (ops : List BuddyOp) : Except BuddyFault BuddyRun := do
  let b ← initializeSystem totalPages treeStorage treeStorageBytes
  ops.foldlM BuddyRun.step ⟨b, []⟩

/-- What the callers of an allocator over `N` pages rely on. -/
structure BuddyRun.Good (N : Nat) (s : BuddyRun) : Prop where
  /-- Blocks held at the same time are disjoint. -/
  disjoint : s.live.Pairwise Apart
  /-- A block starts at a multiple of its length and ends inside. -/
  aligned : ∀ c ∈ s.live, 0 < c.2 ∧ c.2 ∣ c.1 ∧ c.1 + c.2 ≤ N
  /-- A page is reported free exactly when no block held contains it. -/
  queryFree : ∀ p, p < N → ((s.sys.queryPage p).inRange = true ∧
    ((s.sys.queryPage p).isFree = true ↔ ∀ c ∈ s.live, ¬ Covers c p))
  /-- A page of a block held is reported with that block. -/
  queryBlock : ∀ p, ∀ c ∈ s.live, Covers c p →
    (s.sys.queryPage p).blockOffset = c.1 ∧ (s.sys.queryPage p).blockPages = c.2
  /-- A node with blocks below it summarises its children. -/
  summarized : ∀ i, i < s.sys.capacityPages - 1 → s.sys.tree i = .split ∨ s.sys.tree i = .full →
      s.sys.tree i = summarizeChildrenState s.sys.tree i
  /-- The leaves beyond the managed pages are never taken. -/
  beyond : ∀ p, N ≤ p → p < s.sys.capacityPages → s.sys.tree (s.sys.capacityPages - 1 + p) = .full
  /-- The counter is the number of pages reported free. -/
  counter : s.sys.freePageCount = Nat.count (fun p => (s.sys.queryPage p).isFree = true) N

/-- The tree is well formed, its blocks are the blocks held, and the counter
is what they leave. -/
structure BuddyRun.Inv (N : Nat) (s : BuddyRun) : Prop where
  pageCount : s.sys.pageCount = N
  root : At s.sys 0 s.sys.level 0 0
  fits : N ≤ 2 ^ s.sys.level
  wf : Wf N s.sys.level 0 (view s.sys.tree s.sys.level 0)
  live : s.live.Perm (blocks s.sys.level 0 (view s.sys.tree s.sys.level 0))
  counter : s.sys.freePageCount + total s.live = N

variable {N : Nat} {s : BuddyRun}

namespace BuddyRun

theorem Inv.isBlock (hs : s.Inv N) : ∀ c ∈ s.live, IsBlock N s.sys.level 0 c :=
  fun c hc => hs.wf.isBlock (Nat.dvd_zero _) c (hs.live.mem_iff.mp hc)

theorem Inv.apart (hs : s.Inv N) : s.live.Pairwise Apart :=
  (hs.live.pairwise_iff Apart.symm).mpr (hs.wf.apart (Nat.dvd_zero _))

theorem Inv.answers {p : Nat} (hs : s.Inv N) (hp : p < N) :
    Answers s.live p (s.sys.queryPage p) := by
  have hcov : p < 0 + 2 ^ s.sys.level := by
    rw [Nat.zero_add]
    exact Nat.lt_of_lt_of_le hp hs.fits
  have hq := queryPageFromNode_spec (hs.pageCount ▸ hp) hs.root
    (Nat.lt_succ_self _) (Nat.zero_le p) hcov (hs.pageCount ▸ hs.wf)
  rw [queryPage, if_neg (by rw [hs.pageCount]; omega), hs.root.capacity]
  obtain ⟨h1, h2, h3⟩ := hq
  refine ⟨h1, h2.trans ?_, fun hf => ?_⟩
  · simp [hs.live.mem_iff]
  · exact ⟨hs.live.mem_iff.mpr (h3 hf).1, (h3 hf).2⟩

theorem Inv.subtree {d j : Nat} (hs : s.Inv N)
    (hd : d ≤ s.sys.level) (hlo : 2 ^ d ≤ j + 1) (hhi : j + 1 < 2 ^ (d + 1)) :
    Wf N (s.sys.level - d) ((j + 1 - 2 ^ d) * 2 ^ (s.sys.level - d))
      (view s.sys.tree (s.sys.level - d) j) := by
  have hroot : Wf N (s.sys.level - d + d) 0
      (view s.sys.tree (s.sys.level - d + d) 0) := by
    rw [Nat.sub_add_cancel hd]
    exact hs.wf
  have hsub := view_subtree (fun hw => ?_)
    (show 2 ^ d * (0 + 1) ≤ j + 1 by omega)
    (show j + 1 < 2 ^ d * (0 + 2) by omega) hroot
  · simpa using hsub
  · cases hw with
    | node hl hr _ _ => exact ⟨hl, hr⟩

theorem Inv.good (hs : s.Inv N) : s.Good N where
  disjoint := hs.apart
  aligned c hc :=
    have hb := hs.isBlock c hc
    ⟨hb.pos, hb.aligned, hb.inside⟩
  queryFree p hp := ⟨(hs.answers hp).inRange, (hs.answers hp).free⟩
  queryBlock p c hc hcov := by
    have hp : p < N := Nat.lt_of_lt_of_le hcov.2 (hs.isBlock c hc).inside
    have ha := hs.answers hp
    have hf : (s.sys.queryPage p).isFree = false := by
      rw [← Bool.not_eq_true, ha.free]
      exact fun h => h c hc hcov
    obtain ⟨hmem, hcov'⟩ := ha.block hf
    have heq := eq_of_covers hs.apart hmem hc hcov' hcov
    exact ⟨congrArg Prod.fst heq, congrArg Prod.snd heq⟩
  summarized i hi hst := by
    rw [hs.root.capacity] at hi
    -- The node's depth is the bit length of its number.
    have hlo : 2 ^ Nat.log 2 (i + 1) ≤ i + 1 := Nat.pow_log_le_self 2 (by omega)
    have hhi : i + 1 < 2 ^ (Nat.log 2 (i + 1) + 1) :=
      Nat.lt_pow_succ_log_self (by omega) _
    have hd : Nat.log 2 (i + 1) < s.sys.level :=
      (Nat.pow_lt_pow_iff_right (a := 2) (by omega)).mp (by omega)
    have hw := hs.subtree (Nat.le_of_lt hd) hlo hhi
    obtain ⟨h, hh⟩ : ∃ h, s.sys.level - Nat.log 2 (i + 1) = h + 1 :=
      ⟨s.sys.level - Nat.log 2 (i + 1) - 1, by omega⟩
    rw [hh, view] at hw
    cases hw with
    | node left right whole parts =>
      have := parts hst
      rwa [root_view, root_view] at this
  beyond p hN hp := by
    rw [hs.root.capacity] at hp ⊢
    have hw := hs.subtree (j := 2 ^ s.sys.level - 1 + p) (Nat.le_refl _)
      (by omega) (by omega)
    rw [Nat.sub_self, view, pow_zero, Nat.mul_one,
      show 2 ^ s.sys.level - 1 + p + 1 - 2 ^ s.sys.level = p by omega] at hw
    cases hw with
    | leaf inside beyond => exact beyond hN
  counter := by
    have hcount := count_uncovered hs.apart fun c hc => (hs.isBlock c hc).inside
    have hcongr : Nat.count (fun p => (s.sys.queryPage p).isFree = true) N =
        Nat.count (fun p => ∀ c ∈ s.live, ¬ Covers c p) N :=
      Nat.le_antisymm
        (Nat.count_mono_left fun p hp => ((hs.answers hp).free).mp)
        (Nat.count_mono_left fun p hp => ((hs.answers hp).free).mpr)
    have := hs.counter
    omega

/-- The request of `Alloc` in whole pages. -/
theorem exists_nextPowerOfTwo (size : Int32) :
    ∃ k, nextPowerOfTwo (max size.toInt 1).toNat = 2 ^ k :=
  ⟨_, nextPowerOfTwo_eq (by have := Int32.toInt_lt size; omega)⟩

/-- What `Alloc` does, by what the tree has to offer. Where that is nothing, nothing
is written; otherwise the counter can pay for the block. -/
theorem Inv.alloc_spec {k : Nat} (hs : s.Inv N) {size : Int}
    (hk : nextPowerOfTwo (max size 1).toNat = 2 ^ k) :
    match allocT (2 ^ k) s.sys.level 0 (view s.sys.tree s.sys.level 0) with
    | none => s.sys.alloc size = .ok (-1, s.sys)
    | some (o, T) => ∃ t, s.sys.alloc size = .ok ((o : Int), ⟨s.sys.pageCount,
          s.sys.capacityPages, s.sys.freePageCount - 2 ^ k, s.sys.level, t⟩) ∧
        view t s.sys.level 0 = T ∧ FrameOf s.sys.level 0 s.sys.tree t ∧
        2 ^ k + total s.live ≤ N := by
  have hreq : (if size ≤ 0 then 1 else size.toNat) = (max size 1).toNat := by
    split <;> omega
  have hspec := allocateFromNode_spec (k := k) hs.root (Nat.lt_succ_self _) hs.wf
  have hcap := hs.root.capacity
  rcases hT : allocT (2 ^ k) s.sys.level 0 (view s.sys.tree s.sys.level 0)
    with _ | ⟨o, T⟩
  · rw [hT] at hspec
    rw [alloc]
    simp only [hreq, hk, hspec]
    split <;> rfl
  · rw [hT] at hspec
    obtain ⟨⟨n, hn, hoff⟩, hview, hframe⟩ := hspec
    obtain ⟨hwf, hperm⟩ := allocT_spec hs.wf hT
    have hfit : ¬ 2 ^ k > s.sys.capacityPages := fun hlt => by
      rw [hcap] at hlt
      rw [allocT_too_long hlt] at hT
      cases hT
    rcases hres : allocateFromNode s.sys (2 ^ k) (s.sys.level + 1) 0 0 s.sys.tree
      with ⟨a, t⟩
    rw [hres] at hn hview hframe
    obtain rfl : a = some n := hn
    have hblock := hwf.isBlock (Nat.dvd_zero _) (o, 2 ^ k)
      (hperm.mem_iff.mpr List.mem_cons_self)
    have hpos := hblock.pos
    have hinside := hblock.inside
    -- The blocks after the call are disjoint and inside, so the counter can
    -- pay for the new one.
    have hpay : 2 ^ k + total s.live ≤ N := by
      have hcount := count_uncovered (hwf.apart (Nat.dvd_zero _))
        fun c hc => (hwf.isBlock (Nat.dvd_zero _) c hc).inside
      rw [total_perm hperm, total_cons, ← total_perm hs.live] at hcount
      omega
    have hcounter := hs.counter
    refine ⟨t, ?_, hview, hframe, hpay⟩
    rw [alloc]
    simp only [hreq, hk, if_neg hfit, hres, hoff, bind, Except.bind]
    rw [if_neg (by rw [hs.pageCount]; omega), if_neg (by omega)]
    rfl

theorem alloc_step (hs : s.Inv N) (size : Int32) :
    ∃ s', s.step (.alloc size) = .ok s' ∧ s'.Inv N := by
  obtain ⟨k, hk⟩ := exists_nextPowerOfTwo size
  have hspec := hs.alloc_spec hk
  split at hspec
  · exact ⟨s, by rw [step, hspec]; rfl, hs⟩
  next o T hT =>
  obtain ⟨t, halloc, hview, -, hpay⟩ := hspec
  obtain ⟨hwf, hperm⟩ := allocT_spec hs.wf hT
  have hcounter := hs.counter
  refine ⟨⟨⟨s.sys.pageCount, s.sys.capacityPages, s.sys.freePageCount - 2 ^ k,
    s.sys.level, t⟩, (o, 2 ^ k) :: s.live⟩, ?_, hs.pageCount, hs.root.update _ _,
    hs.fits, ?_, ?_, ?_⟩
  · simp only [step, halloc, hk]
    rfl
  · rw [hview]; exact hwf
  · rw [hview]; exact (hs.live.cons _).trans hperm.symm
  · rw [total_cons]
    dsimp only
    omega

theorem filter_eq_self {live : List (Nat × Nat)} {offset : Int}
    (h : ∀ c ∈ live, (c.1 : Int) ≠ offset) : live.filter (fun c => (c.1 : Int) ≠ offset) = live :=
  List.filter_eq_self.mpr fun c hc => by simpa using h c hc

theorem Inv.free_ignored (hs : s.Inv N) {offset : Int}
    (h : ∀ c ∈ s.live, (c.1 : Int) ≠ offset) : s.sys.free offset = .ok s.sys := by
  obtain rfl := hs.pageCount
  rw [free]
  by_cases hrange : offset < 0 ∨ offset ≥ s.sys.pageCount
  · rw [if_pos hrange]
    rfl
  rw [if_neg hrange]
  obtain ⟨p, rfl⟩ : ∃ p : Nat, offset = p := ⟨offset.toNat, by omega⟩
  rw [Int.toNat_natCast]
  have ha := hs.answers (show p < s.sys.pageCount by omega)
  rw [if_pos]
  · rfl
  -- A page that is not free lies in a block that starts elsewhere.
  cases hfree : (s.sys.queryPage p).isFree with
  | true => simp
  | false =>
      have hmem := (ha.block hfree).1
      have hne : (s.sys.queryPage p).blockOffset ≠ p := fun heq =>
        h _ hmem (by exact_mod_cast heq)
      exact .inr (.inr hne)

theorem Inv.free_held {start len : Nat} (hN : N < 2 ^ 64) (hs : s.Inv N)
    (hmem : (start, len) ∈ s.live) :
    ∃ t T, s.sys.free start = .ok
        { s.sys with tree := t, freePageCount := s.sys.freePageCount + len } ∧
      view t s.sys.level 0 = T ∧ FrameOf s.sys.level 0 s.sys.tree t ∧
      Wf N s.sys.level 0 T ∧ s.live.Perm ((start, len) :: blocks s.sys.level 0 T) := by
  have hmem' := hs.live.mem_iff.mp hmem
  obtain ⟨T, hT, hwf, hperm⟩ := freeT_spec hs.wf (Nat.dvd_zero _) hmem'
  have hb := hs.isBlock _ hmem
  have hpos := hb.pos
  have hinside := hb.inside
  have hupper := hb.upper
  obtain ⟨t, hrun, hview, hframe⟩ := freeFromNode_spec hs.root
    (Nat.lt_succ_self _) (Nat.zero_le start) (by omega) hT
  have hsum : total s.live = len + total (blocks s.sys.level 0 T) := by
    rw [total_perm hs.live, total_perm hperm, total_cons]
  have hcounter := hs.counter
  have hquery := hs.good.queryBlock start _ hmem ⟨Nat.le_refl _, by omega⟩
  have hin := (hs.good.queryFree start (by omega)).1
  have hfree : (s.sys.queryPage start).isFree = false := by
    rw [← Bool.not_eq_true, (hs.good.queryFree start (by omega)).2]
    exact fun h => h _ hmem ⟨Nat.le_refl _, by omega⟩
  refine ⟨t, T, ?_, hview, hframe, hwf, hs.live.trans hperm⟩
  rw [free, if_neg (by rw [hs.pageCount]; omega), Int.toNat_natCast]
  simp only [hin, hfree, hquery, hrun, bind, Except.bind]
  rw [if_neg (by simp)]
  simp only [Bool.not_true, Bool.false_eq_true, if_false]
  rw [hs.pageCount, show (N + 2 ^ 64 - len) % 2 ^ 64 = N - len by omega, if_neg (by omega)]
  rfl

/-- The starts of blocks held are distinct, so a release takes one block off the
callers' list. -/
theorem Inv.filter_perm {start len : Nat} (hs : s.Inv N)
    {rest : List (Nat × Nat)} (h : s.live.Perm ((start, len) :: rest)) :
    (s.live.filter fun c => (c.1 : Int) ≠ start).Perm rest := by
  have hall := h.filter (fun c => decide ((c.1 : Int) ≠ start))
  rw [List.filter_cons_of_neg (by simp)] at hall
  refine hall.trans (.of_eq (filter_eq_self fun c hc heq => ?_))
  have hmem : c ∈ s.live := h.mem_iff.mpr (List.mem_cons_of_mem _ hc)
  have hmem0 : (start, len) ∈ s.live := h.mem_iff.mpr List.mem_cons_self
  have hpos := (hs.isBlock c hmem).pos
  have hpos0 := (hs.isBlock _ hmem0).pos
  have hapart := (h.pairwise_iff Apart.symm).mp hs.apart
  rcases (List.pairwise_cons.mp hapart).1 c hc with h | h <;> dsimp only at h hpos0 <;> omega

theorem free_inv (hN : N < 2 ^ 64) (hs : s.Inv N) (offset : Int) : ∃ b, s.sys.free offset = .ok b ∧
      Inv N ⟨b, s.live.filter fun c => (c.1 : Int) ≠ offset⟩ := by
  by_cases hheld : ∃ c ∈ s.live, (c.1 : Int) = offset
  · obtain ⟨⟨start, len⟩, hmem, rfl⟩ := hheld
    obtain ⟨t, T, hfree, hview, -, hwf, hperm⟩ := hs.free_held hN hmem
    have hlive := hs.filter_perm hperm
    have hsum : total s.live = len + total (blocks s.sys.level 0 T) := by
      rw [total_perm hperm, total_cons]
    have hcounter := hs.counter
    refine ⟨_, hfree, hs.pageCount, hs.root.update _ _, hs.fits, ?_, ?_, ?_⟩
    · rw [hview]; exact hwf
    · rw [hview]; exact hlive
    · rw [total_perm hlive]
      dsimp only
      omega
  · have hignored : ∀ c ∈ s.live, (c.1 : Int) ≠ offset := fun c hc heq =>
      hheld ⟨c, hc, heq⟩
    rw [filter_eq_self hignored]
    exact ⟨s.sys, hs.free_ignored hignored, hs⟩

theorem inv_initial {b : BuddySystem} (hb : Initial N b) : Inv N ⟨b, []⟩ := by
  obtain ⟨hwf, hblocks⟩ := hb.fresh.wf hb.root
  refine ⟨hb.pageCount, hb.root, hb.fits, hwf, ?_, ?_⟩
  · rw [hblocks]
  · simpa using hb.freePageCount

theorem inv_step (hN : N < 2 ^ 64) (s : BuddyRun) (op : BuddyOp)
    (hs : s.Inv N) : ∃ s', s.step op = .ok s' ∧ s'.Inv N := by
  cases op with
  | alloc size => exact alloc_step hs size
  | free offset =>
      obtain ⟨b, hb, hinv⟩ := free_inv hN hs offset.toInt
      exact ⟨_, by rw [step, hb]; rfl, hinv⟩

end BuddyRun

/-- Every run over `N` pages succeeds and agrees with its callers exactly when
the tree has at most 29 levels. -/
theorem buddyRun_good_iff {N storage bytes : Nat} (h1 : 1 ≤ N)
    (hN : N ≤ 2 ^ 30) (hs : storage ≠ 0) (hb : requiredTreeBytes N ≤ bytes) :
    (∀ ops, ∃ s, buddyRun N storage bytes ops = .ok s ∧ s.Good N) ↔ N ≤ 2 ^ 29 := by
  constructor
  · intro h
    by_contra hlt
    obtain ⟨s, hrun, -⟩ := h []
    rw [buddyRun, initializeSystem_fault (by omega) hN hs hb] at hrun
    cases hrun
  · intro hN29 ops
    obtain ⟨b, hinit, hb⟩ := initializeSystem_ok h1 hN29 hs hb
    have hinv := BuddyRun.inv_initial hb
    obtain ⟨s, hrun, hs'⟩ := Run.foldlM_ok
      (BuddyRun.inv_step (show N < 2 ^ 64 by omega)) ops _ hinv
    exact ⟨s, by rw [buddyRun, hinit]; exact hrun, hs'.good⟩

theorem buddyRun_good_iff_five :
    (∀ ops, ∃ s, buddyRun 5 1 15 ops = .ok s ∧ s.Good 5) ↔ 5 ≤ 2 ^ 29 :=
  buddyRun_good_iff (by decide) (by decide) (by decide) (by decide)

/-- With one page more than `2 ^ 29` no run gets past `Initialize`. -/
theorem buddyRun_thirty_levels :
    ¬ ∃ s, buddyRun (2 ^ 29 + 1) 1 (requiredTreeBytes (2 ^ 29 + 1)) [] = .ok s ∧
      s.Good (2 ^ 29 + 1) := by
  rintro ⟨s, hrun, -⟩
  cases hrun

end F7ly.Mem
