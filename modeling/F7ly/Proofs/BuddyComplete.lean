import F7ly.Proofs.BuddyRun

/-!
# The buddy allocator finds a block if there is one

The search prunes by the state of a node alone. That loses nothing: below a node
that is used or full every managed page is in some block, and a node all of whose
pages are managed and free is unused, so a free block of the requested length is
either a whole node the search may take or inside one half of a node it may enter.
The answer of `get_max_free_block_pages` is decided by the same states.
-/

namespace F7ly.Mem

open F7ly.HeapTree F7ly.Interval BTree BuddySystem

/-- A block of `len` pages at `o` that is aligned, managed, and free of the blocks
`held`. -/
structure FreeBlock (N : Nat) (held : List (Nat × Nat)) (len o : Nat) : Prop where
  aligned : len ∣ o
  inside : o + len ≤ N
  free : ∀ p, Covers (o, len) p → ∀ c ∈ held, ¬ Covers c p

variable {N h off : Nat} {t : BTree} {s : BuddyRun}

theorem FreeBlock.perm {len o : Nat} {held held' : List (Nat × Nat)}
    (h : held.Perm held') (hf : FreeBlock N held len o) : FreeBlock N held' len o :=
  ⟨hf.aligned, hf.inside, fun p hp c hc => hf.free p hp c (h.mem_iff.mpr hc)⟩

theorem FreeBlock.mono {len o : Nat} {held held' : List (Nat × Nat)}
    (h : held' ⊆ held) (hf : FreeBlock N held len o) : FreeBlock N held' len o :=
  ⟨hf.aligned, hf.inside, fun p hp c hc => hf.free p hp c (h hc)⟩

namespace BTree

theorem summarize_eq_full {l r : NodeState} (h : summarize l r = .full) :
    (l = .used ∨ l = .full) ∧ (r = .used ∨ r = .full) := by
  cases l <;> cases r <;> simp_all [summarize]

theorem Wf.blocks_node {s : NodeState} {l r : BTree}
    (hw : Wf N (h + 1) off (.node s l r)) (hs : s ≠ .used) :
    blocks (h + 1) off (.node s l r) = blocks h off l ++ blocks h (off + 2 ^ h) r := by
  cases hw with
  | node left right whole parts =>
      cases s with
      | unused =>
          obtain ⟨hl, hr⟩ := whole (.inl rfl)
          rw [blocks_unused hl, blocks_unused hr, blocks_unused rfl]
          rfl
      | used => exact absurd rfl hs
      | split => rfl
      | full => rfl

theorem Wf.covered (hw : Wf N h off t)
    (ht : t.root = .used ∨ t.root = .full) {p : Nat} (hlo : off ≤ p)
    (hhi : p < off + 2 ^ h) (hp : p < N) : ∃ c ∈ blocks h off t, Covers c p := by
  induction hw with
  | leaf inside beyond =>
      rename_i off s
      obtain rfl : off = p := by omega
      rcases inside hp with rfl | rfl
      · simp [PTree.root] at ht
      · exact ⟨(off, 2 ^ 0), by simp [blocks], by omega, by simp⟩
  | node left right whole parts ihl ihr =>
      rename_i h off s l r
      rcases ht with hs | hs
      · obtain rfl : s = .used := hs
        exact ⟨(off, 2 ^ (h + 1)), by simp [blocks], hlo, by omega⟩
      · obtain rfl : s = .full := hs
        obtain ⟨hl, hr⟩ := summarize_eq_full (parts (.inr rfl)).symm
        rcases Nat.lt_or_ge p (off + 2 ^ h) with hlt | hge
        · obtain ⟨c, hc, hcov⟩ := ihl hl hlo hlt
          exact ⟨c, List.mem_append_left _ hc, hcov⟩
        · obtain ⟨c, hc, hcov⟩ := ihr hr hge (by omega)
          exact ⟨c, List.mem_append_right _ hc, hcov⟩

theorem Wf.unused_of_blocks_nil (hw : Wf N h off t)
    (hin : off + 2 ^ h ≤ N) (hnil : blocks h off t = []) : t.root = .unused := by
  induction hw with
  | leaf inside beyond =>
      rename_i off s
      rcases inside (by omega) with rfl | rfl
      · rfl
      · simp [blocks] at hnil
  | node left right whole parts ihl ihr =>
      rename_i h off s l r
      rw [pow_succ] at hin
      by_cases hs : s = .used
      · subst hs
        simp [blocks] at hnil
      · rw [(Wf.node left right whole parts).blocks_node hs, List.append_eq_nil_iff] at hnil
        have hl := ihl (by omega) hnil.1
        have hr := ihr (by omega) hnil.2
        by_contra hne
        have hparts := parts (by cases s <;> simp_all [PTree.root])
        rw [hl, hr] at hparts
        exact hne hparts

theorem Wf.freeBlock_of_allocT {len o : Nat} {t' : BTree} (hw : Wf N h off t)
    (hoff : 2 ^ h ∣ off) (ha : allocT len h off t = some (o, t')) :
    FreeBlock N (blocks h off t) len o := by
  obtain ⟨hw', hperm⟩ := allocT_spec hw ha
  have hb := hw'.isBlock hoff _ (hperm.mem_iff.mpr List.mem_cons_self)
  have hapart := (hperm.pairwise_iff Apart.symm).mp (hw'.apart hoff)
  refine ⟨hb.aligned, hb.inside, fun p hp c hc => ?_⟩
  exact ((List.pairwise_cons.mp hapart).1 c hc).not_covers hp

theorem half_of_aligned {k o : Nat} (hk : k ≤ h) (hoff : 2 ^ (h + 1) ∣ off)
    (ho : 2 ^ k ∣ o) : o + 2 ^ k ≤ off + 2 ^ h ∨ off + 2 ^ h ≤ o := by
  have hmid : 2 ^ k ∣ off + 2 ^ h :=
    Nat.dvd_add ((pow_dvd_pow 2 (by omega)).trans hoff) (pow_dvd_pow 2 hk)
  obtain ⟨a, rfl⟩ := ho
  obtain ⟨b, hb⟩ := hmid
  rw [hb]
  rcases Nat.lt_or_ge a b with hlt | hge
  · exact .inl (by exact Nat.mul_le_mul_left _ hlt)
  · exact .inr (Nat.mul_le_mul_left _ hge)

theorem Wf.enterable {len o : Nat} (hw : Wf N h off t) (hlen : 0 < len)
    (hlo : off ≤ o) (hhi : o + len ≤ off + 2 ^ h)
    (hf : FreeBlock N (blocks h off t) len o) : t.root = .unused ∨ t.root = .split := by
  have hinside := hf.inside
  -- The first page of the block is in no other.
  have hopen : ¬ ∃ c ∈ blocks h off t, Covers c o := fun ⟨c, hc, hcov⟩ =>
    hf.free o ⟨Nat.le_refl _, by omega⟩ c hc hcov
  cases hr : t.root with
  | unused => exact .inl rfl
  | split => exact .inr rfl
  | used => exact absurd (hw.covered (.inl hr) hlo (by omega) (by omega)) hopen
  | full => exact absurd (hw.covered (.inr hr) hlo (by omega) (by omega)) hopen

theorem Wf.unused_of_freeBlock (hw : Wf N h off t)
    (hoff : 2 ^ h ∣ off) (hf : FreeBlock N (blocks h off t) (2 ^ h) off) : t.root = .unused := by
  refine hw.unused_of_blocks_nil hf.inside (List.eq_nil_iff_forall_not_mem.mpr fun c hc => ?_)
  have hb := hw.isBlock hoff c hc
  have hpos := hb.pos
  have hupper := hb.upper
  exact hf.free c.1 ⟨hb.lower, by omega⟩ c hc ⟨Nat.le_refl _, by omega⟩

theorem allocT_enter {k : Nat} {s : NodeState} {l r : BTree} (hk : k ≤ h)
    (hs : s = .unused ∨ s = .split) :
    (allocT (2 ^ k) (h + 1) off (.node s l r)).isSome ↔
      (allocT (2 ^ k) h off l).isSome ∨ (allocT (2 ^ k) h (off + 2 ^ h) r).isSome := by
  have hpow : (2 : Nat) ^ k < 2 ^ (h + 1) := Nat.pow_lt_pow_right (by omega) (by omega)
  rw [allocT, if_neg (Nat.ne_of_gt hpow), if_pos ⟨hpow, hs⟩, Nat.add_sub_cancel]
  cases allocT (2 ^ k) h off l <;> cases allocT (2 ^ k) h (off + 2 ^ h) r <;> simp

theorem Wf.allocT_of_freeBlock {k o : Nat} (hw : Wf N h off t)
    (hoff : 2 ^ h ∣ off) (hlo : off ≤ o) (hhi : o + 2 ^ k ≤ off + 2 ^ h)
    (hf : FreeBlock N (blocks h off t) (2 ^ k) o) : (allocT (2 ^ k) h off t).isSome := by
  have hkh : k ≤ h := (Nat.pow_le_pow_iff_right (Nat.lt_succ_self 1)).mp
    (by omega : 2 ^ k ≤ 2 ^ h)
  induction hw generalizing o with
  | leaf inside beyond =>
      rename_i off s
      obtain rfl : k = 0 := by omega
      obtain rfl : off = o := by omega
      have hroot := (Wf.leaf inside beyond).unused_of_freeBlock hoff hf
      obtain ⟨o, t', h⟩ := allocT_unused (.leaf inside beyond) hroot (Nat.le_refl 0)
      exact Option.isSome_of_eq_some h
  | node left right whole parts ihl ihr =>
      rename_i h off s l r
      have hnode := Wf.node left right whole parts
      rcases Nat.eq_or_lt_of_le hkh with rfl | hlt
      · -- The block is the whole node.
        obtain rfl : off = o := by omega
        have hroot := hnode.unused_of_freeBlock hoff hf
        obtain ⟨o, t', h⟩ := allocT_unused hnode hroot (Nat.le_refl _)
        exact Option.isSome_of_eq_some h
      · have hroot := hnode.enterable (Nat.two_pow_pos k) hlo hhi hf
        have hdl : 2 ^ h ∣ off := Nat.dvd_trans (pow_dvd_pow 2 (by omega)) hoff
        rw [hnode.blocks_node (by rintro rfl; simp [PTree.root] at hroot)] at hf
        refine (allocT_enter (by omega) hroot).mpr ?_
        rcases half_of_aligned (by omega) hoff hf.aligned with hhalf | hhalf
        · exact .inl (ihl hdl hlo hhalf (hf.mono (List.subset_append_left _ _)) (by omega))
        · exact .inr (ihr (Nat.dvd_add hdl (Nat.dvd_refl _)) hhalf (by omega)
            (hf.mono (List.subset_append_right _ _)) (by omega))

theorem maxFree_le (h : Nat) (t : BTree) : maxFree h t ≤ 2 ^ h := by
  induction t generalizing h with
  | leaf s => rw [maxFree]; split <;> simp
  | node s l r ihl ihr =>
      have hpow : 2 ^ (h - 1) ≤ 2 ^ h := Nat.pow_le_pow_right (by omega) (by omega)
      cases s with
      | split => exact Nat.max_le.mpr ⟨(ihl _).trans hpow, (ihr _).trans hpow⟩
      | _ => simp [maxFree]

theorem Wf.allocT_iff_le_maxFree {k : Nat} (hw : Wf N h off t)
    (hk : k ≤ h) : (allocT (2 ^ k) h off t).isSome ↔ 2 ^ k ≤ maxFree h t := by
  have hpos : 0 < 2 ^ k := Nat.two_pow_pos k
  induction hw with
  | leaf inside beyond =>
      rename_i off s
      obtain rfl : k = 0 := by omega
      by_cases hs : s = .unused <;> simp [allocT, maxFree, hs]
  | node left right whole parts ihl ihr =>
      rename_i h off s l r
      have hpow : 2 ^ k ≤ 2 ^ (h + 1) := Nat.pow_le_pow_right (by omega) hk
      cases s with
      | unused =>
          obtain ⟨o, t', ha⟩ := allocT_unused (.node left right whole parts) rfl hk
          simpa [ha, maxFree] using hpow
      | used => simp [allocT, maxFree]
      | full => simp [allocT, maxFree]
      | split =>
          have hl := maxFree_le h l
          have hr := maxFree_le h r
          rcases Nat.eq_or_lt_of_le hk with rfl | hlt
          · have hnone : allocT (2 ^ (h + 1)) (h + 1) off (.node .split l r) = none := by
              simp [allocT]
            have hmax : maxFree (h + 1) (.node .split l r) ≤ 2 ^ h := Nat.max_le.mpr ⟨hl, hr⟩
            simp only [hnone, Option.isSome_none, Bool.false_eq_true, false_iff]
            omega
          · have hkh : k ≤ h := by omega
            refine (allocT_enter hkh (.inr rfl)).trans ?_
            exact (or_congr (ihl hkh) (ihr hkh)).trans le_max_iff.symm

end BTree

namespace BuddySystem

theorem maxFreeBlockPagesFromNode_eq {t : Nat → NodeState} :
    ∀ {h fuel i off : Nat}, h < fuel → Wf N h off (view t h i) →
      maxFreeBlockPagesFromNode t fuel i (2 ^ h) = maxFree h (view t h i) := by
  intro h
  induction h with
  | zero =>
      intro fuel i off hfuel hw
      obtain ⟨fuel, rfl⟩ : ∃ n, fuel = n + 1 := ⟨fuel - 1, by omega⟩
      cases hw with
      | leaf inside beyond =>
          rw [maxFreeBlockPagesFromNode, view, maxFree]
          cases ht : t i <;> simp_all
  | succ h ih =>
      intro fuel i off hfuel hw
      obtain ⟨fuel, rfl⟩ : ∃ n, fuel = n + 1 := ⟨fuel - 1, by omega⟩
      cases hw with
      | node left right whole parts =>
          have hhalf : 2 ^ (h + 1) / 2 = 2 ^ h := by omega
          have hl := ih (show h < fuel by omega) left
          have hr := ih (show h < fuel by omega) right
          simp only [maxFreeBlockPagesFromNode, view, hhalf]
          cases ht : t i with
          | split =>
              simp only [maxFree, Nat.add_sub_cancel]
              rw [if_neg (by simp), if_neg (by simp), Nat.max_def]
              split <;> split <;> omega
          | _ => simp [maxFree]

end BuddySystem

/-- What the answers of an allocator say about the blocks its callers hold: a request
is refused exactly when no free block would do, which is when the longest free block
is too short, and neither a refusal nor the release of something that is not a block
leaves a trace. -/
structure BuddyRun.Complete (s : BuddyRun) : Prop where
  alloc : ∀ n : Int32, 1 ≤ n.toInt → ∃ r b, s.sys.alloc n.toInt = .ok (r, b) ∧
    (r = -1 ↔ ¬ ∃ o, FreeBlock s.sys.pageCount s.live (nextPowerOfTwo n.toInt.toNat) o) ∧
    (r = -1 ↔ s.sys.getMaxFreeBlockPages < nextPowerOfTwo n.toInt.toNat) ∧
    (r = -1 → b = s.sys)
  free : ∀ offset : Int32, (∀ c ∈ s.live, (c.1 : Int) ≠ offset.toInt) →
    s.sys.free offset.toInt = .ok s.sys

namespace BuddyRun

theorem Inv.getMaxFreeBlockPages (hs : s.Inv N) :
    s.sys.getMaxFreeBlockPages = maxFree s.sys.level (view s.sys.tree s.sys.level 0) := by
  rw [BuddySystem.getMaxFreeBlockPages, hs.root.capacity]
  exact maxFreeBlockPagesFromNode_eq (Nat.lt_succ_self _) hs.wf

theorem Inv.allocT_iff {k : Nat} (hs : s.Inv N) :
    (allocT (2 ^ k) s.sys.level 0 (view s.sys.tree s.sys.level 0)).isSome ↔
      ∃ o, FreeBlock N s.live (2 ^ k) o := by
  constructor
  · intro h
    obtain ⟨⟨o, T⟩, hT⟩ := Option.isSome_iff_exists.mp h
    exact ⟨o, (hs.wf.freeBlock_of_allocT (Nat.dvd_zero _) hT).perm hs.live.symm⟩
  · intro ⟨o, hf⟩
    have hfits := hs.fits
    have hinside := hf.inside
    exact hs.wf.allocT_of_freeBlock (Nat.dvd_zero _) (Nat.zero_le o) (by omega)
      (hf.perm hs.live)

theorem Inv.allocT_iff_le {k : Nat} (hs : s.Inv N) :
    (allocT (2 ^ k) s.sys.level 0 (view s.sys.tree s.sys.level 0)).isSome ↔
      2 ^ k ≤ s.sys.getMaxFreeBlockPages := by
  rw [hs.getMaxFreeBlockPages]
  rcases Nat.lt_or_ge s.sys.level k with hlong | hk
  · have hpow : 2 ^ s.sys.level < 2 ^ k := Nat.pow_lt_pow_right (by omega) hlong
    have hmax := maxFree_le s.sys.level (view s.sys.tree s.sys.level 0)
    rw [allocT_too_long hpow]
    simp only [Option.isSome_none, Bool.false_eq_true, false_iff]
    omega
  · exact hs.wf.allocT_iff_le_maxFree hk

/-- What `Alloc` answers, by the callers' list and by the longest free block. -/
theorem Inv.alloc_answer (hs : s.Inv N) (n : Int32) :
    ∃ r b, s.sys.alloc n.toInt = .ok (r, b) ∧
      (r = -1 ↔ ¬ ∃ o, FreeBlock N s.live (nextPowerOfTwo (max n.toInt 1).toNat) o) ∧
      (r = -1 ↔ s.sys.getMaxFreeBlockPages < nextPowerOfTwo (max n.toInt 1).toNat) ∧
      (r = -1 → b = s.sys) := by
  obtain ⟨k, hk⟩ := exists_nextPowerOfTwo n
  have hspec := hs.alloc_spec hk
  have hblock := hs.allocT_iff (k := k)
  have hmax := hs.allocT_iff_le (k := k)
  rw [hk]
  rcases hT : allocT (2 ^ k) s.sys.level 0 (view s.sys.tree s.sys.level 0)
    with _ | ⟨o, T⟩
  · rw [hT] at hspec hblock hmax
    exact ⟨-1, s.sys, hspec, by simpa using hblock, by simpa using hmax, fun _ => rfl⟩
  · rw [hT] at hspec hblock hmax
    simp only [Option.isSome_some, true_iff] at hblock hmax
    obtain ⟨t, halloc, -⟩ := hspec
    have hne : (o : Int) ≠ -1 := by omega
    refine ⟨o, _, halloc, ?_, ?_, fun h => absurd h hne⟩
    · exact ⟨fun h => absurd h hne, fun h => absurd hblock h⟩
    · exact ⟨fun h => absurd h hne, fun h => absurd hmax (by omega)⟩

theorem Inv.complete (hs : s.Inv N) : s.Complete := by
  refine ⟨fun n hn => ?_, fun offset h => hs.free_ignored h⟩
  have hanswer := hs.alloc_answer n
  rwa [show max n.toInt 1 = n.toInt by omega, ← hs.pageCount] at hanswer

theorem buddyRun_inv {storage bytes : Nat} {ops : List BuddyOp}
    (hN : N < 2 ^ 32) (hroom : storage + bytes < 2 ^ 64)
    (h : buddyRun N storage bytes ops = .ok s) : s.Inv (max N 1) := by
  obtain ⟨b, hinit, hrun⟩ := Run.bind_eq_ok.mp h
  have hinv := inv_initial (initializeSystem_reaches hN hroom hinit)
  obtain ⟨s', hrun', hs'⟩ := Run.foldlM_ok (inv_step (by omega)) ops _ hinv
  rw [hrun] at hrun'
  exact Except.ok.inj hrun' ▸ hs'

end BuddyRun

/-- Every state that a run from `Initialize` reaches is complete, for every number of
pages and every storage that lies in the address space. -/
theorem buddyRun_complete {N storage bytes : Nat} {ops : List BuddyOp} {s : BuddyRun}
    (hN : N < 2 ^ 32) (hroom : storage + bytes < 2 ^ 64)
    (h : buddyRun N storage bytes ops = .ok s) : s.Complete :=
  (BuddyRun.buddyRun_inv hN hroom h).complete

theorem buddyRun_complete_five : ∃ s, buddyRun 5 1 15 [.alloc 3, .free 1] = .ok s ∧ s.Complete := by
  obtain ⟨s, h, -⟩ := Run.map_eq_ok.mp (show (buddyRun 5 1 15 [.alloc 3, .free 1]).map
    (fun _ => ()) = .ok () by decide +kernel)
  exact ⟨s, h, buddyRun_complete (by decide) (by decide) h⟩

end F7ly.Mem
