import F7ly.Lib.Interval
import F7ly.Lib.Run
import F7ly.Proofs.PmmLayout

/-!
# The parts of the allocator's region

Once both loops have settled the rest is arithmetic: the metadata ends before the
managed pages, these end before the heap's area, and what the heap's own loop left is
what its pages and the shared memory take. There are two exceptions. A region at the
very end of the address space can be let through because the bound on its size wraps;
and with more than `2 ^ 31` pages the size of the tree wraps, so that no room is kept
for it.
-/

namespace F7ly.Mem

open List

open F7ly.Devs (maxU64)
open F7ly.Interval (Apart)
open F7ly.Settle
open BuddySystem (requiredTreeBytes)

/-- The parts of the region, each its address and its bytes: the buddy allocator, its
tree, the counts, the managed pages, the heap's metadata, its pages, and the shared
memory. -/
def BootLayout.parts (L : BootLayout) : List (Nat × Nat) :=
  [(L.pmm.metadataStart, buddySystemBytes), (L.pmm.treeStart, L.pmm.treeBytes),
    (L.pmm.refcountStart, L.pmm.refcountBytes),
    (L.pmm.managedStart, L.pmm.managedPages * pgSize),
    (L.heapAreaStart, L.heap.metadataBytes),
    (L.heapAreaStart + L.heap.metadataBytes, L.heap.allocatorBytes),
    (L.shmStart, L.heap.shmBytes)]

/-- The numbers of pages that the rounds of `calculate_pmm_layout` start from. -/
def pmmTried (metadataStart managedLimit : Nat) : Nat → Nat → List Nat
  | 0, _ => []
  | n + 1, m => m :: pmmTried metadataStart managedLimit n
      ((managedLimit - (pmmCandidate metadataStart m).metadataEnd) / pgSize)

def roundSums (metadataStart m : Nat) : List Nat :=
  let c := pmmCandidate metadataStart m
  [metadataStart + buddySystemBytes, metadataStart + buddySystemBytes + 7,
    c.treeStart + c.treeBytes, c.treeStart + c.treeBytes + 1,
    c.refcountStart + c.refcountBytes, c.refcountStart + c.refcountBytes + (pgSize - 1)]

def bootSums (allocatorStart : Nat) (L : BootLayout) : List Nat :=
  let tried := pmmTried allocatorStart L.heapAreaStart 16
    ((L.heapAreaStart - allocatorStart) / pgSize)
  [allocatorStart + pgSize * 64, allocatorStart + pgSize * 16] ++
    tried.flatMap (roundSums allocatorStart) ++
    L.parts.map fun part => part.1 + part.2

structure BootLayout.Sound (allocatorStart allocatorTop : Nat) (L : BootLayout) : Prop where
  disjoint : L.parts.Pairwise Apart
  inside : ∀ part ∈ L.parts, allocatorStart ≤ part.1 ∧ part.1 + part.2 ≤ allocatorTop
  /-- One byte for each node of the tree over the managed pages. -/
  tree : 2 * 2 ^ Nat.clog 2 L.pmm.managedPages - 1 ≤ L.pmm.treeBytes
  /-- Two bytes for the count of each managed page. -/
  counts : 2 * L.pmm.managedPages ≤ L.pmm.refcountBytes
  noWrap : ∀ s ∈ bootSums allocatorStart L, s < 2 ^ 64

theorem maxHeapRegion_eq : maxHeapRegion = 335679488 := by decide

theorem minHeapRegion_eq : minHeapRegion = 10493952 := by decide

section Area

variable {start top : Nat}

theorem heapAreaStart_spec (hstart : start % 4096 = 0) (hle : start ≤ top) :
    start ≤ heapAreaStart start top ∧ heapAreaStart start top ≤ top ∧
      heapAreaStart start top % 4096 = 0 := by
  have hregion : heapRegionBytes (top - start) ≤ top - start := by
    unfold heapRegionBytes
    dsimp only
    repeat' split
    all_goals omega
  refine ⟨?_, ?_, pgRoundDown_mod _⟩
  · unfold heapAreaStart pgRoundDown pgSize
    omega
  · exact (pgRoundDown_le _).trans (Nat.sub_le _ _)

theorem heapAreaStart_le_iff (hstart : start % 4096 = 0) (htop : top % 4096 = 0)
    (hle : start ≤ top) :
    (heapAreaStart start top - start) / pgSize ≤ 2 ^ 31 ↔ top - start ≤ 2 ^ 43 + maxHeapRegion := by
  have hmax := maxHeapRegion_eq
  have hmin := minHeapRegion_eq
  unfold heapAreaStart heapRegionBytes pgRoundDown pgSize
  dsimp only
  split <;> split <;> split <;> omega

end Area

section Returned

variable {start limit P m : Nat}

theorem calculatePmmLayout_eq_ok (hstart : start % 4096 = 0)
    (hlimit : start + P * 4096 < 2 ^ 64) {pmm : PmmMetadataLayout}
    (h : calculatePmmLayout start (start + P * 4096) = .ok pmm) :
    2 ≤ P ∧ P < 2 ^ 32 ∧ ∃ m, pmm = pmmCandidate start m ∧ pagesLeft P m = m ∧ m ≤ P := by
  have hpages : sub64 (start + P * 4096) start / pgSize = P := by
    unfold sub64 pgSize
    omega
  rw [calculatePmmLayout] at h
  simp only [hpages] at h
  split at h
  · cases h
  split at h
  · cases h
  next hmany =>
  have hlt : P < 2 ^ 32 := by
    unfold maxU32 at hmany
    omega
  rcases Nat.lt_or_ge P 2 with htiny | hP
  · obtain ⟨e, herror, -⟩ := pmmLayoutLoop_tiny (n := 15) hstart (by omega) hlimit
    rw [herror] at h
    cases h
  · rw [pmmLayoutLoop_eq hstart hP hlt hlimit 16 (Nat.le_refl P)] at h
    cases hm : settle (pagesLeft P) 16 P with
    | none =>
        rw [hm] at h
        cases h
    | some m =>
        rw [hm] at h
        obtain ⟨hfix, hle⟩ := settle_eq_some (Nat.le_refl P) (fun z => Nat.sub_le P _) hm
        exact ⟨hP, hlt, m, (Except.ok.inj h).symm, hfix, hle⟩

theorem calculateHeapLayout_eq_ok {area : Nat} {heap : HeapLayout}
    (h : calculateHeapLayout area = .ok heap) :
    ∃ n, heap = heapLayoutOf area n ∧ heapPagesLeft (heapBudget area / 4096) n = n := by
  rw [calculateHeapLayout] at h
  rw [heapLayoutLoop_eq area 16 (by split <;> omega)] at h
  split at h
  · next n hn =>
    refine ⟨n, (Except.ok.inj h).symm, ?_⟩
    exact (settle_eq_some (by split <;> omega) (heapPagesLeft_le _) hn).1
  · cases h

end Returned

section Parts

variable {start top : Nat} {L : BootLayout}

/-- Where everything is, by the number of managed pages and of pages of the heap. -/
structure Placed (start top P m n : Nat) (L : BootLayout) : Prop where
  pages : 2 ≤ P ∧ P < 2 ^ 32 ∧ m ≤ P
  area : L.heapAreaStart = start + P * 4096
  pmm : L.pmm = pmmCandidate start m
  left : m + metadataPages m = P
  heap : L.heap = heapLayoutOf (top - L.heapAreaStart) n
  heapPages : 0 < n
  fits : L.heapAreaStart + heapMetadataPages n * 4096 + n * 4096 ≤ top
  shm : L.shmStart = L.heapAreaStart + heapMetadataPages n * 4096 + n * 4096

theorem bootLayout_eq_ok (hstart : start % 4096 = 0) (hle : start ≤ top) (htop : top < 2 ^ 64)
    (h : bootLayout start top = .ok L) :
    L.heapAreaStart = heapAreaStart start top ∧ ∃ P m n, Placed start top P m n L := by
  obtain ⟨hlow, hhigh, hmod⟩ := heapAreaStart_spec hstart hle
  rw [bootLayout] at h
  split at h
  · cases h
  generalize heapAreaStart start top = area at *
  obtain ⟨P, rfl⟩ : ∃ P, area = start + P * 4096 := ⟨(area - start) / 4096, by omega⟩
  obtain ⟨pmm, hpmm, h⟩ := Run.bind_eq_ok.mp h
  obtain ⟨heap, hheap, h⟩ := Run.bind_eq_ok.mp h
  obtain ⟨hP, hlt, m, rfl, hleft, hm⟩ := calculatePmmLayout_eq_ok hstart (by omega) hpmm
  obtain ⟨n, rfl, hn⟩ := calculateHeapLayout_eq_ok hheap
  split at h
  · cases h
  next hsmall =>
  have hpos : n ≠ 0 := fun h => hsmall (.inl h)
  have hbudget : heapBudget (top - (start + P * 4096)) ≤ top - (start + P * 4096) := by
    unfold heapBudget
    split <;> omega
  have hfits : start + P * 4096 + heapMetadataPages n * 4096 + n * 4096 ≤ top := by
    rw [heapPagesLeft] at hn
    omega
  have hpages := metadataPages_lt hP hlt hm
  cases h
  refine ⟨rfl, P, m, n, ⟨hP, hlt, hm⟩, rfl, rfl, ?_, rfl, by omega, hfits, ?_⟩
  · unfold pagesLeft at hleft
    omega
  · show add64 (add64 (start + P * 4096) (heapMetadataPages n * 4096)) (n * 4096) =
      start + P * 4096 + heapMetadataPages n * 4096 + n * 4096
    unfold add64
    omega

theorem Placed.shmBytes_le {P m n : Nat} (hp : Placed start top P m n L) (htop : top < 2 ^ 64) :
    L.shmStart + L.heap.shmBytes ≤ top := by
  have hfits := hp.fits
  rw [hp.shm, hp.heap, heapLayoutOf]
  dsimp only
  generalize L.heapAreaStart = area at *
  have hremaining : sub64 (sub64 (top - area) (heapMetadataPages n * 4096)) (n * 4096) =
      top - (area + heapMetadataPages n * 4096 + n * 4096) := by
    unfold sub64
    omega
  rw [hremaining]
  have hdown := pgRoundDown_le (if top - (area + heapMetadataPages n * 4096 + n * 4096) >
    shmSizeLimit then shmSizeLimit else top - (area + heapMetadataPages n * 4096 + n * 4096))
  split at hdown
  · next hlarge =>
    rw [if_pos hlarge]
    omega
  · next hsmall =>
    rw [if_neg hsmall]
    omega

/-- With at most `2 ^ 31` pages a tree has the room that its size says. -/
theorem treeRoom_narrow {m : Nat} (hm : m ≤ 2 ^ 31) : treeRoom m = requiredTreeBytes m + 1 := by
  have := requiredTreeBytes_le hm
  rw [treeRoom, Nat.mod_eq_of_lt (by omega)]

/-- The metadata of `m` pages fits into its own pages. -/
theorem metadata_fits (m : Nat) : 40 + treeRoom m + m * 2 ≤ metadataPages m * 4096 := by
  unfold metadataPages buddySystemBytes pgSize
  omega

theorem Placed.candidate {P m n : Nat} (hp : Placed start top P m n L)
    (hstart : start % 4096 = 0) (htop : top < 2 ^ 64) :
    L.pmm =
      { metadataStart := start
        metadataEnd := start + metadataPages m * 4096
        treeStart := start + 40
        treeBytes := requiredTreeBytes m
        refcountStart := start + 40 + treeRoom m
        refcountBytes := m * 2
        managedStart := start + metadataPages m * 4096
        managedPages := m } := by
  have hleft := hp.left
  have hfits := hp.fits
  have harea := hp.area
  rw [hp.pmm]
  refine pmmCandidate_eq hstart ?_
  omega

theorem Placed.sorted {P m n : Nat} (hp : Placed start top P m n L) (hstart : start % 4096 = 0)
    (htop : top < 2 ^ 64) (hP : P ≤ 2 ^ 31) :
    L.parts.Pairwise (fun a b => a.1 + a.2 ≤ b.1) ∧
      ∀ part ∈ L.parts, start ≤ part.1 ∧ part.1 + part.2 ≤ top := by
  have hpmm := hp.candidate hstart htop
  have hm := hp.pages.2.2
  have hroom := treeRoom_narrow (hm.trans hP)
  have hmeta := metadata_fits m
  have hleft := hp.left
  have hfits := hp.fits
  have hshm := hp.shmBytes_le htop
  have harea := hp.area
  have hbytes : L.heap.metadataBytes = heapMetadataPages n * 4096 := by rw [hp.heap, heapLayoutOf]
  have hheap : L.heap.allocatorBytes = n * 4096 := by rw [hp.heap, heapLayoutOf]
  rw [hp.shm] at hshm
  unfold BootLayout.parts
  rw [hpmm, hp.shm, hbytes, hheap]
  unfold buddySystemBytes pgSize
  dsimp only
  constructor
  · simp only [pairwise_cons, forall_mem_cons, not_mem_nil, false_implies,
      implies_true, and_true, List.Pairwise.nil]
    omega
  · simp only [forall_mem_cons, not_mem_nil, false_implies, implies_true, and_true]
    omega

theorem pmmTried_le {P : Nat} (hstart : start % 4096 = 0) (hP : 2 ≤ P) (hlt : P < 2 ^ 32)
    (hlimit : start + P * 4096 < 2 ^ 64) (n : Nat) {m : Nat} (hm : m ≤ P) :
    ∀ x ∈ pmmTried start (start + P * 4096) n m, x ≤ P := by
  induction n generalizing m with
  | zero => simp [pmmTried]
  | succ n ih =>
      have hpages := metadataPages_lt hP hlt hm
      have hend : start + metadataPages m * 4096 < 2 ^ 64 :=
        Nat.lt_of_le_of_lt (by gcongr) hlimit
      rw [pmmTried, forall_mem_cons, pmmCandidate_eq hstart hend]
      refine ⟨hm, ih ?_⟩
      unfold pgSize
      dsimp only
      omega

/-- With at most `2 ^ 31` pages no sum of a round wraps. -/
theorem roundSums_lt {P x : Nat} (hstart : start % 4096 = 0) (hP : 2 ≤ P) (hle : P ≤ 2 ^ 31)
    (hlimit : start + P * 4096 < 2 ^ 64) (hx : x ≤ P) : ∀ s ∈ roundSums start x, s < 2 ^ 64 := by
  have hpages := metadataPages_lt hP (by omega) hx
  have hend : start + metadataPages x * 4096 < 2 ^ 64 :=
    Nat.lt_of_le_of_lt (by gcongr) hlimit
  have hroom := treeRoom_narrow (hx.trans hle)
  have hmeta := metadata_fits x
  unfold roundSums
  rw [pmmCandidate_eq hstart hend]
  unfold buddySystemBytes pgSize
  simp only [forall_mem_cons, not_mem_nil, false_implies, implies_true, and_true]
  omega

/-- With at most `2 ^ 31` pages the layout is sound. -/
theorem Placed.sound {P m n : Nat} (hp : Placed start top P m n L) (hstart : start % 4096 = 0)
    (htop : top < 2 ^ 64) (hP : P ≤ 2 ^ 31) (hcheck : start + pgSize * 64 < 2 ^ 64) :
    L.Sound start top := by
  obtain ⟨hsorted, hinside⟩ := hp.sorted hstart htop hP
  have hpmm := hp.candidate hstart htop
  obtain ⟨hP2, hlt, hm⟩ := hp.pages
  have hlimit : start + P * 4096 < 2 ^ 64 := by
    have := hp.fits
    have := hp.area
    omega
  have hpos : m ≠ 0 := by
    have := hp.left
    have := (pagesLeft_half hP2 hlt hm).1
    unfold pagesLeft at this
    omega
  refine ⟨hsorted.imp fun h => .inl h, hinside, ?_, ?_, fun s hs => ?_⟩
  · have := requiredTreeBytes_eq hpos (hm.trans hP)
    rw [hpmm]
    dsimp only
    omega
  · rw [hpmm]
    dsimp only
    omega
  · have hfirst : (L.heapAreaStart - start) / pgSize = P := by
      rw [hp.area]
      unfold pgSize
      omega
    rw [bootSums, hfirst, hp.area, mem_append, mem_append] at hs
    rcases hs with (hs | hs) | hs
    · simp only [mem_cons, not_mem_nil, or_false] at hs
      omega
    · obtain ⟨x, hx, hs⟩ := mem_flatMap.mp hs
      exact roundSums_lt hstart hP2 hP hlimit
        (pmmTried_le hstart hP2 hlt hlimit 16 (Nat.le_refl P) x hx) s hs
    · obtain ⟨part, hpart, rfl⟩ := mem_map.mp hs
      exact Nat.lt_of_le_of_lt (hinside part hpart).2 htop

theorem Placed.narrow {P m n : Nat} (hp : Placed start top P m n L) (hstart : start % 4096 = 0)
    (htop : top < 2 ^ 64) (h : L.Sound start top) : P ≤ 2 ^ 31 := by
  by_contra hwide
  obtain ⟨hP, hlt, -⟩ := hp.pages
  have hfits := hp.fits
  have harea := hp.area
  have hpages := metadataPages_lt hP hlt (Nat.le_refl P)
  have hfirst : (L.heapAreaStart - start) / pgSize = P := by
    unfold pgSize
    omega
  have htree : (pmmCandidate start P).treeStart = start + 40 := by
    rw [pmmCandidate_eq hstart (by omega)]
  have hsum : start + 40 + requiredTreeBytes P ∈ bootSums start L := by
    rw [bootSums, hfirst, pmmTried, flatMap_cons, ← htree]
    refine mem_append_left _ (mem_append_right _ (mem_append_left _ ?_))
    exact mem_cons_of_mem _ (mem_cons_of_mem _ mem_cons_self)
  have hbound := h.noWrap _ hsum
  rw [BuddySystem.requiredTreeBytes_wide (by omega) hlt] at hbound
  omega

end Parts

/-- For every region of whole pages that is laid out, the parts are apart, inside, large
enough, and computed without a sum that wraps, exactly if the bound on the region's size
did not wrap and the region leaves at most `2 ^ 31` pages to manage. -/
theorem bootLayout_sound_iff {start top : Nat} {L : BootLayout} (hstart : start % 4096 = 0)
    (haligned : top % 4096 = 0) (hle : start ≤ top) (htop : top < 2 ^ 64)
    (h : bootLayout start top = .ok L) :
    L.Sound start top ↔ start + pgSize * 64 < 2 ^ 64 ∧ top - start ≤ 2 ^ 43 + maxHeapRegion := by
  obtain ⟨harea, P, m, n, hp⟩ := bootLayout_eq_ok hstart hle htop h
  have hcount : (heapAreaStart start top - start) / pgSize = P := by
    rw [← harea, hp.area]
    unfold pgSize
    omega
  have hsize := heapAreaStart_le_iff hstart haligned hle
  rw [hcount] at hsize
  rw [← hsize]
  constructor
  · intro hsound
    refine ⟨hsound.noWrap _ ?_, hp.narrow hstart htop hsound⟩
    exact mem_append_left _ (mem_append_left _ mem_cons_self)
  · intro ⟨hcheck, hP⟩
    exact hp.sound hstart htop hP hcheck

/-- What 64 MiB of memory from `0x80000000` are laid out as. -/
def layoutOf64M : BootLayout where
  pmm :=
    { metadataStart := 0x80000000, metadataEnd := 2147540992, treeStart := 2147483688
      treeBytes := 32767, refcountStart := 2147516456, refcountBytes := 21816
      managedStart := 2147540992, managedPages := 10908 }
  heapAreaStart := 2192220160
  heap :=
    { metadataBytes := 12288, allocatorBytes := 14905344, shmBytes := 7454720
      allocatorPages := 3639 }
  shmStart := 2207137792

theorem bootLayout_sound_iff_64M :
    bootLayout 0x80000000 0x84000000 = .ok layoutOf64M ∧ (layoutOf64M.Sound 0x80000000 0x84000000 ↔
        0x80000000 + pgSize * 64 < 2 ^ 64 ∧ 0x84000000 - 0x80000000 ≤ 2 ^ 43 + maxHeapRegion) :=
  have h : bootLayout 0x80000000 0x84000000 = .ok layoutOf64M := rfl
  ⟨h, bootLayout_sound_iff (by decide) (by decide) (by decide) (by decide) h⟩

/-- What 9 TiB of memory from `0x80000000` are laid out as. -/
def layoutOf9T : BootLayout where
  pmm :=
    { metadataStart := 0x80000000, metadataEnd := 6976802816, treeStart := 2147483688
      treeBytes := 2 ^ 64 - 1, refcountStart := 2147483688, refcountBytes := 4829316236
      managedStart := 6976802816, managedPages := 2414658118 }
  heapAreaStart := 9897416454144
  heap :=
    { metadataBytes := 135168, allocatorBytes := 268435456, shmBytes := 67108864
      allocatorPages := 65536 }
  shmStart := 9897685024768

/-- There the counts start where the tree does. -/
theorem bootLayout_not_sound :
    bootLayout 0x80000000 (0x80000000 + 9 * 2 ^ 40) = .ok layoutOf9T ∧
      ¬layoutOf9T.Sound 0x80000000 (0x80000000 + 9 * 2 ^ 40) := by
  refine ⟨rfl, fun h => ?_⟩
  have hpairs := h.disjoint
  simp [BootLayout.parts, layoutOf9T, Apart] at hpairs

end F7ly.Mem
