import F7ly.Mem.PmmInit

/-!
# Where the allocators' own memory goes

The second half of `PhysicalMemoryManager::init` of
`kernel/mem/physical_memory_manager.cc`, from the allocator's interval to the layout of
everything in it, with `calculate_pmm_layout` and `calculate_heap_layout`. Addresses
and sizes are `uint64` and their sums wrap; page counts are `uint32`. A panic is an
error of the model. The clearing of the metadata and the console output are left out.
-/

namespace F7ly.Mem

open F7ly.Devs (maxU64)
open BuddySystem (requiredTreeBytes)

inductive LayoutPanic where
  | insufficientRegion
  | regionTooSmall
  | tooManyPages
  | addressOverflow
  | metadataConsumesRegion
  | pageCountOverflow
  | pmmDidNotConverge
  | heapDidNotConverge
  | heapTooSmall
  deriving DecidableEq, Repr

/-- `UINT32_MAX`. -/
def maxU32 : Nat := 2 ^ 32 - 1

/-- `align_up`, for an alignment that is a power of two. -/
def alignUp (value alignment : Nat) : Nat :=
  add64 value (alignment - 1) / alignment * alignment

/-- `sizeof(BuddySystem)`. -/
def buddySystemBytes : Nat := 40

def requiredStorageBytes (totalPages : Nat) : Nat :=
  add64 buddySystemBytes (requiredTreeBytes totalPages)

structure PmmMetadataLayout where
  metadataStart : Nat
  metadataEnd : Nat
  treeStart : Nat
  treeBytes : Nat
  refcountStart : Nat
  refcountBytes : Nat
  managedStart : Nat
  managedPages : Nat
  deriving DecidableEq

/-- The layout that a round computes for a number of pages, before it knows how many
are left. -/
def pmmCandidate (metadataStart managedPages : Nat) : PmmMetadataLayout :=
  let treeStart := alignUp (add64 metadataStart buddySystemBytes) 8
  let treeBytes := requiredTreeBytes managedPages
  let refcountStart := alignUp (add64 treeStart treeBytes) 2
  let refcountBytes := managedPages * 2
  let metadataEnd := pgRoundUp (add64 refcountStart refcountBytes)
  { metadataStart, metadataEnd, treeStart, treeBytes, refcountStart, refcountBytes,
    managedStart := metadataEnd, managedPages }

/-- The loop of `calculate_pmm_layout`. -/
def pmmLayoutLoop (metadataStart managedLimit : Nat) : Nat → Nat →
    Except LayoutPanic PmmMetadataLayout
  | 0, _ => .error .pmmDidNotConverge
  | iterations + 1, managedPages =>
      let layout := pmmCandidate metadataStart managedPages
      if layout.refcountStart > maxU64 - layout.refcountBytes then .error .addressOverflow
      else if layout.metadataEnd ≥ managedLimit then .error .metadataConsumesRegion
      else
        let nextPages := (managedLimit - layout.metadataEnd) / pgSize
        if nextPages > maxU32 then .error .pageCountOverflow
        else if nextPages = managedPages then .ok layout
        else pmmLayoutLoop metadataStart managedLimit iterations nextPages

def calculatePmmLayout (metadataStart managedLimit : Nat) : Except LayoutPanic PmmMetadataLayout :=
  if managedLimit ≤ add64 metadataStart (pgSize * 16) then .error .regionTooSmall
  else
    let candidatePages := sub64 managedLimit metadataStart / pgSize
    if candidatePages > maxU32 then .error .tooManyPages
    else pmmLayoutLoop metadataStart managedLimit 16 candidatePages

def vmKernelHeapSize : Nat := 2 ^ 20 * 256

def shmSizeLimit : Nat := 2 ^ 20 * 64

structure HeapLayout where
  metadataBytes : Nat
  allocatorBytes : Nat
  shmBytes : Nat
  allocatorPages : Nat
  deriving DecidableEq

def maximumHeapPages : Nat := vmKernelHeapSize / pgSize

def desiredShm (areaBytes : Nat) : Nat :=
  pgRoundDown (if areaBytes / 3 > shmSizeLimit then shmSizeLimit else areaBytes / 3)

def heapBudget (areaBytes : Nat) : Nat :=
  if areaBytes > desiredShm areaBytes then areaBytes - desiredShm areaBytes else 0

def heapLayoutLoop (areaBytes : Nat) : Nat → Nat → Except LayoutPanic HeapLayout
  | 0, _ => .error .heapDidNotConverge
  | iterations + 1, heapPages =>
      let metadataBytes := pgRoundUp (requiredStorageBytes heapPages)
      let nextPages :=
        if heapBudget areaBytes > metadataBytes then
          (heapBudget areaBytes - metadataBytes) / pgSize
        else 0
      let nextPages := if nextPages > maximumHeapPages then maximumHeapPages else nextPages
      if nextPages = heapPages then
        let allocatorBytes := heapPages * pgSize
        let remaining := sub64 (sub64 areaBytes metadataBytes) allocatorBytes
        .ok
          { metadataBytes, allocatorBytes, allocatorPages := heapPages
            shmBytes := pgRoundDown (if remaining > shmSizeLimit then shmSizeLimit
              else remaining) }
      else heapLayoutLoop areaBytes iterations nextPages

/-- `calculate_heap_layout`. The first number of pages is narrowed to 32 bits. -/
def calculateHeapLayout (areaBytes : Nat) : Except LayoutPanic HeapLayout :=
  let heapPages := heapBudget areaBytes / pgSize % 2 ^ 32
  heapLayoutLoop areaBytes 16
    (if heapPages > maximumHeapPages then maximumHeapPages else heapPages)

def maxHeapRegion : Nat :=
  pgRoundUp (requiredStorageBytes maximumHeapPages) + vmKernelHeapSize + shmSizeLimit

def minHeapRegion : Nat :=
  pgRoundUp (requiredStorageBytes (2 ^ 20 * 8 / pgSize)) + 2 ^ 20 * 8 + 2 ^ 20 * 2

def heapRegionBytes (availableBytes : Nat) : Nat :=
  let bytes := availableBytes / 3
  let bytes := if bytes < minHeapRegion then minHeapRegion else bytes
  let bytes := if bytes > maxHeapRegion then maxHeapRegion else bytes
  if bytes + pgSize * 64 > availableBytes then availableBytes / 3 else bytes

def heapAreaStart (allocatorStart allocatorTop : Nat) : Nat :=
  pgRoundDown (allocatorTop - heapRegionBytes (allocatorTop - allocatorStart))

/-- What `init` leaves in its variables. -/
structure BootLayout where
  pmm : PmmMetadataLayout
  heapAreaStart : Nat
  heap : HeapLayout
  shmStart : Nat

/-- The layout of `[allocatorStart, allocatorTop)`, two page addresses. -/
def bootLayout (allocatorStart allocatorTop : Nat) : Except LayoutPanic BootLayout := do
  if allocatorTop ≤ add64 allocatorStart (pgSize * 64) then throw .insufficientRegion
  let heapAreaStart := heapAreaStart allocatorStart allocatorTop
  let pmm ← calculatePmmLayout allocatorStart heapAreaStart
  let heap ← calculateHeapLayout (allocatorTop - heapAreaStart)
  if heap.allocatorPages = 0 ∨ heap.shmBytes = 0 then throw .heapTooSmall
  return { pmm, heapAreaStart, heap
           shmStart := add64 (add64 heapAreaStart heap.metadataBytes) heap.allocatorBytes }

end F7ly.Mem
