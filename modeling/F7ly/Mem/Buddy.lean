import F7ly.Lib.HeapTree
import F7ly.Lib.BitSmear

/-!
# The buddy page allocator

`mem::BuddySystem` of `kernel/mem/buddysystem.cc`, function by function. The
allocator's state is one byte per node of a complete binary tree in the
implicit layout, the page counts, and a separately kept count of free pages.

The source's integers are `uint32` page counts and `int` node indices. The
sums on the way down the tree stay below `2 ^ 31`, so indices and offsets are
natural numbers here; what can leave the range of `int` is the bit length
arithmetic `1 << k`, which is kept as it is written: the shift of a one into
the sign bit is the least `int`, subtracting from that overflows, and a shift
by the width of the type or more is undefined. Undefined behaviour and the
source's own panics are the faults a call may end in.
-/

namespace F7ly.Mem

open F7ly.HeapTree

/-- How a call into the allocator can fail to return. -/
inductive BuddyFault where
  /-- Signed overflow or an over-wide shift. -/
  | undefinedBehavior
  /-- `Initialize` was handed too little room for the tree. -/
  | treeStorageTooSmall
  /-- `Alloc` computed an offset outside the managed pages. -/
  | invalidOffset
  /-- `Alloc` would take more pages than the counter says are free. -/
  | freePageCounterUnderflow
  /-- `Free` would raise the counter above the managed pages. -/
  | freePageCounterOverflow
  deriving DecidableEq, Repr

/-- `NodeState`: what one byte of the tree says about its block. -/
inductive NodeState where
  | unused
  | used
  | split
  | full
  deriving DecidableEq, Repr

/-- The fields of `BuddySystem` the allocator computes with. -/
structure BuddySystem where
  pageCount : Nat
  capacityPages : Nat
  freePageCount : Nat
  level : Nat
  tree : Nat → NodeState

structure PageQueryResult where
  inRange : Bool
  isFree : Bool
  nodeState : NodeState
  blockPages : Nat
  nodeIndex : Nat
  nodeLevel : Nat
  blockOffset : Nat
  deriving DecidableEq, Repr

/-- The value-initialised result a failed query returns. -/
def PageQueryResult.zero : PageQueryResult :=
  ⟨false, false, .unused, 0, 0, 0, 0⟩

namespace BuddySystem

/-- `1 << k` in `int`. -/
def shlOne (k : Nat) : Except BuddyFault Int :=
  if k < 31 then .ok (2 ^ k)
  else if k = 31 then .ok (-(2 ^ 31))
  else .error .undefinedBehavior

/-- `a - 1` in `int`. -/
def subOne (a : Int) : Except BuddyFault Int :=
  if -(2 ^ 31) ≤ a - 1 then .ok (a - 1) else .error .undefinedBehavior

/-- `NextPowerOfTwo` on `uint32`. -/
def nextPowerOfTwo (x : Nat) : Nat :=
  if x = 0 then 1 else (BitSmear.smear32 (x - 1) + 1) % 2 ^ 32

def capacityPagesFor (totalPages : Nat) : Nat :=
  nextPowerOfTwo (if totalPages ≠ 0 then totalPages else 1)

/-- `required_tree_bytes`, in `uint64`: a capacity that wrapped to zero takes all
but one of its values. -/
def requiredTreeBytes (totalPages : Nat) : Nat :=
  (capacityPagesFor totalPages * 2 + 2 ^ 64 - 1) % 2 ^ 64

/-- `while ((1u << level) < capacity_pages) level++`, on enough fuel for every
`uint32` capacity. -/
def levelLoop (capacity : Nat) : Nat → Nat → Nat
  | 0, level => level
  | fuel + 1, level =>
      if 2 ^ level % 2 ^ 32 < capacity then levelLoop capacity fuel (level + 1)
      else level

/-- First loop of `mark_unusable_leaves`: the leaves `0 .. n - 1`. -/
def markLeaves (leafStart pageCount : Nat) : Nat → (Nat → NodeState) → Nat → NodeState
  | 0, t => t
  | n + 1, t =>
      let t := markLeaves leafStart pageCount n t
      set t (leafStart + n) (if n ≥ pageCount then .full else .unused)

/-- Second loop of `mark_unusable_leaves`: indices from `start` on, `n` of
them. -/
def markRest (start : Nat) : Nat → (Nat → NodeState) → Nat → NodeState
  | 0, t => t
  | n + 1, t => set (markRest start n t) (start + n) .full

def markUnusableLeaves (b : BuddySystem) : Except BuddyFault BuddySystem := do
  let maxNodes ← (do subOne (← shlOne (b.level + 1)))
  let leafStart ← (do subOne (← shlOne b.level))
  let leafStart := leafStart.toNat
  let tree := markLeaves leafStart b.pageCount b.capacityPages b.tree
  let start := leafStart + b.capacityPages
  return { b with tree := markRest start (maxNodes.toNat - start) tree }

/-- One round of `rebuild_parent_states`. -/
def rebuiltState (t : Nat → NodeState) (idx : Nat) (maxNodes : Int) : NodeState :=
  let left := idx * 2 + 1
  let right := left + 1
  if (left : Int) ≥ maxNodes ∨ (right : Int) ≥ maxNodes then .full
  else if t left = .full ∧ t right = .full then .full
  else if t left = .unused ∧ t right = .unused then .unused
  else .split

/-- The loop of `rebuild_parent_states`, from index `n - 1` down to zero. -/
def rebuildLoop (maxNodes : Int) : Nat → (Nat → NodeState) → Nat → NodeState
  | 0, t => t
  | n + 1, t => rebuildLoop maxNodes n (set t n (rebuiltState t n maxNodes))

def rebuildParentStates (b : BuddySystem) : Except BuddyFault BuddySystem := do
  let maxNodes ← (do subOne (← shlOne (b.level + 1)))
  let last ← (do subOne (← subOne (← shlOne b.level)))
  return { b with tree := rebuildLoop maxNodes (last + 1).toNat b.tree }

/-- `Initialize`. The managed base address and the tree's own address only
reach the console and the null check. -/
def initializeSystem (totalPages treeStorage treeStorageBytes : Nat) :
    Except BuddyFault BuddySystem := do
  let pageCount := if totalPages ≠ 0 then totalPages else 1
  let capacity := capacityPagesFor pageCount
  let level := levelLoop capacity 32 0
  let maxNodes := requiredTreeBytes pageCount
  if treeStorage = 0 ∨ maxNodes > treeStorageBytes then
    throw .treeStorageTooSmall
  let b : BuddySystem :=
    { pageCount, capacityPages := capacity, freePageCount := pageCount,
      level, tree := fun _ => .unused }
  rebuildParentStates (← markUnusableLeaves b)

/-- The loop of `node_depth`. A shift too wide for the type ends it, so the
recursion stops by itself; the fuel only makes that visible. -/
def nodeDepthLoop (x : Int) : Nat → Nat → Except BuddyFault Nat
  | 0, _ => .error .undefinedBehavior
  | fuel + 1, depth => do
      if (← shlOne (depth + 1)) ≤ x then nodeDepthLoop x fuel (depth + 1)
      else return depth

def nodeDepth (index : Nat) : Except BuddyFault Nat :=
  nodeDepthLoop (index + 1) 32 0

def nodeOffsetPages (b : BuddySystem) (index : Nat) : Except BuddyFault Int := do
  let depth ← nodeDepth index
  let pos := (index + 1 : Int) - (← shlOne depth)
  return pos * 2 ^ (b.level - depth)

def nodeBlockPages (b : BuddySystem) (depth : Nat) : Nat :=
  b.capacityPages >>> depth

def splitUnusedNode (t : Nat → NodeState) (index : Nat) : Nat → NodeState :=
  if t index ≠ .unused then t
  else set (set (set t index .split) (index * 2 + 1) .unused)
    (index * 2 + 2) .unused

/-- `summarize_children_state` on the two states it reads. -/
def summarize (l r : NodeState) : NodeState :=
  if (l = .used ∨ l = .full) ∧ (r = .used ∨ r = .full) then .full
  else if l = .unused ∧ r = .unused then .unused
  else .split

def summarizeChildrenState (t : Nat → NodeState) (index : Nat) : NodeState :=
  summarize (t (index * 2 + 1)) (t (index * 2 + 2))

/-! ## The recursive walks

Each recursion goes one level down per call, and the interface passes one
more fuel than there are levels. Below the leaves a block has no pages, so
every walk but one ends there with the answer it has for no pages; the release
walk would read past the tree, which is what its fuel running out stands for. -/

/-- `allocate_from_node`: the index it allocated, if any, and the tree. -/
def allocateFromNode (b : BuddySystem) (actualPages : Nat) :
    Nat → Nat → Nat → (Nat → NodeState) → Option Nat × (Nat → NodeState)
  | 0, _, _, t => (none, t)
  | fuel + 1, index, depth, t =>
      let blockPages := nodeBlockPages b depth
      if actualPages > blockPages then (none, t)
      else if t index = .used ∨ t index = .full then (none, t)
      else if blockPages = actualPages then
        if t index ≠ .unused then (none, t)
        else (some index, set t index .used)
      else
        let t := if t index = .unused then splitUnusedNode t index else t
        if t index ≠ .split then (none, t)
        else
          let left := index * 2 + 1
          let (allocated, t) :=
            match allocateFromNode b actualPages fuel left (depth + 1) t with
            | (some node, t) => (some node, t)
            | (none, t) =>
                allocateFromNode b actualPages fuel (left + 1) (depth + 1) t
          (allocated, set t index (summarizeChildrenState t index))

/-- `free_from_node`: whether it released a block, and the tree. -/
def freeFromNode (b : BuddySystem) (targetOffset : Int) :
    Nat → Nat → Nat → (Nat → NodeState) → Except BuddyFault (Bool × (Nat → NodeState))
  | 0, _, _, _ => .error .undefinedBehavior
  | fuel + 1, index, depth, t => do
      let offset ← nodeOffsetPages b index
      let blockPages := nodeBlockPages b depth
      if targetOffset < offset ∨ targetOffset ≥ offset + blockPages then
        return (false, t)
      if t index = .used then
        if offset ≠ targetOffset then return (false, t)
        return (true, set t index .unused)
      if t index = .unused then return (false, t)
      let left := index * 2 + 1
      let midpoint := offset + (blockPages / 2 : Nat)
      let child := if targetOffset < midpoint then left else left + 1
      let (released, t) ← freeFromNode b targetOffset fuel child (depth + 1) t
      if !released then return (false, t)
      return (true, set t index (summarizeChildrenState t index))

def queryPageFromNode (b : BuddySystem) (pageOffset : Nat) :
    Nat → Nat → Nat → Nat → Nat → PageQueryResult
  | 0, _, _, _, _ => .zero
  | fuel + 1, index, currentLevel, blockOffset, blockPages =>
      let result : PageQueryResult :=
        { inRange := decide (pageOffset < b.pageCount), isFree := false,
          nodeState := .unused, blockPages, nodeIndex := index,
          nodeLevel := currentLevel, blockOffset }
      if !result.inRange ∨ blockPages = 0 then result
      else
        let state := b.tree index
        let result := { result with nodeState := state }
        if state = .unused then { result with isFree := true }
        else if state = .used ∨ blockPages = 1 then result
        else
          let childBlockPages := blockPages / 2
          if childBlockPages = 0 then result
          else if pageOffset < blockOffset + childBlockPages then
            queryPageFromNode b pageOffset fuel (index * 2 + 1)
              (currentLevel + 1) blockOffset childBlockPages
          else
            queryPageFromNode b pageOffset fuel (index * 2 + 2)
              (currentLevel + 1) (blockOffset + childBlockPages)
              childBlockPages

def maxFreeBlockPagesFromNode (t : Nat → NodeState) : Nat → Nat → Nat → Nat
  | 0, _, _ => 0
  | fuel + 1, index, blockPages =>
      if t index = .unused then blockPages
      else if t index = .used ∨ t index = .full ∨ blockPages = 0 then 0
      else
        let childBlockPages := blockPages / 2
        let left := maxFreeBlockPagesFromNode t fuel (index * 2 + 1) childBlockPages
        let right := maxFreeBlockPagesFromNode t fuel (index * 2 + 2) childBlockPages
        if left > right then left else right

def queryPage (b : BuddySystem) (pageOffset : Nat) : PageQueryResult :=
  if pageOffset ≥ b.pageCount then .zero
  else queryPageFromNode b pageOffset (b.level + 1) 0 0 0 b.capacityPages

/-- `Alloc`: the offset of the block, or -1, and the allocator. -/
def alloc (b : BuddySystem) (size : Int) : Except BuddyFault (Int × BuddySystem) := do
  let requestedPages := if size ≤ 0 then 1 else size.toNat
  let actualPages := nextPowerOfTwo requestedPages
  if actualPages > b.capacityPages then return (-1, b)
  match allocateFromNode b actualPages (b.level + 1) 0 0 b.tree with
  | (none, t) => return (-1, { b with tree := t })
  | (some node, t) =>
      let offset ← nodeOffsetPages b node
      if offset < 0 ∨ offset ≥ b.pageCount then throw .invalidOffset
      if b.freePageCount < actualPages then throw .freePageCounterUnderflow
      return (offset, { b with tree := t, freePageCount := b.freePageCount - actualPages })

/-- `Free`. The bound of the counter is computed in `uint64` and wraps. -/
def free (b : BuddySystem) (offset : Int) : Except BuddyFault BuddySystem := do
  if offset < 0 ∨ offset ≥ b.pageCount then return b
  let block := queryPage b offset.toNat
  if !block.inRange ∨ block.isFree ∨ block.blockOffset ≠ offset.toNat then
    return b
  let (released, t) ← freeFromNode b offset (b.level + 1) 0 0 b.tree
  if !released then return { b with tree := t }
  if b.freePageCount > (b.pageCount + 2 ^ 64 - block.blockPages) % 2 ^ 64 then
    throw .freePageCounterOverflow
  return { b with tree := t, freePageCount := b.freePageCount + block.blockPages }

def getMaxFreeBlockPages (b : BuddySystem) : Nat :=
  maxFreeBlockPagesFromNode b.tree (b.level + 1) 0 b.capacityPages

end BuddySystem

end F7ly.Mem
