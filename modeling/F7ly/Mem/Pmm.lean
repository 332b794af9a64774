import Mathlib.Logic.Function.Basic
import F7ly.Mem.Buddy

/-!
# The physical memory manager

`mem::PhysicalMemoryManager` of `kernel/mem/physical_memory_manager.cc`: the
buddy allocator and beside it one 16-bit reference count for each page. Every
function holds `memlock` for as long as it touches either, so a call is one
step. A panic of the source is a fault of the model.

Page contents, and so the clearing of fresh pages, are left out, as are the
counters for `F7LY_PERF_ADD` and the texts of the messages. `free_page1` with
an unaligned address belongs to the slab allocator; with an aligned one it is
`free_pages`.
-/

namespace F7ly.Mem

open BuddySystem (nextPowerOfTwo)

/-- How a call can fail to return. -/
inductive PmmFault where
  | buddy (fault : BuddyFault)
  | notPageAligned
  | invalidPageIndex
  | liveRefcount
  | invalidBlockMetadata
  | overlapsLivePage
  | unallocated
  | notBlockStart
  | blockShared
  | zeroRefcount
  | batchTooLarge
  | outOfMemory
  deriving DecidableEq, Repr

inductive Arch where
  | riscv
  | loongarch
  deriving DecidableEq, Repr

abbrev Address := BitVec 64

structure Pmm where
  arch : Arch
  paStart : Address
  pageCount : Nat
  buddy : BuddySystem
  refcounts : Nat → UInt16

def pageSize : Nat := 4096

/-- `PHYSBASE` of LoongArch: the cached direct-mapped window. -/
def physBase : Address := 0x9000000000000000

/-- `to_vir` of LoongArch. -/
def toVir (address : Address) : Address :=
  address &&& 0x0000ffffffffffff ||| physBase

def normalizeManagedPageAddr (arch : Arch) (addr : Address) : Address :=
  match arch with
  | .riscv => addr
  | .loongarch => if addr ≠ 0 ∧ addr < physBase then toVir addr else addr

/-- A call into the buddy allocator, whose faults are faults here. -/
def ofBuddy {α : Type} (r : Except BuddyFault α) : Except PmmFault α :=
  r.mapError .buddy

namespace Pmm

/-- The page number of an address, for `pa2pgnm`. -/
def pageOf (m : Pmm) (pa : Address) : Nat :=
  (normalizeManagedPageAddr m.arch pa - m.paStart).toNat / pageSize

def pa2pgnm (m : Pmm) (pa : Address) : Except PmmFault Nat :=
  if (normalizeManagedPageAddr m.arch pa).toNat % pageSize ≠ 0 then
    .error .notPageAligned
  else .ok (m.pageOf pa)

def pgnm2pa (m : Pmm) (pgnm : Nat) : Address :=
  BitVec.ofNat 64 (pgnm * pageSize) + m.paStart

/-- `size_to_page_num`; the conversion to `int` keeps the low 32 bits. -/
def sizeToPageNum (size : UInt64) : Int32 :=
  .ofNat (size.toNat / pageSize + if size.toNat % pageSize ≠ 0 then 1 else 0)

/-- The loop over the pages of a block: each must be managed and have one count,
and is given another. `n` pages are left, the next is `index`. -/
def refcountLoop (pageCount : Nat) (expected value : UInt16) (fault : PmmFault) :
    Nat → Nat → (Nat → UInt16) → Except PmmFault (Nat → UInt16)
  | 0, _, refcounts => .ok refcounts
  | n + 1, index, refcounts =>
      if index ≥ pageCount ∨ refcounts index ≠ expected then .error fault
      else
        refcountLoop pageCount expected value fault n (index + 1)
          (Function.update refcounts index value)

def claimPages (m : Pmm) (block : PageQueryResult) (pageIndex : Nat) :
    Except PmmFault (Nat → UInt16) :=
  refcountLoop m.pageCount 0 1 .overlapsLivePage block.blockPages pageIndex
    m.refcounts

def dropPages (m : Pmm) (block : PageQueryResult) (pageIndex : Nat) :
    Except PmmFault (Nat → UInt16) :=
  refcountLoop m.pageCount 1 0 .blockShared block.blockPages pageIndex
    m.refcounts

def tryAllocPage (m : Pmm) : Except PmmFault (Option Address × Pmm) := do
  let (x, buddy) ← ofBuddy (m.buddy.alloc 0)
  let m := { m with buddy }
  if x = -1 then return (none, m)
  if (x % 2 ^ 64).toNat ≥ m.pageCount then throw .invalidPageIndex
  if m.refcounts x.toNat ≠ 0 then throw .liveRefcount
  return (some (m.pgnm2pa x.toNat), { m with refcounts := Function.update m.refcounts x.toNat 1 })

/-- The section of `try_alloc_pages` and of `kmalloc_impl` under the lock: the
first page of the block, if there is one. -/
def allocBlock (m : Pmm) (count : Int32) : Except PmmFault (Option Nat × Pmm) := do
  let (x, buddy) ← ofBuddy (m.buddy.alloc count.toInt)
  let m := { m with buddy }
  if x < 0 then return (none, m)
  let block := m.buddy.queryPage x.toNat
  if !block.inRange ∨ block.isFree ∨ block.blockOffset ≠ x.toNat then
    throw .invalidBlockMetadata
  let refcounts ← m.claimPages block x.toNat
  return (some x.toNat, { m with refcounts })

def tryAllocPages (m : Pmm) (count : Int32) : Except PmmFault (Option Address × Pmm) := do
  if count ≤ 0 then return (none, m)
  match ← m.allocBlock count with
  | (none, m) => return (none, m)
  | (some pageIndex, m) =>
      if pageIndex ≥ m.pageCount then throw .invalidPageIndex
      return (some (m.pgnm2pa pageIndex), m)

/-- `kmalloc_impl`. -/
def kmalloc (m : Pmm) (size : UInt64) : Except PmmFault (Option Address × Pmm) := do
  let pageNum := sizeToPageNum size
  if pageNum.toUInt32.toNat > m.pageCount then return (none, m)
  match ← m.allocBlock pageNum with
  | (none, m) => return (none, m)
  | (some x, m) =>
      if x ≥ m.pageCount then return (none, m)
      return (some (m.pgnm2pa x), m)

def kcalloc (m : Pmm) (n : UInt32) (size : UInt64) : Except PmmFault (Option Address × Pmm) :=
  m.kmalloc (n.toUInt64 * size)

/-- `alloc_page` and `alloc_pages` panic where the `try_` functions return
null. -/
def orPanic (r : Except PmmFault (Option Address × Pmm)) :
    Except PmmFault (Option Address × Pmm) := do
  match ← r with
  | (none, _) => throw .outOfMemory
  | (some pa, m) => return (some pa, m)

def allocPage (m : Pmm) : Except PmmFault (Option Address × Pmm) :=
  orPanic m.tryAllocPage

def allocPages (m : Pmm) (count : Int32) : Except PmmFault (Option Address × Pmm) :=
  orPanic (m.tryAllocPages count)

def freePages (m : Pmm) (pa : Address) : Except PmmFault Pmm := do
  if pa = 0 then return m
  if pa.toNat % pageSize ≠ 0 then throw .notPageAligned
  let pageIndex ← m.pa2pgnm pa
  let block := m.buddy.queryPage (pageIndex % 2 ^ 32)
  if !block.inRange ∨ block.isFree ∨ block.blockOffset ≠ pageIndex then
    throw .notBlockStart
  let refcounts ← m.dropPages block pageIndex
  let buddy ← ofBuddy (m.buddy.free pageIndex)
  return { m with refcounts, buddy }

/-- The end of `free_page` and of a round of `release_pages_batch`: one
reference of a single page. -/
def dropPage (m : Pmm) (pageIndex : Nat) : Except PmmFault Pmm := do
  if m.refcounts pageIndex > 1 then
    let refcount := m.refcounts pageIndex - 1
    return { m with refcounts := Function.update m.refcounts pageIndex refcount }
  let buddy ← ofBuddy (m.buddy.free pageIndex)
  return { m with buddy, refcounts := Function.update m.refcounts pageIndex 0 }

def freePage (m : Pmm) (pa : Address) : Except PmmFault Pmm := do
  let pageIndex ← m.pa2pgnm pa
  if pageIndex ≥ m.pageCount then return m
  let block := m.buddy.queryPage (pageIndex % 2 ^ 32)
  if !block.inRange ∨ block.isFree then throw .unallocated
  if block.blockPages > 1 then
    if block.blockOffset ≠ pageIndex then throw .notBlockStart
    let refcounts ← m.dropPages block pageIndex
    let buddy ← ofBuddy (m.buddy.free pageIndex)
    return { m with refcounts, buddy }
  m.dropPage pageIndex

/-- One round of `release_pages_batch`. -/
def releasePage (m : Pmm) (pa : Address) : Except PmmFault Pmm := do
  if pa = 0 then return m
  let pageIndex ← m.pa2pgnm pa
  if pageIndex ≥ m.pageCount then return m
  let block := m.buddy.queryPage (pageIndex % 2 ^ 32)
  if !block.inRange ∨ block.isFree then throw .unallocated
  if block.blockPages ≠ 1 ∨ block.blockOffset ≠ pageIndex then
    throw .notBlockStart
  if m.refcounts pageIndex = 0 then throw .zeroRefcount
  m.dropPage pageIndex

def releasePagesBatch (m : Pmm) (pages : List Address) : Except PmmFault Pmm :=
  pages.foldlM releasePage m

def retainPage (m : Pmm) (pa : Address) : Except PmmFault (Bool × Pmm) := do
  let pageIndex ← m.pa2pgnm pa
  if pageIndex ≥ m.pageCount then return (false, m)
  if m.refcounts pageIndex = 0 ∨ m.refcounts pageIndex = 65535 then
    return (false, m)
  let refcount := m.refcounts pageIndex + 1
  return (true, { m with refcounts := Function.update m.refcounts pageIndex refcount })

/-- The loop of `retain_pages_batch`, from the entry `index` on. -/
def retainLoop : List Address → Nat → BitVec 64 → Pmm → Except PmmFault (BitVec 64 × Pmm)
  | [], _, retained, m => .ok (retained, m)
  | pa :: pages, index, retained, m => do
      let pageIndex ← m.pa2pgnm pa
      if pageIndex ≥ m.pageCount ∨ m.refcounts pageIndex = 0 ∨
          m.refcounts pageIndex = 65535 then
        retainLoop pages (index + 1) retained m
      else
        let refcount := m.refcounts pageIndex + 1
        retainLoop pages (index + 1) (retained ||| 1#64 <<< index)
          { m with refcounts := Function.update m.refcounts pageIndex refcount }

def retainPagesBatch (m : Pmm) (pages : List Address) : Except PmmFault (BitVec 64 × Pmm) :=
  if pages.length > 64 then .error .batchTooLarge else retainLoop pages 0 0 m

end Pmm

inductive PmmOp where
  | tryAllocPage
  | allocPage
  | tryAllocPages (count : Int32)
  | allocPages (count : Int32)
  | kmalloc (size : UInt64)
  | kcalloc (n : UInt32) (size : UInt64)
  | freePage (pa : Address)
  | freePages (pa : Address)
  | retainPage (pa : Address)
  | retainPagesBatch (pages : List Address)
  | releasePagesBatch (pages : List Address)

/-- What a call tells its caller. -/
inductive PmmReply where
  | address (pa : Option Address)
  | retained (ok : Bool)
  | retainedMask (retained : BitVec 64)
  | done

def Pmm.step (m : Pmm) : PmmOp → Except PmmFault (PmmReply × Pmm)
  | .tryAllocPage => m.tryAllocPage.map fun r => (.address r.1, r.2)
  | .allocPage => m.allocPage.map fun r => (.address r.1, r.2)
  | .tryAllocPages count => (m.tryAllocPages count).map fun r => (.address r.1, r.2)
  | .allocPages count => (m.allocPages count).map fun r => (.address r.1, r.2)
  | .kmalloc size => (m.kmalloc size).map fun r => (.address r.1, r.2)
  | .kcalloc n size => (m.kcalloc n size).map fun r => (.address r.1, r.2)
  | .freePage pa => (m.freePage pa).map fun m => (.done, m)
  | .freePages pa => (m.freePages pa).map fun m => (.done, m)
  | .retainPage pa => (m.retainPage pa).map fun r => (.retained r.1, r.2)
  | .retainPagesBatch pages =>
      (m.retainPagesBatch pages).map fun r => (.retainedMask r.1, r.2)
  | .releasePagesBatch pages => (m.releasePagesBatch pages).map fun m => (.done, m)

end F7ly.Mem
