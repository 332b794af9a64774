import F7ly.Lib.ExchangeSort
import F7ly.Devs.DtbQuery
import F7ly.Mem.Pmm
import F7ly.Mem.Page

/-!
# Which memory is managed

`largest_usable_interval` of `kernel/mem/physical_memory_manager.cc`: the largest gap
of whole pages that the reserved ranges leave in a region of memory.
-/

namespace F7ly.Mem

open F7ly.Devs

structure ReservedRange where
  start : Nat
  stop : Nat
  deriving DecidableEq

structure UsableInterval where
  start : Nat := 0
  top : Nat := 0
  deriving DecidableEq

namespace UsableInterval

def bytes (i : UsableInterval) : Nat := if i.top > i.start then i.top - i.start else 0

def consider (best : UsableInterval) (gapStart gapTop : Nat) : UsableInterval :=
  let gapStart := pgRoundUp gapStart
  let gapTop := pgRoundDown gapTop
  if gapTop > gapStart ∧ gapTop - gapStart > best.bytes then ⟨gapStart, gapTop⟩ else best

end UsableInterval

/-- `k_max_reserved_ranges`. -/
def maxReservedRanges : Nat := maxReservedRegions + 3

/-- The loop over the sorted ranges: the cursor and the best gap at its end. -/
def sweep (top : Nat) : List ReservedRange → Nat → UsableInterval → Nat × UsableInterval
  | [], cursor, best => (cursor, best)
  | r :: rs, cursor, best =>
      if r.stop ≤ cursor ∨ r.start ≥ top then sweep top rs cursor best
      else
        let reservedStart := pgRoundDown r.start
        let reservedEnd := pgRoundUp r.stop
        let best :=
          if reservedStart > cursor then
            best.consider cursor (if reservedStart < top then reservedStart else top)
          else best
        let cursor := if reservedEnd > cursor then reservedEnd else cursor
        if cursor ≥ top then (cursor, best) else sweep top rs cursor best

def largestUsableInterval (rawStart rawTop : Nat) (reserved : List ReservedRange) :
    UsableInterval :=
  let start := pgRoundUp rawStart
  let top := pgRoundDown rawTop
  if top ≤ start then {}
  else
    let sorted := ExchangeSort.sort ReservedRange.start (reserved.take maxReservedRanges)
    let (cursor, best) := sweep top sorted start {}
    best.consider cursor top

end F7ly.Mem
