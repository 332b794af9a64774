import F7ly.Devs.Dtb

/-!
# Queries on a device tree

`validate_fdt_structure` and `get_timebase_frequency` of `kernel/devs/dtb.cc`, with the
bound that `get_reserved_regions` is called with. A query walks the whole tree and
changes a few local variables at every event: it is a state with one step for an
event. The depth of a node, `-1` where there is none, is an `Option`.
-/

namespace F7ly.Devs

def maxReservedRegions : Nat := 32

/-- `~0ULL`. -/
def maxU64 : Nat := 2 ^ 64 - 1

/-- The characters of a literal without its NUL. -/
def literal (s : String) : List UInt8 := s.toList.map fun c => UInt8.ofNat c.toNat

variable (mem : Nat → UInt8)

/-- `memcmp(p, s, n) == 0` for the `n` bytes `s`. -/
def bytesEq : Nat → List UInt8 → Bool
  | _, [] => true
  | p, b :: bs => mem p == b && bytesEq (p + 1) bs

/-- `strcmp(p, s) == 0`. -/
def strEq (p : Nat) (s : String) : Bool := bytesEq mem p (literal s ++ [0])

/-- The events of a walk and `valid()` at its end. Every byte can be read here, so no
call of `next` fails. -/
def walk (c : FdtCursor) : List FdtEvent × Bool :=
  match calls (fun a => some (mem a)) c (c.structSize + 1) (.start c) with
  | some (events, w) => (events, w.ok)
  | none => ([], false)

def validateFdtStructure (c : FdtCursor) : Bool := (walk mem c).2

structure TimebaseScan where
  cpusDepth : Option Nat := none
  propertyFound : Bool := false
  propertyValid : Bool := true
  frequencyHz : Nat := 0

namespace TimebaseScan

/-- A property `timebase-frequency` of the node. -/
def take (s : TimebaseScan) (value length : Nat) : TimebaseScan :=
  if s.propertyFound ∨ length ≠ 4 then { s with propertyValid := false }
  else
    { s with
      propertyFound := true
      frequencyHz := be32 mem value
      propertyValid := be32 mem value ≠ 0 }

def step (s : TimebaseScan) : FdtEvent → TimebaseScan
  | .beginNode depth name =>
      if depth = 1 ∧ strEq mem name "cpus" then { s with cpusDepth := some depth } else s
  | .endNode depth => if some depth = s.cpusDepth then { s with cpusDepth := none } else s
  | .property depth property value length =>
      if some depth ≠ s.cpusDepth ∨ ¬strEq mem property "timebase-frequency" then s
      else s.take mem value length

end TimebaseScan

/-- The return value, and what is left in `frequency_hz`. -/
def getTimebaseFrequency (dtbAddr : Nat) : Bool × Nat :=
  match loadFdtCursor mem dtbAddr with
  | .error _ => (false, 0)
  | .ok c =>
      let (events, valid) := walk mem c
      let s := events.foldl (TimebaseScan.step mem) {}
      (valid && s.propertyFound && s.propertyValid, s.frequencyHz)

end F7ly.Devs
