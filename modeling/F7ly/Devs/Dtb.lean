import Mathlib

/-!
# Flattened device trees

`load_fdt_cursor` and `FdtWalker` of `kernel/devs/dtb.cc`. Pointers are addresses.
The walker reads through `read`, which has no byte for an address that may not be
read; `none` as the result of a call is such a read. A null pointer is `none` inside
a result.
-/

namespace F7ly.Devs

def fdtMagic : Nat := 0xd00dfeed
def fdtBeginNode : Nat := 0x1
def fdtEndNode : Nat := 0x2
def fdtProp : Nat := 0x3
def fdtNop : Nat := 0x4
def fdtEnd : Nat := 0x9

def maxFdtSize : Nat := 16 * 1024 * 1024

/-- `sizeof(fdt_header)`. -/
def fdtHeaderSize : Nat := 40

structure FdtCursor where
  blobBase : Nat
  blobEnd : Nat
  structBase : Nat
  structEnd : Nat
  stringsBase : Nat
  stringsEnd : Nat
  reservationMap : Nat
  totalSize : Nat
  structSize : Nat
  stringsSize : Nat
  deriving DecidableEq

/-- `read_be32`, of memory that can be read. -/
def be32 (mem : Nat → UInt8) (p : Nat) : Nat :=
  (mem p).toNat * 2 ^ 24 + (mem (p + 1)).toNat * 2 ^ 16 + (mem (p + 2)).toNat * 2 ^ 8 +
    (mem (p + 3)).toNat

def blobRangeValid (totalSize offset size : Nat) : Bool :=
  offset ≤ totalSize && size ≤ totalSize - offset

/-- The cursor, or the reason of the failure. -/
def loadFdtCursor (mem : Nat → UInt8) (dtbAddr : Nat) : Except String FdtCursor :=
  let totalSize := be32 mem (dtbAddr + 4)
  let offStruct := be32 mem (dtbAddr + 8)
  let offStrings := be32 mem (dtbAddr + 12)
  let offReservationMap := be32 mem (dtbAddr + 16)
  let version := be32 mem (dtbAddr + 20)
  let lastCompatibleVersion := be32 mem (dtbAddr + 24)
  let stringsSize := be32 mem (dtbAddr + 32)
  let structSize := be32 mem (dtbAddr + 36)
  if dtbAddr = 0 then .error "address is zero"
  else if be32 mem dtbAddr ≠ fdtMagic then .error "bad FDT magic"
  else if totalSize < fdtHeaderSize ∨ totalSize > maxFdtSize then
    .error "totalsize is outside 40B..16MiB"
  else if version < 17 ∨ lastCompatibleVersion > 17 then .error "unsupported FDT version"
  else if offStruct &&& 3 ≠ 0 then .error "structure offset is not 4-byte aligned"
  else if offReservationMap &&& 7 ≠ 0 then
    .error "reservation-map offset is not 8-byte aligned"
  else if structSize < 4 ∨ !blobRangeValid totalSize offStruct structSize then
    .error "structure block is outside the blob"
  else if !blobRangeValid totalSize offStrings stringsSize then
    .error "strings block is outside the blob"
  else if !blobRangeValid totalSize offReservationMap 16 then
    .error "reservation map is outside the blob"
  else
    .ok
      { blobBase := dtbAddr
        blobEnd := dtbAddr + totalSize
        structBase := dtbAddr + offStruct
        structEnd := dtbAddr + offStruct + structSize
        stringsBase := dtbAddr + offStrings
        stringsEnd := dtbAddr + offStrings + stringsSize
        reservationMap := dtbAddr + offReservationMap
        totalSize := totalSize
        structSize := structSize
        stringsSize := stringsSize }

section Reading

variable (read : Nat → Option UInt8)

def readBe32 (p : Nat) : Option Nat :=
  match read p, read (p + 1), read (p + 2), read (p + 3) with
  | some a, some b, some c, some d =>
      some (a.toNat * 2 ^ 24 + b.toNat * 2 ^ 16 + c.toNat * 2 ^ 8 + d.toNat)
  | _, _, _, _ => none

/-- The loop of `bounded_string`, over the bytes that are left. -/
def scanNul : Nat → Nat → Option (Option Nat)
  | 0, _ => some none
  | n + 1, p =>
      match read p with
      | none => none
      | some b => if b = 0 then some (some p) else scanNul n (p + 1)

def boundedString (start stop : Nat) : Option (Option Nat) :=
  if start ≥ stop then some none
  else
    match scanNul read (stop - start) start with
    | none => none
    | some none => some none
    | some (some _) => some (some start)

def propertyName (c : FdtCursor) (nameOffset : Nat) : Option (Option Nat) :=
  if nameOffset ≥ c.stringsSize then some none
  else boundedString read (c.stringsBase + nameOffset) c.stringsEnd

/-- The loop for `name_end`, over the bytes that are left. -/
def nameEnd : Nat → Nat → Option Nat
  | 0, p => some p
  | n + 1, p =>
      match read p with
      | none => none
      | some b => if b ≠ 0 then nameEnd n (p + 1) else some p

end Reading

/-- An event with its fields; the root has depth 0. -/
inductive FdtEvent where
  | beginNode (depth name : Nat)
  | endNode (depth : Nat)
  | property (depth property value length : Nat)
  deriving DecidableEq

/-- `_depth` is never negative, so it is a natural number. -/
structure FdtWalker where
  position : Nat
  depth : Nat
  valid : Bool
  finished : Bool
  deriving DecidableEq

namespace FdtWalker

def start (c : FdtCursor) : FdtWalker := ⟨c.structBase, 0, true, false⟩

/-- `valid()`. -/
def ok (w : FdtWalker) : Bool := w.valid && w.finished

def fail (w : FdtWalker) : FdtWalker × Option FdtEvent := ({ w with valid := false }, none)

end FdtWalker

/-- `(x + 3) & ~3` of a 64-bit value. -/
def align4 (x : Nat) : Nat := (x + 3) % 2 ^ 64 / 4 * 4

section Walking

variable (read : Nat → Option UInt8) (c : FdtCursor)

/-- A `FDT_PROP` token, with the walker behind it. -/
def nextProp (w : FdtWalker) : Option (FdtWalker × Option FdtEvent) :=
  match readBe32 read w.position, readBe32 read (w.position + 4) with
  | some length, some nameOffset =>
      let w := { w with position := w.position + 8 }
      let paddedLength := align4 length
      if paddedLength < length ∨ paddedLength > c.structEnd - w.position then some w.fail
      else
        match propertyName read c nameOffset with
        | none => none
        | some none => some w.fail
        | some (some name) =>
            if w.depth = 0 then some w.fail
            else
              some ({ w with position := w.position + paddedLength },
                some (.property (w.depth - 1) name w.position length))
  | _, _ => none

/-- A `FDT_BEGIN_NODE` token, with the walker behind it. -/
def nextBegin (w : FdtWalker) : Option (FdtWalker × Option FdtEvent) :=
  match boundedString read w.position c.structEnd with
  | none => none
  | some none => some w.fail
  | some (some name) =>
      match nameEnd read (c.structEnd - w.position) w.position with
      | none => none
      | some e =>
          some ({ w with position := e + 1, depth := w.depth + 1 }, some (.beginNode w.depth name))

/-- `FdtWalker::next`; `none` inside is the return value `false`. A round moves the
position forward, so `fuel` is the bytes that are left. -/
def next : Nat → FdtWalker → Option (FdtWalker × Option FdtEvent)
  | 0, _ => none
  | fuel + 1, w =>
      if ¬w.valid ∨ w.finished then some (w, none)
      else
        let aligned := align4 w.position
        if aligned < w.position ∨ aligned > c.structEnd then some w.fail
        else
          let w := { w with position := aligned }
          if c.structEnd - w.position < 4 then some w.fail
          else
            match readBe32 read w.position with
            | none => none
            | some token =>
                let w := { w with position := w.position + 4 }
                if token = fdtNop then next fuel w
                else if token = fdtEnd then
                  some ({ w with finished := w.depth = 0, valid := w.depth = 0 }, none)
                else if token = fdtBeginNode then nextBegin read c w
                else if token = fdtEndNode then
                  if w.depth = 0 then some w.fail
                  else some ({ w with depth := w.depth - 1 }, some (.endNode (w.depth - 1)))
                else if token ≠ fdtProp ∨ c.structEnd - w.position < 8 then some w.fail
                else nextProp read c w

/-- `n` calls of `next` and the events that they return. -/
def calls : Nat → FdtWalker → Option (List FdtEvent × FdtWalker)
  | 0, w => some ([], w)
  | n + 1, w =>
      match next read c (c.structSize + 1) w with
      | none => none
      | some (w, none) => calls n w
      | some (w, some e) => (calls n w).map fun p => (e :: p.1, p.2)

end Walking

end F7ly.Devs
