import F7ly.Fs.Fat32

/-!
# FAT32 directories

`enext`, `dirlookup`, `eupdate` and `eremove` of `kernel/fs/fat32/fat32.cc`. A
directory is the data of its chain, in slots of 32 bytes.

The name that `enext` collects is memory around `ep->filename`: an address is an
offset from its first byte, and the addresses that were stored to are kept. A store
through the `count` pointer after it was cleared is `nullStore`.
-/

namespace F7ly.Fs.Fat32

abbrev Slot := Nat → UInt8

def lastLongEntry : Nat := 0x40
def emptyEntry : Nat := 0xe5
def endOfEntry : Nat := 0
def attrLongName : Nat := 0x0f
def charLongName : Nat := 13
def charShortName : Nat := 11
def maxFilename : Nat := 255

namespace Slot

def order (d : Slot) : Nat := (d 0).toNat
def attr (d : Slot) : Nat := (d 11).toNat

/-- `order & ~LAST_LONG_ENTRY`. -/
def lcnt (d : Slot) : Nat := d.order &&& 0xbf

def isLast (d : Slot) : Bool := d.order &&& lastLongEntry ≠ 0

/-- `n` wide characters from byte `i` on. -/
def wchars (d : Slot) (i n : Nat) : List Nat :=
  (List.range n).map fun k => (d (i + 2 * k)).toNat + 256 * (d (i + 2 * k + 1)).toNat

def name1 (d : Slot) : List Nat := d.wchars 1 5
def name2 (d : Slot) : List Nat := d.wchars 14 6
def name3 (d : Slot) : List Nat := d.wchars 28 2

end Slot

structure Buf where
  bytes : Int → UInt8
  stored : List Int

def Buf.store (b : Buf) (a : Int) (x : UInt8) : Buf :=
  ⟨Function.update b.bytes a x, a :: b.stored⟩

/-- `memset` with zero. -/
def zeros : Int → Nat → Buf → Buf
  | _, 0, b => b
  | a, n + 1, b => zeros (a + 1) n (b.store a 0)

/-- Characters up to a NUL, then zeros. The first loop has counted the NUL, so the
last place is not filled when there is one. -/
def snstr : Int → List Nat → Buf → Buf
  | _, [], b => b
  | a, c :: cs, b =>
      if c ≠ 0 then snstr (a + 1) cs (b.store a (UInt8.ofNat (c &&& 0xff)))
      else zeros a cs.length b

/-- At most `n` characters of a short name, from `j` on, up to a space. -/
def copyName (d : Slot) : Nat → Nat → Int → Buf → Int × Buf
  | _, 0, a, b => (a, b)
  | j, n + 1, a, b =>
      if d j = 0x20 then (a, b) else copyName d (j + 1) n (a + 1) (b.store a (d j))

def readEntryName (a : Int) (d : Slot) (b : Buf) : Buf :=
  if d.attr = attrLongName then
    snstr (a + 11) d.name3 (snstr (a + 5) d.name2 (snstr a d.name1 b))
  else
    let (i, b) := copyName d 0 8 a (zeros a (charShortName + 2) b)
    let (i, b) := if d 8 ≠ 0x20 then (i + 1, b.store i 0x2e) else (i, b)
    (copyName d 8 3 i b).2

/-- What `read_entry_info` takes from a short entry. -/
structure Info where
  attr : Nat
  firstClus : Nat
  fileSize : Nat
  deriving DecidableEq

def le16 (d : Slot) (i : Nat) : Nat := (d i).toNat + 256 * (d (i + 1)).toNat

def readEntryInfo (d : Slot) : Info where
  attr := d.attr
  firstClus := le16 d 20 * 2 ^ 16 + le16 d 26
  fileSize := le16 d 28 + 2 ^ 16 * le16 d 30

/-- The variables of `enext` and the fields of `ep` that it sets. -/
structure Scan where
  name : Buf
  cnt : Nat
  /-- `count` is not null. -/
  countSet : Bool
  count : Nat
  nullStore : Bool
  info : Option Info

namespace Scan

def setCount (s : Scan) (n : Nat) : Scan :=
  if s.countSet then { s with count := n } else { s with nullStore := true }

def longSlot (s : Scan) (d : Slot) : Scan :=
  let s := if d.isLast then { s.setCount (d.lcnt + 1) with countSet := false } else s
  { s with name := readEntryName ((d.lcnt - 1 : Int) * charLongName) d s.name }

def shortSlot (s : Scan) (d : Slot) : Scan :=
  let s := if s.countSet then { s.setCount 1 with name := readEntryName 0 d s.name } else s
  { s with info := some (readEntryInfo d) }

end Scan

section Directories

variable (g : Geometry)

/-- A read of `n` bytes to the kernel, which does not fail. -/
def readClus (v : Volume) (cluster off n : Nat) : Option (Nat → UInt8) :=
  (rwClus g (copyOut v (fun _ => true) 0) cluster off n fun _ => 0).map (·.2)

/-- The loop of `enext`, with `none` for a panic and for a scan that needs more
rounds. -/
def enextLoop (v : Volume) : Nat → Nat → Entry → Scan → Option (Int × Entry × Scan)
  | 0, _, _, _ => none
  | fuel + 1, off, dp, s =>
      match relocClus g v dp off false with
      | none => none
      | some (none, _, dp) => some (-1, dp, s)
      | some (some off2, _, dp) =>
          match readClus g v dp.curClus off2 32 with
          | none => none
          | some d =>
              if Slot.order d = endOfEntry then some (-1, dp, s)
              else if Slot.order d = emptyEntry then
                enextLoop v fuel ((off + 32) % 2 ^ 32) dp { s with cnt := s.cnt + 1 }
              else if s.cnt ≠ 0 then some (0, dp, s.setCount s.cnt)
              else if Slot.attr d = attrLongName then
                enextLoop v fuel ((off + 32) % 2 ^ 32) dp (s.longSlot d)
              else some (1, dp, s.shortSlot d)

/-- `dp` is valid and `ep` is not. `mem` is what the memory around the name holds,
and `count` what the caller's counter holds. -/
def enext (v : Volume) (dp : Entry) (mem : Int → UInt8) (count off fuel : Nat) :
    Option (Int × Entry × Scan) :=
  if dp.attr &&& attrDirectory = 0 ∨ off % 32 ≠ 0 then none
  else
    enextLoop g v fuel off dp
      { name := zeros 0 (maxFilename + 1) ⟨mem, []⟩
        cnt := 0
        countSet := true
        count := count
        nullStore := false
        info := none }

/-- `strncmp` returns 0. -/
def strncmpEq (a b : Nat → UInt8) : Nat → Nat → Bool
  | 0, _ => true
  | n + 1, i => if a i ≠ b i then false else if a i = 0 then true else strncmpEq a b n (i + 1)

/-- The loop of `dirlookup`. `type` there is the result of a comparison, which is 1
for a run of free slots too, so the name is compared in every round. It returns the
offset of the entry and what `ep` holds of it; each `enext` has `rounds` rounds. -/
def dirlookupLoop (v : Volume) (filename : Nat → UInt8) (rounds : Nat) :
    Nat → Nat → Nat → Entry → (Int → UInt8) → Option (Option (Nat × Option Info) × Entry)
  | 0, _, _, _, _ => none
  | fuel + 1, off, count, dp, mem =>
      match enext g v dp mem count off rounds with
      | none => none
      | some (r, dp, s) =>
          if r = -1 then some (none, dp)
          else if strncmpEq filename (fun i => s.name.bytes i) maxFilename 0 then
            some (some (off, s.info), dp)
          else
            dirlookupLoop v filename rounds fuel ((off + 32 * s.count) % 2 ^ 32) s.count dp
              s.name.bytes

/-- A name other than the two dots, which is not in the entry cache. -/
def dirlookup (v : Volume) (dp : Entry) (filename : Nat → UInt8) (mem : Int → UInt8)
    (rounds fuel : Nat) : Option (Option (Nat × Option Info) × Entry) :=
  match relocClus g v dp 0 false with
  | none => none
  | some (_, _, dp) => dirlookupLoop g v filename rounds fuel 0 0 dp mem

/-- What `reloc_clus` returned, as a `uint32`. -/
def asOffset (off : Option Nat) : Nat := off.getD (2 ^ 32 - 1)

/-- A write of `n` bytes from the kernel. -/
def writeClus (v : Volume) (cluster off n : Nat) (d : Nat → UInt8) : Option Volume :=
  (rwClus g (copyIn (fun a => some (d a)) 0) cluster off n v).map (·.2)

/-- The number of slots that both functions take from the first byte of an entry. -/
def entcnt (v : Volume) (cluster off : Nat) : Option Nat :=
  (readClus g v cluster off 1).map fun d => (d 0).toNat &&& 0xbf

/-- The short entry `d` with another first cluster and size. -/
def setInfo (d : Slot) (firstClus fileSize : Nat) : Slot := fun i =>
  if 20 ≤ i ∧ i < 22 then UInt8.ofNat (firstClus / 2 ^ (16 + 8 * (i - 20)))
  else if 26 ≤ i ∧ i < 28 then UInt8.ofNat (firstClus / 2 ^ (8 * (i - 26)))
  else if 28 ≤ i ∧ i < 32 then UInt8.ofNat (fileSize / 2 ^ (8 * (i - 28)))
  else d i

/-- `eupdate` of a dirty entry at offset `off` of `dp`. -/
def eupdate (v : Volume) (dp : Entry) (off firstClus fileSize : Nat) : Option (Volume × Entry) :=
  match relocClus g v dp off false with
  | none => none
  | some (o, _, dp) =>
      match entcnt g v dp.curClus (asOffset o) with
      | none => none
      | some n =>
          match relocClus g v dp ((off + 32 * n) % 2 ^ 32) false with
          | none => none
          | some (o, _, dp) =>
              match readClus g v dp.curClus (asOffset o) 32 with
              | none => none
              | some de =>
                  match writeClus g v dp.curClus (asOffset o) 32
                      (setInfo de firstClus fileSize) with
                  | none => none
                  | some v => some (v, dp)

/-- The loop of `eremove`, with `off2` for the offset in the cluster. -/
def eremoveLoop : Nat → Volume → Entry → Nat → Nat → Option (Volume × Entry)
  | 0, v, dp, _, _ => some (v, dp)
  | n + 1, v, dp, off, off2 =>
      match writeClus g v dp.curClus off2 1 fun _ => UInt8.ofNat emptyEntry with
      | none => none
      | some v =>
          match relocClus g v dp ((off + 32) % 2 ^ 32) false with
          | none => none
          | some (o, _, dp) => eremoveLoop n v dp ((off + 32) % 2 ^ 32) (asOffset o)

def eremove (v : Volume) (dp : Entry) (off : Nat) : Option (Volume × Entry) :=
  match relocClus g v dp off false with
  | none => none
  | some (o, _, dp) =>
      match entcnt g v dp.curClus (asOffset o) with
      | none => none
      | some n => eremoveLoop g (n + 1) v dp off (asOffset o)

end Directories

end F7ly.Fs.Fat32
