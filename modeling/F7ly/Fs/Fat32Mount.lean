import F7ly.Fs.Fat32
import F7ly.Lib.Bytes

/-!
# FAT32 volumes by their sectors

`fat32_load_mount_info` and `alloc_clus` of `kernel/fs/fat32/fat32.cc`, with the fields of
the boot sector as they are read and sector numbers as the 32-bit numbers they are. A
device is what `bread` returns for each sector, with the sectors that were passed to
`bwrite` in order beside it. `hidd_sec` and `root_clus` are read and not used here.

Where the source divides by a `sec_per_clus` of zero there is no behaviour to model; that
is an error of its own.
-/

namespace F7ly.Fs.Fat32

structure Device where
  sectors : Nat → Nat → UInt8
  written : List Nat

def Device.bwrite (d : Device) (sec : Nat) (data : Nat → UInt8) : Device :=
  { sectors := Function.update d.sectors sec data, written := d.written ++ [sec] }

/-- The little-endian number in `k` bytes of a sector. -/
def leAt (data : Nat → UInt8) (off k : Nat) : Nat :=
  Bytes.ofBytes ((List.range k).map fun i => data (off + i))

/-- A sector with another `uint32` in it. -/
def setWord (data : Nat → UInt8) (off value : Nat) : Nat → UInt8 := fun i =>
  if off ≤ i ∧ i < off + 4 then (Bytes.toBytes 4 value).getD (i - off) 0 else data i

structure Bpb where
  bytsPerSec : UInt16
  secPerClus : UInt8
  rsvdSecCnt : UInt16
  fatCnt : UInt8
  hiddSec : UInt32
  totSec : UInt32
  fatSz : UInt32
  rootClus : UInt32

/-- `mntfs`, and the same fields of `fat`. -/
structure MntFs where
  bpb : Bpb
  firstDataSec : UInt32
  dataSecCnt : UInt32
  dataClusCnt : UInt32
  bytsPerClus : UInt32

inductive MountError where
  /-- Returned as -1. -/
  | notFat32
  /-- Returned as -2. -/
  | sectorSize
  | divideByZero
  deriving DecidableEq

def loadBpb (data : Nat → UInt8) : Bpb where
  bytsPerSec := .ofNat (leAt data 11 2)
  secPerClus := data 13
  rsvdSecCnt := .ofNat (leAt data 14 2)
  fatCnt := data 16
  hiddSec := .ofNat (leAt data 28 4)
  totSec := .ofNat (leAt data 32 4)
  fatSz := .ofNat (leAt data 36 4)
  rootClus := .ofNat (leAt data 44 4)

def loadMountInfo (d : Device) : Except MountError MntFs := do
  let data := d.sectors 0
  if (List.range 5).map (fun i => data (82 + i)) ≠ [0x46, 0x41, 0x54, 0x33, 0x32] then
    throw .notFat32
  let bpb := loadBpb data
  let firstDataSec := bpb.rsvdSecCnt.toUInt32 + bpb.fatCnt.toUInt32 * bpb.fatSz
  let dataSecCnt := bpb.totSec - firstDataSec
  if bpb.secPerClus = 0 then throw .divideByZero
  let dataClusCnt := dataSecCnt / bpb.secPerClus.toUInt32
  let bytsPerClus := bpb.secPerClus.toUInt32 * bpb.bytsPerSec.toUInt32
  if bsize ≠ bpb.bytsPerSec.toNat then throw .sectorSize
  return { bpb, firstDataSec, dataSecCnt, dataClusCnt, bytsPerClus }

namespace MntFs

variable (fat : MntFs)

def firstSecOfClus (cluster : UInt32) : UInt32 :=
  (cluster - 2) * fat.bpb.secPerClus.toUInt32 + fat.firstDataSec

/-- The loop of `zero_clus`, with `n` sectors left. -/
def zeroLoop : Nat → UInt32 → Device → Device
  | 0, _, d => d
  | n + 1, sec, d => zeroLoop n (sec + 1) (d.bwrite sec.toNat fun _ => 0)

def zeroClus (d : Device) (cluster : UInt32) : Device :=
  zeroLoop fat.bpb.secPerClus.toNat (fat.firstSecOfClus cluster) d

def entPerSec : Nat := fat.bpb.bytsPerSec.toNat / 4

/-- The inner loop of `alloc_clus`: the first entry of a sector that is zero. -/
def freeEntry (data : Nat → UInt8) : Option Nat :=
  (List.range fat.entPerSec).find? fun j => leAt data (4 * j) 4 = 0

/-- The outer loop of `alloc_clus`, with `n` sectors left. The panic at its end is `none`. -/
def allocLoop : Nat → UInt32 → UInt32 → Device → Option (UInt32 × Device)
  | 0, _, _, _ => none
  | n + 1, i, sec, d =>
      let data := d.sectors sec.toNat
      match fat.freeEntry data with
      | some j =>
          let d := d.bwrite sec.toNat (setWord data (4 * j) (eoc + 7))
          let clus := i * .ofNat fat.entPerSec + .ofNat j
          some (clus, fat.zeroClus d clus)
      | none => allocLoop n (i + 1) (sec + 1) d

def allocClus (d : Device) : Option (UInt32 × Device) :=
  fat.allocLoop fat.bpb.fatSz.toNat 0 fat.bpb.rsvdSecCnt.toUInt32 d

end MntFs

end F7ly.Fs.Fat32
