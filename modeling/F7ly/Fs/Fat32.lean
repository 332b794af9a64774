import Mathlib

/-!
# FAT32 files

The cluster functions, `eread`, `ewrite` and `etrunc` of
`kernel/fs/fat32/fat32.cc`. The FAT is its entries, and the data is what `bread`
returns for a sector. The sector size of a volume is `BSIZE`; another one is not
mounted. A `panic` is `none`.

User memory is bytes that can be read and bytes that can be written. A copy stops
at the first one that cannot, and what came before it is copied.
-/

namespace F7ly.Fs.Fat32

def bsize : Nat := 512

/-- `FAT32_EOC`. -/
def eoc : Nat := 0x0ffffff8

def attrReadOnly : Nat := 0x01
def attrDirectory : Nat := 0x10

/-- `fat` of a volume that is well formed: the data clusters lie in the volume, and
their numbers are below the end marks. `fat32_load_mount_info` takes the numbers from
the boot sector and tests nothing but the sector size. -/
structure Geometry where
  firstDataSec : Nat
  dataClusCnt : Nat
  secPerClus : Nat
  /-- The entries of one FAT, `fat_sz * byts_per_sec / 4`. -/
  fatEntries : Nat
  secPerClus_pos : 0 < secPerClus
  data_le : firstDataSec + dataClusCnt * secPerClus ≤ 2 ^ 32
  dataClusCnt_lt : dataClusCnt + 1 < eoc

def Geometry.bytsPerClus (g : Geometry) : Nat := g.secPerClus * bsize

structure Volume where
  fat : Nat → Nat
  sectors : Nat → Nat → UInt8

/-- The fields of `fat32_entry` that say where a file is. -/
structure Entry where
  attr : Nat
  firstClus : Nat
  fileSize : Nat
  curClus : Nat
  clusCnt : Nat
  dirty : Bool
  deriving DecidableEq

/-- A `uint` returned as an `int`. -/
def asInt (n : Nat) : Int := if n < 2 ^ 31 then n else n - 2 ^ 32

section Clusters

variable (g : Geometry)

def firstSecOfClus (cluster : Nat) : Nat :=
  ((cluster + 2 ^ 32 - 2) * g.secPerClus + g.firstDataSec) % 2 ^ 32

def readFat (v : Volume) (cluster : Nat) : Nat :=
  if cluster ≥ eoc then cluster
  else if cluster > g.dataClusCnt + 1 then 0
  else v.fat cluster

def writeFat (v : Volume) (cluster content : Nat) : Volume :=
  if cluster > g.dataClusCnt + 1 then v
  else { v with fat := Function.update v.fat cluster content }

def zeroClus (v : Volume) (cluster : Nat) : Volume :=
  { v with
    sectors := fun sec i =>
      if firstSecOfClus g cluster ≤ sec ∧ sec < firstSecOfClus g cluster + g.secPerClus then 0
      else v.sectors sec i }

def allocClus (v : Volume) : Option (Nat × Volume) :=
  match (List.range g.fatEntries).find? (v.fat · = 0) with
  | some clus =>
      some (clus, zeroClus g { v with fat := Function.update v.fat clus (eoc + 7) } clus)
  | none => none

def freeClus (v : Volume) (cluster : Nat) : Volume := writeFat g v cluster 0

/-- The loop of `rw_clus`. A round moves `m` bytes between offset `off` of a
sector and byte `tot` of the caller's buffer. -/
def rwLoop {σ : Type} (io : Nat → Nat → Nat → Nat → σ → σ × Bool) (n : Nat) :
    Nat → Nat → Nat → Nat → σ → Nat × σ
  | 0, _, _, tot, s => (tot, s)
  | fuel + 1, sec, off, tot, s =>
      if tot < n then
        let m := min (bsize - off % bsize) (n - tot)
        match io sec (off % bsize) m tot s with
        | (s, true) => rwLoop io n fuel (sec + 1) (off + m) (tot + m) s
        | (s, false) => (tot, s)
      else (tot, s)

/-- Every round moves a byte, so there are no more rounds than bytes. -/
def rwClus {σ : Type} (io : Nat → Nat → Nat → Nat → σ → σ × Bool) (cluster off n : Nat)
    (s : σ) : Option (Nat × σ) :=
  if (off + n) % 2 ^ 32 > g.bytsPerClus then none
  else some (rwLoop io n n (firstSecOfClus g cluster + off / bsize) (off % bsize) 0 s)

end Clusters

/-- How many bytes from `a` on can be accessed, up to `n`. -/
def accessible (p : Nat → Bool) (a : Nat) : Nat → Nat
  | 0 => 0
  | n + 1 => if p a then accessible p (a + 1) n + 1 else 0

/-- `either_copyin` into a sector and `bwrite`. -/
def copyIn (mem : Nat → Option UInt8) (src sec off m tot : Nat) (v : Volume) : Volume × Bool :=
  let k := accessible (fun a => (mem a).isSome) (src + tot) m
  ({ v with
    sectors := Function.update v.sectors sec fun i =>
      if off ≤ i ∧ i < off + k then (mem (src + tot + (i - off))).getD 0
      else v.sectors sec i }, k = m)

/-- `either_copyout` from a sector. -/
def copyOut (v : Volume) (writable : Nat → Bool) (dst sec off m tot : Nat)
    (out : Nat → UInt8) : (Nat → UInt8) × Bool :=
  let k := accessible writable (dst + tot) m
  (fun a => if dst + tot ≤ a ∧ a < dst + tot + k then v.sectors sec (off + (a - (dst + tot)))
    else out a, k = m)

section Files

variable (g : Geometry)

/-- The first loop of `reloc_clus`. `clus` is an `int` there, so a large entry is
negative and no end. -/
def relocForward (alloc : Bool) : Nat → Volume → Entry → Option (Bool × Volume × Entry)
  | 0, v, e => some (true, v, e)
  | k + 1, v, e =>
      let clus := readFat g v e.curClus
      if eoc ≤ clus ∧ clus < 2 ^ 31 then
        if alloc then
          match allocClus g v with
          | none => none
          | some (clus, v) =>
              relocForward alloc k (writeFat g v e.curClus clus)
                { e with curClus := clus, clusCnt := e.clusCnt + 1 }
        else some (false, v, { e with curClus := e.firstClus, clusCnt := 0 })
      else relocForward alloc k v { e with curClus := clus, clusCnt := e.clusCnt + 1 }

/-- The second loop, from the start of the file. -/
def relocRestart (v : Volume) : Nat → Entry → Option Entry
  | 0, e => some e
  | k + 1, e =>
      let clus := readFat g v e.curClus
      if clus ≥ eoc then none
      else relocRestart v k { e with curClus := clus, clusCnt := e.clusCnt + 1 }

/-- The offset in the cluster, or `none` for -1. -/
def relocClus (v : Volume) (e : Entry) (off : Nat) (alloc : Bool) :
    Option (Option Nat × Volume × Entry) :=
  let clusNum := off / g.bytsPerClus
  match relocForward g alloc (clusNum - e.clusCnt) v e with
  | none => none
  | some (false, v, e) => some (none, v, e)
  | some (true, v, e) =>
      if clusNum < e.clusCnt then
        match relocRestart g v clusNum { e with curClus := e.firstClus, clusCnt := 0 } with
        | none => none
        | some e => some (some (off % g.bytsPerClus), v, e)
      else some (some (off % g.bytsPerClus), v, e)

/-- The loop of `eread`. Like `ewrite`, it does not look at what `reloc_clus`
returned. -/
def ereadLoop (v : Volume) (writable : Nat → Bool) (dst n : Nat) :
    Nat → Nat → Nat → Entry → (Nat → UInt8) → Option (Nat × Entry × (Nat → UInt8))
  | 0, _, tot, e, out => some (tot, e, out)
  | fuel + 1, off, tot, e, out =>
      if e.curClus < eoc ∧ tot < n then
        match relocClus g v e off false with
        | none => none
        | some (_, _, e) =>
            let m := min (g.bytsPerClus - off % g.bytsPerClus) (n - tot)
            match rwClus g (copyOut v writable (dst + tot)) e.curClus
                (off % g.bytsPerClus) m out with
            | none => none
            | some (k, out) =>
                if k = m then ereadLoop v writable dst n fuel (off + m) (tot + m) e out
                else some (tot, e, out)
      else some (tot, e, out)

/-- The bytes read, as the `int` that is returned. -/
def eread (v : Volume) (e : Entry) (writable : Nat → Bool) (dst off n : Nat)
    (out : Nat → UInt8) : Option (Int × Entry × (Nat → UInt8)) :=
  if off > e.fileSize ∨ off + n ≥ 2 ^ 32 ∨ e.attr &&& attrDirectory ≠ 0 then
    some (0, e, out)
  else
    let n := if off + n > e.fileSize then e.fileSize - off else n
    match ereadLoop g v writable dst n n off 0 e out with
    | none => none
    | some (tot, e, out) => some (asInt tot, e, out)

/-- The loop of `ewrite`. -/
def ewriteLoop (mem : Nat → Option UInt8) (src n : Nat) :
    Nat → Nat → Nat → Volume → Entry → Option (Nat × Nat × Volume × Entry)
  | 0, off, tot, v, e => some (tot, off, v, e)
  | fuel + 1, off, tot, v, e =>
      if tot < n then
        match relocClus g v e off true with
        | none => none
        | some (_, v, e) =>
            let m := min (g.bytsPerClus - off % g.bytsPerClus) (n - tot)
            match rwClus g (copyIn mem (src + tot)) e.curClus (off % g.bytsPerClus) m v with
            | none => none
            | some (k, v) =>
                if k = m then ewriteLoop mem src n fuel (off + m) (tot + m) v e
                else some (tot, off, v, e)
      else some (tot, off, v, e)

def ewrite (v : Volume) (e : Entry) (mem : Nat → Option UInt8) (src off n : Nat) :
    Option (Int × Volume × Entry) :=
  if off > e.fileSize ∨ off + n ≥ 2 ^ 32 ∨ e.attr &&& attrReadOnly ≠ 0 then
    some (-1, v, e)
  else
    let start :=
      if e.firstClus = 0 then
        match allocClus g v with
        | none => none
        | some (clus, v) =>
            some (v, { e with curClus := clus, firstClus := clus, clusCnt := 0, dirty := true })
      else some (v, e)
    match start with
    | none => none
    | some (v, e) =>
        match ewriteLoop g mem src n n off 0 v e with
        | none => none
        | some (tot, off, v, e) =>
            some (asInt tot, v,
              if n > 0 ∧ off > e.fileSize then { e with fileSize := off, dirty := true } else e)

/-- The loop of `etrunc`; a chain without an end never ends. -/
def truncLoop : Nat → Nat → Volume → Option Volume
  | 0, clus, v => if 2 ≤ clus ∧ clus < eoc then none else some v
  | fuel + 1, clus, v =>
      if 2 ≤ clus ∧ clus < eoc then truncLoop fuel (readFat g v clus) (freeClus g v clus)
      else some v

/-- `etrunc`, of a chain of at most `fuel` clusters. The cached position stays. -/
def etrunc (fuel : Nat) (v : Volume) (e : Entry) : Option (Volume × Entry) :=
  match truncLoop g fuel e.firstClus v with
  | none => none
  | some v => some (v, { e with fileSize := 0, firstClus := 0, dirty := true })

end Files

end F7ly.Fs.Fat32
