import F7ly.Lib.ByteFile
import Mathlib.Logic.Function.Basic

/-!
# splice, copy_file_range and sendfile

The three calls that move data inside the kernel
(`kernel/sys/syscall_handler.cc`): chunks of at most 64 KiB are read from one
descriptor and written to the other, each chunk with as many writes as it takes.

What reads and writes come to is a script: how many bytes at most a read gives
or a write takes, or an error. A call runs on the script it uses up; on any
other it is undefined. A script also tells which accesses to user memory and
which allocations fail. Descriptors are regular files and pipes.

A write that fails changes nothing here. `normal_file::write` can also fail after it has
taken the bytes, when its write buffer is full and cannot be flushed; then `_file_ptr` and
the size are already those after the write, and the bytes stay in the buffer.
-/

namespace F7ly.Fs.Transfer

/-- `k_syscall_io_chunk_size`. -/
def ioChunkSize : Nat := 64 * 1024

inductive Errno where
  | badf
  | inval
  | spipe
  | nomem
  | fault
  /-- What `read` or `write` returned. -/
  | io (e : Nat)
  deriving DecidableEq

structure Store where
  /-- Contents of the regular files. -/
  file : Nat → ByteFile
  /-- Bytes in the pipes. -/
  pipe : Nat → List UInt8
  /-- `_file_ptr` of the open files. -/
  offset : Nat → Nat

inductive Target where
  | file (inode opened : Nat)
  | pipe (id : Nat)
  deriving DecidableEq

def Target.isPipe : Target → Bool
  | .file _ _ => false
  | .pipe _ => true

structure Descriptor where
  target : Target
  readable : Bool
  writable : Bool
  /-- O_PATH. -/
  pathOnly : Bool
  /-- O_APPEND. -/
  append : Bool

/-- `f->read(buf, n, off, upgrade)` that gives up to `n` bytes. -/
def Store.read (s : Store) (f : Descriptor) (n : Nat) (off : Int) (upgrade : Bool) :
    List UInt8 × Store :=
  match f.target with
  | .file inode opened =>
      let pos := if off < 0 then s.offset opened else off.toNat
      let bytes := (s.file inode).read pos n
      (bytes,
        if upgrade then { s with offset := Function.update s.offset opened (pos + bytes.length) }
        else s)
  | .pipe id =>
      ((s.pipe id).take n, { s with pipe := Function.update s.pipe id ((s.pipe id).drop n) })

/-- `f->write(buf, len, off, upgrade)` that takes all of `data`. -/
def Store.write (s : Store) (f : Descriptor) (data : List UInt8) (off : Int) (upgrade : Bool) :
    Store :=
  match f.target with
  | .file inode opened =>
      let pos :=
        if f.append then (s.file inode).size
        else if off < 0 then s.offset opened
        else off.toNat
      { s with
        file := Function.update s.file inode ((s.file inode).write pos data)
        offset :=
          if upgrade then Function.update s.offset opened (pos + data.length) else s.offset }
  | .pipe id => { s with pipe := Function.update s.pipe id (s.pipe id ++ data) }

inductive Reading where
  | fails (e : Nat)
  | gives (n : Nat)

inductive Writing where
  | fails (e : Nat)
  | takes (n : Nat)

structure Round where
  reading : Reading
  writings : List Writing

structure Script where
  rounds : List Round
  /-- The temporary buffer is allocated. -/
  alloc : Bool
  /-- `copy_in` and `copy_out` of the two offsets. -/
  inIn : Bool
  inOut : Bool
  outIn : Bool
  outOut : Bool

/-- What is left of the loop over the writes of a chunk. -/
structure Written where
  count : Nat
  store : Store
  off : Int
  error : Option Errno

/-- Writes a chunk to the output; `explicit` tells whether it has an offset. -/
def writeChunk (f : Descriptor) (explicit : Bool) :
    List Writing → List UInt8 → Store → Int → Option Written
  | [], [], s, off => some ⟨0, s, off, none⟩
  | [], _ :: _, _, _ => none
  | _ :: _, [], _, _ => none
  | w :: ws, b :: bs, s, off =>
      match w with
      | .fails e => if ws.isEmpty then some ⟨0, s, off, some (.io e)⟩ else none
      | .takes 0 => if ws.isEmpty then some ⟨0, s, off, none⟩ else none
      | .takes (n + 1) =>
          let data := (b :: bs).take (n + 1)
          let s := s.write f data (if explicit then off else -1) !explicit
          let off := if explicit then off + data.length else off
          (writeChunk f explicit ws ((b :: bs).drop (n + 1)) s off).map fun r =>
            { r with count := data.length + r.count }

/-- What the main loop comes to. -/
structure Progress where
  total : Nat
  store : Store
  offIn : Int
  offOut : Int
  error : Option Errno

structure Setting where
  input : Descriptor
  output : Descriptor
  explicitIn : Bool
  explicitOut : Bool
  /-- A read from a pipe that gives less than it was asked for is the last. -/
  stopShort : Bool

def transfer (c : Setting) :
    List Round → (remaining : Nat) → Store → (offIn offOut : Int) → Option Progress
  | [], 0, s, offIn, offOut => some ⟨0, s, offIn, offOut, none⟩
  | [], _ + 1, _, _, _ => none
  | _ :: _, 0, _, _, _ => none
  | r :: rs, remaining + 1, s, offIn, offOut =>
      let want := min (remaining + 1) ioChunkSize
      match r.reading with
      | .fails e =>
          if r.writings.isEmpty && rs.isEmpty then some ⟨0, s, offIn, offOut, some (.io e)⟩
          else none
      | .gives n =>
          let (bytes, s) :=
            s.read c.input (min want n) (if c.explicitIn then offIn else -1) !c.explicitIn
          if bytes = [] then
            if r.writings.isEmpty && rs.isEmpty then some ⟨0, s, offIn, offOut, none⟩ else none
          else
            (writeChunk c.output c.explicitOut r.writings bytes s offOut).bind fun w =>
              let offIn := if c.explicitIn then offIn + w.count else offIn
              if w.count < bytes.length ∨ w.error.isSome ∨ (c.stopShort ∧ bytes.length < want) then
                if rs.isEmpty then some ⟨w.count, w.store, offIn, w.off, w.error⟩ else none
              else
                (transfer c rs (remaining + 1 - w.count) w.store offIn w.off).map fun p =>
                  { p with total := w.count + p.total }

/-- What a call returns and leaves: the store and the offsets in user memory. -/
structure Return where
  value : Except Errno Nat
  store : Store
  offIn : Option Int
  offOut : Option Int

structure Args where
  input : Descriptor
  output : Descriptor
  offIn : Option Int
  offOut : Option Int
  len : Nat

/-- A call that returns before its loop. -/
inductive Early where
  | zero
  | refused (e : Errno)

def Early.value : Early → Except Errno Nat
  | .zero => .ok 0
  | .refused e => .error e

/-- The first check that applies ends the call. -/
def firstOf (checks : List (Bool × Early)) : Option Early := (checks.find? (·.1)).map (·.2)

def Args.early (a : Args) (sc : Script) (s : Store) (v : Early) : Option Return :=
  if sc.rounds.isEmpty then some ⟨v.value, s, a.offIn, a.offOut⟩ else none

/-- The result of a call that ends with `total` bytes moved. -/
def Progress.value (p : Progress) : Except Errno Nat :=
  if p.total > 0 then .ok p.total
  else
    match p.error with
    | some e => .error e
    | none => .ok 0

/-- The end of `splice` and `copy_file_range`: the offsets go to user memory. -/
def Args.finish (a : Args) (sc : Script) (p : Progress) : Return :=
  let offIn := a.offIn.map fun _ => p.offIn
  let offOut := a.offOut.map fun _ => p.offOut
  if p.total = 0 then ⟨p.value, p.store, a.offIn, a.offOut⟩
  else if a.offIn.isSome ∧ !sc.outIn then ⟨.error .fault, p.store, a.offIn, a.offOut⟩
  else if a.offOut.isSome ∧ !sc.outOut then ⟨.error .fault, p.store, offIn, a.offOut⟩
  else ⟨p.value, p.store, offIn, offOut⟩

def negative (off : Option Int) : Bool := off.any (· < 0)

/-- The loop of `splice` and `copy_file_range`. -/
def Args.move (a : Args) (sc : Script) (s : Store) (stopShort : Bool) : Option Return :=
  (transfer ⟨a.input, a.output, a.offIn.isSome, a.offOut.isSome, stopShort⟩ sc.rounds a.len s
    (a.offIn.getD 0) (a.offOut.getD 0)).map (a.finish sc)

/-- The checks of `splice`. -/
def Args.checkSplice (a : Args) (sc : Script) : Option Early :=
  let inIsPipe := a.input.target.isPipe
  let outIsPipe := a.output.target.isPipe
  firstOf [
    (!inIsPipe && !outIsPipe, .refused .inval),
    (inIsPipe && a.offIn.isSome, .refused .spipe),
    (outIsPipe && a.offOut.isSome, .refused .spipe),
    (a.input.pathOnly || a.output.pathOnly, .refused .badf),
    (!a.input.readable || !a.output.writable, .refused .badf),
    (!outIsPipe && a.output.append, .refused .inval),
    (a.len = 0, .zero),
    (!sc.alloc, .refused .nomem),
    (a.offIn.isSome && !sc.inIn, .refused .fault),
    (negative a.offIn, .refused .inval),
    (a.offOut.isSome && !sc.inOut, .refused .fault),
    (negative a.offOut, .refused .inval)]

def splice (a : Args) (sc : Script) (s : Store) : Option Return :=
  match a.checkSplice sc with
  | some v => a.early sc s v
  | none => a.move sc s a.input.target.isPipe

/-- The checks of `copy_file_range`. -/
def Args.checkCopy (a : Args) (flags : Nat) (sc : Script) : Option Early :=
  firstOf [
    (flags ≠ 0, .refused .inval),
    (a.len = 0, .zero),
    (a.input.pathOnly || a.output.pathOnly || !a.input.readable || !a.output.writable,
      .refused .badf),
    (a.input.target.isPipe || a.output.target.isPipe, .refused .inval),
    (a.output.append, .refused .badf),
    (a.offIn.isSome && !sc.inIn, .refused .fault),
    (negative a.offIn, .refused .inval),
    (a.offOut.isSome && !sc.inOut, .refused .fault),
    (negative a.offOut, .refused .inval),
    (!sc.alloc, .refused .nomem)]

def copyFileRange (flags : Nat) (a : Args) (sc : Script) (s : Store) : Option Return :=
  match a.checkCopy flags sc with
  | some v => a.early sc s v
  | none => a.move sc s false

/-- `in_f->lseek(off, SEEK_SET)`. -/
def Store.seek (s : Store) (f : Descriptor) (off : Int) : Store :=
  match f.target with
  | .file _ opened => { s with offset := Function.update s.offset opened off.toNat }
  | .pipe _ => s

/-- `get_file_offset`. -/
def Store.tell (s : Store) (f : Descriptor) : Nat :=
  match f.target with
  | .file _ opened => s.offset opened
  | .pipe _ => 0

/-- The end of `sendfile`. -/
def Args.finishSend (a : Args) (sc : Script) (p : Progress) : Return :=
  if a.offIn.isSome then
    if !sc.outIn then ⟨.error .fault, p.store, a.offIn, a.offOut⟩
    else ⟨p.value, p.store, some p.offIn, a.offOut⟩
  else
    ⟨p.value, if p.total > 0 then p.store.seek a.input p.offIn else p.store, a.offIn, a.offOut⟩

/-- The checks of `sendfile`. -/
def Args.checkSend (a : Args) (sc : Script) : Option Early :=
  firstOf [
    (a.len = 0, .zero),
    (a.offIn.isSome && a.input.target.isPipe, .refused .spipe),
    (a.offIn.isSome && !sc.inIn, .refused .fault),
    (!sc.alloc, .refused .nomem)]

/-- `sendfile`, which has no output offset; the input is read at an offset of the
call's own, which is the file's if none is given. -/
def sendfile (a : Args) (sc : Script) (s : Store) : Option Return :=
  match a.checkSend sc with
  | some v => a.early sc s v
  | none =>
      (transfer ⟨a.input, a.output, true, false, false⟩ sc.rounds a.len s
        (a.offIn.getD (s.tell a.input)) 0).map (a.finishSend sc)

inductive Call where
  | splice
  | copyFileRange (flags : Nat)
  | sendfile
  deriving DecidableEq

def Call.args (c : Call) (a : Args) : Args :=
  match c with
  | .sendfile => { a with offOut := none }
  | _ => a

def Call.run (c : Call) (a : Args) (sc : Script) (s : Store) : Option Return :=
  match c with
  | .splice => F7ly.Fs.Transfer.splice (c.args a) sc s
  | .copyFileRange flags => F7ly.Fs.Transfer.copyFileRange flags (c.args a) sc s
  | .sendfile => F7ly.Fs.Transfer.sendfile (c.args a) sc s

end F7ly.Fs.Transfer
