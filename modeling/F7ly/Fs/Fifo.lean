import Mathlib.Data.List.AList

/-!
# Named pipes

`FifoManager` of `kernel/fs/vfs/fifo_manager.cc`, with the FIFO branch of
`vfs_openat` and the destructor of `pipe_file`, for one path. An open looks the
pipe up or makes it, and registers its ends afterwards, each step under the lock
of the manager; the destructor closes the ends one after the other in the same
way. What a register finds is not looked at by the caller.

A deleted pipe is none of `pipes` any more. Pipes that are made later are others.
Whether a read or a write sleeps depends on the data and is left open.
-/

namespace F7ly.Fs.Fifo

/-- `is_writer`. -/
inductive End where
  | reader
  | writer
  deriving DecidableEq, Repr

def End.other : End → End
  | .reader => .writer
  | .writer => .reader

/-- `FifoInfo`: the pipe, and the `reader_count` and the `writer_count`. -/
structure FifoInfo where
  pipe : Nat
  count : End → Int

/-- `_read_is_open` and `_write_is_open` of a pipe. -/
abbrev Flags := End → Bool

/-- A `pipe_file`: the ends that its open has still to register, and the ends
that it has registered and not closed. -/
structure PipeFile where
  pipe : Nat
  todo : List End
  held : List End

/-- `O_ACCMODE`. -/
inductive Access where
  | rdonly
  | wronly
  | rdwr
  deriving DecidableEq, Repr

/-- The ends of a file, in the order in which they are registered and closed. -/
def Access.ends : Access → List End
  | .rdonly => [.reader]
  | .wronly => [.writer]
  | .rdwr => [.reader, .writer]

structure System where
  info : Option FifoInfo
  pipes : Nat → Option Flags
  nextPipe : Nat
  files : AList fun _ : Nat => PipeFile
  /-- The tasks asleep in a read or a write, with the pipe. -/
  asleep : Nat → Option (Nat × End)

inductive Op where
  /-- `get_or_create_fifo`, and the new `pipe_file`. -/
  | lookup (f : Nat) (access : Access)
  /-- One `open_fifo` of `vfs_openat`. -/
  | register (f : Nat)
  /-- One `close_fifo` of the destructor. -/
  | close (f : Nat)
  | sleep (t f : Nat) (e : End)
  | wake (t : Nat)
  deriving DecidableEq, Repr

namespace System

def boot : System where
  info := none
  pipes _ := none
  nextPipe := 0
  files := ∅
  asleep _ := none

def getOrCreateFifo (s : System) : Nat × System :=
  match s.info with
  | some info => (info.pipe, s)
  | none =>
      (s.nextPipe,
        { s with
          info := some ⟨s.nextPipe, fun _ => 0⟩
          pipes := Function.update s.pipes s.nextPipe (some fun _ => false)
          nextPipe := s.nextPipe + 1 })

def setOpen (s : System) (pipe : Nat) (e : End) (b : Bool) : Nat → Option Flags :=
  Function.update s.pipes pipe ((s.pipes pipe).map fun flags => Function.update flags e b)

def openFifo (s : System) (e : End) : Bool × System :=
  match s.info with
  | none => (false, s)
  | some info =>
      (true,
        { s with
          info := some { info with count := Function.update info.count e (info.count e + 1) }
          pipes := s.setOpen info.pipe e true })

def closeFifo (s : System) (e : End) : System :=
  match s.info with
  | none => s
  | some info =>
      let n := info.count e - 1
      let count := Function.update info.count e (if n ≤ 0 then 0 else n)
      let pipes := if n ≤ 0 then s.setOpen info.pipe e false else s.pipes
      if count .reader = 0 ∧ count .writer = 0 then
        { s with info := none, pipes := Function.update pipes info.pipe none }
      else { s with info := some { info with count }, pipes }

def step (s : System) : Op → Option System
  | .lookup f access =>
      if f ∈ s.files then none
      else
        let (pipe, s) := s.getOrCreateFifo
        some { s with files := s.files.insert f ⟨pipe, access.ends, []⟩ }
  | .register f =>
      match s.files.lookup f with
      | some ⟨pipe, e :: todo, held⟩ =>
          let (_, s) := s.openFifo e
          some { s with files := s.files.insert f ⟨pipe, todo, held ++ [e]⟩ }
      | _ => none
  | .close f =>
      match s.files.lookup f with
      | some ⟨pipe, [], e :: held⟩ =>
          let s := s.closeFifo e
          some { s with
            files := if held = [] then s.files.erase f else s.files.insert f ⟨pipe, [], held⟩ }
      | _ => none
  | .sleep t f e =>
      match s.files.lookup f with
      | some ⟨pipe, [], held⟩ =>
          if e ∈ held then
            some { s with asleep := Function.update s.asleep t (some (pipe, e)) }
          else none
      | _ => none
  | .wake t => some { s with asleep := Function.update s.asleep t none }

end System

end F7ly.Fs.Fifo
