import F7ly.Lib.Ring

/-!
# Pipes

`proc::ipc::Pipe` of `kernel/proc/pipe.cc`. The pipe is a ring of bytes under
a lock. The data calls drop the lock in two places: while they sleep on a
full or empty pipe, and while the user range of the next copy is checked. A
call is therefore a thread with a program point, and the system takes one
round of one thread's loop at a time; between two rounds another thread runs
only if the lock is free.

What a round learns from outside the pipe comes with it: whether the process
was killed, whether a signal is pending, whether the user range check or the
copy succeeds, and the bytes found at the writer's address. Waking, waiter
bookkeeping and asynchronous signals do not touch the ring and are left out,
so a sleeping thread may resume at any time.

The array is a function, also past its allocated size: a store there is a
store the pipe's other operations never read.
-/

namespace F7ly.Proc

open F7ly.Ring

def defaultPipeSize : Nat := 4096
def privilegedDefaultPipeSize : Nat := 65536
def minPipeSize : Nat := 256
def maxPipeSize : Nat := 65536

def sysEINTR : Int := -4
def sysEAGAIN : Int := -11
def sysEFAULT : Int := -14
def sysEPIPE : Int := -32

structure Pipe where
  buffer : Nat → UInt8
  pipeSize : Nat
  head : Nat
  tail : Nat
  count : Nat
  readIsOpen : Bool
  writeIsOpen : Bool

namespace Pipe

/-- The constructor, on the storage `new` returned. -/
def new (storage : Nat → UInt8) : Pipe :=
  { buffer := storage, pipeSize := defaultPipeSize, head := 0, tail := 0,
    count := 0, readIsOpen := false, writeIsOpen := false }

/-- `alloc`: a privileged process gets the larger buffer when there is memory
for it. -/
def alloc (p : Pipe) (privileged : Bool) (newBuffer : Option (Nat → UInt8)) : Pipe :=
  let p :=
    if privileged ∧ p.pipeSize < privilegedDefaultPipeSize then
      match newBuffer with
      | some buffer => { p with buffer, pipeSize := privilegedDefaultPipeSize }
      | none => p
    else p
  { p with readIsOpen := true, writeIsOpen := true, head := 0, tail := 0,
           count := 0 }

def push (p : Pipe) (data : UInt8) : Pipe :=
  if p.count ≥ p.pipeSize then p
  else
    { p with buffer := blit p.buffer p.tail 1 fun _ => data,
             tail := (p.tail + 1) % p.pipeSize, count := p.count + 1 }

/-- How much a bulk write moves in one round. -/
def writeChunk (p : Pipe) (remaining : Nat) : Nat :=
  let writable := p.pipeSize - p.count
  let chunk := if remaining < writable then remaining else writable
  let tailRoom := p.pipeSize - p.tail
  if chunk > tailRoom then tailRoom else chunk

/-- The round itself, from the source's address on. -/
def writeBulk (p : Pipe) (chunk : Nat) (src : Nat → UInt8) : Pipe :=
  { p with buffer := blit p.buffer p.tail chunk src,
           tail := (p.tail + chunk) % p.pipeSize, count := p.count + chunk }

def readChunk (p : Pipe) (remaining : Nat) : Nat :=
  let chunk := if remaining < p.count then remaining else p.count
  let headRoom := p.pipeSize - p.head
  if chunk > headRoom then headRoom else chunk

def readBulk (p : Pipe) (chunk : Nat) : Pipe :=
  { p with head := (p.head + chunk) % p.pipeSize, count := p.count - chunk }

/-- The copy loop of `set_pipe_size` after `n` rounds: the new buffer and
`temp_head`. -/
def relinearize (p : Pipe) (newBuffer : Nat → UInt8) :
    Nat → (Nat → UInt8) × Nat
  | 0 => (newBuffer, p.head)
  | n + 1 =>
      let (buffer, tempHead) := relinearize p newBuffer n
      (blit buffer n 1 fun _ => p.buffer tempHead, (tempHead + 1) % p.pipeSize)

/-- `set_pipe_size`, on the storage `new` returned. -/
def setPipeSize (p : Pipe) (newSize : Nat) (newBuffer : Option (Nat → UInt8)) : Int × Pipe :=
  if newSize < minPipeSize ∨ newSize > maxPipeSize then (-1, p)
  else if newSize < p.count then (-1, p)
  else
    match newBuffer with
    | none => (-1, p)
    | some newBuffer =>
        if p.count > 0 then
          (newSize,
            { p with buffer := (relinearize p newBuffer p.count).1,
                     pipeSize := newSize, head := 0, tail := p.count })
        else
          (newSize, { p with buffer := newBuffer, pipeSize := newSize,
                             head := 0, tail := 0 })

end Pipe

inductive PipeCall where
  | write
  | writeInKernel
  | writeFromUser
  | read
  | readToUser
  deriving DecidableEq, Repr

/-- Where a call is in its body while it holds the lock: in the readers' first
wait, at the head of its loop with `i` bytes moved, or back from the check of
the user range. -/
inductive Point where
  | wait
  | loop (i : Nat)
  | copy (i : Nat)

/-- Where a call is altogether. -/
inductive Pc where
  | start
  | held (pt : Point)
  | asleep (pt : Point)
  | checking (i : Nat)
  | done (ret : Int)

/-- What a round finds outside the pipe; `src` is memory from the caller's
address on. -/
structure Outside where
  killed : Bool
  signalPending : Bool
  copyOk : Bool
  src : Nat → UInt8

/-- The byte count, if any byte was moved, or else the error. -/
def partialOr (i : Nat) (err : Int) : Int := if i > 0 then i else err

/-- One round of a write call: the pipe, the bytes it took in, and where the
call goes on. -/
def writeRound (call : PipeCall) (n : Int) (nonblock : Bool) (out : Outside)
    (p : Pipe) : Point → Pipe × List UInt8 × Pc
  | .wait => (p, [], .held (.loop 0))
  | .loop i =>
      if ¬ (i : Int) < n then (p, [], .done i)
      else if !p.readIsOpen || out.killed then
        (p, [], .done (if !p.readIsOpen && !out.killed then sysEPIPE else -1))
      else if p.count ≥ p.pipeSize then
        if call ≠ .write ∧ out.signalPending then
          (p, [], .done (partialOr i sysEINTR))
        else if nonblock then (p, [], .done (partialOr i sysEAGAIN))
        else (p, [], .asleep (.loop i))
      else
        match call with
        | .write =>
            if out.copyOk then
              (p.push (out.src i), [out.src i], .held (.loop (i + 1)))
            else (p, [], .done i)
        | .writeInKernel =>
            let chunk := p.writeChunk (n - i).toNat
            let src := fun k => out.src (i + k)
            (p.writeBulk chunk src, cells src chunk, .held (.loop (i + chunk)))
        | _ => (p, [], .checking i)
  | .copy i =>
      if !p.readIsOpen || out.killed || p.count ≥ p.pipeSize then
        (p, [], .held (.loop i))
      else if out.copyOk then
        let chunk := p.writeChunk (n - i).toNat
        let src := fun k => out.src (i + k)
        (p.writeBulk chunk src, cells src chunk, .held (.loop (i + chunk)))
      else (p, [], .done (partialOr i sysEFAULT))

/-- The exits both waiting loops of the readers share. -/
def readWait (nonblock : Bool) (out : Outside) (p : Pipe) (pt : Point) : Pipe × List UInt8 × Pc :=
  if out.killed then (p, [], .done (-1))
  else if nonblock then (p, [], .done sysEAGAIN)
  else if out.signalPending then (p, [], .done sysEINTR)
  else (p, [], .asleep pt)

/-- One round of a read call: the pipe, the bytes it handed out, and where the
call goes on. -/
def readRound (call : PipeCall) (n : Int) (nonblock : Bool) (out : Outside)
    (p : Pipe) : Point → Pipe × List UInt8 × Pc
  | .wait =>
      if p.count = 0 ∧ p.writeIsOpen then readWait nonblock out p .wait
      else (p, [], .held (.loop 0))
  | .loop i =>
      match call with
      | .read =>
          if (i : Int) < n ∧ p.count > 0 then
            let chunk := p.readChunk (n - i).toNat
            (p.readBulk chunk, cells (fun k => p.buffer (p.head + k)) chunk,
              .held (.loop (i + chunk)))
          else (p, [], .done i)
      | _ =>
          if ¬ (i : Int) < n then (p, [], .done i)
          else if p.count = 0 ∧ p.writeIsOpen ∧ i = 0 then
            readWait nonblock out p (.loop i)
          else if p.count = 0 then (p, [], .done i)
          else (p, [], .checking i)
  | .copy i =>
      if p.count = 0 then (p, [], .held (.loop i))
      else if out.copyOk then
        let chunk := p.readChunk (n - i).toNat
        (p.readBulk chunk, cells (fun k => p.buffer (p.head + k)) chunk, .held (.loop (i + chunk)))
      else (p, [], .done (partialOr i sysEFAULT))

def PipeCall.isWrite : PipeCall → Bool
  | .write | .writeInKernel | .writeFromUser => true
  | .read | .readToUser => false

/-- A call in progress, and the bytes it has moved so far. -/
structure PipeThread where
  call : PipeCall
  n : Int
  nonblock : Bool
  pc : Pc
  moved : List UInt8

/-- The pipe, who holds its lock, the calls, and the two streams: bytes taken
from writers and bytes handed to readers, in the order of the lock. -/
structure PipeSystem where
  pipe : Pipe
  lock : Option Nat
  threads : Nat → Option PipeThread
  accepted : List UInt8
  delivered : List UInt8

inductive PipeEvent where
  /-- A thread makes a call. -/
  | enter (tid : Nat) (call : PipeCall) (n : Int) (nonblock : Bool)
  /-- A thread goes on. -/
  | go (tid : Nat) (out : Outside)
  | setPipeSize (newSize : Nat) (newBuffer : Option (Nat → UInt8))
  /-- `close` of one end; closing the second deletes the pipe, which ends the
  run. -/
  | close (isWrite : Bool)

namespace PipeSystem

def init (p : Pipe) : PipeSystem :=
  { pipe := p, lock := none, threads := fun _ => none, accepted := [],
    delivered := [] }

def setThread (s : PipeSystem) (tid : Nat) (t : PipeThread) : PipeSystem :=
  { s with threads := fun j => if j = tid then some t else s.threads j }

/-- A round of the call of thread `tid` at point `pt`, with the lock held. -/
def round (s : PipeSystem) (tid : Nat) (t : PipeThread) (pt : Point) (out : Outside) : PipeSystem :=
  let (pipe, bytes, pc) :=
    if t.call.isWrite then writeRound t.call t.n t.nonblock out s.pipe pt
    else readRound t.call t.n t.nonblock out s.pipe pt
  let s := s.setThread tid { t with pc, moved := t.moved ++ bytes }
  { s with pipe,
           lock := match pc with | .held _ => some tid | _ => none,
           accepted := if t.call.isWrite then s.accepted ++ bytes
             else s.accepted,
           delivered := if t.call.isWrite then s.delivered
             else s.delivered ++ bytes }

/-- The lock is taken and the call goes on at `pt`. -/
def acquire (s : PipeSystem) (tid : Nat) (t : PipeThread) (pt : Point) : Option PipeSystem :=
  if s.lock = none then
    some { s.setThread tid { t with pc := .held pt } with lock := some tid }
  else none

def step (s : PipeSystem) : PipeEvent → Option PipeSystem
  | .enter tid call n nonblock =>
      match s.threads tid with
      | some { pc := .done _, .. } | none =>
          some (s.setThread tid { call, n, nonblock, pc := .start, moved := [] })
      | _ => none
  | .go tid out =>
      match s.threads tid with
      | none => none
      | some t =>
          match t.pc with
          | .start =>
              s.acquire tid t (if t.call.isWrite then .loop 0 else .wait)
          | .asleep pt => s.acquire tid t pt
          | .checking i =>
              if out.copyOk then s.acquire tid t (.copy i)
              else some (s.setThread tid
                { t with pc := .done (partialOr i sysEFAULT) })
          | .held pt => if s.lock = some tid then some (s.round tid t pt out)
              else none
          | .done _ => none
  | .setPipeSize newSize newBuffer =>
      if s.lock = none then
        some { s with pipe := (s.pipe.setPipeSize newSize newBuffer).2 }
      else none
  | .close isWrite =>
      if s.lock ≠ none then none
      else if isWrite then
        if s.pipe.readIsOpen then
          some { s with pipe := { s.pipe with writeIsOpen := false } }
        else none
      else if s.pipe.writeIsOpen then
        some { s with pipe := { s.pipe with readIsOpen := false } }
      else none

end PipeSystem

end F7ly.Proc
