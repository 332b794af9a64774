import F7ly.Proc.Pipe

/-!
# Pipe waiters

The part of `kernel/proc/pipe.cc` that the byte streams do not depend on: who
sleeps on the pipe, who is registered as a waiter, and which exits of the data
calls wake whom. The state is the pipe system with the two waiter records of
the pipe and, for each task, whether the scheduler has it `SLEEPING`. A task
that called `sleep` runs again only after something made it runnable: a
wakeup through the waiter records, or a signal.

The waiters of an end are indexed by `waiting_for_read`, as the source's
helpers are: `true` for the readers, which sleep on `_read_sleep`.
-/

namespace F7ly.Proc

/-- `_read_waiter` and `_read_waiter_count`, or the writers' pair. -/
structure PipeWaiters where
  waiter : Option Nat
  waiterCount : Nat

namespace PipeWaiters

def noteWaiter (q : PipeWaiters) (waiter : Nat) : PipeWaiters :=
  { waiter :=
      if q.waiterCount = 0 then some waiter
      else if q.waiter ≠ some waiter then none
      else q.waiter
    waiterCount := q.waiterCount + 1 }

def forgetWaiter (q : PipeWaiters) (waiter : Nat) : PipeWaiters :=
  if q.waiterCount = 0 then { q with waiter := none }
  else
    { waiter :=
        if q.waiterCount - 1 = 0 ∨ q.waiter = some waiter then none
        else q.waiter
      waiterCount := q.waiterCount - 1 }

/-- Whom `wake_waiters_locked` addresses, among the tasks that sleep on the
channel: nobody, the one waiter it knows, or all of them. -/
def addressed (q : PipeWaiters) (sleepers : Nat → Bool) (tid : Nat) : Bool :=
  if q.waiterCount = 0 then false
  else
    match q.waiter with
    | some w => if q.waiterCount = 1 then tid == w && sleepers w
        else sleepers tid
    | none => sleepers tid

end PipeWaiters

/-- Whether a round of a write call wakes the readers. -/
def writeWakes (call : PipeCall) (n : Int) (nonblock : Bool) (out : Outside)
    (p : Pipe) : Point → Bool
  | .wait => false
  | .loop i =>
      if ¬ (i : Int) < n then true
      else if !p.readIsOpen || out.killed then false
      else if p.count ≥ p.pipeSize then
        if call ≠ .write ∧ out.signalPending then false
        else if nonblock then false
        else true
      else
        match call with
        | .write => !out.copyOk
        | _ => false
  | .copy _ => false

/-- Whether a round of a read call wakes the writers. -/
def readWakes (call : PipeCall) (n : Int) (p : Pipe) : Point → Bool
  | .wait => false
  | .loop i =>
      match call with
      | .read => ! decide ((i : Int) < n ∧ p.count > 0)
      | _ =>
          if ¬ (i : Int) < n then true
          else if p.count = 0 ∧ p.writeIsOpen ∧ i = 0 then false
          else decide (p.count = 0)
  | .copy _ => false

namespace PipeThread

def round (t : PipeThread) (out : Outside) (p : Pipe) (pt : Point) : Pipe × List UInt8 × Pc :=
  if t.call.isWrite then writeRound t.call t.n t.nonblock out p pt
  else readRound t.call t.n t.nonblock out p pt

def wakes (t : PipeThread) (out : Outside) (p : Pipe) (pt : Point) : Bool :=
  if t.call.isWrite then writeWakes t.call t.n t.nonblock out p pt
  else readWakes t.call t.n p pt

/-- Inside `sleep` on the channel of the readers or of the writers. -/
def waitsOn (t : PipeThread) (waitingForRead : Bool) : Bool :=
  match t.pc with
  | .asleep _ => t.call.isWrite != waitingForRead
  | _ => false

end PipeThread

/-- A task inside `sleep` on the given channel. -/
def PipeSystem.waitsOn (s : PipeSystem) (waitingForRead : Bool) (tid : Nat) : Bool :=
  match s.threads tid with
  | some t => t.waitsOn waitingForRead
  | none => false

/-- `issued` records the wakeups: which tasks were sent one since the last
byte arrived, for the readers, or since space last appeared, for the writers,
and since they went to sleep. -/
structure PipeWaitSystem where
  sys : PipeSystem
  waiters : Bool → PipeWaiters
  sleeping : Nat → Bool
  issued : Bool → Nat → Bool

inductive PipeWaitEvent where
  | enter (tid : Nat) (call : PipeCall) (n : Int) (nonblock : Bool)
  | go (tid : Nat) (out : Outside)
  /-- A signal or a kill makes a task runnable. -/
  | interrupt (tid : Nat)
  | close (isWrite : Bool)

namespace PipeWaitSystem

def init (p : Pipe) : PipeWaitSystem :=
  { sys := .init p, waiters := fun _ => { waiter := none, waiterCount := 0 },
    sleeping := fun _ => false, issued := fun _ _ => false }

/-- `SLEEPING` on the given channel of the pipe. -/
def asleepOn (s : PipeWaitSystem) (waitingForRead : Bool) (tid : Nat) : Bool :=
  s.sleeping tid && s.sys.waitsOn waitingForRead tid

def setWaiters (s : PipeWaitSystem) (waitingForRead : Bool) (q : PipeWaiters) : PipeWaitSystem :=
  { s with waiters := fun r =>
             if r = waitingForRead then q else s.waiters r }

/-- `wake_waiters_locked`. -/
def wakeWaiters (s : PipeWaitSystem) (wakeReaders : Bool) : PipeWaitSystem :=
  let hit := (s.waiters wakeReaders).addressed (s.asleepOn wakeReaders)
  { s with sleeping := fun j => s.sleeping j && !hit j,
           issued := fun r j => s.issued r j || (r == wakeReaders && hit j) }

/-- The waiter is noted and `sleep` publishes the state. -/
def sleep (s : PipeWaitSystem) (waitingForRead : Bool) (tid : Nat) : PipeWaitSystem :=
  { s.setWaiters waitingForRead
      ((s.waiters waitingForRead).noteWaiter tid) with
    sleeping := fun j => j == tid || s.sleeping j,
    issued := fun r j =>
      if r = waitingForRead ∧ j = tid then false else s.issued r j }

/-- A byte arrived for the readers, or space for the writers. -/
def arrived (before after : Pipe) : Bool → Bool
  | true => decide (before.count < after.count)
  | false => decide (after.count < before.count)

def move (s : PipeWaitSystem) (tid : Nat) (t : PipeThread) (pt : Point)
    (out : Outside) : PipeWaitSystem :=
  let sys := s.sys.round tid t pt out
  { s with sys,
           issued := fun r j =>
             s.issued r j && !arrived s.sys.pipe sys.pipe r }

/-- A round of the call of thread `tid`: bytes move, the other end is woken on
the exits that do so, and a call that has to wait goes to sleep. -/
def round (s : PipeWaitSystem) (tid : Nat) (t : PipeThread) (pt : Point)
    (out : Outside) : PipeWaitSystem :=
  let s' := s.move tid t pt out
  let s' := if t.wakes out s.sys.pipe pt then s'.wakeWaiters t.call.isWrite
    else s'
  match (t.round out s.sys.pipe pt).2.2 with
  | .asleep _ => s'.sleep (!t.call.isWrite) tid
  | _ => s'

/-- An event of the pipe system that wakes nobody. -/
def lift (s : PipeWaitSystem) (e : PipeEvent) : Option PipeWaitSystem :=
  (s.sys.step e).map fun sys => { s with sys }

def step (s : PipeWaitSystem) : PipeWaitEvent → Option PipeWaitSystem
  | .enter tid call n nonblock => s.lift (.enter tid call n nonblock)
  | .go tid out =>
      match s.sys.threads tid with
      | none => none
      | some t =>
          match t.pc with
          | .asleep _ =>
              if s.sleeping tid then none
              else
                let r := !t.call.isWrite
                (s.lift (.go tid out)).map fun s' =>
                  s'.setWaiters r ((s.waiters r).forgetWaiter tid)
          | .checking i =>
              -- A writer that cannot go on announces what it wrote.
              if out.copyOk = false ∧ t.call.isWrite ∧ i > 0 then
                if s.sys.lock = none then
                  (s.lift (.go tid out)).map fun s' => s'.wakeWaiters true
                else none
              else s.lift (.go tid out)
          | .held pt =>
              if s.sys.lock = some tid then some (s.round tid t pt out)
              else none
          | _ => s.lift (.go tid out)
  | .interrupt tid =>
      some { s with sleeping := fun j => s.sleeping j && j != tid }
  | .close isWrite =>
      (s.lift (.close isWrite)).map fun s' => s'.wakeWaiters isWrite

end PipeWaitSystem

end F7ly.Proc
