import F7ly.Proc.SignalPass

/-!
# sigsuspend and rt_sigtimedwait

`sigsuspend` of `kernel/proc/signal.cc` with `ProcessManager::sleep`, while
other tasks and the timers send the caller signals. The caller puts the
temporary mask in place, looks once whether something unblocked is pending,
and goes to sleep. Inside `sleep` it holds its own lock from the moment it is
registered as sleeping until it has been switched out, with a second look in
between; every sender holds that lock too, so that section is one step.

The two looks and the senders use three predicates: the first look takes any
unblocked signal, the second is `should_interrupt_blocking_syscall`, and a
sender wakes a sleeper for which `has_unmasked_signal_pending` holds.

Of `sys_rt_sigtimedwait` (`kernel/sys/syscall_handler.cc`) there is the loop,
from where the set and the deadline are known. A round takes a pending signal
of the set, gives up at the deadline, or sleeps for a tick; what
`sleep_n_ticks` returns is not looked at.
-/

namespace F7ly.Proc.Signal

def saRestart : Word := 0x10000000

namespace Task

/-- One round of the loop of `should_interrupt_blocking_syscall`, for a signal
that is pending. -/
def signalInterrupts (t : Task) (signum : Nat) : Bool :=
  if signum = sigCancel ∨ signum = sigKill ∨ signum = sigStop then true
  else if sigIsMember t.sigmask signum then false
  else
    match t.actions signum with
    | some act =>
        if act.saHandler = sigIgn then false
        else if act.saHandler ≠ sigDfl then !act.has saRestart
        else !t.signalIsIgnoredForInterrupt signum
    | none => !t.signalIsIgnoredForInterrupt signum

def shouldInterruptBlockingSyscall (t : Task) : Bool :=
  if t.killed then true
  else if t.signal = 0 then false
  else
    (List.range' 1 sigRtMax).any fun signum =>
      sigIsMember t.signal signum && t.signalInterrupts signum

/-- The exit of a child, when the parent does not have it reaped on its own. -/
def childExitSignal (t : Task) (sig : Nat) : Except Panic Task :=
  (t.addSignal sig none).map fun t =>
    if t.state = .sleeping then t.interruptSleepForSignal.1 else t

def intervalTimerSignal (t : Task) (sig : Nat) : Except Panic Task :=
  (t.addSignal sig none).map fun t => t.interruptSleepForSignal.1

/-- `mark_thread_group_killed`, on a thread of the group; no fatal signal is
given for `exit_group`. -/
def groupKilled (t : Task) (fatal : Option Nat) : Except Panic Task :=
  if t.state = .zombie ∨ t.state = .unused then .ok t
  else
    let woken (t : Task) : Task :=
      if t.state = .sleeping ∨ t.state = .stopped then
        { t with state := .runnable }
      else t
    match fatal with
    | none => .ok (woken { t with killed := true })
    | some sig => (t.addSignal sig none).map woken

def killProc (t : Task) : Task :=
  if t.state = .sleeping ∨ t.state = .stopped then
    { t with killed := true, state := .runnable }
  else { t with killed := true }

end Task

inductive SuspendPc where
  | idle
  | masked
  | checked
  | asleep
  | returned
  deriving DecidableEq, Repr

structure SuspendSystem where
  task : Task
  pc : SuspendPc

/-- The caller, running and about to make the call. -/
def SuspendSystem.start (t : Task) : SuspendSystem :=
  { task := { t with state := .running }, pc := .idle }

inductive SuspendEvent where
  | call (mask : SigSet)
  | check
  | sleep
  | resume
  | wakeup
  | send (sender : Sender) (sig : Nat) (info : Option SigInfo)
  | childExit (sig : Nat)
  | intervalTimer (sig : Nat)
  | groupKilled (fatal : Option Nat)
  | killProc

namespace SuspendSystem

/-- The section of `sleep` under the caller's lock. -/
def sleepSection (t : Task) : Task :=
  let t := { t with state := .sleeping }
  if t.shouldInterruptBlockingSyscall then { t with state := .runnable } else t

/-- What a sender does; a panic is the end of the run. -/
def sent (s : SuspendSystem) : Except Panic Task → Option SuspendSystem
  | .ok t => some { s with task := t }
  | .error _ => none

def step (s : SuspendSystem) : SuspendEvent → Option SuspendSystem
  | .call mask =>
      if s.pc = .idle then some { task := s.task.sigsuspend mask, pc := .masked }
      else none
  | .check =>
      if s.pc = .masked then
        if s.task.signal &&& ~~~s.task.sigmask ≠ 0 then
          some { s with pc := .returned }
        else some { s with pc := .checked }
      else none
  | .sleep =>
      if s.pc = .checked then
        some { task := sleepSection s.task, pc := .asleep }
      else none
  | .resume =>
      if s.pc = .asleep ∧ s.task.state = .runnable then
        some { task := { s.task with state := .running }, pc := .returned }
      else none
  | .wakeup =>
      if s.task.state = .sleeping then
        some { s with task := { s.task with state := .runnable } }
      else some s
  | .send sender sig info => s.sent (s.task.send sig info sender)
  | .childExit sig => s.sent (s.task.childExitSignal sig)
  | .intervalTimer sig => s.sent (s.task.intervalTimerSignal sig)
  | .groupKilled fatal => s.sent (s.task.groupKilled fatal)
  | .killProc => some { s with task := s.task.killProc }

/-- The caller sleeps although a signal is pending that is not blocked and not
ignored. -/
def SleepsThrough (s : SuspendSystem) : Prop :=
  s.pc = .asleep ∧ s.task.state = .sleeping ∧
    ∃ sig, 1 ≤ sig ∧ sig ≤ sigRtMax ∧ sigIsMember s.task.signal sig = true ∧
      sigIsMember s.task.sigmask sig = false ∧
      s.task.signalIsIgnoredForInterrupt sig = false

end SuspendSystem

/-- `take_pending_signal`: the lowest signal of the set that is pending. -/
def Task.takePendingSignal (t : Task) (waitSet : SigSet) :
    Except Panic (Option (Nat × SigInfo) × Task) :=
  match (List.range' 1 64).find? (sigIsMember (t.signal &&& waitSet)) with
  | none => .ok (none, t)
  | some sig =>
      let info := if sigIsMember t.siginfoMask sig then t.queuedSiginfo sig else .bare sig
      (t.clearSignal sig).map fun t => (some (sig, info), t)

/-- What a call of `rt_sigtimedwait` is made with: the set, the deadline if it has a
timeout, and whether the signal's information can be copied out, if it is asked for. -/
structure Sigtimedwait where
  waitSet : SigSet
  deadlineNs : Option Int
  copyOut : Bool

/-- One round, with the clock, if it can be read. A call that goes on returns
nothing. -/
def Sigtimedwait.round (c : Sigtimedwait) (t : Task) (nowNs : Option Int) :
    Except Panic (Option Int × Task) := do
  let (matched, t) ← t.takePendingSignal c.waitSet
  match matched, c.deadlineNs, nowNs with
  | some (sig, _), _, _ => return (some (if c.copyOut then sig else -14), t)
  | none, none, _ => return (none, t)
  | none, some _, none => return (some (-22), t)
  | none, some deadline, some now =>
      return (if now ≥ deadline then some (-11) else none, t)

end F7ly.Proc.Signal
