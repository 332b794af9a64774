import F7ly.Proc.Signal

/-!
# Signal dispatch

`handle_signal` and `handle_sync_signal` run by a task while other tasks send
it signals. A pass goes through three loops: the one of `handle_signal`, the
loop over the synchronous signals, and the loop over the rest that follows
when none of those was pending. One step of the task is what it does between
two moments where a sender can get in: it looks at a signal, acts on one it
found, reads the pending set in `clear_signal`, writes it back without the
bit, or publishes that it has stopped.

A sender holds the target's lock while it adds the signal and decides to
resume the target from the state it sees; its call is one event. But
`_signal` is a plain word and `clear_signal` takes no lock. What is sent
between its read and its write is overwritten; and a sender that read the
word before the write and writes it after brings the bit back, which is the
`stale` part of a send.
-/

namespace F7ly.Proc.Signal

namespace Task

def signalIsIgnoredForInterrupt (t : Task) (signum : Nat) : Bool :=
  let byDefault := signum == sigChld || signum == sigCont || signum == sigUrg || signum == sigWinch
  match t.actions signum with
  | some act =>
      if act.saHandler = sigIgn then true
      else if act.saHandler ≠ sigDfl then false
      else byDefault
  | none => byDefault

def hasUnmaskedSignalPending (t : Task) : Bool :=
  if t.killed then true
  else if t.signal = 0 then false
  else
    (List.range' 1 sigRtMax).any fun signum =>
      sigIsMember t.signal signum && (signum == sigCancel || !sigIsMember t.sigmask signum &&
            !t.signalIsIgnoredForInterrupt signum)

/-- `interrupt_sleep_for_signal`: the task, and whether it was made
runnable. -/
def interruptSleepForSignal (t : Task) : Task × Bool :=
  if t.state ≠ .sleeping ∨ !t.hasUnmaskedSignalPending then (t, false)
  else ({ t with state := .runnable }, true)

/-- A stopped task goes on when it is continued or killed. -/
def resume (t : Task) (sig : Nat) : Task :=
  if t.state = .stopped ∧ (sig = sigCont ∨ sig = sigKill) then
    { t with state := .runnable,
             continuedPending := decide (sig = sigCont) || t.continuedPending }
  else t

/-- `kill_signal`, on a task it selects. -/
def killSignal (t : Task) (sig : Nat) (info : Option SigInfo) : Except Panic Task :=
  if sig = 0 then .ok t
  else
    (t.addSignal sig info).map fun t =>
      if t.state = .stopped ∧ (sig = sigCont ∨ sig = sigKill) then t.resume sig
      else t.interruptSleepForSignal.1

/-- `tkill` and `tgkill`, on the task they find. -/
def tkill (t : Task) (sig : Nat) (info : Option SigInfo) : Except Panic Task :=
  if sig = 0 then .ok t
  else
    (t.addSignal sig info).map fun t =>
      if t.state = .sleeping then t.interruptSleepForSignal.1
      else t.resume sig

def timerSignal (t : Task) (sig : Nat) (info : Option SigInfo) : Except Panic Task :=
  if sig = 0 ∨ sig > sigRtMax then .ok t
  else if t.state = .unused ∨ t.state = .zombie then .ok t
  else
    (t.addSignal sig info).map fun t =>
      match t.interruptSleepForSignal with
      | (t, true) => t
      | (t, false) => t.resume sig

end Task

inductive Sender where
  | kill
  | tkill
  | timer
  deriving DecidableEq, Repr

def Task.send (t : Task) (sig : Nat) (info : Option SigInfo) :
    Sender → Except Panic Task
  | .kill => t.killSignal sig info
  | .tkill => t.tkill sig info
  | .timer => t.timerSignal sig info

inductive Disposition where
  | default
  | ignore
  | handler (act : SigAction)

def Task.disposition (t : Task) (sig : Nat) : Disposition :=
  match t.actions sig with
  | none => .default
  | some act =>
      if act.saHandler = sigDfl then .default
      else if act.saHandler = sigIgn then .ignore
      else .handler act

/-- Where a pass is: at a signal of `handle_signal`'s loop, at a synchronous
signal by its place in the list, or at a signal of the second loop of
`handle_sync_signal`. -/
inductive Loop where
  | async (i : Nat)
  | sync (k : Nat)
  | rest (i : Nat)
  deriving DecidableEq, Repr

/-- The `continue` of the loop. -/
def Loop.next : Loop → Loop
  | .async i => .async (i + 1)
  | .sync k => .sync (k + 1)
  | .rest i => .rest (i + 1)

/-- What was done for a signal before its bit is taken out. -/
inductive How where
  | default
  | ignored
  | frame
  | killed
  | bare
  deriving DecidableEq, Repr

/-- A bit taken out of the pending set, with what was the case when the pass
picked it: whether the signal was blocked and whether it had a handler. -/
structure Taken where
  sig : Nat
  blocked : Bool
  caught : Bool
  how : How
  deriving DecidableEq, Repr

inductive Pc where
  /-- Not in a pass. -/
  | idle
  | scan (l : Loop)
  | act (sig : Nat) (l : Loop)
  /-- A default stop, about to be dequeued. -/
  | dequeue (taken : Taken) (l : Loop)
  /-- On the way into `stop_current`. -/
  | stopping (taken : Taken) (l : Loop)
  /-- Past the switch in `stop_current`. -/
  | stopped (taken : Taken) (l : Loop)
  | clear (taken : Taken) (l : Loop)
  /-- `clear_signal` has read the pending set; `stop` if it dequeues a stop. -/
  | store (read : SigSet) (stop : Bool) (taken : Taken) (l : Loop)
  | exited (sig : Nat)

namespace Task

/-- A signal the loop over all signals would act on. -/
def deliverable (t : Task) (sig : Nat) : Bool :=
  sigIsMember t.signal sig && !t.isIgnored sig

def scan (t : Task) (l : Loop) : Pc :=
  match l with
  | .async i | .rest i =>
      if ¬ (i ≤ sigRtMax ∧ t.signal ≠ 0) then .idle
      else if t.deliverable i then .act i l
      else .scan l.next
  | .sync k =>
      match syncSignals[k]? with
      | none => .scan (.rest 1)
      | some sig => if sigIsMember t.signal sig then .act sig l
          else .scan l.next

/-- `SA_RESETHAND`: the handler is back to the default, the rest of the entry
stays. -/
def resetHandler (t : Task) (sig : Nat) (act : SigAction) : Task :=
  if act.has saResethand then
    { t with actions := fun n =>
               if n = sig then some { act with saHandler := sigDfl }
               else t.actions n }
  else t

/-- The loop acts on a signal. The second loop of `handle_sync_signal` has no
branch for a signal with a handler, and takes a stop before dequeuing it. -/
def act (t : Task) (sig : Nat) (l : Loop) (d : Delivery) : Except Panic (Task × Pc) :=
  let blocked := t.isIgnored sig
  match t.disposition sig with
  | .default =>
      let taken : Taken := { sig, blocked, caught := false, how := .default }
      let t := t.restoreSigsuspendMaskNow
      if isJobControlStopSignal sig then
        match l with
        | .rest _ => .ok (t, .stopping taken l)
        | .async _ | .sync _ => .ok (t, .dequeue taken l)
      else if (getDefaultSignalAction sig).terminate then .ok (t, .exited sig)
      else .ok (t, .clear taken l)
  | .ignore =>
      .ok (t.restoreSigsuspendMaskNow, .clear { sig, blocked, caught := false, how := .ignored } l)
  | .handler act =>
      match l with
      | .rest _ => .ok (t, .clear { sig, blocked, caught := true, how := .bare } l)
      | .async _ | .sync _ =>
          (t.doHandle sig (some act) d).map fun t' =>
            let how : How :=
              if t'.sigFrame.length > t.sigFrame.length then .frame else .killed
            (t'.resetHandler sig act, .clear { sig, blocked, caught := true, how } l)

/-- `stop_current`, up to the switch. -/
def stopCurrent (t : Task) (sig : Nat) : Task :=
  { t with stopSignal := sig, stopReported := false, continuedPending := false,
           state := .stopped }

/-- Where the loop goes once the bit is out: a synchronous signal ends its
pass. -/
def afterClear : Loop → Pc
  | .sync _ => .idle
  | l => .scan l.next

/-- Where the loop goes after a stop: the second loop of `handle_sync_signal`
still has the bit to take out. -/
def afterStop (taken : Taken) : Loop → Pc
  | .rest i => .clear taken (.rest i)
  | l => .scan l.next

end Task

/-- `log` lists the bits taken out, the last first; `arrived` counts what was
sent; `summoned` says that a continue or a kill was sent since the task began to
dequeue the stop signal acted on last. -/
structure SignalSystem where
  task : Task
  pc : Pc
  log : List Taken
  arrived : Nat → Nat
  summoned : Bool

/-- What the task itself does outside the passes: its system calls, and user
code running. -/
inductive TaskCall where
  | sleep
  | sigprocmask (how : Int) (newset : Option SigSet) (sigsize : Nat)
  | sigsuspend (mask : SigSet)
  | sigAction (flag : Int) (newact : Option SigAction) (allocOk : Bool)
  | sigaltstack (ss : Option SignalStack)
  | sigReturn
  | user (tf : TrapFrame) (mem : Word → UInt8) (mapped : Word → Bool)

def TaskCall.run (t : Task) : TaskCall → Except Panic Task
  | .sleep => .ok { t with state := .sleeping }
  | .sigprocmask how newset sigsize =>
      (t.sigprocmask how newset sigsize).map Prod.snd
  | .sigsuspend mask => .ok (t.sigsuspend mask)
  | .sigAction flag newact allocOk => .ok (t.sigAction flag newact allocOk).2
  | .sigaltstack ss => .ok (t.sigaltstack ss).2
  | .sigReturn => t.sigReturn
  | .user tf mem mapped => .ok { t with trapframe := tf, mem, mapped }

inductive SignalEvent where
  | send (sender : Sender) (sig : Nat) (info : Option SigInfo) (stale : SigSet := 0)
  | enter (sync : Bool)
  | step (d : Delivery)
  | call (c : TaskCall)
  /-- The scheduler picks the task. -/
  | run
  | wake

namespace SignalSystem

def init (t : Task) : SignalSystem :=
  { task := t, pc := .idle, log := [],
    arrived := fun n => if sigIsMember t.signal n then 1 else 0,
    summoned := false }

/-- The bits that have been taken out. -/
def takenBits (s : SignalSystem) : SigSet :=
  s.log.foldr (fun taken set => sigBit taken.sig ||| set) 0

def read (s : SignalSystem) (stop : Bool) (taken : Taken) (l : Loop) : Except Panic SignalSystem :=
  (s.task.clearRead taken.sig).map fun read =>
    { s with pc := .store read stop taken l, summoned := !stop && s.summoned }

def taskStep (s : SignalSystem) (d : Delivery) : Option (Except Panic SignalSystem) :=
  match s.pc with
  | .idle | .exited _ => none
  | .scan l => some (.ok { s with pc := s.task.scan l })
  | .act sig l =>
      some ((s.task.act sig l d).map fun (task, pc) =>
        { s with task, pc,
                 summoned := match pc with
                   | .stopping .. => false
                   | _ => s.summoned })
  | .dequeue taken l => some (s.read true taken l)
  | .stopping taken l =>
      some (.ok { s with task := s.task.stopCurrent taken.sig,
                         pc := .stopped taken l })
  | .stopped taken l => some (.ok { s with pc := Task.afterStop taken l })
  | .clear taken l => some (s.read false taken l)
  | .store read stop taken l =>
      some (.ok { s with task := s.task.clearWrite taken.sig read,
                         pc := if stop then .stopping taken l else Task.afterClear l,
                         log := taken :: s.log })

def step (s : SignalSystem) : SignalEvent → Option (Except Panic SignalSystem)
  | .send sender sig info stale =>
      if sig ≤ sigRtMax ∧ stale &&& ~~~s.takenBits = 0 then
        some (({ s.task with signal := s.task.signal ||| stale }.send sig info sender).map
          fun task =>
            { s with
              task,
              arrived := fun n =>
                if n = sig ∧ sig ≠ 0 then s.arrived n + 1 else s.arrived n,
              summoned := decide (sig = sigCont ∨ sig = sigKill) || s.summoned })
      else none
  | .enter sync =>
      match s.pc with
      | .idle =>
          if s.task.state = .running then
            if s.task.signal = 0 then some (.ok s)
            else
              let first : Loop := if sync then .sync 0 else .async 1
              some (.ok { s with pc := .scan first })
          else none
      | _ => none
  | .step d => if s.task.state = .running then s.taskStep d else none
  | .call c =>
      match s.pc with
      | .idle =>
          if s.task.state = .running then
            some ((c.run s.task).map fun task => { s with task })
          else none
      | _ => none
  | .run =>
      if s.task.state = .runnable then
        some (.ok { s with task := { s.task with state := .running } })
      else none
  | .wake =>
      if s.task.state = .sleeping then
        some (.ok { s with task := { s.task with state := .runnable } })
      else none

end SignalSystem

end F7ly.Proc.Signal
