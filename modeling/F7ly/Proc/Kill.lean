import F7ly.Proc.SignalPass

/-!
# Sending signals to processes

`kill_signal`, `tkill` and `tgkill` of `kernel/proc/proc_manager.cc` and the
system call in front of the first. A call scans the process pool slot by slot,
holding the lock of one slot at a time; the pool of the model is what the scan
finds in each slot when it has its lock. What the call does to a slot it
selects is `Task.killSignal` or `Task.tkill`.

An outcome records the slots that `add_signal` was called for, and the parents
that are woken because a child of theirs was continued.
-/

namespace F7ly.Proc.Signal

/-- The fields of a `Pcb` that decide who may signal it, and its signals. -/
structure Pcb where
  pid : Int
  tid : Int
  tgid : Int
  pgid : Int
  uid : UInt32
  euid : UInt32
  suid : UInt32
  parent : Option Nat
  task : Task

inductive KillPanic where
  | allNotImplemented
  | signal (p : Panic)
  deriving DecidableEq, Repr

structure Outcome where
  result : Int
  pool : List Pcb
  sent : List Nat
  continued : List Nat

def notFound : Int := -1
def esrch : Int := -3
def epermResult : Int := -1
def einvalResult : Int := -22
def intMin : Int := -2 ^ 31

def Pcb.inUse (p : Pcb) : Bool := p.task.state ≠ .unused

/-- The parent to wake if the signal continues the process. -/
def Pcb.continuedParent (p : Pcb) (sig : Nat) : List Nat :=
  if p.task.state = .stopped ∧ sig = sigCont then p.parent.toList else []

/-- The slots a signal was added for when one slot was selected. -/
def sentTo (sig slot : Nat) : List Nat := if sig = 0 then [] else [slot]

/-- What `deliver` makes of one slot. -/
def signalPcb (deliver : Task → Except Panic Task) (p : Pcb) : Except KillPanic Pcb :=
  match deliver p.task with
  | .error e => .error (.signal e)
  | .ok t => .ok { p with task := t }

/-- What a scan has done: the number of slots it selected, and the rest as in
an outcome. -/
structure Scan where
  count : Nat
  pool : List Pcb
  sent : List Nat
  continued : List Nat

def killScan (select : Pcb → Bool) (sig : Nat) (info : Option SigInfo) :
    Nat → List Pcb → Except KillPanic Scan
  | _, [] => .ok { count := 0, pool := [], sent := [], continued := [] }
  | slot, p :: rest => do
      if select p && p.inUse then
        let p' ← signalPcb (·.killSignal sig info) p
        let scan ← killScan select sig info (slot + 1) rest
        return { count := scan.count + 1
                 pool := p' :: scan.pool
                 sent := sentTo sig slot ++ scan.sent
                 continued := p.continuedParent sig ++ scan.continued }
      else
        let scan ← killScan select sig info (slot + 1) rest
        return { scan with pool := p :: scan.pool }

/-- The loop that stops at the first slot it selects; `none` if there is
none. -/
def findAndSend (select : Pcb → Bool) (sig : Nat) (deliver : Pcb → Except KillPanic Pcb) :
    Nat → List Pcb → Except KillPanic (Option Scan)
  | _, [] => .ok none
  | slot, p :: rest => do
      if select p && p.inUse then
        let p' ← deliver p
        return some
          { count := 1
            pool := p' :: rest
            sent := sentTo sig slot
            continued := p.continuedParent sig }
      else
        match ← findAndSend select sig deliver (slot + 1) rest with
        | none => return none
        | some scan => return some { scan with pool := p :: scan.pool }

def Scan.outcome (scan : Scan) (result : Int) : Outcome :=
  { result, pool := scan.pool, sent := scan.sent, continued := scan.continued }

def Scan.groupOutcome (scan : Scan) : Outcome :=
  scan.outcome (if scan.count > 0 then 0 else notFound)

def nothingSent (pool : List Pcb) (result : Int) : Outcome :=
  { result, pool, sent := [], continued := [] }

/-- The permission the branch for a negative group checks. -/
def groupPermitted (cur p : Pcb) : Bool := p.uid == cur.euid || cur.euid == 0

def killSignal (cur : Pcb) (pid : Int) (sig : Nat) (info : Option SigInfo)
    (pool : List Pcb) : Except KillPanic Outcome :=
  if pid > 0 then do
    match ← findAndSend (·.pid == pid) sig
        (signalPcb (·.killSignal sig info)) 0 pool with
    | some scan => return scan.outcome 0
    | none => return nothingSent pool notFound
  else if pid = 0 then do
    return (← killScan (·.pgid == cur.pgid) sig info 0 pool).groupOutcome
  else if pid = -1 then
    -- The loop that follows the panic in the source is never reached.
    .error .allNotImplemented
  else do
    let scan ← killScan (fun p => p.pgid == -pid && groupPermitted cur p)
      sig info 0 pool
    return scan.groupOutcome

/-- `sys_kill_signal`, with its two arguments as read. -/
def sysKillSignal (cur : Pcb) (pid sig : Int) (pool : List Pcb) : Except KillPanic Outcome :=
  if sig < 0 ∨ sig > sigRtMax then .ok (nothingSent pool einvalResult)
  else if pid = intMin then .ok (nothingSent pool esrch)
  else do
    let out ← killSignal cur pid sig.toNat none pool
    if out.result = -1 then return { out with result := esrch }
    return out

/-- The permission of the thread-directed calls. -/
def permitted (cur p : Pcb) : Bool :=
  cur.euid == 0 || cur.uid == p.uid || cur.uid == p.suid || cur.euid == p.uid || cur.euid == p.suid

/-- The body the two calls share: the first slot selected is signalled, if the
caller may. -/
def threadKill (select : Pcb → Bool) (cur : Pcb) (sig : Nat)
    (info : Option SigInfo) (pool : List Pcb) : Except KillPanic Outcome :=
  match pool.find? fun p => select p && p.inUse with
  | none => .ok (nothingSent pool esrch)
  | some p =>
      if !permitted cur p then .ok (nothingSent pool epermResult)
      else do
        match ← findAndSend select sig
            (signalPcb (·.tkill sig info)) 0 pool with
        | some scan => return scan.outcome 0
        | none => return nothingSent pool esrch

def tkill (cur : Pcb) (tid : Int) (sig : Nat) (info : Option SigInfo)
    (pool : List Pcb) : Except KillPanic Outcome :=
  threadKill (·.tid == tid) cur sig info pool

def tgkill (cur : Pcb) (tgid tid : Int) (sig : Nat) (info : Option SigInfo)
    (pool : List Pcb) : Except KillPanic Outcome :=
  threadKill (fun p => p.tid == tid && p.tgid == tgid) cur sig info pool

end F7ly.Proc.Signal
