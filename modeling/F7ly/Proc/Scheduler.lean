import Mathlib

/-!
# The scheduler's accounts

`proc::Scheduler` of `kernel/proc/scheduler.cc`: the state, the priority and the home
cpu of a task, and beside them a bit for each cpu and task, a count of schedulable
tasks for each cpu and one of those with a priority of their own. `sched_setaffinity`
of `kernel/sys/syscall_handler.cc` changes the affinity mask. Every call holds the lock
of its task, so a call is one step. A failed assertion is `none`.

A mask is a number and its bits. The cpus that are possible and online are those of one
boot. The order of the scan, the effective priority of a task with a signal and
`_running_cpu` do not take part in the accounts and are left out: a pick takes any
task that the cpu may take.
-/

namespace F7ly.Proc.Sched

def defaultProcPrio : Int := 0

/-- The cpus of a boot. `possible_cpu_mask` has only bits below the capacity, and
`online_cpu_mask` only possible ones. -/
structure Cpus where
  numCpu : Nat
  possible : Nat
  online : Nat
  possible_lt : possible < 2 ^ numCpu
  online_possible : online &&& possible = online

inductive ProcState where
  | unused
  | used
  | sleeping
  | runnable
  | running
  | stopped
  | zombie
  deriving DecidableEq

def ProcState.schedulable (s : ProcState) : Bool := s = .runnable ∨ s = .running

structure Task where
  state : ProcState
  priority : Int
  cpuMask : Nat
  /-- `_last_cpu`, the home cpu; negative when there is none. -/
  lastCpu : Int
  deriving DecidableEq

/-- `n` is the number of tasks. -/
structure Scheduler (n : Nat) where
  tasks : Fin n → Task
  runnableSlots : Nat → Fin n → Bool
  pressure : Nat → Nat
  nonDefaultSchedulable : Nat
  nextInitialCpu : Int

section

variable (cpus : Cpus)

def validHomeCpu (cpu : Int) : Bool := 0 ≤ cpu ∧ cpu < cpus.numCpu

def canScheduleOnCpu (t : Task) (cpu : Nat) : Bool :=
  let eligible := t.cpuMask &&& cpus.online
  if ¬validHomeCpu cpus cpu ∨ ¬t.cpuMask.testBit cpu then false
  else if ¬eligible.testBit cpu then false
  else if eligible &&& (eligible - 1) = 0 then true
  else if validHomeCpu cpus t.lastCpu ∧ eligible.testBit t.lastCpu.toNat then
    (cpu : Int) = t.lastCpu
  else true

/-- The loop to the lowest bit of a mask, over the cpus that are left. -/
def lowestCpu (eligible : Nat) : Nat → Nat → Nat
  | 0, cpu => cpu
  | n + 1, cpu => if eligible.testBit cpu then cpu else lowestCpu eligible n (cpu + 1)

/-- One round of the loop over the candidates. -/
def considerCpu (eligible : Nat) (pressure : Nat → Nat) (best : Nat × Nat) (candidate : Nat) :
    Nat × Nat :=
  if ¬eligible.testBit candidate then best
  else if pressure candidate < best.2 then (candidate, pressure candidate)
  else best

def eligibleMask (mask : Nat) : Nat :=
  if mask &&& cpus.online = 0 then mask &&& cpus.possible else mask &&& cpus.online

/-- `select_initial_cpu`: the cpu and the next value of `_next_initial_cpu`. -/
def selectInitialCpu (pressure : Nat → Nat) (nextInitialCpu : Int) (mask : Nat)
    (parentCpu : Int) : Int × Int :=
  let eligible := eligibleMask cpus mask
  if eligible = 0 then (parentCpu, nextInitialCpu)
  else
    let usable : Int → Bool := fun cpu =>
      validHomeCpu cpus cpu ∧ eligible.testBit cpu.toNat
    let firstCpu :=
      if usable nextInitialCpu then nextInitialCpu.toNat
      else if usable parentCpu then parentCpu.toNat
      else lowestCpu eligible cpus.numCpu 0
    let selected := ((List.range cpus.numCpu).foldl
      (fun best offset =>
        considerCpu eligible pressure best ((firstCpu + offset) % cpus.numCpu))
      (firstCpu, 2 ^ 32 - 1)).1
    (selected, ((selected + 1) % cpus.numCpu : Nat))

end

namespace Scheduler

variable {n : Nat} (cpus : Cpus) (s : Scheduler n)

/-- `mark_runnable_slot` and `clear_runnable_slot`. -/
def setSlot (cpu : Int) (g : Fin n) (bit : Bool) : Scheduler n :=
  if validHomeCpu cpus cpu then
    { s with
      runnableSlots := fun c h => if (c : Int) = cpu ∧ h = g then bit else s.runnableSlots c h }
  else s

def setTask (g : Fin n) (t : Task) : Scheduler n :=
  { s with tasks := Function.update s.tasks g t }

/-- `fetch_add` on the pressure of a cpu that may not be valid. -/
def addPressure (cpu : Int) : Scheduler n :=
  if validHomeCpu cpus cpu then
    { s with
      pressure := Function.update s.pressure cpu.toNat (s.pressure cpu.toNat + 1) }
  else s

/-- `fetch_sub` on it, and the assertion that it was not zero. -/
def subPressure (cpu : Int) : Option (Scheduler n) :=
  if validHomeCpu cpus cpu then
    if s.pressure cpu.toNat = 0 then none
    else some { s with
      pressure := Function.update s.pressure cpu.toNat (s.pressure cpu.toNat - 1) }
  else some s

/-- The change of the pressure of `cpu` when a task there changes its state. -/
def transferPressure (cpu : Int) (old new : Bool) : Option (Scheduler n) :=
  if old = new then some s
  else if old then s.subPressure cpus cpu
  else some (s.addPressure cpus cpu)

/-- The change of the count of tasks with a priority of their own. -/
def transferNonDefault (old new : Bool) : Option (Scheduler n) :=
  if old = new then some s
  else if old then
    if s.nonDefaultSchedulable = 0 then none
    else some { s with nonDefaultSchedulable := s.nonDefaultSchedulable - 1 }
  else some { s with nonDefaultSchedulable := s.nonDefaultSchedulable + 1 }

/-- The home of a task that takes the state, and `_next_initial_cpu` after it. -/
def homeFor (t : Task) (state : ProcState) : Int × Int :=
  if state = .runnable ∧ ¬validHomeCpu cpus t.lastCpu then
    selectInitialCpu cpus s.pressure s.nextInitialCpu t.cpuMask (-1)
  else (t.lastCpu, s.nextInitialCpu)

def setTaskState (g : Fin n) (state : ProcState) : Option (Scheduler n) := do
  let t := s.tasks g
  if t.state = state then return s
  let s := if t.state = .runnable then s.setSlot cpus t.lastCpu g false else s
  let home := s.homeFor cpus t state
  let s := { s with nextInitialCpu := home.2 }
  let s ← s.transferPressure cpus home.1 t.state.schedulable state.schedulable
  let s ← (if t.priority ≠ defaultProcPrio then
      s.transferNonDefault t.state.schedulable state.schedulable
    else some s)
  let s := s.setTask g { t with state := state, lastCpu := home.1 }
  return if state = .runnable then s.setSlot cpus home.1 g true else s

def setTaskPriority (g : Fin n) (priority : Int) : Option (Scheduler n) := do
  let t := s.tasks g
  if t.priority = priority then return s
  let s ← (if t.state.schedulable then
      s.transferNonDefault (t.priority ≠ defaultProcPrio) (priority ≠ defaultProcPrio)
    else some s)
  return s.setTask g { t with priority := priority }

def setTaskHomeCpu (g : Fin n) (cpu : Int) : Option (Scheduler n) := do
  let t := s.tasks g
  if t.lastCpu = cpu then return s
  let s := if t.state = .runnable then s.setSlot cpus t.lastCpu g false else s
  let s ← (if t.state.schedulable then
      (s.subPressure cpus t.lastCpu).map fun s => s.addPressure cpus cpu
    else some s)
  let s := s.setTask g { t with lastCpu := cpu }
  return if t.state = .runnable then s.setSlot cpus cpu g true else s

/-- The part of `sys_sched_setaffinity` under the lock of the target; a mask without a
possible cpu is refused before. -/
def setAffinity (g : Fin n) (requested : Nat) : Option (Scheduler n) :=
  let effective := requested &&& cpus.possible
  if effective = 0 then some s
  else
    let t := s.tasks g
    let s := s.setTask g { t with cpuMask := effective }
    if t.lastCpu < 0 ∨ ¬effective.testBit t.lastCpu.toNat then
      let (home, next) := selectInitialCpu cpus s.pressure s.nextInitialCpu effective (-1)
      { s with nextInitialCpu := next }.setTaskHomeCpu cpus g home
    else some s

/-- A scheduler that runs on `cpu` looks at task `g`. -/
def pick (cpu : Nat) (g : Fin n) : Option (Scheduler n) :=
  if (s.tasks g).state = .runnable ∧ canScheduleOnCpu cpus (s.tasks g) cpu then do
    let s ← s.setTaskHomeCpu cpus g cpu
    s.setTaskState cpus g .running
  else some s

end Scheduler

inductive Op (n : Nat) where
  | setTaskState (g : Fin n) (state : ProcState)
  | setTaskPriority (g : Fin n) (priority : Int)
  | setTaskHomeCpu (g : Fin n) (cpu : Int)
  | setAffinity (g : Fin n) (requested : Nat)
  | pick (cpu : Nat) (g : Fin n)

namespace Scheduler

variable {n : Nat}

/-- `Scheduler::init`, with tasks that are not scheduled yet. -/
def boot (tasks : Fin n → Task) : Scheduler n :=
  { tasks := tasks
    runnableSlots := fun _ _ => false
    pressure := fun _ => 0
    nonDefaultSchedulable := 0
    nextInitialCpu := -1 }

def step (cpus : Cpus) (s : Scheduler n) : Op n → Option (Scheduler n)
  | .setTaskState g state => s.setTaskState cpus g state
  | .setTaskPriority g priority => s.setTaskPriority g priority
  | .setTaskHomeCpu g cpu => s.setTaskHomeCpu cpus g cpu
  | .setAffinity g requested => s.setAffinity cpus g requested
  | .pick cpu g => s.pick cpus cpu g

end Scheduler

end F7ly.Proc.Sched
