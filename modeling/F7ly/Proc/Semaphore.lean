import F7ly.Mem.Page

/-!
# Semaphores

`kernel/libs/semaphore.cc`. The counter goes down before a task sleeps, so a
negative counter is the number of tasks that have gone to sleep, and the waiters
stand in an array of their own. `sem_v` takes the first one out of the array and
wakes it if it still sleeps on the semaphore.

`sem_p` holds the lock up to `sleep`, which takes it again before it returns, so
a call that waits is two steps: `p` up to the sleep and `resume` from the wakeup
on. In between a signal or a kill may wake the task as well, also one that was
pending when it went to sleep. `resume` does not ask who woke the task.

The numbers of finished P operations and of permits given back are kept beside
the semaphore for the statements about them.
-/

namespace F7ly.Proc.Semaphore

structure Sem where
  /-- An `int`: at `-numProcess` the next waiter panics, a maximum bounds it from
  above, and the one semaphore without a maximum (`io_sem`) is a mutex. -/
  value : Int
  /-- −1 if there is no maximum. -/
  maxValue : Int
  waitList : List Nat
  deriving DecidableEq

/-- Where a task is: outside of the semaphore's code, asleep in `sem_p`, in
`sem_p` after a wakeup, or ended. -/
inductive Phase where
  | running
  | sleeping
  | woken
  | exited
  deriving DecidableEq

structure Task where
  phase : Phase
  killed : Bool
  deriving DecidableEq

/-- The task is in `sem_p` and will not end there. -/
def Task.live (x : Task) : Bool := (x.phase = .sleeping ∨ x.phase = .woken) && !x.killed

structure System where
  sem : Sem
  tasks : List Task
  panicked : Bool
  /-- P operations that have finished. -/
  completed : Nat
  /-- V operations that were not refused at the maximum. -/
  released : Nat
  deriving DecidableEq

/-- `sem_init_with_max`; `sem_init` has the maximum −1. -/
def semInitWithMax (value maxValue : Int) : Sem := ⟨value, maxValue, []⟩

def semInit (value : Int) : Sem := semInitWithMax value (-1)

def System.boot (sem : Sem) (tasks : Nat) : System :=
  ⟨sem, List.replicate tasks ⟨.running, false⟩, false, 0, 0⟩

def System.setPhase (s : System) (t : Nat) (x : Task) (phase : Phase) : System :=
  { s with tasks := s.tasks.set t { x with phase := phase } }

/-- `wakeup_one(target, s)`. -/
def System.wakeupOne (s : System) (target : Nat) : System :=
  match s.tasks[target]? with
  | some x => if x.phase = .sleeping then s.setPhase target x .woken else s
  | none => s

/-- `sem_p` up to its return or its sleep. -/
def System.semP (s : System) (t : Nat) (x : Task) : System :=
  let s := { s with sem.value := s.sem.value - 1 }
  if s.sem.value < 0 then
    if numProcess ≤ s.sem.waitList.length then { s with panicked := true }
    else { s with sem.waitList := s.sem.waitList ++ [t] }.setPhase t x .sleeping
  else { s with completed := s.completed + 1 }

/-- `sem_p` after `sleep`. -/
def System.semPResume (s : System) (t : Nat) (x : Task) : System :=
  if x.killed then s.setPhase t x .exited
  else { s with completed := s.completed + 1 }.setPhase t x .running

/-- `sem_try_v`; the result is false at the maximum. -/
def System.semTryV (s : System) : System × Bool :=
  match s.sem.waitList with
  | waiter :: rest =>
      let s := { s with
        sem.waitList := rest
        sem.value := s.sem.value + 1
        released := s.released + 1 }
      (s.wakeupOne waiter, true)
  | [] =>
      if 0 < s.sem.maxValue ∧ s.sem.maxValue ≤ s.sem.value then (s, false)
      else ({ s with sem.value := s.sem.value + 1, released := s.released + 1 }, true)

/-- `sem_v` does what `sem_try_v` does and does not say whether. -/
def System.semV (s : System) : System := s.semTryV.1

def System.semTryP (s : System) : System × Bool :=
  if 0 < s.sem.value then
    ({ s with sem.value := s.sem.value - 1, completed := s.completed + 1 }, true)
  else (s, false)

/-- A signal wakes a task out of `sleep`. -/
def System.signal (s : System) (t : Nat) : System := s.wakeupOne t

def System.kill (s : System) (t : Nat) (x : Task) : System :=
  { s with tasks := s.tasks.set t { x with killed := true } }.wakeupOne t

inductive Op where
  | p (t : Nat)
  | resume (t : Nat)
  | v (t : Nat)
  | tryP (t : Nat)
  | tryV (t : Nat)
  | signal (t : Nat)
  | kill (t : Nat)

def Op.task : Op → Nat
  | .p t | .resume t | .v t | .tryP t | .tryV t | .signal t | .kill t => t

/-- A step of a task that exists. Calls are made by running tasks. -/
def System.act (s : System) (x : Task) : Op → System
  | .p t => if x.phase = .running then s.semP t x else s
  | .resume t => if x.phase = .woken then s.semPResume t x else s
  | .v _ => if x.phase = .running then s.semV else s
  | .tryP _ => if x.phase = .running then s.semTryP.1 else s
  | .tryV _ => if x.phase = .running then s.semTryV.1 else s
  | .signal t => s.signal t
  | .kill t => s.kill t x

def System.step (s : System) (op : Op) : System :=
  if s.panicked then s
  else
    match s.tasks[op.task]? with
    | some x => s.act x op
    | none => s

end F7ly.Proc.Semaphore
