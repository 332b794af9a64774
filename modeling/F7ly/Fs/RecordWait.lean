import F7ly.Fs.RecordLock

/-!
# Waiting for record locks

The `F_SETLK` and `F_SETLKW` cases of `sys_fcntl`, `kernel/sys/syscall_handler.cc`,
by any number of processes. A process makes one call at a time: the calls that
its other threads could make while one of them waits are left out. `F_SETLKW` tries
to set the lock and, if another process is in the way, notes that it waits for
that process and tries again; each of the two takes and gives back the lock of
the tables, so the steps of other processes come in between. What the calls
returned is kept in `returned`.
-/

namespace F7ly.Fs.RecordLock

/-- Where a process is in the loop of `F_SETLKW`: before
`apply_posix_record_lock`, or before `note_posix_record_lock_wait` with the
process that was in the way. -/
inductive Pc where
  | apply
  | note (conflictPid : Nat)
  deriving DecidableEq

/-- A call of `F_SETLKW` that has not returned. -/
structure Pending where
  file : Nat
  lock : Flock
  pc : Pc
  deriving DecidableEq

structure System where
  locks : Locks
  pending : Nat → Option Pending
  returned : List (Nat × Result)

inductive Op where
  /-- A whole call of `F_SETLK`. -/
  | setlk (pid file : Nat) (lock : Flock)
  /-- A whole call of `F_OFD_SETLK`, or one round of `F_OFD_SETLKW`. -/
  | ofdSetlk (file : Nat) (lock : Flock)
  /-- The start of a call of `F_SETLKW`. -/
  | setlkw (pid file : Nat) (lock : Flock)
  /-- The next step of a call of `F_SETLKW`. -/
  | step (pid : Nat)
  deriving DecidableEq

namespace System

variable (bp : Nat → String)

def boot : System where
  locks := .empty
  pending _ := none
  returned := []

/-- The call of `F_SETLKW` goes on. -/
def goOn (s : System) (pid : Nat) (locks : Locks) (p : Pending) : System :=
  { s with locks, pending := Function.update s.pending pid (some p) }

/-- The call of `F_SETLKW` returns. -/
def finish (s : System) (pid : Nat) (locks : Locks) (r : Result) : System where
  locks := locks
  pending := Function.update s.pending pid none
  returned := (pid, r) :: s.returned

/-- One step of the loop of `F_SETLKW`. -/
def stepPending (s : System) (pid : Nat) (p : Pending) : System :=
  match p.pc with
  | .apply =>
      match s.locks.applyPosixRecordLock (keyOf bp p.file) pid p.lock with
      | (locks, .eagain 0) => s.goOn pid locks p
      | (locks, .eagain conflictPid) => s.goOn pid locks { p with pc := .note conflictPid }
      | (locks, r) => s.finish pid locks r
  | .note conflictPid =>
      match s.locks.notePosixRecordLockWait (keyOf bp p.file) pid p.lock conflictPid with
      | (locks, .ok) => s.goOn pid locks { p with pc := .apply }
      | (locks, r) => s.finish pid locks r

def step (s : System) : Op → Option System
  | .setlk pid file lock =>
      if pid = 0 ∨ s.pending pid ≠ none then none
      else
        let (locks, r) := s.locks.applyPosixRecordLock (keyOf bp file) pid lock
        some { s with locks, returned := (pid, r) :: s.returned }
  | .ofdSetlk file lock =>
      some { s with locks := (s.locks.applyOfdRecordLock (keyOf bp file) lock).1 }
  | .setlkw pid file lock =>
      if pid = 0 ∨ s.pending pid ≠ none then none
      else some { s with pending := Function.update s.pending pid (some ⟨file, lock, .apply⟩) }
  | .step pid => (s.pending pid).map (s.stepPending bp pid)

end System

end F7ly.Fs.RecordLock
