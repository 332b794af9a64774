import Mathlib
import F7ly.Lib.Slots

/-!
# Record locks

`apply_posix_record_lock`, `apply_ofd_record_lock`,
`note_posix_record_lock_wait` and what they use, from
`kernel/fs/vfs/file/file.cc`.

A table is an array of slots that are free or hold a lock. The two tables have
the same functions over them, as in the source, where they are templates: what
differs is who owns a lock, a process or an open file description. Offsets and
lengths are not negative, as `normalize_record_lock` leaves them. Files keep
their `backing_path` while they are open.
-/

namespace F7ly.Fs.RecordLock

/-- `kLockOpenEnd`. -/
def lockOpenEnd : Nat := 2 ^ 63 - 1

/-- `kMaxPosixRecordLocks`, `kMaxOfdRecordLocks` and
`kMaxPosixRecordLockWaiters`. -/
def maxRecordLocks : Nat := 256

inductive LockType where
  | rdlck | wrlck | unlck
  deriving DecidableEq

/-- `struct flock`, after `l_whence` was dealt with. -/
structure Flock where
  type : LockType
  start : Nat
  len : Nat
  deriving DecidableEq

def recordLockEnd (l : Flock) : Nat :=
  if l.len = 0 then lockOpenEnd
  else if l.start ≥ lockOpenEnd - l.len then lockOpenEnd
  else l.start + l.len

/-- `posix_lock_ranges_overlap`. -/
def rangesOverlap (old new : Flock) : Bool :=
  old.start < recordLockEnd new && new.start < recordLockEnd old

def typesConflict (old new : Flock) : Bool :=
  if old.type = .unlck ∨ new.type = .unlck then false
  else if !rangesOverlap old new then false
  else old.type = .wrlck || new.type = .wrlck

def makeSlice (base : Flock) (start stop : Nat) : Flock :=
  { base with start, len := if stop ≥ lockOpenEnd then 0 else stop - start }

def canMerge (lhs rhs : Flock) : Bool :=
  if lhs.type ≠ rhs.type then false
  else recordLockEnd lhs ≥ rhs.start && recordLockEnd rhs ≥ lhs.start

/-- What a file is known by: its path, or the open file itself. -/
structure FileKey where
  path : String
  identity : Nat
  deriving DecidableEq

def keysMatch (entry key : FileKey) : Bool :=
  if entry.path ≠ "" ∧ key.path ≠ "" then entry.path = key.path
  else entry.identity = key.identity

structure Entry (α : Type) where
  key : FileKey
  owner : α
  lock : Flock
  deriving DecidableEq

abbrev Table (α : Type) := List (Option (Entry α))

section Table

variable {α : Type} [DecidableEq α]

/-- An entry of the same owner that a request cuts. -/
def hit (key : FileKey) (owner : α) (request : Flock) (e : Entry α) : Bool :=
  keysMatch e.key key && e.owner = owner && rangesOverlap e.lock request

/-- What is left of a lock on both sides of a request. -/
def slices (request lock : Flock) : List Flock :=
  (if lock.start < request.start then [makeSlice lock lock.start request.start]
    else []) ++
  (if recordLockEnd request < recordLockEnd lock then
    [makeSlice lock (recordLockEnd request) (recordLockEnd lock)] else [])

/-- The first loop of `replace_same_owner_record_locks_locked`. -/
def clearHits (key : FileKey) (owner : α) (request : Flock) (t : Table α) : Table α :=
  Slots.keep (fun e => !hit key owner request e) t

def preserved (key : FileKey) (owner : α) (request : Flock) (t : Table α) : List Flock :=
  ((Slots.used t).filter (hit key owner request)).flatMap fun e => slices request e.lock

/-- The second loop: a slice that finds no slot is dropped. -/
def restore (key : FileKey) (owner : α) : List Flock → Table α → Table α
  | [], t => t
  | s :: ss, t => restore key owner ss ((Slots.insert t ⟨key, owner, s⟩).getD t)

def replaceSameOwner (key : FileKey) (owner : α) (request : Flock) (t : Table α) : Table α :=
  restore key owner (preserved key owner request t) (clearHits key owner request t)

def mergeLock (lhs rhs : Flock) : Flock :=
  makeSlice lhs (min lhs.start rhs.start) (max (recordLockEnd lhs) (recordLockEnd rhs))

/-- The inner loop of `merge_same_owner_record_locks_locked`: the first entry
that `lhs` can take in. -/
def absorb (key : FileKey) (lhs : Entry α) : Table α → Option (Entry α × Table α)
  | [] => none
  | none :: t => (absorb key lhs t).map fun (e, t) => (e, none :: t)
  | some rhs :: t =>
      if keysMatch rhs.key key && lhs.owner = rhs.owner && canMerge lhs.lock rhs.lock then
        some ({ lhs with lock := mergeLock lhs.lock rhs.lock }, none :: t)
      else (absorb key lhs t).map fun (e, t) => (e, some rhs :: t)

def mergeOnce (key : FileKey) : Table α → Option (Table α)
  | [] => none
  | none :: t => (mergeOnce key t).map (none :: ·)
  | some lhs :: t =>
      if keysMatch lhs.key key then
        match absorb key lhs t with
        | some (e, t) => some (some e :: t)
        | none => (mergeOnce key t).map (some lhs :: ·)
      else (mergeOnce key t).map (some lhs :: ·)

/-- Every round frees a slot, so there are no more rounds than slots. -/
def mergeLoop (key : FileKey) : Nat → Table α → Table α
  | 0, t => t
  | rounds + 1, t =>
      match mergeOnce key t with
      | some t => mergeLoop key rounds t
      | none => t

def mergeSameOwner (key : FileKey) (t : Table α) : Table α := mergeLoop key t.length t

/-- The entry with the lowest start of those that satisfy `p`. -/
def lowest (p : Entry α → Bool) : Table α → Option (Entry α) → Option (Entry α)
  | [], best => best
  | none :: t, best => lowest p t best
  | some e :: t, best =>
      if p e ∧ best.all fun b => e.lock.start < b.lock.start then lowest p t (some e)
      else lowest p t best

end Table

/-- An edge of the wait-for graph. -/
structure WaitEntry where
  key : FileKey
  waiter : Nat
  blockedBy : Nat
  lock : Flock
  deriving DecidableEq

structure Locks where
  posix : Table Nat
  ofd : Table Nat
  waiters : List (Option WaitEntry)
  deriving DecidableEq

/-- What a call returns; `conflictPid` is zero if an open file description
holds the lock. -/
inductive Result where
  | ok
  | eagain (conflictPid : Nat)
  | enfile
  | edeadlk
  deriving DecidableEq

namespace Locks

/-- `find_conflicting_posix_record_lock_locked`. -/
def findConflictingPosix (s : Locks) (key : FileKey) (pid : Nat) (lock : Flock)
    (skipSamePid : Bool) : Option (Entry Nat) :=
  lowest (fun e => keysMatch e.key key && !(skipSamePid && e.owner = pid) &&
    typesConflict e.lock lock) s.posix none

/-- `find_conflicting_ofd_record_lock_locked`. -/
def findConflictingOfd (s : Locks) (key : FileKey) (lock : Flock)
    (skipOwner : Option Nat) : Option (Entry Nat) :=
  lowest (fun e => keysMatch e.key key && !(skipOwner = some e.owner) &&
    typesConflict e.lock lock) s.ofd none

/-- `clear_posix_record_lock_wait_for_pid_locked`: the first edge of the
waiter. -/
def clearWait (pid : Nat) : List (Option WaitEntry) → List (Option WaitEntry)
  | [] => []
  | none :: ws => none :: clearWait pid ws
  | some w :: ws => if w.waiter = pid then none :: ws else some w :: clearWait pid ws

def applyPosixRecordLock (s : Locks) (key : FileKey) (pid : Nat) (lock : Flock) : Locks × Result :=
  if lock.type = .unlck then
    ({ s with
      waiters := clearWait pid s.waiters
      posix := replaceSameOwner key pid lock s.posix }, .ok)
  else
    match s.findConflictingPosix key pid lock true with
    | some e => (s, .eagain e.owner)
    | none =>
        match s.findConflictingOfd key lock none with
        | some _ => (s, .eagain 0)
        | none =>
            let posix := replaceSameOwner key pid lock s.posix
            match Slots.insert posix ⟨key, pid, lock⟩ with
            | some t =>
                ({ s with
                  waiters := clearWait pid s.waiters
                  posix := mergeSameOwner key t }, .ok)
            | none => ({ s with posix }, .enfile)

/-- An open file description is known by its file. -/
def applyOfdRecordLock (s : Locks) (key : FileKey) (lock : Flock) : Locks × Result :=
  let owner := key.identity
  if lock.type = .unlck then
    ({ s with ofd := replaceSameOwner key owner lock s.ofd }, .ok)
  else
    match s.findConflictingOfd key lock (some owner) with
    | some _ => (s, .eagain 0)
    | none =>
        match s.findConflictingPosix key 0 lock false with
        | some _ => (s, .eagain 0)
        | none =>
            let ofd := replaceSameOwner key owner lock s.ofd
            match Slots.insert ofd ⟨key, owner, lock⟩ with
            | some t => ({ s with ofd := mergeSameOwner key t }, .ok)
            | none => ({ s with ofd }, .enfile)

/-- `find_posix_record_lock_waiter`. -/
def findWaiter (pid : Nat) (ws : List (Option WaitEntry)) : Option WaitEntry :=
  (Slots.used ws).find? (·.waiter = pid)

/-- `posix_record_lock_wait_cycle_locked`, with the rounds that are left. -/
def waitCycle (ws : List (Option WaitEntry)) (waiterPid : Nat) : Nat → Nat → Bool
  | 0, _ => false
  | depth + 1, currentPid =>
      if currentPid = 0 then false
      else if currentPid = waiterPid then true
      else
        match findWaiter currentPid ws with
        | none => false
        | some e => if e.blockedBy = 0 then false else waitCycle ws waiterPid depth e.blockedBy

/-- Write an edge over the first one of its waiter. -/
def replaceWait (e : WaitEntry) : List (Option WaitEntry) → Option (List (Option WaitEntry))
  | [] => none
  | none :: ws => (replaceWait e ws).map (none :: ·)
  | some w :: ws =>
      if w.waiter = e.waiter then some (some e :: ws) else (replaceWait e ws).map (some w :: ·)

def notePosixRecordLockWait (s : Locks) (key : FileKey) (pid : Nat) (lock : Flock)
    (blockedBy : Nat) : Locks × Result :=
  if waitCycle s.waiters pid maxRecordLocks blockedBy then (s, .edeadlk)
  else
    let e : WaitEntry := ⟨key, pid, blockedBy, lock⟩
    match replaceWait e s.waiters with
    | some ws => ({ s with waiters := ws }, .ok)
    | none =>
        match Slots.insert s.waiters e with
        | some ws => ({ s with waiters := ws }, .ok)
        | none => (s, .enfile)

/-- The tables after `init_bsd_flock_table`. -/
def empty : Locks where
  posix := List.replicate maxRecordLocks none
  ofd := List.replicate maxRecordLocks none
  waiters := List.replicate maxRecordLocks none

end Locks

/-- A call on the open file `file`. -/
inductive Call where
  | posix (file pid : Nat) (lock : Flock)
  | ofd (file : Nat) (lock : Flock)
  deriving DecidableEq

section Calls

variable (backingPath : Nat → String)

def keyOf (file : Nat) : FileKey := ⟨backingPath file, file⟩

def Locks.call (s : Locks) : Call → Locks × Result
  | .posix file pid lock => s.applyPosixRecordLock (keyOf backingPath file) pid lock
  | .ofd file lock => s.applyOfdRecordLock (keyOf backingPath file) lock

def Locks.run (calls : List Call) : Locks :=
  calls.foldl (fun s c => (s.call backingPath c).1) .empty

end Calls

end F7ly.Fs.RecordLock
