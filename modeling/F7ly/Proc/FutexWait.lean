import F7ly.Proc.Futex

/-!
# Waiting on a futex

`futex_wait`, `futex_remove_waiter`, `futex_check_timeouts`, `futex_wakeup`
and the signals and kills that cut a wait short, by any number of tasks at
once. Each bucket has a lock, and a step is what happens under the lock of one
task, as in the system of the wait channels; the lock of a task is dropped
whenever the source drops it, and anything can happen in between.

What a task reads from user memory, whether a signal is pending for it, and
the clock are part of the event.
-/

namespace F7ly.Proc.Wait

open Signal (ProcState Word)

/-- What is done once `futex_remove_waiter` returns: the wait looks at its key
again, the target of a signal or a kill is made runnable, or nothing. -/
inductive After where
  | recheck
  | rouse (how : Cut)
  | leave
  deriving DecidableEq

inductive FutexPc where
  | idle
  /-- Asleep elsewhere in the kernel. -/
  | blocked
  /-- At the head of the loop of `futex_wait`. -/
  | waitLoop
  /-- The key was read, and the task waits for the lock of its bucket. -/
  | waitWant (key : FutexKey)
  | waitHeld (bucket : Nat)
  /-- Key and bit are set, and the task is about to sleep on `chan`. -/
  | waitMarked (bucket : Nat) (chan : Word)
  | waitAsleep (bucket : Nat)
  /-- Back from `sleep`, which takes the lock of the bucket again. -/
  | waitBack (bucket : Nat)
  | waitRelocked (bucket : Nat)
  /-- In `futex_remove_waiter`, with the lock of the target dropped. -/
  | removeNone (id : Nat) (after : After)
  | removeWant (id : Nat) (key : FutexKey) (after : After)
  | removeHeld (id : Nat) (key : FutexKey) (after : After)
  /-- In `futex_wakeup`, with the locks it has still to take. -/
  | wakeWant (args : WakeArgs) (buckets : List Nat)
  | waking (c : WakeCall) (ids words : List Nat) (count1 count2 : Int)
  /-- In `futex_check_timeouts`, with what was read without a lock. -/
  | expireWant (id : Nat) (key : Word) (bucket now : Nat)
  | expireHeld (id : Nat) (key : Word) (bucket now : Nat)

structure FutexSystem where
  pool : Pool
  pc : Nat → FutexPc
  /-- Who holds the lock of a bucket. -/
  lock : Nat → Option Nat

inductive FutexEvent where
  /-- `futex_wait` reads its word and resolves its key, at its start or when it
  goes around its loop. -/
  | wait (a : Nat) (value : Word) (isPrivate : Bool)
  /-- It gives up there: a bad word, a timeout or a signal. -/
  | giveUp (a : Nat)
  /-- It reads again under the lock of the bucket. -/
  | reload (a : Nat) (key : Option (Word × Bool)) (deadline : Nat)
  | sleep (a : Nat) (interrupted : Bool)
  /-- It is back with both locks; `pending` if a signal is, and `again` if an
  absolute timeout turns out not to have come yet. -/
  | back (a : Nat) (pending again : Bool)
  /-- The scheduler picks a task. -/
  | run (a : Nat)
  | block (a : Nat)
  /-- Someone wakes a channel that the task sleeps on. -/
  | stir (id : Nat)
  | remove (a id : Nat)
  | cut (a id : Nat) (how : Cut)
  | wake (a : Nat) (args : WakeArgs)
  | expire (a id : Nat) (key : Word) (bucket now : Nat)
  /-- A task gets the lock of the bucket it waits for. -/
  | take (a : Nat)
  /-- The next step of a removal, a wake or a timeout. -/
  | go (a : Nat)

namespace FutexSystem

def goto (s : FutexSystem) (a : Nat) (pc : FutexPc) : FutexSystem :=
  { s with pc := Function.update s.pc a pc }

def release (s : FutexSystem) (bucket : Nat) : FutexSystem :=
  { s with lock := Function.update s.lock bucket none }

def withPool (s : FutexSystem) (pool : Pool) : FutexSystem := { s with pool }

def running (s : FutexSystem) (a : Nat) : Bool :=
  (s.pool.pcb a).state = .running

def ownKey (s : FutexSystem) (a : Nat) (value : Word) (isPrivate : Bool) : FutexKey :=
  { value, privateMm := if isPrivate then (s.pool.pcb a).mm else 0, isPrivate }

/-- `futex_remove_waiter` up to the point where the lock of its target is
dropped. -/
def startRemove (s : FutexSystem) (a id : Nat) (after : After) : FutexSystem :=
  let key := (s.pool.pcb id).key
  if key.valid then s.goto a (.removeWant id key after)
  else s.goto a (.removeNone id after)

def finishRemove (s : FutexSystem) (a id : Nat) : After → FutexSystem
  | .leave => s.goto a .idle
  | .recheck =>
      if (s.pool.pcb id).futexKey = 0 then s.goto a .idle else s.goto a .waitLoop
  | .rouse how =>
      if (s.pool.pcb id).state = .sleeping ∨ how = .group ∧ (s.pool.pcb id).state = .stopped
      then (s.withPool (s.pool.setState id .runnable)).goto a .idle
      else s.goto a .idle

/-- The key of a task is cleared and it is taken out of its channel. -/
def clearWaiter (pool : Pool) (id : Nat) : Pool :=
  (pool.modify id (pool.pcb id).clearFutexKey).unregisterWaitChannel id

def dropFutexBit (pool : Pool) (bucket id : Nat) : Pool :=
  { pool with futexBits := setBit pool.futexBits bucket id false }

/-- The end of `futex_remove_waiter` for a target that had a key. -/
def removeKey (pool : Pool) (id : Nat) (key : FutexKey) : Pool :=
  if (pool.pcb id).key.equal key then
    clearWaiter (dropFutexBit pool key.bucket id) id
  else pool

/-- `futex_sleep_with_interlock` up to `sleep`, without `_futex_addr`, the user's
address, which nothing reads. -/
def publish (s : FutexSystem) (a : Nat) (key : FutexKey) (deadline : Nat) : FutexSystem :=
  let pool := s.pool.modify a
    { s.pool.pcb a with futexKey := key.value, futexPrivate := key.isPrivate,
                        futexBucketIndex := key.bucket,
                        futexTimeoutDeadline := deadline, futexWaitResult := 0 }
  (s.withPool { pool with
    futexBits := setBit pool.futexBits key.bucket a true }).goto a
      (.waitMarked key.bucket key.value)

/-- The second look, with the lock of the bucket held. -/
def reload (s : FutexSystem) (a bucket : Nat) (key : Option (Word × Bool))
    (deadline : Nat) : FutexSystem :=
  match key with
  | none => (s.release bucket).startRemove a a .leave
  | some (value, isPrivate) =>
      let key := s.ownKey a value isPrivate
      if !key.valid then (s.release bucket).startRemove a a .leave
      else if key.bucket ≠ bucket then (s.release bucket).goto a .waitLoop
      else s.publish a key deadline

/-- `sleep`: the lock of the bucket is released once the task is asleep. -/
def sleep (s : FutexSystem) (a bucket : Nat) (chan : Word) (interrupted : Bool) : FutexSystem :=
  let pool := (s.pool.registerWaitChannel a chan).setState a .sleeping
  let pool := if interrupted then pool.setState a .runnable else pool
  ((s.withPool pool).release bucket).goto a (.waitAsleep bucket)

/-- After `sleep`: with a signal pending the task removes itself. -/
def back (s : FutexSystem) (a bucket : Nat) (pending again : Bool) : FutexSystem :=
  let s := s.release bucket
  if pending then s.startRemove a a .recheck
  else if (s.pool.pcb a).futexKey = 0 ∧ again = false then s.goto a .idle
  else s.goto a .waitLoop

/-- A task that the scheduler picks returns from its sleep. -/
def run (s : FutexSystem) (a : Nat) : FutexSystem :=
  let s := s.withPool (s.pool.setState a .running)
  match s.pc a with
  | .blocked => (s.withPool (s.pool.unregisterWaitChannel a)).goto a .idle
  | .waitAsleep bucket =>
      (s.withPool (s.pool.unregisterWaitChannel a)).goto a (.waitBack bucket)
  | _ => s

def cut (s : FutexSystem) (a id : Nat) (how : Cut) : FutexSystem :=
  match how with
  | .signal =>
      if (s.pool.pcb id).state = .sleeping then
        s.startRemove a id (.rouse how)
      else s
  | .kill =>
      if (s.pool.pcb id).state = .sleeping then
        s.startRemove a id (.rouse how)
      else if (s.pool.pcb id).state = .stopped then
        s.withPool (s.pool.setState id .runnable)
      else s
  | .group =>
      if (s.pool.pcb id).state = .zombie ∨ (s.pool.pcb id).state = .unused
      then s
      else s.startRemove a id (.rouse how)

/-- A wake is refused before it takes a lock. -/
def refused (args : WakeArgs) : Bool :=
  args.val < 0 || (args.uaddr2 ≠ 0 && args.val2 < 0) || !args.key.valid ||
    (args.uaddr2 ≠ 0 && !args.key2.valid)

/-- The buckets of a wake, in the order in which their locks are taken. -/
def bucketsOf (args : WakeArgs) : List Nat :=
  let source := args.key.bucket
  let target := args.key2.bucket
  if args.uaddr2 = 0 ∨ target = source then [source]
  else if target < source then [target, source]
  else [source, target]

def releaseWake (s : FutexSystem) (a : Nat) (c : WakeCall) : FutexSystem :=
  let s := match c.target with
    | some (_, key2) => s.release key2.bucket
    | none => s
  (s.release c.key.bucket).goto a .idle

/-- All locks are held: the comparison, and the start of the walk. -/
def startWalk (s : FutexSystem) (a : Nat) (args : WakeArgs) : FutexSystem :=
  let c := args.call
  if args.expected.isSome && args.word ≠ args.expected then s.releaseWake a c
  else if c.val < 0 ∨ c.val2 < 0 ∨ (c.val = 0 ∧ c.canRequeue = false) then
    s.releaseWake a c
  else s.goto a (.waking c [] (List.range slotWordCount) 0 0)

def visit (s : FutexSystem) (a : Nat) (c : WakeCall) (id : Nat)
    (ids words : List Nat) (count1 count2 : Int) : FutexSystem :=
  let scan := Scan.visit { pool := s.pool, count1, count2 } c id
  let s := s.withPool scan.pool
  if scan.finished c then s.releaseWake a c
  else s.goto a (.waking c ids words scan.count1 scan.count2)

def expire (pool : Pool) (id : Nat) (key : Word) (bucket now : Nat) : Pool :=
  let p := pool.pcb id
  if p.futexKey = key ∧ p.futexBucketIndex = bucket ∧
      p.futexTimeoutDeadline ≠ 0 ∧ p.futexTimeoutDeadline ≤ now ∧
      p.state = .sleeping ∧ p.chan = key
  then
    let pool := dropFutexBit pool bucket id
    let pool := pool.modify id
      { (pool.pcb id).clearFutexKey with futexWaitResult := -110 }
    (pool.unregisterWaitChannel id).setState id .runnable
  else pool

/-- The bucket whose lock a task waits for, and where it goes with it. -/
def wants : FutexPc → Option (Nat × FutexPc)
  | .waitWant key => some (key.bucket, .waitHeld key.bucket)
  | .waitBack bucket => some (bucket, .waitRelocked bucket)
  | .removeWant id key after => some (key.bucket, .removeHeld id key after)
  | .wakeWant args (bucket :: buckets) => some (bucket, .wakeWant args buckets)
  | .expireWant id key bucket now => some (bucket, .expireHeld id key bucket now)
  | _ => none

def go (s : FutexSystem) (a : Nat) : Option FutexSystem :=
  match s.pc a with
  | .removeNone id after =>
      some ((s.withPool (clearWaiter s.pool id)).finishRemove a id after)
  | .removeHeld id key after =>
      some (((s.withPool (removeKey s.pool id key)).release
        key.bucket).finishRemove a id after)
  | .wakeWant args [] => some (s.startWalk a args)
  | .waking c [] [] _ _ => some (s.releaseWake a c)
  | .waking c [] (word :: words) count1 count2 =>
      some (s.goto a (.waking c
        (slotsOf (s.pool.futexBits c.key.bucket) word) words count1 count2))
  | .waking c (id :: ids) words count1 count2 =>
      some (s.visit a c id ids words count1 count2)
  | .expireHeld id key bucket now =>
      some (((s.withPool (expire s.pool id key bucket now)).release
        bucket).goto a .idle)
  | _ => none

/-- One event, if it can happen: a task acts while it runs. -/
def step (s : FutexSystem) : FutexEvent → Option FutexSystem
  | .wait a value isPrivate =>
      let key := s.ownKey a value isPrivate
      if s.running a ∧ key.valid then
        match s.pc a with
        | .idle =>
            some ((s.withPool (s.pool.modify a { s.pool.pcb a with
              futexTimeoutDeadline := 0, futexWaitResult := 0 })).goto a
                (.waitWant key))
        | .waitLoop => some (s.goto a (.waitWant key))
        | _ => none
      else none
  | .giveUp a =>
      if s.running a then
        match s.pc a with
        | .waitLoop => some (s.startRemove a a .leave)
        | _ => none
      else none
  | .reload a key deadline =>
      if s.running a then
        match s.pc a with
        | .waitHeld bucket => some (s.reload a bucket key deadline)
        | _ => none
      else none
  | .sleep a interrupted =>
      if s.running a then
        match s.pc a with
        | .waitMarked bucket chan => some (s.sleep a bucket chan interrupted)
        | _ => none
      else none
  | .back a pending again =>
      if s.running a then
        match s.pc a with
        | .waitRelocked bucket => some (s.back a bucket pending again)
        | _ => none
      else none
  | .run a => if (s.pool.pcb a).state = .runnable then some (s.run a) else none
  | .block a =>
      if s.running a then
        match s.pc a with
        | .idle =>
            some ((s.withPool (s.pool.setState a .sleeping)).goto a .blocked)
        | _ => none
      else none
  | .stir id =>
      if (s.pool.pcb id).state = .sleeping then
        some (s.withPool ((s.pool.unregisterWaitChannel id).setState id
          .runnable))
      else none
  | .remove a id =>
      if s.running a then
        match s.pc a with
        | .idle => some (s.startRemove a id .leave)
        | _ => none
      else none
  | .cut a id how =>
      if s.running a then
        match s.pc a with
        | .idle => some (s.cut a id how)
        | _ => none
      else none
  | .wake a args =>
      if s.running a then
        match s.pc a with
        | .idle =>
            if refused args then some s
            else some (s.goto a (.wakeWant args (bucketsOf args)))
        | _ => none
      else none
  | .expire a id key bucket now =>
      if s.running a ∧ id ≠ a ∧ bucket < 64 ∧ key ≠ 0 then
        match s.pc a with
        | .idle => some (s.goto a (.expireWant id key bucket now))
        | _ => none
      else none
  | .take a =>
      match wants (s.pc a) with
      | some (bucket, pc) =>
          if s.running a ∧ s.lock bucket = none then
            some ({ s with
              lock := Function.update s.lock bucket (some a) }.goto a pc)
          else none
      | none => none
  | .go a => if s.running a then s.go a else none

def init (pool : Pool) : FutexSystem :=
  { pool, pc := fun _ => .idle, lock := fun _ => none }

end FutexSystem

end F7ly.Proc.Wait
