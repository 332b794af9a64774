import Mathlib.Logic.Function.Basic
import F7ly.Mem.Page
import F7ly.Proc.Signal

/-!
# Sleeping on a channel

`register_wait_channel`, `sleep`, `wakeup`, `wakeup_one`,
`wakeup_child_waiters`, `interrupt_sleep_for_signal` and `kill_proc` of
`kernel/proc/proc_manager.cc`. A task is its slot in the process pool. The
tasks that sleep on a channel are found through a bitmap for each bucket of
channels, which is read without the lock of any task.

A step of the system is what happens under the lock of one task, or one read
that is made without it; everything can happen between two steps. A function
that drops the lock of its target and takes it again, as
`futex_remove_waiter` does, is two steps. The lock of the condition is
released in the step in which the task goes to sleep.
-/

namespace F7ly.Proc.Wait

open Signal (ProcState Word)

/-- `k_wait_channel_slot_word_count`, which is also `k_futex_word_count`. -/
def slotWordCount : Nat := (numProcess + 63) / 64

/-- The fields of a `Pcb` that waiting uses. A null channel and an invalid
futex key are 0. -/
structure Pcb where
  state : ProcState
  tgid : Nat
  mm : Word
  chan : Word
  waitChannelRegistered : Bool
  waitChannelBucket : Nat
  futexAddr : Word
  futexKey : Word
  futexPrivate : Bool
  futexBucketIndex : Nat
  futexTimeoutDeadline : Nat
  futexWaitResult : Int
  deriving DecidableEq

/-- The process pool and its two bitmaps, by bucket and slot. -/
structure Pool where
  pcb : Nat → Pcb
  chanBits : Nat → Nat → Bool
  futexBits : Nat → Nat → Bool

def setBit (bits : Nat → Nat → Bool) (bucket id : Nat) (v : Bool) : Nat → Nat → Bool :=
  Function.update bits bucket (Function.update (bits bucket) id v)

/-- The slots whose bits are set in one word of a bucket, in order. -/
def slotsOf (bits : Nat → Bool) (word : Nat) : List Nat :=
  ((List.range 64).map (word * 64 + ·)).filter bits

namespace Pool

def modify (s : Pool) (id : Nat) (p : Pcb) : Pool :=
  { s with pcb := Function.update s.pcb id p }

def setState (s : Pool) (id : Nat) (state : ProcState) : Pool :=
  s.modify id { s.pcb id with state }

end Pool

def waitChannelBucketCount : Nat := 64

def bucketOf (chan : Word) : Nat :=
  let value := chan >>> 3
  let value := value ^^^ value >>> 17
  let value := value ^^^ value >>> 31
  (value &&& 63).toNat

namespace Pool

/-- The bit that the task's fields say it has is taken out. -/
def dropChanBit (s : Pool) (id : Nat) : Nat → Nat → Bool :=
  let p := s.pcb id
  if p.waitChannelRegistered ∧ p.waitChannelBucket < waitChannelBucketCount
  then setBit s.chanBits p.waitChannelBucket id false
  else s.chanBits

def registerWaitChannel (s : Pool) (id : Nat) (chan : Word) : Pool :=
  let p := s.pcb id
  let bucket := bucketOf chan
  if chan = 0 then s
  else if p.waitChannelRegistered ∧ p.waitChannelBucket = bucket ∧ p.chan = chan then s
  else
    { s.modify id { p with waitChannelBucket := bucket,
                           waitChannelRegistered := true, chan } with
      chanBits := setBit (s.dropChanBit id) bucket id true }

def unregisterWaitChannel (s : Pool) (id : Nat) : Pool :=
  { s.modify id { s.pcb id with waitChannelRegistered := false, chan := 0 } with
    chanBits := s.dropChanBit id }

end Pool

/-- How a sleep is cut short: by `interrupt_sleep_for_signal`, by `kill_proc`,
or by the end of the thread group. -/
inductive Cut where
  | signal | kill | group
  deriving DecidableEq

/-- Where a task is in the functions. -/
inductive Pc where
  | idle
  /-- In `sleep`, switched away. -/
  | asleep
  /-- In `wakeup`: the candidates left of the word that was read, and the
  words left. -/
  | waking (chan : Word) (ids words : List Nat)
  /-- A candidate's channel was seen to match; its lock is not taken yet. -/
  | visiting (chan : Word) (id : Nat) (ids words : List Nat)
  | wakingOne (chan : Word) (id : Nat)
  /-- In `wakeup_child_waiters`. -/
  | children (tgid : Nat) (ids : List Nat)
  | childVisit (tgid id : Nat) (ids : List Nat)
  /-- In `futex_remove_waiter`, with the lock of the target dropped; `futex`
  if the target had a futex key. -/
  | cutting (id : Nat) (how : Cut) (futex : Bool)
  deriving DecidableEq

/-- The tasks, and for every task that is in `wakeup` who is owed a wakeup:
who slept on the channel when the call began and was not made runnable
since. -/
structure WaitSystem where
  pool : Pool
  pc : Nat → Pc
  owed : Nat → Nat → Bool

inductive WaitEvent where
  /-- A call of `sleep`; `interrupted` if a signal is found pending once the
  task is registered. -/
  | sleep (a : Nat) (chan : Word) (interrupted : Bool)
  /-- The scheduler picks a task. -/
  | run (a : Nat)
  | yield (a : Nat)
  | wakeup (a : Nat) (chan : Word)
  | wakeupOne (a id : Nat) (chan : Word)
  | wakeupChildren (a parent : Nat)
  /-- A signal or a kill for a task; `futex` if it has a futex key. -/
  | cut (a id : Nat) (how : Cut) (futex : Bool)
  /-- The next step of the call that a task is in; `same` if the futex key is
  the one that was read before. -/
  | go (a : Nat) (same : Bool)

namespace WaitSystem

def goto (s : WaitSystem) (a : Nat) (pc : Pc) : WaitSystem :=
  { s with pc := Function.update s.pc a pc }

def rouse (s : WaitSystem) (id : Nat) : WaitSystem :=
  { s with pool := s.pool.setState id .runnable,
           owed := fun a t => if t = id then false else s.owed a t }

def unregister (s : WaitSystem) (id : Nat) : WaitSystem :=
  { s with pool := s.pool.unregisterWaitChannel id }

def sleepsOn (s : WaitSystem) (id : Nat) (chan : Word) : Bool :=
  (s.pool.pcb id).state = .sleeping && (s.pool.pcb id).chan = chan

/-- `sleep` up to the switch. -/
def sleep (s : WaitSystem) (a : Nat) (chan : Word) (interrupted : Bool) : WaitSystem :=
  let s := { s.goto a .asleep with
             pool := (s.pool.registerWaitChannel a chan).setState a .sleeping }
  if interrupted then s.rouse a else s

/-- The scheduler runs a task; one that comes back into `sleep` returns from
it. -/
def run (s : WaitSystem) (a : Nat) : WaitSystem :=
  let s := { s with pool := s.pool.setState a .running }
  if s.pc a = .asleep then (s.unregister a).goto a .idle else s

/-- `wakeup` under the lock of a candidate. -/
def visit (s : WaitSystem) (chan : Word) (id : Nat) : WaitSystem :=
  if s.sleepsOn id chan then (s.unregister id).rouse id
  else if (s.pool.pcb id).waitChannelRegistered ∧ (s.pool.pcb id).chan = chan
  then s.unregister id
  else s

/-- `wakeup_one` under the lock of its target. -/
def visitOne (s : WaitSystem) (chan : Word) (id : Nat) : WaitSystem :=
  if s.sleepsOn id chan then (s.unregister id).rouse id else s

/-- The end of a signal or a kill: the target is taken out of its channel,
unless its futex key has changed, and made runnable if it sleeps. -/
def cutShort (s : WaitSystem) (id : Nat) (how : Cut) (futex same : Bool) : WaitSystem :=
  let s := if futex && !same then s else s.unregister id
  if (s.pool.pcb id).state = .sleeping ∨ how = .group ∧ (s.pool.pcb id).state = .stopped
  then s.rouse id
  else s

/-- A signal or a kill up to the point where the lock of the target is
dropped. -/
def cut (s : WaitSystem) (a id : Nat) (how : Cut) (futex : Bool) : WaitSystem :=
  match how with
  | .signal =>
      if (s.pool.pcb id).state = .sleeping then s.goto a (.cutting id how futex)
      else s
  | .kill =>
      if (s.pool.pcb id).state = .sleeping then s.goto a (.cutting id how futex)
      else if (s.pool.pcb id).state = .stopped then s.rouse id
      else s
  | .group =>
      if (s.pool.pcb id).state = .zombie ∨ (s.pool.pcb id).state = .unused
      then s
      else s.goto a (.cutting id how futex)

variable (addr : Nat → Word)

/-- The next step of a call. The address of a slot of the pool is the channel
on which its task waits for children. -/
def go (s : WaitSystem) (a : Nat) (same : Bool) : Option WaitSystem :=
  match s.pc a with
  | .idle | .asleep => none
  | .waking _ [] [] => some (s.goto a .idle)
  | .waking chan [] (word :: words) =>
      some (s.goto a (.waking chan
        (slotsOf (s.pool.chanBits (bucketOf chan)) word) words))
  | .waking chan (id :: ids) words =>
      if numProcess ≤ id then some (s.goto a (.waking chan [] words))
      else if id = a ∨ (s.pool.pcb id).chan ≠ chan then
        some (s.goto a (.waking chan ids words))
      else some (s.goto a (.visiting chan id ids words))
  | .visiting chan id ids words =>
      some ((s.visit chan id).goto a (.waking chan ids words))
  | .wakingOne chan id => some ((s.visitOne chan id).goto a .idle)
  | .children _ [] => some (s.goto a .idle)
  | .children tgid (id :: ids) =>
      if id = a ∨ (s.pool.pcb id).chan ≠ addr id then
        some (s.goto a (.children tgid ids))
      else some (s.goto a (.childVisit tgid id ids))
  | .childVisit tgid id ids =>
      if (s.pool.pcb id).tgid = tgid then
        some ((s.visitOne (addr id) id).goto a (.children tgid ids))
      else some (s.goto a (.children tgid ids))
  | .cutting id how futex => some ((s.cutShort id how futex same).goto a .idle)

/-- One event, if it can happen: a task acts while it runs. -/
def step (s : WaitSystem) : WaitEvent → Option WaitSystem
  | .sleep a chan interrupted =>
      if s.pc a = .idle ∧ (s.pool.pcb a).state = .running ∧ a < numProcess then
        some (s.sleep a chan interrupted)
      else none
  | .run a =>
      if (s.pool.pcb a).state = .runnable then some (s.run a) else none
  | .yield a =>
      if (s.pool.pcb a).state = .running then
        some { s with pool := s.pool.setState a .runnable }
      else none
  | .wakeup a chan =>
      if s.pc a = .idle ∧ (s.pool.pcb a).state = .running then
        if chan = 0 then some s
        else
          some { s.goto a (.waking chan [] (List.range slotWordCount)) with
                 owed := Function.update s.owed a fun t => s.sleepsOn t chan }
      else none
  | .wakeupOne a id chan =>
      if s.pc a = .idle ∧ (s.pool.pcb a).state = .running then
        if id = a ∨ (s.pool.pcb id).chan ≠ chan then some s
        else some (s.goto a (.wakingOne chan id))
      else none
  | .wakeupChildren a parent =>
      if s.pc a = .idle ∧ (s.pool.pcb a).state = .running then
        some (s.goto a (.children (s.pool.pcb parent).tgid
          (List.range numProcess)))
      else none
  | .cut a id how futex =>
      if s.pc a = .idle ∧ (s.pool.pcb a).state = .running then
        some (s.cut a id how futex)
      else none
  | .go a same =>
      if (s.pool.pcb a).state = .running then s.go addr a same else none

def init (pool : Pool) : WaitSystem :=
  { pool, pc := fun _ => .idle, owed := fun _ _ => false }

end WaitSystem

end F7ly.Proc.Wait
