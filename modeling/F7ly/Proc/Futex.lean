import F7ly.Proc.WaitChannel

/-!
# Futexes

The keys and buckets of `kernel/proc/futex.cc`, `futex_wakeup`, and
`ProcessManager::wakeup2`, which walks the bitmap of a bucket word by word:
each word is read once, and its bits are visited from the lowest. The locks of
the source and the target bucket are held throughout, so a call is one
function of the pool here.
-/

namespace F7ly.Proc.Wait

open Signal (ProcState Word)

structure FutexKey where
  value : Word
  privateMm : Word
  isPrivate : Bool
  deriving DecidableEq

namespace FutexKey

def invalid : FutexKey := { value := 0, privateMm := 0, isPrivate := false }

def valid (key : FutexKey) : Bool := key.value ≠ 0

/-- `futex_keys_equal`. -/
def equal (lhs rhs : FutexKey) : Bool :=
  lhs.value = rhs.value && lhs.isPrivate = rhs.isPrivate &&
    (!lhs.isPrivate || lhs.privateMm = rhs.privateMm)

/-- `futex_bucket_index_for_key`. -/
def bucket (key : FutexKey) : Nat :=
  let hash := if key.isPrivate then key.value ^^^ key.privateMm else key.value
  let hash := hash ^^^ hash >>> 17
  let hash := hash ^^^ hash >>> 31
  (hash &&& 63).toNat

end FutexKey

inductive FutexKeyScope where
  | auto | privateFlag
  deriving DecidableEq

/-- What the caller's address space says about a user address: the page it is
mapped to, 0 if none, and whether a shared mapping covers it. -/
structure Mapping where
  pa : Word
  shared : Bool

def resolveFutexKey (mm uaddr : Word) (m : Mapping) (scope : FutexKeyScope) : FutexKey :=
  if uaddr = 0 ∨ m.pa = 0 ∨ mm = 0 then .invalid
  else if scope = .privateFlag ∨ m.shared = false then
    { value := uaddr, privateMm := mm, isPrivate := true }
  else { value := m.pa, privateMm := 0, isPrivate := false }

/-- `futex_waiter_key_locked`. -/
def Pcb.key (p : Pcb) : FutexKey :=
  if p.futexKey = 0 then .invalid
  else { value := p.futexKey, privateMm := if p.futexPrivate then p.mm else 0,
         isPrivate := p.futexPrivate }

/-- `clear_futex_waiter_key_locked`. -/
def Pcb.clearFutexKey (p : Pcb) : Pcb :=
  { p with futexAddr := 0, futexPrivate := false, futexBucketIndex := 0,
           futexKey := 0, futexTimeoutDeadline := 0 }

/-- A call of `wakeup2`; `target` is `uaddr2` with its key, if there is one. -/
structure WakeCall where
  key : FutexKey
  val : Int
  target : Option (Word × FutexKey)
  val2 : Int
  includeRequeued : Bool

namespace WakeCall

def canRequeue (c : WakeCall) : Bool := c.target.isSome && 0 < c.val2

def waits (c : WakeCall) (p : Pcb) : Bool :=
  p.key.valid && p.key.equal c.key && (p.state = .sleeping || p.state = .runnable)

end WakeCall

/-- The pool and the two counters of the walk. -/
structure Scan where
  pool : Pool
  count1 : Int
  count2 : Int

namespace Scan

/-- The bit of a task in the source bucket is taken out. -/
def dropBit (s : Scan) (c : WakeCall) (id : Nat) : Scan :=
  { s with pool :=
      { s.pool with
        futexBits := setBit s.pool.futexBits c.key.bucket id false } }

def wake (s : Scan) (c : WakeCall) (id : Nat) : Scan :=
  let s := s.dropBit c id
  let p := s.pool.pcb id
  let p := if p.state = .sleeping then { p with state := .runnable } else p
  let pool := s.pool.modify id { p.clearFutexKey with futexWaitResult := 0 }
  { s with pool := pool.unregisterWaitChannel id, count1 := s.count1 + 1 }

def requeue (s : Scan) (c : WakeCall) (uaddr2 : Word) (key2 : FutexKey) (id : Nat) : Scan :=
  let s := s.dropBit c id
  let pool := { s.pool with
    futexBits := setBit s.pool.futexBits key2.bucket id true }
  let pool := pool.unregisterWaitChannel id
  let pool := pool.modify id
    { pool.pcb id with futexAddr := uaddr2, futexPrivate := key2.isPrivate,
                       futexBucketIndex := key2.bucket,
                       futexKey := key2.value }
  { s with pool := pool.registerWaitChannel id key2.value,
           count2 := s.count2 + 1 }

/-- What `wakeup2` does to one task. -/
def visit (s : Scan) (c : WakeCall) (id : Nat) : Scan :=
  let p := s.pool.pcb id
  if numProcess ≤ id then s
  else if !(p.key.valid && p.key.equal c.key) then
    if p.futexKey = 0 then s.dropBit c id else s
  else if p.state = .sleeping ∨ p.state = .runnable then
    if s.count1 < c.val then s.wake c id
    else
      match c.target with
      | some (uaddr2, key2) =>
          if p.state = .sleeping ∧ c.canRequeue ∧ s.count2 < c.val2 then
            s.requeue c uaddr2 key2 id
          else s
      | none => s
  else s

def finished (s : Scan) (c : WakeCall) : Bool :=
  c.val ≤ s.count1 && (!c.canRequeue || c.val2 ≤ s.count2)

/-- The bits of one word, and whether the walk returned among them. -/
def visitAll (c : WakeCall) : List Nat → Scan → Scan × Bool
  | [], s => (s, false)
  | id :: ids, s =>
      let s := s.visit c id
      if s.finished c then (s, true) else visitAll c ids s

def walk (c : WakeCall) : List Nat → Scan → Scan
  | [], s => s
  | word :: words, s =>
      match visitAll c (slotsOf (s.pool.futexBits c.key.bucket) word) s with
      | (s, true) => s
      | (s, false) => walk c words s

def result (s : Scan) (c : WakeCall) : Int :=
  s.count1 + if c.includeRequeued then s.count2 else 0

end Scan

def wakeup2 (pool : Pool) (c : WakeCall) : Int × Pool :=
  if c.val < 0 ∨ c.val2 < 0 ∨ (c.val = 0 ∧ c.canRequeue = false) then (0, pool)
  else
    let s := Scan.walk c (List.range slotWordCount)
      { pool, count1 := 0, count2 := 0 }
    (s.result c, s.pool)

/-- The arguments of `futex_wakeup`, with what the caller's address space
says about its two addresses; `expected` is the word that `FUTEX_CMP_REQUEUE`
compares, and `word` the one that is read, if it can be. -/
structure WakeArgs where
  mm : Word
  uaddr : Word
  map : Mapping
  val : Int
  uaddr2 : Word
  map2 : Mapping
  val2 : Int
  scope : FutexKeyScope
  includeRequeued : Bool
  expected : Option Int
  word : Option Int

namespace WakeArgs

def key (args : WakeArgs) : FutexKey :=
  resolveFutexKey args.mm args.uaddr args.map args.scope

def key2 (args : WakeArgs) : FutexKey :=
  resolveFutexKey args.mm args.uaddr2 args.map2 args.scope

def call (args : WakeArgs) : WakeCall :=
  { key := args.key, val := args.val,
    target := if args.uaddr2 = 0 then none else some (args.uaddr2, args.key2),
    val2 := args.val2, includeRequeued := args.includeRequeued }

end WakeArgs

/-- A negative count would be reported as a missing process. -/
def reportWoken (r : Int × Pool) : Int × Pool :=
  (if 0 ≤ r.1 then r.1 else -3, r.2)

def futexWakeup (pool : Pool) (args : WakeArgs) : Int × Pool :=
  if args.val < 0 then (-22, pool)
  else if args.uaddr2 ≠ 0 ∧ args.val2 < 0 then (-22, pool)
  else if args.uaddr = 0 then (-14, pool)
  else if !args.key.valid then (-14, pool)
  else if args.uaddr2 ≠ 0 ∧ !args.key2.valid then (-14, pool)
  else
    match args.expected, args.word with
    | some _, none => (-14, pool)
    | some expected, some word =>
        if word = expected then reportWoken (wakeup2 pool args.call)
        else (-11, pool)
    | none, _ => reportWoken (wakeup2 pool args.call)

end F7ly.Proc.Wait
