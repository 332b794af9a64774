import Mathlib
import F7ly.Lib.Run
import F7ly.Proc.FutexWait
import F7ly.Proofs.FutexWake

/-!
# The index of the futex waiters

A task with a key has its bit in the bucket of the key and in no other: key
and bit are changed together, under the lock of the task, wherever the source
does it right. It does not in three places. `futex_remove_waiter` clears the
key of a task that had none when it looked, without looking again; a wait that
goes around its loop writes a new key over the old one; and a requeue files a
waiter of another address space under the bucket of the caller's key.
`Settled` leaves these out.
-/

namespace F7ly.Proc.Wait

open FutexSystem Pool

open Signal (ProcState Word)
open F7ly

theorem FutexKey.bucket_of_equal {k k' : FutexKey} (h : k.equal k' = true) :
    k.bucket = k'.bucket := by
  rw [equal, Bool.and_eq_true, Bool.and_eq_true, decide_eq_true_iff, decide_eq_true_iff] at h
  obtain ⟨⟨hvalue, hpriv⟩, hmm⟩ := h
  rw [bucket, bucket, ← hvalue, ← hpriv]
  cases hp : k.isPrivate with
  | false => rfl
  | true =>
      rw [hp] at hmm
      rw [show k.privateMm = k'.privateMm by simpa using hmm]

namespace Pool

/-- A task's bit is in the bucket of its key, if it has one. -/
structure Filed (s : Pool) (id : Nat) : Prop where
  bits : ∀ b, s.futexBits b id = true ↔ (s.pcb id).futexKey ≠ 0 ∧ b = (s.pcb id).key.bucket
  index : (s.pcb id).futexKey ≠ 0 → (s.pcb id).futexBucketIndex = (s.pcb id).key.bucket

/-- The futex fields and bits are as they were. -/
structure Kept (s s' : Pool) : Prop where
  key : ∀ id, (s'.pcb id).futexKey = (s.pcb id).futexKey
  isPrivate : ∀ id, (s'.pcb id).futexPrivate = (s.pcb id).futexPrivate
  mm : ∀ id, (s'.pcb id).mm = (s.pcb id).mm
  index : ∀ id, (s'.pcb id).futexBucketIndex = (s.pcb id).futexBucketIndex
  bits : s'.futexBits = s.futexBits

theorem Kept.refl (s : Pool) : s.Kept s :=
  ⟨fun _ => rfl, fun _ => rfl, fun _ => rfl, fun _ => rfl, rfl⟩

theorem Kept.trans {s s' s'' : Pool} (h : s.Kept s') (h' : s'.Kept s'') : s.Kept s'' :=
  ⟨fun id => (h'.key id).trans (h.key id),
    fun id => (h'.isPrivate id).trans (h.isPrivate id),
    fun id => (h'.mm id).trans (h.mm id),
    fun id => (h'.index id).trans (h.index id), h'.bits.trans h.bits⟩

theorem Filed.kept {s s' : Pool} {id : Nat} (h : s.Filed id) (hk : s.Kept s') : s'.Filed id := by
  have hkey : (s'.pcb id).key = (s.pcb id).key := by
    rw [Pcb.key, Pcb.key, hk.key, hk.isPrivate, hk.mm]
  refine ⟨fun b => ?_, ?_⟩
  · rw [hk.bits, hk.key, hkey]
    exact h.bits b
  · rw [hk.key, hk.index, hkey]
    exact h.index

theorem kept_modify (s : Pool) (id : Nat) {p : Pcb} (hkey : p.futexKey = (s.pcb id).futexKey)
    (hpriv : p.futexPrivate = (s.pcb id).futexPrivate) (hmm : p.mm = (s.pcb id).mm)
    (hindex : p.futexBucketIndex = (s.pcb id).futexBucketIndex) : s.Kept (s.modify id p) := by
  have hcase : ∀ t, (s.modify id p).pcb t = p ∧ t = id ∨ (s.modify id p).pcb t = s.pcb t := by
    intro t
    by_cases ht : t = id
    · subst ht
      exact .inl ⟨pcb_modify .., rfl⟩
    · exact .inr (pcb_modify_of_ne _ _ ht)
  refine ⟨fun t => ?_, fun t => ?_, fun t => ?_, fun t => ?_, rfl⟩ <;>
    rcases hcase t with ⟨h, rfl⟩ | h <;> rw [h] <;> assumption

theorem kept_setState (s : Pool) (id : Nat) (st : ProcState) : s.Kept (s.setState id st) :=
  kept_modify s id rfl rfl rfl rfl

theorem kept_unregister (s : Pool) (id : Nat) : s.Kept (s.unregisterWaitChannel id) := by
  have h := kept_modify s id
    (p := { s.pcb id with waitChannelRegistered := false, chan := 0 })
    rfl rfl rfl rfl
  exact ⟨h.key, h.isPrivate, h.mm, h.index, rfl⟩

theorem kept_register (s : Pool) (id : Nat) (chan : Word) :
    s.Kept (s.registerWaitChannel id chan) := by
  have hcase : ∀ t, t = id ∨ (s.registerWaitChannel id chan).pcb t = s.pcb t := by
    intro t
    by_cases ht : t = id
    · exact .inl ht
    · exact .inr (register_of_ne s chan ht).1
  obtain ⟨_, hmm, hkey, hpriv, hindex⟩ := pcb_register s id chan
  refine ⟨fun t => ?_, fun t => ?_, fun t => ?_, fun t => ?_, futexBits_register ..⟩ <;>
    rcases hcase t with rfl | h <;> first | assumption | rw [h]

theorem Filed.of_ne {s s' : Pool} {t : Nat} (h : s.Filed t) (hpcb : s'.pcb t = s.pcb t)
    (hbits : ∀ b, s'.futexBits b t = s.futexBits b t) : s'.Filed t := by
  refine ⟨fun b => ?_, ?_⟩
  · rw [hbits, hpcb]
    exact h.bits b
  · rw [hpcb]
    exact h.index

theorem filed_of_none {s : Pool} {id : Nat} (hkey : (s.pcb id).futexKey = 0)
    (hbits : ∀ b, s.futexBits b id = false) : s.Filed id := by
  refine ⟨fun b => ?_, fun h => absurd hkey h⟩
  rw [hbits, hkey]
  simp

theorem Filed.dropped {s : Pool} {id b : Nat} (h : s.Filed id)
    (hb : (s.pcb id).futexKey ≠ 0 → b = (s.pcb id).key.bucket) (b' : Nat) :
    setBit s.futexBits b id false b' id = false := by
  by_cases he : b' = b
  · rw [he]
    exact setBit_self ..
  · rw [setBit_of_ne_bucket _ _ _ _ he]
    refine Bool.eq_false_iff.mpr fun hbit => he ?_
    obtain ⟨hne, hbucket⟩ := (h.bits b').mp hbit
    rw [hbucket, hb hne]

end Pool

namespace FutexSystem

open Pool

theorem filed_clearWaiter {s : Pool} {id : Nat} (h : ∀ t, s.Filed t)
    (hbits : ∀ b, s.futexBits b id = false) (t : Nat) : (clearWaiter s id).Filed t := by
  have hbase : (s.modify id (s.pcb id).clearFutexKey).Filed t := by
    by_cases ht : t = id
    · subst ht
      exact filed_of_none (by rw [pcb_modify]; rfl) hbits
    · exact (h t).of_ne (pcb_modify_of_ne _ _ ht) fun _ => rfl
  exact hbase.kept (kept_unregister ..)

theorem filed_dropped {s : Pool} {id b : Nat} (h : ∀ t, s.Filed t)
    (hb : (s.pcb id).futexKey ≠ 0 → b = (s.pcb id).key.bucket) {p : Pcb}
    (hp : p.futexKey = 0) (t : Nat) : ((dropFutexBit s b id).modify id p).Filed t := by
  by_cases ht : t = id
  · subst ht
    exact filed_of_none (by rw [pcb_modify]; exact hp) ((h t).dropped hb)
  · exact (h t).of_ne (pcb_modify_of_ne _ _ ht)
      fun b' => setBit_of_ne_slot _ _ _ _ ht

theorem filed_removeKey {s : Pool} (h : ∀ t, s.Filed t) (id : Nat)
    (key : FutexKey) (t : Nat) : (removeKey s id key).Filed t := by
  rw [removeKey]
  split
  · next he =>
    exact (filed_dropped h (fun _ => (FutexKey.bucket_of_equal he).symm) rfl
      t).kept (kept_unregister ..)
  · exact h t

theorem filed_expire {s : Pool} (h : ∀ t, s.Filed t) (id : Nat) (key : Word)
    (bucket now : Nat) (t : Nat) : (expire s id key bucket now).Filed t := by
  rw [expire]
  split
  · next hc =>
    refine ((filed_dropped h (fun hne => ?_) rfl t).kept
      (kept_unregister ..)).kept (kept_setState ..)
    rw [← hc.2.1]
    exact (h id).index hne
  · exact h t

theorem filed_publish {s : FutexSystem} (h : ∀ t, s.pool.Filed t) {a : Nat}
    {value : Word} {isPrivate : Bool} (deadline : Nat)
    (hvalid : (s.ownKey a value isPrivate).valid = true) (hold : (s.pool.pcb a).futexKey = 0 ∨
      (s.pool.pcb a).key.bucket = (s.ownKey a value isPrivate).bucket) (t : Nat) :
    (s.publish a (s.ownKey a value isPrivate) deadline).pool.Filed t := by
  have hne : value ≠ 0 := of_decide_eq_true hvalid
  by_cases ht : t = a
  · subst ht
    have hpcb : (s.publish t (s.ownKey t value isPrivate) deadline).pool.pcb t =
        { s.pool.pcb t with
          futexKey := value, futexPrivate := isPrivate,
          futexBucketIndex := (s.ownKey t value isPrivate).bucket,
          futexTimeoutDeadline := deadline, futexWaitResult := 0 } :=
      Function.update_self ..
    have hkey : ((s.publish t (s.ownKey t value isPrivate)
        deadline).pool.pcb t).key = s.ownKey t value isPrivate := by
      rw [hpcb, Pcb.key]
      rw [if_neg hne]
      rfl
    refine ⟨fun b => ?_, fun _ => ?_⟩
    · rw [hkey, hpcb]
      show setBit s.pool.futexBits (s.ownKey t value isPrivate).bucket t true b t
        = true ↔ value ≠ 0 ∧ _
      by_cases hb : b = (s.ownKey t value isPrivate).bucket
      · rw [hb, setBit_self]
        exact ⟨fun _ => ⟨hne, rfl⟩, fun _ => rfl⟩
      · rw [setBit_of_ne_bucket _ _ _ _ hb, (h t).bits b]
        refine ⟨?_, fun hand => absurd hand.2 hb⟩
        rintro ⟨hk, he⟩
        rcases hold with hz | hz
        · exact absurd hz hk
        · exact absurd (he.trans hz) hb
    · rw [hkey, hpcb]
  · exact (h t).of_ne (Function.update_of_ne ht ..)
      fun b => setBit_of_ne_slot _ _ _ _ ht

/-- Moved to the target, a task is filed under its key there if the key is
its own. -/
theorem filed_requeue {pool : Pool} (h : ∀ t, pool.Filed t) {c : WakeCall}
    {id : Nat} (he : (pool.pcb id).key.equal c.key = true) {count1 count2 : Int}
    (uaddr2 : Word) {key2 : FutexKey} (hvalid : key2.valid = true)
    (hown : key2.isPrivate = true → (pool.pcb id).mm = key2.privateMm) (t : Nat) :
    (Scan.requeue { pool, count1, count2 } c uaddr2 key2 id).pool.Filed t := by
  have hne : key2.value ≠ 0 := of_decide_eq_true hvalid
  -- The channel is registered last, and does not matter.
  refine Filed.kept (s := modify (unregisterWaitChannel
      { dropFutexBit pool c.key.bucket id with
        futexBits := setBit (dropFutexBit pool c.key.bucket id).futexBits
          key2.bucket id true } id) id
      { (unregisterWaitChannel
        { dropFutexBit pool c.key.bucket id with
          futexBits := setBit (dropFutexBit pool c.key.bucket id).futexBits
            key2.bucket id true } id).pcb id with
        futexAddr := uaddr2, futexPrivate := key2.isPrivate,
        futexBucketIndex := key2.bucket, futexKey := key2.value })
    ?_ (kept_register ..)
  by_cases ht : t = id
  · subst ht
    have hbucket : ∀ p : Pcb, p.futexKey = key2.value →
        p.futexPrivate = key2.isPrivate → p.mm = (pool.pcb t).mm →
        p.key.bucket = key2.bucket := by
      intro p hkey hpriv hmm
      refine FutexKey.bucket_of_equal
        ((WakeCall.key_equal_iff hvalid hkey hpriv).mpr fun hp => ?_)
      rw [hmm]
      exact hown hp
    have hmm : (unregisterWaitChannel
        { dropFutexBit pool c.key.bucket t with
          futexBits := setBit (dropFutexBit pool c.key.bucket t).futexBits
            key2.bucket t true } t).pcb t =
        { pool.pcb t with waitChannelRegistered := false, chan := 0 } :=
      pcb_unregister ..
    refine ⟨fun b => ?_, fun _ => ?_⟩
    · rw [pcb_modify, hbucket _ rfl rfl (by rw [hmm])]
      show setBit (dropFutexBit pool c.key.bucket t).futexBits key2.bucket t
        true b t = true ↔ key2.value ≠ 0 ∧ _
      by_cases hb : b = key2.bucket
      · rw [hb, setBit_self]
        exact ⟨fun _ => ⟨hne, rfl⟩, fun _ => rfl⟩
      · rw [setBit_of_ne_bucket _ _ _ _ hb,
          show (dropFutexBit pool c.key.bucket t).futexBits b t = false from
            (h t).dropped (fun _ => (FutexKey.bucket_of_equal he).symm) b]
        exact ⟨fun h => (nomatch h), fun h => absurd h.2 hb⟩
    · rw [pcb_modify, hbucket _ rfl rfl (by rw [hmm])]
  · refine (h t).of_ne ?_ fun b => ?_
    · rw [pcb_modify_of_ne _ _ ht, pcb_unregister_of_ne _ ht]
      rfl
    · exact (setBit_of_ne_slot _ _ _ _ ht).trans
        (setBit_of_ne_slot _ _ _ _ ht)

end FutexSystem

/-- A waiter that a call moves keeps the address space of the target's key. -/
def WakeCall.owns (c : WakeCall) (p : Pcb) : Bool :=
  match c.target with
  | some (_, key2) => !key2.isPrivate || p.mm = key2.privateMm
  | none => true

def WakeCall.Targeted (c : WakeCall) : Prop :=
  ∀ uaddr2 key2, c.target = some (uaddr2, key2) → key2.valid = true

namespace FutexSystem

open Pool

theorem filed_visit {pool : Pool} (h : ∀ t, pool.Filed t) {c : WakeCall}
    {id : Nat} {count1 count2 : Int} (htarget : c.Targeted)
    (hown : c.waits (pool.pcb id) = true → c.val ≤ count1 → c.owns (pool.pcb id) = true) (t : Nat) :
    (Scan.visit { pool, count1, count2 } c id).pool.Filed t := by
  rw [Scan.visit]
  split
  · exact h t
  split
  · split
    · next hzero =>
      by_cases ht : t = id
      · subst ht
        exact filed_of_none hzero ((h t).dropped fun hne => absurd hzero hne)
      · exact (h t).of_ne rfl fun b => setBit_of_ne_slot _ _ _ _ ht
    · exact h t
  next hkey =>
  rw [Bool.not_eq_true', Bool.not_eq_false, Bool.and_eq_true] at hkey
  have hbucket := FutexKey.bucket_of_equal hkey.2
  split
  · next hst =>
    split
    · exact (filed_dropped h (fun _ => hbucket.symm) rfl t).kept
        (kept_unregister ..)
    next hge =>
    split
    · next uaddr2 key2 hc =>
      split
      · refine filed_requeue h hkey.2 uaddr2 (htarget uaddr2 key2 hc) ?_ t
        have hwaits : c.waits (pool.pcb id) = true := by
          rw [WakeCall.waits, hkey.1, hkey.2]
          simpa using hst
        have howns := hown hwaits (Int.not_lt.mp hge)
        rw [WakeCall.owns, hc] at howns
        intro hp
        simpa [hp] using howns
      · exact h t
    · exact h t
  · exact h t

def Targeted : FutexPc → Prop
  | .wakeWant args _ => args.call.Targeted
  | .waking c _ _ _ _ => c.Targeted
  | _ => True

def Aimed (s : FutexSystem) : Prop := ∀ a, Targeted (s.pc a)

/-- The futex fields and bits are as they were, and no wake is misdirected. -/
structure Stays (s s' : FutexSystem) : Prop where
  pool : s.pool.Kept s'.pool
  aimed : s.Aimed → s'.Aimed

theorem Stays.refl (s : FutexSystem) : s.Stays s := ⟨.refl _, fun h => h⟩

theorem Stays.trans {s s' s'' : FutexSystem} (h : s.Stays s') (h' : s'.Stays s'') : s.Stays s'' :=
  ⟨h.pool.trans h'.pool, fun ha => h'.aimed (h.aimed ha)⟩

theorem stays_withPool (s : FutexSystem) {pool : Pool} (h : s.pool.Kept pool) :
    s.Stays (s.withPool pool) :=
  ⟨h, fun ha => ha⟩

theorem stays_release (s : FutexSystem) (b : Nat) : s.Stays (s.release b) :=
  ⟨.refl _, fun ha => ha⟩

theorem stays_goto (s : FutexSystem) (a : Nat) {pc : FutexPc}
    (h : s.Aimed → Targeted pc) : s.Stays (s.goto a pc) := by
  refine ⟨.refl _, fun ha t => ?_⟩
  show Targeted (Function.update s.pc a pc t)
  by_cases ht : t = a
  · rw [ht, Function.update_self]
    exact h ha
  · rw [Function.update_of_ne ht]
    exact ha t

theorem stays_startRemove (s : FutexSystem) (a id : Nat) (after : After) :
    s.Stays (s.startRemove a id after) := by
  rw [startRemove]
  split <;> exact stays_goto _ _ fun _ => trivial

theorem stays_finishRemove (s : FutexSystem) (a id : Nat) (after : After) :
    s.Stays (s.finishRemove a id after) := by
  cases after with
  | leave => exact stays_goto _ _ fun _ => trivial
  | recheck =>
      rw [finishRemove]
      split <;> exact stays_goto _ _ fun _ => trivial
  | rouse how =>
      rw [finishRemove]
      split
      · exact (stays_withPool s (kept_setState ..)).trans
          (stays_goto _ _ fun _ => trivial)
      · exact stays_goto _ _ fun _ => trivial

theorem stays_releaseWake (s : FutexSystem) (a : Nat) (c : WakeCall) :
    s.Stays (s.releaseWake a c) := by
  rw [releaseWake]
  split
  · exact ((stays_release ..).trans (stays_release ..)).trans
      (stays_goto _ _ fun _ => trivial)
  · exact (stays_release ..).trans (stays_goto _ _ fun _ => trivial)

theorem stays_startWalk (s : FutexSystem) (a : Nat) (args : WakeArgs)
    (h : s.Aimed → args.call.Targeted) : s.Stays (s.startWalk a args) := by
  rw [startWalk]
  split
  · exact stays_releaseWake ..
  split
  · exact stays_releaseWake ..
  · exact stays_goto _ _ h

theorem stays_cut (s : FutexSystem) (a id : Nat) (how : Cut) : s.Stays (s.cut a id how) := by
  cases how with
  | signal =>
      rw [cut]
      split
      · exact stays_startRemove ..
      · exact .refl s
  | kill =>
      rw [cut]
      split
      · exact stays_startRemove ..
      split
      · exact stays_withPool s (kept_setState ..)
      · exact .refl s
  | group =>
      rw [cut]
      split
      · exact .refl s
      · exact stays_startRemove ..

theorem stays_sleep (s : FutexSystem) (a b : Nat) (chan : Word)
    (interrupted : Bool) : s.Stays (s.sleep a b chan interrupted) := by
  have hk : s.pool.Kept ((s.pool.registerWaitChannel a chan).setState a
      .sleeping) := (kept_register ..).trans (kept_setState ..)
  refine ((stays_withPool s ?_).trans (stays_release ..)).trans
    (stays_goto _ _ fun _ => trivial)
  split
  · exact hk.trans (kept_setState ..)
  · exact hk

theorem stays_back (s : FutexSystem) (a b : Nat) (pending again : Bool) :
    s.Stays (s.back a b pending again) := by
  rw [back]
  refine (stays_release s b).trans ?_
  split
  · exact stays_startRemove ..
  split <;> exact stays_goto _ _ fun _ => trivial

theorem stays_run (s : FutexSystem) (a : Nat) : s.Stays (s.run a) := by
  rw [run]
  refine (stays_withPool s (kept_setState s.pool a .running)).trans ?_
  split
  · exact (stays_withPool _ (kept_unregister ..)).trans
      (stays_goto _ _ fun _ => trivial)
  · exact (stays_withPool _ (kept_unregister ..)).trans
      (stays_goto _ _ fun _ => trivial)
  · exact .refl _

/-- What a step does to the futex fields and bits. -/
inductive Alters (s : FutexSystem) : FutexEvent → FutexSystem → Prop
  | stays {e : FutexEvent} {s' : FutexSystem} (h : s.Stays s') : s.Alters e s'
  | clear {a id : Nat} {after : After} {s' : FutexSystem}
      (hpc : s.pc a = .removeNone id after)
      (h : (s.withPool (clearWaiter s.pool id)).Stays s') : s.Alters (.go a) s'
  | remove {e : FutexEvent} {id : Nat} {key : FutexKey} {s' : FutexSystem}
      (h : (s.withPool (removeKey s.pool id key)).Stays s') : s.Alters e s'
  | publish {a : Nat} {value : Word} {isPrivate : Bool} {deadline : Nat}
      (hpc : s.pc a = .waitHeld (s.ownKey a value isPrivate).bucket)
      (hvalid : (s.ownKey a value isPrivate).valid = true) :
      s.Alters (.reload a (some (value, isPrivate)) deadline)
        (s.publish a (s.ownKey a value isPrivate) deadline)
  | visit {a id : Nat} {c : WakeCall} {ids words : List Nat}
      {count1 count2 : Int} {s' : FutexSystem}
      (hpc : s.pc a = .waking c (id :: ids) words count1 count2)
      (h : (s.withPool
        (Scan.visit { pool := s.pool, count1, count2 } c id).pool).Stays s') :
      s.Alters (.go a) s'
  | expire {e : FutexEvent} {id bucket now : Nat} {key : Word}
      {s' : FutexSystem}
      (h : (s.withPool (expire s.pool id key bucket now)).Stays s') :
      s.Alters e s'

theorem alters_reload (s : FutexSystem) {a b : Nat} (hpc : s.pc a = .waitHeld b)
    (key : Option (Word × Bool)) (deadline : Nat) :
    s.Alters (.reload a key deadline) (s.reload a b key deadline) := by
  cases key with
  | none =>
      exact .stays ((stays_release s b).trans (stays_startRemove ..))
  | some k =>
      rw [reload]
      split
      · exact .stays ((stays_release s b).trans (stays_startRemove ..))
      next hvalid =>
      rw [Bool.not_eq_true', Bool.not_eq_false] at hvalid
      split
      · exact .stays ((stays_release s b).trans
          (stays_goto _ _ fun _ => trivial))
      next hb =>
      rw [Decidable.not_not] at hb
      exact .publish (by rw [hpc, hb]) hvalid

theorem alters_go {s s' : FutexSystem} {a : Nat} (h : s.go a = some s') : s.Alters (.go a) s' := by
  rw [go] at h
  split at h
  · next id after hpc =>
    cases h
    exact .clear hpc (stays_finishRemove ..)
  · next id key after hpc =>
    cases h
    exact .remove ((stays_release ..).trans (stays_finishRemove ..))
  · next args hpc =>
    cases h
    refine .stays (stays_startWalk s a args fun ha => ?_)
    have := ha a
    rw [hpc] at this
    exact this
  · next c n1 n2 hpc =>
    cases h
    exact .stays (stays_releaseWake ..)
  · next c word words n1 n2 hpc =>
    cases h
    refine .stays (stays_goto s a fun ha => ?_)
    have := ha a
    rw [hpc] at this
    exact this
  · next c id ids words n1 n2 hpc =>
    cases h
    refine .visit hpc ?_
    rw [visit]
    split
    · exact stays_releaseWake ..
    · refine stays_goto _ a fun ha => ?_
      have : Targeted (s.pc a) := ha a
      rw [hpc] at this
      exact this
  · next id key bucket now hpc =>
    cases h
    exact .expire ((stays_release ..).trans (stays_goto _ _ fun _ => trivial))
  · cases h

theorem targeted_of_not_refused {args : WakeArgs} (h : refused args = false) :
    args.call.Targeted := by
  intro uaddr2 key2 hc
  simp only [refused, Bool.or_eq_false_iff, Bool.and_eq_false_iff,
    decide_eq_false_iff_not, Bool.not_eq_false'] at h
  rw [WakeArgs.call] at hc
  split at hc
  · cases hc
  · next hne =>
    cases hc
    exact h.2.resolve_left fun hz => hz hne

theorem targeted_of_wants {pc pc' : FutexPc} {b : Nat}
    (hw : wants pc = some (b, pc')) (h : Targeted pc) : Targeted pc' := by
  rw [wants.eq_def] at hw
  split at hw
  · cases hw
    trivial
  · cases hw
    trivial
  · cases hw
    trivial
  · cases hw
    exact h
  · cases hw
    trivial
  · cases hw

theorem alters_of_step {s s' : FutexSystem} {e : FutexEvent}
    (h : s.step e = some s') : s.Alters e s' := by
  cases e with
  | wait a value isPrivate =>
      obtain ⟨-, h⟩ := Option.ite_none_right_eq_some.mp h
      split at h <;> cases h
      · refine .stays ((stays_withPool s ?_).trans (stays_goto _ _ fun _ => trivial))
        exact kept_modify _ _ rfl rfl rfl rfl
      · exact .stays (stays_goto _ _ fun _ => trivial)
  | giveUp a =>
      obtain ⟨-, h⟩ := Option.ite_none_right_eq_some.mp h
      split at h <;> cases h
      exact .stays (stays_startRemove ..)
  | reload a key deadline =>
      obtain ⟨-, h⟩ := Option.ite_none_right_eq_some.mp h
      split at h <;> cases h
      next hpc => exact alters_reload s hpc key deadline
  | sleep a interrupted =>
      obtain ⟨-, h⟩ := Option.ite_none_right_eq_some.mp h
      split at h <;> cases h
      exact .stays (stays_sleep ..)
  | back a pending again =>
      obtain ⟨-, h⟩ := Option.ite_none_right_eq_some.mp h
      split at h <;> cases h
      exact .stays (stays_back ..)
  | run a =>
      obtain ⟨-, h⟩ := Option.ite_none_right_eq_some.mp h
      cases h
      exact .stays (stays_run s a)
  | block a =>
      obtain ⟨-, h⟩ := Option.ite_none_right_eq_some.mp h
      split at h <;> cases h
      exact .stays ((stays_withPool s (kept_setState ..)).trans
        (stays_goto _ _ fun _ => trivial))
  | stir id =>
      obtain ⟨-, h⟩ := Option.ite_none_right_eq_some.mp h
      cases h
      exact .stays (stays_withPool s ((kept_unregister ..).trans (kept_setState ..)))
  | remove a id =>
      obtain ⟨-, h⟩ := Option.ite_none_right_eq_some.mp h
      split at h <;> cases h
      exact .stays (stays_startRemove ..)
  | cut a id how =>
      obtain ⟨-, h⟩ := Option.ite_none_right_eq_some.mp h
      split at h <;> cases h
      exact .stays (stays_cut ..)
  | wake a args =>
      obtain ⟨-, h⟩ := Option.ite_none_right_eq_some.mp h
      split at h
      · split at h <;> cases h
        · exact .stays (.refl s)
        · next hr =>
          exact .stays (stays_goto _ _ fun _ =>
            targeted_of_not_refused (Bool.not_eq_true _ ▸ hr))
      · cases h
  | expire a id key bucket now =>
      obtain ⟨-, h⟩ := Option.ite_none_right_eq_some.mp h
      split at h <;> cases h
      exact .stays (stays_goto _ _ fun _ => trivial)
  | take a =>
      rw [step] at h
      split at h
      · next b pc hw =>
        obtain ⟨-, h⟩ := Option.ite_none_right_eq_some.mp h
        cases h
        refine .stays ⟨.refl _, (stays_goto s a fun ha => ?_).aimed⟩
        exact targeted_of_wants hw (ha a)
      · cases h
  | go a =>
      obtain ⟨-, h⟩ := Option.ite_none_right_eq_some.mp h
      exact alters_go h

/-- The second look of a wait, with the lock of the bucket. -/
def looksAgain : FutexPc → Nat → Bool
  | .waitHeld b, bucket => b == bucket
  | _, _ => false

/-- A removal that found no key clears none, and a requeue stays within the
address space of a private key. -/
def SettledAt (pool : Pool) : FutexPc → Prop
  | .removeNone id _ => (pool.pcb id).futexKey = 0
  | .waking c (id :: _) _ count1 _ =>
      c.waits (pool.pcb id) = true → c.val ≤ count1 → c.owns (pool.pcb id) = true
  | _ => True

/-- A step that changes key and bit together; a wait that publishes a key does not
write over the key of another bucket. -/
def Settled (s : FutexSystem) : FutexEvent → Prop
  | .reload a (some (value, isPrivate)) _ =>
      let key := s.ownKey a value isPrivate
      looksAgain (s.pc a) key.bucket = true → key.valid = true →
        (s.pool.pcb a).futexKey = 0 ∨ (s.pool.pcb a).key.bucket = key.bucket
  | .go a => SettledAt s.pool (s.pc a)
  | _ => True

instance (pool : Pool) (pc : FutexPc) : Decidable (SettledAt pool pc) :=
  match pc with
  | .removeNone .. => inferInstanceAs (Decidable (_ = _))
  | .waking _ (_ :: _) _ _ _ => inferInstanceAs (Decidable (_ → _ → _))
  | .waking _ [] _ _ _ | .idle | .blocked | .waitLoop | .waitWant .. |
    .waitHeld .. | .waitMarked .. | .waitAsleep .. | .waitBack .. |
    .waitRelocked .. | .removeWant .. | .removeHeld .. | .wakeWant .. |
    .expireWant .. | .expireHeld .. => inferInstanceAs (Decidable True)

instance (s : FutexSystem) (e : FutexEvent) : Decidable (s.Settled e) :=
  match e with
  | .reload _ (some _) _ => inferInstanceAs (Decidable (_ → _ → _ ∨ _))
  | .go a => inferInstanceAs (Decidable (SettledAt s.pool (s.pc a)))
  | .reload _ none _ | .wait .. | .giveUp .. | .sleep .. | .back .. | .run .. |
    .block .. | .stir .. | .remove .. | .cut .. | .wake .. | .expire .. |
    .take .. => inferInstanceAs (Decidable True)

/-- The index as a whole, and the wakes under way. -/
structure Inv (s : FutexSystem) : Prop where
  filed : ∀ id, s.pool.Filed id
  aimed : s.Aimed

theorem Inv.stays {s s' : FutexSystem} (h : s.Inv) (hs : s.Stays s') : s'.Inv :=
  ⟨fun id => (h.filed id).kept hs.pool, hs.aimed h.aimed⟩

theorem Inv.withPool {s : FutexSystem} (h : s.Inv) {pool : Pool}
    (hp : ∀ id, pool.Filed id) : (s.withPool pool).Inv :=
  ⟨hp, h.aimed⟩

theorem inv_step {s s' : FutexSystem} {e : FutexEvent} (h : s.Inv)
    (hc : s.Settled e) (hs : s.step e = some s') : s'.Inv := by
  cases alters_of_step hs with
  | stays hstay => exact h.stays hstay
  | clear hpc hstay =>
      rw [Settled, hpc, SettledAt] at hc
      refine (h.withPool (filed_clearWaiter h.filed fun b => ?_)).stays hstay
      exact Bool.eq_false_iff.mpr fun hb =>
        absurd hc ((h.filed _).bits b |>.mp hb).1
  | remove hstay =>
      exact (h.withPool (filed_removeKey h.filed _ _)).stays hstay
  | publish hpc hvalid =>
      have hc := hc (by rw [hpc]; exact beq_self_eq_true _) hvalid
      refine ⟨filed_publish h.filed _ hvalid hc, (stays_goto s _ ?_).aimed h.aimed⟩
      exact fun _ => trivial
  | @visit a _ _ _ _ _ _ _ hpc hstay =>
      rw [Settled, hpc, SettledAt] at hc
      have htarget := h.aimed a
      rw [hpc] at htarget
      exact (h.withPool (filed_visit h.filed htarget hc)).stays hstay
  | expire hstay =>
      exact (h.withPool (filed_expire h.filed _ _ _ _)).stays hstay

end FutexSystem

def Pool.Clear (pool : Pool) : Prop :=
  ∀ id, (pool.pcb id).futexKey = 0 ∧ ∀ b, pool.futexBits b id = false

theorem FutexSystem.inv_init {pool : Pool} (h : pool.Clear) : (init pool).Inv :=
  ⟨fun id => filed_of_none (h id).1 (h id).2, fun _ => trivial⟩

/-- A task with a key has its bit in the bucket of the key, and nowhere
else. -/
def Pool.Indexed (pool : Pool) : Prop :=
  ∀ id, (pool.pcb id).futexKey ≠ 0 → ∀ b, pool.futexBits b id = true ↔ b = (pool.pcb id).key.bucket

/-- In a run whose every step is settled the index is right at every point,
and no wake can miss a waiter of its key. -/
theorem futex_run_indexed {pool : Pool} (hclear : pool.Clear)
    {es : List FutexEvent} {s : FutexSystem}
    (hrun : Run.Guarded FutexSystem.step FutexSystem.Settled (FutexSystem.init pool) es s) :
    s.pool.Indexed ∧ ∀ c : WakeCall, ∀ id ∈ c.waiters s.pool, id ∈ c.seen s.pool := by
  have hinv := hrun.inv inv_step (inv_init hclear)
  have hindexed : s.pool.Indexed := by
    intro id hne b
    rw [(hinv.filed id).bits b]
    exact and_iff_right hne
  refine ⟨hindexed, fun c id hid => WakeCall.mem_seen.mpr ⟨hid, ?_⟩⟩
  obtain ⟨hne, he⟩ := WakeCall.key_of_waits (WakeCall.mem_waiters.mp hid).2
  exact (hindexed id hne _).mpr (FutexKey.bucket_of_equal he).symm

def Pool.apart : Pool :=
  { busy with
    pcb := fun id => { busy.pcb id with mm := BitVec.ofNat 64 (id + 1) } }

theorem Pool.clear_apart : apart.Clear := fun _ => ⟨rfl, fun _ => rfl⟩

namespace FutexEvent

def waitFor (a : Nat) (value : Word) : List FutexEvent :=
  [.wait a value false, .take a, .reload a (some (value, false)) 0, .sleep a false]

def requeued : List FutexEvent :=
  waitFor 1 68 ++ [.wake 0
      { mm := 1, uaddr := 65536, map := { pa := 68, shared := true }, val := 0,
        uaddr2 := 131072, map2 := { pa := 72, shared := true }, val2 := 1,
        scope := .auto, includeRequeued := false, expected := none,
        word := none },
      .take 0, .take 0, .go 0, .go 0, .go 0]

/-- A signal for task 0 finds no key; before it goes on, the task is woken and
waits on 68. The key is cleared, the bit stays, and the task comes back and
waits on 72. -/
def signalled : List FutexEvent :=
  [.block 0, .cut 1 0 .signal, .stir 0, .run 0] ++ waitFor 0 68 ++
    [.go 1, .run 0, .take 0, .back 0 false false] ++ waitFor 0 72

/-- Task 1 waits on a shared word, and is requeued to private memory of
task 0. -/
def requeuedApart : List FutexEvent :=
  waitFor 1 4096 ++ [.wake 0 requeueToPrivate, .take 0, .go 0, .go 0, .go 0]

end FutexEvent

theorem futex_run_indexed_requeued :
    ∃ s, Run.Guarded FutexSystem.step FutexSystem.Settled
        (FutexSystem.init Pool.apart) FutexEvent.requeued s ∧
      (s.pool.pcb 1).futexKey = 72 ∧ (s.pool.pcb 1).key.bucket = 8 ∧
      s.lock 4 = none ∧ s.lock 8 = none ∧ s.pool.futexBits 4 1 = false ∧ s.pool.Indexed := by
  have hrun : Run.Guarded step FutexSystem.Settled (init apart) FutexEvent.requeued _ :=
    .of_foldlM rfl
  exact ⟨_, hrun, rfl, rfl, rfl, rfl, rfl, (futex_run_indexed clear_apart hrun).1⟩

/-- With all locks free, the signalled task has a bit in two buckets, and the
requeued one has none in the bucket of its key. -/
theorem futex_run_misfiled :
    (∃ s, Run.Guarded FutexSystem.step (fun _ _ => True)
        (FutexSystem.init Pool.apart) FutexEvent.signalled s ∧
      (s.pool.pcb 0).futexKey = 72 ∧ s.lock 4 = none ∧ s.lock 8 = none ∧
      s.pool.futexBits 4 0 = true ∧ s.pool.futexBits 8 0 = true ∧ ¬ s.pool.Indexed) ∧
    ∃ s, Run.Guarded FutexSystem.step (fun _ _ => True)
        (FutexSystem.init Pool.apart) FutexEvent.requeuedApart s ∧
      (s.pool.pcb 1).futexKey = 131072 ∧ s.lock 0 = none ∧ s.lock 3 = none ∧
      (s.pool.pcb 1).key.bucket = 3 ∧ s.pool.futexBits 3 1 = false ∧ ¬ s.pool.Indexed := by
  refine ⟨⟨_, .of_foldlM rfl, rfl, rfl, rfl, rfl, rfl, fun h => ?_⟩,
    _, .of_foldlM rfl, rfl, rfl, rfl, rfl, rfl, fun h => ?_⟩
  · have hsame : 4 = 8 := (h 0 (by decide) 4).mp rfl
    cases hsame
  · have hin : false = true := (h 1 (by decide) 3).mpr rfl
    cases hin

end F7ly.Proc.Wait
