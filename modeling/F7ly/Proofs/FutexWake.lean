import Mathlib.Data.List.Nodup
import Mathlib.Data.List.Perm.Subperm
import F7ly.Proc.Futex
import F7ly.Proofs.WaitChannel

/-!
# What a futex wake does

`wakeup2` visits the tasks whose bits are set in the source bucket, each one
once and in the order of their slots: a visit changes the bits of its own task
only, so a word that is read later is as it was at the start. The walk takes
the first `val` waiters it meets and moves the next `val2` that sleep.

A waiter's key is not stored as a whole. Its address space is taken from the
task when the key is compared, so a waiter of another address space that is
moved to a private futex of the caller ends up on a futex of its own.
-/

namespace F7ly.Proc.Wait

open WakeCall Pool Scan List

open Signal (ProcState Word)

variable {id : Nat} {c : WakeCall} {s : Scan} {pool : Pool} {ids : List Nat} {args : WakeArgs}

namespace Pool

theorem futexBits_register (s : Pool) (id : Nat) (chan : Word) :
    (s.registerWaitChannel id chan).futexBits = s.futexBits := by
  rw [registerWaitChannel]
  split
  · rfl
  split <;> rfl

theorem pcb_register (s : Pool) (id : Nat) (chan : Word) :
    ((s.registerWaitChannel id chan).pcb id).state = (s.pcb id).state ∧
      ((s.registerWaitChannel id chan).pcb id).mm = (s.pcb id).mm ∧
      ((s.registerWaitChannel id chan).pcb id).futexKey = (s.pcb id).futexKey ∧
      ((s.registerWaitChannel id chan).pcb id).futexPrivate = (s.pcb id).futexPrivate ∧
      ((s.registerWaitChannel id chan).pcb id).futexBucketIndex = (s.pcb id).futexBucketIndex := by
  rw [registerWaitChannel]
  split
  · exact ⟨rfl, rfl, rfl, rfl, rfl⟩
  split
  · exact ⟨rfl, rfl, rfl, rfl, rfl⟩
  · show (Function.update s.pcb id _ id).state = _ ∧ (Function.update s.pcb id _ id).mm = _ ∧
      (Function.update s.pcb id _ id).futexKey = _ ∧
      (Function.update s.pcb id _ id).futexPrivate = _ ∧
      (Function.update s.pcb id _ id).futexBucketIndex = _
    rw [Function.update_self]
    exact ⟨rfl, rfl, rfl, rfl, rfl⟩

theorem pcb_modify (s : Pool) (id : Nat) (p : Pcb) : (s.modify id p).pcb id = p :=
  Function.update_self ..

theorem pcb_modify_of_ne (s : Pool) {t : Nat} (p : Pcb) (h : t ≠ id) :
    (s.modify id p).pcb t = s.pcb t :=
  Function.update_of_ne h ..

end Pool

/-- A task that was moved to `key2` is in the bucket of it, and in no other that
the walk knows. -/
def WakeCall.Refiled (c : WakeCall) (key2 : FutexKey) (bits : Nat → Nat → Bool) (id : Nat) : Prop :=
  bits key2.bucket id = true ∧ (c.key.bucket ≠ key2.bucket → bits c.key.bucket id = false)

namespace Scan

/-- What happens to the tasks and bits of a walk: some are woken, some moved,
and the rest is left alone. -/
structure Walked (c : WakeCall) (s : Scan) (ws ms : List Nat) (r : Scan) :
    Prop where
  count1 : r.count1 = s.count1 + ws.length
  count2 : r.count2 = s.count2 + ms.length
  woken : ∀ id ∈ ws, (r.pool.pcb id).state = .runnable ∧ (r.pool.pcb id).futexKey = 0
  moved : ∀ id ∈ ms, ∃ uaddr2 key2, c.target = some (uaddr2, key2) ∧
    (r.pool.pcb id).state = .sleeping ∧ (r.pool.pcb id).futexKey = key2.value ∧
    (r.pool.pcb id).futexPrivate = key2.isPrivate ∧
    (r.pool.pcb id).mm = (s.pool.pcb id).mm ∧
    (key2.value ≠ 0 → c.Refiled key2 r.pool.futexBits id)
  other : ∀ id, id ∉ ws → id ∉ ms → r.pool.pcb id = s.pool.pcb id ∧ ((s.pool.pcb id).futexKey ≠ 0 →
      ∀ b, r.pool.futexBits b id = s.pool.futexBits b id)

theorem Walked.refl (c : WakeCall) (s : Scan) : Walked c s [] [] s :=
  ⟨(Int.add_zero _).symm, (Int.add_zero _).symm, fun _ h => (nomatch h),
    fun _ h => (nomatch h), fun _ _ _ => ⟨rfl, fun _ _ => rfl⟩⟩

theorem Walked.append {s₁ r : Scan} {w₁ m₁ w₂ m₂ : List Nat}
    (h₁ : Walked c s w₁ m₁ s₁) (h₂ : Walked c s₁ w₂ m₂ r)
    (hdisj : ∀ id, id ∈ w₁ ∨ id ∈ m₁ → id ∉ w₂ ∧ id ∉ m₂) : Walked c s (w₁ ++ w₂) (m₁ ++ m₂) r := by
  refine ⟨?_, ?_, fun id h => ?_, fun id h => ?_, fun id hw hm => ?_⟩
  · rw [h₂.count1, h₁.count1, length_append]
    omega
  · rw [h₂.count2, h₁.count2, length_append]
    omega
  · rcases mem_append.mp h with h | h
    · obtain ⟨hw, hm⟩ := hdisj id (.inl h)
      rw [(h₂.other id hw hm).1]
      exact h₁.woken id h
    · exact h₂.woken id h
  · rcases mem_append.mp h with h | h
    · obtain ⟨hw, hm⟩ := hdisj id (.inr h)
      obtain ⟨hp, hb⟩ := h₂.other id hw hm
      obtain ⟨u, k, ht, hst, hkey, hpriv, hmm, hbits⟩ := h₁.moved id h
      rw [hp]
      refine ⟨u, k, ht, hst, hkey, hpriv, hmm, fun hne => ?_⟩
      have hb := hb (by rw [hkey]; exact hne)
      rw [Refiled, hb, hb]
      exact hbits hne
    · obtain ⟨u, k, ht, hst, hkey, hpriv, hmm, hbits⟩ := h₂.moved id h
      have hnot : id ∉ w₁ ∧ id ∉ m₁ :=
        ⟨fun hi => (hdisj id (.inl hi)).2 h, fun hi => (hdisj id (.inr hi)).2 h⟩
      rw [(h₁.other id hnot.1 hnot.2).1] at hmm
      exact ⟨u, k, ht, hst, hkey, hpriv, hmm, hbits⟩
  · rw [mem_append, not_or] at hw hm
    obtain ⟨hp₁, hb₁⟩ := h₁.other id hw.1 hm.1
    obtain ⟨hp₂, hb₂⟩ := h₂.other id hw.2 hm.2
    refine ⟨hp₂.trans hp₁, fun hkey b => ?_⟩
    rw [hb₂ (by rw [hp₁]; exact hkey) b, hb₁ hkey b]

theorem walked_dropBit (h : (s.pool.pcb id).futexKey = 0) : Walked c s [] [] (s.dropBit c id) := by
  refine ⟨(Int.add_zero _).symm, (Int.add_zero _).symm, fun _ h => (nomatch h),
    fun _ h => (nomatch h), fun t _ _ => ⟨rfl, fun hkey b => ?_⟩⟩
  refine setBit_of_ne_slot _ _ _ _ ?_
  rintro rfl
  exact hkey h

theorem walked_wake (h : c.waits (s.pool.pcb id) = true) : Walked c s [id] [] (s.wake c id) := by
  rw [waits, Bool.and_eq_true, Bool.or_eq_true, decide_eq_true_iff, decide_eq_true_iff] at h
  refine ⟨rfl, (Int.add_zero _).symm, fun t ht => ?_, fun _ h => (nomatch h),
    fun t ht _ => ?_⟩
  · obtain rfl := mem_singleton.mp ht
    rw [wake]
    rw [pcb_unregister, pcb_modify]
    refine ⟨?_, rfl⟩
    split
    · rfl
    · next hst => exact h.2.resolve_left hst
  · have hne : t ≠ id := fun he => ht (mem_singleton.mpr he)
    rw [wake]
    rw [pcb_unregister_of_ne _ hne, pcb_modify_of_ne _ _ hne]
    exact ⟨rfl, fun _ b => setBit_of_ne_slot _ _ _ _ hne⟩

theorem walked_requeue {uaddr2 : Word} {key2 : FutexKey} (ht : c.target = some (uaddr2, key2))
    (hst : (s.pool.pcb id).state = .sleeping) :
    Walked c s [] [id] (s.requeue c uaddr2 key2 id) := by
  refine ⟨(Int.add_zero _).symm, rfl, fun _ h => (nomatch h), fun t hid => ?_,
    fun t _ hid => ?_⟩
  · obtain rfl := mem_singleton.mp hid
    refine ⟨uaddr2, key2, ht, ?_⟩
    rw [requeue]
    obtain ⟨hstate, hmm, hkey, hpriv, _⟩ := pcb_register
      (modify (unregisterWaitChannel
        { (s.dropBit c t).pool with
          futexBits := setBit (s.dropBit c t).pool.futexBits key2.bucket t true }
        t) t { (unregisterWaitChannel
        { (s.dropBit c t).pool with
          futexBits := setBit (s.dropBit c t).pool.futexBits key2.bucket t true }
        t).pcb t with
          futexAddr := uaddr2, futexPrivate := key2.isPrivate,
          futexBucketIndex := key2.bucket, futexKey := key2.value })
      t key2.value
    rw [hstate, hkey, hpriv, hmm, pcb_modify, pcb_unregister, Refiled, futexBits_register]
    refine ⟨hst, rfl, rfl, rfl, fun _ => ⟨setBit_self .., fun hne => ?_⟩⟩
    exact (setBit_of_ne_bucket _ _ _ _ hne).trans (setBit_self ..)
  · have hne : t ≠ id := fun he => hid (mem_singleton.mpr he)
    rw [requeue]
    rw [(register_of_ne _ _ hne).1, pcb_modify_of_ne _ _ hne,
      pcb_unregister_of_ne _ hne, futexBits_register]
    refine ⟨rfl, fun _ b => ?_⟩
    exact (setBit_of_ne_slot _ _ _ _ hne).trans (setBit_of_ne_slot _ _ _ _ hne)

def wakeable (s : Scan) (c : WakeCall) : Nat := (c.val - s.count1).toNat

def movable (s : Scan) (c : WakeCall) : Nat :=
  if c.canRequeue then (c.val2 - s.count2).toNat else 0

end Scan

def Pool.sleeps (s : Pool) (id : Nat) : Bool := (s.pcb id).state = .sleeping

namespace WakeCall

/-- Of the candidates that wait on the key, the first `n` are woken. -/
def woken (c : WakeCall) (pool : Pool) (ids : List Nat) (n : Nat) : List Nat :=
  (ids.filter fun id => c.waits (pool.pcb id)).take n

/-- Of the others, the first `m` that sleep are moved. -/
def moved (c : WakeCall) (pool : Pool) (ids : List Nat) (n m : Nat) : List Nat :=
  (((ids.filter fun id => c.waits (pool.pcb id)).drop n).filter
    pool.sleeps).take m

theorem woken_sublist (c : WakeCall) (pool : Pool) (ids : List Nat) (n : Nat) :
    (c.woken pool ids n).Sublist ids :=
  (take_sublist ..).trans filter_sublist

theorem moved_sublist (c : WakeCall) (pool : Pool) (ids : List Nat)
    (n m : Nat) : (c.moved pool ids n m).Sublist ids :=
  (take_sublist ..).trans (filter_sublist.trans
    ((drop_sublist ..).trans filter_sublist))

theorem waits_filter_congr (c : WakeCall) {pool' : Pool}
    (h : ∀ id ∈ ids, pool'.pcb id = pool.pcb id) :
    ids.filter (fun id => c.waits (pool'.pcb id)) = ids.filter fun id => c.waits (pool.pcb id) :=
  filter_congr fun id hid => by rw [h id hid]

theorem woken_congr (c : WakeCall) {pool' : Pool}
    (h : ∀ id ∈ ids, pool'.pcb id = pool.pcb id) (n : Nat) :
    c.woken pool' ids n = c.woken pool ids n := by
  rw [woken, woken, waits_filter_congr c h]

theorem moved_congr (c : WakeCall) {pool' : Pool}
    (h : ∀ id ∈ ids, pool'.pcb id = pool.pcb id) (n m : Nat) :
    c.moved pool' ids n m = c.moved pool ids n m := by
  rw [moved, moved, waits_filter_congr c h]
  refine congrArg (take m) (filter_congr fun id hid => ?_)
  have hid : id ∈ ids := (mem_filter.mp (mem_of_mem_drop hid)).1
  rw [sleeps, sleeps, h id hid]

end WakeCall

namespace Scan

/-- A visit that leads to `r` takes the first candidate off the list: the woken
and the moved ones are `w` and `m`, and those that the rest of the walk has. -/
structure Visited (c : WakeCall) (s : Scan) (id : Nat) (ids w m : List Nat) (r : Scan) : Prop where
  walked : Walked c s w m r
  only : ∀ t, t ∈ w ∨ t ∈ m → t = id
  woken : c.woken s.pool (id :: ids) (s.wakeable c) = w ++ c.woken s.pool ids (r.wakeable c)
  moved : c.moved s.pool (id :: ids) (s.wakeable c) (s.movable c) =
    m ++ c.moved s.pool ids (r.wakeable c) (r.movable c)

theorem filter_waits (h : c.waits (s.pool.pcb id) = true) (ids : List Nat) :
    (id :: ids).filter (fun id => c.waits (s.pool.pcb id)) =
      id :: ids.filter fun id => c.waits (s.pool.pcb id) :=
  filter_cons_of_pos h

theorem visited_passed {r : Scan} (hno : c.waits (s.pool.pcb id) = false)
    (hw : Walked c s [] [] r) (h1 : r.count1 = s.count1) (h2 : r.count2 = s.count2)
    (ids : List Nat) : Visited c s id ids [] [] r := by
  have hn : r.wakeable c = s.wakeable c := by rw [wakeable, wakeable, h1]
  have hm : r.movable c = s.movable c := by rw [movable, movable, h2]
  refine ⟨hw, by simp, ?_, ?_⟩
  · rw [hn]
    simp [woken, hno]
  · rw [hn, hm]
    simp [moved, hno]

theorem visited_woken (hwaits : c.waits (s.pool.pcb id) = true) (hlt : s.count1 < c.val)
    (ids : List Nat) : Visited c s id ids [id] [] (s.wake c id) := by
  have hn : s.wakeable c = (s.wake c id).wakeable c + 1 := by
    rw [wakeable, wakeable, show (s.wake c id).count1 = s.count1 + 1 from rfl]
    omega
  refine ⟨walked_wake hwaits, by simp, ?_, ?_⟩
  · rw [hn, woken, filter_waits hwaits]
    rfl
  · rw [hn, moved, filter_waits hwaits]
    rfl

theorem visited_moved {uaddr2 : Word} {key2 : FutexKey} (hwaits : c.waits (s.pool.pcb id) = true)
    (hge : ¬ s.count1 < c.val) (ht : c.target = some (uaddr2, key2))
    (hmove : (s.pool.pcb id).state = .sleeping ∧ c.canRequeue ∧ s.count2 < c.val2)
    (ids : List Nat) : Visited c s id ids [] [id] (s.requeue c uaddr2 key2 id) := by
  have hn : s.wakeable c = 0 := by
    rw [wakeable]
    omega
  have hn' : (s.requeue c uaddr2 key2 id).wakeable c = 0 := hn
  have hm : s.movable c = (s.requeue c uaddr2 key2 id).movable c + 1 := by
    rw [movable, movable, if_pos hmove.2.1, if_pos hmove.2.1,
      show (s.requeue c uaddr2 key2 id).count2 = s.count2 + 1 from rfl]
    omega
  have hsleeps : s.pool.sleeps id = true := decide_eq_true hmove.1
  refine ⟨walked_requeue ht hmove.1, by simp, by rw [hn, hn']; rfl, ?_⟩
  rw [hn, hn', hm, moved, filter_waits hwaits, drop_zero, filter_cons_of_pos hsleeps]
  rfl

/-- What waits and stays as it is, is not moved. -/
theorem visited_left (hwaits : c.waits (s.pool.pcb id) = true) (hge : ¬ s.count1 < c.val)
    (h : s.pool.sleeps id = false ∨ s.movable c = 0) (ids : List Nat) :
    Visited c s id ids [] [] s := by
  have hn : s.wakeable c = 0 := by
    rw [wakeable]
    omega
  refine ⟨.refl c s, by simp, by rw [hn]; rfl, ?_⟩
  rw [hn, moved, filter_waits hwaits, moved]
  rcases h with h | h
  · rw [drop_zero, filter_cons_of_neg (by rw [h]; exact Bool.false_ne_true)]
    rfl
  · rw [h]
    rfl

theorem visited_visit (c : WakeCall) (s : Scan) (ids : List Nat) (hid : id < numProcess) :
    ∃ w m, Visited c s id ids w m (s.visit c id) := by
  rw [visit, if_neg (Nat.not_le.mpr hid)]
  split
  · -- Another key: at most a stale bit goes.
    next hkey =>
    have hno : c.waits (s.pool.pcb id) = false := by
      rw [Bool.not_eq_true'] at hkey
      rw [waits, hkey, Bool.false_and]
    split
    · next hzero => exact ⟨[], [], visited_passed hno (walked_dropBit hzero) rfl rfl ids⟩
    · exact ⟨[], [], visited_passed hno (.refl c s) rfl rfl ids⟩
  next hkey =>
  rw [Bool.not_eq_true', Bool.not_eq_false] at hkey
  split
  swap
  · next hst =>
    have hno : c.waits (s.pool.pcb id) = false := by
      rw [waits, hkey, Bool.true_and]
      simpa using hst
    exact ⟨[], [], visited_passed hno (.refl c s) rfl rfl ids⟩
  next hst =>
  have hwaits : c.waits (s.pool.pcb id) = true := by
    rw [waits, hkey, Bool.true_and]
    simpa using hst
  split
  · next hlt => exact ⟨[id], [], visited_woken hwaits hlt ids⟩
  next hge =>
  have hcan : c.canRequeue = false → s.movable c = 0 := by
    intro h
    rw [movable, h]
    rfl
  split
  · next uaddr2 key2 htarget =>
    split
    · next hmove => exact ⟨[], [id], visited_moved hwaits hge htarget hmove ids⟩
    next hmove =>
    refine ⟨[], [], visited_left hwaits hge ?_ ids⟩
    by_cases hsl : s.pool.sleeps id = true
    · refine .inr ?_
      by_cases hc : c.canRequeue = true
      · have hge2 : ¬ s.count2 < c.val2 := fun h => hmove ⟨of_decide_eq_true hsl, hc, h⟩
        rw [movable, if_pos hc]
        omega
      · exact hcan (Bool.eq_false_iff.mpr hc)
    · exact .inl (Bool.eq_false_iff.mpr hsl)
  next htarget =>
  refine ⟨[], [], visited_left hwaits hge (.inr (hcan ?_)) ids⟩
  rw [canRequeue, htarget]
  rfl

theorem finished_iff (s : Scan) (c : WakeCall) :
    s.finished c = true ↔ s.wakeable c = 0 ∧ s.movable c = 0 := by
  rw [finished, Bool.and_eq_true, Bool.or_eq_true, decide_eq_true_iff,
    decide_eq_true_iff, wakeable, movable]
  cases c.canRequeue <;> simp

theorem walked_visitAll (c : WakeCall) :
    ∀ (ids : List Nat) (s : Scan), ids.Nodup → (∀ id ∈ ids, id < numProcess) →
      Walked c s (c.woken s.pool ids (s.wakeable c))
        (c.moved s.pool ids (s.wakeable c) (s.movable c)) (visitAll c ids s).1
  | [], s, _, _ => by
      simpa [woken, moved, visitAll] using Walked.refl c s
  | id :: ids, s, hnodup, hlt => by
      rw [nodup_cons] at hnodup
      obtain ⟨w, m, hw, hmem, hwoken, hmoved⟩ := visited_visit c s ids (hlt id mem_cons_self)
      have hpool : ∀ t ∈ ids, (s.visit c id).pool.pcb t = s.pool.pcb t := by
        intro t ht
        have hne : t ≠ id := fun he => hnodup.1 (he ▸ ht)
        exact (hw.other t (fun h => hne (hmem t (.inl h)))
          fun h => hne (hmem t (.inr h))).1
      have hapart : ∀ n k t, t ∈ w ∨ t ∈ m →
          t ∉ c.woken s.pool ids n ∧ t ∉ c.moved s.pool ids n k := by
        intro n k t ht
        rw [hmem t ht]
        exact ⟨fun h => hnodup.1 ((c.woken_sublist s.pool ids n).subset h),
          fun h => hnodup.1 ((c.moved_sublist s.pool ids n k).subset h)⟩
      rw [hwoken, hmoved, visitAll]
      split
      · next hfin =>
        obtain ⟨hn, hm⟩ := (finished_iff ..).mp hfin
        rw [hn, hm]
        simpa [woken, moved] using hw
      · have ih := walked_visitAll c ids (s.visit c id) hnodup.2
          fun t ht => hlt t (mem_cons_of_mem _ ht)
        rw [c.woken_congr hpool, c.moved_congr hpool] at ih
        exact hw.append ih (hapart _ _)

theorem visitAll_append (c : WakeCall) (ids ids' : List Nat) :
    ∀ s : Scan, visitAll c (ids ++ ids') s = match visitAll c ids s with
      | (s, true) => (s, true)
      | (s, false) => visitAll c ids' s := by
  induction ids with
  | nil => exact fun s => rfl
  | cons id ids ih =>
      intro s
      rw [cons_append, visitAll, visitAll]
      split
      · rfl
      · exact ih _

theorem futexBits_visit (c : WakeCall) (s : Scan) {t : Nat} (h : t ≠ id)
    (b : Nat) : (s.visit c id).pool.futexBits b t = s.pool.futexBits b t := by
  have hdrop : (s.dropBit c id).pool.futexBits b t = s.pool.futexBits b t :=
    setBit_of_ne_slot _ _ _ _ h
  rw [visit]
  split
  · rfl
  split
  · split
    · exact hdrop
    · rfl
  split
  · split
    · exact hdrop
    split
    · split
      · rw [requeue]
        rw [futexBits_register]
        exact (setBit_of_ne_slot _ _ _ _ h).trans hdrop
      · rfl
    · rfl
  · rfl

theorem futexBits_visitAll (c : WakeCall) {t : Nat} (h : t ∉ ids) (b : Nat) : ∀ s : Scan,
    (visitAll c ids s).1.pool.futexBits b t = s.pool.futexBits b t := by
  induction ids with
  | nil => exact fun s => rfl
  | cons id ids ih =>
      intro s
      rw [mem_cons, not_or] at h
      rw [visitAll]
      split
      · exact futexBits_visit c s h.1 b
      · rw [ih h.2]
        exact futexBits_visit c s h.1 b

theorem slotsOf_congr {bits bits' : Nat → Bool} {word : Nat}
    (h : ∀ id, id / 64 = word → bits id = bits' id) : slotsOf bits word = slotsOf bits' word := by
  refine filter_congr fun id hid => h id ?_
  obtain ⟨k, hk, rfl⟩ := mem_map.mp hid
  rw [mem_range] at hk
  omega

theorem walk_eq (c : WakeCall) : ∀ {words : List Nat} (s : Scan), words.Nodup →
    walk c words s = (visitAll c (words.flatMap (slotsOf (s.pool.futexBits c.key.bucket))) s).1
  | [], s, _ => rfl
  | word :: words, s, hnodup => by
      rw [nodup_cons] at hnodup
      rw [walk, flatMap_cons, visitAll_append]
      have hbits := fun t
          (ht : t ∉ slotsOf (s.pool.futexBits c.key.bucket) word) =>
        futexBits_visitAll c ht c.key.bucket s
      generalize visitAll c (slotsOf (s.pool.futexBits c.key.bucket) word) s = r
        at hbits ⊢
      obtain ⟨s₁, b⟩ := r
      cases b with
      | true => rfl
      | false =>
          dsimp only
          rw [walk_eq c s₁ hnodup.2]
          -- The words to come hold none of the tasks that were visited.
          have hwords : words.flatMap
              (slotsOf (s₁.pool.futexBits c.key.bucket)) =
              words.flatMap (slotsOf (s.pool.futexBits c.key.bucket)) := by
            refine flatMap_congr fun w hw => slotsOf_congr fun id hid => ?_
            refine hbits id fun hmem => hnodup.1 ?_
            rw [← (mem_slotsOf.mp hmem).1, hid]
            exact hw
          rw [hwords]

end Scan

namespace Pool

/-- The tasks with a bit in a bucket, in the order in which they are
visited. -/
def candidates (pool : Pool) (bucket : Nat) : List Nat :=
  (range slotWordCount).flatMap (slotsOf (pool.futexBits bucket))

theorem mem_candidates {bucket : Nat} :
    id ∈ pool.candidates bucket ↔ id < numProcess ∧ pool.futexBits bucket id = true := by
  rw [candidates, mem_flatMap]
  constructor
  · rintro ⟨word, hword, hid⟩
    obtain ⟨he, hbit⟩ := mem_slotsOf.mp hid
    rw [mem_range, slotWordCount, numProcess] at hword
    rw [numProcess]
    exact ⟨by omega, hbit⟩
  · rintro ⟨hlt, hbit⟩
    rw [numProcess] at hlt
    refine ⟨id / 64, ?_, mem_slotsOf.mpr ⟨rfl, hbit⟩⟩
    rw [mem_range, slotWordCount, numProcess]
    omega

theorem nodup_candidates (pool : Pool) (bucket : Nat) : (pool.candidates bucket).Nodup := by
  rw [candidates, nodup_flatMap]
  refine ⟨fun word _ => ?_, ?_⟩
  · refine List.Nodup.filter _ (List.Nodup.map ?_ nodup_range)
    intro i j h
    exact Nat.add_left_cancel h
  · refine nodup_range.imp fun {v w} hne id hv hw => hne ?_
    rw [← (mem_slotsOf.mp hv).1, (mem_slotsOf.mp hw).1]

end Pool

def WakeCall.taken (c : WakeCall) (pool : Pool) : List Nat :=
  c.woken pool (pool.candidates c.key.bucket) c.val.toNat

def WakeCall.shifted (c : WakeCall) (pool : Pool) : List Nat :=
  c.moved pool (pool.candidates c.key.bucket) c.val.toNat
    (if c.canRequeue then c.val2.toNat else 0)

theorem walked_walk (c : WakeCall) (pool : Pool) :
    Scan.Walked c { pool, count1 := 0, count2 := 0 } (c.taken pool) (c.shifted pool)
      (walk c (range slotWordCount) { pool, count1 := 0, count2 := 0 }) := by
  have h := walked_visitAll c (pool.candidates c.key.bucket)
    { pool, count1 := 0, count2 := 0 } (pool.nodup_candidates _)
    fun id hid => (mem_candidates.mp hid).1
  rw [walk_eq c _ nodup_range]
  rw [wakeable, movable, Int.sub_zero, Int.sub_zero] at h
  exact h

namespace WakeCall

def waiters (c : WakeCall) (pool : Pool) : List Nat :=
  (range numProcess).filter fun id => c.waits (pool.pcb id)

def seen (c : WakeCall) (pool : Pool) : List Nat :=
  (pool.candidates c.key.bucket).filter fun id => c.waits (pool.pcb id)

/-- `ws` are woken and `ms` moved, and no one else is touched. -/
structure Effect (c : WakeCall) (pool : Pool) (ret : Int) (pool' : Pool)
    (ws ms : List Nat) : Prop where
  nodup : (ws ++ ms).Nodup
  waiting : ∀ id ∈ ws ++ ms, id ∈ c.waiters pool
  enough : ws.length = min c.val.toNat (c.waiters pool).length
  bounded : ms.length ≤ if c.target.isSome then c.val2.toNat else 0
  woken : ∀ id ∈ ws, (pool'.pcb id).state = .runnable ∧ (pool'.pcb id).futexKey = 0
  moved : ∀ id ∈ ms, (pool'.pcb id).state = .sleeping ∧
    ∃ uaddr2 key2, c.target = some (uaddr2, key2) ∧ (pool'.pcb id).key.equal key2 = true ∧
      c.Refiled key2 pool'.futexBits id
  other : ∀ id, id ∉ ws → id ∉ ms → pool'.pcb id = pool.pcb id ∧ ((pool.pcb id).futexKey ≠ 0 →
      ∀ b, pool'.futexBits b id = pool.futexBits b id)
  result : ret = ws.length + if c.includeRequeued then (ms.length : Int) else 0

/-- The counts are not negative unless there is nothing to wake, the index
misses no waiter that there is a wakeup for, and every waiter that is to be
moved to a private key is of the key's address space. -/
structure Fits (c : WakeCall) (pool : Pool) : Prop where
  count : 0 ≤ c.val2 ∨ c.val = 0 ∨ c.waiters pool = []
  indexed : c.val.toNat ≤ (c.seen pool).length ∨
    ∀ id ∈ c.waiters pool, pool.futexBits c.key.bucket id = true
  owned : ∀ uaddr2 key2, c.target = some (uaddr2, key2) → key2.isPrivate = true →
    ∀ id ∈ (((c.seen pool).drop c.val.toNat).filter pool.sleeps).take
      c.val2.toNat, (pool.pcb id).mm = key2.privateMm

theorem key_of_waits {p : Pcb} (h : c.waits p = true) :
    p.futexKey ≠ 0 ∧ p.key.equal c.key = true := by
  rw [waits, Bool.and_eq_true, Bool.and_eq_true] at h
  refine ⟨fun hzero => ?_, h.1.2⟩
  have hvalid := h.1.1
  rw [Pcb.key, if_pos hzero] at hvalid
  exact absurd hvalid (by decide)

theorem mem_waiters : id ∈ c.waiters pool ↔ id < numProcess ∧ c.waits (pool.pcb id) = true := by
  rw [waiters, mem_filter, mem_range]

theorem mem_seen :
    id ∈ c.seen pool ↔ id ∈ c.waiters pool ∧ pool.futexBits c.key.bucket id = true := by
  rw [seen, mem_filter, mem_candidates, mem_waiters]
  tauto

theorem nodup_seen (c : WakeCall) (pool : Pool) : (c.seen pool).Nodup :=
  (pool.nodup_candidates _).filter _

theorem nodup_waiters (c : WakeCall) (pool : Pool) : (c.waiters pool).Nodup :=
  nodup_range.filter _

theorem seen_subperm (c : WakeCall) (pool : Pool) : (c.seen pool).Subperm (c.waiters pool) :=
  (c.nodup_seen pool).subperm fun _ h => (mem_seen.mp h).1

theorem length_seen_lt (hid : id ∈ c.waiters pool) (hbit : pool.futexBits c.key.bucket id ≠ true) :
    (c.seen pool).length < (c.waiters pool).length := by
  refine Nat.lt_of_le_of_ne (c.seen_subperm pool).length_le fun he => hbit ?_
  have hperm := (c.seen_subperm pool).perm_of_length_le (Nat.le_of_eq he.symm)
  exact (mem_seen.mp (hperm.mem_iff.mpr hid)).2

theorem Fits.enough (h : c.Fits pool) :
    ((c.seen pool).take c.val.toNat).length = min c.val.toNat (c.waiters pool).length := by
  have hle := (c.seen_subperm pool).length_le
  rw [length_take]
  rcases h.indexed with hn | hall
  · omega
  · have hsub : (c.waiters pool).Subperm (c.seen pool) :=
      (c.nodup_waiters pool).subperm fun id hid =>
        mem_seen.mpr ⟨hid, hall id hid⟩
    have := hsub.length_le
    omega

theorem key_equal_iff {p : Pcb} {key : FutexKey} (hvalid : key.valid = true)
    (hkey : p.futexKey = key.value) (hpriv : p.futexPrivate = key.isPrivate) :
    p.key.equal key = true ↔ (key.isPrivate = true → p.mm = key.privateMm) := by
  have hne : p.futexKey ≠ 0 := by
    rw [hkey]
    exact of_decide_eq_true hvalid
  rw [Pcb.key, if_neg hne, FutexKey.equal, hkey, hpriv]
  cases key.isPrivate <;> simp

theorem effect_of_fits (h : c.Fits pool) (htarget : ∀ uaddr2 key2, c.target = some (uaddr2, key2) →
      key2.valid = true)
    {r : Scan} (hr : Scan.Walked c { pool, count1 := 0, count2 := 0 } (c.taken pool)
      (c.shifted pool) r) :
    c.Effect pool (r.result c) r.pool (c.taken pool) (c.shifted pool) := by
  have hws : c.taken pool = (c.seen pool).take c.val.toNat := rfl
  have hms : c.shifted pool = (((c.seen pool).drop c.val.toNat).filter pool.sleeps).take
      (if c.canRequeue then c.val2.toNat else 0) := rfl
  rw [hws, hms] at hr ⊢
  have hsub : ((((c.seen pool).drop c.val.toNat).filter pool.sleeps).take
      (if c.canRequeue then c.val2.toNat else 0)).Sublist
      ((c.seen pool).drop c.val.toNat) :=
    (take_sublist ..).trans filter_sublist
  refine ⟨?_, fun id hid => ?_, h.enough, ?_, hr.woken, fun id hid => ?_, hr.other, ?_⟩
  · have hnodup := c.nodup_seen pool
    rw [← take_append_drop c.val.toNat (c.seen pool)] at hnodup
    exact hnodup.sublist (hsub.append_left _)
  · refine (mem_seen.mp ?_).1
    rcases mem_append.mp hid with hid | hid
    · exact mem_of_mem_take hid
    · exact mem_of_mem_drop (hsub.subset hid)
  · refine (length_take_le ..).trans ?_
    by_cases hc : c.canRequeue = true
    · rw [if_pos hc, if_pos (Bool.and_eq_true_iff.mp hc).1]
    · rw [if_neg hc]
      exact Nat.zero_le _
  · obtain ⟨uaddr2, key2, ht, hst, hkey, hpriv, hmm, hbits⟩ := hr.moved id hid
    have hvalid := htarget uaddr2 key2 ht
    refine ⟨hst, uaddr2, key2, ht, ?_, hbits (of_decide_eq_true hvalid)⟩
    rw [key_equal_iff hvalid hkey hpriv, hmm]
    intro hprivate
    refine h.owned uaddr2 key2 ht hprivate id ?_
    by_cases hc : c.canRequeue = true
    · rwa [if_pos hc] at hid
    · rw [if_neg hc, take_zero] at hid
      cases hid
  · rw [result, hr.count1, hr.count2]
    simp

/-- A call that does nothing has the effect only if there is nothing to
wake. -/
theorem effect_nothing :
    (∃ ws ms, c.Effect pool 0 pool ws ms) ↔ c.val.toNat = 0 ∨ c.waiters pool = [] := by
  constructor
  · rintro ⟨ws, ms, h⟩
    cases ws with
    | nil =>
        have henough := h.enough
        rw [length_nil] at henough
        by_cases hval : c.val.toNat = 0
        · exact .inl hval
        · exact .inr (length_eq_zero_iff.mp (by omega))
    | cons id ws =>
        have hwait := mem_waiters.mp (h.waiting id mem_cons_self)
        exact absurd (h.woken id mem_cons_self).2
          (key_of_waits hwait.2).1
  · intro h
    refine ⟨[], [], nodup_nil, fun _ h => (nomatch h), ?_, Nat.zero_le _,
      fun _ h => (nomatch h), fun _ h => (nomatch h),
      fun _ _ _ => ⟨rfl, fun _ _ => rfl⟩, by simp⟩
    rcases h with h | h
    · rw [h, Nat.zero_min]
      rfl
    · rw [h, length_nil, Nat.min_zero]

theorem fits_of_effect (htarget : ∀ uaddr2 key2, c.target = some (uaddr2, key2) →
      key2.valid = true ∧ (key2.isPrivate = true → c.key.isPrivate = true →
          key2.privateMm = c.key.privateMm)) (hval2 : 0 ≤ c.val2)
    {r : Scan} (hr : Scan.Walked c { pool, count1 := 0, count2 := 0 } (c.taken pool)
      (c.shifted pool) r)
    {ret : Int} {ws ms : List Nat} (h : c.Effect pool ret r.pool ws ms) :
    c.Fits pool := by
  have hmoved : ∀ id ∈ c.shifted pool, (r.pool.pcb id).futexKey ≠ 0 := by
    intro id hid
    obtain ⟨uaddr2, key2, ht, _, hkey, _⟩ := hr.moved id hid
    rw [hkey]
    exact of_decide_eq_true (htarget uaddr2 key2 ht).1
  refine ⟨.inl hval2, ?_, fun uaddr2 key2 ht hprivate id hid => ?_⟩
  · -- Whoever has lost its key was woken by the walk.
    have hsub : ws ⊆ c.taken pool := by
      intro id hid
      have hzero := (h.woken id hid).2
      have hne := (key_of_waits (mem_waiters.mp
        (h.waiting id (mem_append_left _ hid))).2).1
      by_contra hno
      refine hne ?_
      rw [← (hr.other id hno fun hm => hmoved id hm hzero).1]
      exact hzero
    have hlen := (h.nodup.of_append_left.subperm hsub).length_le
    have hseen : (c.taken pool).length ≤ (c.seen pool).length :=
      (take_sublist ..).length_le
    rw [h.enough] at hlen
    by_contra hno
    rw [not_or, not_forall] at hno
    obtain ⟨hn, id, hid⟩ := hno
    rw [Classical.not_imp] at hid
    have := length_seen_lt hid.1 hid.2
    omega
  · have hcan : c.canRequeue = true := by
      rw [canRequeue, ht, Option.isSome_some, Bool.true_and, decide_eq_true_iff]
      by_contra hno
      rw [show c.val2.toNat = 0 by omega, take_zero] at hid
      cases hid
    have hmem : id ∈ c.shifted pool := by
      rw [shifted, if_pos hcan]
      exact hid
    obtain ⟨u, k, ht', hst, hkey, hpriv, hmm, _⟩ := hr.moved id hmem
    rw [ht] at ht'
    cases ht'
    have hvalid := (htarget uaddr2 key2 ht).1
    rw [← show (r.pool.pcb id).mm = (pool.pcb id).mm from hmm]
    -- It lost its key to the target's, unless the two are one key.
    by_cases hws : id ∈ ws
    · exact absurd (h.woken id hws).2 (hmoved id hmem)
    by_cases hms : id ∈ ms
    · obtain ⟨_, u, k, ht', hequal, _⟩ := h.moved id hms
      rw [ht] at ht'
      cases ht'
      exact (key_equal_iff hvalid hkey hpriv).mp hequal hprivate
    · have hsame := (h.other id hws hms).1
      have hseen : id ∈ c.seen pool := mem_of_mem_drop
        (mem_filter.mp (mem_of_mem_take hid)).1
      have hwaits := (mem_waiters.mp (mem_seen.mp hseen).1).2
      rw [← hsame] at hwaits
      obtain ⟨hne, hequal⟩ := key_of_waits hwaits
      rw [Pcb.key, if_neg hne, hpriv, hprivate, FutexKey.equal] at hequal
      simp only [Bool.and_eq_true, decide_eq_true_iff, Bool.not_true, Bool.false_or] at hequal
      rw [(htarget uaddr2 key2 ht).2 hprivate hequal.1.2.symm]
      exact hequal.2

end WakeCall

namespace WakeArgs

/-- The call is refused: a negative count, an address without a key, or a word
that differs from the expected one. -/
def rejected (args : WakeArgs) : Bool :=
  args.val < 0 || (args.uaddr2 ≠ 0 && args.val2 < 0) || !args.key.valid ||
    (args.uaddr2 ≠ 0 && !args.key2.valid) ||
    (args.expected.isSome && args.word ≠ args.expected)

/-- What a call has to do: nothing if it is refused, else to wake and to
move. -/
def Meets (args : WakeArgs) (pool : Pool) (r : Int × Pool) : Prop :=
  if args.rejected then r.1 < 0 ∧ r.2 = pool
  else ∃ ws ms, args.call.Effect pool r.1 r.2 ws ms

theorem futexWakeup_rejected (h : args.rejected = true) (pool : Pool) :
    (futexWakeup pool args).1 < 0 ∧ (futexWakeup pool args).2 = pool := by
  have hrefused : ∀ e : Int, e < 0 → (e, pool).1 < 0 ∧ (e, pool).2 = pool :=
    fun _ h => ⟨h, rfl⟩
  simp only [rejected, Bool.or_eq_true, Bool.and_eq_true, decide_eq_true_iff,
    Bool.not_eq_true'] at h
  rw [futexWakeup]
  split
  · exact hrefused _ (by decide)
  next hval =>
  split
  · exact hrefused _ (by decide)
  next hval2 =>
  split
  · exact hrefused _ (by decide)
  split
  · exact hrefused _ (by decide)
  next hkey =>
  split
  · exact hrefused _ (by decide)
  next hkey2 =>
  rw [Bool.not_eq_true', Bool.not_eq_false] at hkey
  -- Only the comparison is left.
  have hcmp : args.expected.isSome = true ∧ args.word ≠ args.expected := by
    rcases h with (((h | h) | h) | h) | h
    · exact absurd h hval
    · exact absurd h hval2
    · rw [hkey] at h
      cases h
    · exact absurd ⟨h.1, by rw [h.2]; rfl⟩ hkey2
    · exact h
  split
  · exact hrefused _ (by decide)
  · next expected word hexp hword =>
    rw [if_neg fun he => hcmp.2 (by rw [hexp, hword, he])]
    exact hrefused _ (by decide)
  · next hexp =>
    rw [hexp] at hcmp
    cases hcmp.1

theorem futexWakeup_accepted (h : args.rejected = false) (pool : Pool) :
    futexWakeup pool args = reportWoken (wakeup2 pool args.call) := by
  simp only [rejected, Bool.or_eq_false_iff, Bool.and_eq_false_iff, decide_eq_false_iff_not] at h
  obtain ⟨⟨⟨⟨hval, hval2⟩, hkey⟩, hkey2⟩, hcmp⟩ := h
  have hzero : args.uaddr ≠ 0 := by
    intro he
    rw [key, resolveFutexKey, if_pos (.inl he)] at hkey
    exact absurd hkey (by decide)
  rw [futexWakeup, if_neg hval, if_neg fun he => hval2.elim (· he.1) (· he.2), if_neg hzero, hkey]
  simp only [Bool.false_eq_true, if_false]
  rw [if_neg]
  swap
  · rintro ⟨hne, hinv⟩
    rcases hkey2 with hk | hk
    · exact hk hne
    · rw [hk] at hinv
      cases hinv
  split
  · next expected hexp hword =>
    rw [hexp, hword] at hcmp
    rcases hcmp with hc | hc
    · cases hc
    · exact absurd (fun he => nomatch he) hc
  · next expected word hexp hword =>
    rw [hexp, hword] at hcmp
    rcases hcmp with hc | hc
    · cases hc
    · rw [if_pos (Option.some.inj (not_not.mp hc))]
  · rfl

theorem target_valid (h : args.rejected = false) {uaddr2 : Word} {key2 : FutexKey}
    (ht : args.call.target = some (uaddr2, key2)) :
    key2.valid = true ∧ 0 ≤ args.val2 ∧ (key2.isPrivate = true → args.key.isPrivate = true →
        key2.privateMm = args.key.privateMm) := by
  simp only [rejected, Bool.or_eq_false_iff, Bool.and_eq_false_iff,
    decide_eq_false_iff_not, Bool.not_eq_false'] at h
  obtain ⟨⟨⟨⟨_, hval2⟩, _⟩, hkey2⟩, _⟩ := h
  have hmm : ∀ uaddr m, (resolveFutexKey args.mm uaddr m args.scope).isPrivate =
      true → (resolveFutexKey args.mm uaddr m args.scope).privateMm = args.mm := by
    intro uaddr m
    rw [resolveFutexKey]
    split
    · exact nofun
    split
    · exact fun _ => rfl
    · exact nofun
  rw [call] at ht
  split at ht
  · cases ht
  next hne =>
  cases ht
  refine ⟨hkey2.resolve_left (not_not.mpr hne), ?_, fun h2 h1 => ?_⟩
  · exact Int.not_lt.mp (hval2.resolve_left (not_not.mpr hne))
  · rw [key2, key, hmm _ _ h2, hmm _ _ h1]

theorem wakeup2_effect (h : args.rejected = false) (pool : Pool) :
    (∃ ws ms, args.call.Effect pool (reportWoken (wakeup2 pool args.call)).1
        (reportWoken (wakeup2 pool args.call)).2 ws ms) ↔ args.call.Fits pool := by
  have hval : 0 ≤ args.call.val := by
    simp only [rejected, Bool.or_eq_false_iff, decide_eq_false_iff_not] at h
    exact Int.not_lt.mp h.1.1.1.1
  have htarget := fun u k ht => @target_valid args h u k ht
  rw [wakeup2]
  split
  · next hnothing =>
    rw [show reportWoken (0, pool) = (0, pool) from rfl, effect_nothing]
    constructor
    · intro hno
      refine ⟨?_, ?_, fun u k ht hp id hid => ?_⟩
      · rcases hno with hno | hno
        · exact .inr (.inl (by omega))
        · exact .inr (.inr hno)
      · rcases hno with hno | hno
        · exact .inl (by omega)
        · exact .inr fun id hid => by rw [hno] at hid; cases hid
      · -- Nothing is to be moved: there is no target, or no count for it.
        have hzero : args.call.val2.toNat = 0 := by
          rcases hnothing with hneg | hneg | ⟨_, hcan⟩
          · omega
          · omega
          · rw [canRequeue, ht, Option.isSome_some, Bool.true_and, decide_eq_false_iff_not] at hcan
            omega
        rw [hzero, take_zero] at hid
        cases hid
    · intro hfits
      rcases hnothing with hneg | hneg | ⟨hzero, _⟩
      · omega
      · rcases hfits.count with hc | hc | hc
        · omega
        · exact .inl (by omega)
        · exact .inr hc
      · exact .inl (by omega)
  next hgo =>
  have hval2 : 0 ≤ args.call.val2 := by
    by_contra hneg
    exact hgo (.inr (.inl (Int.not_le.mp hneg)))
  have hr := walked_walk args.call pool
  generalize walk args.call (range slotWordCount)
    { pool, count1 := 0, count2 := 0 } = r at hr ⊢
  have hnonneg : 0 ≤ r.result args.call := by
    rw [result, hr.count1, hr.count2]
    dsimp only
    split <;> omega
  rw [reportWoken, if_pos hnonneg]
  constructor
  · rintro ⟨ws, ms, heffect⟩
    exact fits_of_effect (fun u k ht =>
      ⟨(htarget u k ht).1, (htarget u k ht).2.2⟩) hval2 hr heffect
  · intro hfits
    exact ⟨_, _, effect_of_fits hfits
      (fun u k ht => (htarget u k ht).1) hr⟩

end WakeArgs

/-- A call does what it is for just when it is refused or fits. -/
theorem futexWakeup_meets_iff (pool : Pool) (args : WakeArgs) :
    args.Meets pool (futexWakeup pool args) ↔ args.rejected = true ∨ args.call.Fits pool := by
  rw [WakeArgs.Meets]
  cases h : args.rejected with
  | true =>
      exact ⟨fun _ => .inl rfl, fun _ => WakeArgs.futexWakeup_rejected h pool⟩
  | false =>
      rw [if_neg Bool.false_ne_true, WakeArgs.futexWakeup_accepted h, WakeArgs.wakeup2_effect h]
      exact ⟨.inr, fun hfits => hfits.resolve_left nofun⟩

/-- Two tasks of different address spaces share the page at 4096; the second
sleeps on a futex there. -/
def sharedWaiter : Pool :=
  let pool : Pool := { busy with
    pcb := fun id => { busy.pcb id with mm := BitVec.ofNat 64 (id + 1) } }
  let pool := pool.modify 1 { pool.pcb 1 with
    state := .sleeping, futexKey := 4096 }
  { pool with futexBits := fun b id => b == 0 && id == 1 }

/-- The first task requeues it to a futex in its own private memory. -/
def requeueToPrivate : WakeArgs :=
  { mm := 1, uaddr := 65536, map := { pa := 4096, shared := true }, val := 0,
    uaddr2 := 131072, map2 := { pa := 8192, shared := false }, val2 := 1,
    scope := .auto, includeRequeued := false, expected := none, word := none }

/-- The waiter sleeps on with a key that is neither of the two, and its bit is
not in the bucket of that key. -/
theorem futexWakeup_requeueToPrivate :
    requeueToPrivate.rejected = false ∧ (requeueToPrivate.call.waits (sharedWaiter.pcb 1)) = true ∧
      ∃ pool, futexWakeup sharedWaiter requeueToPrivate = (0, pool) ∧
        (pool.pcb 1).state = .sleeping ∧ (pool.pcb 1).key.equal requeueToPrivate.key = false ∧
        (pool.pcb 1).key.equal requeueToPrivate.key2 = false ∧
        pool.futexBits (pool.pcb 1).key.bucket 1 = false ∧
        ¬ requeueToPrivate.Meets sharedWaiter (0, pool) := by
  refine ⟨rfl, rfl, _, rfl, rfl, rfl, rfl, rfl, fun h => ?_⟩
  obtain ⟨ws, ms, h⟩ := h
  by_cases hws : 1 ∈ ws
  · exact absurd (h.woken 1 hws).2 (by decide)
  by_cases hms : 1 ∈ ms
  · obtain ⟨_, u, k, ht, hequal, _⟩ := h.moved 1 hms
    cases ht
    exact absurd hequal (by decide)
  · exact absurd (congrArg Pcb.futexKey (h.other 1 hws hms).1) (by decide)

end F7ly.Proc.Wait
