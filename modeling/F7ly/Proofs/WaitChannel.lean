import F7ly.Lib.Run
import F7ly.Proc.WaitChannel

/-!
# No sleeper is missed by a wakeup

A task's bit in the bitmap is kept in step with two of its fields, and both
are changed only under the task's lock: it has one bit if it is registered,
and then its bucket is the one of its channel. Whatever reads the bitmap
without the lock looks at the channel again once it has the lock, so a stale
candidate is left alone.

The other half is that a call of `wakeup` reaches everyone who slept when it
began. Such a task stays where it is until someone makes it runnable, so its
bit is there when its word is read, and it is among the candidates until it is
visited.
-/

namespace F7ly.Proc.Wait

open WaitSystem Pool Function List

open Signal (ProcState Word)
open F7ly

theorem setBit_self (bits : Nat → Nat → Bool) (b id : Nat) (v : Bool) :
    setBit bits b id v b id = v := by
  rw [setBit, update_self, update_self]

theorem setBit_of_ne_bucket (bits : Nat → Nat → Bool) {b b' : Nat} (id t : Nat)
    (v : Bool) (h : b' ≠ b) : setBit bits b id v b' t = bits b' t := by
  rw [setBit, update_of_ne h]

variable {id t a : Nat} {s s' : WaitSystem} {e : WaitEvent} {chan : Word}

theorem setBit_of_ne_slot (bits : Nat → Nat → Bool) (b b' : Nat)
    (v : Bool) (h : t ≠ id) : setBit bits b id v b' t = bits b' t := by
  by_cases hb : b' = b
  · rw [hb, setBit, update_self, update_of_ne h]
  · exact setBit_of_ne_bucket bits id t v hb

theorem mem_slotsOf {bits : Nat → Bool} {word : Nat} :
    id ∈ slotsOf bits word ↔ id / 64 = word ∧ bits id = true := by
  rw [slotsOf, mem_filter, mem_map]
  refine and_congr_left fun _ => ⟨?_, fun h => ?_⟩
  · rintro ⟨k, hk, rfl⟩
    rw [mem_range] at hk
    omega
  · exact ⟨id % 64, mem_range.mpr (Nat.mod_lt _ (by decide)), by omega⟩

theorem bucketOf_lt (chan : Word) : bucketOf chan < waitChannelBucketCount := by
  exact Nat.lt_of_le_of_lt Nat.and_le_right (by decide)

namespace Pool

@[simp] theorem pcb_setState (s : Pool) (id : Nat) (st : ProcState) (t : Nat) :
    (s.setState id st).pcb t = if t = id then { s.pcb t with state := st } else s.pcb t := by
  by_cases h : t = id
  · subst h
    rw [if_pos rfl]
    exact update_self ..
  · rw [if_neg h]
    exact update_of_ne h ..

/-- A task's bits are what its fields say. -/
structure Wired (s : Pool) (id : Nat) : Prop where
  bits : ∀ b, s.chanBits b id = true ↔
    (s.pcb id).waitChannelRegistered = true ∧ (s.pcb id).waitChannelBucket = b
  registered : (s.pcb id).waitChannelRegistered = true ↔ (s.pcb id).chan ≠ 0
  bucket : (s.pcb id).waitChannelRegistered = true →
    (s.pcb id).waitChannelBucket = bucketOf (s.pcb id).chan

theorem Wired.congr {s s' : Pool} (h : s.Wired id) (hbits : ∀ b, s'.chanBits b id = s.chanBits b id)
    (hreg : (s'.pcb id).waitChannelRegistered = (s.pcb id).waitChannelRegistered)
    (hbucket : (s'.pcb id).waitChannelBucket = (s.pcb id).waitChannelBucket)
    (hchan : (s'.pcb id).chan = (s.pcb id).chan) : s'.Wired id := by
  refine ⟨fun b => ?_, ?_, ?_⟩
  · rw [hbits, hreg, hbucket]
    exact h.bits b
  · rw [hreg, hchan]
    exact h.registered
  · rw [hreg, hbucket, hchan]
    exact h.bucket

theorem Wired.setState {s : Pool} (h : s.Wired t) (id : Nat)
    (st : ProcState) : (s.setState id st).Wired t := by
  refine h.congr (fun _ => rfl) ?_ ?_ ?_ <;> rw [pcb_setState] <;> split <;> rfl

theorem dropChanBit_self {s : Pool} (h : s.Wired id) (b : Nat) : s.dropChanBit id b id = false := by
  have hbits := h.bits b
  rw [dropChanBit]
  split
  · next hc =>
    by_cases hb : b = (s.pcb id).waitChannelBucket
    · rw [hb]
      exact setBit_self ..
    · rw [setBit_of_ne_bucket _ _ _ _ hb]
      exact Bool.eq_false_iff.mpr fun he => hb (hbits.mp he).2.symm
  next hc =>
  refine Bool.eq_false_iff.mpr fun he => hc ?_
  have hreg := (hbits.mp he).1
  exact ⟨hreg, h.bucket hreg ▸ bucketOf_lt _⟩

theorem dropChanBit_of_ne (s : Pool) (h : t ≠ id) (b : Nat) :
    s.dropChanBit id b t = s.chanBits b t := by
  rw [dropChanBit]
  split
  · exact setBit_of_ne_slot _ _ _ _ h
  · rfl

theorem pcb_unregister (s : Pool) (id : Nat) :
    (s.unregisterWaitChannel id).pcb id =
      { s.pcb id with waitChannelRegistered := false, chan := 0 } :=
  update_self ..

theorem pcb_unregister_of_ne (s : Pool) (h : t ≠ id) :
    (s.unregisterWaitChannel id).pcb t = s.pcb t :=
  update_of_ne h ..

theorem Wired.unregister {s : Pool} (h : s.Wired t) (id : Nat) :
    (s.unregisterWaitChannel id).Wired t := by
  by_cases ht : t = id
  · subst ht
    refine ⟨fun b => ?_, ?_, ?_⟩ <;> rw [pcb_unregister]
    · rw [show (s.unregisterWaitChannel t).chanBits b t = false from
        dropChanBit_self h b]
      simp
    · simp
    · exact fun he => nomatch he
  · have hp := pcb_unregister_of_ne s ht
    exact h.congr (fun b => dropChanBit_of_ne s ht b) (by rw [hp]) (by rw [hp])
      (by rw [hp])

theorem register_of_ne (s : Pool) (chan : Word) (h : t ≠ id) :
    (s.registerWaitChannel id chan).pcb t = s.pcb t ∧
      ∀ b, (s.registerWaitChannel id chan).chanBits b t = s.chanBits b t := by
  rw [registerWaitChannel]
  split
  · exact ⟨rfl, fun _ => rfl⟩
  split
  · exact ⟨rfl, fun _ => rfl⟩
  · refine ⟨update_of_ne h .., fun b => ?_⟩
    exact (setBit_of_ne_slot _ _ _ _ h).trans (dropChanBit_of_ne s h b)

theorem Wired.register {s : Pool} (h : s.Wired t) (id : Nat)
    (chan : Word) : (s.registerWaitChannel id chan).Wired t := by
  by_cases ht : t = id
  · subst ht
    rw [registerWaitChannel]
    split
    · exact h
    next hchan =>
    split
    · exact h
    have hp : (s.modify t { s.pcb t with
        waitChannelBucket := bucketOf chan, waitChannelRegistered := true,
        chan }).pcb t = { s.pcb t with
        waitChannelBucket := bucketOf chan, waitChannelRegistered := true,
        chan } := update_self ..
    refine ⟨fun b => ?_, ?_, ?_⟩ <;> dsimp only <;> rw [hp]
    · by_cases hb : b = bucketOf chan
      · rw [hb, setBit_self]
        simp
      · rw [setBit_of_ne_bucket _ _ _ _ hb, dropChanBit_self h]
        simpa using fun he : bucketOf chan = b => hb he.symm
    · simpa using hchan
    · exact fun _ => rfl
  · obtain ⟨hp, hbits⟩ := register_of_ne s chan ht
    exact h.congr hbits (by rw [hp]) (by rw [hp]) (by rw [hp])

end Pool

/-- The channel of the `wakeup` that a task is in. -/
def Pc.wakes : Pc → Option Word
  | .waking chan .. | .visiting chan .. => some chan
  | _ => none

def Pc.Ahead (id : Nat) : Pc → Prop
  | .waking _ ids words => id ∈ ids ∨ id / 64 ∈ words
  | .visiting _ id' ids words => id = id' ∨ id ∈ ids ∨ id / 64 ∈ words
  | _ => False

theorem Pc.not_ahead {pc : Pc} (h : pc.wakes = none) (t : Nat) : ¬ pc.Ahead t := by
  cases pc <;> first | exact fun ht => ht | cases h

namespace WaitSystem

variable {addr : Nat → Word}

/-- What one task does in `wakeup` without a lock, and where it leads. -/
inductive Looks (s : WaitSystem) (a : Nat) : Pc → Pc → Prop
  | read {chan : Word} {word : Nat} {words : List Nat} :
      Looks s a (.waking chan [] (word :: words)) (.waking chan
        (slotsOf (s.pool.chanBits (bucketOf chan)) word) words)
  | beyond {chan : Word} {id : Nat} {ids words : List Nat}
      (h : numProcess ≤ id) :
      Looks s a (.waking chan (id :: ids) words) (.waking chan [] words)
  | pass {chan : Word} {id : Nat} {ids words : List Nat}
      (h : id = a ∨ (s.pool.pcb id).chan ≠ chan) :
      Looks s a (.waking chan (id :: ids) words) (.waking chan ids words)
  | pick {chan : Word} {id : Nat} {ids words : List Nat} :
      Looks s a (.waking chan (id :: ids) words) (.visiting chan id ids words)
  | done {chan : Word} : Looks s a (.waking chan [] []) .idle
  /-- Outside `wakeup`. -/
  | other {pc pc' : Pc} (h : pc.wakes = none) (h' : pc'.wakes = none) :
      Looks s a pc pc'

/-- What a step can do. -/
inductive Steps (s : WaitSystem) : WaitEvent → WaitSystem → Prop
  | sleep {a : Nat} {chan : Word} {interrupted : Bool} (hpc : s.pc a = .idle)
      (hrun : (s.pool.pcb a).state = .running) (ha : a < numProcess) :
      Steps s (.sleep a chan interrupted) (s.sleep a chan interrupted)
  | run {a : Nat} (h : (s.pool.pcb a).state = .runnable) :
      Steps s (.run a) (s.run a)
  | yield {a : Nat} (h : (s.pool.pcb a).state = .running) :
      Steps s (.yield a) { s with pool := s.pool.setState a .runnable }
  | wakeup {a : Nat} {chan : Word} (hpc : s.pc a = .idle)
      (hrun : (s.pool.pcb a).state = .running) (hchan : chan ≠ 0) :
      Steps s (.wakeup a chan)
        { s.goto a (.waking chan [] (range slotWordCount)) with
          owed := update s.owed a fun t => s.sleepsOn t chan }
  | none {e : WaitEvent} : Steps s e s
  | look {e : WaitEvent} {a : Nat} {pc : Pc} (h : s.Looks a (s.pc a) pc)
      (hrun : (s.pool.pcb a).state = .running) : Steps s e (s.goto a pc)
  | visit {a id : Nat} {chan : Word} {ids words : List Nat} {same : Bool}
      (hpc : s.pc a = .visiting chan id ids words) :
      Steps s (.go a same)
        ((s.visit chan id).goto a (.waking chan ids words))
  | visitOne {a id : Nat} {chan : Word} {same : Bool} {pc : Pc}
      (hpc : (s.pc a).wakes = none) (hpc' : pc.wakes = none) :
      Steps s (.go a same) ((s.visitOne chan id).goto a pc)
  | cutShort {a id : Nat} {how : Cut} {futex same : Bool}
      (hpc : (s.pc a).wakes = none) :
      Steps s (.go a same) ((s.cutShort id how futex same).goto a .idle)
  | resume {e : WaitEvent} {id : Nat} (h : (s.pool.pcb id).state = .stopped) :
      Steps s e (s.rouse id)

theorem steps_of_go {same : Bool}
    (hrun : (s.pool.pcb a).state = .running) (h : s.go addr a same = some s') :
    s.Steps (.go a same) s' := by
  have hlook : ∀ pc, s.Looks a (s.pc a) pc →
      s.Steps (.go a same) (s.goto a pc) := fun _ h => .look h hrun
  rw [go] at h
  cases hpc : s.pc a with
  | idle | asleep => rw [hpc] at h; cases h
  | waking chan ids words =>
      rw [hpc] at h hlook
      match ids, words with
      | [], [] =>
          cases h
          exact hlook _ .done
      | [], _ :: _ =>
          cases h
          exact hlook _ .read
      | id :: ids, words =>
          dsimp only at h
          split at h
          · next hid =>
            cases h
            exact hlook _ (.beyond hid)
          split at h <;> cases h
          · next hid => exact hlook _ (.pass hid)
          · exact hlook _ .pick
  | visiting chan id ids words =>
      rw [hpc] at h
      cases h
      exact .visit hpc
  | wakingOne chan id =>
      rw [hpc] at h
      cases h
      exact .visitOne (by rw [hpc]; rfl) rfl
  | children tgid ids =>
      rw [hpc] at h hlook
      cases ids with
      | nil =>
          cases h
          exact hlook _ (.other rfl rfl)
      | cons id ids =>
          dsimp only at h
          split at h <;> cases h <;> exact hlook _ (.other rfl rfl)
  | childVisit tgid id ids =>
      rw [hpc] at h hlook
      dsimp only at h
      split at h <;> cases h
      · exact .visitOne (by rw [hpc]; rfl) rfl
      · exact hlook _ (.other rfl rfl)
  | cutting id how futex =>
      rw [hpc] at h
      cases h
      exact .cutShort (by rw [hpc]; rfl)

theorem steps_of_step (h : s.step addr e = some s') : s.Steps e s' := by
  cases e with
  | sleep a chan interrupted =>
      rw [step] at h
      split at h <;> cases h
      next hc => exact .sleep hc.1 hc.2.1 hc.2.2
  | run a =>
      rw [step] at h
      split at h <;> cases h
      next hc => exact .run hc
  | yield a =>
      rw [step] at h
      split at h <;> cases h
      next hc => exact .yield hc
  | wakeup a chan =>
      rw [step] at h
      split at h
      · next hc =>
        split at h <;> cases h
        · exact .none
        · next hchan => exact .wakeup hc.1 hc.2 hchan
      · cases h
  | wakeupOne a id chan =>
      rw [step] at h
      split at h
      · next hc =>
        split at h <;> cases h
        · exact .none
        · exact .look (by rw [hc.1]; exact .other rfl rfl) hc.2
      · cases h
  | wakeupChildren a parent =>
      rw [step] at h
      split at h <;> cases h
      next hc => exact .look (by rw [hc.1]; exact .other rfl rfl) hc.2
  | cut a id how futex =>
      rw [step] at h
      split at h <;> cases h
      next hc =>
      have hlook : ∀ pc, pc.wakes = none →
          s.Steps (.cut a id how futex) (s.goto a pc) := fun pc hpc =>
        .look (by rw [hc.1]; exact .other rfl hpc) hc.2
      cases how with
      | signal =>
          rw [cut]
          split
          · exact hlook _ rfl
          · exact .none
      | kill =>
          rw [cut]
          split
          · exact hlook _ rfl
          split
          · next hst => exact .resume hst
          · exact .none
      | group =>
          rw [cut]
          split
          · exact .none
          · exact hlook _ rfl
  | go a same =>
      rw [step] at h
      split at h
      · next hrun => exact steps_of_go hrun h
      · cases h

structure Inv (s : WaitSystem) : Prop where
  wired : ∀ t, s.pool.Wired t
  slot : ∀ t, (s.pool.pcb t).state = .sleeping → t < numProcess
  /-- Candidates come from the bitmap. -/
  ids : ∀ a t, (s.pc a).Ahead t → t < numProcess
  /-- Who is owed a wakeup sleeps on, and the call is not past it. -/
  owed : ∀ a t, s.owed a t = true → ∃ chan, (s.pc a).wakes = some chan ∧ chan ≠ 0 ∧
      s.sleepsOn t chan = true ∧ (s.pc a).Ahead t

theorem sleepsOn_iff :
    s.sleepsOn t chan = true ↔ (s.pool.pcb t).state = .sleeping ∧ (s.pool.pcb t).chan = chan := by
  rw [sleepsOn, Bool.and_eq_true, decide_eq_true_iff, decide_eq_true_iff]

theorem Inv.bit (hs : s.Inv) (h : s.sleepsOn t chan = true) (hchan : chan ≠ 0) :
    s.pool.chanBits (bucketOf chan) t = true := by
  obtain ⟨_, hc⟩ := sleepsOn_iff.mp h
  have hw := hs.wired t
  have hreg := hw.registered.mpr (by rw [hc]; exact hchan)
  exact (hw.bits _).mpr ⟨hreg, by rw [hw.bucket hreg, hc]⟩

/-- What a change under the lock of a task comes to for the others, and for
those who are owed a wakeup: a sleeper is left alone or made runnable. -/
structure Touched (s s' : WaitSystem) : Prop where
  pc : s'.pc = s.pc
  wired : (∀ t, s.pool.Wired t) → ∀ t, s'.pool.Wired t
  owed : ∀ a t, s'.owed a t = true → s.owed a t = true
  sleeping : ∀ t, (s'.pool.pcb t).state = .sleeping → (s.pool.pcb t).state = .sleeping
  spared : ∀ a t chan, s'.owed a t = true → s.sleepsOn t chan = true → s'.sleepsOn t chan = true
  paid : ∀ a t, s.owed a t = true → s'.owed a t = false → (s'.pool.pcb t).state = .runnable

theorem Touched.refl (s : WaitSystem) : s.Touched s := by
  refine ⟨rfl, id, fun _ _ => id, fun _ => id, fun _ _ _ _ => id, ?_⟩
  intro a t h h'
  rw [h] at h'
  cases h'

theorem touched_rouse (s : WaitSystem) (id : Nat) : s.Touched (s.rouse id) := by
  have hpcb : ∀ t, t ≠ id → (s.rouse id).pool.pcb t = s.pool.pcb t := by
    intro t ht
    exact (pcb_setState ..).trans (if_neg ht)
  have howed : ∀ a t, (s.rouse id).owed a t = true → t ≠ id ∧ s.owed a t = true := by
    intro a t h
    rw [rouse] at h
    dsimp only at h
    split at h
    · cases h
    · next ht => exact ⟨ht, h⟩
  refine ⟨rfl, fun hw t => (hw t).setState id _, fun a t h => (howed a t h).2,
    fun t h => ?_, fun a t chan h hc => ?_, fun a t h h' => ?_⟩
  · by_cases ht : t = id
    · subst ht
      rw [show (s.rouse t).pool.pcb t = _ from pcb_setState .., if_pos rfl]
        at h
      cases h
    · rwa [hpcb t ht] at h
  · rw [sleepsOn_iff] at hc ⊢
    rwa [hpcb t (howed a t h).1]
  · rw [rouse] at h' ⊢
    dsimp only at h' ⊢
    rw [pcb_setState]
    split at h'
    · next ht => rw [if_pos ht]
    · rw [h] at h'
      cases h'

theorem touched_unregister (s : WaitSystem)
    (h : (s.pool.pcb id).state ≠ .sleeping) : s.Touched (s.unregister id) := by
  have hpcb : ∀ t, t ≠ id → (s.unregister id).pool.pcb t = s.pool.pcb t :=
    fun t ht => pcb_unregister_of_ne _ ht
  refine ⟨rfl, fun hw t => (hw t).unregister id, fun _ _ h => h,
    fun t ht => ?_, fun a t chan _ hc => ?_, fun a t h h' => ?_⟩
  · by_cases hid : t = id
    · subst hid
      rw [show (s.unregister t).pool.pcb t = _ from pcb_unregister ..] at ht
      exact ht
    · rwa [hpcb t hid] at ht
  · rw [sleepsOn_iff] at hc ⊢
    by_cases hid : t = id
    · subst hid
      exact absurd hc.1 h
    · rwa [hpcb t hid]
  · rw [show (s.unregister id).owed = s.owed from rfl, h] at h'
    cases h'

theorem touched_unregister_rouse (s : WaitSystem) (id : Nat) :
    s.Touched ((s.unregister id).rouse id) := by
  have hr := touched_rouse (s.unregister id) id
  have hpcb : ∀ t, t ≠ id → (s.unregister id).pool.pcb t = s.pool.pcb t :=
    fun t ht => pcb_unregister_of_ne _ ht
  refine ⟨rfl, fun hw t => hr.wired (fun t => (hw t).unregister id) t, hr.owed,
    fun t ht => ?_, fun a t chan h hc => hr.spared a t chan h ?_, hr.paid⟩
  · have ht := hr.sleeping t ht
    by_cases hid : t = id
    · subst hid
      rwa [show (s.unregister t).pool.pcb t = _ from pcb_unregister ..]
        at ht
    · rwa [hpcb t hid] at ht
  · have hid : t ≠ id := by
      intro hid
      rw [rouse] at h
      simp [hid] at h
    rw [sleepsOn_iff] at hc ⊢
    rwa [hpcb t hid]

theorem touched_visit (s : WaitSystem) (chan : Word) (id : Nat) : s.Touched (s.visit chan id) := by
  rw [visit]
  split
  · exact touched_unregister_rouse s id
  next hno =>
  split
  · next hc =>
    refine touched_unregister s fun hst => hno ?_
    exact sleepsOn_iff.mpr ⟨hst, hc.2⟩
  · exact .refl s

theorem touched_visitOne (s : WaitSystem) (chan : Word) (id : Nat) :
    s.Touched (s.visitOne chan id) := by
  rw [visitOne]
  split
  · exact touched_unregister_rouse s id
  · exact .refl s

theorem touched_cutShort (s : WaitSystem) (id : Nat) (how : Cut)
    (futex same : Bool) : s.Touched (s.cutShort id how futex same) := by
  rw [cutShort]
  split
  · split
    · exact touched_rouse s id
    · exact .refl s
  · split
    · exact touched_unregister_rouse s id
    next hno =>
    refine touched_unregister s fun hst => hno (.inl ?_)
    rw [show (s.unregister id).pool.pcb id = _ from pcb_unregister ..]
    exact hst

theorem Inv.touched (hs : s.Inv) (h : s.Touched s') : s'.Inv := by
  refine ⟨h.wired hs.wired, fun t ht => hs.slot t (h.sleeping t ht), ?_, ?_⟩
  · rw [h.pc]
    exact hs.ids
  · intro a t howed
    obtain ⟨chan, hwakes, hchan, hon, hahead⟩ := hs.owed a t (h.owed a t howed)
    rw [h.pc]
    exact ⟨chan, hwakes, hchan, h.spared a t chan howed hon, hahead⟩

/-- A task moves on to a place that still has everyone ahead of it whom it
owes a wakeup. -/
theorem Inv.goto (hs : s.Inv) {pc : Pc} (hids : ∀ t, pc.Ahead t → t < numProcess)
    (howed : ∀ t chan, s.owed a t = true → (s.pc a).wakes = some chan →
      chan ≠ 0 → s.sleepsOn t chan = true → (s.pc a).Ahead t →
      pc.wakes = some chan ∧ pc.Ahead t) : (s.goto a pc).Inv := by
  refine ⟨hs.wired, hs.slot, fun b t => ?_, fun b t ho => ?_⟩
  · show (update s.pc a pc b).Ahead t → _
    by_cases hb : b = a
    · subst hb
      rw [update_self]
      exact hids t
    · rw [update_of_ne hb]
      exact hs.ids b t
  · obtain ⟨chan, hwakes, hchan, hon, hahead⟩ := hs.owed b t ho
    show ∃ chan, (update s.pc a pc b).wakes = some chan ∧ chan ≠ 0 ∧
      s.sleepsOn t chan = true ∧ (update s.pc a pc b).Ahead t
    by_cases hb : b = a
    · subst hb
      rw [update_self]
      obtain ⟨hw, ha⟩ := howed t chan ho hwakes hchan hon hahead
      exact ⟨chan, hw, hchan, hon, ha⟩
    · rw [update_of_ne hb]
      exact ⟨chan, hwakes, hchan, hon, hahead⟩

theorem Inv.look (hs : s.Inv) {pc : Pc}
    (hrun : (s.pool.pcb a).state = .running) (h : s.Looks a (s.pc a) pc) : (s.goto a pc).Inv := by
  have hids := hs.ids a
  generalize hold : s.pc a = old at h hids
  cases h with
  | @read chan word words =>
      refine hs.goto (fun t ht => ?_) fun t chan' _ hw hchan hon ht => ?_
      · rcases ht with ht | ht
        · exact hids t (.inr (by
            rw [(mem_slotsOf.mp ht).1]
            exact mem_cons_self))
        · exact hids t (.inr (mem_cons_of_mem _ ht))
      · rw [hold] at hw ht
        cases hw
        refine ⟨rfl, ?_⟩
        rcases ht with ht | ht
        · cases ht
        rcases mem_cons.mp ht with hword | ht
        · exact .inl (mem_slotsOf.mpr ⟨hword, hs.bit hon hchan⟩)
        · exact .inr ht
  | beyond hid =>
      exact absurd (hids _ (.inl mem_cons_self)) (Nat.not_lt.mpr hid)
  | @pass chan id ids words hid =>
      refine hs.goto (fun t ht => hids t ?_) fun t chan' _ hw _ hon ht => ?_
      · exact ht.imp_left (mem_cons_of_mem _)
      · rw [hold] at hw ht
        cases hw
        obtain ⟨hst, hchan⟩ := sleepsOn_iff.mp hon
        refine ⟨rfl, ht.imp_left fun ht => ?_⟩
        rcases mem_cons.mp ht with rfl | ht
        · rcases hid with rfl | hid
          · rw [hrun] at hst
            cases hst
          · exact absurd hchan hid
        · exact ht
  | pick =>
      refine hs.goto (fun t ht => hids t ?_) fun t chan' _ hw _ _ ht => ?_
      · rcases ht with rfl | ht | ht
        · exact .inl mem_cons_self
        · exact .inl (mem_cons_of_mem _ ht)
        · exact .inr ht
      · rw [hold] at hw ht
        cases hw
        refine ⟨rfl, ?_⟩
        rcases ht with ht | ht
        · exact (mem_cons.mp ht).imp_right .inl
        · exact .inr (.inr ht)
  | done =>
      refine hs.goto (fun t ht => ht.elim) fun t chan' _ _ _ _ ht => ?_
      rw [hold] at ht
      rcases ht with ht | ht <;> cases ht
  | other h h' =>
      refine hs.goto (fun t ht => ?_) fun t chan' _ hw _ _ _ => ?_
      · exact absurd ht (Pc.not_ahead h' t)
      · rw [hold, h] at hw
        cases hw

/-- A task that is not asleep, and not in a call of `wakeup` unless it stays
there, may change in any way that keeps its bits wired. -/
theorem Inv.own (hs : s.Inv) (hst : (s.pool.pcb a).state ≠ .sleeping)
    (hpcb : ∀ t, t ≠ a → s'.pool.pcb t = s.pool.pcb t) (hwired : ∀ t, s'.pool.Wired t)
    (hslot : (s'.pool.pcb a).state = .sleeping → a < numProcess)
    (hpc : s'.pc = s.pc ∨ (s.pc a).wakes = none ∧ ∃ pc, pc.wakes = none ∧ s'.pc = update s.pc a pc)
    (howed : s'.owed = s.owed) : s'.Inv := by
  refine ⟨hwired, fun t ht => ?_, fun b t => ?_, fun b t ho => ?_⟩
  · by_cases hta : t = a
    · subst hta
      exact hslot ht
    · rw [hpcb t hta] at ht
      exact hs.slot t ht
  · rcases hpc with hpc | ⟨_, pc, hw, hpc⟩ <;> rw [hpc]
    · exact hs.ids b t
    by_cases hb : b = a
    · subst hb
      rw [update_self]
      exact fun h => absurd h (Pc.not_ahead hw t)
    · rw [update_of_ne hb]
      exact hs.ids b t
  · rw [howed] at ho
    obtain ⟨chan, hwakes, hchan, hon, hahead⟩ := hs.owed b t ho
    have hta : t ≠ a := by
      rintro rfl
      exact hst (sleepsOn_iff.mp hon).1
    have hpcb' : s'.pc b = s.pc b := by
      rcases hpc with hpc | ⟨hold, pc, _, hpc⟩ <;> rw [hpc]
      refine update_of_ne ?_ ..
      rintro rfl
      rw [hold] at hwakes
      cases hwakes
    rw [hpcb']
    refine ⟨chan, hwakes, hchan, ?_, hahead⟩
    rw [sleepsOn_iff] at hon ⊢
    rwa [hpcb t hta]

theorem Inv.sleep (hs : s.Inv) {interrupted : Bool} (hpc : s.pc a = .idle)
    (hrun : (s.pool.pcb a).state = .running) (ha : a < numProcess) :
    (s.sleep a chan interrupted).Inv := by
  have hbase : Inv { s.goto a .asleep with
      pool := (s.pool.registerWaitChannel a chan).setState a .sleeping } := by
    refine hs.own (by rw [hrun]; exact nofun) (fun t ht => ?_) (fun t => ?_)
      (fun _ => ha) (.inr ⟨by rw [hpc]; rfl, .asleep, rfl, rfl⟩) rfl
    · rw [pcb_setState, if_neg ht]
      exact (register_of_ne s.pool chan ht).1
    · exact ((hs.wired t).register a chan).setState a _
  rw [WaitSystem.sleep]
  split
  · exact hbase.touched (touched_rouse _ a)
  · exact hbase

theorem Inv.run (hs : s.Inv) (h : (s.pool.pcb a).state = .runnable) : (s.run a).Inv := by
  have hst : (s.pool.pcb a).state ≠ .sleeping := by
    rw [h]
    exact nofun
  have hbase : Inv { s with pool := s.pool.setState a .running } := by
    refine hs.own hst (fun t ht => ?_) (fun t => (hs.wired t).setState a _)
      (fun hst => ?_) (.inl rfl) rfl
    · rw [pcb_setState, if_neg ht]
    · rw [pcb_setState, if_pos rfl] at hst
      cases hst
  rw [WaitSystem.run]
  split
  · next hpc =>
    have hst' : (({ s with pool := s.pool.setState a .running } :
        WaitSystem).pool.pcb a).state ≠ .sleeping := by
      rw [pcb_setState, if_pos rfl]
      exact nofun
    refine hbase.own hst' (fun t ht => pcb_unregister_of_ne _ ht)
      (fun t => (hbase.wired t).unregister a) (fun hsl => absurd ?_ hst')
      (.inr ⟨by rw [hpc]; rfl, .idle, rfl, rfl⟩) rfl
    rwa [show (((_ : WaitSystem).unregister a).goto a .idle).pool.pcb a = _ from
      pcb_unregister ..] at hsl
  · exact hbase

theorem Inv.wakeup (hs : s.Inv) (hpc : s.pc a = .idle) (hrun : (s.pool.pcb a).state = .running)
    (hchan : chan ≠ 0) :
    Inv { s.goto a (.waking chan [] (range slotWordCount)) with
          owed := update s.owed a fun t => s.sleepsOn t chan } := by
  refine ⟨hs.wired, hs.slot, fun b t => ?_, fun b t ho => ?_⟩
  · show (update s.pc a _ b).Ahead t → _
    by_cases hb : b = a
    · subst hb
      rw [update_self]
      rintro (h | h)
      · cases h
      · rw [mem_range, slotWordCount, numProcess] at h
        rw [numProcess]
        omega
    · rw [update_of_ne hb]
      exact hs.ids b t
  · change update s.owed a _ b t = true at ho
    show ∃ chan', (update s.pc a _ b).wakes = some chan' ∧ chan' ≠ 0 ∧
      s.sleepsOn t chan' = true ∧ (update s.pc a _ b).Ahead t
    by_cases hb : b = a
    · subst hb
      rw [update_self] at ho ⊢
      refine ⟨chan, rfl, hchan, ho, .inr ?_⟩
      have ht := hs.slot t (sleepsOn_iff.mp ho).1
      rw [numProcess] at ht
      rw [mem_range, slotWordCount, numProcess]
      omega
    · rw [update_of_ne hb] at ho ⊢
      exact hs.owed b t ho

theorem Inv.visit (hs : s.Inv) {ids words : List Nat} (hpc : s.pc a = .visiting chan id ids words) :
    ((s.visit chan id).goto a (.waking chan ids words)).Inv := by
  have htouched := touched_visit s chan id
  have hinv := hs.touched htouched
  have hpc' : (s.visit chan id).pc a = .visiting chan id ids words := by
    rw [htouched.pc, hpc]
  refine hinv.goto (fun t ht => hinv.ids a t ?_) fun t chan' ho hw _ _ ht => ?_
  · rw [hpc']
    exact .inr ht
  · rw [hpc'] at hw ht
    cases hw
    refine ⟨rfl, ht.resolve_left ?_⟩
    -- The candidate itself was made runnable if it slept on the channel.
    rintro rfl
    obtain ⟨chan', hw, _, hon, _⟩ := hs.owed a t (htouched.owed a t ho)
    rw [hpc] at hw
    cases hw
    rw [visit, if_pos hon, rouse] at ho
    simp at ho

theorem Inv.step (hs : s.Inv) (h : s.Steps e s') : s'.Inv := by
  have hidle : ∀ {s : WaitSystem} {a : Nat} {pc : Pc}, s.Inv →
      (s.pc a).wakes = none → pc.wakes = none → (s.goto a pc).Inv := by
    intro s a pc hs hpc hpc'
    refine hs.goto (fun t ht => absurd ht (Pc.not_ahead hpc' t)) ?_
    intro t chan _ hw
    rw [hpc] at hw
    cases hw
  cases h with
  | sleep hpc hrun ha => exact hs.sleep hpc hrun ha
  | run h => exact hs.run h
  | @yield a h =>
      refine hs.own (a := a) (by rw [h]; exact nofun) (fun t ht => ?_)
        (fun t => (hs.wired t).setState a _) (fun hst => ?_) (.inl rfl) rfl
      · rw [pcb_setState, if_neg ht]
      · rw [pcb_setState, if_pos rfl] at hst
        cases hst
  | wakeup hpc hrun hchan => exact hs.wakeup hpc hrun hchan
  | none => exact hs
  | look h hrun => exact hs.look hrun h
  | visit hpc => exact hs.visit hpc
  | @visitOne a id chan _ pc hpc hpc' =>
      have htouched := touched_visitOne s chan id
      exact hidle (hs.touched htouched) (by rw [htouched.pc]; exact hpc) hpc'
  | @cutShort a id how futex same hpc =>
      have htouched := touched_cutShort s id how futex same
      exact hidle (hs.touched htouched) (by rw [htouched.pc]; exact hpc) rfl
  | @resume _ id h => exact hs.touched (touched_rouse s id)

theorem Inv.paid (hs : s.Inv) (h : s.Steps e s') (howed : s.owed a t = true)
    (hpaid : s'.owed a t = false) : (s'.pool.pcb t).state = .runnable := by
  have hsame : s'.owed = s.owed → (s'.pool.pcb t).state = .runnable := by
    intro he
    rw [he, howed] at hpaid
    cases hpaid
  cases h with
  | @sleep a' chan interrupted hpc hrun ha =>
      cases interrupted with
      | false => exact hsame rfl
      | true => exact (touched_rouse _ a').paid a t howed hpaid
  | run h =>
      refine hsame ?_
      rw [WaitSystem.run]
      split <;> rfl
  | yield h => exact hsame rfl
  | @wakeup a' chan hpc hrun hchan =>
      change update s.owed a' _ a t = false at hpaid
      by_cases ha : a = a'
      · subst ha
        obtain ⟨_, hw, _⟩ := hs.owed a t howed
        rw [hpc] at hw
        cases hw
      · rw [update_of_ne ha, howed] at hpaid
        cases hpaid
  | none => exact hsame rfl
  | look h hrun => exact hsame rfl
  | visit hpc => exact (touched_visit s _ _).paid a t howed hpaid
  | visitOne hpc hpc' => exact (touched_visitOne s _ _).paid a t howed hpaid
  | cutShort hpc => exact (touched_cutShort s _ _ _ _).paid a t howed hpaid
  | resume h => exact (touched_rouse s _).paid a t howed hpaid

def left : Pc → Nat
  | .waking _ ids words => 2 * ids.length + 129 * words.length
  | .visiting _ _ ids words => 2 * ids.length + 1 + 129 * words.length
  | _ => 0

theorem length_slotsOf (bits : Nat → Bool) (word : Nat) : (slotsOf bits word).length ≤ 64 := by
  refine (length_filter_le ..).trans ?_
  rw [length_map, length_range]

theorem state_visit (chan : Word) (id : Nat) (hrun : (s.pool.pcb a).state = .running) :
    ((s.visit chan id).pool.pcb a).state = .running := by
  rw [visit]
  split
  · next hon =>
    have ha : a ≠ id := by
      rintro rfl
      rw [(sleepsOn_iff.mp hon).1] at hrun
      cases hrun
    rw [show (((s.unregister id).rouse id).pool.pcb a) = _ from
      pcb_setState .., if_neg ha]
    rw [show (s.unregister id).pool.pcb a = _ from
      pcb_unregister_of_ne _ ha]
    exact hrun
  split
  · by_cases ha : a = id
    · subst ha
      rw [show (s.unregister a).pool.pcb a = _ from pcb_unregister ..]
      exact hrun
    · rw [show (s.unregister id).pool.pcb a = _ from
        pcb_unregister_of_ne _ ha]
      exact hrun
  · exact hrun

theorem go_left (hrun : (s.pool.pcb a).state = .running) (hw : (s.pc a).wakes = some chan) :
    ∃ s', s.step addr (.go a true) = some s' ∧ (s'.pool.pcb a).state = .running ∧
      (s'.pc a = .idle ∨ (s'.pc a).wakes = some chan ∧ left (s'.pc a) < left (s.pc a)) := by
  have hgoto : ∀ (t : WaitSystem) pc, (t.goto a pc).pc a = pc :=
    fun t pc => update_self ..
  have hmove : ∀ pc, s.go addr a true = some (s.goto a pc) →
      (pc = .idle ∨ pc.wakes = some chan ∧ left pc < left (s.pc a)) →
      ∃ s', s.step addr (.go a true) = some s' ∧ (s'.pool.pcb a).state = .running ∧
        (s'.pc a = .idle ∨ (s'.pc a).wakes = some chan ∧ left (s'.pc a) < left (s.pc a)) := by
    intro pc hgo h
    refine ⟨s.goto a pc, by rw [step, if_pos hrun, hgo], hrun, ?_⟩
    rw [hgoto]
    exact h
  cases hpc : s.pc a with
  | waking chan' ids words =>
      rw [hpc] at hw hmove
      cases hw
      match ids, words with
      | [], [] => exact hmove .idle (by rw [go, hpc]) (.inl rfl)
      | [], word :: words =>
          refine hmove _ (by rw [go, hpc]) (.inr ⟨rfl, ?_⟩)
          have := length_slotsOf (s.pool.chanBits (bucketOf chan)) word
          simp only [left, length_cons]
          omega
      | id :: ids, words =>
          by_cases hid : numProcess ≤ id
          · refine hmove _ (by rw [go, hpc]; exact if_pos hid) (.inr ⟨rfl, ?_⟩)
            simp [left]
          by_cases hpass : id = a ∨ (s.pool.pcb id).chan ≠ chan
          · refine hmove _ (by
              rw [go, hpc]
              exact (if_neg hid).trans (if_pos hpass)) (.inr ⟨rfl, ?_⟩)
            simp [left]
          · refine hmove _ (by
              rw [go, hpc]
              exact (if_neg hid).trans (if_neg hpass)) (.inr ⟨rfl, ?_⟩)
            simp only [left, length_cons]
            omega
  | visiting chan' id ids words =>
      rw [hpc] at hw
      cases hw
      refine ⟨(s.visit chan id).goto a (.waking chan ids words), ?_,
        state_visit chan id hrun, .inr ?_⟩
      · rw [step, if_pos hrun, go, hpc]
      · rw [hgoto]
        refine ⟨rfl, ?_⟩
        simp only [left]
        omega
  | idle | asleep | wakingOne | children | childVisit | cutting =>
      rw [hpc] at hw
      cases hw

/-- Left to itself, a call of `wakeup` returns. -/
theorem wakeup_returns :
    ∀ {n : Nat} {s : WaitSystem}, left (s.pc a) < n →
      (s.pool.pcb a).state = .running → (s.pc a).wakes = some chan →
      ∃ k s', (replicate k (WaitEvent.go a true)).foldlM (step addr) s = some s' ∧ s'.pc a = .idle
  | 0, _, hlt, _, _ => absurd hlt (Nat.not_lt_zero _)
  | n + 1, s, hlt, hrun, hw => by
      obtain ⟨s₁, hstep, hrun₁, hend | ⟨hw₁, hless⟩⟩ :=
        @go_left a s chan addr hrun hw
      · refine ⟨1, s₁, ?_, hend⟩
        show (s.step addr (.go a true) >>= some) = some s₁
        rw [hstep]
        rfl
      · obtain ⟨k, s', hr, hidle⟩ := wakeup_returns (n := n)
          (Nat.lt_of_lt_of_le hless (Nat.le_of_lt_succ hlt)) hrun₁ hw₁
        refine ⟨k + 1, s', ?_, hidle⟩
        rw [replicate_succ, foldlM_cons, hstep]
        exact hr

/-- The index of the channels, and the wakeups through it. -/
structure Sound (s : WaitSystem) : Prop where
  one : ∀ t b b', s.pool.chanBits b t = true → s.pool.chanBits b' t = true → b = b'
  asleep : ∀ t, (s.pool.pcb t).state = .sleeping → (s.pool.pcb t).chan ≠ 0 →
    s.pool.chanBits (bucketOf (s.pool.pcb t).chan) t = true
  /-- Outside `wakeup` nobody is owed one. -/
  paid : ∀ a t, (s.pc a).wakes = none → s.owed a t = false

theorem Inv.sound (hs : s.Inv) : s.Sound := by
  refine ⟨fun t b b' h h' => ?_, fun t hst hchan => ?_, fun a t hpc => ?_⟩
  · have hw := hs.wired t
    exact ((hw.bits b).mp h).2.symm.trans ((hw.bits b').mp h').2
  · exact hs.bit (sleepsOn_iff.mpr ⟨hst, rfl⟩) hchan
  · refine Bool.eq_false_iff.mpr fun h => ?_
    obtain ⟨_, hw, _⟩ := hs.owed a t h
    rw [hpc] at hw
    cases hw

/-- A step of `wakeup` on one channel, and the sleepers of another. -/
theorem wakeup_spares {same : Bool} (hw : (s.pc a).wakes = some chan)
    (h : s.step addr (.go a same) = some s')
    (hst : (s.pool.pcb t).state = .sleeping) (hne : (s.pool.pcb t).chan ≠ chan) :
    s'.pool.pcb t = s.pool.pcb t ∧ ∀ b, s'.pool.chanBits b t = s.pool.chanBits b t := by
  cases steps_of_step h with
  | none => exact ⟨rfl, fun _ => rfl⟩
  | look h hrun => exact ⟨rfl, fun _ => rfl⟩
  | @visit _ id chan' ids words _ hpc =>
      rw [hpc] at hw
      cases hw
      by_cases ht : t = id
      · subst ht
        rw [visit, if_neg fun hon => hne (sleepsOn_iff.mp hon).2, if_neg fun hc => hne hc.2]
        exact ⟨rfl, fun _ => rfl⟩
      · have hunreg := pcb_unregister_of_ne s.pool ht
        have hbits := fun b => dropChanBit_of_ne s.pool ht b
        rw [visit]
        split
        · exact ⟨(pcb_setState ..).trans ((if_neg ht).trans hunreg), hbits⟩
        split
        · exact ⟨hunreg, hbits⟩
        · exact ⟨rfl, fun _ => rfl⟩
  | visitOne hpc | cutShort hpc =>
      rw [hpc] at hw
      cases hw
  | @resume _ id hstop =>
      have ht : t ≠ id := by
        rintro rfl
        rw [hstop] at hst
        cases hst
      exact ⟨(pcb_setState ..).trans (if_neg ht), fun _ => rfl⟩

end WaitSystem

/-- A pool in which nobody sleeps. -/
structure Pool.Awake (s : Pool) : Prop where
  state : ∀ t, (s.pcb t).state ≠ .sleeping
  chan : ∀ t, (s.pcb t).chan = 0
  registered : ∀ t, (s.pcb t).waitChannelRegistered = false
  bits : ∀ b t, s.chanBits b t = false

theorem WaitSystem.inv_init {pool : Pool} (h : pool.Awake) : (init pool).Inv := by
  refine ⟨fun t => ⟨fun b => ?_, ?_, ?_⟩, fun t hst => absurd hst (h.state t),
    fun _ _ ht => ht.elim, fun _ _ ho => nomatch ho⟩
  · show pool.chanBits b t = true ↔ (pool.pcb t).waitChannelRegistered = true ∧ _
    rw [h.bits, h.registered]
    simp
  · show (pool.pcb t).waitChannelRegistered = true ↔ (pool.pcb t).chan ≠ 0
    rw [h.registered, h.chan]
    simp
  · intro hreg
    have hno := h.registered t
    rw [show (pool.pcb t).waitChannelRegistered = true from hreg] at hno
    cases hno

/-- In every state that the tasks can reach the index is sound; from there, a
wakeup that is owed stops being owed only when its task is made runnable, a
call of `wakeup` leaves the sleepers of other channels alone, and it comes to
its end. -/
theorem wait_run_sound {addr : Nat → Word} {pool : Pool} (hpool : pool.Awake)
    {events : List WaitEvent} {s : WaitSystem}
    (hr : Run.Guarded (WaitSystem.step addr) (fun _ _ => True) (.init pool) events s) :
    s.Sound ∧ (∀ e s' a t, s.step addr e = some s' → s.owed a t = true →
        s'.owed a t = false → (s'.pool.pcb t).state = .runnable) ∧
      ∀ a chan, (s.pc a).wakes = some chan → (∀ same s' t, s.step addr (.go a same) = some s' →
          (s.pool.pcb t).state = .sleeping → (s.pool.pcb t).chan ≠ chan →
          s'.pool.pcb t = s.pool.pcb t ∧ ∀ b, s'.pool.chanBits b t = s.pool.chanBits b t) ∧
        ((s.pool.pcb a).state = .running → ∃ k s', (List.replicate k (WaitEvent.go a true)).foldlM
            (WaitSystem.step addr) s = some s' ∧ s'.pc a = .idle) := by
  have hinv : s.Inv := hr.inv (fun hs _ h => hs.step
    (steps_of_step h)) (inv_init hpool)
  refine ⟨hinv.sound, fun e s' a t h ho hp =>
    hinv.paid (steps_of_step h) ho hp, fun a chan hw => ⟨?_, ?_⟩⟩
  · exact fun same s' t h hst hne => wakeup_spares hw h hst hne
  · exact fun hrun => wakeup_returns (Nat.lt_succ_self _) hrun hw

def Pool.busy : Pool :=
  { pcb := fun id =>
      { state := .running, tgid := id, mm := 0, chan := 0,
        waitChannelRegistered := false, waitChannelBucket := 0, futexAddr := 0,
        futexKey := 0, futexPrivate := false, futexBucketIndex := 0,
        futexTimeoutDeadline := 0, futexWaitResult := 0 },
    chanBits := fun _ _ => false, futexBits := fun _ _ => false }

/-- A candidate is woken and sleeps on another channel of the same bucket
while a first call of `wakeup` has still to take its lock. -/
def staleCandidate : List WaitEvent :=
  [.sleep 3 8 false, .sleep 5 8 false, .wakeup 0 8, .go 0 true, .go 0 true,
    .wakeupOne 1 3 8, .go 1 true, .run 3, .sleep 3 0x1000000000008 false]

theorem wait_run_sound_stale : ∃ s,
    Run.Guarded (WaitSystem.step fun _ => 0) (fun _ _ => True) (.init .busy) staleCandidate s ∧
    s.pc 0 = .visiting 8 3 [5] [1, 2, 3, 4, 5, 6, 7] ∧ s.owed 0 5 = true ∧
    s.owed 0 3 = false ∧ s.Sound := by
  have hr : Run.Guarded (step fun _ => 0) (fun _ _ => True) (.init .busy) staleCandidate _ :=
    .of_foldlM rfl
  have hpool : busy.Awake :=
    ⟨fun _ => nofun, fun _ => rfl, fun _ => rfl, fun _ _ => rfl⟩
  exact ⟨_, hr, rfl, rfl, rfl, (wait_run_sound hpool hr).1⟩

end F7ly.Proc.Wait
