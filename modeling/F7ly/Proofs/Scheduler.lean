import F7ly.Lib.Run
import F7ly.Lib.Tally
import F7ly.Proc.Scheduler

/-!
# The scheduler keeps its accounts

The slots, the pressures and the count of special priorities are kept equal to what
the tasks say. Every call changes one task, and `Moved` says how the accounts have to
follow; all calls do so but one. A task that becomes runnable gets a home if it has
none, and its pressure is counted only if it was not schedulable before: a running task
without a home is never counted. Whether a runnable task can be run at all depends on
where its home is, and `Safe` is exactly what a call needs to leave it on a cpu that
may take it.

That every call is safe follows from how the kernel makes them. `start_secondaries`
waits until the possible cpus are online, or makes those that are not impossible, before
the first task is scheduled; only a pick makes a task RUNNING; and a home is set from
outside only while the task is being set up or taken down. Then a task in use has no home
or an allowed one (`Homed`), and every call keeps it so.
-/

namespace F7ly.Proc.Sched

open F7ly.Tally Scheduler Function

variable {cpus : Cpus} {n : Nat} {s s' s'' : Scheduler n} {g : Fin n}

def atHome (cpu : Nat) (t : Task) : Bool := t.state.schedulable ∧ t.lastCpu = cpu

def special (t : Task) : Bool := t.state.schedulable ∧ t.priority ≠ defaultProcPrio

def count (p : Task → Bool) (tasks : Fin n → Task) : Nat :=
  (List.finRange n).countP fun g => p (tasks g)

structure Books (cpus : Cpus) (s : Scheduler n) : Prop where
  slots : ∀ c g, c < cpus.numCpu → (s.runnableSlots c g = true ↔
    (s.tasks g).state = .runnable ∧ (s.tasks g).lastCpu = c)
  pressure : ∀ c, c < cpus.numCpu → s.pressure c = count (atHome c) s.tasks
  nonDefault : s.nonDefaultSchedulable = count special s.tasks

/-- A runnable task with an online cpu in its mask is in the slots of a cpu that may
run it. -/
def NotStranded (cpus : Cpus) (s : Scheduler n) (g : Fin n) : Prop :=
  (s.tasks g).state = .runnable → (s.tasks g).cpuMask &&& cpus.online ≠ 0 →
    ∃ c, s.runnableSlots c g = true ∧ canScheduleOnCpu cpus (s.tasks g) c = true

structure Good (cpus : Cpus) (s : Scheduler n) : Prop where
  books : Books cpus s
  notStranded : ∀ g, NotStranded cpus s g

/-- The same of a task alone: its home is online and in its mask. -/
def Allowed (cpus : Cpus) (t : Task) : Prop :=
  t.state = .runnable → t.cpuMask &&& cpus.online ≠ 0 → validHomeCpu cpus t.lastCpu = true ∧
      (t.cpuMask &&& cpus.online).testBit t.lastCpu.toNat = true

variable {cpu : Int} {c : Nat} {t : Task} {state : ProcState} {pressure : Nat → Nat}

theorem validHomeCpu_iff : validHomeCpu cpus cpu = true ↔ 0 ≤ cpu ∧ cpu < cpus.numCpu := by
  rw [validHomeCpu, decide_eq_true_iff]

theorem validHomeCpu_natCast : validHomeCpu cpus c = true ↔ c < cpus.numCpu := by
  rw [validHomeCpu_iff]
  omega

theorem ne_of_not_validHomeCpu (h : ¬validHomeCpu cpus cpu = true)
    (hc : c < cpus.numCpu) : cpu ≠ c := by
  intro heq
  subst heq
  exact h (validHomeCpu_natCast.mpr hc)

theorem canScheduleOnCpu_elim (h : canScheduleOnCpu cpus t c = true) :
    c < cpus.numCpu ∧ (t.cpuMask &&& cpus.online).testBit c = true := by
  rw [canScheduleOnCpu] at h
  split at h
  · cases h
  next hvalid =>
  split at h
  · cases h
  next hbit =>
  rw [not_or, not_not] at hvalid
  exact ⟨validHomeCpu_natCast.mp hvalid.1, not_not.mp hbit⟩

theorem canScheduleOnCpu_home (hhome : t.lastCpu = c)
    (hc : c < cpus.numCpu) (hbit : (t.cpuMask &&& cpus.online).testBit c = true) :
    canScheduleOnCpu cpus t c = true := by
  have hmask : t.cpuMask.testBit c = true := by
    rw [Nat.testBit_and, Bool.and_eq_true] at hbit
    exact hbit.1
  rw [canScheduleOnCpu]
  rw [if_neg (by simp [validHomeCpu_natCast.mpr hc, hmask]), if_neg (by simp [hbit])]
  split
  · rfl
  split
  · exact decide_eq_true hhome.symm
  · rfl

theorem Books.notStranded_iff (h : Books cpus s) (g : Fin n) :
    NotStranded cpus s g ↔ Allowed cpus (s.tasks g) := by
  constructor
  · intro hns hstate hmask
    obtain ⟨c, hslot, hcan⟩ := hns hstate hmask
    obtain ⟨hc, hbit⟩ := canScheduleOnCpu_elim hcan
    have hhome := ((h.slots c g hc).mp hslot).2
    rw [hhome]
    exact ⟨validHomeCpu_natCast.mpr hc, hbit⟩
  · intro hallowed hstate hmask
    obtain ⟨hvalid, hbit⟩ := hallowed hstate hmask
    obtain ⟨hnonneg, hlt⟩ := validHomeCpu_iff.mp hvalid
    have hhome : (s.tasks g).lastCpu = ((s.tasks g).lastCpu.toNat : Int) := by omega
    have hc : (s.tasks g).lastCpu.toNat < cpus.numCpu := by omega
    exact ⟨_, (h.slots _ g hc).mpr ⟨hstate, hhome⟩, canScheduleOnCpu_home hhome hc hbit⟩

theorem count_update (p : Task → Bool) (tasks : Fin n → Task) (g : Fin n) (t : Task) :
    count p (update tasks g t) + (p (tasks g)).toNat = count p tasks + (p t).toNat := by
  have h := countP_change (p := fun h => p (tasks h))
    (q := fun h => p (update tasks g t h)) (List.nodup_finRange n)
    (List.mem_finRange g) fun j _ hj => by rw [update_of_ne hj]
  rw [update_self] at h
  exact h

/-- Task `g` is now `t`, and the accounts have followed. -/
structure Moved (cpus : Cpus) (s s' : Scheduler n) (g : Fin n) (t : Task) : Prop where
  tasks : s'.tasks = update s.tasks g t
  slots : ∀ c h, c < cpus.numCpu → s'.runnableSlots c h =
    if h = g then decide (t.state = .runnable ∧ t.lastCpu = c) else s.runnableSlots c h
  pressure : ∀ c, c < cpus.numCpu →
    s'.pressure c + (atHome c (s.tasks g)).toNat = s.pressure c + (atHome c t).toNat
  nonDefault : s'.nonDefaultSchedulable + (special (s.tasks g)).toNat =
    s.nonDefaultSchedulable + (special t).toNat

theorem Moved.refl (h : Books cpus s) (g : Fin n) : Moved cpus s s g (s.tasks g) := by
  refine ⟨(update_eq_self g s.tasks).symm, fun c h' hc => ?_, fun c _ => rfl, rfl⟩
  split
  · next heq =>
      subst heq
      rw [Bool.eq_iff_iff, decide_eq_true_iff]
      exact h.slots c h' hc
  · rfl

theorem Moved.trans {t' : Task} (h : Moved cpus s s' g t) (h' : Moved cpus s' s'' g t') :
    Moved cpus s s'' g t' := by
  have hself : s'.tasks g = t := by rw [h.tasks, update_self]
  refine ⟨?_, fun c k hc => ?_, fun c hc => ?_, ?_⟩
  · rw [h'.tasks, h.tasks, update_idem]
  · rw [h'.slots c k hc]
    split
    · rfl
    · next hne => rw [h.slots c k hc, if_neg hne]
  · have h₁ := h.pressure c hc
    have h₂ := h'.pressure c hc
    rw [hself] at h₂
    omega
  · have h₁ := h.nonDefault
    have h₂ := h'.nonDefault
    rw [hself] at h₂
    omega

theorem Books.moved (h : Books cpus s) (hm : Moved cpus s s' g t) : Books cpus s' := by
  refine ⟨fun c k hc => ?_, fun c hc => ?_, ?_⟩
  · rw [hm.slots c k hc, hm.tasks]
    split
    · next heq => rw [heq, update_self, decide_eq_true_iff]
    · next hne =>
        rw [update_of_ne hne]
        exact h.slots c k hc
  · have hcount := count_update (atHome c) s.tasks g t
    have hpressure := hm.pressure c hc
    have hbooks := h.pressure c hc
    rw [hm.tasks]
    omega
  · have hcount := count_update special s.tasks g t
    have hnon := hm.nonDefault
    have hbooks := h.nonDefault
    rw [hm.tasks]
    omega

theorem Good.moved_iff (h : Good cpus s) (hm : Moved cpus s s' g t) :
    Good cpus s' ↔ Allowed cpus t := by
  have hbooks := h.books.moved hm
  have hself : s'.tasks g = t := by rw [hm.tasks, update_self]
  constructor
  · intro hgood
    rw [← hself]
    exact (hbooks.notStranded_iff g).mp (hgood.notStranded g)
  · intro hallowed
    refine ⟨hbooks, fun k => (hbooks.notStranded_iff k).mpr ?_⟩
    by_cases hk : k = g
    · rw [hk, hself]
      exact hallowed
    · have hsame : s'.tasks k = s.tasks k := by rw [hm.tasks, update_of_ne hk]
      rw [hsame]
      exact (h.books.notStranded_iff k).mp (h.notStranded k)

namespace Scheduler

variable (cpus) (s) (g)

theorem setSlot_eq (cpu : Int) (bit : Bool) :
    ∃ r, s.setSlot cpus cpu g bit = { s with runnableSlots := r } ∧ ∀ c h, c < cpus.numCpu →
        r c h = if (c : Int) = cpu ∧ h = g then bit else s.runnableSlots c h := by
  rw [setSlot]
  split
  · exact ⟨_, rfl, fun _ _ _ => rfl⟩
  · next hvalid =>
      refine ⟨s.runnableSlots, rfl, fun c h hc => ?_⟩
      rw [if_neg fun hand => ne_of_not_validHomeCpu hvalid hc hand.1.symm]

theorem addPressure_eq (cpu : Int) :
    ∃ p, s.addPressure cpus cpu = { s with pressure := p } ∧
      ∀ c, c < cpus.numCpu → p c = s.pressure c + (decide (cpu = c)).toNat := by
  rw [addPressure]
  split
  · next hvalid =>
      obtain ⟨hnonneg, _⟩ := validHomeCpu_iff.mp hvalid
      refine ⟨_, rfl, fun c _ => ?_⟩
      by_cases hcpu : cpu = c
      · subst hcpu
        simp
      · have hne : c ≠ cpu.toNat := by omega
        simp [update_of_ne hne, hcpu]
  · next hvalid =>
      refine ⟨s.pressure, rfl, fun c hc => ?_⟩
      simp [ne_of_not_validHomeCpu hvalid hc]

theorem subPressure_eq (cpu : Int) (hpos : ∀ c, c < cpus.numCpu → cpu = c → 0 < s.pressure c) :
    ∃ p, s.subPressure cpus cpu = some { s with pressure := p } ∧
      ∀ c, c < cpus.numCpu → p c + (decide (cpu = c)).toNat = s.pressure c := by
  rw [subPressure]
  split
  · next hvalid =>
      obtain ⟨hnonneg, hlt⟩ := validHomeCpu_iff.mp hvalid
      have hcount := hpos cpu.toNat (by omega) (by omega)
      rw [if_neg hcount.ne']
      refine ⟨_, rfl, fun c _ => ?_⟩
      by_cases hcpu : cpu = c
      · subst hcpu
        rw [Int.toNat_natCast] at hcount ⊢
        simp
        omega
      · have hne : c ≠ cpu.toNat := by omega
        simp [update_of_ne hne, hcpu]
  · next hvalid =>
      refine ⟨s.pressure, rfl, fun c hc => ?_⟩
      simp [ne_of_not_validHomeCpu hvalid hc]

theorem transferPressure_eq (cpu : Int) (old new : Bool)
    (hpos : old = true → new = false → ∀ c, c < cpus.numCpu → cpu = c → 0 < s.pressure c) :
    ∃ p, s.transferPressure cpus cpu old new = some { s with pressure := p } ∧
      ∀ c, c < cpus.numCpu → p c + (old && decide (cpu = c)).toNat =
        s.pressure c + (new && decide (cpu = c)).toNat := by
  rw [transferPressure]
  split
  · next heq =>
      subst heq
      exact ⟨s.pressure, rfl, fun _ _ => rfl⟩
  next hne =>
  cases old with
  | true =>
      have hnew : new = false := by simpa using Ne.symm hne
      obtain ⟨p, hp, hval⟩ := s.subPressure_eq cpus cpu (hpos rfl hnew)
      refine ⟨p, hp, fun c hc => ?_⟩
      simpa [hnew] using hval c hc
  | false =>
      obtain ⟨p, hp, hval⟩ := s.addPressure_eq cpus cpu
      have hnew : new = true := by simpa using Ne.symm hne
      refine ⟨p, congrArg some hp, fun c hc => ?_⟩
      simpa [hnew] using hval c hc

theorem transferNonDefault_eq (old new : Bool) (hpos : old = true → 0 < s.nonDefaultSchedulable) :
    ∃ k, s.transferNonDefault old new = some { s with nonDefaultSchedulable := k } ∧
      k + old.toNat = s.nonDefaultSchedulable + new.toNat := by
  rw [transferNonDefault]
  split
  · next heq => exact ⟨s.nonDefaultSchedulable, rfl, by rw [heq]⟩
  next hne =>
  cases old with
  | true =>
      have hnew : new = false := by simpa using Ne.symm hne
      have hcount := hpos rfl
      rw [if_pos rfl, if_neg hcount.ne']
      refine ⟨_, rfl, ?_⟩
      rw [hnew, Bool.toNat_true, Bool.toNat_false]
      omega
  | false =>
      have hnew : new = true := by simpa using Ne.symm hne
      exact ⟨_, rfl, by rw [hnew]; rfl⟩

end Scheduler

theorem Books.pressure_pos (h : Books cpus s) (hc : c < cpus.numCpu)
    (hhome : atHome c (s.tasks g) = true) : 0 < s.pressure c := by
  rw [h.pressure c hc, count, List.countP_pos_iff]
  exact ⟨g, List.mem_finRange g, hhome⟩

theorem Books.nonDefault_pos (h : Books cpus s) (hspecial : special (s.tasks g) = true) :
    0 < s.nonDefaultSchedulable := by
  rw [h.nonDefault, count, List.countP_pos_iff]
  exact ⟨g, List.mem_finRange g, hspecial⟩

theorem Books.cleared (h : Books cpus s) (g : Fin n) :
    ∃ r, (if (s.tasks g).state = .runnable then s.setSlot cpus (s.tasks g).lastCpu g false
        else s) = { s with runnableSlots := r } ∧
      ∀ c k, c < cpus.numCpu → r c k = if k = g then false else s.runnableSlots c k := by
  split
  · next hrun =>
      obtain ⟨r, hr, hval⟩ := s.setSlot_eq cpus g (s.tasks g).lastCpu false
      refine ⟨r, hr, fun c k hc => ?_⟩
      rw [hval c k hc]
      by_cases hk : k = g
      · subst hk
        rw [if_pos rfl]
        split
        · rfl
        · next hne =>
            rw [Bool.eq_false_iff, ne_eq, h.slots c k hc]
            exact fun hslot => hne ⟨hslot.2.symm, rfl⟩
      · rw [if_neg fun hand => hk hand.2, if_neg hk]
  next hrun =>
  refine ⟨s.runnableSlots, rfl, fun c k hc => ?_⟩
  split
  · next hk =>
      rw [Bool.eq_false_iff, ne_eq, h.slots c k hc, hk]
      exact fun hslot => hrun hslot.1
  · rfl

theorem marked (cpus : Cpus) (s : Scheduler n) (g : Fin n) (runnable : Prop)
    [Decidable runnable] (cpu : Int) :
    ∃ r, (if runnable then s.setSlot cpus cpu g true else s) = { s with runnableSlots := r } ∧
      ∀ c k, c < cpus.numCpu → r c k =
        if k = g ∧ runnable ∧ cpu = c then true else s.runnableSlots c k := by
  split
  · next hrun =>
      obtain ⟨r, hr, hval⟩ := s.setSlot_eq cpus g cpu true
      refine ⟨r, hr, fun c k hc => ?_⟩
      rw [hval c k hc]
      refine if_congr ?_ rfl rfl
      exact ⟨fun hand => ⟨hand.2, hrun, hand.1.symm⟩, fun hand => ⟨hand.2.2.symm, hand.1⟩⟩
  · next hrun =>
      refine ⟨s.runnableSlots, rfl, fun c k _ => ?_⟩
      rw [if_neg fun hand => hrun hand.2.1]

/-- What the slots say after a call that takes a task out of its old slot and puts it
into its new one. -/
theorem slots_moved {r r' : Nat → Fin n → Bool} {runnable : Prop} [Decidable runnable] {k : Fin n}
    (hr : r c k = if k = g then false else s.runnableSlots c k)
    (hr' : r' c k = if k = g ∧ runnable ∧ cpu = c then true else r c k) :
    r' c k = if k = g then decide (runnable ∧ cpu = c) else s.runnableSlots c k := by
  rw [hr', hr]
  by_cases hk : k = g
  · by_cases hand : runnable ∧ cpu = c
    · simp [hk]
    · simp [hk]
  · simp [hk]

theorem homeFor_slots (s : Scheduler n) (r : Nat → Fin n → Bool) (t : Task) (state : ProcState) :
    { s with runnableSlots := r }.homeFor cpus t state = s.homeFor cpus t state := rfl

theorem specialTransfer_eq (s : Scheduler n) (priority : Int) (old new : Bool)
    (hpos : old = true → priority ≠ defaultProcPrio → 0 < s.nonDefaultSchedulable) :
    ∃ k, (if priority ≠ defaultProcPrio then s.transferNonDefault old new else some s) =
        some { s with nonDefaultSchedulable := k } ∧
      k + (old && decide (priority ≠ defaultProcPrio)).toNat =
        s.nonDefaultSchedulable + (new && decide (priority ≠ defaultProcPrio)).toNat := by
  split
  · next hp =>
      obtain ⟨k, hk, hval⟩ := s.transferNonDefault_eq old new fun h => hpos h hp
      refine ⟨k, hk, ?_⟩
      rw [decide_eq_true hp, Bool.and_true, Bool.and_true]
      exact hval
  · next hp =>
      refine ⟨s.nonDefaultSchedulable, rfl, ?_⟩
      rw [decide_eq_false hp, Bool.and_false, Bool.and_false]

theorem atHome_eq (c : Nat) (t : Task) :
    atHome c t = (t.state.schedulable && decide (t.lastCpu = c)) := by
  rw [atHome, Bool.decide_and, Bool.decide_eq_true]

theorem special_eq (t : Task) :
    special t = (t.state.schedulable && decide (t.priority ≠ defaultProcPrio)) := by
  rw [special, Bool.decide_and, Bool.decide_eq_true]

/-- What `set_task_state` does. The pressure follows at the new home only. -/
theorem setTaskState_spec (h : Books cpus s) (hne : (s.tasks g).state ≠ state)
    (hpos : (s.tasks g).state.schedulable = true → state.schedulable = false →
      ∀ c, c < cpus.numCpu → (s.homeFor cpus (s.tasks g) state).1 = c → 0 < s.pressure c) :
    ∃ s', s.setTaskState cpus g state = some s' ∧
      s'.tasks = update s.tasks g { s.tasks g with
        state := state, lastCpu := (s.homeFor cpus (s.tasks g) state).1 } ∧
      (∀ c k, c < cpus.numCpu → s'.runnableSlots c k =
        if k = g then decide (state = .runnable ∧ (s.homeFor cpus (s.tasks g) state).1 = c)
        else s.runnableSlots c k) ∧
      (∀ c, c < cpus.numCpu → s'.pressure c + ((s.tasks g).state.schedulable &&
          decide ((s.homeFor cpus (s.tasks g) state).1 = c)).toNat =
        s.pressure c + (state.schedulable &&
          decide ((s.homeFor cpus (s.tasks g) state).1 = c)).toNat) ∧
      s'.nonDefaultSchedulable + (special (s.tasks g)).toNat = s.nonDefaultSchedulable +
        (special { s.tasks g with state := state }).toNat := by
  obtain ⟨r, hr, hslots⟩ := h.cleared g
  rw [setTaskState, if_neg hne, hr]
  dsimp only
  rw [homeFor_slots]
  generalize s.homeFor cpus (s.tasks g) state = home at hpos ⊢
  obtain ⟨p, hp, hpressure⟩ := transferPressure_eq cpus
    { s with runnableSlots := r, nextInitialCpu := home.2 } home.1
    (s.tasks g).state.schedulable state.schedulable hpos
  rw [hp, Option.bind_eq_bind, Option.bind_some]
  obtain ⟨k, hk, hnon⟩ := specialTransfer_eq
    { s with runnableSlots := r, nextInitialCpu := home.2, pressure := p }
    (s.tasks g).priority (s.tasks g).state.schedulable state.schedulable
    fun hs hprio => h.nonDefault_pos (by rw [special_eq, hs, decide_eq_true hprio]; rfl)
  rw [hk, Option.bind_some]
  obtain ⟨r', hr', hslots'⟩ := marked cpus
    (setTask { s with
      runnableSlots := r, nextInitialCpu := home.2, pressure := p, nonDefaultSchedulable := k }
      g { s.tasks g with state := state, lastCpu := home.1 }) g (state = .runnable) home.1
  refine ⟨_, congrArg some hr', rfl, ?_, hpressure, ?_⟩
  · exact fun c k hc => slots_moved (hslots c k hc) (hslots' c k hc)
  · rw [special_eq, special_eq]
    exact hnon

theorem setTaskState_moved (h : Books cpus s) (hne : (s.tasks g).state ≠ state)
    (hcounted : (s.tasks g).state.schedulable = true → ∀ c, c < cpus.numCpu →
      ((s.homeFor cpus (s.tasks g) state).1 = c ↔ (s.tasks g).lastCpu = c)) :
    ∃ s', s.setTaskState cpus g state = some s' ∧
      Moved cpus s s' g { s.tasks g with
        state := state, lastCpu := (s.homeFor cpus (s.tasks g) state).1 } := by
  have hold : ∀ c, c < cpus.numCpu → ((s.tasks g).state.schedulable &&
      decide ((s.homeFor cpus (s.tasks g) state).1 = c)) = atHome c (s.tasks g) := by
    intro c hc
    rw [atHome_eq]
    cases hs : (s.tasks g).state.schedulable with
    | false => rfl
    | true => rw [decide_eq_decide.mpr (hcounted hs c hc)]
  obtain ⟨s', hs', htasks, hslots, hpressure, hnon⟩ := setTaskState_spec h hne
    fun hs _ c hc hhome => h.pressure_pos hc (by rw [← hold c hc, hs, decide_eq_true hhome]; rfl)
  refine ⟨s', hs', htasks, hslots, fun c hc => ?_, hnon⟩
  rw [← hold c hc, atHome_eq]
  exact hpressure c hc

theorem setTaskPriority_moved (h : Books cpus s) (g : Fin n) (priority : Int) :
    ∃ s', s.setTaskPriority g priority = some s' ∧
      Moved cpus s s' g { s.tasks g with priority := priority } := by
  have hself := Moved.refl h g
  rw [setTaskPriority]
  split
  · next heq => exact ⟨s, rfl, heq ▸ hself⟩
  obtain ⟨k, hk, hnon⟩ : ∃ k, (if (s.tasks g).state.schedulable = true then
      s.transferNonDefault ((s.tasks g).priority ≠ defaultProcPrio)
        (priority ≠ defaultProcPrio)
      else some s) = some { s with nonDefaultSchedulable := k } ∧
      k + (special (s.tasks g)).toNat = s.nonDefaultSchedulable +
        (special { s.tasks g with priority := priority }).toNat := by
    rw [special_eq, special_eq]
    split
    · next hs =>
        rw [hs, Bool.true_and, Bool.true_and]
        refine s.transferNonDefault_eq _ _ fun hprio => h.nonDefault_pos (g := g) ?_
        rw [special_eq, hs, hprio]
        rfl
    next hs =>
    rw [Bool.eq_false_iff.mpr hs]
    exact ⟨s.nonDefaultSchedulable, rfl, rfl⟩
  rw [hk, Option.bind_eq_bind, Option.bind_some]
  exact ⟨_, rfl, rfl, hself.slots, hself.pressure, hnon⟩

theorem setTaskHomeCpu_moved (h : Books cpus s) (g : Fin n) (cpu : Int) :
    ∃ s', s.setTaskHomeCpu cpus g cpu = some s' ∧
      Moved cpus s s' g { s.tasks g with lastCpu := cpu } := by
  have hself := Moved.refl h g
  rw [setTaskHomeCpu]
  dsimp only
  split
  · next heq => exact ⟨s, rfl, heq ▸ hself⟩
  obtain ⟨r, hr, hslots⟩ := h.cleared g
  rw [hr]
  obtain ⟨p, hp, hpressure⟩ : ∃ p, (if (s.tasks g).state.schedulable = true then
      (({ s with runnableSlots := r }).subPressure cpus (s.tasks g).lastCpu).map
        (fun s : Scheduler n => s.addPressure cpus cpu)
      else some { s with runnableSlots := r }) = some { s with runnableSlots := r, pressure := p } ∧
      ∀ c, c < cpus.numCpu → p c + (atHome c (s.tasks g)).toNat = s.pressure c +
        (atHome c { s.tasks g with lastCpu := cpu }).toNat := by
    split
    · next hs =>
        obtain ⟨p, hp, hsub⟩ := { s with runnableSlots := r }.subPressure_eq cpus
          (s.tasks g).lastCpu fun c hc hhome =>
            h.pressure_pos hc (g := g) (by rw [atHome_eq, hs, decide_eq_true hhome]; rfl)
        obtain ⟨p', hp', hadd⟩ := { s with runnableSlots := r, pressure := p }.addPressure_eq
          cpus cpu
        rw [hp, Option.map_some, hp']
        refine ⟨p', rfl, fun c hc => ?_⟩
        rw [atHome_eq, atHome_eq, hs, Bool.true_and, Bool.true_and]
        have h₁ : p c + _ = s.pressure c := hsub c hc
        have h₂ : p' c = p c + _ := hadd c hc
        dsimp only
        omega
    next hs =>
    refine ⟨s.pressure, rfl, fun c _ => ?_⟩
    rw [atHome_eq, atHome_eq]
    rw [Bool.eq_false_iff.mpr hs]
    rfl
  rw [hp, Option.bind_eq_bind, Option.bind_some]
  obtain ⟨r', hr', hslots'⟩ := marked cpus
    (setTask { s with runnableSlots := r, pressure := p } g
      { s.tasks g with lastCpu := cpu }) g ((s.tasks g).state = .runnable) cpu
  refine ⟨_, congrArg some hr', rfl, ?_, hpressure, ?_⟩
  · exact fun c k hc => slots_moved (hslots c k hc) (hslots' c k hc)
  · rfl

theorem eligibleMask_lt (cpus : Cpus) (mask : Nat) : eligibleMask cpus mask < 2 ^ cpus.numCpu := by
  have honline : cpus.online ≤ cpus.possible := by
    rw [← cpus.online_possible]
    exact Nat.and_le_right
  rw [eligibleMask]
  split
  · exact Nat.lt_of_le_of_lt Nat.and_le_right cpus.possible_lt
  · exact Nat.lt_of_le_of_lt (Nat.and_le_right.trans honline) cpus.possible_lt

theorem eligible_lt {mask : Nat} (h : (eligibleMask cpus mask).testBit c = true) :
    c < cpus.numCpu := by
  by_contra hge
  have hle : 2 ^ cpus.numCpu ≤ 2 ^ c := Nat.pow_le_pow_right (by decide) (by omega)
  have hlt := Nat.lt_of_lt_of_le (eligibleMask_lt cpus mask) hle
  rw [Nat.testBit_lt_two_pow hlt] at h
  cases h

theorem lowestCpu_testBit {eligible i : Nat} (hi : eligible.testBit i = true) :
    ∀ {n cpu}, cpu ≤ i → i < cpu + n → eligible.testBit (lowestCpu eligible n cpu) = true := by
  intro n
  induction n with
  | zero => omega
  | succ n ih =>
      intro cpu hle hlt
      rw [lowestCpu]
      split
      · next hbit => exact hbit
      · next hbit =>
          have hne : cpu ≠ i := fun heq => hbit (heq ▸ hi)
          exact ih (by omega) (by omega)

theorem considerCpu_testBit {eligible : Nat} (first : Nat) (numCpu : Nat) {offsets : List Nat} :
    ∀ {best : Nat × Nat}, eligible.testBit best.1 = true →
      eligible.testBit (offsets.foldl (fun best offset =>
        considerCpu eligible pressure best ((first + offset) % numCpu)) best).1 = true := by
  induction offsets with
  | nil => exact fun h => h
  | cons offset offsets ih =>
      intro best h
      rw [List.foldl_cons]
      refine ih ?_
      unfold considerCpu
      split
      · exact h
      next hbit =>
      split
      · exact not_not.mp hbit
      · exact h

theorem selectInitialCpu_eligible (pressure : Nat → Nat) (next parent : Int) {mask : Nat}
    (h : eligibleMask cpus mask ≠ 0) :
    ∃ c : Nat, (selectInitialCpu cpus pressure next mask parent).1 = c ∧
      (eligibleMask cpus mask).testBit c = true := by
  rw [selectInitialCpu, if_neg h]
  refine ⟨_, rfl, considerCpu_testBit _ _ ?_⟩
  split
  · next hnext => exact (decide_eq_true_iff.mp hnext).2
  split
  · next hparent => exact (decide_eq_true_iff.mp hparent).2
  · obtain ⟨i, hi⟩ := Nat.exists_testBit_of_ne_zero h
    exact lowestCpu_testBit hi (Nat.zero_le i) (by rw [Nat.zero_add]; exact eligible_lt hi)

theorem selectInitialCpu_none {next parent : Int} {mask : Nat} (h : eligibleMask cpus mask = 0) :
    (selectInitialCpu cpus pressure next mask parent).1 = parent := by
  rw [selectInitialCpu, if_pos h]

theorem allowed_selected {next parent : Int}
    (hhome : t.lastCpu = (selectInitialCpu cpus pressure next t.cpuMask parent).1) :
    Allowed cpus t := by
  intro _ hmask
  have heligible : eligibleMask cpus t.cpuMask = t.cpuMask &&& cpus.online := if_neg hmask
  obtain ⟨c, hc, hbit⟩ := selectInitialCpu_eligible pressure next parent (heligible ▸ hmask)
  rw [hhome, hc, ← heligible]
  exact ⟨validHomeCpu_natCast.mpr (eligible_lt hbit), hbit⟩

/-- What a call needs, in the state before it. A running task that has no home keeps
out of the count when it becomes runnable; a runnable task needs a home that is online
and in its mask, where the call does not choose one. -/
def Safe (cpus : Cpus) (s : Scheduler n) : Op n → Prop
  | .setTaskState g state =>
      ((s.tasks g).state = .running → state = .runnable → ¬validHomeCpu cpus (s.tasks g).lastCpu →
          eligibleMask cpus (s.tasks g).cpuMask = 0) ∧
      (validHomeCpu cpus (s.tasks g).lastCpu → Allowed cpus { s.tasks g with state := state })
  | .setTaskPriority _ _ => True
  | .setTaskHomeCpu g cpu => Allowed cpus { s.tasks g with lastCpu := cpu }
  | .setAffinity g requested =>
      requested &&& cpus.possible ≠ 0 → 0 ≤ (s.tasks g).lastCpu →
        (requested &&& cpus.possible).testBit (s.tasks g).lastCpu.toNat →
          Allowed cpus { s.tasks g with cpuMask := requested &&& cpus.possible }
  | .pick _ _ => True

instance (t : Task) : Decidable (Allowed cpus t) := by
  unfold Allowed
  infer_instance

instance (s : Scheduler n) : DecidablePred (Safe cpus s) := by
  intro op
  cases op <;> unfold Safe <;> infer_instance

theorem homeFor_valid (h : state = .runnable → validHomeCpu cpus t.lastCpu = true) :
    (s.homeFor cpus t state).1 = t.lastCpu := by
  rw [homeFor, if_neg fun hand => hand.2 (h hand.1)]

theorem homeFor_invalid (h : ¬validHomeCpu cpus t.lastCpu = true) :
    s.homeFor cpus t .runnable =
      selectInitialCpu cpus s.pressure s.nextInitialCpu t.cpuMask (-1) := by
  rw [homeFor, if_pos ⟨rfl, h⟩]

/-- A schedulable task that takes another state stays counted where it was, if it is
not a running one without a home. -/
theorem homeFor_counted (hne : t.state ≠ state)
    (h : t.state = .running → state = .runnable → ¬validHomeCpu cpus t.lastCpu →
      eligibleMask cpus t.cpuMask = 0) (hs : t.state.schedulable = true) (hc : c < cpus.numCpu) :
    (s.homeFor cpus t state).1 = c ↔ t.lastCpu = c := by
  by_cases hhome : state = .runnable → validHomeCpu cpus t.lastCpu = true
  · rw [homeFor_valid hhome]
  · rw [Classical.not_imp] at hhome
    obtain ⟨rfl, hvalid⟩ := hhome
    have hrunning : t.state = .running := by
      simp only [ProcState.schedulable, decide_eq_true_iff] at hs
      exact hs.resolve_left hne
    rw [homeFor_invalid hvalid, selectInitialCpu_none (h hrunning rfl hvalid)]
    constructor
    · omega
    · exact fun heq => absurd heq (ne_of_not_validHomeCpu hvalid hc)

theorem setTaskState_uncounted (h : Books cpus s) (hstate : (s.tasks g).state = .running)
    (hvalid : ¬validHomeCpu cpus (s.tasks g).lastCpu)
    (heligible : eligibleMask cpus (s.tasks g).cpuMask ≠ 0) :
    ∃ s', s.setTaskState cpus g .runnable = some s' ∧ ¬Books cpus s' := by
  obtain ⟨s', hs', htasks, -, hpressure, -⟩ := setTaskState_spec h
    (show (s.tasks g).state ≠ .runnable by rw [hstate]; decide) (fun _ hs => by cases hs)
  refine ⟨s', hs', fun h' => ?_⟩
  obtain ⟨c, hc, hbit⟩ := selectInitialCpu_eligible s.pressure s.nextInitialCpu (-1) heligible
  rw [homeFor_invalid hvalid, hc] at htasks hpressure
  have hlt := eligible_lt hbit
  have hsame := hpressure c hlt
  have hcount := count_update (atHome c) s.tasks g
    { s.tasks g with state := .runnable, lastCpu := c }
  have hbefore : atHome c (s.tasks g) = false := by
    rw [atHome_eq, decide_eq_false (ne_of_not_validHomeCpu hvalid hlt), Bool.and_false]
  have hafter : atHome c { s.tasks g with state := .runnable, lastCpu := c } = true := by
    rw [atHome_eq, decide_eq_true rfl]
    rfl
  rw [h'.pressure c hlt, h.pressure c hlt, htasks, hstate] at hsame
  rw [hbefore, hafter, Nat.add_right_cancel hsame, Bool.toNat_false, Bool.toNat_true] at hcount
  omega

theorem allowed_homeFor_iff :
    Allowed cpus { t with state := state, lastCpu := (s.homeFor cpus t state).1 } ↔
      (validHomeCpu cpus t.lastCpu → Allowed cpus { t with state := state }) := by
  by_cases hvalid : validHomeCpu cpus t.lastCpu = true
  · rw [homeFor_valid fun _ => hvalid]
    exact ⟨fun h _ => h, fun h => h hvalid⟩
  · refine iff_of_true ?_ fun h => absurd h hvalid
    by_cases hrun : state = .runnable
    · subst hrun
      rw [homeFor_invalid hvalid]
      exact allowed_selected rfl
    · exact fun h => absurd h hrun

theorem Good.setTaskState_iff (h : Good cpus s) (g : Fin n) (state : ProcState) :
    (∃ s', s.setTaskState cpus g state = some s' ∧ Good cpus s') ↔
      Safe cpus s (.setTaskState g state) := by
  by_cases hne : (s.tasks g).state = state
  · subst hne
    have hallowed := (h.books.notStranded_iff g).mp (h.notStranded g)
    refine iff_of_true ⟨s, ?_, h⟩ ⟨fun hrunning hrunnable => ?_, fun _ => hallowed⟩
    · rw [setTaskState, if_pos rfl]
      rfl
    · rw [hrunning] at hrunnable
      cases hrunnable
  by_cases hcounted : (s.tasks g).state = .running → state = .runnable →
      ¬validHomeCpu cpus (s.tasks g).lastCpu → eligibleMask cpus (s.tasks g).cpuMask = 0
  · obtain ⟨s', hs', hm⟩ := setTaskState_moved h.books hne fun hs c hc =>
      homeFor_counted hne hcounted hs hc
    rw [hs']
    constructor
    · rintro ⟨_, ⟨⟩, hgood⟩
      exact ⟨hcounted, allowed_homeFor_iff.mp ((h.moved_iff hm).mp hgood)⟩
    · exact fun hsafe => ⟨s', rfl, (h.moved_iff hm).mpr (allowed_homeFor_iff.mpr hsafe.2)⟩
  · refine iff_of_false ?_ fun hsafe => hcounted hsafe.1
    simp only [Classical.not_imp] at hcounted
    obtain ⟨hrunning, rfl, hvalid, heligible⟩ := hcounted
    obtain ⟨s', hs', hbooks⟩ := setTaskState_uncounted h.books hrunning hvalid heligible
    rw [hs']
    rintro ⟨_, ⟨⟩, hgood⟩
    exact hbooks hgood.books

/-- A call that always moves the task in the same way is safe as far as the new task
is. -/
theorem Good.moved_exists_iff {r : Option (Scheduler n)} (h : Good cpus s)
    (hm : ∃ s', r = some s' ∧ Moved cpus s s' g t) :
    (∃ s', r = some s' ∧ Good cpus s') ↔ Allowed cpus t := by
  obtain ⟨s', rfl, hm⟩ := hm
  rw [← h.moved_iff hm]
  constructor
  · rintro ⟨_, ⟨⟩, hgood⟩
    exact hgood
  · exact fun hgood => ⟨s', rfl, hgood⟩

theorem setMask_moved (h : Books cpus s) (g : Fin n) (mask : Nat) :
    Moved cpus s (s.setTask g { s.tasks g with cpuMask := mask }) g
      { s.tasks g with cpuMask := mask } := by
  have hself := Moved.refl h g
  exact ⟨rfl, hself.slots, fun c _ => rfl, rfl⟩

theorem Books.setNext (h : Books cpus s) (next : Int) :
    Books cpus { s with nextInitialCpu := next } := ⟨h.slots, h.pressure, h.nonDefault⟩

theorem Moved.setNext (h : Moved cpus s s' g t) (next : Int) :
    Moved cpus s { s' with nextInitialCpu := next } g t :=
  ⟨h.tasks, h.slots, h.pressure, h.nonDefault⟩

/-- The home of a task after its mask was set: the old one if the mask has it. -/
def affinityHome (cpus : Cpus) (s : Scheduler n) (t : Task) (mask : Nat) : Int :=
  if t.lastCpu < 0 ∨ ¬mask.testBit t.lastCpu.toNat then
    (selectInitialCpu cpus s.pressure s.nextInitialCpu mask (-1)).1
  else t.lastCpu

theorem setAffinity_moved (h : Books cpus s) (g : Fin n) {requested : Nat}
    (hmask : requested &&& cpus.possible ≠ 0) :
    ∃ s', s.setAffinity cpus g requested = some s' ∧
      Moved cpus s s' g { s.tasks g with
        cpuMask := requested &&& cpus.possible
        lastCpu := affinityHome cpus s (s.tasks g) (requested &&& cpus.possible) } := by
  rw [setAffinity, if_neg hmask, affinityHome]
  generalize requested &&& cpus.possible = mask
  have hm := setMask_moved h g mask
  dsimp only
  split
  · have hbooks := (h.moved hm).setNext
      (selectInitialCpu cpus s.pressure s.nextInitialCpu mask (-1)).2
    obtain ⟨s', hs', hm'⟩ := setTaskHomeCpu_moved hbooks g
      (selectInitialCpu cpus s.pressure s.nextInitialCpu mask (-1)).1
    have htask : (s.setTask g { s.tasks g with cpuMask := mask }).tasks g =
        { s.tasks g with cpuMask := mask } := update_self ..
    rw [htask] at hm'
    exact ⟨s', hs', (hm.setNext _).trans hm'⟩
  · exact ⟨_, rfl, hm⟩

theorem Good.setAffinity_iff (h : Good cpus s) (g : Fin n) (requested : Nat) :
    (∃ s', s.setAffinity cpus g requested = some s' ∧ Good cpus s') ↔
      Safe cpus s (.setAffinity g requested) := by
  by_cases hzero : requested &&& cpus.possible = 0
  · refine iff_of_true ⟨s, ?_, h⟩ fun hne => absurd hzero hne
    rw [setAffinity, if_pos hzero]
  rw [h.moved_exists_iff (setAffinity_moved h.books g hzero), affinityHome]
  split
  · next haway =>
      refine iff_of_true (allowed_selected rfl) fun _ hnonneg hbit => ?_
      exact absurd hbit (haway.resolve_left (by omega))
  next hkept =>
  rw [not_or, not_not, Int.not_lt] at hkept
  exact ⟨fun hallowed _ _ _ => hallowed, fun hsafe => hsafe hzero hkept.1 hkept.2⟩

theorem pick_moved (h : Books cpus s) (cpu : Nat) (g : Fin n) :
    s.pick cpus cpu g = some s ∨
      canScheduleOnCpu cpus (s.tasks g) cpu = true ∧ ∃ s', s.pick cpus cpu g = some s' ∧
        Moved cpus s s' g { s.tasks g with state := .running, lastCpu := cpu } := by
  rw [Scheduler.pick]
  split
  · next hrun =>
      obtain ⟨s₁, hs₁, hm₁⟩ := setTaskHomeCpu_moved h g cpu
      have htask : s₁.tasks g = { s.tasks g with lastCpu := (cpu : Int) } := by
        rw [hm₁.tasks, update_self]
      have hne : (s₁.tasks g).state ≠ .running := by
        rw [htask, hrun.1]
        decide
      obtain ⟨s₂, hs₂, hm₂⟩ := setTaskState_moved (h.moved hm₁) hne fun _ c _ =>
        Iff.of_eq (congrArg (· = (c : Int)) (homeFor_valid (nomatch ·)))
      have hhome : (s₁.homeFor cpus (s₁.tasks g) .running).1 = cpu :=
        (homeFor_valid fun h => by cases h).trans (by rw [htask])
      rw [hhome, htask] at hm₂
      exact .inr ⟨hrun.2, s₂, by rw [hs₁]; exact hs₂, hm₁.trans hm₂⟩
  · exact .inl rfl

theorem Good.pick (h : Good cpus s) (cpu : Nat) (g : Fin n) :
    ∃ s', s.pick cpus cpu g = some s' ∧ Good cpus s' := by
  rcases pick_moved h.books cpu g with hsame | ⟨-, s', hs', hm⟩
  · exact ⟨s, hsame, h⟩
  · refine ⟨s', hs', (h.moved_iff hm).mpr fun hrunnable => ?_⟩
    cases hrunnable

theorem Good.step_iff (h : Good cpus s) (op : Op n) :
    (∃ s', s.step cpus op = some s' ∧ Good cpus s') ↔ Safe cpus s op := by
  cases op with
  | setTaskState g state => exact h.setTaskState_iff g state
  | setTaskPriority g priority =>
      refine (h.moved_exists_iff (setTaskPriority_moved h.books g priority)).trans ?_
      exact iff_of_true ((h.books.notStranded_iff g).mp (h.notStranded g)) trivial
  | setTaskHomeCpu g cpu => exact h.moved_exists_iff (setTaskHomeCpu_moved h.books g cpu)
  | setAffinity g requested => exact h.setAffinity_iff g requested
  | pick cpu g => exact iff_of_true (h.pick cpu g) trivial

theorem good_boot {tasks : Fin n → Task} (hidle : ∀ g, (tasks g).state.schedulable = false) :
    Good cpus (boot tasks) := by
  have hnotRunnable : ∀ g, (tasks g).state ≠ .runnable := by
    intro g hrun
    have := hidle g
    rw [hrun] at this
    cases this
  refine ⟨⟨fun c g _ => ?_, fun c _ => ?_, ?_⟩, fun g hrun => absurd hrun (hnotRunnable g)⟩
  · exact iff_of_false Bool.false_ne_true fun hrun => hnotRunnable g hrun.1
  · refine (List.countP_eq_zero.mpr fun g _ => ?_).symm
    rw [atHome_eq, boot, hidle g]
    exact Bool.false_ne_true
  · refine (List.countP_eq_zero.mpr fun g _ => ?_).symm
    rw [special_eq, boot, hidle g]
    exact Bool.false_ne_true

/-- UNUSED or USED: the task is not set up yet, or not any more. -/
def ProcState.fresh (state : ProcState) : Bool := state = .unused ∨ state = .used

/-- The home of the task, if it has one, is an online cpu of its mask. -/
def Placed (cpus : Cpus) (t : Task) : Prop :=
  validHomeCpu cpus t.lastCpu = true → (t.cpuMask &&& cpus.online).testBit t.lastCpu.toNat = true

/-- How the kernel makes the calls. Only a pick sets RUNNING; a new task is placed before
it leaves USED; and outside of `sched_setaffinity` and the picks a home is set only in
`alloc_proc`, `freeproc` and `fork`, for a task that is not in use. -/
def Called (cpus : Cpus) (s : Scheduler n) : Op n → Prop
  | .setTaskState g state =>
      state ≠ .running ∧
        ((s.tasks g).state.fresh = true → state.fresh = false → Placed cpus (s.tasks g))
  | .setTaskHomeCpu g _ => (s.tasks g).state.fresh = true
  | .setTaskPriority _ _ | .setAffinity _ _ | .pick _ _ => True

instance (t : Task) : Decidable (Placed cpus t) := inferInstanceAs (Decidable (_ → _))

instance (s : Scheduler n) : DecidablePred (Called cpus s)
  | .setTaskState _ _ => inferInstanceAs (Decidable (_ ∧ _))
  | .setTaskHomeCpu _ _ => inferInstanceAs (Decidable (_ = _))
  | .setTaskPriority _ _ | .setAffinity _ _ | .pick _ _ => inferInstanceAs (Decidable True)

/-- What calls of this kind keep of every task in use. -/
structure Homed (cpus : Cpus) (t : Task) : Prop where
  placed : t.state.fresh = false → Placed cpus t
  running : t.state = .running → validHomeCpu cpus t.lastCpu = true

theorem full_mask (hfull : cpus.online = cpus.possible) (requested : Nat) :
    requested &&& cpus.possible &&& cpus.online = requested &&& cpus.possible := by
  rw [hfull, Nat.and_assoc, Nat.and_self]

theorem Called.safe {op : Op n} (hfull : cpus.online = cpus.possible)
    (hhomed : ∀ g, Homed cpus (s.tasks g)) (h : Called cpus s op) : Safe cpus s op := by
  cases op with
  | setTaskState g state =>
      refine ⟨fun hrunning _ hvalid => absurd ((hhomed g).running hrunning) hvalid,
        fun hvalid hrun _ => ⟨hvalid, ?_⟩⟩
      cases hfresh : (s.tasks g).state.fresh with
      | false => exact (hhomed g).placed hfresh hvalid
      | true => exact h.2 hfresh (by rw [show state = .runnable from hrun]; rfl) hvalid
  | setTaskPriority g priority => trivial
  | setTaskHomeCpu g cpu =>
      intro hrun
      rw [Called, show (s.tasks g).state = .runnable from hrun] at h
      cases h
  | setAffinity g requested =>
      intro _ hnonneg hbit _ _
      have hlt : (s.tasks g).lastCpu.toNat < cpus.numCpu := by
        by_contra hge
        have hle : 2 ^ cpus.numCpu ≤ 2 ^ (s.tasks g).lastCpu.toNat :=
          Nat.pow_le_pow_right (by decide) (by omega)
        rw [Nat.testBit_and, Nat.testBit_lt_two_pow (cpus.possible_lt.trans_le hle),
          Bool.and_false] at hbit
        cases hbit
      refine ⟨validHomeCpu_iff.mpr ⟨hnonneg, by dsimp only; omega⟩, ?_⟩
      rw [full_mask hfull]
      exact hbit
  | pick cpu g => trivial

theorem eligibleMask_full (hfull : cpus.online = cpus.possible) (mask : Nat) :
    eligibleMask cpus mask = mask &&& cpus.online := by
  rw [eligibleMask, ← hfull, ite_self]

theorem placed_selected {next : Int} (hfull : cpus.online = cpus.possible)
    (hhome : t.lastCpu = (selectInitialCpu cpus pressure next t.cpuMask (-1)).1) :
    Placed cpus t := by
  intro hvalid
  by_cases hzero : eligibleMask cpus t.cpuMask = 0
  · rw [hhome, selectInitialCpu_none hzero, validHomeCpu_iff] at hvalid
    omega
  · obtain ⟨c, hc, hbit⟩ := selectInitialCpu_eligible pressure next (-1) hzero
    rw [hhome, hc, ← eligibleMask_full hfull]
    exact hbit

theorem homed_moved (hm : Moved cpus s s' g t) (hhomed : ∀ k, Homed cpus (s.tasks k))
    (ht : Homed cpus t) (k : Fin n) : Homed cpus (s'.tasks k) := by
  rw [hm.tasks]
  by_cases hk : k = g
  · rwa [hk, update_self]
  · rw [update_of_ne hk]
    exact hhomed k

theorem Homed.step {op : Op n} (hfull : cpus.online = cpus.possible) (h : Books cpus s)
    (hhomed : ∀ g, Homed cpus (s.tasks g)) (hcalled : Called cpus s op)
    (hs : s.step cpus op = some s') : ∀ g, Homed cpus (s'.tasks g) := by
  have hsafe := hcalled.safe hfull hhomed
  cases op with
  | setTaskState g state =>
      by_cases hne : (s.tasks g).state = state
      · rw [Scheduler.step, setTaskState, if_pos hne] at hs
        cases hs
        exact hhomed
      obtain ⟨s'', hs'', hm⟩ := setTaskState_moved h hne fun hs c hc =>
        homeFor_counted hne hsafe.1 hs hc
      cases hs.symm.trans hs''
      refine homed_moved hm hhomed ⟨fun hfresh => ?_, fun hrun => absurd hrun hcalled.1⟩
      by_cases hhome : state = .runnable → validHomeCpu cpus (s.tasks g).lastCpu = true
      · rw [homeFor_valid hhome]
        cases hold : (s.tasks g).state.fresh with
        | false => exact (hhomed g).placed hold
        | true => exact hcalled.2 hold hfresh
      · rw [Classical.not_imp] at hhome
        obtain ⟨rfl, hvalid⟩ := hhome
        rw [homeFor_invalid hvalid]
        exact placed_selected hfull rfl
  | setTaskPriority g priority =>
      obtain ⟨s'', hs'', hm⟩ := setTaskPriority_moved h g priority
      cases hs.symm.trans hs''
      exact homed_moved hm hhomed ⟨(hhomed g).placed, (hhomed g).running⟩
  | setTaskHomeCpu g cpu =>
      obtain ⟨s'', hs'', hm⟩ := setTaskHomeCpu_moved h g cpu
      cases hs.symm.trans hs''
      refine homed_moved hm hhomed ⟨fun hfresh => ?_, fun hrun => ?_⟩
      · rw [Called, show (s.tasks g).state.fresh = false from hfresh] at hcalled
        cases hcalled
      · rw [Called, show (s.tasks g).state = .running from hrun] at hcalled
        cases hcalled
  | setAffinity g requested =>
      by_cases hzero : requested &&& cpus.possible = 0
      · rw [Scheduler.step, setAffinity, if_pos hzero] at hs
        cases hs
        exact hhomed
      obtain ⟨s'', hs'', hm⟩ := setAffinity_moved h g hzero
      cases hs.symm.trans hs''
      refine homed_moved hm hhomed ⟨fun _ => ?_, fun hrun => ?_⟩
      · rw [affinityHome]
        split
        · exact placed_selected hfull rfl
        · next hkept =>
            rw [not_or, not_not] at hkept
            intro _
            rw [full_mask hfull]
            exact hkept.2
      · dsimp only [affinityHome]
        split
        · have heligible : eligibleMask cpus (requested &&& cpus.possible) ≠ 0 := by
            rwa [eligibleMask_full hfull, full_mask hfull]
          obtain ⟨c, hc, hbit⟩ :=
            selectInitialCpu_eligible s.pressure s.nextInitialCpu (-1) heligible
          rw [hc]
          exact validHomeCpu_natCast.mpr (eligible_lt hbit)
        · exact (hhomed g).running hrun
  | pick cpu g =>
      rcases pick_moved h cpu g with hsame | ⟨hcan, s'', hs'', hm⟩
      · cases hs.symm.trans hsame
        exact hhomed
      · cases hs.symm.trans hs''
        obtain ⟨hlt, hbit⟩ := canScheduleOnCpu_elim hcan
        exact homed_moved hm hhomed ⟨fun _ _ => hbit, fun _ => validHomeCpu_natCast.mpr hlt⟩

/-- Where every possible cpu is online, the accounts are exact and no task is stranded in
every run of calls as the kernel makes them, and the next such call trips no assertion. -/
theorem scheduler_accounts_exact (hfull : cpus.online = cpus.possible) {tasks : Fin n → Task}
    (hidle : ∀ g, (tasks g).state = .unused) {ops : List (Op n)}
    (hrun : Run.Guarded (Scheduler.step cpus) (Called cpus) (.boot tasks) ops s) :
    Good cpus s ∧ ∀ op, Called cpus s op → ∃ s', s.step cpus op = some s' ∧ Good cpus s' := by
  have hboot : Good cpus (boot tasks) ∧ ∀ g, Homed cpus ((boot tasks).tasks g) := by
    refine ⟨good_boot fun g => by rw [hidle g]; rfl, fun g => ⟨fun h => ?_, fun h => ?_⟩⟩
    · rw [boot, hidle g] at h
      cases h
    · rw [boot, hidle g] at h
      cases h
  have hstep : ∀ {s s' : Scheduler n} {op : Op n},
      Good cpus s ∧ (∀ g, Homed cpus (s.tasks g)) → Called cpus s op →
        s.step cpus op = some s' → Good cpus s' ∧ ∀ g, Homed cpus (s'.tasks g) := by
    rintro s s' op ⟨hgood, hhomed⟩ hcalled hs
    obtain ⟨s'', hs'', hgood'⟩ := (hgood.step_iff op).mpr (hcalled.safe hfull hhomed)
    cases hs.symm.trans hs''
    exact ⟨hgood', Homed.step hfull hgood.books hhomed hcalled hs⟩
  obtain ⟨hgood, hhomed⟩ := hrun.inv hstep hboot
  exact ⟨hgood, fun op hcalled => (hgood.step_iff op).mpr (hcalled.safe hfull hhomed)⟩

def bothOnline : Cpus :=
  { numCpu := 2, possible := 3, online := 3, possible_lt := by decide,
    online_possible := by decide }

def unusedTask : Fin 1 → Task :=
  fun _ => { state := .unused, priority := 0, cpuMask := 3, lastCpu := 0 }

/-- A task is set up, bound to cpu 1 and picked there; it sleeps, is let go and wakes. -/
def bindOps : List (Op 1) :=
  [.setTaskState 0 .used, .setTaskHomeCpu 0 (-1), .setTaskState 0 .runnable, .setAffinity 0 2,
    .pick 1 0, .setTaskPriority 0 5, .setTaskState 0 .sleeping, .setAffinity 0 3,
    .setTaskState 0 .runnable]

theorem scheduler_accounts_exact_bind : ∃ s,
    Run.Guarded (Scheduler.step bothOnline) (Called bothOnline) (.boot unusedTask) bindOps s ∧
      s.pressure 1 = 1 ∧ s.nonDefaultSchedulable = 1 ∧ Good bothOnline s := by
  have hrun : Run.Guarded (Scheduler.step bothOnline) (Called bothOnline) (.boot unusedTask)
      bindOps _ :=
    .of_foldlM rfl
  exact ⟨_, hrun, rfl, rfl, (scheduler_accounts_exact rfl (fun _ => rfl) hrun).1⟩

/-- A runnable task is given a home outside of its mask: its bit is on a cpu that may not
take it. -/
theorem setTaskHomeCpu_strands : ∃ s,
    Run.Guarded (Scheduler.step bothOnline) (fun _ _ => True) (.boot unusedTask)
      [.setAffinity 0 1, .setTaskState 0 .runnable, .setTaskHomeCpu 0 1] s ∧
      (s.tasks 0).state = .runnable ∧ (s.tasks 0).cpuMask &&& bothOnline.online ≠ 0 ∧
      ¬∃ c, s.runnableSlots c 0 = true ∧ canScheduleOnCpu bothOnline (s.tasks 0) c = true := by
  refine ⟨_, .of_foldlM (C := fun _ _ => True) rfl, rfl, by decide, ?_⟩
  rintro ⟨c, hslot, hcan⟩
  obtain ⟨hc, hbit⟩ := canScheduleOnCpu_elim hcan
  obtain rfl | rfl : c = 0 ∨ c = 1 := by
    change c < 2 at hc
    omega
  · cases hslot
  · cases hbit

end F7ly.Proc.Sched
