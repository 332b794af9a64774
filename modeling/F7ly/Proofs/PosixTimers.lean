import F7ly.Lib.Tally
import F7ly.Proc.PosixTimers

/-!
# When timers fire

`check_expired_timers` reads the monotonic clock and the boot clock of the task that the
interrupt came upon. A timer on one of these does not depend on that task exactly if all
tasks that may run have the same offset for the clock: with two offsets there is a timer
that the one task makes fire and the other does not.

A periodic timer that has expired is armed for the first of its times to come. The code
finds it by a division, and not by adding the interval again and again.
-/

namespace F7ly.Tm

theorem nsToTimespec_spec (ns : Int) :
    (nsToTimespec ns).sec * nsecPerSec + (nsToTimespec ns).nsec = ns ∧
      0 ≤ (nsToTimespec ns).nsec ∧ (nsToTimespec ns).nsec < nsecPerSec := by
  have hdiv := Int.mul_tdiv_add_tmod ns nsecPerSec
  have hlo : -(nsecPerSec : Int) < ns.tmod nsecPerSec := Int.lt_tmod_of_pos _ (by decide)
  have hhi : ns.tmod nsecPerSec < nsecPerSec := Int.tmod_lt_of_pos _ (by decide)
  rw [nsToTimespec]
  unfold nsecPerSec at *
  split
  · dsimp only
    omega
  · dsimp only
    omega

theorem nsToTimespec_lessOrEqual (a b : Int) :
    (nsToTimespec a).lessOrEqual (nsToTimespec b) = true ↔ a ≤ b := by
  obtain ⟨ha, ha0, ha1⟩ := nsToTimespec_spec a
  obtain ⟨hb, hb0, hb1⟩ := nsToTimespec_spec b
  rw [Timespec.lessOrEqual, decide_eq_true_eq]
  unfold nsecPerSec at *
  omega

def Timespec.ns (a : Timespec) : Int := a.sec * nsecPerSec + a.nsec

def Timespec.Normalized (a : Timespec) : Prop := 0 ≤ a.nsec ∧ a.nsec < nsecPerSec

instance (a : Timespec) : Decidable a.Normalized := inferInstanceAs (Decidable (_ ∧ _))

end F7ly.Tm

namespace F7ly.Proc

open Tm

variable {p : PosixTimers} {t : PosixTimer} {m : Counter} {cpuTime : Nat → Option Timespec}
  {c c' : Option TimeNamespaceOffsets} {i : Nat}

/-- What the scan does to one timer: whether it fires, and when it expires next. -/
def PosixTimers.outcome (p : PosixTimers) (m : Counter) (cpuTime : Nat → Option Timespec)
    (current : Option TimeNamespaceOffsets) (i : Nat) : Option Bool × Option Timespec :=
  let checked := p.checkExpiredTimers m cpuTime current
  (checked.2[i]?, checked.1.timers[i]?.map PosixTimer.expiryTime)

theorem readClock_congr (h : timeNamespaceOffset t.clockid c = timeNamespaceOffset t.clockid c') :
    t.readClock m cpuTime c = t.readClock m cpuTime c' := by
  simp [PosixTimer.readClock, clockGettime, h]

theorem readClock_shifted (hne : timeNamespaceOffset t.clockid c ≠ timeNamespaceOffset t.clockid c')
    (d : Option TimeNamespaceOffsets) : t.readClock m cpuTime d =
      some (nsToTimespec (m.cyclesToNs + timeNamespaceOffset t.clockid d)) := by
  unfold PosixTimer.readClock clockGettime
  generalize t.clockid = clockid at hne ⊢
  cases clockid
  case monotonic | monotonicRaw | monotonicCoarse | boottime | boottimeAlarm => rfl
  all_goals cases c <;> cases c' <;> exact absurd rfl hne

theorem outcome_congr (hi : p.timers[i]? = some t)
    (h : t.readClock m cpuTime c = t.readClock m cpuTime c') :
    p.outcome m cpuTime c i = p.outcome m cpuTime c' i := by
  rw [PosixTimers.outcome, PosixTimers.outcome, PosixTimers.checkExpiredTimers,
    PosixTimers.checkExpiredTimers]
  split
  · rfl
  · simp [hi, h]

/-- A table with one timer, which is armed for a time of the clock and does not repeat. -/
def oneShot (clockid : SystemClockId) (ns : Int) : PosixTimers where
  initialized := true
  armedCount := 1
  timers := [⟨true, true, clockid, 0, 0, ⟨0, 0⟩, nsToTimespec ns⟩]

/-- Five seconds after the boot. -/
def fiveSeconds : Counter := ⟨⟨10000000, by decide, by decide⟩, 50000000, 0⟩

theorem oneShot_fires {clockid : SystemClockId} {ns : Int}
    (hne : timeNamespaceOffset clockid c ≠ timeNamespaceOffset clockid c')
    (d : Option TimeNamespaceOffsets) : ((oneShot clockid ns).outcome m cpuTime d 0).1 =
      some (decide (ns ≤ m.cyclesToNs + timeNamespaceOffset clockid d)) := by
  have hread : PosixTimer.readClock ⟨true, true, clockid, 0, 0, ⟨0, 0⟩, nsToTimespec ns⟩ m
      cpuTime d = some (nsToTimespec (m.cyclesToNs + timeNamespaceOffset clockid d)) :=
    readClock_shifted hne d
  have hle := nsToTimespec_lessOrEqual ns (m.cyclesToNs + timeNamespaceOffset clockid d)
  simp only [PosixTimers.outcome, PosixTimers.checkExpiredTimers, oneShot, List.map_cons,
    hread, PosixTimer.check]
  by_cases h : ns ≤ m.cyclesToNs + timeNamespaceOffset clockid d
  · simp [h, hle.mpr h]
  · simp [h, mt hle.mp h]

/-- What the scan does to the timers of a clock depends on the task that runs exactly if
two of the tasks have different offsets for it. -/
theorem outcome_independent_iff (tasks : Set (Option TimeNamespaceOffsets))
    (clockid : SystemClockId) :
    (∀ (m : Counter) (cpuTime : Nat → Option Timespec) (p : PosixTimers) (i : Nat)
        (t : PosixTimer), p.timers[i]? = some t → t.clockid = clockid →
        ∀ c ∈ tasks, ∀ c' ∈ tasks, p.outcome m cpuTime c i = p.outcome m cpuTime c' i) ↔
      ∀ c ∈ tasks, ∀ c' ∈ tasks,
        timeNamespaceOffset clockid c = timeNamespaceOffset clockid c' := by
  constructor
  · intro h c hc c' hc'
    by_contra hne
    -- armed for the later of the two times, the timer fires for one task only
    have hsame := fun ns => congrArg Prod.fst
      (h fiveSeconds (fun _ => none) (oneShot clockid ns) 0 _ rfl rfl c hc c' hc')
    simp only [oneShot_fires hne, Option.some.injEq, decide_eq_decide] at hsame
    have h1 := hsame (fiveSeconds.cyclesToNs + timeNamespaceOffset clockid c)
    have h2 := hsame (fiveSeconds.cyclesToNs + timeNamespaceOffset clockid c')
    omega
  · intro h m cpuTime p i t hi hclock c hc c' hc'
    exact outcome_congr hi (readClock_congr (hclock ▸ h c hc c' hc'))

/-- At one hardware time a timer fires while its owner runs, and not while a task of
another time namespace does. -/
theorem timer_fires_for_owner_only :
    (oneShot .monotonic 5000000005).outcome fiveSeconds (fun _ => none) (some ⟨5, 0⟩) 0 =
        (some true, some ⟨5, 5⟩) ∧
      (oneShot .monotonic 5000000005).outcome fiveSeconds (fun _ => none) (some ⟨0, 0⟩) 0 =
        (some false, some ⟨5, 5⟩) := by
  decide

section Period

variable {a b now : Timespec}

theorem timespecDeltaNs_eq (ha : a.Normalized) (hb : b.Normalized) (hle : b.lessOrEqual a = true)
    (hlt : a.ns - b.ns < uint64Max) : timespecDeltaNs a b = a.ns - b.ns := by
  have hlex : b.sec < a.sec ∨ b.sec = a.sec ∧ b.nsec ≤ a.nsec := by
    simpa [Timespec.lessOrEqual] using hle
  unfold Timespec.Normalized Timespec.ns at *
  rw [timespecDeltaNs, if_neg (by simpa using hle)]
  unfold uint64Max nsecPerSec at *
  dsimp only
  split_ifs <;> omega

theorem timespecIntervalNs_eq (ha : a.Normalized) (hpos : 0 < a.ns) (hlt : a.ns < uint64Max) :
    timespecIntervalNs a = a.ns := by
  unfold Timespec.Normalized Timespec.ns at *
  rw [timespecIntervalNs]
  unfold uint64Max nsecPerSec at *
  split_ifs <;> omega

theorem timespecAddNs_spec (ha : a.Normalized) (n : Nat) :
    (timespecAddNs a n).Normalized ∧ (timespecAddNs a n).ns = a.ns + n := by
  unfold Timespec.Normalized Timespec.ns at *
  rw [timespecAddNs]
  unfold nsecPerSec at *
  split_ifs <;> simp only <;> omega

/-- `next` is the first of the times `old + k * interval`, `k ≥ 1`, that is later than `now`. -/
def FirstAfter (old interval now next : Int) (k : Nat) : Prop :=
  1 ≤ k ∧ next = old + k * interval ∧ now < next ∧
    ∀ j : Nat, 1 ≤ j → now < old + j * interval → k ≤ j

/-- What is left of the interval under way, added to the time, is a whole number of intervals. -/
theorem firstAfter_of_mod {old now : Int} {elapsed interval : Nat} (hpos : 0 < interval)
    (helapsed : elapsed = now - old) :
    FirstAfter old interval now (now + (interval - elapsed % interval : Nat))
      (elapsed / interval + 1) := by
  have hdiv := Nat.div_add_mod elapsed interval
  have hlt := Nat.mod_lt elapsed hpos
  refine ⟨Nat.succ_pos _, ?_, by omega, fun j _ hj => ?_⟩
  · rw [← Nat.cast_mul, Nat.add_mul, Nat.mul_comm]
    omega
  · exact (Nat.div_lt_iff_lt_mul hpos).mpr (by omega)

/-- A periodic timer that has expired is armed for the first of its times to come, and notes
how many it has passed. -/
theorem expire_spec (hdue : t.expiryTime.lessOrEqual now = true)
    (hexpiry : t.expiryTime.Normalized) (hinterval : t.interval.Normalized)
    (hnow : now.Normalized) (hpos : 0 < t.interval.ns) (hint : t.interval.ns < uint64Max)
    (helapsed : now.ns - t.expiryTime.ns < uint64Max) :
    ∃ k, FirstAfter t.expiryTime.ns t.interval.ns now.ns (t.expire now).expiryTime.ns k ∧
      (t.expire now).expiryTime.Normalized ∧ (t.expire now).overrun = min (k - 1) intMax := by
  have hI := timespecIntervalNs_eq hinterval hpos hint
  have hD := timespecDeltaNs_eq hnow hexpiry hdue helapsed
  obtain ⟨hnorm, hns⟩ := timespecAddNs_spec hnow
    (timespecIntervalNs t.interval -
      timespecDeltaNs now t.expiryTime % timespecIntervalNs t.interval)
  have hsome : t.interval.sec > 0 ∨ t.interval.nsec > 0 := by
    unfold Timespec.Normalized Timespec.ns nsecPerSec at *
    omega
  have hne : timespecIntervalNs t.interval ≠ 0 := by omega
  rw [PosixTimer.expire, if_pos hsome]
  dsimp only
  rw [if_neg hne, if_neg hne, hns, ← hI]
  refine ⟨_, firstAfter_of_mod (by omega) hD, hnorm, ?_⟩
  generalize timespecDeltaNs now t.expiryTime / timespecIntervalNs t.interval = missed
  split_ifs <;> omega

/-- The counter is the number of armed timers. The functions that change a flag keep it so. -/
def PosixTimers.Counted (p : PosixTimers) : Prop :=
  p.initialized = true ∧ p.armedCount.toNat = p.timers.countP PosixTimer.armed

theorem PosixTimers.Counted.set (hp : p.Counted) (hi : p.timers[i]? = some t) (t' : PosixTimer)
    {n : UInt32} (hn : n.toNat + t.armed.toNat = p.armedCount.toNat + t'.armed.toNat) :
    PosixTimers.Counted { p with armedCount := n, timers := p.timers.set i t' } := by
  have hset := Tally.countP_set (p := PosixTimer.armed) (b := t') hi
  have hcount := hp.2
  exact ⟨hp.1, by dsimp only; omega⟩

theorem toNat_sub_ofNat {n : UInt32} {k : Nat} (h : k ≤ n.toNat) :
    (n - .ofNat k).toNat + k = n.toNat := by
  have hk : (UInt32.ofNat k).toNat = k := UInt32.toNat_ofNat_of_lt' (h.trans_lt n.toNat_lt)
  rw [UInt32.toNat_sub_of_le _ _ (UInt32.le_iff_toNat_le.mpr (hk.symm ▸ h)), hk]
  exact Nat.sub_add_cancel h

theorem PosixTimers.Counted.toNat_sub_one (hp : p.Counted) (hi : p.timers[i]? = some t)
    (harmed : t.armed = true) : (p.armedCount - 1).toNat + 1 = p.armedCount.toNat :=
  toNat_sub_ofNat (hp.2 ▸ List.countP_pos_iff.mpr ⟨t, List.mem_of_getElem? hi, harmed⟩)

theorem PosixTimers.Counted.setPosixTimerArmed (hp : p.Counted) (hsize : p.timers.length = 32)
    (hi : p.timers[i]? = some t) (armed : Bool) : (p.setPosixTimerArmed i t armed).Counted := by
  unfold PosixTimers.setPosixTimerArmed
  split
  · exact hp
  next hne =>
  refine hp.set hi _ ?_
  cases armed with
  | false =>
      rw [Bool.not_eq_false] at hne
      rw [hne]
      exact hp.toNat_sub_one hi hne
  | true =>
      rw [Bool.not_eq_true] at hne
      have hle := List.countP_le_length (p := PosixTimer.armed) (l := p.timers)
      have := hp.2
      rw [hne, if_pos rfl, UInt32.toNat_add]
      exact Nat.mod_eq_of_lt (show _ + 1 < _ by omega)

theorem PosixTimers.Counted.clearPosixTimer (hp : p.Counted) (hi : p.timers[i]? = some t) :
    (p.clearPosixTimer i t).Counted := by
  refine hp.set hi .cleared ?_
  cases harmed : t.armed with
  | false => rfl
  | true => exact hp.toNat_sub_one hi harmed

theorem armed_of_check {clock : Option Timespec} (h : (t.check clock).1.armed = true) :
    t.armed = true := by
  unfold PosixTimer.check PosixTimer.expire at h
  repeat' split at h
  all_goals first | exact h | cases h

theorem countP_checked (f : PosixTimer → PosixTimer × Bool)
    (hf : ∀ t, (f t).1.armed = true → t.armed = true) (ts : List PosixTimer) :
    ((ts.map f).map Prod.fst).countP PosixTimer.armed +
      (ts.zip (ts.map f)).countP (fun (t, c) => t.armed && !c.1.armed) =
        ts.countP PosixTimer.armed := by
  induction ts with
  | nil => rfl
  | cons t ts ih =>
      have := hf t
      simp only [List.map_cons, List.zip_cons_cons, List.countP_cons]
      cases ht : t.armed <;> cases hft : (f t).1.armed <;> simp_all <;> omega

theorem PosixTimers.Counted.checkExpiredTimers (hp : p.Counted) :
    (p.checkExpiredTimers m cpuTime c).1.Counted := by
  unfold PosixTimers.checkExpiredTimers
  split
  · exact hp
  have hcount := countP_checked (fun t => t.check (t.readClock m cpuTime c))
    (fun t => armed_of_check) p.timers
  rw [← hp.2] at hcount
  have hle := (Nat.le_add_left _ _).trans_eq hcount
  exact ⟨hp.1, Nat.add_right_cancel ((toNat_sub_ofNat hle).trans hcount.symm)⟩

theorem checkExpiredTimers_getElem (hp : p.Counted) (hi : p.timers[i]? = some t)
    (harmed : t.armed = true) :
    (p.checkExpiredTimers m cpuTime c).1.timers[i]? = some (t.check (t.readClock m cpuTime c)).1 ∧
      (p.checkExpiredTimers m cpuTime c).2[i]? = some (t.check (t.readClock m cpuTime c)).2 := by
  have hcount : p.armedCount ≠ 0 := fun hzero => by
    have hpos := List.countP_pos_iff.mpr ⟨t, List.mem_of_getElem? hi, harmed⟩
    rw [← hp.2, hzero] at hpos
    exact absurd hpos (by decide)
  rw [PosixTimers.checkExpiredTimers, if_neg (by simp [hp.1, hcount])]
  simp [hi]

/-- `check_expired_timers` arms a periodic timer that has expired for the first of its times
to come, and sends one signal. -/
theorem periodic_timer_next (hp : p.Counted) (hi : p.timers[i]? = some t)
    (hactive : t.active = true) (harmed : t.armed = true)
    (hread : t.readClock m cpuTime c = some now)
    (hdue : t.expiryTime.lessOrEqual now = true) (hexpiry : t.expiryTime.Normalized)
    (hinterval : t.interval.Normalized) (hnow : now.Normalized) (hpos : 0 < t.interval.ns)
    (hint : t.interval.ns < uint64Max) (helapsed : now.ns - t.expiryTime.ns < uint64Max) :
    ∃ k t', (p.checkExpiredTimers m cpuTime c).1.timers[i]? = some t' ∧
      FirstAfter t.expiryTime.ns t.interval.ns now.ns t'.expiryTime.ns k ∧
      t'.expiryTime.Normalized ∧ t'.overrun = min (k - 1) intMax ∧
      (p.checkExpiredTimers m cpuTime c).2[i]? = some true := by
  obtain ⟨htimer, hfired⟩ := checkExpiredTimers_getElem (m := m) (c := c) hp hi harmed
  rw [hread, PosixTimer.check, if_pos ⟨hactive, harmed, hdue⟩] at htimer hfired
  obtain ⟨k, hk, hnorm, hoverrun⟩ :=
    expire_spec hdue hexpiry hinterval hnow hpos hint helapsed
  exact ⟨k, _, htimer, hk, hnorm, hoverrun, hfired⟩

def everyThree : PosixTimer := ⟨true, true, .monotonic, 0, 0, ⟨0, 3⟩, ⟨0, 5⟩⟩

theorem periodic_timer_next_101 :
    let scan := PosixTimers.checkExpiredTimers ⟨true, 1, [everyThree]⟩ ⟨fiveSeconds.frequency, 1, 0⟩
      (fun _ => none) none
    ∃ k t', scan.1.timers[0]? = some t' ∧
      FirstAfter everyThree.expiryTime.ns everyThree.interval.ns (Timespec.ns ⟨0, 100⟩)
        t'.expiryTime.ns k ∧ t'.expiryTime.Normalized ∧ t'.overrun = min (k - 1) intMax ∧
      scan.2[0]? = some true :=
  periodic_timer_next ⟨rfl, by decide⟩ rfl rfl rfl (by decide) (by decide) (by decide)
    (by decide) (by decide) (by decide) (by decide) (by decide)

theorem timespecAddNs_later (now : Timespec) {n : Nat} (hn : 0 < n) :
    (timespecAddNs now n).lessOrEqual now = false := by
  rw [timespecAddNs]
  unfold nsecPerSec Timespec.lessOrEqual
  split_ifs <;> simp <;> omega

theorem check_check (t : PosixTimer) (clock : Option Timespec) :
    (t.check clock).1.check clock = ((t.check clock).1, false) := by
  cases clock with
  | none => rfl
  | some now =>
      by_cases hdue : t.active ∧ t.armed ∧ t.expiryTime.lessOrEqual now
      · have hnot : ¬((t.expire now).active ∧ (t.expire now).armed ∧
            (t.expire now).expiryTime.lessOrEqual now) := by
          rw [PosixTimer.expire]
          split
          · refine fun h => absurd h.2.2 (Bool.eq_false_iff.mp (timespecAddNs_later now ?_))
            split_ifs with hzero
            · exact Nat.one_pos
            · exact Nat.sub_pos_of_lt (Nat.mod_lt _ (Nat.pos_of_ne_zero hzero))
          · simp
        have hfirst : t.check (some now) = (t.expire now, true) := if_pos hdue
        rw [hfirst]
        exact if_neg hnot
      · have hfirst : t.check (some now) = (t, false) := if_neg hdue
        rw [hfirst, hfirst]

theorem readClock_check (t : PosixTimer) (clock : Option Timespec) :
    (t.check clock).1.readClock m cpuTime c = t.readClock m cpuTime c := by
  unfold PosixTimer.check PosixTimer.expire
  repeat' split
  all_goals rfl

/-- No timer fires twice for one time: a second interrupt before the clocks move finds
nothing to do, whatever the table. -/
theorem second_scan_silent (p : PosixTimers) (m : Counter) (cpuTime : Nat → Option Timespec)
    (c : Option TimeNamespaceOffsets) :
    let q := (p.checkExpiredTimers m cpuTime c).1
    q.checkExpiredTimers m cpuTime c = (q, q.timers.map fun _ => false) := by
  intro q
  by_cases hidle : ¬q.initialized ∨ q.armedCount = 0
  · rw [PosixTimers.checkExpiredTimers, if_pos hidle]
  have hq : ∀ t ∈ q.timers, t.check (t.readClock m cpuTime c) = (t, false) := by
    by_cases hp : ¬p.initialized ∨ p.armedCount = 0
    · have heq : q = p := by simp only [q, PosixTimers.checkExpiredTimers, if_pos hp]
      exact absurd (heq ▸ hp) hidle
    · intro t ht
      simp only [q, PosixTimers.checkExpiredTimers, if_neg hp, List.mem_map] at ht
      obtain ⟨_, ⟨t, -, rfl⟩, rfl⟩ := ht
      rw [readClock_check, check_check]
  have hmap : q.timers.map (fun t => t.check (t.readClock m cpuTime c)) =
      q.timers.map fun t => (t, false) := List.map_congr_left hq
  have hzip : ((q.timers.zip (q.timers.map fun t => (t, false))).countP fun x =>
      x.1.armed && !x.2.1.armed) = 0 := by
    induction q.timers with
    | nil => rfl
    | cons t ts ih => simp [ih]
  rw [PosixTimers.checkExpiredTimers, if_neg hidle, hmap]
  simp [hzip, Function.comp_def]

end Period

end F7ly.Proc
