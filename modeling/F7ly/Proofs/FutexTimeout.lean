import F7ly.Proc.FutexTimeout
import F7ly.Proc.FutexWait
import F7ly.Proofs.PosixTimers

/-!
# When a futex wait may time out

Neither conversion saturates where the time is multiplied with the frequency: the cycles
of a timeout are those requested modulo `2 ^ 64`. The sum with the current time saturates
for an absolute time only. `Fits` says when this is not seen in the deadline.
-/

namespace F7ly.Proc.Wait

open Tm

variable {f : Frequency} {ts : Timespec} {clockNs : Option Int}

def requestedCycles (f : Frequency) (ts : Timespec) (clockNs : Option Int) : Nat :=
  (ts.sec * nsecPerSec + ts.nsec - clockNs.getD 0).toNat * f.hz / nsecPerSec

def moment (f : Frequency) (ts : Timespec) (clockNs : Option Int) (nowCycles : UInt64) : Nat :=
  min (nowCycles.toNat + requestedCycles f ts clockNs) (2 ^ 64 - 1)

def Deadline.NotEarly (moment requested : Nat) : Deadline → Prop
  | .einval => True
  | .etimedout => requested = 0
  | .cycles deadline => moment ≤ deadline

/-- No product or sum of the conversion goes beyond 64 bits, or what is left of it is large
enough by chance. -/
def Fits (nowCycles requested : Nat) : Option Int → Prop
  | none => nowCycles + requested < 2 ^ 64 ∨
      requested % 2 ^ 64 ≠ 0 ∧ (nowCycles + requested) % 2 ^ 64 = 2 ^ 64 - 1
  | some _ => requested < 2 ^ 64 ∨ 2 ^ 64 - 1 ≤ nowCycles + max 1 (requested % 2 ^ 64)

theorem futexTimespecIsValid_iff :
    futexTimespecIsValid ts = true ↔ 0 ≤ ts.sec ∧ 0 ≤ ts.nsec ∧ ts.nsec < nsecPerSec :=
  decide_eq_true_iff

theorem futexTimeoutToCycles_eq (h : futexTimespecIsValid ts = true) :
    futexTimeoutToCycles f ts = some (requestedCycles f ts none % 2 ^ 64) := by
  obtain ⟨hsec, hnsec, hlt⟩ := futexTimespecIsValid_iff.mp h
  obtain ⟨sec, hs⟩ := Int.eq_ofNat_of_zero_le hsec
  obtain ⟨nsec, hn⟩ := Int.eq_ofNat_of_zero_le hnsec
  have hle : nsec * f.hz ≤ nsecPerSec * 10 ^ 10 := Nat.mul_le_mul (by omega) f.le
  have hsum : (sec * nsecPerSec + nsec) * f.hz / nsecPerSec =
      sec * f.hz + nsec * f.hz / nsecPerSec := by
    rw [Nat.add_mul, Nat.mul_right_comm, Nat.add_comm, Nat.add_mul_div_right _ _ (by decide),
      Nat.add_comm]
  have hreq : requestedCycles f ts none = (sec * nsecPerSec + nsec) * f.hz / nsecPerSec := by
    have hns : (ts.sec * nsecPerSec + ts.nsec - 0).toNat = sec * nsecPerSec + nsec := by
      unfold nsecPerSec
      omega
    rw [requestedCycles, Option.getD_none, hns]
  rw [futexTimeoutToCycles, if_pos h, hreq, hsum, hs, hn]
  simp only [Int.toNat_natCast, Option.some.injEq]
  rw [Nat.mod_eq_of_lt (a := nsec * f.hz) (Nat.lt_of_le_of_lt hle (by decide)), Nat.mod_add_mod]

theorem compareTimespec_lt {a b : Timespec} :
    compareTimespec a b < 0 ↔ a.sec < b.sec ∨ a.sec = b.sec ∧ a.nsec < b.nsec := by
  rw [compareTimespec]
  repeat' split
  all_goals omega

theorem remaining_spec {now : Int} (h : futexTimespecIsValid ts = true)
    (hlt : compareTimespec (nsToTimespec now) ts < 0) :
    futexTimespecIsValid (remaining (nsToTimespec now) ts) = true ∧
      requestedCycles f (remaining (nsToTimespec now) ts) none =
        requestedCycles f ts (some now) := by
  obtain ⟨hsec, hnsec, hts⟩ := futexTimespecIsValid_iff.mp h
  obtain ⟨hnow, hlo, hhi⟩ := nsToTimespec_spec now
  have hcmp := compareTimespec_lt.mp hlt
  have hns : (remaining (nsToTimespec now) ts).sec * nsecPerSec +
      (remaining (nsToTimespec now) ts).nsec - 0 = ts.sec * nsecPerSec + ts.nsec - now := by
    unfold remaining nsecPerSec at *
    split
    all_goals dsimp only; omega
  refine ⟨futexTimespecIsValid_iff.mpr ?_, ?_⟩
  · unfold remaining nsecPerSec at *
    split
    all_goals dsimp only; omega
  · rw [requestedCycles, requestedCycles, Option.getD_none, Option.getD_some, hns]

theorem relative_notEarly_iff (nowCycles : UInt64) (h : futexTimespecIsValid ts = true) :
    (waitDeadline f ts none nowCycles).NotEarly (moment f ts none nowCycles)
        (requestedCycles f ts none) ↔ Fits nowCycles.toNat (requestedCycles f ts none) none := by
  have hlt := nowCycles.toNat_lt
  rw [waitDeadline, if_neg (not_not.mpr h), futexTimeoutToCycles_eq h, moment, Fits]
  generalize requestedCycles f ts none = requested
  dsimp only
  split
  · rw [Deadline.NotEarly]
    omega
  · rw [Deadline.NotEarly]
    omega

theorem absolute_notEarly_iff (now : Int) (nowCycles : UInt64)
    (h : futexTimespecIsValid ts = true) :
    (waitDeadline f ts (some now) nowCycles).NotEarly (moment f ts (some now) nowCycles)
        (requestedCycles f ts (some now)) ↔
      Fits nowCycles.toNat (requestedCycles f ts (some now)) (some now) := by
  have hlt := nowCycles.toNat_lt
  rw [waitDeadline, if_neg (not_not.mpr h), moment, Fits]
  by_cases hcmp : compareTimespec (nsToTimespec now) ts < 0
  · obtain ⟨hvalid, hreq⟩ := remaining_spec (f := f) h hcmp
    rw [if_neg (by omega), futexAbsoluteDeadlineToCycles, if_neg (by omega),
      futexTimeoutToCycles_eq hvalid, hreq]
    generalize requestedCycles f ts (some now) = requested
    simp only [Option.map_some, Deadline.NotEarly]
    split
    all_goals split
    all_goals omega
  · obtain ⟨-, -, hts⟩ := futexTimespecIsValid_iff.mp h
    obtain ⟨hnow, hlo, hhi⟩ := nsToTimespec_spec now
    have hpast : ts.sec * nsecPerSec + ts.nsec - now ≤ 0 := by
      rw [compareTimespec_lt] at hcmp
      unfold nsecPerSec at *
      omega
    have hzero : requestedCycles f ts (some now) = 0 := by
      rw [requestedCycles, Option.getD_some, Int.toNat_of_nonpos hpast, Nat.zero_mul, Nat.zero_div]
    rw [if_pos (by omega), Deadline.NotEarly, hzero]
    omega

def NotEarly (f : Frequency) (ts : Timespec) (clockNs : Option Int) (nowCycles : UInt64) : Prop :=
  (waitDeadline f ts clockNs nowCycles).NotEarly (moment f ts clockNs nowCycles)
    (requestedCycles f ts clockNs)

theorem notEarly_iff (nowCycles : UInt64) :
    NotEarly f ts clockNs nowCycles ↔ (futexTimespecIsValid ts = true →
      Fits nowCycles.toNat (requestedCycles f ts clockNs) clockNs) := by
  by_cases h : futexTimespecIsValid ts = true
  · rw [imp_iff_right h]
    cases clockNs with
    | none => exact relative_notEarly_iff nowCycles h
    | some now => exact absolute_notEarly_iff now nowCycles h
  · unfold NotEarly waitDeadline
    rw [if_pos h, Deadline.NotEarly]
    exact ⟨fun _ hvalid => absurd hvalid h, fun _ => trivial⟩

/-- A wait does not time out early exactly if the conversion to cycles `Fits`, and then
`futex_check_timeouts` does not end it early either. -/
theorem futex_not_early_iff (f : Frequency) (ts : Timespec) (clockNs : Option Int)
    (nowCycles : UInt64) : (NotEarly f ts clockNs nowCycles ↔ (futexTimespecIsValid ts = true →
      Fits nowCycles.toNat (requestedCycles f ts clockNs) clockNs)) ∧
    (NotEarly f ts clockNs nowCycles →
      ∀ deadline, waitDeadline f ts clockNs nowCycles = .cycles deadline →
      ∀ (pool : Pool) (id : Nat) (key : Signal.Word) (bucket now : Nat),
        (pool.pcb id).futexTimeoutDeadline = deadline →
        FutexSystem.expire pool id key bucket now ≠ pool →
        moment f ts clockNs nowCycles ≤ now) := by
  refine ⟨notEarly_iff nowCycles, fun hearly deadline hdeadline pool id key bucket now hpcb
    hexpire => ?_⟩
  rw [NotEarly, hdeadline, Deadline.NotEarly] at hearly
  rw [FutexSystem.expire] at hexpire
  by_contra hnow
  rw [if_neg fun hand => by omega] at hexpire
  exact hexpire rfl

/-- A wait for about four thousand million years times out at once. -/
theorem long_wait_times_out : futexTimespecIsValid ⟨2 ^ 57, 0⟩ = true ∧
      requestedCycles fiveSeconds.frequency ⟨2 ^ 57, 0⟩ none = 78125 * 2 ^ 64 ∧
      waitDeadline fiveSeconds.frequency ⟨2 ^ 57, 0⟩ none 0 = .etimedout := by
  decide

end F7ly.Proc.Wait
