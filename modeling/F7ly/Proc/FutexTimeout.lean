import F7ly.Tm.Clock

/-!
# Deadlines of futex waits

The start of `futex_wait` with a timeout, `kernel/proc/futex.cc`: the time of the caller
becomes a value of the counter that `futex_check_timeouts` compares with. An absolute time
is for a clock, and what is left until then is taken like a relative one; the clock is
known by its nanoseconds.
-/

namespace F7ly.Proc.Wait

open Tm

def futexTimespecIsValid (ts : Timespec) : Bool :=
  ts.sec ≥ 0 ∧ ts.nsec ≥ 0 ∧ ts.nsec < nsecPerSec

def futexTimeoutToCycles (f : Frequency) (ts : Timespec) : Option Nat :=
  if futexTimespecIsValid ts then
    let secCycles := ts.sec.toNat * f.hz % 2 ^ 64
    let nsecCycles := ts.nsec.toNat * f.hz % 2 ^ 64 / nsecPerSec
    some ((secCycles + nsecCycles) % 2 ^ 64)
  else none

def compareTimespec (lhs rhs : Timespec) : Int :=
  if lhs.sec ≠ rhs.sec then if lhs.sec < rhs.sec then -1 else 1
  else if lhs.nsec ≠ rhs.nsec then if lhs.nsec < rhs.nsec then -1 else 1
  else 0

def remaining (now target : Timespec) : Timespec :=
  if target.nsec - now.nsec < 0 then
    ⟨target.sec - now.sec - 1, target.nsec - now.nsec + nsecPerSec⟩
  else ⟨target.sec - now.sec, target.nsec - now.nsec⟩

def futexAbsoluteDeadlineToCycles (f : Frequency) (now target : Timespec)
    (nowCycles : UInt64) : Option Nat :=
  if compareTimespec now target ≥ 0 then none
  else
    (futexTimeoutToCycles f (remaining now target)).map fun timeoutCycles =>
      let timeoutCycles := if timeoutCycles = 0 then 1 else timeoutCycles
      if nowCycles.toNat > 2 ^ 64 - 1 - timeoutCycles then 2 ^ 64 - 1
      else nowCycles.toNat + timeoutCycles

/-- What comes of a timeout: an error, the timeout itself, or a deadline for the wait. -/
inductive Deadline where
  | einval
  | etimedout
  | cycles (deadline : Nat)
  deriving DecidableEq

/-- The deadline of a wait that starts now. The time is absolute if there is a clock. -/
def waitDeadline (f : Frequency) (ts : Timespec) (clockNs : Option Int)
    (nowCycles : UInt64) : Deadline :=
  if ¬futexTimespecIsValid ts then .einval
  else
    match clockNs with
    | some ns =>
        if compareTimespec (nsToTimespec ns) ts ≥ 0 then .etimedout
        else
          match futexAbsoluteDeadlineToCycles f (nsToTimespec ns) ts nowCycles with
          | none => .einval
          | some deadline => .cycles deadline
    | none =>
        match futexTimeoutToCycles f ts with
        | none => .einval
        | some timeoutCycles =>
            if timeoutCycles = 0 then .etimedout
            else .cycles ((nowCycles.toNat + timeoutCycles) % 2 ^ 64)

end F7ly.Proc.Wait
