import Mathlib

/-!
# Clocks

`clock_gettime` of `kernel/tm/timer_manager.cc`. All clocks but those of cpu time are read
from one counter. The monotonic clock and the boot clock are shifted by the offsets of the
time namespace of the task that runs.

`long` and `int64` are integers here: sums of them do not wrap, since an overflow has no
meaning in the source. `uint64` wraps.
-/

namespace F7ly.Tm

def nsecPerSec : Nat := 1000000000

structure Timespec where
  sec : Int
  nsec : Int
  deriving DecidableEq

/-- `timespec_less_or_equal`. -/
def Timespec.lessOrEqual (a b : Timespec) : Bool :=
  a.sec < b.sec ∨ (a.sec = b.sec ∧ a.nsec ≤ b.nsec)

inductive SystemClockId where
  | realtime
  | monotonic
  | processCputimeId
  | threadCputimeId
  | monotonicRaw
  | realtimeCoarse
  | monotonicCoarse
  | boottime
  | realtimeAlarm
  | boottimeAlarm
  | tai
  deriving DecidableEq

structure TimeNamespaceOffsets where
  monotonicOffsetNs : Int := 0
  boottimeOffsetNs : Int := 0

/-- `frequency_hz`: a device tree gives it in 32 bits, and what is measured counts up to
10 GHz. -/
structure Frequency where
  hz : Nat
  pos : 0 < hz
  le : hz ≤ 10 ^ 10

/-- The counter and the offset of the wall clock. -/
structure Counter where
  frequency : Frequency
  cycles : Nat
  realtimeOffsetNs : Int

namespace Counter

variable (m : Counter)

def cyclesToNs : Int :=
  Int.bmod (m.cycles / m.frequency.hz * nsecPerSec +
    m.cycles % m.frequency.hz * nsecPerSec / m.frequency.hz : Nat) (2 ^ 64)

end Counter

def nsToTimespec (ns : Int) : Timespec :=
  if ns.tmod nsecPerSec < 0 then ⟨ns.tdiv nsecPerSec - 1, ns.tmod nsecPerSec + nsecPerSec⟩
  else ⟨ns.tdiv nsecPerSec, ns.tmod nsecPerSec⟩

/-- What `apply_time_namespace_offset` adds, for the offsets of the task that runs. -/
def timeNamespaceOffset (clockid : SystemClockId) : Option TimeNamespaceOffsets → Int
  | none => 0
  | some offsets =>
      match clockid with
      | .monotonic | .monotonicRaw | .monotonicCoarse => offsets.monotonicOffsetNs
      | .boottime | .boottimeAlarm => offsets.boottimeOffsetNs
      | _ => 0

/-- `cpuTime` is the cpu time of the task that runs, if one does. -/
def clockGettime (m : Counter) (current : Option TimeNamespaceOffsets)
    (cpuTime : Option Timespec) (clockid : SystemClockId) : Option Timespec :=
  match clockid with
  | .realtime | .realtimeCoarse | .realtimeAlarm | .tai =>
      some (nsToTimespec (m.cyclesToNs + m.realtimeOffsetNs))
  | .processCputimeId | .threadCputimeId => cpuTime
  | _ => some (nsToTimespec (m.cyclesToNs + timeNamespaceOffset clockid current))

end F7ly.Tm
