import F7ly.Tm.Clock

/-!
# POSIX timers

`check_expired_timers` of `kernel/proc/posix_timers.cc`, which the timer interrupt calls.
The task that the interrupt came upon is known by the offsets of its time namespace, and
the cpu time of a task is what `read_task_cpu_clock` finds for it. Who gets the signal of
a timer is left out: of `deliver_posix_timer_signal` it is kept whether it was called.
-/

namespace F7ly.Proc

open Tm

def uint64Max : Nat := 2 ^ 64 - 1

def intMax : Nat := 2 ^ 31 - 1

def timespecDeltaNs (later earlier : Timespec) : Nat :=
  if ¬earlier.lessOrEqual later then 0
  else
    let seconds := (later.sec - earlier.sec).toNat
    let nanoseconds := later.nsec - earlier.nsec
    if nanoseconds < 0 ∧ seconds = 0 then 0
    else
      let seconds := if nanoseconds < 0 then seconds - 1 else seconds
      let nanos := (if nanoseconds < 0 then nanoseconds + nsecPerSec else nanoseconds).toNat
      if seconds > (uint64Max - nanos) / nsecPerSec then uint64Max
      else seconds * nsecPerSec + nanos

def timespecIntervalNs (interval : Timespec) : Nat :=
  if interval.sec < 0 ∨ interval.nsec < 0 then 0
  else if interval.sec.toNat > (uint64Max - interval.nsec.toNat) / nsecPerSec then uint64Max
  else interval.sec.toNat * nsecPerSec + interval.nsec.toNat

def timespecAddNs (base : Timespec) (nanoseconds : Nat) : Timespec :=
  let sec := base.sec + (nanoseconds / nsecPerSec : Nat)
  let nsec := base.nsec + (nanoseconds % nsecPerSec : Nat)
  if nsec ≥ nsecPerSec then ⟨sec + 1, nsec - nsecPerSec⟩ else ⟨sec, nsec⟩

structure PosixTimer where
  active : Bool
  armed : Bool
  clockid : SystemClockId
  owner : Nat
  overrun : Nat
  interval : Timespec
  expiryTime : Timespec

namespace PosixTimer

/-- `read_posix_timer_clock`. -/
def readClock (t : PosixTimer) (m : Counter) (cpuTime : Nat → Option Timespec)
    (current : Option TimeNamespaceOffsets) : Option Timespec :=
  if t.clockid = .processCputimeId ∨ t.clockid = .threadCputimeId then cpuTime t.owner
  else clockGettime m current none t.clockid

def expire (t : PosixTimer) (currentTime : Timespec) : PosixTimer :=
  if t.interval.sec > 0 ∨ t.interval.nsec > 0 then
    let intervalNs := timespecIntervalNs t.interval
    let elapsedNs := timespecDeltaNs currentTime t.expiryTime
    let missed := if intervalNs = 0 then 0 else elapsedNs / intervalNs
    let untilNext := if intervalNs = 0 then 1 else intervalNs - elapsedNs % intervalNs
    { t with
      overrun := if missed > intMax then intMax else missed
      expiryTime := timespecAddNs currentTime untilNext }
  else { t with overrun := 0, armed := false }

/-- One round of the scan: the timer, and whether it fired. -/
def check (t : PosixTimer) (currentTime : Option Timespec) : PosixTimer × Bool :=
  match currentTime with
  | some now =>
      if t.active ∧ t.armed ∧ t.expiryTime.lessOrEqual now then (t.expire now, true)
      else (t, false)
  | none => (t, false)

end PosixTimer

/-- `g_timers`, with `g_armed_posix_timers`. -/
structure PosixTimers where
  initialized : Bool
  armedCount : UInt32
  timers : List PosixTimer

/-- `set_posix_timer_armed_locked` of slot `i`, which has `t`. -/
def PosixTimers.setPosixTimerArmed (p : PosixTimers) (i : Nat) (t : PosixTimer) (armed : Bool) :
    PosixTimers :=
  if t.armed = armed then p
  else
    { p with
      armedCount := if armed then p.armedCount + 1 else p.armedCount - 1
      timers := p.timers.set i { t with armed } }

def PosixTimer.cleared : PosixTimer := ⟨false, false, .realtime, 0, 0, ⟨0, 0⟩, ⟨0, 0⟩⟩

def PosixTimers.clearPosixTimer (p : PosixTimers) (i : Nat) (t : PosixTimer) : PosixTimers :=
  { p with
    armedCount := if t.armed then p.armedCount - 1 else p.armedCount
    timers := p.timers.set i .cleared }

def PosixTimers.checkExpiredTimers (p : PosixTimers) (m : Counter)
    (cpuTime : Nat → Option Timespec) (current : Option TimeNamespaceOffsets) :
    PosixTimers × List Bool :=
  if ¬p.initialized ∨ p.armedCount = 0 then (p, p.timers.map fun _ => false)
  else
    let checked := p.timers.map fun t => t.check (t.readClock m cpuTime current)
    let disarmed := (p.timers.zip checked).countP fun (t, c) => t.armed && !c.1.armed
    ({ p with
        armedCount := p.armedCount - UInt32.ofNat disarmed
        timers := checked.map Prod.fst },
      checked.map Prod.snd)

end F7ly.Proc
