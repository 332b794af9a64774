import F7ly.Mem.Page

/-!
# The request scheduler of the block driver

`MClockScheduler` of `kernel/fs/drivers/virtio_mclock_scheduler.cc`. A request gets
three tags when it is queued; it is queued in the flow of its process, in the class of
its priority. The lists of flows are linked through a pool of fixed size; here they are
lists, cut at `rr_hint`, and the pool is the number of flows it has. A flow is released
with its last request, so a flow of the model has a first request. A panic is `none`.
-/

namespace F7ly.Fs.Virtio

def usecPerSec : UInt64 := 1000000

def defaultEwmaBps : UInt64 := 64 * 1024 * 1024

def classCount : Nat := 8

def classWeight : Fin classCount → UInt64 := ![256, 192, 128, 96, 64, 32, 16, 8]

def classReservationBps : Fin classCount → UInt64 :=
  ![24 * 1024 * 1024, 16 * 1024 * 1024, 8 * 1024 * 1024, 4 * 1024 * 1024,
    2 * 1024 * 1024, 1 * 1024 * 1024, 512 * 1024, 256 * 1024]

def unlimitedBps : UInt64 := 0

def classLimitBps : Fin classCount → UInt64 := fun _ => unlimitedBps

def totalWeight : UInt64 := 792

def maxFlows : Nat := numProcess * 2

def lowestProcPrio : Int := 19

def highestProcPrio : Int := -20

def niceToServiceClass (nice : Int) : Fin classCount :=
  let clamped :=
    if nice < highestProcPrio then highestProcPrio
    else if nice > lowestProcPrio then lowestProcPrio
    else nice
  let serviceClass := ((clamped - highestProcPrio) / 5).toNat
  if h : serviceClass < classCount then ⟨serviceClass, h⟩ else ⟨classCount - 1, by decide⟩

def ceilDiv (numerator denominator : UInt64) : UInt64 :=
  if denominator = 0 then 0 else (numerator + denominator - 1) / denominator

def bytesToServiceUs (bytes bps : UInt64) : UInt64 :=
  if bps = 0 then 0
  else
    let usec := ceilDiv (bytes * usecPerSec) bps
    if usec = 0 then 1 else usec

def weightedServiceUs (bytes weight ewmaBps : UInt64) : UInt64 :=
  let scaledBytes := ceilDiv (bytes * totalWeight) (if weight = 0 then 1 else weight)
  bytesToServiceUs scaledBytes (if ewmaBps = 0 then defaultEwmaBps else ewmaBps)

/-- `IoRequest`; `id` stands for its address. -/
structure IoRequest where
  id : Nat
  dataLen : Nat
  startSector : Nat
  write : Bool
  requestBytes : UInt64
  submitPid : Nat
  submitNice : Int
  rTagUs : UInt64 := 0
  wTagUs : UInt64 := 0
  lTagUs : UInt64 := 0
  deriving DecidableEq

/-- The requests of one process in one class, the oldest first. -/
structure Flow where
  pid : Nat
  first : IoRequest
  rest : List IoRequest
  deriving DecidableEq

def Flow.requests (f : Flow) : List IoRequest := f.first :: f.rest

/-- The flows before `rr_hint`, and those from it on. -/
structure ClassState where
  passed : List Flow := []
  coming : List Flow := []
  lastRTagUs : UInt64 := 0
  lastWTagUs : UInt64 := 0
  lastLTagUs : UInt64 := 0

structure MClockScheduler where
  classes : Fin classCount → ClassState

structure DispatchDecision where
  request : Option IoRequest
  nextGateUs : UInt64

namespace ClassState

variable (c : ClassState)

def flows : List Flow := c.passed ++ c.coming

def rotation : List Flow := c.coming ++ c.passed

end ClassState

/-- The request goes to the end of the flow of its process, if there is one. -/
def appendRequest (r : IoRequest) : List Flow → Option (List Flow)
  | [] => none
  | f :: fs =>
      if f.pid = r.submitPid then some ({ f with rest := f.rest ++ [r] } :: fs)
      else (appendRequest r fs).map (f :: ·)

/-- `find_or_alloc_flow` and the append to the flow; `full` says that the pool has no
flow left. -/
def ClassState.addRequest (c : ClassState) (full : Bool) (r : IoRequest) : Option ClassState :=
  match appendRequest r c.passed with
  | some passed => some { c with passed := passed }
  | none =>
      match appendRequest r c.coming with
      | some coming => some { c with coming := coming }
      | none =>
          if full then none
          else some { c with coming := c.coming ++ [⟨r.submitPid, r, []⟩] }

/-- The tags of a new request, and the class after it. -/
def ClassState.tag (c : ClassState) (serviceClass : Fin classCount) (r : IoRequest)
    (nowUs ewmaBps : UInt64) : IoRequest × ClassState :=
  let later (last : UInt64) : UInt64 := if last > nowUs then last else nowUs
  let reservationStart := later c.lastRTagUs
  let weightStart := later c.lastWTagUs
  let limit :=
    if classLimitBps serviceClass = unlimitedBps then (nowUs, nowUs)
    else
      let limitStart := later c.lastLTagUs
      (limitStart, limitStart + bytesToServiceUs r.requestBytes (classLimitBps serviceClass))
  ({ r with rTagUs := reservationStart, wTagUs := weightStart, lTagUs := limit.1 },
    { c with
      lastRTagUs := reservationStart +
        bytesToServiceUs r.requestBytes (classReservationBps serviceClass)
      lastWTagUs := weightStart +
        weightedServiceUs r.requestBytes (classWeight serviceClass) ewmaBps
      lastLTagUs := limit.2 })

namespace MClockScheduler

variable (s : MClockScheduler)

def empty : MClockScheduler := ⟨fun _ => {}⟩

def pending : List IoRequest :=
  (List.finRange classCount).flatMap fun c => (s.classes c).flows.flatMap Flow.requests

def flowsInUse : Nat := ((List.finRange classCount).map fun c => (s.classes c).flows.length).sum

def setClass (c : Fin classCount) (state : ClassState) : MClockScheduler :=
  ⟨Function.update s.classes c state⟩

def enqueue (r : IoRequest) (nowUs ewmaBps : UInt64) : Option MClockScheduler :=
  let serviceClass := niceToServiceClass r.submitNice
  let tagged := (s.classes serviceClass).tag serviceClass r nowUs ewmaBps
  (tagged.2.addRequest (maxFlows ≤ s.flowsInUse) tagged.1).map (s.setClass serviceClass)

end MClockScheduler

/-- The flow of a process, with the flows before and after it. -/
def findFlow (pid : Nat) : List Flow → Option (List Flow × Flow × List Flow)
  | [] => none
  | f :: fs =>
      if f.pid = pid then some ([], f, fs)
      else (findFlow pid fs).map fun (before, g, after) => (f :: before, g, after)

/-- The flow after its first request has left; without a request it is released. -/
def Flow.popped (f : Flow) : List Flow :=
  match f.rest with
  | [] => []
  | r :: rest => [⟨f.pid, r, rest⟩]

/-- `pop_flow_head` and `finish_flow_dispatch`: `rr_hint` goes to the flow after this
one, or to the first. -/
def ClassState.popFlow (c : ClassState) (pid : Nat) : Option (IoRequest × ClassState) :=
  (findFlow pid c.flows).map fun (before, f, after) =>
    let kept := before ++ f.popped
    (f.first,
      if after = [] then { c with passed := [], coming := kept }
      else { c with passed := kept, coming := after })

/-- `~0ULL`: no gate has been seen. -/
def noGate : UInt64 := 0xffffffffffffffff

/-- The best flows of a scan. -/
structure PickState where
  bestReservation : Option (Fin classCount × Flow) := none
  bestWeight : Option (Fin classCount × Flow) := none
  earliestGate : UInt64 := noGate

def PickState.selected (pick : PickState) : Option (Fin classCount × Flow) :=
  pick.bestReservation.or pick.bestWeight

/-- The gate that is reported when it selects none. -/
def PickState.gate (pick : PickState) : UInt64 :=
  if pick.earliestGate = noGate then 0 else pick.earliestGate

/-- The order of the candidates: by the first key, then by the second. -/
def earlier (key key' : IoRequest → UInt64) (r : IoRequest) :
    Option (Fin classCount × Flow) → Bool
  | none => true
  | some (_, f) => key r < key f.first ∨ (key r = key f.first ∧ key' r < key' f.first)

def PickState.consider (nowUs : UInt64) (pick : PickState) (c : Fin classCount × Flow) :
    PickState :=
  let candidate := c.2.first
  if candidate.lTagUs > nowUs then
    if candidate.lTagUs < pick.earliestGate then
      { pick with earliestGate := candidate.lTagUs }
    else pick
  else if candidate.rTagUs ≤ nowUs then
    if earlier (·.rTagUs) (·.wTagUs) candidate pick.bestReservation then
      { pick with bestReservation := some c }
    else pick
  else if earlier (·.wTagUs) (·.rTagUs) candidate pick.bestWeight then
    { pick with bestWeight := some c }
  else pick

namespace MClockScheduler

variable (s : MClockScheduler)

def candidates : List (Fin classCount × Flow) :=
  (List.finRange classCount).flatMap fun c => (s.classes c).rotation.map (Prod.mk c)

def pick (nowUs : UInt64) : PickState := s.candidates.foldl (PickState.consider nowUs) {}

/-- Take the request chosen from its flow; a queue that has another request at its head
is a panic. -/
def dispatchFlow (c : Fin classCount) (f : Flow) : Option (DispatchDecision × MClockScheduler) := do
  let (queued, state) ← (s.classes c).popFlow f.pid
  if queued ≠ f.first then none
  else some (⟨some queued, 0⟩, s.setClass c state)

def activeClasses : List (Fin classCount) :=
  (List.finRange classCount).filter fun c => (s.classes c).flows ≠ []

def dequeueSingleActiveClass (nowUs : UInt64) : Option (DispatchDecision × MClockScheduler) :=
  match s.activeClasses with
  | [c] =>
      match (s.classes c).rotation with
      | [] => some (⟨none, 0⟩, s)
      | f :: _ =>
          if f.first.lTagUs > nowUs then some (⟨none, f.first.lTagUs⟩, s)
          else s.dispatchFlow c f
  | _ => some (⟨none, 0⟩, s)

def dequeueNext (nowUs : UInt64) : Option (DispatchDecision × MClockScheduler) := do
  let single ← s.dequeueSingleActiveClass nowUs
  if single.1.request ≠ none ∨ single.1.nextGateUs ≠ 0 then return single
  match (s.pick nowUs).selected with
  | none => some (⟨none, (s.pick nowUs).gate⟩, s)
  | some (c, f) => s.dispatchFlow c f

end MClockScheduler

end F7ly.Fs.Virtio
