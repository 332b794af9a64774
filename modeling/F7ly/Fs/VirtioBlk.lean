import F7ly.Fs.MClock

/-!
# The queue of the block driver and its device

`VirtioBlkQueue` of `kernel/fs/drivers/virtio_blk_queue.cc`: a table of descriptors, of
which each request takes a chain of three; the avail ring, through which the heads of
chains go to the device; the used ring, through which they come back; and the requests
by their heads. The counters of the rings run freely and have 16 bits.

A step is one round of a loop of the driver, under the lock of the queue, or a move of
the device, which takes heads from the avail ring in order and returns those it has
taken in any order, with status OK. Every reading of the clock is an argument of the
step that makes it. A panic is `none`. Callers are the processes of the system, with
one request each at a time.
-/

namespace F7ly.Fs.Virtio

def queueSize : Nat := 128

def descFlagNext : Nat := 1

def descFlagWrite : Nat := 2

def reqTypeRead : Nat := 0

def reqTypeWrite : Nat := 1

/-- What the DMA address of a descriptor points to: the header or the status byte in
`info_`, or the data of a request. -/
inductive DmaAddr where
  | null
  | header (i : Nat)
  | data (request : Nat)
  | status (i : Nat)
  deriving DecidableEq

structure VRingDesc where
  addr : DmaAddr := .null
  len : Nat := 0
  flags : Nat := 0
  next : Nat := 0
  deriving DecidableEq

structure VirtioBlkReq where
  type : Nat := 0
  sector : Nat := 0

structure RequestInfo where
  request : Option IoRequest := none
  header : VirtioBlkReq := {}
  status : UInt8 := 0
  dispatchUs : UInt64 := 0

structure DescChain where
  head : Nat
  middle : Nat
  tail : Nat

/-- `avail` and `used` are the two rings, `usedId` the counter of the used ring that
the device advances. -/
structure VirtioBlkQueue where
  desc : Nat → VRingDesc := fun _ => {}
  avail : Nat → Nat := fun _ => 0
  availIdx : Nat := 0
  used : Nat → Nat := fun _ => 0
  usedId : Nat := 0
  free : Nat → Bool := fun _ => true
  usedIdx : Nat := 0
  inflightCount : Int := 0
  ewmaBps : UInt64 := defaultEwmaBps
  info : Nat → RequestInfo := fun _ => {}
  scheduler : MClockScheduler := .empty

namespace VirtioBlkQueue

variable (q : VirtioBlkQueue)

def freeCount : Nat := (List.range queueSize).countP q.free

def hasFreeDescChain : Bool := 3 ≤ q.freeCount

def firstFree : Option Nat := (List.range queueSize).find? q.free

def freeDesc (idx : Nat) : Option VirtioBlkQueue :=
  if idx ≥ queueSize then none
  else some { q with
    desc := Function.update q.desc idx {}, free := Function.update q.free idx true }

def takeDesc (idx : Nat) : VirtioBlkQueue :=
  { q with free := Function.update q.free idx false }

/-- Where a descriptor is missing, those found before it are freed again. -/
def allocDescChain : Option (Option DescChain × VirtioBlkQueue) :=
  match q.firstFree with
  | none => some (none, q)
  | some head =>
      let q := q.takeDesc head
      match q.firstFree with
      | none => do return (none, ← q.freeDesc head)
      | some middle =>
          let q := q.takeDesc middle
          match q.firstFree with
          | none => do return (none, ← (← q.freeDesc head).freeDesc middle)
          | some tail => some (some ⟨head, middle, tail⟩, q.takeDesc tail)

/-- The chain from `idx` on. A chain has at most as many descriptors as there are. -/
def freeChainLoop : Nat → VirtioBlkQueue → Nat → Option VirtioBlkQueue
  | 0, _, _ => none
  | fuel + 1, q, idx => do
      let d := q.desc idx
      let q ← q.freeDesc idx
      if d.flags &&& descFlagNext = 0 then return q
      freeChainLoop fuel q d.next

def freeChain (head : Nat) : Option VirtioBlkQueue := freeChainLoop queueSize q head

/-- The descriptors and the information of a request in its chain. -/
def fillChain (r : IoRequest) (chain : DescChain) (dispatchUs : UInt64) : VirtioBlkQueue :=
  let info : RequestInfo :=
    { request := some r
      header := ⟨if r.write then reqTypeWrite else reqTypeRead, r.startSector⟩
      status := 0xff
      dispatchUs := dispatchUs }
  let head : VRingDesc := ⟨.header chain.head, 16, descFlagNext, chain.middle⟩
  let middle : VRingDesc :=
    ⟨.data r.id, r.dataLen, (if r.write then 0 else descFlagWrite) ||| descFlagNext, chain.tail⟩
  let tail : VRingDesc := ⟨.status chain.head, 1, descFlagWrite, 0⟩
  { q with
    info := Function.update q.info chain.head info
    desc := Function.update (Function.update (Function.update q.desc chain.head head)
      chain.middle middle) chain.tail tail }

/-- The head goes into the avail ring, and its counter on. -/
def publish (head : Nat) : VirtioBlkQueue :=
  { q with
    avail := Function.update q.avail (q.availIdx % queueSize) head
    availIdx := (q.availIdx + 1) % 2 ^ 16
    inflightCount := q.inflightCount + 1 }

def submitOne (r : IoRequest) (dispatchUs : UInt64) : Option (Bool × VirtioBlkQueue) := do
  let (chain, q) ← q.allocDescChain
  match chain with
  | none => return (false, q)
  | some chain => return (true, (q.fillChain r chain dispatchUs).publish chain.head)

/-- How a round of `dispatch_pending_locked` ends: the loop goes on after a request was
submitted, and stops with a gate otherwise. -/
inductive Round where
  | submitted (r : IoRequest)
  | stopped (nextGateUs : UInt64)

def dispatchRound (nowUs dispatchUs : UInt64) : Option (Round × VirtioBlkQueue) :=
  if q.inflightCount < queueSize ∧ q.hasFreeDescChain then do
    let (decision, scheduler) ← q.scheduler.dequeueNext nowUs
    let q := { q with scheduler := scheduler }
    match decision.request with
    | none => return (.stopped decision.nextGateUs, q)
    | some r =>
        let (submitted, q) ← q.submitOne r dispatchUs
        if submitted then return (.submitted r, q) else none
  else some (.stopped 0, q)

def updateEwma (r : IoRequest) (dispatchUs finishUs : UInt64) : VirtioBlkQueue :=
  if dispatchUs ≠ 0 ∧ finishUs > dispatchUs then
    let instantBps := ceilDiv (r.requestBytes * usecPerSec) (finishUs - dispatchUs)
    if instantBps ≠ 0 then { q with ewmaBps := (q.ewmaBps * 7 + instantBps) / 8 } else q
  else q

/-- A round of `process_used_locked`: the request that was completed, if the ring is
not empty. -/
def usedRound (finishUs : UInt64) : Option (Option (Option IoRequest) × VirtioBlkQueue) :=
  if q.usedIdx = q.usedId then some (none, q)
  else
    let id := q.used (q.usedIdx % queueSize)
    if id ≥ queueSize then none
    else
      let info := q.info id
      if info.status ≠ 0 then none
      else do
        let q := match info.request with
          | some r => q.updateEwma r info.dispatchUs finishUs
          | none => q
        let q := { q with
          info := Function.update q.info id { info with request := none, dispatchUs := 0 } }
        let q ← q.freeChain id
        return (some info.request, { q with
          inflightCount := q.inflightCount - 1, usedIdx := (q.usedIdx + 1) % 2 ^ 16 })

/-- The last descriptor of a chain, as the device finds it. -/
def chainEnd : Nat → Nat → Nat
  | 0, idx => idx
  | fuel + 1, idx =>
      if (q.desc idx).flags &&& descFlagNext = 0 then idx else chainEnd fuel (q.desc idx).next

/-- The device writes OK to where the last descriptor points. -/
def writeStatus (head : Nat) : VirtioBlkQueue :=
  match (q.desc (q.chainEnd queueSize head)).addr with
  | .status i => { q with info := Function.update q.info i { q.info i with status := 0 } }
  | _ => q

def returnHead (head : Nat) : VirtioBlkQueue :=
  { q with
    used := Function.update q.used (q.usedId % queueSize) head
    usedId := (q.usedId + 1) % 2 ^ 16 }

end VirtioBlkQueue

/-- `seen` is how far the device has read the avail ring and `taken` the heads it works
on. A request is completed as often as it was marked so. -/
structure Disk where
  queue : VirtioBlkQueue := {}
  seen : Nat := 0
  taken : List Nat := []
  completed : Nat → Nat := fun _ => 0
  nextId : Nat := 0
  caller : Fin numProcess → Option Nat := fun _ => none

inductive DiskOp where
  | enqueue (i : Fin numProcess) (r : IoRequest) (nowUs : UInt64)
  | dispatch (nowUs dispatchUs : UInt64)
  | used (finishUs : UInt64)
  | leave (i : Fin numProcess)
  | deviceTake
  | deviceReturn (head : Nat)

namespace Disk

variable (d : Disk)

def enqueue (i : Fin numProcess) (r : IoRequest) (nowUs : UInt64) : Option Disk :=
  match d.caller i with
  | some _ => some d
  | none => do
      let scheduler ←
        d.queue.scheduler.enqueue { r with id := d.nextId } nowUs d.queue.ewmaBps
      return { d with
        queue := { d.queue with scheduler := scheduler }
        nextId := d.nextId + 1
        caller := Function.update d.caller i (some d.nextId) }

def dispatch (nowUs dispatchUs : UInt64) : Option Disk := do
  let (_, queue) ← d.queue.dispatchRound nowUs dispatchUs
  return { d with queue := queue }

def markCompleted (r : IoRequest) : Disk :=
  { d with completed := Function.update d.completed r.id (d.completed r.id + 1) }

def used (finishUs : UInt64) : Option Disk := do
  let (done, queue) ← d.queue.usedRound finishUs
  let d := { d with queue := queue }
  match done.join with
  | some r => return d.markCompleted r
  | none => return d

/-- A caller returns when its request is completed. -/
def leave (i : Fin numProcess) : Disk :=
  match d.caller i with
  | some r =>
      if d.completed r = 0 then d else { d with caller := Function.update d.caller i none }
  | none => d

def deviceTake : Disk :=
  if d.seen = d.queue.availIdx then d
  else { d with
    seen := (d.seen + 1) % 2 ^ 16
    taken := d.taken ++ [d.queue.avail (d.seen % queueSize)] }

def deviceReturn (head : Nat) : Disk :=
  if head ∈ d.taken then
    { d with
      queue := (d.queue.writeStatus head).returnHead head
      taken := d.taken.erase head }
  else d

def step : DiskOp → Option Disk
  | .enqueue i r nowUs => d.enqueue i r nowUs
  | .dispatch nowUs dispatchUs => d.dispatch nowUs dispatchUs
  | .used finishUs => d.used finishUs
  | .leave i => some (d.leave i)
  | .deviceTake => some d.deviceTake
  | .deviceReturn head => some (d.deviceReturn head)

end Disk

end F7ly.Fs.Virtio
