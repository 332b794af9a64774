import Mathlib.Logic.Function.Basic

/-!
# Epoll watches and the readiness scan

`epoll_file` keeps a list of watches, and `collect_epoll_ready_events` scans
it from a rotating cursor: it asks every target what it is ready for and puts
an event into the caller's array. No target tells the epoll file that it
became ready. An edge is reconstructed: `last_ready_events` is what the target
was ready for when a scan last looked, and an edge-triggered watch delivers
the bits that are ready now and were not ready then.

`epoll_wait` calls the scan until it finds something, so a wait is a sequence
of scans with anything in between. A scan holds the watch lock and reads each
target once; it is one step here. Which object a watched descriptor refers to
is a question about the calling process, so a scan is given its descriptor
table.
-/

namespace F7ly.Fs.Epoll

abbrev Events := BitVec 32

def epollIn : Events := 0x001#32

def epollPri : Events := 0x002#32

def epollOut : Events := 0x004#32

def epollRdhup : Events := 0x2000#32

def epollOneshot : Events := 0x40000000#32

def epollEt : Events := 0x80000000#32

inductive FileType where
  | pipe
  | socket
  | device
  deriving DecidableEq

/-- What a scan asks of an open file. `canWriteForEpollet` and
`canWriteWithoutBlocking` are the two answers of a pipe, for the write end;
the other kinds answer `writeReady`. -/
structure Target where
  filetype : FileType
  readReady : Bool
  writeReady : Bool
  canWriteForEpollet : Bool
  canWriteWithoutBlocking : Bool
  rdhupReady : Bool
  deriving DecidableEq

/-- `epoll_write_ready` of a pipe, `write_ready` of anything else. -/
def Target.epollWriteReady (t : Target) (watched : Events) : Bool :=
  if t.filetype = .pipe then
    if watched &&& epollEt ≠ 0 then t.canWriteForEpollet
    else t.canWriteWithoutBlocking
  else t.writeReady

def queryEpollReadyEvents (t : Target) (watched : Events) : Events :=
  let input :=
    if watched &&& (epollIn ||| epollPri) ≠ 0 ∧ t.readReady then
      (if watched &&& epollIn ≠ 0 then epollIn else 0) |||
        (if watched &&& epollPri ≠ 0 then epollPri else 0)
    else 0
  let output :=
    if watched &&& epollOut ≠ 0 ∧ t.epollWriteReady watched then epollOut else 0
  let hangup :=
    if watched &&& epollRdhup ≠ 0 ∧ t.filetype = .socket ∧ t.rdhupReady then
      epollRdhup
    else 0
  input ||| output ||| hangup

/-- `epoll_watch_entry`; `target` is the identity of the watched open file. -/
structure Watch where
  fd : Nat
  target : Nat
  events : Events
  data : Nat
  lastReadyEvents : Events
  oneshotDisabled : Bool
  deriving DecidableEq

structure EpollFile where
  watchList : List Watch
  scanCursor : Nat
  deriving DecidableEq

inductive Errno where
  | ebadf
  | einval
  | eperm
  | efault
  | eloop
  | eexist
  | enoent
  deriving DecidableEq

/-- The `find_if` of the three operations below. -/
def EpollFile.find (e : EpollFile) (fd target : Nat) : Option Nat :=
  e.watchList.findIdx? fun w => w.fd = fd ∧ w.target = target

def EpollFile.addWatch (e : EpollFile) (fd target : Nat) (events : Events)
    (data : Nat) : Except Errno EpollFile :=
  match e.find fd target with
  | some _ => .error .eexist
  | none =>
      .ok { e with watchList := e.watchList ++ [⟨fd, target, events, data, 0, false⟩] }

def Watch.rearm (w : Watch) (events : Events) (data : Nat) : Watch :=
  { w with
    events := events
    data := data
    lastReadyEvents := 0
    oneshotDisabled := false }

def EpollFile.modWatch (e : EpollFile) (fd target : Nat) (events : Events)
    (data : Nat) : Except Errno EpollFile :=
  match e.find fd target with
  | none => .error .enoent
  | some i =>
      .ok { e with watchList := e.watchList.modify i (·.rearm events data) }

def EpollFile.delWatch (e : EpollFile) (fd target : Nat) : Except Errno EpollFile :=
  match e.find fd target with
  | none => .error .enoent
  | some i => .ok { e with watchList := e.watchList.eraseIdx i }

/-- `KernelEpollEvent`. -/
structure Event where
  events : Events
  data : Nat
  deriving DecidableEq

/-- Descriptors of the calling process and the state of every open file. -/
structure View where
  openFile : Nat → Option Nat
  targets : Nat → Target

def Watch.edgeTriggered (w : Watch) : Bool := w.events &&& epollEt ≠ 0

def Watch.oneshot (w : Watch) : Bool := w.events &&& epollOneshot ≠ 0

/-- What a watch's target is ready for, of what is watched. -/
def Watch.ready (w : Watch) (targets : Nat → Target) : Events :=
  queryEpollReadyEvents (targets w.target) w.events

/-- One round of the scan on one watch: the bits to deliver, none for a watch
whose descriptor no longer names its target or that is disarmed, and the
watch afterwards if they are delivered. -/
def Watch.visit (v : View) (w : Watch) : Events × Watch :=
  if v.openFile w.fd ≠ some w.target ∨ w.oneshotDisabled then
    (0, { w with lastReadyEvents := 0 })
  else
    let currentReady := w.ready v.targets
    let deliverReady :=
      if w.edgeTriggered then currentReady &&& ~~~w.lastReadyEvents
      else currentReady
    (deliverReady,
      { w with
        lastReadyEvents := currentReady
        oneshotDisabled := w.oneshotDisabled || (deliverReady ≠ 0 && w.oneshot) })

/-- The variables of the scan. `events` is the caller's array, every event
with the position of the watch it is for; `ready_count` is its length. -/
structure Scan where
  watchList : List Watch
  events : List (Nat × Event)
  nextCursor : Nat
  deliveredAny : Bool

def Scan.put (c : Scan) (i : Nat) (w : Watch) : Scan :=
  { c with watchList := c.watchList.set i w }

/-- An event goes into the array and the cursor moves behind its watch. -/
def Scan.deliver (c : Scan) (i : Nat) (bits : Events) (w : Watch) : Scan :=
  { watchList := c.watchList.set i w
    events := c.events ++ [(i, ⟨bits, w.data⟩)]
    nextCursor := (i + 1) % c.watchList.length
    deliveredAny := true }

/-- The loop over the watches at the given positions. When the array is full
before an event is stored the watch keeps its history; when the event fills
the array the loop ends. -/
def Scan.run (v : View) (maxevents : Nat) : List Nat → Scan → Scan
  | [], c => c
  | i :: is, c =>
      match c.watchList[i]? with
      | none => c
      | some w =>
          let (bits, w') := w.visit v
          if bits = 0 then Scan.run v maxevents is (c.put i w')
          else if maxevents ≤ c.events.length then Scan.run v maxevents is c
          else
            let c := c.deliver i bits w'
            if c.events.length = maxevents then c else Scan.run v maxevents is c

def EpollFile.order (e : EpollFile) : List Nat :=
  let scanBegin := e.scanCursor % e.watchList.length
  (List.range e.watchList.length).map fun offset =>
    (scanBegin + offset) % e.watchList.length

def EpollFile.collectEpollReadyEvents (v : View) (maxevents : Nat)
    (e : EpollFile) : List (Nat × Event) × EpollFile :=
  if maxevents = 0 then ([], e)
  else if e.watchList.length = 0 then ([], { e with scanCursor := 0 })
  else
    let c := Scan.run v maxevents e.order
      ⟨e.watchList, [], e.scanCursor % e.watchList.length, false⟩
    (c.events, ⟨c.watchList, if c.deliveredAny then c.nextCursor else e.scanCursor⟩)

/-- One epoll file and the open files it watches. -/
structure System where
  epoll : EpollFile
  targets : Nat → Target

/-- A target's readiness changes, a process scans, or a process calls
`epoll_ctl` with `EPOLL_CTL_MOD`. -/
inductive Op where
  | change (target : Nat) (now : Target)
  | collect (openFile : Nat → Option Nat) (maxevents : Nat)
  | mod (fd target : Nat) (events : Events) (data : Nat)

/-- The events a step hands out and the state after it; a refused
modification changes nothing. -/
def System.step (s : System) : Op → List (Nat × Event) × System
  | .change t now => ([], { s with targets := Function.update s.targets t now })
  | .collect openFile maxevents =>
      let (events, epoll) :=
        s.epoll.collectEpollReadyEvents ⟨openFile, s.targets⟩ maxevents
      (events, { s with epoll := epoll })
  | .mod fd target events data =>
      match s.epoll.modWatch fd target events data with
      | .error _ => ([], s)
      | .ok epoll => ([], { s with epoll := epoll })

end F7ly.Fs.Epoll
