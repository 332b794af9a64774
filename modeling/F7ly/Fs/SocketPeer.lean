import Mathlib.Logic.Function.Basic

/-!
# The two ends of a local stream

`send`, `recv`, `shutdown` and the destructor of `socket_file`
(`kernel/fs/vfs/file/socket_file.cc`) on a connected pair, as far as they follow
pointers from one end to the other. The ends are `false` and `true`, and
`_peer` of an end is null or the other end, so a flag says which.

A section under a lock is two steps, taking the lock and leaving it; what the
section does happens with the second. Taking or leaving the lock of an end
follows a pointer to it. Of the buffers only the lengths are kept. A task that
sleeps in a section leaves it and takes the lock again when it is woken, which
may be at any time.

System calls hold no reference on the file, so an end may be destroyed at any
time, once. No call begins on an end that is being closed.
-/

namespace F7ly.Fs.SocketPeer

def recvBufferMaxBytes : Nat := 512 * 1024
def sendBufferSize : Nat := 64 * 1024

structure End where
  /-- `_state` is CLOSED and not CONNECTED. -/
  closed : Bool
  readShutdown : Bool
  writeShutdown : Bool
  peerClosed : Bool
  peerWriteShutdown : Bool
  /-- `_peer` is not null. -/
  peer : Bool
  sendLen : Nat
  recvLen : Nat
  lock : Option Nat
  /-- The last descriptor has been closed. -/
  closing : Bool
  /-- The destructor has finished. -/
  destroyed : Bool
  deriving DecidableEq

def End.connected : End :=
  ⟨false, false, false, false, false, true, 0, 0, none, false, false⟩

/-- `stream_write_open_locked`. -/
def End.writeOpen (x : End) : Bool := !x.writeShutdown && !x.peerClosed && x.peer

/-- `stream_receive_open_locked`. -/
def End.receiveOpen (x : End) : Bool := !x.readShutdown && !x.closed

/-- `stream_read_eof_locked`. -/
def End.readEof (x : End) : Bool := x.readShutdown || x.peerWriteShutdown || x.peerClosed

inductive How where
  | rd
  | wr
  | rdwr
  deriving DecidableEq

structure Request where
  len : Nat
  more : Bool
  nonblocking : Bool
  deriving DecidableEq

/-- Where a task is in a call. `e` is the end the call was made on, `x` the end
whose lock is next; the stages named `Held` are inside a section. -/
inductive Stage where
  | idle
  | sendStart (e : Bool) (r : Request)
  | sendHeld (e : Bool) (r : Request)
  | sendProbe (e : Bool) (total : Nat)
  | sendProbeHeld (e : Bool) (total : Nat)
  | sendClear (e : Bool) (total : Nat) (nonblocking : Bool)
  | sendClearHeld (e : Bool) (total : Nat) (nonblocking : Bool)
  | sendQueue (x : Bool) (left : Nat) (nonblocking : Bool)
  | sendQueueHeld (x : Bool) (left : Nat) (nonblocking : Bool)
  | recvStart (e : Bool) (len : Nat) (peek woken : Bool)
  | recvHeld (e : Bool) (len : Nat) (peek woken : Bool)
  | shutStart (e : Bool) (how : How)
  | shutHeld (e : Bool) (how : How)
  | shutPeer (x : Bool)
  | shutPeerHeld (x : Bool)
  | dtorStart (e : Bool)
  | dtorHeld (e : Bool)
  | dtorCheck (e : Bool)
  | dtorPeer (e : Bool)
  | dtorPeerHeld (e : Bool)
  | dtorPeerMarked (e : Bool)
  | dtorEnd (e : Bool)
  deriving DecidableEq

structure System where
  ends : Bool → End
  stages : Nat → Stage
  /-- A pointer was followed that is null or leads to a destroyed end. -/
  fault : Bool

def System.boot : System := ⟨fun _ => .connected, fun _ => .idle, false⟩

def System.go (s : System) (t : Nat) (next : Stage) : System :=
  { s with stages := Function.update s.stages t next }

def System.setEnd (s : System) (x : Bool) (f : End → End) : System :=
  { s with ends := Function.update s.ends x (f (s.ends x)) }

def System.crash (s : System) : System := { s with fault := true }

/-- Takes the lock of an end; a task spins while it is held. -/
def System.enter (s : System) (t : Nat) (x : Bool) (next : Stage) : System :=
  if (s.ends x).destroyed then s.crash
  else if (s.ends x).lock.isSome then s
  else (s.setEnd x fun end_ => { end_ with lock := some t }).go t next

/-- Does the work of a section and leaves it. -/
def System.leave (s : System) (t : Nat) (x : Bool) (f : End → End) (next : Stage) : System :=
  if (s.ends x).destroyed then s.crash
  else (s.setEnd x fun end_ => { f end_ with lock := none }).go t next

/-- The first section of `send`. -/
def System.sendFirst (s : System) (t : Nat) (e : Bool) (r : Request) : System :=
  let x := s.ends e
  if x.closed then s.leave t e id .idle
  else if !x.writeOpen then s.leave t e id .idle
  else if r.more then
    s.leave t e (fun x =>
      if sendBufferSize < x.sendLen + r.len then x
      else { x with sendLen := x.sendLen + r.len }) .idle
  else if x.sendLen = 0 then s.leave t e id (.sendQueue (!e) r.len r.nonblocking)
  else if r.nonblocking then s.leave t e id (.sendProbe e (x.sendLen + r.len))
  else s.leave t e id (.sendClear e (x.sendLen + r.len) false)

/-- The section in which a flush that may not wait looks for room. -/
def System.sendProbed (s : System) (t : Nat) (e : Bool) (total : Nat) : System :=
  let p := s.ends (!e)
  if !p.receiveOpen then s.leave t (!e) id .idle
  else if p.recvLen ≤ recvBufferMaxBytes ∧ total ≤ recvBufferMaxBytes - p.recvLen then
    s.leave t (!e) id (.sendClear e total true)
  else s.leave t (!e) id .idle

/-- One round of `enqueue_stream_data_to_peer`. -/
def System.sendQueued (s : System) (t : Nat) (x : Bool) (left : Nat) (nonblocking : Bool) :
    System :=
  let p := s.ends x
  if recvBufferMaxBytes ≤ p.recvLen ∧ p.receiveOpen then
    if nonblocking then s.leave t x id .idle
    else s.leave t x id (.sendQueue x left nonblocking)
  else if !p.receiveOpen then s.leave t x id .idle
  else
    let chunk := min left (recvBufferMaxBytes - p.recvLen)
    s.leave t x (fun p => { p with recvLen := p.recvLen + chunk })
      (if nonblocking ∨ left ≤ chunk then .idle else .sendQueue x (left - chunk) nonblocking)

/-- The section of `recv`; without data the task gives up or sleeps. `_state` is
tested on entry only, not by a task that has been woken. -/
def System.recvd (s : System) (t : Nat) (e : Bool) (len : Nat) (peek woken giveUp : Bool) :
    System :=
  let x := s.ends e
  if !woken && x.closed then s.leave t e id .idle
  else if x.recvLen = 0 ∧ !x.readEof then
    s.leave t e id (if giveUp then .idle else .recvStart e len peek true)
  else s.leave t e (fun x => if peek then x else { x with recvLen := x.recvLen - len }) .idle

/-- The first section of `shutdown`. -/
def System.shut (s : System) (t : Nat) (e : Bool) (how : How) : System :=
  let x := s.ends e
  if x.closed then s.leave t e id .idle
  else
    let next := if x.peer then .shutPeer (!e) else .idle
    match how with
    | .rd => s.leave t e (fun x => { x with readShutdown := true, recvLen := 0 }) .idle
    | .wr => s.leave t e (fun x => { x with writeShutdown := true, sendLen := 0 }) next
    | .rdwr =>
        s.leave t e (fun x => { x with
          readShutdown := true
          writeShutdown := true
          recvLen := 0
          sendLen := 0
          closed := true }) next

/-- `mark_stream_peer_closed_locked` on the other end, from the destructor of
`e`. -/
def System.markClosed (s : System) (t : Nat) (e : Bool) : System :=
  if !(s.ends e).peer then s.crash
  else if (s.ends (!e)).destroyed then s.crash
  else
    (s.setEnd (!e) fun p => { p with
      peer := false
      peerClosed := true
      peerWriteShutdown := true }).go t (.dtorPeerMarked e)

/-- The end of the destructor's work on the other end: its lock is released and
`_peer` is cleared. -/
def System.forgetPeer (s : System) (t : Nat) (e : Bool) : System :=
  if !(s.ends e).peer then s.crash
  else if (s.ends (!e)).destroyed then s.crash
  else
    ((s.setEnd (!e) fun p => { p with lock := none }).setEnd e fun x =>
      { x with peer := false }).go t (.dtorEnd e)

/-- The next step of a task. The choice is whether a receiver without data gives
up. -/
def System.run (s : System) (t : Nat) (choice : Bool) : System :=
  match s.stages t with
  | .idle => s
  | .sendStart e r => s.enter t e (.sendHeld e r)
  | .sendHeld e r => s.sendFirst t e r
  | .sendProbe e total => s.enter t (!e) (.sendProbeHeld e total)
  | .sendProbeHeld e total => s.sendProbed t e total
  | .sendClear e total nonblocking => s.enter t e (.sendClearHeld e total nonblocking)
  | .sendClearHeld e total nonblocking =>
      s.leave t e (fun x => { x with sendLen := 0 }) (.sendQueue (!e) total nonblocking)
  | .sendQueue x left nonblocking => s.enter t x (.sendQueueHeld x left nonblocking)
  | .sendQueueHeld x left nonblocking => s.sendQueued t x left nonblocking
  | .recvStart e len peek woken => s.enter t e (.recvHeld e len peek woken)
  | .recvHeld e len peek woken => s.recvd t e len peek woken choice
  | .shutStart e how => s.enter t e (.shutHeld e how)
  | .shutHeld e how => s.shut t e how
  | .shutPeer x => s.enter t x (.shutPeerHeld x)
  | .shutPeerHeld x => s.leave t x (fun p => { p with peerWriteShutdown := true }) .idle
  | .dtorStart e => s.enter t e (.dtorHeld e)
  | .dtorHeld e => s.leave t e (fun x => { x with closed := true, sendLen := 0 }) (.dtorCheck e)
  | .dtorCheck e => s.go t (if (s.ends e).peer then .dtorPeer e else .dtorEnd e)
  | .dtorPeer e =>
      if (s.ends e).peer then s.enter t (!e) (.dtorPeerHeld e) else s.crash
  | .dtorPeerHeld e => s.markClosed t e
  | .dtorPeerMarked e => s.forgetPeer t e
  | .dtorEnd e => (s.setEnd e fun x => { x with destroyed := true }).go t .idle

inductive Call where
  | send (e : Bool) (r : Request)
  | recv (e : Bool) (len : Nat) (peek : Bool)
  | shutdown (e : Bool) (how : How)
  | close (e : Bool)

def Call.target : Call → Bool
  | .send e _ | .recv e _ _ | .shutdown e _ | .close e => e

/-- Where a call starts; one that asks for no bytes returns before it takes a
lock. -/
def Call.start : Call → Stage
  | .send e r => if r.len = 0 then .idle else .sendStart e r
  | .recv e len peek => if len = 0 then .idle else .recvStart e len peek false
  | .shutdown e how => .shutStart e how
  | .close e => .dtorStart e

def Call.isClose : Call → Bool
  | .close _ => true
  | _ => false

inductive Op where
  | call (t : Nat) (c : Call)
  | run (t : Nat) (choice : Bool)

def System.step (s : System) : Op → System
  | .call t c =>
      if s.stages t = .idle ∧ !(s.ends c.target).closing then
        (if c.isClose then s.setEnd c.target fun x => { x with closing := true } else s).go t
          c.start
      else s
  | .run t choice => s.run t choice

end F7ly.Fs.SocketPeer
