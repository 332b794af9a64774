import F7ly.Lib.Shuffle

/-!
# The bytes of a local stream

`send`, `recv` and `shutdown` of `socket_file`
(`kernel/fs/vfs/file/socket_file.cc`) on a connected pair, one direction: from
`_send_buffer` of the sending end, where data with MSG_MORE waits, to
`_recv_buffer` of the other. Any number of calls of `send` are under way at the
same time; each is in front of its next section under a lock. Sections are
atomic, and a call that has to sleep comes back to the same section.

The bytes carry the number of the call that brought them. The code has no such
number and nothing here reads it; it is there to say whose byte one is.
-/

namespace F7ly.Fs.LocalStream

open Shuffle

/-- `k_tcp_recv_buffer_max_bytes`. -/
def recvBufferMaxBytes : Nat := 512 * 1024

/-- `k_default_socket_buffer_size`. -/
def defaultSocketBufferSize : Nat := 64 * 1024

inductive Errno where
  | notconn
  | pipe
  | msgsize
  | again
  deriving DecidableEq

/-- Where a call of `send` stands. `pending` is its copy of what was waiting in
`_send_buffer`. -/
inductive Stage (β : Type) where
  | enter
  | probe (pending : List (Item β))
  | clear (pending : List (Item β))
  | enqueue (pending : List (Item β)) (queued : Nat)
  | returned (result : Except Errno Nat)

structure Send (β : Type) where
  data : List β
  /-- MSG_MORE. -/
  more : Bool
  nonblocking : Bool
  stage : Stage β

/-- A new call; nothing to send is sent at once. -/
def Send.begin {β : Type} (data : List β) (more nonblocking : Bool) : Send β :=
  ⟨data, more, nonblocking, if data = [] then .returned (.ok 0) else .enter⟩

/-- A call of `shutdown(SHUT_WR)`, or the destructor. -/
inductive Ending where
  | shutdown
  | close
  deriving DecidableEq

/-- The next section of such a call. -/
inductive EndStage where
  | own
  | peer
  | done
  deriving DecidableEq

structure Stream (β : Type) where
  sends : List (Send β)
  endings : List (Ending × EndStage)
  sendBuffer : List (Item β)
  writeShutdown : Bool
  /-- `_state` of the sending end is CLOSED. -/
  closed : Bool
  recvBuffer : List (Item β)
  /-- `_read_shutdown` of the receiving end. -/
  readShutdown : Bool
  peerWriteShutdown : Bool
  peerClosed : Bool
  /-- What `recv` has taken out of the buffer. -/
  received : List (Item β)

variable {β : Type}

def Stream.connected : Stream β := ⟨[], [], [], false, false, [], false, false, false, []⟩

/-- `stream_receive_open_locked`. -/
def Stream.receiveOpen (w : Stream β) : Bool := !w.readShutdown

/-- `stream_read_eof_locked`. -/
def Stream.readEof (w : Stream β) : Bool :=
  w.readShutdown || w.peerWriteShutdown || w.peerClosed

def Stream.setStage (w : Stream β) (k : Nat) (s : Stage β) : Stream β :=
  { w with sends := w.sends.modify k fun c => { c with stage := s } }

def Stream.ret (w : Stream β) (k : Nat) (result : Except Errno Nat) : Stream β :=
  w.setStage k (.returned result)

/-- The first section, with the lock of the sending end. -/
def Stream.enter (w : Stream β) (k : Nat) (c : Send β) : Stream β :=
  if w.closed then w.ret k (.error .notconn)
  else if w.writeShutdown then w.ret k (.error .pipe)
  else if c.more then
    -- append_pending_send_locked
    if w.sendBuffer.length + c.data.length > defaultSocketBufferSize then
      w.ret k (.error .msgsize)
    else { w with sendBuffer := w.sendBuffer ++ tag k c.data }.ret k (.ok c.data.length)
  else if w.sendBuffer ≠ [] then
    w.setStage k (if c.nonblocking then .probe w.sendBuffer else .clear w.sendBuffer)
  else w.setStage k (.enqueue [] 0)

/-- Room for a flush that must not block, with the lock of the other end. -/
def Stream.probe (w : Stream β) (k : Nat) (c : Send β) (pending : List (Item β)) : Stream β :=
  if !w.receiveOpen then w.ret k (.error .pipe)
  else if w.recvBuffer.length ≤ recvBufferMaxBytes ∧
      pending.length + c.data.length ≤ recvBufferMaxBytes - w.recvBuffer.length then
    w.setStage k (.clear pending)
  else w.ret k (.error .again)

def Stream.clear (w : Stream β) (k : Nat) (pending : List (Item β)) : Stream β :=
  { w with sendBuffer := [] }.setStage k (.enqueue pending 0)

/-- What `send` makes of the result of `enqueue_stream_data_to_peer`. -/
def sendResult (pending : List (Item β)) (len : Nat) : Except Errno Nat → Except Errno Nat
  | .error e => .error e
  | .ok queued =>
      if pending = [] then .ok queued
      else if queued ≥ pending.length + len then .ok len
      else if queued > pending.length then .ok (queued - pending.length)
      else .error .pipe

/-- What `enqueue_stream_data_to_peer` returns if it cannot go on. -/
def queuedOr (queued : Nat) (e : Errno) : Except Errno Nat :=
  if queued > 0 then .ok queued else .error e

/-- One round of `enqueue_stream_data_to_peer`, with the lock of the other
end. -/
def Stream.enqueue (w : Stream β) (k : Nat) (c : Send β) (pending : List (Item β))
    (queued : Nat) : Stream β :=
  let all := pending ++ tag k c.data
  let ret r (w : Stream β) := w.ret k (sendResult pending c.data.length r)
  if w.recvBuffer.length ≥ recvBufferMaxBytes ∧ w.receiveOpen then
    if c.nonblocking then ret (queuedOr queued .again) w else w
  else if !w.receiveOpen then ret (queuedOr queued .pipe) w
  else
    let chunk := min (all.length - queued) (recvBufferMaxBytes - w.recvBuffer.length)
    let w := { w with recvBuffer := w.recvBuffer ++ (all.drop queued).take chunk }
    if c.nonblocking ∨ queued + chunk ≥ all.length then ret (.ok (queued + chunk)) w
    else w.setStage k (.enqueue pending (queued + chunk))

def Stream.runSend (w : Stream β) (k : Nat) (c : Send β) : Stream β :=
  match c.stage with
  | .enter => w.enter k c
  | .probe pending => w.probe k c pending
  | .clear pending => w.clear k pending
  | .enqueue pending queued => w.enqueue k c pending queued
  | .returned _ => w

/-- `recv` once it does not sleep any more. -/
def Stream.recv (w : Stream β) (len : Nat) (peek : Bool) : Stream β :=
  if peek then w
  else
    { w with
      received := w.received ++ w.recvBuffer.take len
      recvBuffer := w.recvBuffer.drop len }

/-- The first section of a call that ends the stream. -/
def Stream.endOwn (w : Stream β) (i : Nat) (e : Ending) : Stream β :=
  match e with
  | .shutdown =>
      -- ENOTCONN
      if w.closed then { w with endings := w.endings.set i (e, .done) }
      else
        { w with
          writeShutdown := true
          sendBuffer := []
          endings := w.endings.set i (e, .peer) }
  | .close =>
      { w with closed := true, sendBuffer := [], endings := w.endings.set i (e, .peer) }

/-- The second section: the other end is told. -/
def Stream.endPeer (w : Stream β) (i : Nat) (e : Ending) : Stream β :=
  { w with
    -- mark_stream_peer_write_shutdown_locked or mark_stream_peer_closed_locked
    peerWriteShutdown := true
    peerClosed := w.peerClosed || e = .close
    endings := w.endings.set i (e, .done) }

inductive Op (β : Type) where
  | send (data : List β) (more nonblocking : Bool)
  | runSend (k : Nat)
  | recv (len : Nat) (peek : Bool)
  | ending (e : Ending)
  | runEnding (i : Nat)

def Stream.step (w : Stream β) : Op β → Stream β
  | .send data more nonblocking =>
      { w with sends := w.sends ++ [.begin data more nonblocking] }
  | .runSend k =>
      match w.sends[k]? with
      | some c => w.runSend k c
      | none => w
  | .recv len peek => w.recv len peek
  | .ending e => { w with endings := w.endings ++ [(e, .own)] }
  | .runEnding i =>
      match w.endings[i]? with
      | some (e, .own) => w.endOwn i e
      | some (e, .peer) => w.endPeer i e
      | _ => w

end F7ly.Fs.LocalStream
