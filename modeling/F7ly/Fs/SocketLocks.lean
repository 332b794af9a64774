import Mathlib.Logic.Function.Basic

/-!
# The locks of socket connect

`bind`, `listen`, `accept` and `connect` of local stream sockets
(`kernel/fs/vfs/file/socket_file.cc`), as far as they take locks: every socket
has one, each of the two tables of bound addresses (loopback ports and AF_UNIX
names) has one, and the list of all sockets has one that the constructor takes.
`connect` holds its own lock while it takes the table's, and both while it takes
the lock of the socket it finds under the address.

A call is a sequence of stages. A stage that wants a lock takes it as soon as it
is free and spins until then; the stages named `Held` do the work of a section
and give locks back. `holds` says for every stage which locks its task has. What
the code cannot know is a choice: whether a step that may fail succeeds, whether
a task that has to wait goes to sleep or gives up, and which free port is drawn.
Names are numbers here like ports, and port 0 asks for one.
-/

namespace F7ly.Fs.SocketLocks

inductive Family where
  | inet
  | unix
  deriving DecidableEq

/-- A socket. -/
structure Ref where
  family : Family
  id : Nat
  deriving DecidableEq

inductive Lock where
  | sock (x : Ref)
  | table (f : Family)
  | registry
  deriving DecidableEq

inductive SocketState where
  | created
  | bound
  | listening
  | connected
  deriving DecidableEq

structure Socket where
  state : SocketState
  /-- `_loopback_registered`. -/
  registered : Bool
  backlog : Nat
  pending : List Nat
  deriving DecidableEq

/-- `k_loopback_somaxconn`. -/
def somaxconn : Nat := 4096

def Socket.fresh : Socket := ⟨.created, false, 0, []⟩

inductive Stage where
  | idle
  | bindEnter (x : Ref) (port : Nat)
  | bindHeld (x : Ref) (port : Nat)
  | bindAlloc (x : Ref)
  | bindAllocHeld (x : Ref)
  | bindRegister (x : Ref) (port : Nat)
  | bindRegisterHeld (x : Ref) (port : Nat)
  | bindFinish (x : Ref) (port : Nat)
  | bindUndo (x : Ref) (port : Nat)
  | bindUndoHeld (x : Ref) (port : Nat)
  | unixRegister (x : Ref) (name : Nat)
  | unixRegisterHeld (x : Ref) (name : Nat)
  | unixSet (x : Ref) (name : Nat)
  | unixSetHeld (x : Ref) (name : Nat)
  | unixUndo (x : Ref) (name : Nat)
  | unixUndoHeld (x : Ref) (name : Nat)
  | listenEnter (x : Ref) (backlog : Nat)
  | listenHeld (x : Ref) (backlog : Nat)
  | listenBind (x : Ref) (backlog : Nat)
  | listenBindHeld (x : Ref) (backlog : Nat)
  | acceptEnter (x : Ref)
  | acceptHeld (x : Ref)
  | connectEnter (x : Ref) (port : Nat)
  | connectHeld (x : Ref) (port : Nat)
  | connectBind (x : Ref) (port : Nat)
  | connectBindHeld (x : Ref) (port : Nat)
  | connectTable (x : Ref) (port : Nat)
  | connectTableHeld (x : Ref) (port : Nat)
  | connectListener (x : Ref) (port : Nat) (l : Ref)
  | connectListenerHeld (x : Ref) (port : Nat) (l : Ref)
  | connectNew (x l : Ref)
  | connectNewHeld (x l : Ref)
  | connectRetry (x : Ref) (port : Nat)
  | connectAwake (x : Ref) (port : Nat)
  | connectAwakeHeld (x : Ref) (port : Nat)
  deriving DecidableEq

/-- The lock a stage takes, and the stage after that. -/
def Stage.wants : Stage → Option (Lock × Stage)
  | .bindEnter x port => some (.sock x, .bindHeld x port)
  | .bindAlloc x => some (.table x.family, .bindAllocHeld x)
  | .bindRegister x port => some (.table x.family, .bindRegisterHeld x port)
  | .bindUndo x port => some (.table x.family, .bindUndoHeld x port)
  | .unixRegister x name => some (.table x.family, .unixRegisterHeld x name)
  | .unixSet x name => some (.sock x, .unixSetHeld x name)
  | .unixUndo x name => some (.table x.family, .unixUndoHeld x name)
  | .listenEnter x backlog => some (.sock x, .listenHeld x backlog)
  | .listenBind x backlog => some (.table x.family, .listenBindHeld x backlog)
  | .acceptEnter x => some (.sock x, .acceptHeld x)
  | .connectEnter x port => some (.sock x, .connectHeld x port)
  | .connectBind x port => some (.table x.family, .connectBindHeld x port)
  | .connectTable x port => some (.table x.family, .connectTableHeld x port)
  | .connectListener x port l => some (.sock l, .connectListenerHeld x port l)
  | .connectNew x l => some (.registry, .connectNewHeld x l)
  | .connectAwake x port => some (.sock x, .connectAwakeHeld x port)
  | _ => none

def Stage.holds : Stage → List Lock
  | .idle | .bindEnter _ _ | .unixRegister _ _ | .unixSet _ _ | .unixUndo _ _
  | .listenEnter _ _ | .acceptEnter _ | .connectEnter _ _ | .connectAwake _ _ => []
  | .bindHeld x _ | .bindAlloc x | .bindRegister x _ | .bindFinish x _ | .bindUndo x _
  | .unixSetHeld x _ | .listenHeld x _ | .listenBind x _ | .acceptHeld x | .connectHeld x _
  | .connectBind x _ | .connectTable x _ | .connectRetry x _ | .connectAwakeHeld x _ =>
      [.sock x]
  | .unixRegisterHeld x _ | .unixUndoHeld x _ => [.table x.family]
  | .bindAllocHeld x | .bindRegisterHeld x _ | .bindUndoHeld x _ | .listenBindHeld x _
  | .connectBindHeld x _ | .connectTableHeld x _ | .connectListener x _ _ =>
      [.sock x, .table x.family]
  | .connectListenerHeld x _ l | .connectNew x l => [.sock x, .table x.family, .sock l]
  | .connectNewHeld x l => [.sock x, .table x.family, .sock l, .registry]

structure World where
  sockets : Ref → Socket
  /-- The sockets of a family that exist are those below. -/
  count : Family → Nat
  /-- `g_loopback_bindings` for TCP and the table of AF_UNIX names. -/
  binding : Family → Nat → Option Nat
  owner : Lock → Option Nat
  stages : Nat → Stage

def World.boot : World :=
  ⟨fun _ => .fresh, fun _ => 0, fun _ _ => none, fun _ => none, fun _ => .idle⟩

structure Choice where
  ok : Bool
  port : Nat

def World.setSocket (w : World) (x : Ref) (f : Socket → Socket) : World :=
  { w with sockets := Function.update w.sockets x (f (w.sockets x)) }

def World.bindTo (w : World) (f : Family) (port : Nat) (owner : Option Nat) : World :=
  { w with binding := Function.update w.binding f (Function.update (w.binding f) port owner) }

/-- Takes the lock a stage wants, if it is free. -/
def World.acquire (w : World) (t : Nat) (l : Lock) (next : Stage) : World :=
  if (w.owner l).isSome then w
  else
    { w with
      owner := Function.update w.owner l (some t)
      stages := Function.update w.stages t next }

/-- Goes on to a stage and gives back the locks it does not have. -/
def World.goto (w : World) (t : Nat) (next : Stage) : World :=
  { w with
    owner := fun l => if l ∈ (w.stages t).holds ∧ l ∉ next.holds then none else w.owner l
    stages := Function.update w.stages t next }

/-- Whether an address can be registered; `ok` is false if the table is full. -/
def World.free (w : World) (f : Family) (port : Nat) (ok : Bool) : Bool :=
  ok && (w.binding f port).isNone

/-- `ensure_loopback_bound_locked` with the table's lock. -/
def World.autoBind (w : World) (t : Nat) (x : Ref) (c : Choice) (next : Stage) : World :=
  if c.port = 0 ∨ !w.free x.family c.port c.ok then w.goto t .idle
  else
    ((w.bindTo x.family c.port (some x.id)).setSocket x fun s =>
      { s with state := .bound, registered := true }).goto t next

/-- A connection attempt that found no listener: loopback waits for one. -/
def Stage.refused (x : Ref) (port : Nat) : Stage :=
  match x.family with
  | .inet => .connectRetry x port
  | .unix => .idle

/-- `connect` from the check of its state on. -/
def World.connectOn (w : World) (x : Ref) (port : Nat) : Stage :=
  let s := w.sockets x
  if s.state ≠ .created ∧ s.state ≠ .bound then .idle
  else if x.family = .inet ∧ s.state = .created ∧ !s.registered then .connectBind x port
  else .connectTable x port

def World.serverSide (w : World) (f : Family) : World :=
  { w with
    sockets := Function.update w.sockets ⟨f, w.count f⟩ { Socket.fresh with state := .connected }
    count := Function.update w.count f (w.count f + 1) }

/-- Joins the two ends and puts the new one before the listener. -/
def World.join (w : World) (x l : Ref) : World :=
  ((w.serverSide x.family).setSocket x fun s => { s with state := .connected }).setSocket l
    fun s => { s with pending := s.pending ++ [w.count x.family] }

def World.work (w : World) (t : Nat) (c : Choice) : World :=
  match w.stages t with
  | .bindHeld x port =>
      if (w.sockets x).state ≠ .created ∨ !c.ok then w.goto t .idle
      else
        match x.family with
        | .inet => w.goto t (if port = 0 then .bindAlloc x else .bindRegister x port)
        | .unix => w.goto t (.unixRegister x port)
  | .bindAllocHeld x => w.goto t (if c.port = 0 then .idle else .bindRegister x c.port)
  | .bindRegisterHeld x port =>
      if w.free x.family port c.ok then
        ((w.bindTo x.family port (some x.id)).setSocket x fun s =>
          { s with registered := true }).goto t (.bindFinish x port)
      else w.goto t .idle
  | .bindFinish x port =>
      -- the address may have to be bound in the network stack too
      if c.ok then (w.setSocket x fun s => { s with state := .bound }).goto t .idle
      else w.goto t (.bindUndo x port)
  | .bindUndoHeld x port =>
      ((w.bindTo x.family port none).setSocket x fun s =>
        { s with registered := false }).goto t .idle
  | .unixRegisterHeld x name =>
      if w.free x.family name c.ok then
        (w.bindTo x.family name (some x.id)).goto t (.unixSet x name)
      else w.goto t .idle
  | .unixSetHeld x name =>
      if (w.sockets x).state ≠ .created then w.goto t (.unixUndo x name)
      else (w.setSocket x fun s => { s with state := .bound }).goto t .idle
  | .unixUndoHeld x name => (w.bindTo x.family name none).goto t .idle
  | .listenHeld x backlog =>
      match (w.sockets x).state with
      | .created =>
          w.goto t (if x.family = .inet ∧ !(w.sockets x).registered then .listenBind x backlog
            else .idle)
      | .bound =>
          if c.ok then
            (w.setSocket x fun s =>
              { s with state := .listening, backlog := min (max backlog 1) somaxconn }).goto t .idle
          else w.goto t .idle
      | _ => w.goto t .idle
  | .listenBindHeld x backlog => w.autoBind t x c (.listenHeld x backlog)
  | .acceptHeld x =>
      if (w.sockets x).state ≠ .listening then w.goto t .idle
      else if (w.sockets x).pending = [] then w.goto t (if c.ok then .acceptEnter x else .idle)
      else (w.setSocket x fun s => { s with pending := s.pending.tail }).goto t .idle
  | .connectHeld x port => w.goto t (w.connectOn x port)
  | .connectBindHeld x port => w.autoBind t x c (.connectTable x port)
  | .connectTableHeld x port =>
      match w.binding x.family port with
      | none => w.goto t (.refused x port)
      | some l => w.goto t (.connectListener x port ⟨x.family, l⟩)
  | .connectListenerHeld x port l =>
      let s := w.sockets l
      if s.state = .listening ∧ s.pending.length < s.backlog then w.goto t (.connectNew x l)
      else w.goto t (.refused x port)
  | .connectNewHeld x l => if c.ok then (w.join x l).goto t .idle else w.goto t .idle
  | .connectRetry x port => w.goto t (if c.ok then .connectAwake x port else .idle)
  | .connectAwakeHeld x port =>
      let s := w.sockets x
      w.goto t (if s.state ≠ .created ∧ s.state ≠ .bound then .idle else .connectTable x port)
  | _ => w

inductive Call where
  | bind (x : Ref) (port : Nat)
  | listen (x : Ref) (backlog : Nat)
  | accept (x : Ref)
  | connect (x : Ref) (port : Nat)

def Call.target : Call → Ref
  | .bind x _ | .listen x _ | .accept x | .connect x _ => x

def Call.start : Call → Stage
  | .bind x port => .bindEnter x port
  | .listen x backlog => .listenEnter x backlog
  | .accept x => .acceptEnter x
  | .connect x port => .connectEnter x port

inductive Op where
  | socket (f : Family)
  | call (t : Nat) (c : Call)
  | run (t : Nat) (c : Choice)

def World.step (w : World) : Op → World
  | .socket f => { w with count := Function.update w.count f (w.count f + 1) }
  | .call t c =>
      if w.stages t = .idle ∧ c.target.id < w.count c.target.family then
        { w with stages := Function.update w.stages t c.start }
      else w
  | .run t c =>
      match (w.stages t).wants with
      | some (l, next) => w.acquire t l next
      | none => w.work t c

end F7ly.Fs.SocketLocks
