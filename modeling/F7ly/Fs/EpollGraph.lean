import Mathlib
import F7ly.Fs.Epoll

/-!
# Epoll files that watch epoll files

A watch holds a reference to the file it watches, so an epoll file lives as
long as a descriptor or another epoll file's watch refers to it, and its
destructor gives back the references of its own watches. `sys_epoll_ctl`
therefore refuses an addition that would close a cycle or nest too deep. Both
checks walk down from the new target, and they walk through descriptors: a
watch is followed only if the calling process still has its descriptor number
open and on the same file.

The state is the open files of the kernel, by identity, and the descriptors of
all processes. A freed file keeps its place with no references and no watches.
A process is its descriptor table; threads that share the table are one
process here. A call is one step, although `sys_epoll_ctl` holds no lock from
its checks to `add_watch`, so that two additions at once could each pass the
checks of the state before the other.
-/

namespace F7ly.Fs.Epoll

/-- What `is_epoll_supported_target` tells apart: epoll files, other files
that can be watched (pipes, sockets, devices) and the rest. -/
inductive Kind where
  | epoll
  | watchable
  | plain
  deriving DecidableEq

structure OpenFile where
  kind : Kind
  refcnt : Nat
  epoll : EpollFile
  deriving DecidableEq

/-- Descriptor `fd` of process `pid`. -/
structure Descriptor where
  pid : Nat
  fd : Nat
  file : Nat
  deriving DecidableEq

structure Files where
  files : List OpenFile
  fds : List Descriptor
  deriving DecidableEq

/-- `get_open_file_ref`, without the reference it takes: the caller gives it
back before it returns. -/
def Files.openFile (s : Files) (pid fd : Nat) : Option Nat :=
  (s.fds.find? fun d => d.pid = pid ∧ d.fd = fd).map (·.file)

def Files.kindOf (s : Files) (i : Nat) : Kind :=
  match s.files[i]? with
  | some f => f.kind
  | none => .plain

def Files.epollOf (s : Files) (i : Nat) : EpollFile :=
  match s.files[i]? with
  | some f => f.epoll
  | none => ⟨[], 0⟩

def OpenFile.put (f : OpenFile) : OpenFile := { f with refcnt := f.refcnt - 1 }

def OpenFile.destroyed (f : OpenFile) : OpenFile :=
  { f with refcnt := 0, epoll := ⟨[], 0⟩ }

/-- `free_file` of the files in the list, one after the other: a reference
goes, and with the last one the file, whose destructor does the same for the
targets of its watches. The first argument bounds the number of references
given back. -/
def release : Nat → List Nat → List OpenFile → List OpenFile
  | 0, _, files => files
  | _ + 1, [], files => files
  | n + 1, i :: pending, files =>
      match files[i]? with
      | none => files
      | some f =>
          if f.refcnt = 1 then
            release n (f.epoll.watchList.map (·.target) ++ pending)
              (files.set i f.destroyed)
          else release n pending (files.set i f.put)

def watchRefs (files : List OpenFile) : Nat :=
  (files.map fun f => f.epoll.watchList.length).sum

def Files.freeFile (s : Files) (i : Nat) : Files :=
  { s with files := release (watchRefs s.files + 1) [i] s.files }

def Files.dup (s : Files) (i : Nat) : Files :=
  { s with files := s.files.modify i fun f => { f with refcnt := f.refcnt + 1 } }

def Files.setEpoll (s : Files) (i : Nat) (e : EpollFile) : Files :=
  { s with files := s.files.modify i fun f => { f with epoll := e } }

/-! ## The checks of an addition

The source counts `depth` up and stops above 8; here the first argument is
the number of levels left, 9 at the call. -/

def Files.epollReachesTarget (s : Files) (pid : Nat) : Nat → Nat → Nat → Bool
  | 0, _, _ => false
  | levels + 1, start, target =>
      start = target ||
        (s.epollOf start).watchList.any fun w =>
          s.openFile pid w.fd = some w.target && s.kindOf w.target = .epoll &&
            s.epollReachesTarget pid levels w.target target

def Files.epollNestingDepth (s : Files) (pid : Nat) : Nat → Nat → Nat
  | 0, _ => 0
  | levels + 1, file =>
      if s.kindOf file = .epoll then
        1 + ((s.epollOf file).watchList.map fun w =>
          if s.openFile pid w.fd = some w.target then
            s.epollNestingDepth pid levels w.target
          else 0).foldl max 0
      else 0

/-- The two refusals of `EPOLL_CTL_ADD` with an epoll target. -/
def Files.addRefused (s : Files) (pid e t : Nat) : Option Errno :=
  if s.kindOf t = .epoll then
    if s.epollReachesTarget pid 9 t e then some .eloop
    else if 5 ≤ s.epollNestingDepth pid 9 t then some .einval
    else none
  else none

inductive CtlOp where
  | add
  | del
  | mod
  | unknown
  deriving DecidableEq

def Files.ctlAdd (s : Files) (pid e fd t : Nat) (events : Events) (data : Nat) :
    Except Errno Files :=
  match s.addRefused pid e t with
  | some err => .error err
  | none =>
      match (s.epollOf e).addWatch fd t events data with
      | .error err => .error err
      | .ok ep => .ok ((s.setEpoll e ep).dup t)

def Files.ctlMod (s : Files) (e fd t : Nat) (events : Events) (data : Nat) : Except Errno Files :=
  match (s.epollOf e).modWatch fd t events data with
  | .error err => .error err
  | .ok ep => .ok (s.setEpoll e ep)

def Files.ctlDel (s : Files) (e fd t : Nat) : Except Errno Files :=
  match (s.epollOf e).delWatch fd t with
  | .error err => .error err
  | .ok ep => .ok ((s.setEpoll e ep).freeFile t)

/-- `sys_epoll_ctl`; `event` is the user's event, if it can be copied in. -/
def Files.epollCtl (s : Files) (pid epfd : Nat) (op : CtlOp) (fd : Nat)
    (event : Option (Events × Nat)) : Except Errno Files :=
  match s.openFile pid epfd with
  | none => .error .ebadf
  | some e =>
      if s.kindOf e ≠ .epoll then .error .einval
      else
        match s.openFile pid fd with
        | none => .error .ebadf
        | some t =>
            if epfd = fd then .error .einval
            else if s.kindOf t = .plain then .error .eperm
            else
              match op, event with
              | .del, _ => s.ctlDel e fd t
              | _, none => .error .efault
              | .add, some (events, data) => s.ctlAdd pid e fd t events data
              | .mod, some (events, data) => s.ctlMod e fd t events data
              | .unknown, some _ => .error .einval

/-- A new file gets a descriptor; its constructor took the reference. -/
def Files.create (s : Files) (pid fd : Nat) (kind : Kind) : Files :=
  if s.openFile pid fd = none then
    ⟨s.files ++ [⟨kind, 1, ⟨[], 0⟩⟩], s.fds ++ [⟨pid, fd, s.files.length⟩]⟩
  else s

/-- `dup`, and a descriptor inherited by or passed to another process. -/
def Files.share (s : Files) (pid fd pid' fd' : Nat) : Files :=
  match s.openFile pid fd with
  | none => s
  | some i =>
      if s.openFile pid' fd' = none then
        let s := s.dup i
        { s with fds := s.fds ++ [⟨pid', fd', i⟩] }
      else s

def Files.close (s : Files) (pid fd : Nat) : Files :=
  match s.openFile pid fd with
  | none => s
  | some i =>
      let s := { s with fds := s.fds.eraseP fun d => d.pid = pid ∧ d.fd = fd }
      s.freeFile i

/-- `alloc_fd` picks a free descriptor, which one is the caller's affair here;
`dup3` onto an open descriptor and an exit are closes and shares. -/
inductive FileOp where
  | epollCreate (pid fd : Nat)
  | openOther (pid fd : Nat) (watchable : Bool)
  | epollCtl (pid epfd : Nat) (op : CtlOp) (fd : Nat) (event : Option (Events × Nat))
  | dup (pid fd fd' : Nat)
  | pass (pid fd pid' fd' : Nat)
  | close (pid fd : Nat)
  deriving DecidableEq

def Files.step (s : Files) : FileOp → Files
  | .epollCreate pid fd => s.create pid fd .epoll
  | .openOther pid fd watchable =>
      s.create pid fd (if watchable then .watchable else .plain)
  | .epollCtl pid epfd op fd event =>
      match s.epollCtl pid epfd op fd event with
      | .error _ => s
      | .ok s' => s'
  | .dup pid fd fd' => s.share pid fd pid fd'
  | .pass pid fd pid' fd' => s.share pid fd pid' fd'
  | .close pid fd => s.close pid fd

end F7ly.Fs.Epoll
