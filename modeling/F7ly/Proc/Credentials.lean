import Mathlib.Logic.Function.Basic

/-!
# User and group ids and capabilities

The calls of `kernel/sys/sysproc.cc` that change the ids of a process, `capset`
and `PR_CAP_AMBIENT` of `kernel/sys/syscall_handler.cc`, and
`CapabilityManager`. The user ids and the group ids obey the same rules in most
calls, with the effective user id deciding in both cases whether the caller is
privileged; `setreuid` and `setregid` have rules of their own.

Arguments are machine words, and −1 leaves an id as it is. A call returns its
value and the new credentials, or an error.
-/

namespace F7ly.Proc.Credentials

abbrev Id := BitVec 32

abbrev CapWords := Fin 2 → BitVec 32

inductive Errno where
  | einval
  | eperm
  | efault
  deriving DecidableEq

/-- Real, effective, saved and filesystem id. -/
structure Ids where
  real : Id
  effective : Id
  saved : Id
  fs : Id
  deriving DecidableEq

structure Cred where
  pid : Int
  tid : Int
  user : Ids
  group : Ids
  capEffective : CapWords
  capPermitted : CapWords
  capInheritable : CapWords
  capAmbient : CapWords

def noCaps : CapWords := fun _ => 0

/-- `CapabilityManager::init_root`, with the ids of the superuser. -/
def initRoot (pid : Int) : Cred :=
  let all : CapWords := fun i => if i = 0 then 0xffffffff else 0x1ff
  ⟨pid, pid, ⟨0, 0, 0, 0⟩, ⟨0, 0, 0, 0⟩, all, all, noCaps, noCaps⟩

/-- Real, effective or saved id: what an unprivileged caller may choose. -/
def Ids.has (ids : Ids) (id : Id) : Bool :=
  id = ids.real || id = ids.effective || id = ids.saved

/-- `setuid` and `setgid`. -/
def Ids.set (ids : Ids) (privileged : Bool) (raw : Id) : Except Errno Ids :=
  if raw.slt 0 then .error .einval
  else if privileged then .ok ⟨raw, raw, raw, raw⟩
  else if !ids.has raw then .error .eperm
  else .ok { ids with effective := raw, fs := raw }

/-- `setresuid` and `setresgid`. -/
def Ids.setRes (ids : Ids) (privileged : Bool) (real effective saved : Id) : Except Errno Ids :=
  if real.slt (-1) ∨ effective.slt (-1) ∨ saved.slt (-1) then .error .einval
  else if !privileged ∧ ((real ≠ -1 ∧ !ids.has real) ∨ (effective ≠ -1 ∧ !ids.has effective) ∨
      (saved ≠ -1 ∧ !ids.has saved)) then .error .eperm
  else
    .ok {
      real := if real ≠ -1 then real else ids.real
      effective := if effective ≠ -1 then effective else ids.effective
      saved := if saved ≠ -1 then saved else ids.saved
      fs := if effective ≠ -1 then effective else ids.fs }

/-- `setfsuid` and `setfsgid` do not fail. -/
def Ids.setFs (ids : Ids) (privileged : Bool) (raw : Id) : Ids :=
  if raw.slt 0 then ids
  else if privileged || ids.has raw then { ids with fs := raw }
  else ids

def Ids.setReuid (ids : Ids) (ruid euid : Id) : Except Errno Ids :=
  let newRuid := if ruid = -1 then ids.real else ruid
  let newEuid := if euid = -1 then ids.effective else euid
  if ruid.slt (-1) ∨ euid.slt (-1) then .error .einval
  else if ids.effective ≠ 0 ∧ ((ruid ≠ -1 ∧ !ids.has newRuid) ∨ (euid ≠ -1 ∧ !ids.has newEuid))
  then .error .eperm
  else
    .ok {
      real := newRuid
      effective := newEuid
      saved := if (ruid ≠ -1 ∧ newRuid ≠ ids.real) ∨ (euid ≠ -1 ∧ newEuid ≠ newRuid)
        then newEuid else ids.saved
      fs := newEuid }

/-- Unlike `setreuid`, the saved id does not count for the real one, and any
real id given renews the saved one. -/
def Ids.setRegid (ids : Ids) (privileged : Bool) (rgid egid : Id) : Except Errno Ids :=
  let newRgid := if rgid = -1 then ids.real else rgid
  let newEgid := if egid = -1 then ids.effective else egid
  if rgid.slt (-1) ∨ egid.slt (-1) then .error .einval
  else if rgid = -1 ∧ egid = -1 then .ok ids
  else if !privileged ∧ ((rgid ≠ -1 ∧ rgid ≠ ids.real ∧ rgid ≠ ids.effective) ∨
      (egid ≠ -1 ∧ !ids.has egid)) then .error .eperm
  else
    .ok {
      real := newRgid
      effective := newEgid
      saved := if rgid ≠ -1 ∨ (egid ≠ -1 ∧ newEgid ≠ ids.real) then newEgid else ids.saved
      fs := newEgid }

def Ids.rootIdentity (ids : Ids) : Bool :=
  ids.real = 0 || ids.effective = 0 || ids.saved = 0

def Cred.updateAfterUidChange (c : Cred) (old : Ids) : Cred :=
  if old.rootIdentity && !c.user.rootIdentity then
    { c with capPermitted := noCaps, capEffective := noCaps, capAmbient := noCaps }
  else if old.effective = 0 ∧ c.user.effective ≠ 0 then { c with capEffective := noCaps }
  else if old.effective ≠ 0 ∧ c.user.effective = 0 then
    { c with capEffective := c.capPermitted }
  else c

structure UserHeader where
  version : BitVec 32
  pid : Int

structure UserData where
  effective : BitVec 32
  permitted : BitVec 32
  inheritable : BitVec 32

def userDataWords (version : BitVec 32) : Nat :=
  if version = 0x19980330 then 1
  else if version = 0x20071026 ∨ version = 0x20080522 then 2
  else 0

/-- One round of the loop that checks the data of `capset`. -/
def Cred.capsetWord (c : Cred) (data : Fin 2 → UserData) (i : Fin 2) : Option Errno :=
  let d := data i
  if d.effective &&& ~~~d.permitted ≠ 0 then some .einval
  else if d.permitted &&& ~~~c.capPermitted i ≠ 0 then some .eperm
  else if d.inheritable &&& ~~~(c.capInheritable i ||| d.permitted) ≠ 0 then some .eperm
  else none

/-- The checks of `capset`; the header and the data are missing where they
cannot be read. -/
def Cred.capsetCheck (c : Cred) (header : Option UserHeader) (data : Option (Fin 2 → UserData)) :
    Except Errno (Nat × (Fin 2 → UserData)) :=
  match header with
  | none => .error .efault
  | some header =>
      let words := userDataWords header.version
      if words = 0 then .error .einval
      else if header.pid ≠ 0 ∧ header.pid ≠ c.pid ∧ header.pid ≠ c.tid then .error .eperm
      else
        match data with
        | none => .error .efault
        | some data =>
            match ((List.finRange 2).filter (·.val < words)).findSome? (c.capsetWord data) with
            | some e => .error e
            | none => .ok (words, data)

/-- The words taken from the data; the others are cleared. -/
def taken (words : Nat) (data : Fin 2 → UserData) (field : UserData → BitVec 32) : CapWords :=
  fun i => if i.val < words then field (data i) else 0

def Cred.install (c : Cred) (words : Nat) (data : Fin 2 → UserData) : Cred :=
  { c with
    capEffective := taken words data (·.effective)
    capPermitted := taken words data (·.permitted)
    capInheritable := taken words data (·.inheritable) }

abbrev Reply := Except Errno (BitVec 64 × Cred)

def Cred.setuid (c : Cred) (uid : Id) : Reply :=
  (c.user.set (c.user.effective = 0) uid).map fun user =>
    (0, { c with user := user }.updateAfterUidChange c.user)

def Cred.setgid (c : Cred) (gid : Id) : Reply :=
  (c.group.set (c.user.effective = 0) gid).map fun group => (0, { c with group := group })

def Cred.setreuid (c : Cred) (ruid euid : Id) : Reply :=
  (c.user.setReuid ruid euid).map fun user =>
    (0, { c with user := user }.updateAfterUidChange c.user)

def Cred.setregid (c : Cred) (rgid egid : Id) : Reply :=
  (c.group.setRegid (c.user.effective = 0) rgid egid).map fun group =>
    (0, { c with group := group })

def Cred.setresuid (c : Cred) (ruid euid suid : Id) : Reply :=
  (c.user.setRes (c.user.effective = 0) ruid euid suid).map fun user =>
    (0, { c with user := user }.updateAfterUidChange c.user)

def Cred.setresgid (c : Cred) (rgid egid sgid : Id) : Reply :=
  (c.group.setRes (c.user.effective = 0) rgid egid sgid).map fun group =>
    (0, { c with group := group })

def Cred.setfsuid (c : Cred) (fsuid : Id) : Reply :=
  .ok (c.user.fs.setWidth 64, { c with user := c.user.setFs (c.user.effective = 0) fsuid })

def Cred.setfsgid (c : Cred) (fsgid : Id) : Reply :=
  .ok (c.group.fs.setWidth 64, { c with group := c.group.setFs (c.user.effective = 0) fsgid })

def Cred.capset (c : Cred) (header : Option UserHeader) (data : Option (Fin 2 → UserData)) :
    Reply :=
  (c.capsetCheck header data).map fun (words, data) => (0, c.install words data)

def capabilityMax : BitVec 64 := 40

/-- `PR_CAP_AMBIENT`: is set (1), raise (2), lower (3), clear all (4). -/
def Cred.prCapAmbient (c : Cred) (arg2 arg3 arg4 arg5 : BitVec 64) : Reply :=
  if arg4 ≠ 0 ∨ arg5 ≠ 0 then .error .einval
  else if arg2 = 4 then
    if arg3 ≠ 0 then .error .einval else .ok (0, { c with capAmbient := noCaps })
  else if arg2 ≠ 1 ∧ arg2 ≠ 2 ∧ arg2 ≠ 3 then .error .einval
  else if capabilityMax < arg3 then .error .einval
  else
    let word := Fin.ofNat 2 (arg3.toNat / 32)
    let mask : BitVec 32 := 1 <<< (arg3.toNat % 32)
    if arg2 = 1 then .ok (if c.capAmbient word &&& mask ≠ 0 then 1 else 0, c)
    else if arg2 = 3 then
      .ok (0, { c with
        capAmbient := Function.update c.capAmbient word (c.capAmbient word &&& ~~~mask) })
    else if c.capPermitted word &&& mask = 0 ∨ c.capInheritable word &&& mask = 0 then
      .error .eperm
    else
      .ok (0, { c with
        capAmbient := Function.update c.capAmbient word (c.capAmbient word ||| mask) })

inductive Call where
  | setuid (uid : Id)
  | setgid (gid : Id)
  | setreuid (ruid euid : Id)
  | setregid (rgid egid : Id)
  | setresuid (ruid euid suid : Id)
  | setresgid (rgid egid sgid : Id)
  | setfsuid (fsuid : Id)
  | setfsgid (fsgid : Id)
  | capset (header : Option UserHeader) (data : Option (Fin 2 → UserData))
  | prCapAmbient (arg2 arg3 arg4 arg5 : BitVec 64)

def Cred.call (c : Cred) : Call → Reply
  | .setuid uid => c.setuid uid
  | .setgid gid => c.setgid gid
  | .setreuid ruid euid => c.setreuid ruid euid
  | .setregid rgid egid => c.setregid rgid egid
  | .setresuid ruid euid suid => c.setresuid ruid euid suid
  | .setresgid rgid egid sgid => c.setresgid rgid egid sgid
  | .setfsuid fsuid => c.setfsuid fsuid
  | .setfsgid fsgid => c.setfsgid fsgid
  | .capset header data => c.capset header data
  | .prCapAmbient arg2 arg3 arg4 arg5 => c.prCapAmbient arg2 arg3 arg4 arg5

def Cred.step (c : Cred) (call : Call) : Cred :=
  match c.call call with
  | .ok (_, c') => c'
  | .error _ => c

end F7ly.Proc.Credentials
