import Mathlib

/-!
# Address space identifiers

`kernel/proc/tlb_mm.cc`. An address space gets an ASID when it is created and
retires it when it is destroyed. A retired ASID may still have translations in
some TLB, so it is set aside until the allocator runs dry; the allocating CPU
then flushes every TLB, without the lock, and puts back the ASIDs that had
been retired before. `flush_all_cpus` is taken to do that: on RISC-V it is one
SBI call, but on LoongArch a `flush_mm_range` on another CPU may overwrite its
request before the target has read it.

The allocator's data and the sections it runs under its lock come first. Then
the system: any number of CPUs create and destroy address spaces, and one
event is what a CPU does in one locked section, or the start or the end of a
flush. The events are numbered, so that a flush and a retirement can be told
apart in time.
-/

namespace F7ly.Proc.Asid

def userAsidCount : Nat := 1024
def firstUserAsid : Nat := 1

structure Allocator where
  active : Nat → Bool
  retired : Nat → Bool
  retiredEpoch : Nat → Nat
  retirementEpoch : Nat
  reclaiming : Bool
  nextUserAsid : Nat

/-- `initialize_user_asid_allocator`. -/
def Allocator.init : Allocator :=
  { active := fun _ => false
    retired := fun _ => false
    retiredEpoch := fun _ => 0
    retirementEpoch := 0
    reclaiming := false
    nextUserAsid := firstUserAsid }

namespace Allocator

/-- The ASIDs in the order the search tries them. -/
def candidates (al : Allocator) : List Nat :=
  (List.range (userAsidCount - 1)).map fun offset =>
    firstUserAsid + (al.nextUserAsid - firstUserAsid + offset) % (userAsidCount - 1)

def isFree (al : Allocator) (asid : Nat) : Bool :=
  !(al.active asid || al.retired asid)

def findFree (al : Allocator) : Option Nat := al.candidates.find? al.isFree

def take (al : Allocator) (asid : Nat) : Allocator :=
  { al with
    active := fun a => if a = asid then true else al.active a
    nextUserAsid :=
      if asid + 1 < userAsidCount then asid + 1 else firstUserAsid }

def startReclaim (al : Allocator) : Allocator := { al with reclaiming := true }

/-- Whether a reclaim that began at an epoch puts an ASID back. -/
def reclaims (al : Allocator) (epoch asid : Nat) : Bool :=
  firstUserAsid ≤ asid && asid < userAsidCount && !al.active asid &&
    al.retired asid && al.retiredEpoch asid ≤ epoch

def reclaim (al : Allocator) (epoch : Nat) : Allocator :=
  { al with
    retired := fun a => if al.reclaims epoch a then false else al.retired a
    retiredEpoch := fun a =>
      if al.reclaims epoch a then 0 else al.retiredEpoch a
    reclaiming := false }

/-- `retire_user_asid`; the epoch is a `uint64`. -/
def retire (al : Allocator) (asid : Nat) : Allocator :=
  if asid < firstUserAsid ∨ asid ≥ userAsidCount then al
  else
    let epoch := (al.retirementEpoch + 1) % 2 ^ 64
    { al with
      active := fun a => if a = asid then false else al.active a
      retired := fun a => if a = asid then true else al.retired a
      retiredEpoch := fun a => if a = asid then epoch else al.retiredEpoch a
      retirementEpoch := epoch }

end Allocator

abbrev Cpu := Nat

/-- Address spaces are numbered in the order of their creation. -/
abbrev Space := Nat

/-- Where a CPU is in `allocate_user_asid`, with the address space it creates
and the epoch it read before the flush. -/
inductive Pc where
  | idle
  | looping (m : Space)
  | unlocked (m : Space) (epoch : Nat)
  | flushing (m : Space) (epoch start : Nat)
  | flushed (m : Space) (epoch : Nat)
  deriving DecidableEq, Repr

/-- `asid` is what each address space holds. `retiredAt` is when an ASID was
last retired, and `flushedFrom` when the full flush began that began last
among those that are over. -/
structure System where
  al : Allocator
  pc : Cpu → Pc
  spaces : Nat
  asid : Space → Option Nat
  now : Nat
  retiredAt : Nat → Option Nat
  flushedFrom : Option Nat

def System.init : System :=
  { al := .init, pc := fun _ => .idle, spaces := 0, asid := fun _ => none,
    now := 0, retiredAt := fun _ => none, flushedFrom := none }

inductive Event where
  | create (cpu : Cpu)
  | search (cpu : Cpu)
  | startFlush (cpu : Cpu)
  | endFlush (cpu : Cpu)
  | finish (cpu : Cpu)
  | destroy (m : Space)
  deriving DecidableEq, Repr

namespace System

def setPc (s : System) (cpu : Cpu) (pc : Pc) : System :=
  { s with pc := fun c => if c = cpu then pc else s.pc c }

def setAl (s : System) (al : Allocator) : System := { s with al }

def setAsid (s : System) (m : Space) (asid : Option Nat) : System :=
  { s with asid := fun k => if k = m then asid else s.asid k }

def tick (s : System) : System := { s with now := s.now + 1 }

/-- The latest start of a flush that is over. -/
def latest (start : Nat) : Option Nat → Nat
  | none => start
  | some f => max f start

/-- The section at the top of the loop: an ASID is handed out, or somebody
else reclaims and the CPU tries again, or the CPU reclaims itself. -/
def search (s : System) (cpu : Cpu) (m : Space) : System :=
  match s.al.findFree with
  | some asid =>
      ((s.setAl (s.al.take asid)).setAsid m (some asid)).setPc cpu .idle
  | none =>
      if s.al.reclaiming then s
      else (s.setAl s.al.startReclaim).setPc cpu
        (.unlocked m s.al.retirementEpoch)

def act (s : System) : Event → Option System
  | .create cpu =>
      match s.pc cpu with
      | .idle => some ({ s with spaces := s.spaces + 1 }.setPc cpu (.looping s.spaces))
      | _ => none
  | .search cpu =>
      match s.pc cpu with
      | .looping m => some (s.search cpu m)
      | _ => none
  | .startFlush cpu =>
      match s.pc cpu with
      | .unlocked m epoch => some (s.setPc cpu (.flushing m epoch s.now))
      | _ => none
  | .endFlush cpu =>
      match s.pc cpu with
      | .flushing m epoch start =>
          some ({ s with flushedFrom := some (latest start s.flushedFrom) }.setPc
            cpu (.flushed m epoch))
      | _ => none
  | .finish cpu =>
      match s.pc cpu with
      | .flushed m epoch =>
          some ((s.setAl (s.al.reclaim epoch)).setPc cpu (.looping m))
      | _ => none
  | .destroy m =>
      match s.asid m with
      | some asid =>
          some ({ s with
            al := s.al.retire asid
            retiredAt := fun a => if a = asid then some s.now else s.retiredAt a
            }.setAsid m none)
      | none => none

def step (s : System) (e : Event) : Option System := (s.act e).map tick

def handsOut (s : System) (cpu : Cpu) : Option Nat :=
  match s.pc cpu with
  | .looping _ => s.al.findFree
  | _ => none

end System

end F7ly.Proc.Asid
