import F7ly.Lib.Bytes
import F7ly.Lib.ByteFile
import F7ly.Mem.Page

/-!
# The stack of a new program

How `execve` (`kernel/proc/proc_manager.cc`) fills the stack of the new image:
the strings of the environment and the arguments from the top down, then the
name of the executable and of the platform, and below them the auxiliary
vector, the two arrays of pointers and the number of arguments.

Addresses are 64 bits wide and `sp` wraps; `copy_out` writes a range if every
byte of it is on a page it can write. The page below the stack is not one of
them, nor is anything above the stack, which is the last area of the image so
far.
-/

namespace F7ly.Proc.ExecStack

open Bytes

def maxArg : Nat := 1024

/-- `stack_pgnum`, the guard page included. -/
def stackPgnum : Nat := 256

def maxAt : Nat := 38

inductive Errno where
  | toobig
  | fault
  deriving DecidableEq

/-- A string of the kernel's without its NUL; its size is a `size_t`. -/
structure CString where
  bytes : List UInt8
  noNul : 0 ∉ bytes
  small : bytes.length + 1 < 2 ^ 64

/-- The area of the stack once it has been created. -/
structure Layout where
  /-- `stack_guard`, which is `stackbase`. -/
  guard : Nat
  /-- The addresses `copy_out` can write. -/
  writable : Nat → Bool
  aligned : guard % pgSize = 0
  top : guard + stackPgnum * pgSize + pgSize ≤ 2 ^ 64
  closed : ∀ a, guard ≤ a → a < guard + pgSize → writable a = false
  above : ∀ a, guard + stackPgnum * pgSize ≤ a → writable a = false

/-- `stackbase + PGSIZE`. -/
def Layout.stackStart (L : Layout) : Nat := L.guard + pgSize

def Layout.stackEnd (L : Layout) : Nat := L.guard + stackPgnum * pgSize

/-- `#!` of a script: the interpreter, its argument or an empty string, and the
path of the script. -/
structure Shebang where
  interpreter : CString
  optionalArg : CString
  scriptPath : CString

/-- What goes into the auxiliary vector beside the addresses of strings. -/
structure AuxValues where
  hwcap : BitVec 64
  phdr : BitVec 64
  phent : BitVec 64
  phnum : BitVec 64
  base : BitVec 64
  entry : BitVec 64
  uid : BitVec 64
  euid : BitVec 64
  gid : BitVec 64
  egid : BitVec 64

structure Input where
  path : CString
  shebang : Option Shebang
  argv : List CString
  envs : List CString
  /-- `ab_path`. -/
  execfn : CString
  platform : CString
  aux : AuxValues

def Input.args (i : Input) : List CString :=
  match i.shebang with
  | some sb =>
      [sb.interpreter] ++ (if sb.optionalArg.bytes = [] then [] else [sb.optionalArg]) ++
        [sb.scriptPath] ++ i.argv.drop 1
  | none => if i.argv = [] then [i.path] else i.argv

structure Stack where
  sp : Nat
  mem : Nat → UInt8

def Layout.copyOut (L : Layout) (mem : Nat → UInt8) (va : Nat) (data : List UInt8) :
    Option (Nat → UInt8) :=
  if (List.range data.length).all fun i => L.writable (va + i) then
    some (ByteFile.overlay mem va data)
  else none

def Layout.store (L : Layout) (s : Stack) (sp : Nat) (data : List UInt8) : Except Errno Stack :=
  match L.copyOut s.mem sp data with
  | none => .error .fault
  | some mem => .ok ⟨sp, mem⟩

def Layout.pushString (L : Layout) (e : Errno) (s : Stack) (str : CString) : Except Errno Stack :=
  let sp := sub64 s.sp (str.bytes.length + 1)
  let sp := sp - sp % 16
  if sp < L.stackStart then .error e else L.store s sp (str.bytes ++ [0])

/-- Strings one after the other, with the pointers to them. -/
def Layout.pushStrings (L : Layout) : List CString → List Nat → Stack →
    Except Errno (Stack × List Nat)
  | [], ptrs, s => .ok (s, ptrs)
  | str :: strs, ptrs, s =>
      if ptrs.length ≥ maxArg then .error .toobig
      else L.pushString .toobig s str >>= fun s => L.pushStrings strs (ptrs ++ [s.sp]) s

/-- An array of words; only some are checked against the bottom first. -/
def Layout.pushWords (L : Layout) (checked : Bool) (s : Stack) (ws : List (BitVec 64)) :
    Except Errno Stack :=
  let sp := sub64 s.sp (8 * ws.length)
  if checked ∧ sp < L.stackStart then .error .toobig else L.store s sp (wordsBytes ws)

def AuxValues.entries (v : AuxValues) (random execfn platform : BitVec 64) :
    List (BitVec 64 × BitVec 64) :=
  [(16, v.hwcap), (26, 0), (15, platform), (6, .ofNat 64 pgSize), (25, random), (3, v.phdr),
    (4, v.phent),
    (5, v.phnum), (7, v.base), (9, v.entry), (8, 0), (11, v.uid), (12, v.euid), (13, v.gid),
    (14, v.egid), (17, 100), (23, if v.uid ≠ v.euid ∨ v.gid ≠ v.egid then 1 else 0), (31, execfn)]

def pairs (entries : List (BitVec 64 × BitVec 64)) : List (BitVec 64) :=
  entries.flatMap fun e => [e.1, e.2]

/-- `auxv_scratch`: the entries, AT_NULL, and what is not written is zero. -/
def auxvWords (entries : List (BitVec 64 × BitVec 64)) : List (BitVec 64) :=
  pairs entries ++ [0, 0] ++ List.replicate (2 * maxAt - 2 * (entries.length + 1)) 0

def randomWords : List (BitVec 64) := [0, -0x114514FF114514, 0x2000000000000000, 0x3000000000000000]

structure Result where
  sp : Nat
  mem : Nat → UInt8
  /-- `a1` and `a2` of the trap frame. -/
  argvPos : Nat
  envpPos : Nat

def pointers (ptrs : List Nat) : List (BitVec 64) := ptrs.map (BitVec.ofNat 64) ++ [0]

/-- The top: a word for a return address and the random bytes. -/
def Layout.pushRandom (L : Layout) : Except Errno Stack :=
  let sp := sub64 (sub64 L.stackEnd 8) 32
  if sp < L.guard then .error .fault else L.store ⟨sp, fun _ => 0⟩ sp (wordsBytes randomWords)

def Layout.build (L : Layout) (i : Input) : Except Errno Result := do
  let top ← L.pushRandom
  let (s, envp) ← L.pushStrings i.envs [] top
  let (s, argv) ← L.pushStrings i.args [] s
  let execfn ← L.pushString .fault s i.execfn
  let platform ← L.pushString .fault execfn i.platform
  let entries := i.aux.entries (.ofNat 64 top.sp) (.ofNat 64 execfn.sp) (.ofNat 64 platform.sp)
  let s ← L.pushWords false platform (auxvWords entries)
  let e ← L.pushWords true s (pointers envp)
  let a ← L.pushWords true e (pointers argv)
  let s ← L.pushWords false a [.ofNat 64 argv.length]
  return ⟨s.sp, s.mem, a.sp, e.sp⟩

end F7ly.Proc.ExecStack
