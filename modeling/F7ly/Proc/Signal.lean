import F7ly.Lib.Bytes

/-!
# Signals

`proc::ipc::signal` of `kernel/proc/signal.cc`, for RISC-V: the pending set and
the mask, the disposition table, the frame that a delivery pushes and the
return from it. Signals are numbered from 1; signal `n` is bit `n - 1` of a
set.

What a delivery takes from the memory manager comes with it as a `Delivery`:
whether the kernel page for the saved context could be had and which it is,
where the clamp put the top of the user frame, whether the frame's pages could
be prepared, and how many of the copies to user memory succeed. A panic of the source is
an error of the model.

The registers of a trap frame are indexed as the machine context of the user
frame orders them, the program counter first.
-/

namespace F7ly.Proc.Signal

open F7ly.Bytes

abbrev Word := BitVec 64

abbrev SigSet := BitVec 64

def sigQuit : Nat := 3
def sigIll : Nat := 4
def sigTrap : Nat := 5
def sigAbrt : Nat := 6
def sigBus : Nat := 7
def sigFpe : Nat := 8
def sigKill : Nat := 9
def sigUsr1 : Nat := 10
def sigSegv : Nat := 11
def sigChld : Nat := 17
def sigCont : Nat := 18
def sigStop : Nat := 19
def sigTstp : Nat := 20
def sigTtin : Nat := 21
def sigTtou : Nat := 22
def sigUrg : Nat := 23
def sigXcpu : Nat := 24
def sigXfsz : Nat := 25
def sigWinch : Nat := 28
def sigSys : Nat := 31
def sigCancel : Nat := 33
def sigRtMax : Nat := 64

def sigBit (sig : Nat) : SigSet := BitVec.twoPow 64 (sig - 1)

def sigIsMember (set : SigSet) (sig : Nat) : Bool := set.getLsbD (sig - 1)

def unmaskableSignalMask : SigSet :=
  sigBit sigKill ||| sigBit sigStop ||| sigBit sigCancel

def sanitizeSignalMask (mask : SigSet) : SigSet :=
  mask &&& ~~~unmaskableSignalMask

def isJobControlStopSignal (signum : Nat) : Bool :=
  signum == sigStop || signum == sigTstp || signum == sigTtin || signum == sigTtou

def stopSignalMask : SigSet :=
  sigBit sigStop ||| sigBit sigTstp ||| sigBit sigTtin ||| sigBit sigTtou

def continueSignalMask : SigSet := sigBit sigCont

/-- `sync_signals`, most urgent first. -/
def syncSignals : List Nat := [sigSegv, sigBus, sigFpe, sigIll, sigTrap, sigSys]

structure SignalAction where
  terminate : Bool
  coredump : Bool
  deriving DecidableEq, Repr

def getDefaultSignalAction (signum : Nat) : SignalAction :=
  if signum ∈ [sigAbrt, sigBus, sigFpe, sigIll, sigQuit, sigSegv, sigSys,
      sigTrap, sigXcpu, sigXfsz] then
    { terminate := true, coredump := true }
  else if signum ∈ [sigCont, sigChld, sigWinch, sigUrg] then
    { terminate := false, coredump := false }
  else { terminate := true, coredump := false }

def sigDfl : Word := 0
def sigIgn : Word := 1
def sigErr : Word := -1

def saSiginfo : Word := 4
def saOnstack : Word := 0x08000000
def saNodefer : Word := 0x40000000
def saResethand : Word := 0x80000000

structure SigAction where
  saHandler : Word
  saFlags : Word
  saMask : SigSet

def SigAction.has (act : SigAction) (flag : Word) : Bool :=
  act.saFlags &&& flag != 0

structure SigInfo where
  siSigno : BitVec 32
  siErrno : BitVec 32
  siCode : BitVec 32
  siPid : BitVec 32
  siUid : BitVec 32
  siValue : Word

/-- What `do_handle` reports of a signal that came without information. -/
def SigInfo.bare (signum : Nat) : SigInfo :=
  { siSigno := BitVec.ofNat 32 signum, siErrno := 0, siCode := 0, siPid := 0,
    siUid := 0, siValue := 0 }

/-- The layout of `LinuxSigInfo`, 128 bytes. -/
def SigInfo.words (info : SigInfo) : List Word :=
  [info.siErrno ++ info.siSigno, info.siPid ++ info.siCode,
    (0 : BitVec 32) ++ info.siUid, info.siValue] ++ List.replicate 12 0

/-- A trap frame: `epc` and `x1` to `x31`, and the rest, which the user frame
does not carry. -/
structure TrapFrame where
  gregs : Fin 32 → Word
  rest : List Word

def TrapFrame.epc (tf : TrapFrame) : Word := tf.gregs 0
def TrapFrame.sp (tf : TrapFrame) : Word := tf.gregs 2

def TrapFrame.set (tf : TrapFrame) (r : Fin 32) (v : Word) : TrapFrame :=
  { tf with gregs := fun k => if k = r then v else tf.gregs k }

structure SignalFrame where
  mask : SigSet
  tf : TrapFrame
  /-- Where the frame is: the page that `do_handle` took for it. -/
  page : Nat

def ssDisable : BitVec 32 := 2
def ssAutodisarm : BitVec 32 := 4
def minSigStkSz : Word := 2048

structure SignalStack where
  ssSp : Word
  ssFlags : BitVec 32
  ssSize : Word

inductive ProcState where
  | unused | used | sleeping | runnable | running | stopped | zombie
  deriving DecidableEq, Repr

/-- The fields of a `Pcb` that signals use, and its user memory. -/
structure Task where
  state : ProcState
  killed : Bool
  signal : SigSet
  sigmask : SigSet
  siginfoMask : SigSet
  queuedSiginfo : Nat → SigInfo
  actions : Nat → Option SigAction
  sigsuspendRestorePending : Bool
  sigsuspendSavedSigmask : SigSet
  trapframe : TrapFrame
  sigFrame : List SignalFrame
  altStack : SignalStack
  onSigstack : Bool
  stopSignal : Nat
  stopReported : Bool
  continuedPending : Bool
  mem : Word → UInt8
  mapped : Word → Bool

/-- A running task that has just been set up: nothing pending, nothing
blocked, every disposition the default, no alternate stack. -/
def Task.fresh : Task :=
  { state := .running, killed := false, signal := 0, sigmask := 0,
    siginfoMask := 0, queuedSiginfo := fun _ => .bare 0,
    actions := fun _ => none, sigsuspendRestorePending := false,
    sigsuspendSavedSigmask := 0,
    trapframe := { gregs := fun _ => 0, rest := [] }, sigFrame := [],
    altStack := { ssSp := 0, ssFlags := ssDisable, ssSize := 0 },
    onSigstack := false, stopSignal := 0, stopReported := false,
    continuedPending := false, mem := fun _ => 0, mapped := fun _ => false }

inductive Panic where
  | addInvalid (sig : Nat)
  | clearInvalid (sig : Nat)
  | clearNotSet (sig : Nat)
  | actNull
  | handlerDefault (sig : Nat)
  | handlerIgnore (sig : Nat)
  | handlerError (sig : Nat)
  | ignored (sig : Nat)
  | invalidHow (how : Int)
  | markerUnreadable
  | markerMismatch (got : Word)
  | siginfoUnreadable
  | noFrame
  deriving DecidableEq, Repr

namespace Task

def isIgnored (t : Task) (sig : Nat) : Bool :=
  if sig = sigCancel then false else sigIsMember t.sigmask sig

def addSignal (t : Task) (sig : Nat) (info : Option SigInfo) : Except Panic Task :=
  if sig = 0 ∨ sig > sigRtMax then .error (.addInvalid sig)
  else
    let cancelled : SigSet :=
      if sig = sigCont then stopSignalMask
      else if stopSignalMask &&& sigBit sig != 0 then continueSignalMask
      else 0
    let t := { t with signal := t.signal &&& ~~~cancelled ||| sigBit sig,
                      siginfoMask := t.siginfoMask &&& ~~~cancelled }
    let t := if sig = sigKill then { t with killed := true } else t
    match info with
    | some info =>
        .ok { t with
          queuedSiginfo := fun n => if n = sig then info else t.queuedSiginfo n,
          siginfoMask := t.siginfoMask ||| sigBit sig }
    | none => .ok t

/-- `clear_signal` up to where it has read `_signal`. -/
def clearRead (t : Task) (sig : Nat) : Except Panic SigSet :=
  if sig = 0 ∨ sig > sigRtMax then .error (.clearInvalid sig)
  else if !sigIsMember t.signal sig then .error (.clearNotSet sig)
  else .ok t.signal

/-- The rest of `clear_signal`: what it read is written back without the bit. -/
def clearWrite (t : Task) (sig : Nat) (read : SigSet) : Task :=
  { t with
    signal := read &&& ~~~sigBit sig,
    siginfoMask := t.siginfoMask &&& ~~~sigBit sig,
    queuedSiginfo := fun n => if n = sig then SigInfo.bare 0 else t.queuedSiginfo n }

def clearSignal (t : Task) (sig : Nat) : Except Panic Task :=
  (t.clearRead sig).map (t.clearWrite sig)

def consumeSignalRestoreMask (t : Task) : SigSet × Task :=
  if t.sigsuspendRestorePending then
    (sanitizeSignalMask t.sigsuspendSavedSigmask,
      { t with sigsuspendRestorePending := false, sigsuspendSavedSigmask := 0 })
  else (sanitizeSignalMask t.sigmask, t)

def restoreSigsuspendMaskNow (t : Task) : Task :=
  if t.sigsuspendRestorePending then
    { t with sigmask := sanitizeSignalMask t.sigsuspendSavedSigmask,
             sigsuspendRestorePending := false, sigsuspendSavedSigmask := 0 }
  else t

/-- `sigprocmask`; `newset` is what was read from the caller's set, if it
passed one. -/
def sigprocmask (t : Task) (how : Int) (newset : Option SigSet)
    (sigsize : Nat) : Except Panic (Int × Task) :=
  if sigsize ≠ 8 then .ok (-22, t)
  else
    match newset with
    | none => .ok (0, t)
    | some set =>
        let done (mask : SigSet) : Except Panic (Int × Task) :=
          .ok (0, { t with sigmask := sanitizeSignalMask mask })
        if how = 0 then done (t.sigmask ||| set)
        else if how = 1 then done (t.sigmask &&& ~~~set)
        else if how = 2 then done set
        else .error (.invalidHow how)

/-- `sigsuspend` up to its sleep. -/
def sigsuspend (t : Task) (mask : SigSet) : Task :=
  { t with sigsuspendSavedSigmask := sanitizeSignalMask t.sigmask,
           sigsuspendRestorePending := true,
           sigmask := sanitizeSignalMask mask }

/-- `sigAction`, when the table and the entry could be allocated or not. -/
def sigAction (t : Task) (flag : Int) (newact : Option SigAction) (allocOk : Bool) : Int × Task :=
  if flag ≤ 0 ∨ flag > sigRtMax then (-22, t)
  else if flag = sigKill ∨ flag = sigStop then (-22, t)
  else
    match newact with
    | none => (0, t)
    | some act =>
        let put (entry : Option SigAction) : Task :=
          { t with actions := fun n =>
                     if n = flag.toNat then entry else t.actions n }
        if act.saHandler = sigErr then (-22, t)
        else if act.saHandler = sigDfl then (0, put none)
        else if allocOk then (0, put (some act))
        else (-12, put none)

def sigaltstack (t : Task) (ss : Option SignalStack) : Int × Task :=
  match ss with
  | none => (0, t)
  | some ss =>
      if ss.ssFlags ≠ 0 ∧ ss.ssFlags ≠ ssDisable ∧ ss.ssFlags ≠ ssAutodisarm
      then (-22, t)
      else if t.onSigstack then (-1, t)
      else if ss.ssFlags &&& ssDisable ≠ 0 then
        (0, { t with altStack := { ssSp := 0, ssFlags := ssDisable,
                                   ssSize := 0 } })
      else if ss.ssSize < minSigStkSz then (-12, t)
      else (0, { t with altStack := ss })

def copyIn (t : Task) (addr : Word) (n : Nat) : Option (List UInt8) :=
  if ∀ i < n, t.mapped (addr + BitVec.ofNat 64 i) then
    some (load t.mem addr n)
  else none

/-- A copy that succeeds; the pages it faulted in stay. -/
def copyOut (t : Task) (addr : Word) (bytes : List UInt8) : Task :=
  { t with mem := store t.mem addr bytes,
           mapped := fun a =>
             decide ((a - addr).toNat < bytes.length) || t.mapped a }

end Task

/-- What the memory manager answers while a frame is built. -/
structure Delivery where
  allocOk : Bool
  page : Nat := 0
  top : Word
  prepared : Bool
  copies : Nat
  trampoline : Word

def guardWord : Word := 0x11451416
def siginfoMarker : Word := -1

/-- The layout of `usercontext`, 960 bytes: flags, link, the stack, the mask
padded to 16 words and to the alignment of the machine context, the
registers, and the floating-point state, which stays zero. -/
def usercontextWords (stackSp sigSize : Word) (sigmask : SigSet) (tf : TrapFrame) : List Word :=
  [0, 0, stackSp, 0, sigSize] ++ (sigmask :: List.replicate 15 0) ++ [0] ++
    List.ofFn tf.gregs ++ List.replicate 66 0

def sigmaskWord : Nat := 5
def gregsWord : Nat := 22

def usercontextBytes : Nat := 960
def siginfoBytes : Nat := 128
def frameBytes : Nat := 8 * 2 + siginfoBytes + usercontextBytes

def alignDown (value align : Word) : Word := value &&& ~~~(align - 1)

namespace Task

def kill (t : Task) : Task := { t with killed := true }

/-- Whether the delivery switches to the alternate stack. -/
def wantsAltStack (t : Task) (act : SigAction) : Bool :=
  act.has saOnstack && t.altStack.ssFlags &&& ssDisable == 0 && !t.onSigstack

def enterAltStack (t : Task) : Task :=
  { t with onSigstack := true,
           altStack :=
             if t.altStack.ssFlags &&& ssAutodisarm ≠ 0 then
               { t.altStack with ssFlags := t.altStack.ssFlags ||| ssDisable }
             else t.altStack }

def chooseStack (t : Task) (act : SigAction) : Task :=
  if t.wantsAltStack act then t.enterAltStack else t

/-- `stack_sp` and `sig_size`. -/
def stackFor (t : Task) (act : SigAction) : Word × Word :=
  if t.wantsAltStack act then
    (t.altStack.ssSp + t.altStack.ssSize, t.altStack.ssSize)
  else (t.trapframe.sp, 5 * 4096)

def infoFor (t : Task) (signum : Nat) : SigInfo :=
  if t.siginfoMask &&& sigBit signum != 0 then t.queuedSiginfo signum
  else .bare signum

def siginfoFrameSp (d : Delivery) : Word :=
  alignDown (d.top - BitVec.ofNat 64 frameBytes) 16

def setRegs (t : Task) (tf : TrapFrame) : Task := { t with trapframe := tf }

/-- The frame's pages are there, or the task is killed. -/
def require (t : Task) (prepared : Bool) : Except Task Task :=
  if prepared then .ok t else .error t.kill

/-- A copy to the frame that succeeds, or the task is killed. -/
def tryCopyOut (t : Task) (ok : Bool) (addr : Word) (ws : List Word) : Except Task Task :=
  if ok then .ok (t.copyOut addr (wordsBytes ws)) else .error t.kill

/-- The three-argument frame, from the choice of the stack on; an error is the
task as it is when a step fails. -/
def buildSiginfoFrame (t : Task) (signum : Nat) (act : SigAction)
    (restore : SigSet) (tf : TrapFrame) (d : Delivery) : Except Task Task := do
  let (stackSp, sigSize) := t.stackFor act
  let guardSp := siginfoFrameSp d
  let hasSiginfoSp := guardSp + 8
  let linuxinfoSp := guardSp + 16
  let usercontextSp := guardSp + 144
  let info := (t.infoFor signum).words
  let uctx := usercontextWords stackSp sigSize restore tf
  let regs := (((t.trapframe.set 10 (BitVec.ofNat 64 signum)).set 11
    linuxinfoSp).set 12 usercontextSp).set 2 guardSp
  let t ← (t.chooseStack act).require d.prepared
  let t ← t.tryCopyOut (1 ≤ d.copies) usercontextSp uctx
  let t ← t.tryCopyOut (2 ≤ d.copies) linuxinfoSp info
  let t ← (t.setRegs regs).tryCopyOut (3 ≤ d.copies) guardSp [guardWord]
  t.tryCopyOut (4 ≤ d.copies) hasSiginfoSp [siginfoMarker]

/-- The one-argument frame: a return marker with the guard below it. -/
def buildPlainFrame (t : Task) (signum : Nat) (act : SigAction)
    (d : Delivery) : Except Task Task := do
  let markerSp := d.top - 8
  let guardSp := markerSp - 8
  let regs := t.trapframe.set 2 markerSp
  let regs' := ((regs.set 10 (BitVec.ofNat 64 signum)).set 0
    act.saHandler).set 2 guardSp
  let t ← (t.chooseStack act).require d.prepared
  let t ← (t.setRegs regs).tryCopyOut (1 ≤ d.copies) markerSp [0]
  (t.setRegs regs').tryCopyOut (2 ≤ d.copies) guardSp [guardWord]

def handlerMask (t : Task) (signum : Nat) (act : SigAction) : SigSet :=
  let mask := t.sigmask ||| act.saMask
  let mask := if act.has saNodefer then mask else mask ||| sigBit signum
  sanitizeSignalMask mask

/-- The task as the handler's frame is built: the mask of the handler and the
return address are in place. -/
def prepare (t : Task) (signum : Nat) (act : SigAction) (d : Delivery) : Task :=
  { t with sigmask := t.handlerMask signum act,
           trapframe := t.trapframe.set 1 d.trampoline }

/-- The handler is entered and the saved context linked in. -/
def pushFrame (t : Task) (act : SigAction) (frame : SignalFrame) : Task :=
  { t with trapframe := t.trapframe.set 0 act.saHandler,
           sigFrame := frame :: t.sigFrame }

def buildFrame (t : Task) (signum : Nat) (act : SigAction) (restore : SigSet)
    (tf : TrapFrame) (d : Delivery) : Except Task Task :=
  if act.has saSiginfo then t.buildSiginfoFrame signum act restore tf d
  else t.buildPlainFrame signum act d

/-- `do_handle` past its checks, with the page for the saved context in
hand. -/
def deliver (t : Task) (signum : Nat) (act : SigAction) (d : Delivery) : Except Task Task :=
  let (restore, t) := t.consumeSignalRestoreMask
  let frame : SignalFrame := { mask := restore, tf := t.trapframe, page := d.page }
  ((t.prepare signum act d).buildFrame signum act restore t.trapframe d).map
    fun t => t.pushFrame act frame

def doHandle (t : Task) (signum : Nat) (act : Option SigAction)
    (d : Delivery) : Except Panic Task :=
  match act with
  | none => .error .actNull
  | some act =>
      if act.saHandler = sigDfl then .error (.handlerDefault signum)
      else if act.saHandler = sigIgn then .error (.handlerIgnore signum)
      else if act.saHandler = sigErr then .error (.handlerError signum)
      else if t.isIgnored signum then .error (.ignored signum)
      else if !d.allocOk then .ok t.kill
      else
        match t.deliver signum act d with
        | .ok t => .ok t
        | .error t => .ok t

/-- The kernel's saved context put back; both kinds of return start so. -/
def popFrame (t : Task) : Except Panic Task :=
  match t.sigFrame with
  | [] => .error .noFrame
  | frame :: next =>
      .ok { t with sigmask := sanitizeSignalMask frame.mask,
                   trapframe := frame.tf, sigFrame := next,
                   onSigstack := false }

def sigReturn (t : Task) : Except Panic Task :=
  let userSp := t.trapframe.sp
  match t.copyIn userSp 8 with
  | none => .error .markerUnreadable
  | some bytes =>
      if wordAt bytes 0 ≠ guardWord then .error (.markerMismatch (wordAt bytes 0))
      else
        match t.copyIn (userSp + 8) 8 with
        | none => .error .siginfoUnreadable
        | some bytes =>
            if wordAt bytes 0 ≠ siginfoMarker then t.popFrame
            else
              match t.copyIn (userSp + 144) usercontextBytes with
              | none => .error .siginfoUnreadable
              | some uctx =>
                  t.popFrame.map fun t =>
                    { t with
                      sigmask := sanitizeSignalMask (wordAt uctx sigmaskWord),
                      trapframe :=
                        { t.trapframe with
                          gregs := fun r =>
                            wordAt uctx (gregsWord + r.val) } }

end Task

end F7ly.Proc.Signal
