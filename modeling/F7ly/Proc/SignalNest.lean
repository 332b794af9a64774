import F7ly.Proc.SignalPass

/-!
# Nested deliveries

The task between its deliveries and returns, with a record of every delivery
that has not returned yet, innermost first. A delivery that cannot build its
frame kills the task and ends the sequence, and a return is a step only when
the user's frame is as the delivery left it and the stack pointer is at it.

`FramePages` follows the kernel's own part of the frames instead. `do_handle`
takes a page for the context it saves before it builds the user's frame, and
links it into `sig_frame` at its end; `sig_return` unlinks the first page and
frees it, and `exit_proc` frees those that are left. A page is known by the
number of its allocation. Whatever else happens to the task leaves `sig_frame`
alone.
-/

namespace F7ly.Proc.Signal

/-- A delivery that has not returned: the task before it and after it, the
action it was for, and the mask it has to bring back, which is the one from
before `sigsuspend` if the delivery is the first after one. -/
structure Outstanding where
  before : Task
  act : SigAction
  mask : SigSet
  after : Task

/-- The frame was placed on the alternate stack. -/
def Outstanding.onAlt (o : Outstanding) : Bool := o.before.wantsAltStack o.act

def SigAction.frameSize (act : SigAction) : Nat :=
  if act.has saSiginfo then frameBytes else 16

/-- The task is at the frame, and the frame is as it was written. -/
def Outstanding.Unmodified (o : Outstanding) (t : Task) : Prop :=
  t.trapframe.sp = o.after.trapframe.sp ∧ ∀ i < o.act.frameSize,
      t.mapped (t.trapframe.sp + BitVec.ofNat 64 i) = true ∧
        t.mem (t.trapframe.sp + BitVec.ofNat 64 i) =
          o.after.mem (t.trapframe.sp + BitVec.ofNat 64 i)

instance (o : Outstanding) (t : Task) : Decidable (o.Unmodified t) :=
  inferInstanceAs (Decidable (_ ∧ ∀ i < o.act.frameSize, _))

/-- `suspended` is the mask that the `sigsuspend` in progress replaced. -/
structure NestSystem where
  task : Task
  out : List Outstanding
  suspended : Option SigSet

inductive NestEvent where
  | deliver (signum : Nat) (act : SigAction) (d : Delivery)
  /-- A pass took a default or an ignored signal. -/
  | settle
  | call (c : TaskCall)

namespace NestSystem

def init (t : Task) : NestSystem := { task := t, out := [], suspended := none }

def deliver (s : NestSystem) (signum : Nat) (act : SigAction) (d : Delivery) : Option NestSystem :=
  match s.task.doHandle signum (some act) d with
  | .error _ => none
  | .ok t =>
      if s.task.sigFrame.length < t.sigFrame.length then
        some { task := t,
               out := ⟨s.task, act, s.suspended.getD s.task.sigmask, t⟩ :: s.out,
               suspended := none }
      else none

def sigReturn (s : NestSystem) : Option NestSystem :=
  match s.out with
  | [] => none
  | o :: out =>
      if o.Unmodified s.task then
        s.task.sigReturn.toOption.map fun task => { s with task, out }
      else none

def step (s : NestSystem) : NestEvent → Option NestSystem
  | .deliver signum act d => s.deliver signum act d
  | .settle =>
      some { s with task := s.task.restoreSigsuspendMaskNow, suspended := none }
  | .call .sigReturn => s.sigReturn
  | .call (.sigsuspend mask) =>
      some { s with task := s.task.sigsuspend mask,
                    suspended := some s.task.sigmask }
  | .call c => (c.run s.task).toOption.map fun task => { s with task }

end NestSystem

/-- `allocated` counts the pages that `do_handle` has got from `try_alloc_page`,
`freed` lists the frames that went to `free_page`. -/
structure FramePages where
  task : Task
  allocated : Nat := 0
  freed : List Nat := []

inductive PageEvent where
  | deliver (signum : Nat) (act : SigAction) (d : Delivery)
  | sigReturn
  | exit
  | other (t : Task)

/-- The loop of `exit_proc` over `sig_frame`: each frame is freed and the list
moves on. -/
def FramePages.releaseFrames (s : FramePages) : List SignalFrame → FramePages
  | [] =>
      { s with task := { s.task with
          sigFrame := [], sigsuspendRestorePending := false, sigsuspendSavedSigmask := 0 } }
  | frame :: next => releaseFrames { s with freed := frame.page :: s.freed } next

def FramePages.step (s : FramePages) : PageEvent → Option FramePages
  | .deliver signum act d =>
      (s.task.doHandle signum (some act) { d with page := s.allocated }).toOption.map
        fun task =>
          { s with task, allocated := if d.allocOk then s.allocated + 1 else s.allocated }
  | .sigReturn =>
      s.task.sigReturn.toOption.map fun task =>
        { s with task, freed := (s.task.sigFrame.take 1).map (·.page) ++ s.freed }
  | .exit => some (s.releaseFrames s.task.sigFrame)
  | .other t => some { s with task := { t with sigFrame := s.task.sigFrame } }

end F7ly.Proc.Signal
