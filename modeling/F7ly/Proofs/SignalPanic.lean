import Mathlib
import F7ly.Lib.Run
import F7ly.Proofs.SignalStep

/-!
# Panics of the signal code

The checks that panic are guarded by facts found out earlier. Once a pass has
seen a signal pending it relies on the bit until it takes it out, and between
the two a sender can cancel it: a continue takes back the stop signals, a stop
takes back the continue. The loops over all signals look at the mask before
they deliver, the loop over the synchronous signals only reports what it saw.
`sigprocmask` and `sig_return` check what the user passed.

`Calm` says of an event that it does not hit one of these. The invariant for
the passes is that the signal a pass relies on is pending; once `clear_signal`
has read it, nothing more is relied on.
-/

namespace F7ly.Proc.Signal

open F7ly F7ly.Bytes

def Pc.owned : Pc → Option Nat
  | .act sig _ => some sig
  | .dequeue taken _ | .clear taken _ => some taken.sig
  | .stopping taken (.rest _) | .stopped taken (.rest _) => some taken.sig
  | _ => none

/-- The loop of a stop that is being dequeued. -/
def Pc.dequeuing : Pc → Option Loop
  | .dequeue _ l | .store _ true _ l => some l
  | _ => none

variable {t : Task} {s : SignalSystem}

namespace Task

/-- The stack pointer is at a frame with its markers, and the kernel has a
context saved. -/
def returnable (t : Task) : Bool :=
  (t.copyIn t.trapframe.sp 8).any (fun bytes => wordAt bytes 0 == guardWord) &&
    (t.copyIn (t.trapframe.sp + 8) 8).any (fun bytes =>
      wordAt bytes 0 != siginfoMarker ||
        (t.copyIn (t.trapframe.sp + 144) usercontextBytes).isSome) &&
    !t.sigFrame.isEmpty

theorem popFrame_ok (h : t.sigFrame.isEmpty = false) : ∃ t', t.popFrame = .ok t' := by
  rw [popFrame]
  split
  · next he =>
    rw [he] at h
    cases h
  · exact ⟨_, rfl⟩

theorem sigReturn_ok (h : t.returnable = true) : ∃ t', t.sigReturn = .ok t' := by
  simp only [returnable, Bool.and_eq_true, Option.any_eq_true,
    Bool.not_eq_true', beq_iff_eq, Bool.or_eq_true, bne_iff_ne] at h
  obtain ⟨⟨⟨bytes, hguard, hword⟩, bytes', hmarker, huctx⟩, hframe⟩ := h
  obtain ⟨t', hpop⟩ := popFrame_ok hframe
  rw [sigReturn]
  simp only [hguard, hword, ne_eq, not_true_eq_false, if_false, hmarker]
  split
  · exact ⟨t', hpop⟩
  next hsig =>
  obtain ⟨uctx, hu⟩ := Option.isSome_iff_exists.mp
    (huctx.resolve_left (not_not.mpr (not_not.mp hsig)))
  rw [hu, hpop]
  exact ⟨_, rfl⟩

end Task

namespace SignalSystem

def Calm (s : SignalSystem) : SignalEvent → Prop
  | .send _ sig _ _ => ∀ n ∈ s.pc.owned, cancels sig n = false
  | .step _ =>
      match s.pc with
      | .act sig (.sync _) =>
          s.task.caught sig = true → s.task.isIgnored sig = false
      | _ => True
  | .call (.sigprocmask how newset sigsize) =>
      sigsize = 8 → newset.isSome = true → how = 0 ∨ how = 1 ∨ how = 2
  | .call .sigReturn => s.task.returnable = true
  | _ => True

instance (s : SignalSystem) : (e : SignalEvent) → Decidable (s.Calm e)
  | .send _ sig _ _ => inferInstanceAs
      (Decidable (∀ n ∈ s.pc.owned, cancels sig n = false))
  | .step _ =>
      match hpc : s.pc with
      | .act sig (.sync _) => decidable_of_iff
          (s.task.caught sig = true → s.task.isIgnored sig = false)
          (by simp only [Calm, hpc])
      | .act _ (.async _) | .act _ (.rest _) | .idle | .scan _ | .dequeue ..
      | .stopping .. | .stopped .. | .clear .. | .store .. | .exited _ =>
          isTrue (by simp only [Calm, hpc])
  | .call (.sigprocmask how newset sigsize) => inferInstanceAs
      (Decidable (sigsize = 8 → newset.isSome = true → how = 0 ∨ how = 1 ∨ how = 2))
  | .call .sigReturn => inferInstanceAs (Decidable (s.task.returnable = true))
  | .call .sleep | .call (.sigsuspend _) | .call (.sigAction ..)
  | .call (.sigaltstack _) | .call (.user ..) | .enter _ | .run | .wake =>
      inferInstanceAs (Decidable True)

structure PanicInv (s : SignalSystem) : Prop where
  table : s.task.TableOk
  owned : ∀ sig ∈ s.pc.owned, sig ≠ 0 ∧ sig ≤ sigRtMax ∧ sigIsMember s.task.signal sig = true
  started : ∀ l, s.pc = .scan l → l.Started
  unblocked : ∀ sig l, s.pc = .act sig l → (∀ k, l ≠ .sync k) → s.task.isIgnored sig = false
  dequeues : ∀ l ∈ s.pc.dequeuing, ∀ i, l ≠ .rest i

theorem PanicInv.of_free (htable : s.task.TableOk) (hown : s.pc.owned = none)
    (hstarted : ∀ l, s.pc = .scan l → l.Started)
    (hdeq : ∀ l ∈ s.pc.dequeuing, ∀ i, l ≠ .rest i) : s.PanicInv := by
  refine ⟨htable, fun sig hsig => ?_, hstarted, fun sig l hpc => ?_, hdeq⟩
  · rw [hown] at hsig
    cases hsig
  · rw [hpc] at hown
    cases hown

theorem PanicInv.of_owner (htable : s.task.TableOk) {sig : Nat} (hown : s.pc.owned = some sig)
    (hsig : sig ≠ 0 ∧ sig ≤ sigRtMax ∧ sigIsMember s.task.signal sig = true)
    (hact : ∀ sig l, s.pc ≠ .act sig l) (hdeq : ∀ l ∈ s.pc.dequeuing, ∀ i, l ≠ .rest i) :
    s.PanicInv := by
  refine ⟨htable, fun n hn => ?_, fun l hpc => ?_,
    fun n l hpc => absurd hpc (hact n l), hdeq⟩
  · rw [hown] at hn
    cases hn
    exact hsig
  · rw [hpc] at hown
    cases hown

theorem next_started (l : Loop) : l.next.Started := by
  cases l with
  | async i | rest i => exact Nat.succ_pos i
  | sync k => exact trivial

theorem PanicInv.step {s' : SignalSystem} {e : SignalEvent}
    (hs : s.PanicInv) (hC : s.Calm e) (h : s.Steps e s') : s'.PanicInv := by
  cases h with
  | @send sender sig _ stale t hmax ht =>
      refine ⟨hs.table.congr ht.actions, fun n hn => ?_, hs.started,
        fun n l hpc hl => ?_, hs.dequeues⟩
      · obtain ⟨hpos, hle, hm⟩ := hs.owned n hn
        exact ⟨hpos, hle, ht.keeps n hpos hle (by simp [hm]) (hC n hn)⟩
      · have hold := hs.unblocked n l hpc hl
        rw [Task.isIgnored] at hold ⊢
        rwa [ht.sigmask]
  | none => exact hs
  | enter hpc hl =>
      refine .of_free hs.table rfl (fun l he => ?_) nofun
      cases he
      exact hl
  | @scan _ l pc hpc h =>
      have hl := hs.started l hpc
      cases h with
      | ended => exact .of_free hs.table rfl nofun nofun
      | onward hon =>
          refine .of_free hs.table rfl (fun l' he => ?_) nofun
          cases he
          exact hon hl
      | found hpos hmax hm hmask =>
          refine ⟨hs.table, fun n hn => ?_, nofun, fun n l' he hloop => ?_, nofun⟩
          · cases hn
            exact ⟨hpos hl, hmax, hm⟩
          · cases he
            exact hmask hloop
  | @act _ sig l t pc hrun hpc h summoned hsum =>
      have hsig := hs.owned sig (by rw [hpc]; rfl)
      rw [← h.signal] at hsig
      have htable := h.table hs.table
      cases h.leads with
      | exited => exact .of_free htable rfl nofun nofun
      | stopping hl =>
          subst hl
          exact .of_owner htable rfl hsig nofun nofun
      | dequeue hl =>
          refine .of_owner htable rfl hsig nofun fun l' he => ?_
          cases he
          exact hl
      | default | ignored | bare | caught => exact .of_owner htable rfl hsig nofun nofun
  | @read _ stop taken l hpc hpending =>
      refine .of_free hs.table rfl nofun fun l' he => ?_
      obtain ⟨hpc, rfl⟩ | ⟨hpc, rfl⟩ := hpc
      · cases he
        exact hs.dequeues l (by rw [hpc]; rfl)
      · cases he
  | @store _ read stop taken l hpc =>
      have htable : (s.task.clearWrite taken.sig read).TableOk := hs.table.congr rfl
      cases stop with
      | true =>
          have hloop := hs.dequeues l (by rw [hpc]; rfl)
          refine .of_free htable ?_ nofun nofun
          cases l with
          | rest i => exact absurd rfl (hloop i)
          | async | sync => rfl
      | false =>
          cases l with
          | sync => exact .of_free htable rfl nofun nofun
          | async i | rest i =>
              refine .of_free htable rfl (fun l he => ?_) nofun
              cases he
              exact next_started _
  | @stopping _ taken l hpc =>
      have htable : (s.task.stopCurrent taken.sig).TableOk := hs.table.congr rfl
      cases l with
      | rest i =>
          exact .of_owner htable rfl (hs.owned taken.sig (by rw [hpc]; rfl)) nofun nofun
      | async | sync => exact .of_free htable rfl nofun nofun
  | @stopped _ taken l hrun hpc =>
      cases l with
      | rest i =>
          exact .of_owner hs.table rfl (hs.owned taken.sig (by rw [hpc]; rfl)) nofun nofun
      | async i | sync i =>
          refine .of_free hs.table rfl (fun l he => ?_) nofun
          cases he
          exact next_started _
  | call hpc h =>
      refine .of_free (h.table hs.table) ?_ (fun l he => ?_) ?_
      · rw [hpc]
        rfl
      · rw [show s.pc = .scan l from he] at hpc
        cases hpc
      · rw [hpc]
        nofun
  | run => exact ⟨hs.table.congr rfl, hs.owned, hs.started, hs.unblocked, hs.dequeues⟩
  | wake => exact ⟨hs.table.congr rfl, hs.owned, hs.started, hs.unblocked, hs.dequeues⟩

theorem run_ok {c : TaskCall} (hC : s.Calm (.call c)) : ∃ t, c.run s.task = .ok t := by
  cases c with
  | sigprocmask how newset sigsize =>
      rw [TaskCall.run]
      unfold Task.sigprocmask
      split
      · exact ⟨_, rfl⟩
      next hsize =>
      cases newset with
      | none => exact ⟨_, rfl⟩
      | some set =>
          rcases hC (not_not.mp hsize) rfl with rfl | rfl | rfl <;>
            exact ⟨_, rfl⟩
  | sigReturn => exact Task.sigReturn_ok hC
  | sleep | sigsuspend | sigAction | sigaltstack | user => exact ⟨_, rfl⟩

theorem PanicInv.read_ne (hs : s.PanicInv) {taken : Taken} (hown : s.pc.owned = some taken.sig)
    (stop : Bool) (l : Loop) (p : Panic) : s.read stop taken l ≠ .error p := by
  obtain ⟨hpos, hmax, hm⟩ := hs.owned taken.sig hown
  rw [SignalSystem.read, Task.clearRead_eq hpos hmax hm]
  rintro ⟨⟩

theorem PanicInv.taskStep_ne (hs : s.PanicInv) {d : Delivery} (hC : s.Calm (.step d)) (p : Panic) :
    s.taskStep d ≠ some (.error p) := by
  intro h
  rw [SignalSystem.taskStep] at h
  split at h
  · cases h
  · cases h
  · cases h
  · next sig l hpc =>
    have hmask : ∀ act, s.task.disposition sig = .handler act →
        (∀ i, l ≠ .rest i) → s.task.isIgnored sig = false := by
      intro act hact _
      cases l with
      | sync k =>
          simp only [Calm, hpc] at hC
          exact hC (by rw [Task.caught, hact])
      | async i => exact hs.unblocked sig _ hpc (by simp)
      | rest i => exact hs.unblocked sig _ hpc (by simp)
    obtain ⟨t, pc, hact⟩ := Task.act_ok hs.table hmask d
    rw [hact] at h
    cases h
  · next taken l hpc => exact hs.read_ne (by rw [hpc]; rfl) _ _ p (Option.some.inj h)
  · cases h
  · cases h
  · next taken l hpc => exact hs.read_ne (by rw [hpc]; rfl) _ _ p (Option.some.inj h)
  · cases h

theorem PanicInv.step_ne (hs : s.PanicInv) {e : SignalEvent}
    (hC : s.Calm e) (p : Panic) : s.step e ≠ some (.error p) := by
  intro h
  cases e with
  | send sender sig info stale =>
      simp only [SignalSystem.step] at h
      split at h
      · next hok =>
        obtain ⟨t, ht, _⟩ := Task.send_sent { s.task with signal := s.task.signal ||| stale }
          hok.1 info sender
        rw [ht] at h
        cases h
      · cases h
  | enter sync =>
      simp only [SignalSystem.step] at h
      repeat' split at h
      all_goals cases h
  | step d =>
      simp only [SignalSystem.step] at h
      split at h
      · exact hs.taskStep_ne hC p h
      · cases h
  | call c =>
      simp only [SignalSystem.step] at h
      split at h
      · split at h
        · obtain ⟨t, ht⟩ := run_ok hC
          rw [ht] at h
          cases h
        · cases h
      · cases h
  | run =>
      simp only [SignalSystem.step] at h
      split at h <;> cases h
  | wake =>
      simp only [SignalSystem.step] at h
      split at h <;> cases h

theorem panicInv_init (ht : t.TableOk) : (init t).PanicInv :=
  .of_free ht rfl nofun nofun

def panicOf : SignalSystem → List SignalEvent → Option Panic
  | _, [] => none
  | s, e :: events =>
      match s.step e with
      | some (.ok s') => s'.panicOf events
      | some (.error p) => some p
      | none => none

end SignalSystem

def catchAndReturn : List SignalEvent :=
  [.call (.sigAction sigUsr1 (some someHandler) true), .send .tkill sigUsr1 none, .enter false] ++
    List.replicate 14 (.step plentyMemory)

/-- A segmentation fault has a handler and is blocked when it happens. -/
def blockedFault : List SignalEvent :=
  [.call (.sigAction sigSegv (some someHandler) true),
    .call (.sigprocmask 0 (some (sigBit sigSegv)) 8),
    .send .kill sigSegv none, .enter true, .step plentyMemory,
    .step plentyMemory]

/-- The synchronous pass takes a default stop, and the task is continued. -/
def continuedStop : List SignalEvent :=
  [.send .kill sigTstp none, .enter true] ++ List.replicate 29 (.step plentyMemory) ++
    [.send .kill sigCont none, .run, .step plentyMemory, .step plentyMemory]

end F7ly.Proc.Signal
