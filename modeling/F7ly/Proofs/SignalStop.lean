import F7ly.Lib.Run
import F7ly.Proofs.SignalStep

/-!
# Stop and continue

A task that takes a default stop first dequeues the stop signal, a read and a
write of the pending set, and only later, in `stop_current`, publishes that it
is stopped. A sender resumes the task if it finds it stopped. So a continue or
a kill is seen as long as it does not fall between that read and that moment:
the invariant is that none was sent while the task is on its way into the stop,
and it carries over to the stopped task because every one sent from then on
resumes it.
-/

namespace F7ly.Proc.Signal

open F7ly

/-- Dequeuing a stop signal, or on the way into `stop_current`. -/
def Pc.isStopping : Pc → Bool
  | .stopping .. | .store _ true .. => true
  | _ => false

namespace SignalSystem

/-- A stopped task has not been continued or killed since it began to dequeue
the stop it acts on. -/
def NotSummoned (s : SignalSystem) : Prop :=
  s.task.state = .stopped → s.summoned = false

/-- No continue and no kill falls between the dequeuing of a stop signal and
the moment the stop is published. -/
def Undisturbed (s : SignalSystem) : SignalEvent → Prop
  | .send _ sig _ _ => sig = sigCont ∨ sig = sigKill → s.pc.isStopping = false
  | _ => True

instance (s : SignalSystem) : (e : SignalEvent) → Decidable (s.Undisturbed e)
  | .send _ sig _ _ => inferInstanceAs
      (Decidable (sig = sigCont ∨ sig = sigKill → s.pc.isStopping = false))
  | .enter _ | .step _ | .call _ | .run | .wake =>
      inferInstanceAs (Decidable True)

structure StopInv (s : SignalSystem) : Prop where
  stopped : s.NotSummoned
  stopping : s.pc.isStopping = true → s.summoned = false

theorem StopInv.of_same {s s' : SignalSystem} (hs : s.StopInv)
    (hsummoned : s'.summoned = s.summoned)
    (hstate : s'.task.state = .stopped → s.task.state = .stopped)
    (hpc : s'.pc.isStopping = true → s.pc.isStopping = true) : s'.StopInv :=
  ⟨fun h => hsummoned.trans (hs.stopped (hstate h)),
    fun h => hsummoned.trans (hs.stopping (hpc h))⟩

theorem StopInv.step {s s' : SignalSystem} {e : SignalEvent} (hs : s.StopInv)
    (hC : s.Undisturbed e) (h : s.Steps e s') : s'.StopInv := by
  -- The task runs when it acts, so it is not stopped then.
  have hlive : ∀ t : Task, s.task.state = .running →
      t.state = s.task.state → t.state ≠ .stopped := by
    intro t hrun ht hst
    rw [ht, hrun] at hst
    cases hst
  cases h with
  | @send sender sig _ stale t hmax ht =>
      refine ⟨fun hst => ?_, fun hpc => ?_⟩
      · obtain ⟨hold, hcont, hkill⟩ := ht.stopped hst
        show (decide (sig = sigCont ∨ sig = sigKill) || s.summoned) = false
        rw [hs.stopped hold]
        simp [hcont, hkill]
      · have hno : ¬ (sig = sigCont ∨ sig = sigKill) := by
          intro hc
          have hnot := hC hc
          rw [show s.pc.isStopping = true from hpc] at hnot
          cases hnot
        show (decide (sig = sigCont ∨ sig = sigKill) || s.summoned) = false
        rw [hs.stopping hpc]
        simpa using hno
  | none => exact hs
  | enter hpc hl => exact hs.of_same rfl id fun h => nomatch h
  | scan hpc h => exact hs.of_same rfl id fun he => by cases h <;> cases he
  | @act _ _ _ _ pc hrun hpc h summoned hsum =>
      refine ⟨fun hst => absurd hst (hlive _ hrun h.state), fun he => ?_⟩
      refine hsum.resolve_left fun hno => ?_
      cases h.leads <;> cases he
      exact hno.2 _ _ rfl
  | @read _ stop taken l hpc hpending =>
      cases stop with
      | true => exact ⟨fun _ => rfl, fun _ => rfl⟩
      | false => exact hs.of_same rfl id nofun
  | @store _ read stop taken l hpc =>
      refine hs.of_same rfl id fun he => ?_
      cases stop with
      | true =>
          rw [hpc]
          rfl
      | false => cases l <;> cases he
  | stopping hpc =>
      exact ⟨fun _ => hs.stopping (by rw [hpc]; rfl), fun h => nomatch h⟩
  | @stopped _ taken l hrun hpc =>
      exact hs.of_same rfl id fun he => by cases l <;> cases he
  | call hpc h =>
      refine hs.of_same rfl (fun hst => ?_) id
      rcases h.state with he | he
      · exact he ▸ hst
      · rw [he] at hst
        cases hst
  | run => exact hs.of_same rfl (fun h => nomatch h) id
  | wake => exact hs.of_same rfl (fun h => nomatch h) id

theorem stopInv_init (t : Task) : (init t).StopInv :=
  ⟨fun _ => rfl, fun h => nomatch h⟩

end SignalSystem

/-- A continue or a kill is never lost on a stopped task, in a run where none
falls into the gap between dequeuing the stop and publishing it. -/
theorem signal_run_notSummoned {t : Task} {events : List SignalEvent} {s : SignalSystem}
    (hr : Run.Guarded SignalSystem.advance SignalSystem.Undisturbed
      (.init t) events s) : s.NotSummoned :=
  (hr.inv (fun hs hC h => hs.step hC (SignalSystem.steps_of_step
    (SignalSystem.step_of_advance h))) (SignalSystem.stopInv_init t)).stopped

/-- A terminal stop is sent, and the task enters `handle_signal` and runs for
`steps` steps. -/
def takeStop (steps : Nat) : List SignalEvent :=
  [.send .kill sigTstp none, .enter false] ++ List.replicate steps (.step noMemory)

/-- The task stops, and is continued once it has. -/
theorem signal_run_notSummoned_cont : ∃ s, s.task.continuedPending = true ∧
    Run.Guarded SignalSystem.advance SignalSystem.Undisturbed
      (.init .fresh) (takeStop 24 ++ [.send .kill sigCont none]) s ∧ s.NotSummoned := by
  have hr : Run.Guarded SignalSystem.advance SignalSystem.Undisturbed (.init .fresh)
      (takeStop 24 ++ [.send .kill sigCont none]) _ :=
    .of_foldlM rfl
  exact ⟨_, rfl, hr, signal_run_notSummoned hr⟩

/-- The continue comes one step too early: the stop signal is dequeued, the
stop is not yet published. -/
def earlyContinue : List SignalEvent :=
  takeStop 23 ++ [.send .kill sigCont none, .step noMemory]

theorem signal_run_earlyContinue :
    ∃ s, earlyContinue.foldlM SignalSystem.advance (.init .fresh) = some s ∧
      s.task.state = .stopped ∧ sigIsMember s.task.signal sigCont = true ∧ ¬ s.NotSummoned := by
  refine ⟨_, rfl, rfl, rfl, fun h => ?_⟩
  cases h rfl

end F7ly.Proc.Signal
