import Mathlib
import F7ly.Lib.Run
import F7ly.Proc.Sigsuspend
import F7ly.Proofs.SignalStep

/-!
# sigsuspend and the signals it waits for

A sender that finds the caller asleep wakes it if the signal counts, so a
signal can be slept through only if it was there when the caller fell asleep.
The second look is to rule that out. It passes over a signal whose handler has
`SA_RESTART`, which the senders do not, so a signal of that kind that arrives
between the two looks is slept through. `Noticed` says that this does not
happen.
-/

namespace F7ly.Proc.Signal

open F7ly

variable {sig : Nat} {t : Task}

namespace Task

/-- Not asleep, or nothing pending that a sender would wake it for. -/
def Attentive (t : Task) : Prop :=
  t.state = .sleeping → t.hasUnmaskedSignalPending = false

def Counts (t : Task) (sig : Nat) : Prop :=
  1 ≤ sig ∧ sig ≤ sigRtMax ∧ sigIsMember t.signal sig = true ∧ sigIsMember t.sigmask sig = false ∧
    t.signalIsIgnoredForInterrupt sig = false

def Interrupted (t : Task) : Prop :=
  t.killed = true ∨ ∃ sig, 1 ≤ sig ∧ sig ≤ sigRtMax ∧
    sigIsMember t.signal sig = true ∧ t.signalInterrupts sig = true

theorem mem_signals : sig ∈ List.range' 1 sigRtMax ↔ 1 ≤ sig ∧ sig ≤ sigRtMax := by
  rw [List.mem_range'_1]
  omega

theorem signal_ne_zero (h : sigIsMember t.signal sig = true) : t.signal ≠ 0 := by
  intro h0
  rw [h0, sigIsMember] at h
  simp at h

theorem hasUnmaskedSignalPending_of_counts
    (h : t.Counts sig) : t.hasUnmaskedSignalPending = true := by
  obtain ⟨h1, h64, hmem, hmask, hign⟩ := h
  rw [hasUnmaskedSignalPending]
  split
  · rfl
  · rw [if_neg (signal_ne_zero hmem), List.any_eq_true]
    exact ⟨sig, mem_signals.mpr ⟨h1, h64⟩, by simp [hmem, hmask, hign]⟩

theorem shouldInterrupt_iff (t : Task) :
    t.shouldInterruptBlockingSyscall = true ↔ t.Interrupted := by
  rw [shouldInterruptBlockingSyscall, Interrupted]
  split
  · next hk => simp [hk]
  next hk =>
  split
  · next h0 =>
      refine ⟨fun h => (nomatch h), fun h => ?_⟩
      obtain ⟨sig, -, -, hmem, -⟩ := h.resolve_left hk
      exact absurd h0 (signal_ne_zero hmem)
  · rw [List.any_eq_true]
    simp only [mem_signals, Bool.and_eq_true, and_assoc]
    exact (or_iff_right hk).symm

/-- If no signal counts and none interrupts, a sender would not wake the
task either. -/
theorem hasUnmaskedSignalPending_of_quiet (hi : ¬ t.Interrupted)
    (hc : ∀ sig, ¬ t.Counts sig) : t.hasUnmaskedSignalPending = false := by
  rw [hasUnmaskedSignalPending, if_neg fun hk => hi (.inl hk)]
  split
  · rfl
  · rw [List.any_eq_false]
    intro sig hsig hcount
    obtain ⟨h1, h64⟩ := mem_signals.mp hsig
    simp only [Bool.and_eq_true, Bool.or_eq_true, beq_iff_eq, Bool.not_eq_true'] at hcount
    obtain ⟨hmem, hcancel | ⟨hmask, hign⟩⟩ := hcount
    · exact hi (.inr ⟨sig, h1, h64, hmem, by rw [signalInterrupts, if_pos (.inl hcancel)]⟩)
    · exact hc sig ⟨h1, h64, hmem, hmask, hign⟩

theorem attentive_of_state (h : t.state ≠ .sleeping) : t.Attentive :=
  fun hs => absurd hs h

theorem attentive_interrupt (t : Task) : t.interruptSleepForSignal.1.Attentive := by
  rw [interruptSleepForSignal]
  split
  · next h =>
      intro hs
      simpa using h.resolve_left fun hn => hn hs
  · exact attentive_of_state (by simp)

theorem attentive_resume (ht : t.Attentive) (sig : Nat) : (t.resume sig).Attentive := by
  rw [resume]
  split
  · exact attentive_of_state (by simp)
  · exact ht

/-- A sender leaves the task attentive if what it does after adding the signal
does. -/
theorem attentive_of_map {t' : Task} {info : Option SigInfo}
    {f : Task → Task} (hf : ∀ t, (f t).Attentive)
    (h : (t.addSignal sig info).map f = .ok t') : t'.Attentive := by
  cases hadd : t.addSignal sig info with
  | error e =>
      rw [hadd] at h
      cases h
  | ok t₁ =>
      rw [hadd] at h
      cases h
      exact hf t₁

theorem attentive_send {t' : Task} {info : Option SigInfo}
    {sender : Sender} (ht : t.Attentive) (h : t.send sig info sender = .ok t') : t'.Attentive := by
  cases sender with
  | kill =>
      rw [send, killSignal] at h
      split at h
      · cases h
        exact ht
      · refine attentive_of_map (fun t₁ => ?_) h
        split
        · next hst => exact attentive_resume (attentive_of_state (by simp [hst.1])) sig
        · exact attentive_interrupt t₁
  | tkill =>
      rw [send, tkill] at h
      split at h
      · cases h
        exact ht
      · refine attentive_of_map (fun t₁ => ?_) h
        split
        · exact attentive_interrupt t₁
        · next hst => exact attentive_resume (attentive_of_state hst) sig
  | timer =>
      rw [send, timerSignal] at h
      split at h
      · cases h
        exact ht
      · split at h
        · cases h
          exact ht
        · refine attentive_of_map (fun t₁ => ?_) h
          have hint := attentive_interrupt t₁
          split
          · next t₂ heq => rw [heq] at hint; exact hint
          · next t₂ heq => rw [heq] at hint; exact attentive_resume hint sig

theorem attentive_childExit {t' : Task} (h : t.childExitSignal sig = .ok t') : t'.Attentive := by
  refine attentive_of_map (fun t₁ => ?_) h
  split
  · exact attentive_interrupt t₁
  · next hst => exact attentive_of_state hst

theorem attentive_groupKilled {t' : Task} {fatal : Option Nat}
    (h : t.groupKilled fatal = .ok t') : t'.Attentive := by
  rw [groupKilled] at h
  split at h
  · next hst =>
      cases h
      refine attentive_of_state fun hs => ?_
      rw [hs] at hst
      simp at hst
  · have hwoken : ∀ t : Task, (if t.state = .sleeping ∨ t.state = .stopped then
        { t with state := .runnable } else t).Attentive := by
      intro t
      split
      · exact attentive_of_state fun h => nomatch h
      · next hn => exact attentive_of_state fun hs => hn (.inl hs)
    cases fatal with
    | none =>
        cases h
        exact hwoken _
    | some sig => exact attentive_of_map hwoken h

theorem attentive_killProc (t : Task) : t.killProc.Attentive := by
  rw [killProc]
  split
  · exact attentive_of_state fun h => nomatch h
  · next hn => exact attentive_of_state fun hs => hn (.inl hs)

end Task

namespace SuspendSystem

/-- When the caller falls asleep with a signal that counts, one is pending
that the second look does not pass over. -/
def Noticed (s : SuspendSystem) : SuspendEvent → Prop
  | .sleep => (∃ sig, s.task.Counts sig) → s.task.Interrupted
  | _ => True

def AttentiveAsleep (s : SuspendSystem) : Prop :=
  s.pc = .asleep → s.task.Attentive

theorem attentive_sleepSection
    (h : (∃ sig, t.Counts sig) → t.Interrupted) : (sleepSection t).Attentive := by
  rw [sleepSection]
  split
  · exact Task.attentive_of_state fun h => nomatch h
  next hno =>
  intro _
  have hi : ¬ Task.Interrupted { t with state := .sleeping } := fun hi =>
    hno ((Task.shouldInterrupt_iff _).mpr hi)
  exact Task.hasUnmaskedSignalPending_of_quiet hi fun sig hc => hi (h ⟨sig, hc⟩)

theorem attentive_sent {s s' : SuspendSystem} {r : Except Panic Task}
    (hr : ∀ t, r = .ok t → s.pc = .asleep → t.Attentive)
    (h : s.sent r = some s') : s'.AttentiveAsleep := by
  cases r with
  | error e => cases h
  | ok t =>
      cases h
      exact fun hpc => hr t rfl hpc

theorem attentive_step {s s' : SuspendSystem} {e : SuspendEvent}
    (hs : s.AttentiveAsleep) (hC : s.Noticed e) (h : s.step e = some s') : s'.AttentiveAsleep := by
  cases e with
  | call mask =>
      rw [step] at h
      split at h
      · cases h
        exact fun hpc => nomatch hpc
      · cases h
  | check =>
      rw [step] at h
      split at h
      · split at h
        · cases h
          exact fun hpc => nomatch hpc
        · cases h
          exact fun hpc => nomatch hpc
      · cases h
  | sleep =>
      rw [step] at h
      split at h
      · cases h
        exact fun _ => attentive_sleepSection hC
      · cases h
  | resume =>
      rw [step] at h
      split at h
      · cases h
        exact fun hpc => nomatch hpc
      · cases h
  | wakeup =>
      rw [step] at h
      split at h
      · cases h
        exact fun _ => Task.attentive_of_state fun h => nomatch h
      · cases h
        exact hs
  | send sender sig info =>
      exact attentive_sent (fun t ht hpc => Task.attentive_send (hs hpc) ht) h
  | childExit sig => exact attentive_sent (fun t ht _ => Task.attentive_childExit ht) h
  | intervalTimer sig =>
      refine attentive_sent (fun t ht _ => ?_) h
      exact Task.attentive_of_map (fun t₁ => Task.attentive_interrupt t₁) ht
  | groupKilled fatal =>
      exact attentive_sent (fun t ht _ => Task.attentive_groupKilled ht) h
  | killProc =>
      cases h
      exact fun _ => Task.attentive_killProc s.task

/-- A step that is not `Noticed` puts the caller to sleep with the signal. -/
theorem sleepsThrough_of_not_noticed {s s' : SuspendSystem} {e : SuspendEvent}
    (hC : ¬ s.Noticed e) (h : s.step e = some s') : s'.SleepsThrough := by
  cases e with
  | sleep =>
      rw [step] at h
      split at h
      · obtain ⟨⟨sig, hcounts⟩, hi⟩ := Classical.not_imp.mp hC
        have hno : ¬ Task.shouldInterruptBlockingSyscall
            { s.task with state := .sleeping } = true := fun hsh =>
          hi ((Task.shouldInterrupt_iff _).mp hsh)
        have hsec : sleepSection s.task = { s.task with state := .sleeping } :=
          if_neg hno
        cases h
        rw [hsec]
        exact ⟨rfl, rfl, sig, hcounts⟩
      · cases h
  | _ => exact absurd trivial hC

/-- In every run whose steps are `Noticed` the caller never sleeps through a
signal, and a step that is not makes it do so. -/
theorem suspend_run_attentive (t : Task) (events : List SuspendEvent)
    (s : SuspendSystem) (hr : Run.Guarded step Noticed (start t) events s) :
    ¬ s.SleepsThrough ∧ ∀ e s', s.step e = some s' → ¬ s.Noticed e → s'.SleepsThrough := by
  refine ⟨?_, fun e s' h hC => sleepsThrough_of_not_noticed hC h⟩
  intro ⟨hpc, hst, sig, hcounts⟩
  have hinv : s.AttentiveAsleep :=
    hr.inv (fun hs hC h => attentive_step hs hC h) fun hpc => nomatch hpc
  have hquiet := hinv hpc hst
  rw [Task.hasUnmaskedSignalPending_of_counts hcounts] at hquiet
  cases hquiet

/-- A task that handles `SIGUSR1`, with the given flags. -/
def handling (flags : Word) : Task :=
  { Task.fresh with
    actions := fun sig =>
      if sig = sigUsr1 then
        some { saHandler := 0x1000, saFlags := flags, saMask := 0 }
      else none }

/-- Without `SA_RESTART`, a signal between the two looks ends the sleep. -/
theorem suspend_run_attentive_usr1 : ∃ s, Run.Guarded step Noticed (start (handling 0))
        [.call 0, .check, .send .kill sigUsr1 none, .sleep] s ∧
      s.task.state = .runnable ∧ ¬ s.SleepsThrough := by
  have hi : ∀ t : Task, sigIsMember t.signal sigUsr1 = true →
      t.signalInterrupts sigUsr1 = true → t.Interrupted := fun t hmem hint =>
    .inr ⟨sigUsr1, by decide, by decide, hmem, hint⟩
  have hrun : Run.Guarded step Noticed (start (handling 0))
      [.call 0, .check, .send .kill sigUsr1 none, .sleep] _ :=
    .cons trivial rfl (.cons trivial rfl (.cons trivial rfl
      (.cons (fun _ => hi _ (by decide) (by decide)) rfl (.nil _))))
  exact ⟨_, hrun, by decide, (suspend_run_attentive _ _ _ hrun).1⟩

/-- With `SA_RESTART`, the caller sleeps and the signal is pending. -/
theorem suspend_sleeps_through : ∃ s,
    [SuspendEvent.call 0, .check, .send .kill sigUsr1 none, .sleep].foldlM step
        (start (handling saRestart)) = some s ∧ s.SleepsThrough :=
  ⟨_, rfl, by decide, by decide, sigUsr1, by decide, by decide, by decide, by decide, by decide⟩

end SuspendSystem

end F7ly.Proc.Signal
