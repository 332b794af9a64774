import F7ly.Lib.Run
import F7ly.Proofs.SignalStep

/-!
# Signals taken by a pass

Every bit a pass takes out of the pending set is on its log, with what was
done for the signal. The law is that a signal with a handler is taken only
with a frame for the handler or with the task killed, that no blocked signal
is taken, that a signal is taken no more often than it was sent, and that
no other bit leaves the pending set.

Both passes obey the law only if no sender is in the middle of `_signal` when
`clear_signal` is: a signal sent between its read and its write is gone
without a note. Besides, `handle_sync_signal` obeys it as long as the
synchronous signal it picks is not blocked, and its second loop meets no
signal with a handler: that loop has no branch for one and takes the bit
out all the same.
-/

namespace F7ly.Proc.Signal

open F7ly

/-- What is noted of a signal is in order. -/
structure Taken.Lawful (taken : Taken) : Prop where
  caught : taken.caught = true → taken.how = .frame ∨ taken.how = .killed
  unblocked : taken.blocked = false

/-- The note a pass carries to the point where the bit is taken out. -/
def Pc.carried : Pc → Option Taken
  | .dequeue taken _ | .clear taken _ | .store _ _ taken _ => some taken
  | .stopping taken (.rest _) | .stopped taken (.rest _) => some taken
  | _ => none

/-- Between the read and the write of `clear_signal`. -/
def Pc.storing : Pc → Bool
  | .store .. => true
  | _ => false

variable {s s' : SignalSystem}

namespace SignalSystem

/-- How often a signal was taken, and whether it is pending still. -/
def accounted (s : SignalSystem) (n : Nat) : Nat :=
  s.log.countP (fun taken => taken.sig == n) + if sigIsMember s.task.signal n then 1 else 0

structure Lawful (s : SignalSystem) : Prop where
  taken : ∀ taken ∈ s.log, taken.Lawful
  once : ∀ n, n ≠ 0 → n ≤ sigRtMax → s.accounted n ≤ s.arrived n

/-- What a step takes out of the pending set is noted, or a sender cancels it. -/
def Noted (s : SignalSystem) (e : SignalEvent) (s' : SignalSystem) : Prop :=
  ∀ n, n ≠ 0 → n ≤ sigRtMax → sigIsMember s.task.signal n = true →
    sigIsMember s'.task.signal n = true ∨ (∃ taken, s'.log = taken :: s.log ∧ taken.sig = n) ∨
      ∃ sender sig info stale, e = .send sender sig info stale ∧ cancels sig n = true

/-- No sender's update of the pending set overlaps one of `clear_signal`, a
synchronous signal is picked unblocked, and the second loop of
`handle_sync_signal` meets no signal with a handler. -/
def Dispatched (s : SignalSystem) : SignalEvent → Prop
  | .send _ _ _ stale => s.pc.storing = false ∧ stale = 0
  | .step _ =>
      match s.pc with
      | .act sig (.sync _) => s.task.isIgnored sig = false
      | .act sig (.rest _) => s.task.caught sig = false
      | _ => True
  | _ => True

instance (s : SignalSystem) : (e : SignalEvent) → Decidable (s.Dispatched e)
  | .step _ =>
      match hpc : s.pc with
      | .act sig (.sync _) => decidable_of_iff (s.task.isIgnored sig = false)
          (by simp only [Dispatched, hpc])
      | .act sig (.rest _) => decidable_of_iff (s.task.caught sig = false)
          (by simp only [Dispatched, hpc])
      | .act _ (.async _) | .idle | .scan _ | .dequeue .. | .stopping ..
      | .stopped .. | .clear .. | .store .. | .exited _ =>
          isTrue (by simp only [Dispatched, hpc])
  | .send _ _ _ stale => inferInstanceAs (Decidable (s.pc.storing = false ∧ stale = 0))
  | .enter _ | .call _ | .run | .wake => inferInstanceAs (Decidable True)

structure TakenInv (s : SignalSystem) : Prop where
  lawful : s.Lawful
  carried : ∀ taken, s.pc.carried = some taken → taken.Lawful
  unblocked : ∀ sig l, s.pc = .act sig l → (∀ k, l ≠ .sync k) → s.task.isIgnored sig = false
  /-- What `clear_signal` has read is still so. -/
  fresh : ∀ read stop taken l, s.pc = .store read stop taken l → read = s.task.signal ∧
    taken.sig ≠ 0 ∧ taken.sig ≤ sigRtMax ∧ sigIsMember read taken.sig = true

/-- A place in the pass that carries only lawful notes, is past the look at the
mask and has nothing read. -/
theorem TakenInv.of_pc (hlawful : s.Lawful)
    (hcarried : ∀ taken, s.pc.carried = some taken → taken.Lawful)
    (hact : ∀ sig l, s.pc ≠ .act sig l) (hstore : s.pc.storing = false) : s.TakenInv := by
  refine ⟨hlawful, hcarried, fun sig l h => absurd h (hact sig l), fun _ _ _ _ h => ?_⟩
  rw [h] at hstore
  cases hstore

theorem Lawful.congr (hs : s.Lawful) (hlog : s'.log = s.log) (harrived : s'.arrived = s.arrived)
    (hsignal : s'.task.signal = s.task.signal) : s'.Lawful := by
  refine ⟨fun taken h => hs.taken taken (hlog ▸ h), fun n hn hmax => ?_⟩
  rw [accounted, hlog, hsignal, harrived]
  exact hs.once n hn hmax

theorem Lawful.take (hs : s.Lawful) {taken : Taken} (ht : taken.Lawful) (hpos : taken.sig ≠ 0)
    (hmax : taken.sig ≤ sigRtMax) (hm : sigIsMember s.task.signal taken.sig = true) (pc : Pc) :
    ({ s with task := s.task.clearWrite taken.sig s.task.signal, pc,
              log := taken :: s.log } : SignalSystem).Lawful := by
  refine ⟨fun u hu => ?_, fun n hn hnmax => ?_⟩
  · rcases List.mem_cons.mp hu with rfl | hu
    · exact ht
    · exact hs.taken u hu
  · have hold := hs.once n hn hnmax
    rw [accounted] at hold ⊢
    show List.countP _ (taken :: s.log) + _ ≤ s.arrived n
    rw [List.countP_cons, Task.clearWrite_member _ hpos hmax _ hn hnmax]
    by_cases hsig : taken.sig = n
    · subst hsig
      rw [hm] at hold
      simpa using hold
    · have hne : n ≠ taken.sig := fun h => hsig h.symm
      simpa [hsig, hne] using hold

theorem Lawful.send (hs : s.Lawful) {sig : Nat} {t : Task}
    (ht : s.task.Sent sig t) (summoned : Bool) :
    ({ s with
       task := t,
       arrived := fun n =>
         if n = sig ∧ sig ≠ 0 then s.arrived n + 1 else s.arrived n,
       summoned } : SignalSystem).Lawful := by
  refine ⟨hs.taken, fun n hn hmax => ?_⟩
  have hold := hs.once n hn hmax
  rw [accounted] at hold
  show List.countP _ s.log + (if sigIsMember t.signal n then 1 else 0) ≤
    if n = sig ∧ sig ≠ 0 then s.arrived n + 1 else s.arrived n
  by_cases hsig : n = sig ∧ sig ≠ 0
  · split at hold <;> split <;> omega
  · rw [if_neg hsig]
    by_cases hm : sigIsMember t.signal n = true
    · rw [if_pos ((ht.grows n hn hmax hm).resolve_right hsig)] at hold
      rw [if_pos hm]
      exact hold
    · rw [if_neg hm]
      exact Nat.le_trans (Nat.le_add_right _ _) hold

theorem lawful_of_actedTo (hs : s.TakenInv) {d : Delivery}
    (hC : s.Dispatched (.step d)) {sig : Nat} {l : Loop} {pc : Pc}
    (hpc : s.pc = .act sig l) (h : s.task.ActedTo sig l pc) :
    ∀ taken, pc.carried = some taken → taken.Lawful := by
  have hmask : s.task.isIgnored sig = false := by
    cases l with
    | sync k =>
        simp only [Dispatched, hpc] at hC
        exact hC
    | async i => exact hs.unblocked sig _ hpc fun _ he => nomatch he
    | rest i => exact hs.unblocked sig _ hpc fun _ he => nomatch he
  intro taken htaken
  cases h with
  | exited => cases htaken
  | stopping hl =>
      subst hl
      cases htaken
      exact ⟨fun h => (nomatch h), hmask⟩
  | dequeue | default | ignored =>
      cases htaken
      exact ⟨fun h => (nomatch h), hmask⟩
  | bare hl hd =>
      subst hl
      simp only [Dispatched, hpc, Task.caught, hd] at hC
      cases hC
  | caught hhow =>
      cases htaken
      exact ⟨fun _ => hhow, hmask⟩

/-- A sender that read the pending set as it is. -/
theorem sent_of_dispatched {sender : Sender} {sig : Nat} {info : Option SigInfo}
    {stale : SigSet} {t : Task} (hC : s.Dispatched (.send sender sig info stale))
    (ht : ({ s.task with signal := s.task.signal ||| stale } : Task).Sent sig t) :
    s.task.Sent sig t := by
  obtain ⟨-, rfl⟩ := hC
  rwa [show s.task.signal ||| (0 : SigSet) = s.task.signal from BitVec.or_zero] at ht

theorem TakenInv.step {e : SignalEvent} (hs : s.TakenInv) (hC : s.Dispatched e)
    (h : s.Steps e s') : s'.TakenInv := by
  cases h with
  | send hmax ht =>
      have ht := sent_of_dispatched hC ht
      refine ⟨hs.lawful.send ht _, hs.carried, fun n l hpc hl => ?_, fun _ _ _ _ hpc => ?_⟩
      · have hold := hs.unblocked n l hpc hl
        rw [Task.isIgnored] at hold ⊢
        rwa [ht.sigmask]
      · have hno := hC.1
        rw [show s.pc = _ from hpc] at hno
        cases hno
  | none => exact hs
  | enter hpc hl => exact .of_pc (hs.lawful.congr rfl rfl rfl) nofun nofun rfl
  | scan hpc h =>
      cases h with
      | ended | onward => exact .of_pc (hs.lawful.congr rfl rfl rfl) nofun nofun rfl
      | found _ _ _ hmask =>
          refine ⟨hs.lawful.congr rfl rfl rfl, nofun, fun n l he hl => ?_, nofun⟩
          cases he
          exact hmask hl
  | act hrun hpc h hsum =>
      refine .of_pc (hs.lawful.congr rfl rfl h.signal)
        (lawful_of_actedTo hs hC hpc h.leads) (fun n l he => ?_) ?_
      · cases he
        cases h.leads
      · cases h.leads <;> rfl
  | @read _ stop taken l hpc hpending =>
      have ht : taken.Lawful := by
        refine hs.carried taken ?_
        obtain ⟨hpc, -⟩ | ⟨hpc, -⟩ := hpc <;> rw [hpc] <;> rfl
      refine ⟨hs.lawful.congr rfl rfl rfl, fun u hu => ?_, nofun, fun _ _ _ _ he => ?_⟩
      · cases hu
        exact ht
      · cases he
        exact ⟨rfl, hpending⟩
  | @store _ read stop taken l hpc =>
      obtain ⟨rfl, hpos, hmax, hm⟩ := hs.fresh read stop taken l hpc
      have ht := hs.carried taken (by rw [hpc]; rfl)
      refine .of_pc (hs.lawful.take ht hpos hmax hm _) (fun u hu => ?_) (fun _ _ he => ?_) ?_
      · cases stop <;> cases l <;> cases hu
        exact ht
      · cases stop <;> cases l <;> cases he
      · cases stop <;> cases l <;> rfl
  | @stopping _ taken l hpc =>
      refine .of_pc (hs.lawful.congr rfl rfl rfl) (fun u hu => ?_) nofun rfl
      cases l <;> cases hu
      exact hs.carried taken (by rw [hpc]; rfl)
  | @stopped _ taken l hrun hpc =>
      refine .of_pc (hs.lawful.congr rfl rfl rfl) (fun u hu => ?_)
        (fun _ _ he => by cases l <;> cases he) (by cases l <;> rfl)
      cases l <;> cases hu
      exact hs.carried taken (by rw [hpc]; rfl)
  | call hpc h =>
      refine .of_pc (hs.lawful.congr rfl rfl h.signal) hs.carried (fun n l he => ?_) ?_
      · rw [show s.pc = .act n l from he] at hpc
        cases hpc
      · show s.pc.storing = false
        rw [hpc]
        rfl
  | run => exact ⟨hs.lawful.congr rfl rfl rfl, hs.carried, hs.unblocked, hs.fresh⟩
  | wake => exact ⟨hs.lawful.congr rfl rfl rfl, hs.carried, hs.unblocked, hs.fresh⟩

theorem TakenInv.noted {e : SignalEvent} (hs : s.TakenInv) (hC : s.Dispatched e)
    (h : s.Steps e s') : s.Noted e s' := by
  intro n hn hmax hm
  cases h with
  | @send sender sig info stale t _ ht =>
      cases hc : cancels sig n with
      | true => exact .inr (.inr ⟨sender, sig, info, stale, rfl, hc⟩)
      | false => exact .inl ((sent_of_dispatched hC ht).keeps n hn hmax hm hc)
  | act _ _ h _ => exact .inl (h.signal ▸ hm)
  | call _ h => exact .inl (h.signal ▸ hm)
  | @store _ read stop taken l hpc =>
      obtain ⟨rfl, hpos, hmax', -⟩ := hs.fresh read stop taken l hpc
      by_cases hsig : n = taken.sig
      · exact .inr (.inl ⟨taken, rfl, hsig.symm⟩)
      · refine .inl ?_
        rw [Task.clearWrite_member _ hpos hmax' _ hn hmax, hm]
        simpa using hsig
  | none | enter | scan | read | stopping | stopped | run | wake => exact .inl hm

theorem takenInv_init (t : Task) : (init t).TakenInv := by
  refine .of_pc ⟨nofun, fun n _ _ => ?_⟩ nofun nofun rfl
  exact Nat.le_of_eq (Nat.zero_add _)

end SignalSystem

/-- In every run that meets the condition the law holds and no bit leaves the
pending set without a note; and a delivery that is noted as a frame is one for the
handler, a delivery noted as a kill has killed the task. -/
theorem signal_run_lawful {t : Task} {events : List SignalEvent} {s : SignalSystem}
    (hr : Run.Guarded SignalSystem.advance SignalSystem.Dispatched (.init t) events s) :
    s.Lawful ∧ (∀ e s', s.Dispatched e → s.advance e = some s' → s.Noted e s') ∧
    ∀ (t t' : Task) (sig : Nat) (act : SigAction) (d : Delivery),
      t.doHandle sig (some act) d = .ok t' → (∃ frame, t'.sigFrame = frame :: t.sigFrame ∧
          t'.trapframe.epc = act.saHandler) ∨ (t'.sigFrame = t.sigFrame ∧ t'.killed = true) := by
  have hinv : s.TakenInv := hr.inv (fun hs hC h => hs.step hC (SignalSystem.steps_of_step
    (SignalSystem.step_of_advance h))) (SignalSystem.takenInv_init t)
  refine ⟨hinv.lawful, fun e s' hC h => ?_,
    fun t t' sig act d h => (Task.handled_of_doHandle h).frame⟩
  exact hinv.noted hC (SignalSystem.steps_of_step (SignalSystem.step_of_advance h))

/-- A user signal with a handler, sent while the task is in the kernel. -/
def sendCaught : List SignalEvent :=
  [.call (.sigAction sigUsr1 (some someHandler) true), .send .tkill sigUsr1 none]

/-- `handle_signal` takes it with a frame, and `handle_sync_signal` finds
nothing left. -/
theorem signal_run_lawful_frame : ∃ s,
    Run.Guarded SignalSystem.advance SignalSystem.Dispatched (.init .fresh)
      (sendCaught ++ .enter false :: List.replicate 14 (.step plentyMemory) ++ [.enter true]) s ∧
    s.log = [{ sig := sigUsr1, blocked := false, caught := true,
               how := .frame }] ∧ s.Lawful := by
  have hr : Run.Guarded SignalSystem.advance SignalSystem.Dispatched (.init .fresh)
      (sendCaught ++ .enter false :: List.replicate 14 (.step plentyMemory) ++ [.enter true]) _ :=
    .of_foldlM rfl
  exact ⟨_, hr, rfl, (signal_run_lawful hr).1⟩

/-- The signal comes after `handle_signal` has returned: the second loop of
`handle_sync_signal` takes it, and no handler is entered. -/
def lateCaught : List SignalEvent :=
  .enter false :: sendCaught ++ .enter true :: List.replicate 20 (.step plentyMemory)

theorem signal_run_lateCaught :
    ∃ s, lateCaught.foldlM SignalSystem.advance (.init .fresh) = some s ∧
      sigIsMember s.task.signal sigUsr1 = false ∧
      s.task.sigFrame.length = 0 ∧ s.task.killed = false ∧
      s.log = [{ sig := sigUsr1, blocked := false, caught := true,
                 how := .bare }] ∧ ¬ s.Lawful := by
  refine ⟨_, rfl, rfl, rfl, rfl, rfl, fun h => ?_⟩
  rcases (h.taken _ (List.mem_singleton_self _)).caught rfl with he | he <;> cases he

/-- In a pass of `handle_signal` that takes an ignored signal, one with a handler
is sent between the read and the write: it is gone, and nobody has seen it. -/
example :
    let events : List SignalEvent :=
      [.call (.sigAction sigUsr1 (some someHandler) true), .send .tkill sigChld none,
        .enter false] ++ List.replicate 19 (.step noMemory) ++
        [.send .tkill sigUsr1 none, .step noMemory]
    ∃ s, events.foldlM SignalSystem.advance (.init .fresh) = some s ∧
      s.task.signal = 0 ∧ s.log.map Taken.sig = [sigChld] ∧ s.arrived sigUsr1 = 1 :=
  ⟨_, rfl, rfl, rfl, rfl⟩

end F7ly.Proc.Signal
