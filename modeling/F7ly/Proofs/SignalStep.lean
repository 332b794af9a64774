import F7ly.Proc.SignalPass

/-!
# What the signal functions do to a task

One lemma for each function that the passes call: which bits of the pending
set it changes, and that a delivery either pushes one frame for its handler or
leaves the frames alone and kills the task. The invariants of the dispatch
system are derived from these, without opening the functions again.
-/

namespace F7ly.Proc.Signal

/-- Sending `sig` takes a pending `n` back: a continue and a stop cancel each
other. -/
def cancels (sig n : Nat) : Bool :=
  sig == sigCont && isJobControlStopSignal n || isJobControlStopSignal sig && n == sigCont

variable {sig : Nat} {t t' : Task} {act : SigAction} {d : Delivery} {s s' : SignalSystem}

theorem sigIsMember_sigBit {n : Nat} (hs : sig ≠ 0 ∧ sig ≤ sigRtMax)
    (hn : n ≠ 0) : sigIsMember (sigBit sig) n = decide (n = sig) := by
  rw [sigIsMember, sigBit, BitVec.getLsbD_twoPow]
  have hlt : sig - 1 < 64 := by
    have := hs.2
    rw [sigRtMax] at this
    omega
  have hiff : sig - 1 = n - 1 ↔ n = sig := by omega
  simp [hlt, hiff]

@[simp] theorem sigIsMember_or (a b : SigSet) (n : Nat) :
    sigIsMember (a ||| b) n = (sigIsMember a n || sigIsMember b n) := by
  simp [sigIsMember]

theorem sigIsMember_diff (a b : SigSet) {n : Nat} (hn : n ≤ sigRtMax) :
    sigIsMember (a &&& ~~~b) n = (sigIsMember a n && !sigIsMember b n) := by
  have hlt : n - 1 < 64 := by
    rw [sigRtMax] at hn
    omega
  simp [sigIsMember, hlt]

@[simp] theorem sigIsMember_zero (n : Nat) : sigIsMember 0#64 n = false := by
  simp [sigIsMember]

theorem stopSignalMask_sigBit :
    ∀ sig, sig < 65 → sig ≠ 0 →
      (stopSignalMask &&& sigBit sig != 0) = isJobControlStopSignal sig := by
  decide

theorem sigIsMember_stopSignalMask :
    ∀ n, n < 65 → n ≠ 0 → sigIsMember stopSignalMask n = isJobControlStopSignal n := by
  decide

theorem sigIsMember_continueSignalMask :
    ∀ n, n < 65 → n ≠ 0 → sigIsMember continueSignalMask n = (n == sigCont) := by
  decide

theorem isJobControlStopSignal_sigCont : isJobControlStopSignal sigCont = false := by
  decide

theorem TrapFrame.set_self (tf : TrapFrame) (r : Fin 32) (v : Word) : (tf.set r v).gregs r = v :=
  if_pos rfl

def Loop.Started : Loop → Prop
  | .async i | .rest i => 0 < i
  | .sync _ => True

namespace Task

/-- What `add_signal` does: the signal is pending, and what it cancels is
not. -/
structure Added (t : Task) (sig : Nat) (t' : Task) : Prop where
  member : ∀ n, n ≠ 0 → n ≤ sigRtMax → sigIsMember t'.signal n =
    (decide (n = sig) || sigIsMember t.signal n && !cancels sig n)
  actions : t'.actions = t.actions
  sigmask : t'.sigmask = t.sigmask
  state : t'.state = t.state

theorem addSignal_added (t : Task) (hs : sig ≠ 0) (hmax : sig ≤ sigRtMax) (info : Option SigInfo) :
    ∃ t', t.addSignal sig info = .ok t' ∧ t.Added sig t' := by
  have hlt : sig < 65 := Nat.lt_succ_of_le hmax
  have hvalid : ¬ (sig = 0 ∨ sig > sigRtMax) := by omega
  have hmember : ∀ n, n ≠ 0 → n ≤ sigRtMax → sigIsMember
      (t.signal &&& ~~~(if sig = sigCont then stopSignalMask
        else if stopSignalMask &&& sigBit sig != 0 then continueSignalMask
        else 0) ||| sigBit sig) n =
      (decide (n = sig) || sigIsMember t.signal n && !cancels sig n) := by
    intro n hn hnmax
    have hnlt : n < 65 := Nat.lt_succ_of_le hnmax
    rw [sigIsMember_or, sigIsMember_diff _ _ hnmax, sigIsMember_sigBit ⟨hs, hmax⟩ hn, Bool.or_comm]
    congr 2
    rw [stopSignalMask_sigBit sig hlt hs, cancels]
    split
    · next hcont =>
      rw [sigIsMember_stopSignalMask n hnlt hn, hcont]
      simp [isJobControlStopSignal_sigCont]
    next hcont =>
    have hne : (sig == sigCont) = false := by simpa using hcont
    rw [hne]
    split
    · next hstop =>
      rw [sigIsMember_continueSignalMask n hnlt hn, hstop]
      simp
    · next hstop =>
      simp [hstop]
  rw [addSignal, if_neg hvalid]
  cases info with
  | some info =>
      refine ⟨_, rfl, ⟨?_, ?_, ?_, ?_⟩⟩ <;> split <;> first | exact hmember | rfl
  | none =>
      refine ⟨_, rfl, ⟨?_, ?_, ?_, ?_⟩⟩ <;> split <;> first | exact hmember | rfl

theorem clearRead_eq (hs : sig ≠ 0) (hmax : sig ≤ sigRtMax)
    (hm : sigIsMember t.signal sig = true) : t.clearRead sig = .ok t.signal := by
  have hvalid : ¬ (sig = 0 ∨ sig > sigRtMax) := by omega
  rw [clearRead, if_neg hvalid, hm]
  rfl

theorem pending_of_clearRead {read : SigSet} (h : t.clearRead sig = .ok read) :
    read = t.signal ∧ sig ≠ 0 ∧ sig ≤ sigRtMax ∧ sigIsMember t.signal sig = true := by
  rw [clearRead] at h
  split at h
  · cases h
  next hvalid =>
  split at h
  · cases h
  · next hm =>
    cases h
    exact ⟨rfl, by omega, by omega, by simpa using hm⟩

/-- `clear_signal` takes one bit out of what it has read. -/
theorem clearWrite_member (t : Task) (hs : sig ≠ 0) (hmax : sig ≤ sigRtMax) (read : SigSet)
    {n : Nat} (hn : n ≠ 0) (hnmax : n ≤ sigRtMax) :
    sigIsMember (t.clearWrite sig read).signal n = (sigIsMember read n && decide (n ≠ sig)) := by
  rw [clearWrite, sigIsMember_diff _ _ hnmax, sigIsMember_sigBit ⟨hs, hmax⟩ hn]
  simp

/-- What any sender does to its target. -/
structure Sent (t : Task) (sig : Nat) (t' : Task) : Prop where
  grows : ∀ n, n ≠ 0 → n ≤ sigRtMax → sigIsMember t'.signal n = true →
    sigIsMember t.signal n = true ∨ (n = sig ∧ sig ≠ 0)
  keeps : ∀ n, n ≠ 0 → n ≤ sigRtMax → sigIsMember t.signal n = true →
    cancels sig n = false → sigIsMember t'.signal n = true
  actions : t'.actions = t.actions
  sigmask : t'.sigmask = t.sigmask
  stopped : t'.state = .stopped → t.state = .stopped ∧ sig ≠ sigCont ∧ sig ≠ sigKill
  running : t.state = .running → t'.state = .running

theorem Sent.refl (h : t.state = .stopped → sig ≠ sigCont ∧ sig ≠ sigKill) : t.Sent sig t :=
  ⟨fun _ _ _ hm => .inl hm, fun _ _ _ hm _ => hm, rfl, rfl,
    fun hst => ⟨hst, h hst⟩, id⟩

theorem Sent.of_added {t'' : Task} (hs : sig ≠ 0)
    (ha : t.Added sig t') (hsignal : t''.signal = t'.signal)
    (hactions : t''.actions = t'.actions) (hmask : t''.sigmask = t'.sigmask)
    (hstopped : t''.state = .stopped → t'.state = .stopped ∧ sig ≠ sigCont ∧ sig ≠ sigKill)
    (hrunning : t'.state = .running → t''.state = .running) : t.Sent sig t'' := by
  refine ⟨fun n hn hmax hm => ?_, fun n hn hmax hm hc => ?_,
    hactions.trans ha.actions, hmask.trans ha.sigmask, fun hst => ?_, ?_⟩
  · rw [hsignal, ha.member n hn hmax] at hm
    by_cases hsig : n = sig
    · exact .inr ⟨hsig, hs⟩
    · simp [hsig] at hm
      exact .inl hm.1
  · rw [hsignal, ha.member n hn hmax, hm, hc]
    simp
  · have := hstopped hst
    rwa [ha.state] at this
  · intro hrun
    exact hrunning (ha.state.trans hrun)

theorem resume_stopped (h : (t.resume sig).state = .stopped) :
    t.state = .stopped ∧ sig ≠ sigCont ∧ sig ≠ sigKill := by
  rw [resume] at h
  split at h
  · cases h
  · next hn =>
    refine ⟨h, fun hc => hn ⟨h, .inl hc⟩, fun hk => hn ⟨h, .inr hk⟩⟩

theorem send_sent (t : Task) (hmax : sig ≤ sigRtMax) (info : Option SigInfo) (sender : Sender) :
    ∃ t', t.send sig info sender = .ok t' ∧ t.Sent sig t' := by
  have hzero : sig = 0 → t.Sent sig t := fun h =>
    .refl fun _ => by rw [h]; decide
  by_cases hs : sig = 0
  · refine ⟨t, ?_, hzero hs⟩
    cases sender <;> simp [send, killSignal, tkill, timerSignal, hs]
  obtain ⟨t₁, hadd, ha⟩ := t.addSignal_added hs hmax info
  have hinterrupt : t₁.interruptSleepForSignal = (t₁, false) ∨ t₁.state = .sleeping ∧
        t₁.interruptSleepForSignal = ({ t₁ with state := .runnable }, true) := by
    rw [interruptSleepForSignal]
    split
    · exact .inl rfl
    · next h =>
      rw [not_or, ne_eq, not_not] at h
      exact .inr ⟨h.1, rfl⟩
  have hresume : t.Sent sig (t₁.resume sig) := by
    refine .of_added hs ha ?_ ?_ ?_ (fun h => resume_stopped h) ?_ <;>
      rw [resume] <;> split <;> first | rfl | exact id | skip
    next h =>
      intro hrun
      rw [hrun] at h
      cases h.1
  have hsleep : ¬ (t₁.state = .stopped ∧ (sig = sigCont ∨ sig = sigKill)) →
      t.Sent sig t₁.interruptSleepForSignal.1 := by
    intro hno
    rcases hinterrupt with he | ⟨hst, he⟩ <;> rw [he]
    · exact .of_added hs ha rfl rfl rfl (fun hstop =>
        ⟨hstop, fun hc => hno ⟨hstop, .inl hc⟩,
          fun hk => hno ⟨hstop, .inr hk⟩⟩) id
    · exact .of_added hs ha rfl rfl rfl (fun h => nomatch h)
        (fun hrun => by rw [hst] at hrun; cases hrun)
  cases sender with
  | kill =>
      simp only [send, killSignal, if_neg hs, hadd]
      refine ⟨_, rfl, ?_⟩
      dsimp only
      split
      · exact hresume
      · next hno => exact hsleep hno
  | tkill =>
      simp only [send, tkill, if_neg hs, hadd]
      refine ⟨_, rfl, ?_⟩
      dsimp only
      split
      · next hst => exact hsleep fun h => by rw [hst] at h; cases h.1
      · exact hresume
  | timer =>
      have hvalid : ¬ (sig = 0 ∨ sig > sigRtMax) := by omega
      simp only [send, timerSignal, if_neg hvalid]
      split
      · next hst =>
        refine ⟨t, rfl, .refl fun hstop => ?_⟩
        rw [hstop] at hst
        rcases hst with h | h <;> cases h
      · rw [hadd]
        refine ⟨_, rfl, ?_⟩
        dsimp only
        rcases hinterrupt with he | ⟨hst, he⟩
        · rw [he]
          exact hresume
        · rw [he]
          have := hsleep fun h => by rw [hst] at h; cases h.1
          rwa [he] at this

/-- What a delivery does not touch, as long as no frame is pushed. -/
structure Same (t t' : Task) : Prop where
  signal : t'.signal = t.signal
  actions : t'.actions = t.actions
  state : t'.state = t.state
  sigFrame : t'.sigFrame = t.sigFrame

theorem Same.trans {t'' : Task} (h : t.Same t') (h' : t'.Same t'') : t.Same t'' :=
  ⟨h'.signal.trans h.signal, h'.actions.trans h.actions,
    h'.state.trans h.state, h'.sigFrame.trans h.sigFrame⟩

theorem same_kill (t : Task) : t.Same t.kill := ⟨rfl, rfl, rfl, rfl⟩

theorem same_chooseStack (t : Task) (act : SigAction) : t.Same (t.chooseStack act) := by
  rw [chooseStack]
  split <;> exact ⟨rfl, rfl, rfl, rfl⟩

theorem same_restore (t : Task) : t.Same t.restoreSigsuspendMaskNow := by
  rw [restoreSigsuspendMaskNow]
  split <;> exact ⟨rfl, rfl, rfl, rfl⟩

theorem same_consume (t : Task) : t.Same t.consumeSignalRestoreMask.2 := by
  rw [consumeSignalRestoreMask]
  split <;> exact ⟨rfl, rfl, rfl, rfl⟩

def Built (t : Task) : Except Task Task → Prop
  | .ok t' => t.Same t'
  | .error t' => t.Same t' ∧ t'.killed = true

theorem Built.bind {t₀ : Task} {x : Except Task Task}
    {f : Task → Except Task Task} (h₀ : t.Same t₀) (hx : t₀.Built x)
    (hf : ∀ t', t.Same t' → t.Built (f t')) : t.Built (x >>= f) := by
  cases x with
  | ok t' => exact hf t' (h₀.trans hx)
  | error t' => exact ⟨h₀.trans hx.1, hx.2⟩

theorem built_require (t : Task) (prepared : Bool) : t.Built (t.require prepared) := by
  rw [require]
  split
  · exact ⟨rfl, rfl, rfl, rfl⟩
  · exact ⟨same_kill t, rfl⟩

theorem built_tryCopyOut (t : Task) (ok : Bool) (addr : Word)
    (ws : List Word) : t.Built (t.tryCopyOut ok addr ws) := by
  rw [tryCopyOut]
  split
  · exact ⟨rfl, rfl, rfl, rfl⟩
  · exact ⟨same_kill t, rfl⟩

theorem built_of_same {t₀ : Task} {x : Except Task Task} (h₀ : t.Same t₀)
    (hx : t₀.Built x) : t.Built x := by
  cases x with
  | ok t' => exact h₀.trans hx
  | error t' => exact ⟨h₀.trans hx.1, hx.2⟩

theorem same_setRegs (h : t.Same t') (tf : TrapFrame) : t.Same (t'.setRegs tf) :=
  h.trans ⟨rfl, rfl, rfl, rfl⟩

theorem buildSiginfoFrame_built (t : Task) (signum : Nat) (act : SigAction)
    (restore : SigSet) (tf : TrapFrame) (d : Delivery) :
    t.Built (t.buildSiginfoFrame signum act restore tf d) := by
  refine .bind (same_chooseStack t act) (built_require _ _) fun t₁ h₁ => ?_
  refine .bind h₁ (built_tryCopyOut _ _ _ _) fun t₂ h₂ => ?_
  refine .bind h₂ (built_tryCopyOut _ _ _ _) fun t₃ h₃ => ?_
  refine .bind (same_setRegs h₃ _) (built_tryCopyOut _ _ _ _) fun t₄ h₄ => ?_
  exact built_of_same h₄ (built_tryCopyOut _ _ _ _)

theorem buildPlainFrame_built (t : Task) (signum : Nat) (act : SigAction)
    (d : Delivery) : t.Built (t.buildPlainFrame signum act d) := by
  refine .bind (same_chooseStack t act) (built_require _ _) fun t₁ h₁ => ?_
  refine .bind (same_setRegs h₁ _) (built_tryCopyOut _ _ _ _) fun t₂ h₂ => ?_
  exact built_of_same (same_setRegs h₂ _) (built_tryCopyOut _ _ _ _)

theorem buildFrame_built (t : Task) (signum : Nat) (act : SigAction)
    (restore : SigSet) (tf : TrapFrame) (d : Delivery) :
    t.Built (t.buildFrame signum act restore tf d) := by
  rw [buildFrame]
  split
  · exact buildSiginfoFrame_built ..
  · exact buildPlainFrame_built ..

/-- A delivery that got past its checks. -/
structure Handled (t : Task) (act : SigAction) (t' : Task) : Prop where
  signal : t'.signal = t.signal
  actions : t'.actions = t.actions
  state : t'.state = t.state
  frame : (∃ f, t'.sigFrame = f :: t.sigFrame ∧ t'.trapframe.epc = act.saHandler) ∨
    (t'.sigFrame = t.sigFrame ∧ t'.killed = true)

theorem Handled.of_killed (h : t.Same t') (hk : t'.killed = true) : t.Handled act t' :=
  ⟨h.signal, h.actions, h.state, .inr ⟨h.sigFrame, hk⟩⟩

theorem deliver_handled (t : Task) (signum : Nat) (act : SigAction) (d : Delivery) :
    match t.deliver signum act d with
    | .ok t' => t.Handled act t' ∧ ∃ f, f.page = d.page ∧ t'.sigFrame = f :: t.sigFrame
    | .error t' => t.Handled act t' ∧ t'.sigFrame = t.sigFrame := by
  have hsame : t.Same (t.consumeSignalRestoreMask.2.prepare signum act d) :=
    (same_consume t).trans ⟨rfl, rfl, rfl, rfl⟩
  have hbuilt := built_of_same hsame (buildFrame_built _ signum act
    t.consumeSignalRestoreMask.1 t.consumeSignalRestoreMask.2.trapframe d)
  rw [deliver]
  dsimp only
  -- Pushing the frame is all that happens after it was built.
  cases hx : (t.consumeSignalRestoreMask.2.prepare signum act d).buildFrame
      signum act t.consumeSignalRestoreMask.1
      t.consumeSignalRestoreMask.2.trapframe d with
  | ok t' =>
      rw [hx] at hbuilt
      have hbuilt : t.Same t' := hbuilt
      have hframe := congrArg (SignalFrame.mk t.consumeSignalRestoreMask.1
        t.consumeSignalRestoreMask.2.trapframe d.page :: ·) hbuilt.sigFrame
      exact ⟨⟨hbuilt.signal, hbuilt.actions, hbuilt.state,
        .inl ⟨_, hframe, TrapFrame.set_self ..⟩⟩, _, rfl, hframe⟩
  | error t' =>
      rw [hx] at hbuilt
      exact ⟨.of_killed hbuilt.1 hbuilt.2, hbuilt.1.sigFrame⟩

/-- `do_handle` on an unblocked signal with a handler does not panic. -/
theorem doHandle_handled {signum : Nat}
    (hdfl : act.saHandler ≠ sigDfl) (hign : act.saHandler ≠ sigIgn)
    (herr : act.saHandler ≠ sigErr) (hmask : t.isIgnored signum = false) (d : Delivery) :
    ∃ t', t.doHandle signum (some act) d = .ok t' ∧ t.Handled act t' := by
  rw [doHandle]
  simp only [if_neg hdfl, if_neg hign, if_neg herr, hmask, Bool.false_eq_true, if_false]
  split
  · exact ⟨_, rfl, .of_killed (same_kill t) rfl⟩
  · have h := deliver_handled t signum act d
    split <;> next t' he => exact ⟨t', rfl, by rw [he] at h; exact h.1⟩

theorem doHandle_cases {signum : Nat} (h : t.doHandle signum (some act) d = .ok t') :
    (d.allocOk = false ∧ t' = t.kill) ∨ (d.allocOk = true ∧
      (t.deliver signum act d = .ok t' ∨ t.deliver signum act d = .error t')) := by
  rw [doHandle] at h
  repeat' split at h
  all_goals cases h
  · next hno => exact .inl ⟨by simpa using hno, rfl⟩
  · next hyes _ he => exact .inr ⟨by simpa using hyes, .inl he⟩
  · next hyes _ he => exact .inr ⟨by simpa using hyes, .inr he⟩

theorem handled_of_doHandle {signum : Nat} (h : t.doHandle signum (some act) d = .ok t') :
    t.Handled act t' := by
  have hd := deliver_handled t signum act d
  obtain ⟨-, rfl⟩ | ⟨-, he | he⟩ := doHandle_cases h
  · exact .of_killed (same_kill t) rfl
  · rw [he] at hd
    exact hd.1
  · rw [he] at hd
    exact hd.1

def caught (t : Task) (sig : Nat) : Bool :=
  match t.disposition sig with
  | .handler _ => true
  | _ => false

theorem disposition_handler (h : t.disposition sig = .handler act) :
    t.actions sig = some act ∧ act.saHandler ≠ sigDfl ∧ act.saHandler ≠ sigIgn := by
  rw [disposition] at h
  split at h
  · cases h
  next act' hact =>
  split at h
  · cases h
  next hdfl =>
  split at h
  · cases h
  next hign =>
  cases h
  exact ⟨hact, hdfl, hign⟩

theorem same_resetHandler (t : Task) (sig : Nat) (act : SigAction) :
    (t.resetHandler sig act).signal = t.signal ∧ (t.resetHandler sig act).state = t.state := by
  rw [resetHandler]
  split <;> exact ⟨rfl, rfl⟩

/-- Where a look leads: the pass is over, the loop goes on, or it found a
pending signal; the loops over all signals pass over blocked ones. -/
inductive ScannedTo (t : Task) (l : Loop) : Pc → Prop
  | ended : ScannedTo t l .idle
  | onward {l' : Loop} (h : l.Started → l'.Started) : ScannedTo t l (.scan l')
  | found {sig : Nat} (hpos : l.Started → sig ≠ 0) (hmax : sig ≤ sigRtMax)
      (hm : sigIsMember t.signal sig = true)
      (hmask : (∀ k, l ≠ .sync k) → t.isIgnored sig = false) :
      ScannedTo t l (.act sig l)

theorem syncSignals_valid : ∀ sig ∈ syncSignals, sig ≠ 0 ∧ sig ≤ sigRtMax := by
  decide

theorem scan_scannedTo (t : Task) (l : Loop) : t.ScannedTo l (t.scan l) := by
  have hall : ∀ i, (∀ k, l ≠ .sync k) → (l.Started → i ≠ 0) → (l.Started → l.next.Started) →
      t.ScannedTo l (if ¬ (i ≤ sigRtMax ∧ t.signal ≠ 0) then .idle
        else if t.deliverable i then .act i l else .scan l.next) := by
    intro i hl hpos hnext
    split
    · exact .ended
    next hgo =>
    have hgo := not_not.mp hgo
    split
    · next hd =>
      rw [deliverable, Bool.and_eq_true, Bool.not_eq_true'] at hd
      exact .found hpos hgo.1 hd.1 fun _ => hd.2
    · exact .onward hnext
  cases l with
  | async i =>
      exact hall i (fun _ h => nomatch h) (fun h => Nat.ne_of_gt h)
        (fun _ => Nat.succ_pos i)
  | rest i =>
      exact hall i (fun _ h => nomatch h) (fun h => Nat.ne_of_gt h)
        (fun _ => Nat.succ_pos i)
  | sync k =>
      rw [scan]
      split
      · exact .onward fun _ => Nat.one_pos
      next sig hsig =>
      obtain ⟨hpos, hmax⟩ := syncSignals_valid sig (List.mem_of_getElem? hsig)
      split
      · next hm => exact .found (fun _ => hpos) hmax hm fun h => absurd rfl (h k)
      · exact .onward id

/-- No entry of the table is `SIG_ERR`. -/
def TableOk (t : Task) : Prop :=
  ∀ n act, t.actions n = some act → act.saHandler ≠ sigErr

theorem TableOk.congr (h : t.TableOk) (hactions : t'.actions = t.actions) : t'.TableOk := by
  intro n act hact
  rw [hactions] at hact
  exact h n act hact

theorem TableOk.resetHandler (h : t.TableOk) (sig : Nat)
    (act : SigAction) : (t.resetHandler sig act).TableOk := by
  rw [Task.resetHandler]
  split
  · intro n act' hact'
    dsimp only at hact'
    split at hact'
    · cases hact'
      exact show sigDfl ≠ sigErr by decide
    · exact h n act' hact'
  · exact h

theorem TableOk.sigAction (h : t.TableOk) (flag : Int)
    (newact : Option SigAction) (allocOk : Bool) : (t.sigAction flag newact allocOk).2.TableOk := by
  have hput : ∀ entry : Option SigAction, (∀ act, entry = some act → act.saHandler ≠ sigErr) →
      ({ t with actions := fun n =>
        if n = flag.toNat then entry else t.actions n } : Task).TableOk := by
    intro entry hentry n act hact
    dsimp only at hact
    split at hact
    · exact hentry act hact
    · exact h n act hact
  unfold Task.sigAction
  split
  · exact h
  split
  · exact h
  split
  · exact h
  split
  · exact h
  next act herr =>
  split
  · exact hput none fun _ he => nomatch he
  split
  · refine hput (some act) fun act' he => ?_
    cases he
    exact herr
  · exact hput none fun _ he => nomatch he

/-- Where the action leads. -/
inductive ActedTo (t : Task) (sig : Nat) (l : Loop) : Pc → Prop
  | exited : ActedTo t sig l (.exited sig)
  | dequeue (hl : ∀ i, l ≠ .rest i) :
      ActedTo t sig l (.dequeue ⟨sig, t.isIgnored sig, false, .default⟩ l)
  | stopping {i : Nat} (hl : l = .rest i) :
      ActedTo t sig l (.stopping ⟨sig, t.isIgnored sig, false, .default⟩ l)
  | default :
      ActedTo t sig l (.clear ⟨sig, t.isIgnored sig, false, .default⟩ l)
  | ignored (h : t.disposition sig = .ignore) :
      ActedTo t sig l (.clear ⟨sig, t.isIgnored sig, false, .ignored⟩ l)
  | bare {i : Nat} {act : SigAction} (hl : l = .rest i)
      (h : t.disposition sig = .handler act) :
      ActedTo t sig l (.clear ⟨sig, t.isIgnored sig, true, .bare⟩ l)
  | caught {how : How} (hhow : how = .frame ∨ how = .killed) :
      ActedTo t sig l (.clear ⟨sig, t.isIgnored sig, true, how⟩ l)

structure Acted (t : Task) (sig : Nat) (l : Loop) (t' : Task) (pc : Pc) :
    Prop where
  signal : t'.signal = t.signal
  state : t'.state = t.state
  table : t.TableOk → t'.TableOk
  leads : t.ActedTo sig l pc

theorem acted_of_act {l : Loop}
    {pc : Pc} (h : t.act sig l d = .ok (t', pc)) : t.Acted sig l t' pc := by
  have hr := same_restore t
  have htable : t.TableOk → t.restoreSigsuspendMaskNow.TableOk :=
    fun ht => ht.congr hr.actions
  rw [act] at h
  split at h
  · split at h
    · split at h <;> cases h
      · exact ⟨hr.signal, hr.state, htable, .stopping rfl⟩
      all_goals
        exact ⟨hr.signal, hr.state, htable, .dequeue fun _ he => nomatch he⟩
    · split at h <;> cases h
      · exact ⟨hr.signal, hr.state, htable, .exited⟩
      · exact ⟨hr.signal, hr.state, htable, .default⟩
  · next hign =>
    cases h
    exact ⟨hr.signal, hr.state, htable, .ignored hign⟩
  next a hhandler =>
  -- Both loops that deliver do it the same way.
  have hdeliver : (t.doHandle sig (some a) d).map (fun t' =>
        (t'.resetHandler sig a, Pc.clear ⟨sig, t.isIgnored sig, true,
          if t'.sigFrame.length > t.sigFrame.length then .frame
          else .killed⟩ l)) = .ok (t', pc) → t.Acted sig l t' pc := by
    intro h
    cases hd : t.doHandle sig (some a) d with
    | error e => rw [hd] at h; cases h
    | ok t'' =>
        rw [hd] at h
        cases h
        have hh := handled_of_doHandle hd
        have hs := same_resetHandler t'' sig a
        refine ⟨hs.1.trans hh.signal, hs.2.trans hh.state, fun ht =>
          (ht.congr hh.actions).resetHandler sig a, .caught ?_⟩
        split
        · exact .inl rfl
        · exact .inr rfl
  split at h
  · cases h
    exact ⟨rfl, rfl, id, .bare rfl hhandler⟩
  all_goals exact hdeliver h

theorem act_ok (ht : t.TableOk) {l : Loop}
    (h : ∀ act, t.disposition sig = .handler act → (∀ i, l ≠ .rest i) →
      t.isIgnored sig = false) (d : Delivery) : ∃ t' pc, t.act sig l d = .ok (t', pc) := by
  rw [act]
  split
  · split
    · split <;> exact ⟨_, _, rfl⟩
    · split <;> exact ⟨_, _, rfl⟩
  · exact ⟨_, _, rfl⟩
  next a hhandler =>
  obtain ⟨hact, hdfl, hign⟩ := disposition_handler hhandler
  have hdeliver : (∀ i, l ≠ .rest i) → ∃ t', t.doHandle sig (some a) d = .ok t' := by
    intro hl
    obtain ⟨t', hd, _⟩ := doHandle_handled hdfl hign (ht sig a hact)
      (h a hhandler hl) d
    exact ⟨t', hd⟩
  split
  · exact ⟨_, _, rfl⟩
  all_goals
    obtain ⟨t', hd⟩ := hdeliver fun _ he => nomatch he
    rw [hd]
    exact ⟨_, _, rfl⟩

/-- What a call of the task does not touch. -/
structure Called (t t' : Task) : Prop where
  signal : t'.signal = t.signal
  state : t'.state = t.state ∨ t'.state = .sleeping
  table : t.TableOk → t'.TableOk

theorem Called.of_same (hsignal : t'.signal = t.signal)
    (hstate : t'.state = t.state) (hactions : t'.actions = t.actions) : t.Called t' :=
  ⟨hsignal, .inl hstate, fun h => h.congr hactions⟩

theorem called_sigprocmask {how ret : Int} {newset : Option SigSet} {sigsize : Nat}
    (h : t.sigprocmask how newset sigsize = .ok (ret, t')) : t.Called t' := by
  unfold sigprocmask at h
  repeat' split at h
  all_goals cases h
  all_goals exact .of_same rfl rfl rfl

theorem called_sigAction (t : Task) (flag : Int) (newact : Option SigAction)
    (allocOk : Bool) : t.Called (t.sigAction flag newact allocOk).2 := by
  have hrest : (t.sigAction flag newact allocOk).2.signal = t.signal ∧
      (t.sigAction flag newact allocOk).2.state = t.state := by
    unfold sigAction
    repeat' split
    all_goals exact ⟨rfl, rfl⟩
  exact ⟨hrest.1, .inl hrest.2, fun h => h.sigAction flag newact allocOk⟩

theorem called_sigaltstack (t : Task) (ss : Option SignalStack) :
    t.Called (t.sigaltstack ss).2 := by
  unfold sigaltstack
  repeat' split
  all_goals exact .of_same rfl rfl rfl

theorem called_popFrame (h : t.popFrame = .ok t') : t.Called t' := by
  rw [popFrame] at h
  split at h <;> cases h
  exact .of_same rfl rfl rfl

theorem called_sigReturn (h : t.sigReturn = .ok t') : t.Called t' := by
  rw [sigReturn] at h
  split at h
  · cases h
  split at h
  · cases h
  split at h
  · cases h
  split at h
  · exact called_popFrame h
  split at h
  · cases h
  cases hp : t.popFrame with
  | error p => rw [hp] at h; cases h
  | ok t₁ =>
      rw [hp] at h
      cases h
      have hc := called_popFrame hp
      exact ⟨hc.signal, hc.state, fun ht => (hc.table ht).congr rfl⟩

theorem called_run {c : TaskCall} (h : c.run t = .ok t') : t.Called t' := by
  cases c with
  | sleep =>
      cases h
      exact ⟨rfl, .inr rfl, fun ht => ht.congr rfl⟩
  | sigprocmask how newset sigsize =>
      rw [TaskCall.run] at h
      cases hr : t.sigprocmask how newset sigsize with
      | error p => rw [hr] at h; cases h
      | ok r =>
          rw [hr] at h
          cases h
          exact called_sigprocmask hr
  | sigsuspend mask =>
      cases h
      exact .of_same rfl rfl rfl
  | sigAction flag newact allocOk =>
      cases h
      exact called_sigAction t flag newact allocOk
  | sigaltstack ss =>
      cases h
      exact called_sigaltstack t ss
  | sigReturn => exact called_sigReturn h
  | user tf mem mapped =>
      cases h
      exact .of_same rfl rfl rfl

end Task

namespace SignalSystem

def advance (s : SignalSystem) (e : SignalEvent) : Option SignalSystem :=
  match s.step e with
  | some (.ok s') => some s'
  | _ => none

theorem step_of_advance {e : SignalEvent}
    (h : s.advance e = some s') : s.step e = some (.ok s') := by
  rw [advance] at h
  split at h
  · next hs =>
    cases h
    exact hs
  · cases h

theorem read_ok {stop : Bool} {taken : Taken} {l : Loop} (h : s.read stop taken l = .ok s') :
    (taken.sig ≠ 0 ∧ taken.sig ≤ sigRtMax ∧ sigIsMember s.task.signal taken.sig = true) ∧
      s' = { s with pc := .store s.task.signal stop taken l, summoned := !stop && s.summoned } := by
  rw [read] at h
  cases hc : s.task.clearRead taken.sig with
  | error p => rw [hc] at h; cases h
  | ok r =>
      rw [hc] at h
      cases h
      obtain ⟨rfl, hpending⟩ := Task.pending_of_clearRead hc
      exact ⟨hpending, rfl⟩

/-- Everything a step without a panic can be. The write of `clear_signal` is the
only change a step of the task itself makes to the pending set. -/
inductive Steps (s : SignalSystem) : SignalEvent → SignalSystem → Prop
  | send {sender : Sender} {sig : Nat} {info : Option SigInfo} {stale : SigSet} {t : Task}
      (hmax : sig ≤ sigRtMax)
      (ht : ({ s.task with signal := s.task.signal ||| stale } : Task).Sent sig t) :
      Steps s (.send sender sig info stale)
        { s with
          task := t,
          arrived := fun n =>
            if n = sig ∧ sig ≠ 0 then s.arrived n + 1 else s.arrived n,
          summoned := decide (sig = sigCont ∨ sig = sigKill) || s.summoned }
  | none {sync : Bool} : Steps s (.enter sync) s
  | enter {sync : Bool} (hpc : s.pc = .idle) {l : Loop} (hl : l.Started) :
      Steps s (.enter sync) { s with pc := .scan l }
  | scan {d : Delivery} {l : Loop} {pc : Pc} (hpc : s.pc = .scan l)
      (h : s.task.ScannedTo l pc) : Steps s (.step d) { s with pc }
  | act {d : Delivery} {sig : Nat} {l : Loop} {t : Task} {pc : Pc}
      (hrun : s.task.state = .running) (hpc : s.pc = .act sig l)
      (h : s.task.Acted sig l t pc) {summoned : Bool}
      (hs : (summoned = s.summoned ∧ ∀ taken l, pc ≠ .stopping taken l) ∨ summoned = false) :
      Steps s (.step d) { s with task := t, pc, summoned }
  | read {d : Delivery} {stop : Bool} {taken : Taken} {l : Loop}
      (hpc : s.pc = .dequeue taken l ∧ stop = true ∨ s.pc = .clear taken l ∧ stop = false)
      (hpending : taken.sig ≠ 0 ∧ taken.sig ≤ sigRtMax ∧
        sigIsMember s.task.signal taken.sig = true) :
      Steps s (.step d)
        { s with pc := .store s.task.signal stop taken l, summoned := !stop && s.summoned }
  | store {d : Delivery} {read : SigSet} {stop : Bool} {taken : Taken} {l : Loop}
      (hpc : s.pc = .store read stop taken l) :
      Steps s (.step d)
        { s with task := s.task.clearWrite taken.sig read,
                 pc := if stop then .stopping taken l else Task.afterClear l,
                 log := taken :: s.log }
  | stopping {d : Delivery} {taken : Taken} {l : Loop}
      (hpc : s.pc = .stopping taken l) :
      Steps s (.step d)
        { s with task := s.task.stopCurrent taken.sig, pc := .stopped taken l }
  | stopped {d : Delivery} {taken : Taken} {l : Loop}
      (hrun : s.task.state = .running) (hpc : s.pc = .stopped taken l) :
      Steps s (.step d) { s with pc := Task.afterStop taken l }
  | call {c : TaskCall} {t : Task} (hpc : s.pc = .idle)
      (h : s.task.Called t) : Steps s (.call c) { s with task := t }
  | run : Steps s .run { s with task := { s.task with state := .running } }
  | wake : Steps s .wake { s with task := { s.task with state := .runnable } }

theorem steps_taskStep (hrun : s.task.state = .running) (h : s.taskStep d = some (.ok s')) :
    s.Steps (.step d) s' := by
  rw [taskStep] at h
  split at h
  · cases h
  · cases h
  · next l hpc =>
    cases h
    exact .scan hpc (s.task.scan_scannedTo l)
  · next sig l hpc =>
    cases ha : s.task.act sig l d with
    | error p => rw [ha] at h; cases h
    | ok r =>
        rw [ha] at h
        cases h
        refine .act hrun hpc (Task.acted_of_act ha) ?_
        split
        · exact .inr rfl
        · next hno => exact .inl ⟨rfl, hno⟩
  · next taken l hpc =>
    obtain ⟨hpending, rfl⟩ := read_ok (Option.some.inj h)
    exact .read (.inl ⟨hpc, rfl⟩) hpending
  · next taken l hpc =>
    cases h
    exact .stopping hpc
  · next taken l hpc =>
    cases h
    exact .stopped hrun hpc
  · next taken l hpc =>
    obtain ⟨hpending, rfl⟩ := read_ok (Option.some.inj h)
    exact .read (.inr ⟨hpc, rfl⟩) hpending
  · next read stop taken l hpc =>
    cases h
    exact .store hpc

theorem steps_of_step {e : SignalEvent} (h : s.step e = some (.ok s')) : s.Steps e s' := by
  cases e with
  | send sender sig info stale =>
      simp only [step] at h
      split at h
      · next hok =>
        obtain ⟨t, ht, hsent⟩ := Task.send_sent { s.task with signal := s.task.signal ||| stale }
          hok.1 info sender
        rw [ht] at h
        cases h
        exact .send hok.1 hsent
      · cases h
  | enter sync =>
      simp only [step] at h
      split at h
      · next hpc =>
        split at h
        · split at h <;> cases h
          · exact .none
          · refine .enter hpc ?_
            split
            · exact trivial
            · exact Nat.one_pos
        · cases h
      · cases h
  | step d =>
      simp only [step] at h
      split at h
      · next hrun => exact steps_taskStep hrun h
      · cases h
  | call c =>
      simp only [step] at h
      split at h
      · next hpc =>
        split at h
        · cases hc : c.run s.task with
          | error p => rw [hc] at h; cases h
          | ok t =>
              rw [hc] at h
              cases h
              exact .call hpc (Task.called_run hc)
        · cases h
      · cases h
  | run =>
      simp only [step] at h
      split at h <;> cases h
      exact .run
  | wake =>
      simp only [step] at h
      split at h <;> cases h
      exact .wake

end SignalSystem

def someHandler : SigAction :=
  { saHandler := 4096, saFlags := 0, saMask := 0 }

/-- A frame page, the user pages and all the copies are to be had. -/
def plentyMemory : Delivery :=
  { allocOk := true, top := 8192, prepared := true, copies := 4,
    trampoline := 0 }

def noMemory : Delivery :=
  { allocOk := false, top := 0, prepared := false, copies := 0,
    trampoline := 0 }

end F7ly.Proc.Signal
