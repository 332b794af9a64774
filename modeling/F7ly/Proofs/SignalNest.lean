import F7ly.Lib.Run
import F7ly.Proc.SignalNest
import F7ly.Proofs.SignalStep

/-!
# Delivery and return are nested

A delivery writes the registers and the mask twice, to the kernel's list of
frames and to the user's frame. The invariant is that the kernel's list is
what the outstanding deliveries found, one entry each, and that every user
frame reads back what was stored in it, so whichever of the two a return
takes, it brings back what the matching delivery found.

The alternate stack is one boolean and one set of flags, and neither is in a
frame. A return sets the boolean to false whatever the outer frames are, and
nothing takes back what `SS_AUTODISARM` or a `sigaltstack` call in a handler
did to the settings. `Plain` leaves these out.
-/

namespace F7ly.Proc.Signal

open F7ly F7ly.Bytes NestSystem List

theorem sanitizeSignalMask_idem (mask : SigSet) :
    sanitizeSignalMask (sanitizeSignalMask mask) = sanitizeSignalMask mask := by
  rw [sanitizeSignalMask, sanitizeSignalMask, BitVec.and_assoc, BitVec.and_self]

theorem wordAt_sigmask (stackSp sigSize : Word) (sigmask : SigSet) (tf : TrapFrame) :
    wordAt (wordsBytes (usercontextWords stackSp sigSize sigmask tf)) sigmaskWord = sigmask :=
  wordAt_wordsBytes rfl

theorem wordAt_gregs (stackSp sigSize : Word) (sigmask : SigSet) (tf : TrapFrame) (r : Fin 32) :
    wordAt (wordsBytes (usercontextWords stackSp sigSize sigmask tf))
      (gregsWord + r.val) = tf.gregs r := by
  refine wordAt_wordsBytes ?_
  have hlen : ([0, 0, stackSp, 0, sigSize] ++
      (sigmask :: List.replicate 15 0) ++ [0]).length = gregsWord := rfl
  rw [usercontextWords, List.append_assoc,
    List.getElem?_append_right (by exact Nat.le_add_right _ _), hlen,
    Nat.add_sub_cancel_left,
    List.getElem?_append_left (by exact r.isLt),
    List.getElem?_ofFn, dif_pos r.isLt]

theorem length_usercontext (stackSp sigSize : Word) (sigmask : SigSet) (tf : TrapFrame) :
    (wordsBytes (usercontextWords stackSp sigSize sigmask tf)).length = usercontextBytes := by
  simp [usercontextWords, usercontextBytes]

theorem length_info (info : SigInfo) : (wordsBytes info.words).length = siginfoBytes := by
  simp [SigInfo.words, siginfoBytes]

/-- The user frame that a delivery for `act` leaves at `sp`. -/
structure Framed (mem : Word → UInt8) (sp : Word) (act : SigAction)
    (mask : SigSet) (tf : TrapFrame) : Prop where
  guard : load mem sp 8 = wordsBytes [guardWord]
  marker : load mem (sp + 8) 8 = wordsBytes [if act.has saSiginfo then siginfoMarker else 0]
  uctx : act.has saSiginfo = true → ∃ stackSp sigSize : Word, load mem (sp + 144) usercontextBytes =
      wordsBytes (usercontextWords stackSp sigSize mask tf)

/-- What is stored last at `sp` and next to it is read back. -/
theorem load_header (mem : Word → UInt8) (sp : Word) {G M : List UInt8}
    (hg : G.length = 8) (hm : M.length = 8) :
    load (store (store mem sp G) (sp + 8) M) sp 8 = G ∧
      load (store (store mem sp G) (sp + 8) M) (sp + 8) 8 = M ∧
      load (store (store mem (sp + 8) M) sp G) sp 8 = G ∧
      load (store (store mem (sp + 8) M) sp G) (sp + 8) 8 = M := by
  have hG := fun m => load_store_self m (a := sp) (j := 0) (c := G) (by omega)
  have hM := fun m => load_store_self m (a := sp) (j := 8) (c := M) (by omega)
  have hGM := fun m => load_store_apart m (a := sp) (j := 8) (c := M) (k := 0)
    (n := 8) (by omega) (by omega) (by omega)
  have hMG := fun m => load_store_apart m (a := sp) (j := 0) (c := G) (k := 8)
    (n := 8) (by omega) (by omega) (by omega)
  rw [hg] at hG
  rw [hm] at hM
  simp only [BitVec.add_zero] at hG hGM hMG
  exact ⟨(hGM _).trans (hG _), hM _, hG _, (hMG _).trans (hM _)⟩

theorem load_context (mem : Word → UInt8) (sp : Word) {U I G M : List UInt8}
    (hu : U.length = usercontextBytes) (hi : I.length = siginfoBytes)
    (hg : G.length = 8) (hm : M.length = 8) :
    load (store (store (store (store mem (sp + 144) U) (sp + 16) I) sp G)
      (sp + 8) M) (sp + 144) usercontextBytes = U := by
  rw [usercontextBytes] at hu ⊢
  rw [siginfoBytes] at hi
  have hU := load_store_self mem (a := sp) (j := 144) (c := U) (by omega)
  have hI := fun m => load_store_apart m (a := sp) (j := 16) (c := I)
    (k := 144) (n := 960) (by omega) (by omega) (by omega)
  have hG := fun m => load_store_apart m (a := sp) (j := 0) (c := G)
    (k := 144) (n := 960) (by omega) (by omega) (by omega)
  have hM := fun m => load_store_apart m (a := sp) (j := 8) (c := M)
    (k := 144) (n := 960) (by omega) (by omega) (by omega)
  rw [hu] at hU
  simp only [BitVec.add_zero] at hG
  exact (hM _).trans ((hG _).trans ((hI _).trans hU))

variable {act : SigAction} {t t' : Task} {signum : Nat} {mask : SigSet} {tf : TrapFrame}
  {d : Delivery} {o : Outstanding} {s : NestSystem}

theorem framed_siginfo (mem : Word → UInt8) (sp : Word)
    (hact : act.has saSiginfo = true) (info : SigInfo) (stackSp sigSize : Word)
    (mask : SigSet) (tf : TrapFrame) :
    Framed (store (store (store (store mem (sp + 144)
        (wordsBytes (usercontextWords stackSp sigSize mask tf))) (sp + 16)
        (wordsBytes info.words)) sp (wordsBytes [guardWord])) (sp + 8)
        (wordsBytes [siginfoMarker])) sp act mask tf := by
  obtain ⟨hguard, hmarker, _⟩ := load_header
    (store (store mem (sp + 144)
      (wordsBytes (usercontextWords stackSp sigSize mask tf))) (sp + 16)
      (wordsBytes info.words)) sp (length_wordsBytes [guardWord])
    (length_wordsBytes [siginfoMarker])
  refine ⟨hguard, ?_, fun _ => ⟨stackSp, sigSize, ?_⟩⟩
  · rw [hact]
    exact hmarker
  · exact load_context mem sp (length_usercontext stackSp sigSize mask tf)
      (length_info info) (length_wordsBytes [guardWord])
      (length_wordsBytes [siginfoMarker])

theorem framed_plain (mem : Word → UInt8) (sp : Word)
    (hact : act.has saSiginfo = false) (mask : SigSet) (tf : TrapFrame) :
    Framed (store (store mem (sp + 8) (wordsBytes [0])) sp
      (wordsBytes [guardWord])) sp act mask tf := by
  obtain ⟨_, _, hguard, hmarker⟩ := load_header mem sp
    (length_wordsBytes [guardWord]) (length_wordsBytes [0])
  refine ⟨hguard, ?_, fun h => ?_⟩
  · rw [hact]
    exact hmarker
  · rw [hact] at h
    cases h

namespace Task

theorem require_ok {prepared : Bool} (h : t.require prepared = .ok t') : t' = t := by
  rw [require] at h
  split at h <;> cases h
  rfl

/-- What the building of a frame carries over once the stack is chosen. -/
structure Kept (t t' : Task) : Prop where
  sigFrame : t'.sigFrame = t.sigFrame
  altStack : t'.altStack = t.altStack
  onSigstack : t'.onSigstack = t.onSigstack
  sigmask : t'.sigmask = t.sigmask
  pending : t'.sigsuspendRestorePending = t.sigsuspendRestorePending

theorem Kept.trans {t'' : Task} (h : t.Kept t') (h' : t'.Kept t'') : t.Kept t'' :=
  ⟨h'.sigFrame.trans h.sigFrame, h'.altStack.trans h.altStack,
    h'.onSigstack.trans h.onSigstack, h'.sigmask.trans h.sigmask,
    h'.pending.trans h.pending⟩

theorem kept_setRegs (t : Task) (tf : TrapFrame) : t.Kept (t.setRegs tf) :=
  ⟨rfl, rfl, rfl, rfl, rfl⟩

theorem tryCopyOut_ok {ok : Bool} {addr : Word} {ws : List Word}
    (h : t.tryCopyOut ok addr ws = .ok t') :
    t'.mem = store t.mem addr (wordsBytes ws) ∧ t'.trapframe = t.trapframe ∧ t.Kept t' := by
  rw [tryCopyOut] at h
  split at h <;> cases h
  exact ⟨rfl, rfl, ⟨rfl, rfl, rfl, rfl, rfl⟩⟩

theorem of_bind {x : Except Task Task} {f : Task → Except Task Task}
    (h : x >>= f = .ok t') : ∃ t, x = .ok t ∧ f t = .ok t' := by
  cases x with
  | error _ => cases h
  | ok t => exact ⟨t, rfl, h⟩

/-- A frame that was built reads back. -/
structure Placed (t : Task) (act : SigAction) (mask : SigSet) (tf : TrapFrame)
    (t' : Task) : Prop where
  framed : Framed t'.mem t'.trapframe.sp act mask tf
  kept : (t.chooseStack act).Kept t'

theorem buildSiginfoFrame_placed (hact : act.has saSiginfo = true)
    (h : t.buildSiginfoFrame signum act mask tf d = .ok t') : t.Placed act mask tf t' := by
  obtain ⟨t₁, h₁, h⟩ := of_bind h
  obtain ⟨t₂, h₂, h⟩ := of_bind h
  obtain ⟨t₃, h₃, h⟩ := of_bind h
  obtain ⟨t₄, h₄, h⟩ := of_bind h
  have h₁ := require_ok h₁
  obtain ⟨hmem₂, _, hkept₂⟩ := tryCopyOut_ok h₂
  obtain ⟨hmem₃, _, hkept₃⟩ := tryCopyOut_ok h₃
  obtain ⟨hmem₄, htf₄, hkept₄⟩ := tryCopyOut_ok h₄
  obtain ⟨hmem, htf, hkept⟩ := tryCopyOut_ok h
  have hsp : t'.trapframe.sp = siginfoFrameSp d := by
    rw [htf, htf₄]
    exact TrapFrame.set_self ..
  have hregs : ∀ regs, (t₃.setRegs regs).mem = t₃.mem := fun _ => rfl
  refine ⟨?_, ?_⟩
  · rw [hsp, hmem, hmem₄, hregs, hmem₃, hmem₂]
    exact framed_siginfo _ _ hact ..
  · rw [h₁] at hkept₂
    exact ((((hkept₂.trans hkept₃).trans (kept_setRegs t₃ _)).trans
      hkept₄).trans hkept)

theorem buildPlainFrame_placed (hact : act.has saSiginfo = false) (mask : SigSet) (tf : TrapFrame)
    (h : t.buildPlainFrame signum act d = .ok t') : t.Placed act mask tf t' := by
  obtain ⟨t₁, h₁, h⟩ := of_bind h
  obtain ⟨t₂, h₂, h⟩ := of_bind h
  have h₁ := require_ok h₁
  obtain ⟨hmem₂, _, hkept₂⟩ := tryCopyOut_ok h₂
  obtain ⟨hmem, htf, hkept⟩ := tryCopyOut_ok h
  have hsp : t'.trapframe.sp = d.top - 8 - 8 := by
    rw [htf]
    exact TrapFrame.set_self ..
  have hregs : ∀ (t : Task) regs, (t.setRegs regs).mem = t.mem :=
    fun _ _ => rfl
  have hmarker : d.top - 8 = d.top - 8 - 8 + 8 :=
    (BitVec.sub_add_cancel _ _).symm
  refine ⟨?_, ?_⟩
  · rw [hsp, hmem, hregs, hmem₂, hregs]
    nth_rewrite 1 [hmarker]
    exact framed_plain _ _ hact ..
  · rw [h₁] at hkept₂
    exact ((((kept_setRegs _ _).trans hkept₂).trans (kept_setRegs t₂ _)).trans
      hkept)

theorem wantsAltStack_congr {t₀ : Task} (halt : t₀.altStack = t.altStack)
    (hon : t₀.onSigstack = t.onSigstack) (act : SigAction) :
    t₀.wantsAltStack act = t.wantsAltStack act := by
  rw [wantsAltStack, wantsAltStack, halt, hon]

theorem chooseStack_fields (t : Task) (act : SigAction) :
    (t.chooseStack act).sigFrame = t.sigFrame ∧ (t.chooseStack act).onSigstack =
        (t.onSigstack || t.wantsAltStack act) ∧ (t.chooseStack act).sigmask = t.sigmask ∧
      (t.chooseStack act).sigsuspendRestorePending = t.sigsuspendRestorePending := by
  rw [chooseStack]
  split
  · next h =>
    rw [h, Bool.or_true]
    exact ⟨rfl, rfl, rfl, rfl⟩
  next h =>
  rw [Bool.not_eq_true] at h
  rw [h, Bool.or_false]
  exact ⟨rfl, rfl, rfl, rfl⟩

theorem altStack_chooseStack (h : t.wantsAltStack act = true →
      t.altStack.ssFlags &&& ssAutodisarm = 0) : (t.chooseStack act).altStack = t.altStack := by
  rw [chooseStack]
  split
  · next hw =>
    show (if _ then _ else _) = _
    rw [if_neg (not_not.mpr (h hw))]
  · rfl

/-- The first half of a delivery: the mask to come back to is taken, the mask
of the handler is set. -/
structure Prepared (t t₀ : Task) : Prop where
  trapframe : t.consumeSignalRestoreMask.2.trapframe = t.trapframe
  sigFrame : t₀.sigFrame = t.sigFrame
  altStack : t₀.altStack = t.altStack
  onSigstack : t₀.onSigstack = t.onSigstack
  sigmask : sanitizeSignalMask t₀.sigmask = t₀.sigmask
  pending : t₀.sigsuspendRestorePending = false

theorem prepared_prepare (t : Task) (signum : Nat) (act : SigAction) (d : Delivery) :
    t.Prepared (t.consumeSignalRestoreMask.2.prepare signum act d) := by
  have hmask := sanitizeSignalMask_idem
  rw [consumeSignalRestoreMask]
  split
  · next h =>
    refine ⟨?_, rfl, rfl, rfl, hmask _, rfl⟩
    rw [consumeSignalRestoreMask, if_pos h]
  · next h =>
    refine ⟨?_, rfl, rfl, rfl, hmask _, Bool.eq_false_iff.mpr h⟩
    rw [consumeSignalRestoreMask, if_neg h]

/-- A delivery that pushed its frame. -/
structure Delivered (t : Task) (act : SigAction) (t' : Task) : Prop where
  framed : Framed t'.mem t'.trapframe.sp act t.consumeSignalRestoreMask.1
    t.trapframe
  sigFrame : ∃ page, t'.sigFrame = ⟨t.consumeSignalRestoreMask.1, t.trapframe, page⟩ :: t.sigFrame
  altStack : (t.wantsAltStack act = true →
    t.altStack.ssFlags &&& ssAutodisarm = 0) → t'.altStack = t.altStack
  onSigstack : t'.onSigstack = (t.onSigstack || t.wantsAltStack act)
  sigmask : sanitizeSignalMask t'.sigmask = t'.sigmask
  pending : t'.sigsuspendRestorePending = false

theorem buildFrame_placed (h : t.buildFrame signum act mask tf d = .ok t') :
    t.Placed act mask tf t' := by
  rw [buildFrame] at h
  split at h
  · next hact => exact buildSiginfoFrame_placed hact h
  · next hact => exact buildPlainFrame_placed (Bool.eq_false_iff.mpr hact) _ _ h

theorem delivered_of_buildFrame
    (h : (t.consumeSignalRestoreMask.2.prepare signum act d).buildFrame signum
      act t.consumeSignalRestoreMask.1 t.trapframe d = .ok t') :
    t.Delivered act (t'.pushFrame act ⟨t.consumeSignalRestoreMask.1, t.trapframe, d.page⟩) := by
  have hp := t.prepared_prepare signum act d
  have hplaced := buildFrame_placed h
  generalize t.consumeSignalRestoreMask.2.prepare signum act d = t₀ at hp hplaced
  obtain ⟨hframe, hon, hmask, hpending⟩ := t₀.chooseStack_fields act
  have hwants := wantsAltStack_congr hp.altStack hp.onSigstack act
  have hkept := hplaced.kept
  refine ⟨hplaced.framed, ?_, fun hflags => ?_, ?_, ?_, ?_⟩
  · refine ⟨d.page, ?_⟩
    show _ :: t'.sigFrame = _
    rw [hkept.sigFrame, hframe, hp.sigFrame]
  · show t'.altStack = _
    rw [hkept.altStack, altStack_chooseStack, hp.altStack]
    rw [hwants, hp.altStack]
    exact hflags
  · show t'.onSigstack = _
    rw [hkept.onSigstack, hon, hp.onSigstack, hwants]
  · show sanitizeSignalMask t'.sigmask = t'.sigmask
    rw [hkept.sigmask, hmask]
    exact hp.sigmask
  · show t'.sigsuspendRestorePending = false
    rw [hkept.pending, hpending, hp.pending]

theorem delivered_of_doHandle (h : t.doHandle signum (some act) d = .ok t')
    (hlen : t.sigFrame.length < t'.sigFrame.length) : t.Delivered act t' := by
  have hp := t.prepared_prepare signum act d
  have hdeliver : t.deliver signum act d =
      ((t.consumeSignalRestoreMask.2.prepare signum act d).buildFrame signum
        act t.consumeSignalRestoreMask.1 t.trapframe d).map fun t' =>
          t'.pushFrame act ⟨t.consumeSignalRestoreMask.1, t.trapframe, d.page⟩ := by
    rw [← hp.trapframe]
    rfl
  obtain ⟨-, rfl⟩ | ⟨-, he | he⟩ := doHandle_cases h
  · exact absurd hlen (Nat.lt_irrefl _)
  · rw [hdeliver] at he
    cases hx : (t.consumeSignalRestoreMask.2.prepare signum act d).buildFrame
        signum act t.consumeSignalRestoreMask.1 t.trapframe d with
    | ok t₁ =>
        rw [hx] at he
        cases he
        exact delivered_of_buildFrame hx
    | error t₁ => rw [hx] at he; cases he
  · have hd := t.deliver_handled signum act d
    rw [he] at hd
    rw [hd.2] at hlen
    exact absurd hlen (Nat.lt_irrefl _)

theorem copyIn_of_unmodified (h : o.Unmodified t) {k n : Nat} (hkn : k + n ≤ o.act.frameSize) :
    t.copyIn (t.trapframe.sp + BitVec.ofNat 64 k) n =
      some (load o.after.mem (o.after.trapframe.sp + BitVec.ofNat 64 k) n) := by
  have haddr : ∀ i, t.trapframe.sp + BitVec.ofNat 64 k + BitVec.ofNat 64 i =
      t.trapframe.sp + BitVec.ofNat 64 (k + i) := by
    intro i
    rw [BitVec.add_assoc, ← BitVec.ofNat_add]
  rw [copyIn, if_pos]
  · rw [← h.1]
    refine congrArg some (load_congr fun i hi => ?_)
    rw [haddr]
    exact (h.2 (k + i) (by omega)).2
  · intro i hi
    rw [haddr]
    exact (h.2 (k + i) (by omega)).1

/-- What a return leaves. -/
structure Returned (t : Task) (mask : SigSet) (tf : TrapFrame)
    (next : List SignalFrame) (t' : Task) : Prop where
  trapframe : t'.trapframe = tf
  sigmask : t'.sigmask = sanitizeSignalMask mask
  sigFrame : t'.sigFrame = next
  altStack : t'.altStack = t.altStack
  onSigstack : t'.onSigstack = false
  pending : t'.sigsuspendRestorePending = t.sigsuspendRestorePending
  saved : t'.sigsuspendSavedSigmask = t.sigsuspendSavedSigmask

theorem popFrame_returned {page : Nat} {next : List SignalFrame}
    (hframe : t.sigFrame = ⟨mask, tf, page⟩ :: next) :
    ∃ t', t.popFrame = .ok t' ∧ t.Returned mask tf next t' := by
  rw [popFrame, hframe]
  exact ⟨_, rfl, ⟨rfl, rfl, rfl, rfl, rfl, rfl, rfl⟩⟩

theorem sigReturn_returned (h : o.Unmodified t) {page : Nat} {next : List SignalFrame}
    (hframed : Framed o.after.mem o.after.trapframe.sp o.act mask tf)
    (hframe : t.sigFrame = ⟨mask, tf, page⟩ :: next) :
    ∃ t', t.sigReturn = .ok t' ∧ t.Returned mask tf next t' := by
  have hsize : 16 ≤ o.act.frameSize := by
    rw [SigAction.frameSize]
    split <;> decide
  have hguard := copyIn_of_unmodified h (k := 0) (n := 8) (by omega)
  rw [BitVec.add_zero, BitVec.add_zero, hframed.guard] at hguard
  have hmarker : t.copyIn (t.trapframe.sp + 8) 8 = some
      (wordsBytes [if o.act.has saSiginfo then siginfoMarker else 0]) :=
    (copyIn_of_unmodified h (k := 8) (n := 8) (by omega)).trans
      (congrArg some hframed.marker)
  obtain ⟨t₁, hpop, hr⟩ := popFrame_returned hframe
  rw [sigReturn]
  simp only [hguard, hmarker, wordAt_wordsBytes (k := 0) (getElem?_cons_zero ..)]
  rw [if_neg (not_not.mpr rfl)]
  by_cases hact : o.act.has saSiginfo = true
  · obtain ⟨stackSp, sigSize, huctx⟩ := hframed.uctx hact
    have hcopy : t.copyIn (t.trapframe.sp + 144) usercontextBytes =
        some (wordsBytes (usercontextWords stackSp sigSize mask tf)) := by
      refine (copyIn_of_unmodified h (k := 144) ?_).trans (congrArg some huctx)
      rw [SigAction.frameSize, if_pos hact]
      decide
    simp only [hact, hcopy, hpop, wordAt_sigmask, wordAt_gregs]
    refine ⟨_, rfl, ⟨?_, rfl, hr.sigFrame, hr.altStack, hr.onSigstack, hr.pending, hr.saved⟩⟩
    show { t₁.trapframe with gregs := tf.gregs } = tf
    rw [hr.trapframe]
  · rw [if_neg hact, if_pos (by decide), hpop]
    exact ⟨t₁, rfl, hr⟩

/-- What a call other than `sig_return` and `sigsuspend` leaves: the frames,
and the alternate stack unless it is off it and sets it. -/
structure Continued (t : Task) (c : TaskCall) (t' : Task) : Prop where
  sigFrame : t'.sigFrame = t.sigFrame
  onSigstack : t'.onSigstack = t.onSigstack
  pending : t'.sigsuspendRestorePending = t.sigsuspendRestorePending
  saved : t'.sigsuspendSavedSigmask = t.sigsuspendSavedSigmask
  sigmask : sanitizeSignalMask t.sigmask = t.sigmask → sanitizeSignalMask t'.sigmask = t'.sigmask
  altStack : t'.altStack = t.altStack ∨ ∃ ss, c = .sigaltstack (some ss) ∧ t.onSigstack = false

theorem continued_sigprocmask {how ret : Int} {newset : Option SigSet} {sigsize : Nat}
    (h : t.sigprocmask how newset sigsize = .ok (ret, t')) :
    t.Continued (.sigprocmask how newset sigsize) t' := by
  unfold sigprocmask at h
  repeat' split at h
  all_goals cases h
  · exact ⟨rfl, rfl, rfl, rfl, id, .inl rfl⟩
  · exact ⟨rfl, rfl, rfl, rfl, id, .inl rfl⟩
  all_goals
    exact ⟨rfl, rfl, rfl, rfl, fun _ => sanitizeSignalMask_idem _, .inl rfl⟩

theorem continued_sigaltstack (t : Task) (ss : Option SignalStack) :
    t.Continued (.sigaltstack ss) (t.sigaltstack ss).2 := by
  have hsame : ∀ c, t.Continued c t := fun _ =>
    ⟨rfl, rfl, rfl, rfl, id, .inl rfl⟩
  cases ss with
  | none => exact hsame _
  | some ss =>
      rw [sigaltstack]
      split
      · exact hsame _
      split
      · exact hsame _
      next hoff =>
      rw [Bool.not_eq_true] at hoff
      split
      · exact ⟨rfl, rfl, rfl, rfl, id, .inr ⟨ss, rfl, hoff⟩⟩
      split
      · exact hsame _
      · exact ⟨rfl, rfl, rfl, rfl, id, .inr ⟨ss, rfl, hoff⟩⟩

theorem continued_run {c : TaskCall} (hreturn : c ≠ .sigReturn)
    (hsuspend : ∀ mask, c ≠ .sigsuspend mask) (h : c.run t = .ok t') : t.Continued c t' := by
  cases c with
  | sigReturn => exact absurd rfl hreturn
  | sigsuspend mask => exact absurd rfl (hsuspend mask)
  | sleep | user =>
      cases h
      exact ⟨rfl, rfl, rfl, rfl, id, .inl rfl⟩
  | sigprocmask how newset sigsize =>
      rw [TaskCall.run] at h
      cases hr : t.sigprocmask how newset sigsize with
      | error p => rw [hr] at h; cases h
      | ok r =>
          rw [hr] at h
          cases h
          exact continued_sigprocmask hr
  | sigAction flag newact allocOk =>
      cases h
      unfold sigAction
      repeat' split
      all_goals exact ⟨rfl, rfl, rfl, rfl, id, .inl rfl⟩
  | sigaltstack ss =>
      cases h
      exact continued_sigaltstack t ss

end Task

namespace NestSystem

/-- What a step can do. -/
inductive Steps (s : NestSystem) : NestEvent → NestSystem → Prop
  | deliver {signum : Nat} {act : SigAction} {d : Delivery} {t : Task}
      (h : s.task.Delivered act t) :
      Steps s (.deliver signum act d)
        { task := t,
          out := ⟨s.task, act, s.suspended.getD s.task.sigmask, t⟩ :: s.out,
          suspended := none }
  | settle :
      Steps s .settle
        { s with task := s.task.restoreSigsuspendMaskNow, suspended := none }
  | sigReturn {o : Outstanding} {out : List Outstanding} {t : Task}
      (hout : s.out = o :: out) (hu : o.Unmodified s.task)
      (h : s.task.sigReturn = .ok t) :
      Steps s (.call .sigReturn) { s with task := t, out }
  | sigsuspend (mask : SigSet) :
      Steps s (.call (.sigsuspend mask))
        { s with task := s.task.sigsuspend mask,
                 suspended := some s.task.sigmask }
  | call {c : TaskCall} {t : Task} (h : s.task.Continued c t) :
      Steps s (.call c) { s with task := t }

theorem steps_of_step {s' : NestSystem} {e : NestEvent}
    (h : s.step e = some s') : s.Steps e s' := by
  have hcall : ∀ c : TaskCall, c ≠ .sigReturn → (∀ mask, c ≠ .sigsuspend mask) →
      ((c.run s.task).toOption.map fun task => { s with task }) = some s' →
      s.Steps (.call c) s' := by
    intro c hreturn hsuspend h
    cases hr : c.run s.task with
    | error p => rw [hr] at h; cases h
    | ok t =>
        rw [hr] at h
        cases h
        exact .call (Task.continued_run hreturn hsuspend hr)
  cases e with
  | deliver signum act d =>
      rw [step, deliver] at h
      split at h
      · cases h
      next t ht =>
      split at h <;> cases h
      next hlen => exact .deliver (Task.delivered_of_doHandle ht hlen)
  | settle =>
      cases h
      exact .settle
  | call c =>
      cases c with
      | sigReturn =>
          rw [step, sigReturn] at h
          split at h
          · cases h
          next o out hout =>
          split at h
          · next hu =>
            cases hr : s.task.sigReturn with
            | error p => rw [hr] at h; cases h
            | ok t =>
                rw [hr] at h
                cases h
                exact .sigReturn hout hu hr
          · cases h
      | sigsuspend mask =>
          cases h
          exact .sigsuspend mask
      | sleep | sigprocmask | sigAction | sigaltstack | user =>
          exact hcall _ nofun nofun h

/-- The bracket: a return from the innermost delivery brings back the
registers, the mask and the alternate stack that the delivery found, the task
knows whether a frame is on the alternate stack, and a delivery switches to
the alternate stack only when none is. -/
structure Nested (s : NestSystem) : Prop where
  restores : ∀ o out, s.out = o :: out → o.Unmodified s.task →
    ∃ t, s.task.sigReturn = .ok t ∧ t.trapframe = o.before.trapframe ∧
      t.sigmask = o.mask ∧ t.altStack = o.before.altStack
  onSigstack : s.task.onSigstack = true ↔ ∃ o ∈ s.out, o.onAlt = true
  spared : ∀ act, s.task.wantsAltStack act = true → ∀ o ∈ s.out, o.onAlt = false

/-- No delivery disarms the alternate stack, no handler that runs inside one
on the alternate stack returns, and handlers leave the alternate stack as it
is. -/
def Plain (s : NestSystem) : NestEvent → Prop
  | .deliver _ act _ => s.task.wantsAltStack act = true →
      s.task.altStack.ssFlags &&& ssAutodisarm = 0
  | .call .sigReturn => ∀ o ∈ s.out.tail, o.onAlt = false
  | .call (.sigaltstack (some _)) =>
      s.out.isEmpty = true ∨ s.task.onSigstack = true
  | _ => True

instance (s : NestSystem) : (e : NestEvent) → Decidable (s.Plain e)
  | .deliver _ act _ => inferInstanceAs (Decidable
      (s.task.wantsAltStack act = true → s.task.altStack.ssFlags &&& ssAutodisarm = 0))
  | .call .sigReturn => inferInstanceAs (Decidable
      (∀ o ∈ s.out.tail, o.onAlt = false))
  | .call (.sigaltstack (some _)) => inferInstanceAs (Decidable
      (s.out.isEmpty = true ∨ s.task.onSigstack = true))
  | .settle | .call .sleep | .call (.sigprocmask ..) | .call (.sigsuspend _)
  | .call (.sigAction ..) | .call (.sigaltstack none) | .call (.user ..) =>
      inferInstanceAs (Decidable True)

/-- The pending restore is the mask the `sigsuspend` in progress replaced. -/
def Suspension (s : NestSystem) : Prop :=
  match s.suspended with
  | none => s.task.sigsuspendRestorePending = false
  | some mask => s.task.sigsuspendRestorePending = true ∧
      s.task.sigsuspendSavedSigmask = mask ∧ sanitizeSignalMask mask = mask

structure NestInv (s : NestSystem) : Prop where
  frames : (s.task.sigFrame.map fun f => (f.mask, f.tf)) =
    s.out.map fun o => (o.mask, o.before.trapframe)
  framed : ∀ o ∈ s.out, Framed o.after.mem o.after.trapframe.sp o.act o.mask
    o.before.trapframe
  masks : ∀ o ∈ s.out, sanitizeSignalMask o.mask = o.mask
  altStack : ∀ o ∈ s.out, o.before.altStack = s.task.altStack
  onSigstack : s.task.onSigstack = s.out.any Outstanding.onAlt
  sigmask : sanitizeSignalMask s.task.sigmask = s.task.sigmask
  suspension : s.Suspension

theorem NestInv.consume (hs : s.NestInv) :
    s.task.consumeSignalRestoreMask.1 = s.suspended.getD s.task.sigmask ∧
      sanitizeSignalMask (s.suspended.getD s.task.sigmask) = s.suspended.getD s.task.sigmask := by
  have hsus := hs.suspension
  rw [Suspension] at hsus
  rw [Task.consumeSignalRestoreMask]
  split at hsus
  · next he =>
    rw [he, if_neg (by rw [hsus]; exact Bool.false_ne_true)]
    exact ⟨hs.sigmask, hs.sigmask⟩
  · next mask he =>
    rw [he, if_pos hsus.1, hsus.2.1]
    exact ⟨hsus.2.2, hsus.2.2⟩

theorem NestInv.top (hs : s.NestInv) {out : List Outstanding} (hout : s.out = o :: out) :
    ∃ page next, s.task.sigFrame = ⟨o.mask, o.before.trapframe, page⟩ :: next ∧
      (next.map fun f => (f.mask, f.tf)) = out.map fun o => (o.mask, o.before.trapframe) := by
  have hframe := hs.frames
  rw [hout, map_cons] at hframe
  obtain ⟨⟨mask, tf, page⟩, next, hframe, heq, hnext⟩ := map_eq_cons_iff.mp hframe
  obtain ⟨rfl, rfl⟩ := Prod.mk.inj heq
  exact ⟨page, next, hframe, hnext⟩

theorem NestInv.nested (hs : s.NestInv) : s.Nested := by
  have hon : s.task.onSigstack = true ↔ ∃ o ∈ s.out, o.onAlt = true := by
    rw [hs.onSigstack, any_eq_true]
  refine ⟨fun o out hout hu => ?_, hon, fun act hact o ho => ?_⟩
  · have ho : o ∈ s.out := hout ▸ mem_cons_self
    obtain ⟨page, next, hframe, -⟩ := hs.top hout
    obtain ⟨t, ht, hr⟩ :=
      Task.sigReturn_returned hu (hs.framed o ho) hframe
    refine ⟨t, ht, hr.trapframe, ?_, ?_⟩
    · rw [hr.sigmask, hs.masks o ho]
    · rw [hr.altStack, hs.altStack o ho]
  · have hoff : s.task.onSigstack = false := by
      rw [Task.wantsAltStack, Bool.and_eq_true, Bool.not_eq_true'] at hact
      exact hact.2
    refine Bool.eq_false_iff.mpr fun h => ?_
    rw [hon.mpr ⟨o, ho, h⟩] at hoff
    cases hoff

theorem NestInv.deliver (hs : s.NestInv) (h : s.task.Delivered act t)
    (hflags : s.task.wantsAltStack act = true → s.task.altStack.ssFlags &&& ssAutodisarm = 0) :
    NestInv { task := t,
              out := ⟨s.task, act, s.suspended.getD s.task.sigmask, t⟩ :: s.out,
              suspended := none } := by
  obtain ⟨hmask, hsanitized⟩ := hs.consume
  have hframed := h.framed
  obtain ⟨page, hframe⟩ := h.sigFrame
  rw [hmask] at hframed hframe
  have halt := h.altStack hflags
  refine ⟨?_, ?_, ?_, ?_, ?_, h.sigmask, h.pending⟩
  · rw [hframe, map_cons, hs.frames]
    rfl
  · exact forall_mem_cons.mpr ⟨hframed, hs.framed⟩
  · exact forall_mem_cons.mpr ⟨hsanitized, hs.masks⟩
  · refine forall_mem_cons.mpr ⟨halt.symm, fun o ho => ?_⟩
    rw [hs.altStack o ho, halt]
  · show t.onSigstack = (s.task.wantsAltStack act || s.out.any _)
    rw [h.onSigstack, hs.onSigstack, Bool.or_comm]

theorem NestInv.sigReturn (hs : s.NestInv) {out : List Outstanding} (hout : s.out = o :: out)
    (hu : o.Unmodified s.task) (h : s.task.sigReturn = .ok t) (hoff : ∀ o ∈ out, o.onAlt = false) :
    NestInv { s with task := t, out } := by
  have hmem : ∀ p ∈ out, p ∈ s.out := fun p hp =>
    hout ▸ mem_cons_of_mem o hp
  have ho : o ∈ s.out := hout ▸ mem_cons_self
  obtain ⟨page, next, hframe, hnext⟩ := hs.top hout
  obtain ⟨t₁, ht₁, hr⟩ := Task.sigReturn_returned hu (hs.framed o ho) hframe
  rw [h] at ht₁
  cases ht₁
  refine ⟨by rw [hr.sigFrame, hnext], fun p hp => hs.framed p (hmem p hp),
    fun p hp => hs.masks p (hmem p hp), fun p hp => ?_, ?_, ?_, ?_⟩
  · rw [hs.altStack p (hmem p hp)]
    exact hr.altStack.symm
  · rw [hr.onSigstack, eq_comm, any_eq_false]
    intro p hp
    rw [hoff p hp]
    exact Bool.false_ne_true
  · rw [hr.sigmask, sanitizeSignalMask_idem]
  · have hsus := hs.suspension
    rw [Suspension] at hsus ⊢
    rw [hr.pending, hr.saved]
    exact hsus

theorem NestInv.call (hs : s.NestInv) {c : TaskCall}
    (h : s.task.Continued c t) (hC : s.Plain (.call c)) : NestInv { s with task := t } := by
  refine ⟨h.sigFrame ▸ hs.frames, hs.framed, hs.masks, fun o ho => ?_,
    h.onSigstack.trans hs.onSigstack, h.sigmask hs.sigmask, ?_⟩
  · rcases h.altStack with he | ⟨ss, rfl, hoff⟩
    · rw [hs.altStack o ho]
      exact he.symm
    · rcases hC with he | he
      · rw [isEmpty_iff.mp he] at ho
        cases ho
      · rw [hoff] at he
        cases he
  · have hsus := hs.suspension
    rw [Suspension] at hsus ⊢
    rw [h.pending, h.saved]
    exact hsus

theorem NestInv.settle (hs : s.NestInv) :
    NestInv { s with task := s.task.restoreSigsuspendMaskNow,
                     suspended := none } := by
  rw [Task.restoreSigsuspendMaskNow]
  split
  · exact ⟨hs.frames, hs.framed, hs.masks, hs.altStack, hs.onSigstack,
      sanitizeSignalMask_idem _, rfl⟩
  · next hno =>
    exact ⟨hs.frames, hs.framed, hs.masks, hs.altStack, hs.onSigstack,
      hs.sigmask, Bool.eq_false_iff.mpr hno⟩

theorem NestInv.step {s' : NestSystem} {e : NestEvent} (hs : s.NestInv)
    (hC : s.Plain e) (h : s.Steps e s') : s'.NestInv := by
  cases h with
  | deliver h => exact hs.deliver h hC
  | settle => exact hs.settle
  | sigReturn hout hu h =>
      refine hs.sigReturn hout hu h fun o ho => hC o ?_
      rw [hout]
      exact ho
  | sigsuspend mask =>
      exact ⟨hs.frames, hs.framed, hs.masks, hs.altStack, hs.onSigstack,
        sanitizeSignalMask_idem _, rfl, hs.sigmask, hs.sigmask⟩
  | call h => exact hs.call h hC

end NestSystem

/-- A task outside every handler, whose mask is one the kernel hands out. -/
structure Task.Rested (t : Task) : Prop where
  sigFrame : t.sigFrame = []
  onSigstack : t.onSigstack = false
  pending : t.sigsuspendRestorePending = false
  sigmask : sanitizeSignalMask t.sigmask = t.sigmask

theorem NestSystem.nestInv_init (ht : t.Rested) : (init t).NestInv :=
  ⟨congrArg (map _) ht.sigFrame, fun _ h => absurd h not_mem_nil,
    fun _ h => absurd h not_mem_nil, fun _ h => absurd h not_mem_nil,
    ht.onSigstack, ht.sigmask, ht.pending⟩

/-- Deliveries and returns are nested, whatever the user does in between, as
long as the alternate stack is used plainly. -/
theorem signal_run_nested {t : Task} (ht : t.Rested) {events : List NestEvent} {s : NestSystem}
    (hr : Run.Guarded NestSystem.step NestSystem.Plain (.init t) events s) : s.Nested :=
  (hr.inv (fun hs hC h => hs.step hC (steps_of_step h))
    (nestInv_init ht)).nested

def someAltStack (ssFlags : BitVec 32) : SignalStack :=
  { ssSp := 65536, ssFlags, ssSize := 4096 }

def altHandler : SigAction := { someHandler with saFlags := saOnstack }

/-- The frame's memory is to be had below `top`. -/
def memoryBelow (top : Word) : Delivery := { plentyMemory with top }

/-- A handler is entered from `sigsuspend`, on the alternate stack, and
returns. -/
def suspendAndReturn : List NestEvent :=
  [.call (.sigaltstack (some (someAltStack 0))),
    .call (.sigprocmask 0 (some (sigBit sigUsr1)) 8), .call (.sigsuspend 0),
    .deliver sigUsr1 altHandler (memoryBelow 69632)]

theorem signal_run_nested_suspend : ∃ s, Run.Guarded NestSystem.step NestSystem.Plain (.init .fresh)
      suspendAndReturn s ∧ s.task.onSigstack = true ∧ s.Nested ∧
    ∃ s', Run.Guarded NestSystem.step NestSystem.Plain (.init .fresh)
        (suspendAndReturn ++ [.call .sigReturn]) s' ∧
      s'.task.sigmask = sigBit sigUsr1 ∧ s'.Nested := by
  have ht : Task.fresh.Rested := ⟨rfl, rfl, rfl, rfl⟩
  have hr : Run.Guarded step NestSystem.Plain (.init .fresh) suspendAndReturn _ := .of_foldlM rfl
  have hr' : Run.Guarded step NestSystem.Plain (.init .fresh)
      (suspendAndReturn ++ [.call .sigReturn]) _ :=
    .of_foldlM rfl
  exact ⟨_, hr, rfl, signal_run_nested ht hr, _, hr', rfl, signal_run_nested ht hr'⟩

/-- A second signal is taken while the handler on the alternate stack runs,
and the inner handler returns. -/
def innerReturn : List NestEvent :=
  [.call (.sigaltstack (some (someAltStack 0))), .deliver sigUsr1 altHandler (memoryBelow 69632),
    .deliver sigChld someHandler (memoryBelow 69616), .call .sigReturn]

def disarmed : List NestEvent :=
  [.call (.sigaltstack (some (someAltStack ssAutodisarm))),
    .deliver sigUsr1 altHandler (memoryBelow 69632)]

/-- The outer frame is on the alternate stack still, and the next delivery
would be placed over it; the disarmed stack stays disabled after the
return. -/
theorem signal_run_altStackLost :
    (∃ s, innerReturn.foldlM NestSystem.step (.init .fresh) = some s ∧
      s.out.map Outstanding.onAlt = [true] ∧ s.task.onSigstack = false ∧
      s.task.wantsAltStack altHandler = true ∧ ¬ s.Nested) ∧
    ∃ s s', disarmed.foldlM NestSystem.step (.init .fresh) = some s ∧
      s.step (.call .sigReturn) = some s' ∧
      s.out.map (fun o => o.before.altStack.ssFlags) = [ssAutodisarm] ∧
      s'.task.altStack.ssFlags = ssAutodisarm ||| ssDisable ∧ ¬ s.Nested := by
  refine ⟨?_, ?_⟩
  · refine ⟨_, rfl, rfl, rfl, rfl, fun h => ?_⟩
    have hon : false = true := h.onSigstack.mpr ⟨_, mem_singleton_self _, rfl⟩
    cases hon
  · refine ⟨_, _, rfl, rfl, rfl, rfl, fun h => ?_⟩
    obtain ⟨t, ht, _, _, halt⟩ := h.restores _ [] rfl (by decide)
    cases ht
    exact absurd (congrArg SignalStack.ssFlags halt) (by decide)

end F7ly.Proc.Signal
