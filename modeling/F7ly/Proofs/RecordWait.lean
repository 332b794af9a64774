import F7ly.Lib.Run
import F7ly.Lib.Pointer
import F7ly.Fs.RecordWait
import F7ly.Proofs.RecordLock

/-!
# Deadlock detection for `F_SETLKW`

`BlockedBy` says that a process waits for a lock that another one is in the way
of. `EDEADLK` should be returned where a cycle of such processes would close,
and only there. What the code follows is the edges it recorded, one for each
waiter (`nextOf`). These never have a cycle (`Inv.acyclic`), so that processes
that wait in a cycle and have all noted the edges of the cycle cannot be.

An edge is not taken back when the lock that it is about is released, and a
waiter with several processes in its way notes the one with the lowest lock.
`System.Clear` is the condition that neither matters; `false_alarm` and
`deadlock_unseen` are runs where it fails.
-/

namespace F7ly.Fs.RecordLock

open Locks RecordLock.System List

open Slots (used free)
open Relation (TransGen ReflTransGen)

variable {a b : Nat} {p : Pending} {l : Locks} {op : Op} {ops : List Op} {k : Nat → Nat}

section Edges

variable {ws ws' : List (Option WaitEntry)} {e : WaitEntry} {pid : Nat}

def Single (ws : List (Option WaitEntry)) : Prop := ((used ws).map WaitEntry.waiter).Nodup

theorem Single.findWaiter_iff (h : Single ws) :
    findWaiter pid ws = some e ↔ e ∈ used ws ∧ e.waiter = pid := by
  unfold findWaiter
  constructor
  · intro hf
    exact ⟨mem_of_find?_eq_some hf, by simpa using find?_some hf⟩
  · intro ⟨he, hpid⟩
    cases hf : (used ws).find? (·.waiter = pid) with
    | none => exact absurd hpid (by simpa using find?_eq_none.mp hf e he)
    | some e' =>
        have hpid' : e'.waiter = pid := by simpa using find?_some hf
        rw [inj_on_of_nodup_map h (mem_of_find?_eq_some hf) he
          (hpid'.trans hpid.symm)]

theorem findWaiter_eq_none : findWaiter pid ws = none ↔ ∀ e ∈ used ws, e.waiter ≠ pid := by
  simp [findWaiter]

def nextOf (ws : List (Option WaitEntry)) (pid : Nat) : Option Nat :=
  if pid = 0 then none
  else
    match findWaiter pid ws with
    | none => none
    | some e => if e.blockedBy = 0 then none else some e.blockedBy

theorem waitCycle_eq_walk (hpid : pid ≠ 0) (depth current : Nat) :
    waitCycle ws pid depth current = Pointer.walk (nextOf ws) pid depth current := by
  induction depth generalizing current with
  | zero => rfl
  | succ depth ih =>
      rw [waitCycle, Pointer.walk, nextOf]
      by_cases hzero : current = 0
      · rw [if_pos hzero, if_neg (by omega), if_pos hzero]
      · rw [if_neg hzero, if_neg hzero]
        split
        · rfl
        · cases findWaiter current ws with
          | none => rfl
          | some e =>
              dsimp only
              split
              · rfl
              · exact ih _

theorem clearWait_sublist : (used (clearWait pid ws)).Sublist (used ws) := by
  induction ws with
  | nil => exact .slnil
  | cons o ws ih =>
      cases o with
      | none => exact ih
      | some w =>
          rw [clearWait]
          split
          · exact sublist_cons_self ..
          · exact ih.cons_cons w

theorem clearWait_other (he : e ∈ used ws) (hne : e.waiter ≠ pid) :
    e ∈ used (clearWait pid ws) := by
  induction ws with
  | nil => cases he
  | cons o ws ih =>
      cases o with
      | none => exact ih he
      | some w =>
          rw [clearWait]
          rcases mem_cons.mp (show e ∈ w :: used ws from he) with rfl | he
          · rw [if_neg hne]
            exact mem_cons_self ..
          · split
            · exact he
            · exact mem_cons_of_mem _ (ih he)

theorem clearWait_length : (clearWait pid ws).length = ws.length := by
  induction ws with
  | nil => rfl
  | cons o ws ih =>
      cases o with
      | none => simp [clearWait, ih]
      | some w =>
          rw [clearWait]
          split <;> simp [ih]

theorem replaceWait_spec (h : replaceWait e ws = some ws') :
    ∃ old rest, old.waiter = e.waiter ∧ (used ws).Perm (old :: rest) ∧
      (used ws').Perm (e :: rest) ∧ ws'.length = ws.length := by
  induction ws generalizing ws' with
  | nil => cases h
  | cons o ws ih =>
      cases o with
      | none =>
          obtain ⟨ws₁, hr, rfl⟩ := Option.map_eq_some_iff.mp h
          obtain ⟨old, rest, hold, hu, hu', hlen⟩ := ih hr
          exact ⟨old, rest, hold, hu, hu', by simp [hlen]⟩
      | some w =>
          rw [replaceWait] at h
          split at h
          · next hw =>
              obtain rfl := Option.some.inj h
              exact ⟨w, used ws, hw, .refl _, .refl _, by simp⟩
          · obtain ⟨ws₁, hr, rfl⟩ := Option.map_eq_some_iff.mp h
            obtain ⟨old, rest, hold, hu, hu', hlen⟩ := ih hr
            refine ⟨old, w :: rest, hold, ?_, ?_, by simp [hlen]⟩
            · exact (hu.cons w).trans (.swap ..)
            · exact (hu'.cons w).trans (.swap ..)

theorem replaceWait_none (h : replaceWait e ws = none) : ∀ w ∈ used ws, w.waiter ≠ e.waiter := by
  induction ws with
  | nil => exact fun w hw => by cases hw
  | cons o ws ih =>
      cases o with
      | none =>
          rw [replaceWait, Option.map_eq_none_iff] at h
          exact ih h
      | some x =>
          rw [replaceWait] at h
          split at h
          · cases h
          · next hne =>
              rw [Option.map_eq_none_iff] at h
              exact forall_mem_cons.mpr ⟨hne, ih h⟩

/-- `ws'` is `ws` with the edge `e` for its waiter. -/
structure Noted (ws : List (Option WaitEntry)) (e : WaitEntry)
    (ws' : List (Option WaitEntry)) : Prop where
  length : ws'.length = ws.length
  single : Single ws'
  mem : ∀ w, w ∈ used ws' ↔ w = e ∨ w ∈ used ws ∧ w.waiter ≠ e.waiter

theorem Single.replaceWait (h : Single ws) (hr : replaceWait e ws = some ws') : Noted ws e ws' := by
  obtain ⟨old, rest, hold, hu, hu', hlen⟩ := replaceWait_spec hr
  have hnd := ((hu.map WaitEntry.waiter).nodup_iff).mp h
  rw [map_cons, nodup_cons, hold] at hnd
  refine ⟨hlen, ?_, fun w => ?_⟩
  · refine ((hu'.map WaitEntry.waiter).nodup_iff).mpr ?_
    rw [map_cons, nodup_cons]
    exact hnd
  · have hrest : w ∈ rest → w.waiter ≠ e.waiter := fun hw heq =>
      hnd.1 (heq ▸ mem_map_of_mem hw)
    rw [hu'.mem_iff, hu.mem_iff, mem_cons, mem_cons]
    constructor
    · exact Or.imp id fun hw => ⟨.inr hw, hrest hw⟩
    · exact Or.imp id fun ⟨hw, hne⟩ => hw.resolve_left fun heq => hne (heq ▸ hold)

theorem Single.insertWait (h : Single ws) (hno : ∀ w ∈ used ws, w.waiter ≠ e.waiter)
    (hi : Slots.insert ws e = some ws') : Noted ws e ws' := by
  obtain ⟨hp, -, hlen⟩ := Slots.insert_spec hi
  refine ⟨hlen, ?_, fun w => ?_⟩
  · refine ((hp.map WaitEntry.waiter).nodup_iff).mpr ?_
    rw [map_cons, nodup_cons]
    refine ⟨fun hmem => ?_, h⟩
    obtain ⟨w, hw, heq⟩ := mem_map.mp hmem
    exact hno w hw heq
  · rw [hp.mem_iff, mem_cons]
    exact or_congr_right ⟨fun hw => ⟨hw, hno w hw⟩, And.left⟩

theorem Single.clearWait (h : Single ws) : Single (clearWait pid ws) :=
  List.Nodup.sublist (clearWait_sublist.map _) h

theorem Single.nextOf_eq_some (h : Single ws) : nextOf ws a = some b ↔
    a ≠ 0 ∧ b ≠ 0 ∧ ∃ e ∈ used ws, e.waiter = a ∧ e.blockedBy = b := by
  unfold nextOf
  split
  · next hzero => simp [hzero]
  next hne =>
  cases hf : findWaiter a ws with
  | none =>
      have hno := findWaiter_eq_none.mp hf
      simp only [false_iff, reduceCtorEq]
      exact fun ⟨_, _, e, he, ha, _⟩ => hno e he ha
  | some e =>
      have he := h.findWaiter_iff.mp hf
      have huniq : ∀ e', e' ∈ used ws → e'.waiter = a → e' = e := fun e' he' ha => by
        have := h.findWaiter_iff.mpr ⟨he', ha⟩
        rw [hf] at this
        exact (Option.some.inj this).symm
      dsimp only
      split
      · next hz =>
          simp only [false_iff, reduceCtorEq]
          exact fun ⟨_, hb, e', he', ha, hb'⟩ => hb (by rw [← hb', huniq e' he' ha, hz])
      next hz =>
      rw [Option.some.injEq]
      constructor
      · rintro rfl
        exact ⟨hne, hz, e, he.1, he.2, rfl⟩
      · intro ⟨_, _, e', he', ha, hb'⟩
        rw [← huniq e' he' ha, hb']

theorem nextOf_noted (h : Single ws) (hn : Noted ws e ws') (hw : e.waiter ≠ 0)
    (hb : e.blockedBy ≠ 0) :
    nextOf ws' = Function.update (nextOf ws) e.waiter (some e.blockedBy) := by
  funext a
  refine Option.ext fun b => ?_
  rw [Function.update_apply, hn.single.nextOf_eq_some]
  simp only [hn.mem]
  split
  · next heq =>
      rw [Option.some.injEq]
      constructor
      · rintro ⟨-, -, e', rfl | ⟨-, hne⟩, ha, hb'⟩
        · exact hb'
        · exact absurd (ha.trans heq) hne
      · rintro rfl
        exact ⟨heq ▸ hw, hb, e, .inl rfl, heq.symm, rfl⟩
  next hne =>
  rw [h.nextOf_eq_some]
  refine and_congr_right fun _ => and_congr_right fun _ => ⟨?_, ?_⟩
  · rintro ⟨e', rfl | ⟨he', -⟩, ha, hb'⟩
    · exact absurd ha.symm hne
    · exact ⟨e', he', ha, hb'⟩
  · intro ⟨e', he', ha, hb'⟩
    exact ⟨e', .inr ⟨he', fun h => hne (ha.symm.trans h)⟩, ha, hb'⟩

/-- An edge that the walk allows closes no cycle: with a slot for the edge,
there are fewer other waiters than rounds. -/
theorem Noted.acyclic (h : Single ws) (hn : Noted ws e ws') (hw : e.waiter ≠ 0)
    (hb : e.blockedBy ≠ 0) (hlen : ws.length = maxRecordLocks) (hac : Pointer.Acyclic (nextOf ws))
    (hwalk : waitCycle ws e.waiter maxRecordLocks e.blockedBy = false) :
    Pointer.Acyclic (nextOf ws') := by
  rw [nextOf_noted h hn hw hb]
  refine hac.update fun hpath => ?_
  rw [waitCycle_eq_walk hw] at hwalk
  have hmem : e.waiter ∈ (used ws').map WaitEntry.waiter :=
    mem_map_of_mem ((hn.mem e).mpr (.inl rfl))
  have htrue := Pointer.walk_complete hac (n := maxRecordLocks)
    (((used ws').map WaitEntry.waiter).erase e.waiter) ?_ ?_ hpath
  · rw [hwalk] at htrue
    cases htrue
  · intro x _ hx hne
    rcases hx.cases_head with heq | ⟨y, hxy, -⟩
    · exact absurd heq hne
    · obtain ⟨-, -, e', he', rfl, -⟩ := h.nextOf_eq_some.mp hxy
      refine (mem_erase_of_ne hne).mpr (mem_map_of_mem ?_)
      exact (hn.mem e').mpr (.inr ⟨he', hne⟩)
  · have hfree := Slots.free_add_used ws'
    have hpos := length_pos_of_mem hmem
    rw [hn.length, hlen] at hfree
    rw [length_erase_of_mem hmem, length_map]
    rw [length_map] at hpos
    omega

end Edges

def LockType.Excludes (held want : LockType) : Prop :=
  held ≠ .unlck ∧ want ≠ .unlck ∧ (held = .wrlck ∨ want = .wrlck)

namespace System

/-- `a` waits in `F_SETLKW` and `b` holds a lock that is in its way. -/
def BlockedBy (bp : Nat → String) (s : System) (a b : Nat) : Prop :=
  ∃ p, s.pending a = some p ∧ a ≠ b ∧ ∃ x, p.lock.InRange x ∧
    (s.locks.held (keyOf bp p.file).file (.process b) x).Excludes p.lock.type

/-- `a` noted that it waits for `b`. -/
def Recorded (s : System) (a b : Nat) : Prop :=
  ∃ e ∈ used s.locks.waiters, e.waiter = a ∧ e.blockedBy = b

/-- What holds after every step. -/
structure Inv (bp : Nat → String) (s : System) : Prop where
  locks : s.locks.Inv bp
  length : s.locks.waiters.length = maxRecordLocks
  single : Single s.locks.waiters
  acyclic : Pointer.Acyclic (nextOf s.locks.waiters)
  noZero : s.pending 0 = none
  conflict : ∀ pid p c, s.pending pid = some p → p.pc = .note c → c ≠ 0

end System

theorem typesConflict_iff {l l' : Flock} : typesConflict l l' = true ↔
    l.type.Excludes l'.type ∧ ∃ x, l.Covers x ∧ l'.Covers x := by
  rw [← overlap_iff, typesConflict, LockType.Excludes]
  split
  · next h => tauto
  next h =>
  split
  · next ho => simp at ho; simp [ho]
  · next ho => simp at ho; simp [ho]; tauto

theorem lowest_some {α : Type} {p : Entry α → Bool} {t : Table α} {e : Entry α}
    (h : lowest p t none = some e) : e ∈ used t ∧ p e = true := by
  have hgen : ∀ (t : Table α) best, lowest p t best = some e →
      best = some e ∨ e ∈ used t ∧ p e = true := by
    intro t
    induction t with
    | nil => exact fun best h => .inl h
    | cons x t ih =>
        intro best h
        cases x with
        | none => exact ih best h
        | some x =>
            rw [lowest] at h
            split at h
            · next hp =>
                rcases ih _ h with heq | ⟨he, hpe⟩
                · obtain rfl := Option.some.inj heq
                  exact .inr ⟨mem_cons_self .., hp.1⟩
                · exact .inr ⟨mem_cons_of_mem _ he, hpe⟩
            · exact (ih best h).imp id fun hand => ⟨mem_cons_of_mem _ hand.1, hand.2⟩
  exact (hgen t none h).resolve_left (by simp)

section Blocked

variable {bp : Nat → String} {s : System}

theorem blockedBy_iff (h : s.locks.Inv bp) : s.BlockedBy bp a b ↔
    ∃ p, s.pending a = some p ∧ a ≠ b ∧ ∃ e ∈ used s.locks.posix,
      keysMatch e.key (keyOf bp p.file) = true ∧ e.owner = b ∧
      typesConflict e.lock p.lock = true := by
  refine exists_congr fun p => and_congr_right fun _ => and_congr_right fun _ => ?_
  constructor
  · rintro ⟨x, hx, hex⟩
    rcases heldIn_cases (used s.locks.posix) (keyOf bp p.file).file b x with
      ⟨e, he, hat, heq⟩ | ⟨-, heq⟩
    · rw [held, heq] at hex
      exact ⟨e, he, (keysMatch_iff (h.posix.keys e he) (keyOf_stable _)).mpr hat.1, hat.2.1,
        typesConflict_iff.mpr ⟨hex, x, hat.2.2, covers_iff.mpr hx⟩⟩
    · exact absurd heq hex.1
  · rintro ⟨e, he, hk, ho, hc⟩
    obtain ⟨hex, x, hx, hx'⟩ := typesConflict_iff.mp hc
    have hat : e.At (keyOf bp p.file).file b x :=
      ⟨(keysMatch_iff (h.posix.keys e he) (keyOf_stable _)).mp hk, ho, hx⟩
    refine ⟨x, covers_iff.mp hx', ?_⟩
    rw [held, h.posix.heldIn_eq he hat]
    exact hex

/-- The process that `apply_posix_record_lock` names is in the way. -/
theorem blockedBy_of_conflict (h : s.locks.Inv bp) {e : Entry Nat} (hp : s.pending a = some p)
    (hf : s.locks.findConflictingPosix (keyOf bp p.file) a p.lock true = some e) :
    s.BlockedBy bp a e.owner := by
  obtain ⟨he, hpe⟩ := lowest_some hf
  simp only [Bool.true_and, Bool.and_eq_true, Bool.not_eq_true', decide_eq_false_iff_not] at hpe
  exact (blockedBy_iff h).mpr ⟨p, hp, fun heq => hpe.1.2 heq.symm, e, he, hpe.1.1, rfl, hpe.2⟩

theorem conflict_of_blockedBy (h : s.locks.Inv bp)
    (hp : s.pending a = some p) (hb : s.BlockedBy bp a b) :
    p.lock.type ≠ .unlck ∧
      ∃ e, s.locks.findConflictingPosix (keyOf bp p.file) a p.lock true = some e := by
  obtain ⟨p', hp', hne, e, he, hk, ho, hc⟩ := (blockedBy_iff h).mp hb
  obtain rfl : p = p' := Option.some.inj (hp.symm.trans hp')
  refine ⟨(typesConflict_iff.mp hc).1.2.1, ?_⟩
  cases hf : s.locks.findConflictingPosix (keyOf bp p.file) a p.lock true with
  | some e => exact ⟨e, rfl⟩
  | none =>
      have := lowest_eq_none.mp hf e he
      have hne' : e.owner ≠ a := fun heq => hne (heq.symm.trans ho)
      simp [hk, hc, hne'] at this

end Blocked

section Steps

variable {bp : Nat → String} {s s' : System}

theorem applyPosix_frame (h : l.Inv bp) (file pid : Nat) (lock : Flock) :
    (l.applyPosixRecordLock (keyOf bp file) pid lock).1.Inv bp ∧
    ((l.applyPosixRecordLock (keyOf bp file) pid lock).1.waiters = l.waiters ∨
      (l.applyPosixRecordLock (keyOf bp file) pid lock).1.waiters = clearWait pid l.waiters) ∧
    ∀ f b x, b ≠ pid → (l.applyPosixRecordLock (keyOf bp file) pid lock).1.held f
      (.process b) x = l.held f (.process b) x := by
  refine ⟨call_inv h (.posix file pid lock), ?_⟩
  rcases applyPosix_cases l (keyOf bp file) pid lock with ⟨-, -, q, heq⟩ | ⟨-, w, hw, heq⟩
  · rw [heq]
    exact ⟨.inl rfl, fun _ _ _ _ => rfl⟩
  · rw [heq]
    refine ⟨hw.elim (fun h => .inr h.2) fun h => .inl h.2, fun f b x hne => ?_⟩
    exact setLock_other h.posix (keyOf_stable file) hne f x

theorem applyPosix_conflict {key : FileKey} {pid : Nat} {lock : Flock}
    {e : Entry Nat} (htype : lock.type ≠ .unlck)
    (hf : l.findConflictingPosix key pid lock true = some e) :
    l.applyPosixRecordLock key pid lock = (l, .eagain e.owner) := by
  rw [applyPosixRecordLock, if_neg htype, hf]

theorem applyOfd_frame (h : l.Inv bp) (file : Nat) (lock : Flock) :
    (l.applyOfdRecordLock (keyOf bp file) lock).1.Inv bp ∧
    (l.applyOfdRecordLock (keyOf bp file) lock).1.waiters = l.waiters ∧
    (l.applyOfdRecordLock (keyOf bp file) lock).1.posix = l.posix := by
  refine ⟨call_inv h (.ofd file lock), ?_⟩
  rcases applyOfd_cases l (keyOf bp file) lock with ⟨-, -, heq⟩ | ⟨-, heq⟩
  · rw [heq]
    exact ⟨rfl, rfl⟩
  · rw [heq]
    exact ⟨rfl, rfl⟩

theorem note_cases (h : Single l.waiters) (key : FileKey) (pid : Nat) (lock : Flock) (c : Nat) :
    (waitCycle l.waiters pid maxRecordLocks c = true ∧
      l.notePosixRecordLockWait key pid lock c = (l, .edeadlk)) ∨
    waitCycle l.waiters pid maxRecordLocks c = false ∧
      ((∃ ws, Noted l.waiters ⟨key, pid, c, lock⟩ ws ∧
        l.notePosixRecordLockWait key pid lock c = ({ l with waiters := ws }, .ok)) ∨
      (free l.waiters = 0 ∧ (∀ w ∈ used l.waiters, w.waiter ≠ pid) ∧
        l.notePosixRecordLockWait key pid lock c = (l, .enfile))) := by
  unfold notePosixRecordLockWait
  split
  · next hcyc => exact .inl ⟨hcyc, rfl⟩
  next hcyc =>
  refine .inr ⟨by simpa using hcyc, ?_⟩
  dsimp only
  split
  · next ws hr => exact .inl ⟨ws, h.replaceWait hr, rfl⟩
  next hr =>
  have hno := replaceWait_none hr
  split
  · next ws hi => exact .inl ⟨ws, h.insertWait hno hi, rfl⟩
  · next hi => exact .inr ⟨Slots.insert_eq_none.mp hi, hno, rfl⟩

theorem acyclic_clearWait {ws : List (Option WaitEntry)} {pid : Nat} (hs : Single ws)
    (h : Pointer.Acyclic (nextOf ws)) : Pointer.Acyclic (nextOf (clearWait pid ws)) := by
  refine h.mono fun a b hab => ?_
  obtain ⟨ha, hb, e, he, hea, heb⟩ := hs.clearWait.nextOf_eq_some.mp hab
  exact hs.nextOf_eq_some.mpr ⟨ha, hb, e, clearWait_sublist.subset he, hea, heb⟩

theorem System.Inv.withLocks (h : s.Inv bp) (pid : Nat) (hl : l.Inv bp)
    (hw : l.waiters = s.locks.waiters ∨ l.waiters = clearWait pid s.locks.waiters)
    (log : List (Nat × Result)) : System.Inv bp ⟨l, s.pending, log⟩ := by
  rcases hw with hw | hw
  · exact ⟨hl, hw ▸ h.length, hw ▸ h.single, hw ▸ h.acyclic, h.noZero, h.conflict⟩
  · refine ⟨hl, ?_, ?_, ?_, h.noZero, h.conflict⟩
    · exact hw ▸ clearWait_length.trans h.length
    · exact hw ▸ h.single.clearWait
    · exact hw ▸ acyclic_clearWait h.single h.acyclic

theorem System.Inv.setPending (h : s.Inv bp) {pid : Nat} {o : Option Pending}
    (hpid : pid ≠ 0 ∨ o = none) (ho : ∀ p c, o = some p → p.pc = .note c → c ≠ 0)
    (log : List (Nat × Result)) :
    System.Inv bp ⟨s.locks, Function.update s.pending pid o, log⟩ := by
  refine ⟨h.locks, h.length, h.single, h.acyclic, ?_, fun a p c hp hc => ?_⟩
  · change Function.update s.pending pid o 0 = none
    rw [Function.update_apply]
    split
    · next heq => exact hpid.resolve_left (not_not.mpr heq.symm)
    · exact h.noZero
  · change Function.update s.pending pid o a = some p at hp
    rw [Function.update_apply] at hp
    split at hp
    · exact ho p c hp hc
    · exact h.conflict a p c hp hc

variable (bp s) in
theorem stepPending_apply (pid : Nat) (hpc : p.pc = .apply) :
    (∃ c, (s.locks.applyPosixRecordLock (keyOf bp p.file) pid p.lock).2 = .eagain c ∧
      s.stepPending bp pid p = s.goOn pid
        (s.locks.applyPosixRecordLock (keyOf bp p.file) pid p.lock).1
        (if c = 0 then p else { p with pc := .note c })) ∨
    (∀ c, (s.locks.applyPosixRecordLock (keyOf bp p.file) pid p.lock).2 ≠ .eagain c) ∧
    s.stepPending bp pid p = s.finish pid
      (s.locks.applyPosixRecordLock (keyOf bp p.file) pid p.lock).1
      (s.locks.applyPosixRecordLock (keyOf bp p.file) pid p.lock).2 := by
  unfold stepPending
  rw [hpc]
  dsimp only
  split
  · next l heq => exact .inl ⟨0, by rw [heq], by rw [heq]; rfl⟩
  · next l c hne heq =>
      have hc : c ≠ 0 := hne
      exact .inl ⟨c, by rw [heq], by rw [heq, if_neg hc]⟩
  · next l r _ hno heq => exact .inr ⟨fun c hc => hno c (by rwa [heq] at hc), by rw [heq]⟩

variable (bp) in
theorem stepPending_note (h : Single s.locks.waiters) (pid : Nat) {c : Nat} (hpc : p.pc = .note c) :
    (waitCycle s.locks.waiters pid maxRecordLocks c = true ∧
      s.stepPending bp pid p = s.finish pid s.locks .edeadlk) ∨
    waitCycle s.locks.waiters pid maxRecordLocks c = false ∧
      ((∃ ws, Noted s.locks.waiters ⟨keyOf bp p.file, pid, c, p.lock⟩ ws ∧ s.stepPending bp pid p =
          s.goOn pid { s.locks with waiters := ws } { p with pc := .apply }) ∨
      (free s.locks.waiters = 0 ∧ (∀ w ∈ used s.locks.waiters, w.waiter ≠ pid) ∧
        s.stepPending bp pid p = s.finish pid s.locks .enfile)) := by
  have hcases := note_cases h (keyOf bp p.file) pid p.lock c
  unfold stepPending
  rw [hpc]
  refine hcases.imp (fun ⟨hcyc, heq⟩ => ⟨hcyc, by simp only [heq]⟩)
    (And.imp id (Or.imp (fun ⟨ws, hn, heq⟩ => ⟨ws, hn, by simp only [heq]⟩) ?_))
  exact fun ⟨hfree, hno, heq⟩ => ⟨hfree, hno, by simp only [heq]⟩

theorem stepPending_inv (h : s.Inv bp) {pid : Nat}
    (hp : s.pending pid = some p) : (s.stepPending bp pid p).Inv bp := by
  have hpid : pid ≠ 0 := fun heq => by
    rw [heq, h.noZero] at hp
    cases hp
  cases hpc : p.pc with
  | apply =>
      obtain ⟨hl, hw, -⟩ := applyPosix_frame h.locks p.file pid p.lock
      rcases stepPending_apply bp s pid hpc with ⟨c, -, heq⟩ | ⟨-, heq⟩
      · rw [heq]
        refine (h.withLocks pid hl hw s.returned).setPending (.inl hpid) (fun q d hq hd => ?_) _
        obtain rfl := Option.some.inj hq
        split at hd
        · rw [hpc] at hd
          cases hd
        · next hc =>
            obtain rfl := Pc.note.inj hd
            exact hc
      · rw [heq]
        exact (h.withLocks pid hl hw s.returned).setPending (.inr rfl) (by simp) _
  | note c =>
      have hc := h.conflict pid p c hp hpc
      rcases stepPending_note bp h.single pid hpc with
        ⟨-, heq⟩ | ⟨hno, ⟨ws, hn, heq⟩ | ⟨-, -, heq⟩⟩
      · rw [heq]
        exact h.setPending (.inr rfl) (by simp) _
      · rw [heq]
        have hinv : System.Inv bp ⟨{ s.locks with waiters := ws }, s.pending, s.returned⟩ :=
          ⟨⟨h.locks.posix, h.locks.ofd, h.locks.noConflict⟩, hn.length.trans h.length,
            hn.single, hn.acyclic h.single hpid hc h.length h.acyclic hno, h.noZero,
            h.conflict⟩
        exact hinv.setPending (.inl hpid) (fun q d hq hd => by cases hq; cases hd) _
      · rw [heq]
        exact h.setPending (.inr rfl) (by simp) _

theorem step_inv (h : s.Inv bp) (hstep : s.step bp op = some s') : s'.Inv bp := by
  cases op with
  | setlk pid file lock =>
      rw [step] at hstep
      split at hstep
      · cases hstep
      · obtain rfl := Option.some.inj hstep
        obtain ⟨hl, hw, -⟩ := applyPosix_frame h.locks file pid lock
        exact h.withLocks pid hl hw _
  | ofdSetlk file lock =>
      obtain rfl := Option.some.inj hstep
      obtain ⟨hl, hw, -⟩ := applyOfd_frame h.locks file lock
      exact h.withLocks 0 hl (.inl hw) _
  | setlkw pid file lock =>
      rw [step] at hstep
      split at hstep
      · cases hstep
      next hno =>
      obtain rfl := Option.some.inj hstep
      exact h.setPending (.inl fun heq => hno (.inl heq))
        (fun q d hq hd => by cases hq; cases hd) _
  | step pid =>
      obtain ⟨p, hp, rfl⟩ := Option.map_eq_some_iff.mp hstep
      exact stepPending_inv h hp

theorem boot_inv : boot.Inv bp := by
  have hused : used (replicate maxRecordLocks none : List (Option WaitEntry)) = [] := by
    simp [used]
  have hsingle : Single boot.locks.waiters := by
    exact .nil
  refine ⟨empty_inv, length_replicate .., hsingle, fun a hcyc => ?_, rfl, nofun⟩
  obtain ⟨b, hab, -⟩ := Relation.TransGen.head'_iff.mp hcyc
  obtain ⟨-, -, e, he, -⟩ := hsingle.nextOf_eq_some.mp hab
  change e ∈ used (replicate maxRecordLocks none) at he
  rw [hused] at he
  cases he

end Steps

/-- When the recorded edges are what they stand for. A process that tries a lock
has, where one of those in its way waits itself, no other in its way. And where
the edges lead from the process that it will note back to itself, they are still
true; and there is a slot for its edge. -/
def System.Clear (bp : Nat → String) (s : System) : Op → Prop
  | .step a => ∀ p, s.pending a = some p →
      match p.pc with
      | .apply => ∀ b b', s.BlockedBy bp a b → s.pending b ≠ none → s.BlockedBy bp a b' →
          b' = b
      | .note c =>
          (ReflTransGen s.Recorded c a → s.BlockedBy bp a c ∧
            ∀ x y, ReflTransGen s.Recorded c x → s.Recorded x y → s.BlockedBy bp x y) ∧
          ((∃ b, s.Recorded a b) ∨ 0 < free s.locks.waiters)
  | _ => True

section Detection

variable {bp : Nat → String} {s s' : System}

theorem recorded_of_edge (h : Single s.locks.waiters)
    (hab : Pointer.Edge (nextOf s.locks.waiters) a b) : s.Recorded a b :=
  (h.nextOf_eq_some.mp hab).2.2

theorem path_imp {α : Type} {r q : α → α → Prop} {a b : α} (hpath : ReflTransGen r a b)
    (himp : ∀ x y, ReflTransGen r a x → r x y → q x y) : ReflTransGen q a b := by
  induction hpath with
  | refl => exact .refl
  | tail hax hxy ih => exact ih.tail (himp _ _ hax hxy)

theorem edeadlk_cycle (h : s.Inv bp) {pid c : Nat}
    (hp : s.pending pid = some p) (hpc : p.pc = .note c) (hclear : s.Clear bp (.step pid))
    (hcyc : waitCycle s.locks.waiters pid maxRecordLocks c = true) :
    TransGen (s.BlockedBy bp) pid pid := by
  have hpid : pid ≠ 0 := fun heq => by
    rw [heq, h.noZero] at hp
    cases hp
  rw [waitCycle_eq_walk hpid] at hcyc
  have hpath : ReflTransGen s.Recorded c pid :=
    ReflTransGen.mono (fun _ _ => recorded_of_edge h.single) _ _ (Pointer.walk_sound hcyc)
  have hclear := hclear p hp
  rw [hpc] at hclear
  obtain ⟨hblocked, hcurrent⟩ := hclear.1 hpath
  exact .head' hblocked (path_imp hpath hcurrent)

theorem applyPosix_ne_edeadlk (l : Locks) (key : FileKey) (pid : Nat) (lock : Flock) :
    (l.applyPosixRecordLock key pid lock).2 ≠ .edeadlk := by
  rcases applyPosix_cases l key pid lock with ⟨-, -, q, heq⟩ | ⟨-, w, -, heq⟩
  · rw [heq]
    simp
  · rw [heq, setLock]
    split
    · simp
    · split <;> simp

theorem step_returned (h : s.Inv bp) (hstep : s.step bp op = some s') :
    ∃ log, s'.returned = log ++ s.returned ∧ ∀ a, (a, .edeadlk) ∈ log → ∃ p c,
      op = .step a ∧ s.pending a = some p ∧ p.pc = .note c ∧
      waitCycle s.locks.waiters a maxRecordLocks c = true := by
  cases op with
  | setlk pid file lock =>
      rw [step] at hstep
      split at hstep
      · cases hstep
      · obtain rfl := Option.some.inj hstep
        refine ⟨[_], rfl, fun a ha => ?_⟩
        rw [mem_singleton, Prod.mk.injEq] at ha
        exact absurd ha.2.symm (applyPosix_ne_edeadlk s.locks (keyOf bp file) pid lock)
  | ofdSetlk file lock =>
      obtain rfl := Option.some.inj hstep
      exact ⟨[], rfl, nofun⟩
  | setlkw pid file lock =>
      rw [step] at hstep
      split at hstep
      · cases hstep
      · obtain rfl := Option.some.inj hstep
        exact ⟨[], rfl, nofun⟩
  | step pid =>
      obtain ⟨p, hp, rfl⟩ := Option.map_eq_some_iff.mp hstep
      cases hpc : p.pc with
      | apply =>
          rcases stepPending_apply bp s pid hpc with ⟨c, -, heq⟩ | ⟨-, heq⟩
          · rw [heq]
            exact ⟨[], rfl, nofun⟩
          · rw [heq]
            refine ⟨[_], rfl, fun a ha => ?_⟩
            rw [mem_singleton, Prod.mk.injEq] at ha
            exact absurd ha.2.symm (applyPosix_ne_edeadlk s.locks (keyOf bp p.file) pid p.lock)
      | note c =>
          rcases stepPending_note bp h.single pid hpc with
            ⟨hcyc, heq⟩ | ⟨-, ⟨ws, -, heq⟩ | ⟨-, -, heq⟩⟩
          · rw [heq]
            refine ⟨[_], rfl, fun a ha => ?_⟩
            rw [mem_singleton, Prod.mk.injEq] at ha
            obtain rfl := ha.1
            exact ⟨p, c, rfl, hp, hpc, hcyc⟩
          · rw [heq]
            exact ⟨[], rfl, nofun⟩
          · rw [heq]
            exact ⟨[_], rfl, fun a ha => by simp at ha⟩

theorem run_returned (h : s.Inv bp) {C : System → Op → Prop}
    (hrun : Run.Guarded (step bp) C s ops s') : ∃ log, s'.returned = log ++ s.returned := by
  induction hrun with
  | nil s => exact ⟨[], rfl⟩
  | cons _ hf _ ih =>
      obtain ⟨log, hlog, -⟩ := step_returned h hf
      obtain ⟨log', hlog'⟩ := ih (step_inv h hf)
      exact ⟨log' ++ log, by rw [hlog', hlog, append_assoc]⟩

/-- A blocked process stays blocked while its call and the locks of the other
stay. -/
theorem blockedBy_congr {p' : Pending} (hp' : s'.pending a = some p')
    (hsame : ∀ p, s.pending a = some p → p'.file = p.file ∧ p'.lock = p.lock)
    (hheld : ∀ f x, s'.locks.held f (.process b) x = s.locks.held f (.process b) x)
    (h : s.BlockedBy bp a b) : s'.BlockedBy bp a b := by
  obtain ⟨p, hp, hne, x, hx, hex⟩ := h
  obtain ⟨hfile, hlock⟩ := hsame p hp
  refine ⟨p', hp', hne, x, hlock ▸ hx, ?_⟩
  rw [hheld, hfile, hlock]
  exact hex

/-- How far `m` is from having noted that it waits for `b`, in its own steps. -/
def System.Near (s : System) (m b : Nat) (k : Nat) : Prop :=
  ∃ p, s.pending m = some p ∧ (3 ≤ k ∨ 2 ≤ k ∧ p.pc = .apply ∨ 1 ≤ k ∧ p.pc = .note b ∨
      s.Recorded m b ∧ (p.pc = .apply ∨ p.pc = .note b))

/-- Processes that wait, each for the one that `next` gives. -/
structure System.Ring (bp : Nat → String) (s : System) (ms : List Nat) (next : Nat → Nat) :
    Prop where
  ne : ms ≠ []
  closed : ∀ m ∈ ms, next m ∈ ms
  blocked : ∀ m ∈ ms, s.BlockedBy bp m (next m)

variable {ms : List Nat} {next : Nat → Nat}

theorem System.Ring.other (hring : s.Ring bp ms next) (hnear : ∀ m ∈ ms, s.Near m (next m) (k m))
    (hpending : ∀ m ∈ ms, s'.pending m = s.pending m) (hheld : ∀ m ∈ ms, ∀ f x,
      s'.locks.held f (.process m) x = s.locks.held f (.process m) x)
    (hrec : ∀ m ∈ ms, ∀ b, s.Recorded m b → s'.Recorded m b) :
    s'.Ring bp ms next ∧ ∀ m ∈ ms, s'.Near m (next m) (k m) := by
  refine ⟨⟨hring.ne, hring.closed, fun m hm => ?_⟩, fun m hm => ?_⟩
  · obtain ⟨p, hp, -⟩ := hring.blocked m hm
    refine blockedBy_congr ((hpending m hm).trans hp) (fun q hq => ?_)
      (hheld _ (hring.closed m hm)) (hring.blocked m hm)
    obtain rfl : p = q := Option.some.inj (hp.symm.trans hq)
    exact ⟨rfl, rfl⟩
  · obtain ⟨p, hp, hcases⟩ := hnear m hm
    refine ⟨p, (hpending m hm).trans hp, ?_⟩
    exact hcases.imp id (Or.imp id (Or.imp id (And.imp (hrec m hm _) id)))

theorem System.Ring.apply_step (h : s.Inv bp) (hring : s.Ring bp ms next) {m : Nat}
    (hm : m ∈ ms) (hp : s.pending m = some p) (hpc : p.pc = .apply)
    (hclear : s.Clear bp (.step m)) :
    s.stepPending bp m p = s.goOn m s.locks { p with pc := .note (next m) } := by
  obtain ⟨htype, e, hf⟩ := conflict_of_blockedBy h.locks hp (hring.blocked m hm)
  have happly := applyPosix_conflict htype hf
  obtain ⟨q, hq, -⟩ := hring.blocked (next m) (hring.closed m hm)
  have hclear := hclear p hp
  rw [hpc] at hclear
  have howner : e.owner = next m :=
    hclear (next m) e.owner (hring.blocked m hm) (by rw [hq]; exact nofun)
      (blockedBy_of_conflict h.locks hp hf)
  have hne : next m ≠ 0 := fun heq => by
    rw [heq, h.noZero] at hq
    cases hq
  rw [howner] at happly
  rcases stepPending_apply bp s m hpc with ⟨c, hc, heq⟩ | ⟨hno, -⟩
  · rw [happly] at hc heq
    obtain rfl := Result.eagain.inj hc
    rw [heq, if_neg hne]
  · rw [happly] at hno
    exact absurd rfl (hno _)

theorem recorded_clearWait {pid : Nat} (hne : a ≠ pid) (hw : s'.locks.waiters = s.locks.waiters ∨
      s'.locks.waiters = clearWait pid s.locks.waiters) (h : s.Recorded a b) : s'.Recorded a b := by
  obtain ⟨e, he, rfl, rfl⟩ := h
  rcases hw with hw | hw
  · exact ⟨e, hw ▸ he, rfl, rfl⟩
  · exact ⟨e, hw ▸ clearWait_other he hne, rfl, rfl⟩

theorem goOn_pending_self (pid : Nat) (l : Locks) (p : Pending) :
    (s.goOn pid l p).pending pid = some p :=
  Function.update_self ..

theorem goOn_pending_of_ne {pid : Nat} (hne : a ≠ pid) (l : Locks) (p : Pending) :
    (s.goOn pid l p).pending a = s.pending a :=
  Function.update_of_ne hne ..

theorem System.Ring.goOn (hring : s.Ring bp ms next) {m : Nat} {p' : Pending}
    (hp : s.pending m = some p) (hsame : p'.file = p.file ∧ p'.lock = p.lock)
    (hheld : ∀ f o x, l.held f o x = s.locks.held f o x) : (s.goOn m l p').Ring bp ms next := by
  refine ⟨hring.ne, hring.closed, fun a ha => ?_⟩
  obtain ⟨q, hq, -⟩ := hring.blocked a ha
  by_cases heq : a = m
  · subst heq
    refine blockedBy_congr (goOn_pending_self ..) (fun q' hq' => ?_)
      (fun f x => hheld f _ x) (hring.blocked a ha)
    obtain rfl : p = q' := Option.some.inj (hp.symm.trans hq')
    exact hsame
  · refine blockedBy_congr ((goOn_pending_of_ne heq l p').trans hq) (fun q' hq' => ?_)
      (fun f x => hheld f _ x) (hring.blocked a ha)
    obtain rfl : q = q' := Option.some.inj (hq.symm.trans hq')
    exact ⟨rfl, rfl⟩

/-- A member's own step brings it nearer, if it is not told `EDEADLK`. -/
theorem System.Ring.member_step (h : s.Inv bp) (hring : s.Ring bp ms next) {m : Nat}
    (hm : m ∈ ms) (hnear : ∀ a ∈ ms, s.Near a (next a) (k a))
    (hclear : s.Clear bp (.step m)) (hstep : s.step bp (.step m) = some s') :
    s'.returned = (m, .edeadlk) :: s.returned ∨
      s'.Ring bp ms next ∧ ∀ a ∈ ms, s'.Near a (next a) (if a = m then k a - 1 else k a) := by
  obtain ⟨p, hp, rfl⟩ := Option.map_eq_some_iff.mp hstep
  cases hpc : p.pc with
  | apply =>
      rw [hring.apply_step h hm hp hpc hclear]
      refine .inr ⟨hring.goOn hp ⟨rfl, rfl⟩ fun _ _ _ => rfl, fun a ha => ?_⟩
      obtain ⟨q, hq, hcases⟩ := hnear a ha
      by_cases heq : a = m
      · subst heq
        obtain rfl : p = q := Option.some.inj (hp.symm.trans hq)
        refine ⟨_, goOn_pending_self .., ?_⟩
        rw [if_pos rfl]
        rcases hcases with hk | ⟨hk, -⟩ | ⟨-, hnote⟩ | ⟨hrec, -⟩
        · exact .inr (.inr (.inl ⟨by omega, rfl⟩))
        · exact .inr (.inr (.inl ⟨by omega, rfl⟩))
        · rw [hpc] at hnote
          cases hnote
        · exact .inr (.inr (.inr ⟨hrec, .inr rfl⟩))
      · rw [if_neg heq]
        exact ⟨q, (goOn_pending_of_ne heq ..).trans hq, hcases⟩
  | note c =>
      have hclear := hclear p hp
      rw [hpc] at hclear
      rcases stepPending_note bp h.single m hpc with
        ⟨-, heq⟩ | ⟨-, ⟨ws, hn, heq⟩ | ⟨hfull, hno, -⟩⟩
      · exact .inl (by rw [heq]; rfl)
      · refine .inr ?_
        rw [heq]
        refine ⟨hring.goOn hp ⟨rfl, rfl⟩ fun _ _ _ => rfl, fun a ha => ?_⟩
        obtain ⟨q, hq, hcases⟩ := hnear a ha
        by_cases hself : a = m
        · subst hself
          obtain rfl : p = q := Option.some.inj (hp.symm.trans hq)
          refine ⟨_, goOn_pending_self .., ?_⟩
          rw [if_pos rfl]
          by_cases hc : c = next a
          · refine .inr (.inr (.inr ⟨⟨_, (hn.mem _).mpr (.inl rfl), rfl, hc⟩, .inl rfl⟩))
          · have hpc' : ¬ (p.pc = .apply ∨ p.pc = .note (next a)) := by
              simp [hpc, hc]
            have hk : 3 ≤ k a := by
              rcases hcases with hk | ⟨-, hn⟩ | ⟨-, hn⟩ | ⟨-, hn⟩
              · exact hk
              · exact absurd (.inl hn) hpc'
              · exact absurd (.inr hn) hpc'
              · exact absurd hn hpc'
            exact .inr (.inl ⟨by omega, rfl⟩)
        · rw [if_neg hself]
          refine ⟨q, (goOn_pending_of_ne hself ..).trans hq, ?_⟩
          refine hcases.imp id (Or.imp id (Or.imp id (And.imp (fun hrec => ?_) id)))
          obtain ⟨e, he, rfl, hb⟩ := hrec
          exact ⟨e, (hn.mem e).mpr (.inr ⟨he, hself⟩), rfl, hb⟩
      · rcases hclear.2 with ⟨b, e, he, hw, -⟩ | hfree
        · exact absurd hw (hno e he)
        · omega

theorem System.Ring.stranger_step (h : s.Inv bp) (hring : s.Ring bp ms next)
    (hop : ∀ m ∈ ms, op ≠ .step m)
    (hnear : ∀ a ∈ ms, s.Near a (next a) (k a)) (hstep : s.step bp op = some s') :
    s'.Ring bp ms next ∧ ∀ a ∈ ms, s'.Near a (next a) (k a) := by
  have hmember : ∀ {pid}, ¬ (pid = 0 ∨ s.pending pid ≠ none) → ∀ m ∈ ms, m ≠ pid := by
    intro pid hpid m hm heq
    obtain ⟨p, hp, -⟩ := hring.blocked m hm
    rw [heq] at hp
    exact hpid (.inr (by rw [hp]; exact nofun))
  cases op with
  | setlk pid file lock =>
      rw [step] at hstep
      split at hstep
      · cases hstep
      next hpid =>
      obtain rfl := Option.some.inj hstep
      obtain ⟨-, hw, hheld⟩ := applyPosix_frame h.locks file pid lock
      exact hring.other hnear (fun _ _ => rfl)
        (fun m hm f x => hheld f m x (hmember hpid m hm))
        fun m hm b => recorded_clearWait (hmember hpid m hm) hw
  | ofdSetlk file lock =>
      obtain rfl := Option.some.inj hstep
      obtain ⟨-, hw, hposix⟩ := applyOfd_frame h.locks file lock
      refine hring.other hnear (fun _ _ => rfl) (fun m hm f x => ?_) fun m hm b hrec => ?_
      · simp [held, hposix]
      · obtain ⟨e, he, hab⟩ := hrec
        exact ⟨e, by rw [hw]; exact he, hab⟩
  | setlkw pid file lock =>
      rw [step] at hstep
      split at hstep
      · cases hstep
      next hpid =>
      obtain rfl := Option.some.inj hstep
      exact hring.other hnear (fun m hm => Function.update_of_ne (hmember hpid m hm) ..)
        (fun _ _ _ _ => rfl) fun _ _ _ => id
  | step pid =>
      have hne : ∀ m ∈ ms, m ≠ pid := fun m hm heq => hop m hm (by rw [heq])
      obtain ⟨p, hp, rfl⟩ := Option.map_eq_some_iff.mp hstep
      cases hpc : p.pc with
      | apply =>
          obtain ⟨-, hw, hheld⟩ := applyPosix_frame h.locks p.file pid p.lock
          rcases stepPending_apply bp s pid hpc with ⟨c, -, heq⟩ | ⟨-, heq⟩ <;>
            · rw [heq]
              exact hring.other hnear (fun m hm => Function.update_of_ne (hne m hm) ..)
                (fun m hm f x => hheld f m x (hne m hm))
                fun m hm b => recorded_clearWait (hne m hm) hw
      | note c =>
          rcases stepPending_note bp h.single pid hpc with
            ⟨-, heq⟩ | ⟨-, ⟨ws, hn, heq⟩ | ⟨-, -, heq⟩⟩
          · rw [heq]
            exact hring.other hnear (fun m hm => Function.update_of_ne (hne m hm) ..)
              (fun _ _ _ _ => rfl) fun _ _ _ => id
          · rw [heq]
            refine hring.other hnear (fun m hm => Function.update_of_ne (hne m hm) ..)
              (fun _ _ _ _ => rfl) fun m hm b hrec => ?_
            obtain ⟨e, he, rfl, hb⟩ := hrec
            exact ⟨e, (hn.mem e).mpr (.inr ⟨he, hne _ hm⟩), rfl, hb⟩
          · rw [heq]
            exact hring.other hnear (fun m hm => Function.update_of_ne (hne m hm) ..)
              (fun _ _ _ _ => rfl) fun _ _ _ => id

theorem System.Ring.not_all_recorded (h : s.Inv bp) (hring : s.Ring bp ms next)
    (hrec : ∀ m ∈ ms, s.Recorded m (next m)) : False := by
  refine h.acyclic.not_ring hring.ne fun m hm => ⟨hring.closed m hm, ?_⟩
  have hzero : ∀ m ∈ ms, m ≠ 0 := fun m hm heq => by
    obtain ⟨p, hp, -⟩ := hring.blocked m hm
    rw [heq, h.noZero] at hp
    cases hp
  exact h.single.nextOf_eq_some.mpr ⟨hzero m hm, hzero _ (hring.closed m hm), hrec m hm⟩

/-- A run in which every member of a ring makes the steps that it is away from
its note tells one of them `EDEADLK`. -/
theorem System.Ring.detected (h : s.Inv bp) (hring : s.Ring bp ms next)
    (hrun : Run.Guarded (step bp) (System.Clear bp) s ops s')
    (hnear : ∀ m ∈ ms, s.Near m (next m) (ops.count (.step m))) :
    ∃ log, s'.returned = log ++ s.returned ∧ ∃ m ∈ ms, (m, Result.edeadlk) ∈ log := by
  induction hrun with
  | nil s =>
      refine (hring.not_all_recorded h fun m hm => ?_).elim
      obtain ⟨p, -, hcases⟩ := hnear m hm
      rw [count_nil] at hcases
      rcases hcases with hk | ⟨hk, -⟩ | ⟨hk, -⟩ | ⟨hrec, -⟩
      · omega
      · omega
      · omega
      · exact hrec
  | @cons s s₁ s' op ops hclear hf hrest ih =>
      have h₁ := step_inv h hf
      by_cases hop : ∃ m ∈ ms, op = .step m
      · obtain ⟨m, hm, rfl⟩ := hop
        rcases hring.member_step h hm hnear hclear hf with hret | ⟨hring₁, hnear₁⟩
        · obtain ⟨log, hlog⟩ := run_returned h₁ hrest
          exact ⟨log ++ [(m, .edeadlk)], by rw [hlog, hret]; simp, m, hm, by simp⟩
        · obtain ⟨log, hlog, hmem⟩ := ih h₁ hring₁ fun a ha => by
            have := hnear₁ a ha
            by_cases heq : a = m
            · simpa [heq] using this
            · rw [if_neg heq, count_cons_of_ne (by simp [Ne.symm heq])] at this
              exact this
          obtain ⟨log₁, hlog₁, -⟩ := step_returned h hf
          obtain ⟨a, ha, hin⟩ := hmem
          exact ⟨log ++ log₁, by rw [hlog, hlog₁, append_assoc], a, ha, mem_append_left _ hin⟩
      · have hop : ∀ m ∈ ms, op ≠ .step m := fun m hm heq => hop ⟨m, hm, heq⟩
        obtain ⟨hring₁, hnear₁⟩ := hring.stranger_step h hop hnear hf
        obtain ⟨log, hlog, a, ha, hin⟩ := ih h₁ hring₁ fun a ha => by
          have := hnear₁ a ha
          rwa [count_cons_of_ne (hop a ha)] at this
        obtain ⟨log₁, hlog₁, -⟩ := step_returned h hf
        exact ⟨log ++ log₁, by rw [hlog, hlog₁, append_assoc], a, ha, mem_append_left _ hin⟩

end Detection

section Runs

variable {bp : Nat → String} {s : System}

def System.blockers (bp : Nat → String) (s : System) (a : Nat) : List Nat :=
  match s.pending a with
  | none => []
  | some p => ((used s.locks.posix).filter fun e => keysMatch e.key (keyOf bp p.file) &&
      e.owner ≠ a && typesConflict e.lock p.lock).map Entry.owner

theorem mem_blockers (h : s.locks.Inv bp) : b ∈ s.blockers bp a ↔ s.BlockedBy bp a b := by
  rw [blockedBy_iff h, blockers]
  cases hp : s.pending a with
  | none => simp
  | some p =>
      simp only [mem_map, mem_filter, Bool.and_eq_true, decide_eq_true_eq, Option.some.injEq]
      constructor
      · intro ⟨e, ⟨he, ⟨hk, hne⟩, hc⟩, ho⟩
        exact ⟨p, rfl, fun heq => hne (ho.trans heq.symm), e, he, hk, ho, hc⟩
      · intro ⟨q, hq, hne, e, he, hk, ho, hc⟩
        subst hq
        exact ⟨e, ⟨he, ⟨hk, fun heq => hne (heq.symm.trans ho)⟩, hc⟩, ho⟩

def System.Checked (bp : Nat → String) (s : System) : Op → Prop
  | .step a =>
      match (s.pending a).map Pending.pc with
      | some (.note c) => c ∈ s.blockers bp a ∧
          (∀ e ∈ used s.locks.waiters, e.blockedBy ∈ s.blockers bp e.waiter) ∧
          0 < free s.locks.waiters
      | _ => ∀ b ∈ s.blockers bp a, ∀ b' ∈ s.blockers bp a, b' = b
  | _ => True

instance (op : Op) : Decidable (s.Checked bp op) := by
  unfold System.Checked
  split
  · split <;> infer_instance
  · infer_instance

theorem System.Checked.clear (h : s.Inv bp) (hc : s.Checked bp op) : s.Clear bp op := by
  cases op with
  | step a =>
      intro p hp
      rw [System.Checked, hp, Option.map_some] at hc
      cases hpc : p.pc with
      | apply =>
          rw [hpc] at hc
          intro b b' hb _ hb'
          exact hc b ((mem_blockers h.locks).mpr hb) b' ((mem_blockers h.locks).mpr hb')
      | note c =>
          rw [hpc] at hc
          obtain ⟨hblocked, hcurrent, hfree⟩ := hc
          refine ⟨fun _ => ⟨(mem_blockers h.locks).mp hblocked, ?_⟩, .inr hfree⟩
          rintro x y - ⟨e, he, rfl, rfl⟩
          exact (mem_blockers h.locks).mp (hcurrent e he)
  | setlk | ofdSetlk | setlkw => trivial

def checkedRun (bp : Nat → String) (ops : List Op) : Option System :=
  ops.foldlM (fun (s : System) op => if s.Checked bp op then s.step bp op else none) .boot

theorem checkedRun_clear (h : checkedRun bp ops = some s) :
    Run.Guarded (step bp) (System.Clear bp) .boot ops s :=
  (Run.Guarded.of_foldlM h).imp (fun hi hf => step_inv hi hf) (fun hi hc => hc.clear hi)
    boot_inv

def plainRun (bp : Nat → String) (s : System) (ops : List Op) : Option System :=
  ops.foldlM (fun (s : System) op => if True then s.step bp op else none) s

end Runs

/-- In every run that is clear: where a call returns `EDEADLK`, its process is in
a cycle of processes that wait, each for a lock that the next one holds. And
where there are such processes, and each makes three steps, one is told
`EDEADLK`. -/
theorem deadlock_detection_exact {bp : Nat → String} {ops : List Op} {s : System}
    (hrun : Run.Guarded (System.step bp) (System.Clear bp) .boot ops s) :
    (∀ op s' log a, s.Clear bp op → s.step bp op = some s' →
      s'.returned = log ++ s.returned → (a, .edeadlk) ∈ log → TransGen (s.BlockedBy bp) a a) ∧
    ∀ ms next more s', s.Ring bp ms next →
      Run.Guarded (System.step bp) (System.Clear bp) s more s' →
      (∀ m ∈ ms, 3 ≤ more.count (.step m)) →
      ∃ log, s'.returned = log ++ s.returned ∧ ∃ m ∈ ms, (m, Result.edeadlk) ∈ log := by
  have h : s.Inv bp := hrun.inv (fun hi _ hf => step_inv hi hf) boot_inv
  refine ⟨fun op s' log a hclear hstep hlog ha => ?_,
    fun ms next more s' hring hmore hcount => ?_⟩
  · obtain ⟨log', hlog', hcyc⟩ := step_returned h hstep
    obtain rfl := append_cancel_right (hlog.symm.trans hlog')
    obtain ⟨p, c, rfl, hp, hpc, hcyc⟩ := hcyc a ha
    exact edeadlk_cycle h hp hpc hclear hcyc
  · refine hring.detected h hmore fun m hm => ?_
    obtain ⟨p, hp, -⟩ := hring.blocked m hm
    exact ⟨p, hp, .inl (hcount m hm)⟩

/-- Process 1 has the bytes below 10 and process 2 those from 20 to 30, and each
waits for the other's. -/
def deadlockOps : List Op :=
  [.setlk 1 0 ⟨.wrlck, 0, 10⟩, .setlk 2 0 ⟨.wrlck, 20, 10⟩,
    .setlkw 1 0 ⟨.wrlck, 20, 10⟩, .step 1, .step 1, .setlkw 2 0 ⟨.wrlck, 0, 10⟩, .step 2]

theorem deadlock_detection_exact_pair : ∃ s s',
    Run.Guarded (System.step fun _ => "") (System.Clear fun _ => "") .boot deadlockOps s ∧
      s.step (fun _ => "") (.step 2) = some s' ∧ s'.returned = (2, .edeadlk) :: s.returned ∧
      TransGen (s.BlockedBy fun _ => "") 2 2 := by
  have hmap : ((checkedRun (fun _ => "") deadlockOps).map fun s =>
      (decide (s.Checked (fun _ => "") (.step 2)),
        decide ((s.step (fun _ => "") (.step 2)).map returned =
          some ((2, .edeadlk) :: s.returned)))) = some (true, true) := by
    decide +kernel
  obtain ⟨s, hs, heq⟩ := Option.map_eq_some_iff.mp hmap
  obtain ⟨hchecked, hret⟩ := Prod.mk.inj heq
  have hrun := checkedRun_clear hs
  have hinv : s.Inv fun _ => "" := hrun.inv (fun hi _ hf => step_inv hi hf) boot_inv
  obtain ⟨s', hstep, hlog⟩ := Option.map_eq_some_iff.mp (of_decide_eq_true hret)
  refine ⟨s, s', hrun, hstep, hlog, ?_⟩
  exact (deadlock_detection_exact hrun).1 (.step 2) s' [(2, .edeadlk)] 2
    ((of_decide_eq_true hchecked).clear hinv) hstep hlog (by simp)

/-- Process 2 unlocks its bytes before it asks for those of process 1. -/
def staleOps : List Op :=
  [.setlk 1 0 ⟨.wrlck, 0, 10⟩, .setlk 2 0 ⟨.wrlck, 20, 10⟩,
    .setlkw 1 0 ⟨.wrlck, 20, 10⟩, .step 1, .step 1, .setlk 2 0 ⟨.unlck, 20, 10⟩,
    .setlkw 2 0 ⟨.wrlck, 0, 10⟩, .step 2]

/-- Process 1 waits for nobody any more, but its edge is still there, and process
2 is told `EDEADLK`. -/
theorem false_alarm : ∃ s s',
    Run.Guarded (System.step fun _ => "") (fun _ _ => True) .boot staleOps s ∧
      s.step (fun _ => "") (.step 2) = some s' ∧ s'.returned = (2, .edeadlk) :: s.returned ∧
      ¬ TransGen (s.BlockedBy fun _ => "") 2 2 := by
  have hmap : ((plainRun (fun _ => "") .boot staleOps).map fun s =>
      (s.blockers (fun _ => "") 2, s.blockers (fun _ => "") 1,
        decide ((s.step (fun _ => "") (.step 2)).map returned =
          some ((2, .edeadlk) :: s.returned)))) = some ([1], [], true) := by
    decide +kernel
  obtain ⟨s, hs, heq⟩ := Option.map_eq_some_iff.mp hmap
  obtain ⟨htwo, heq⟩ := Prod.mk.inj heq
  obtain ⟨hone, hret⟩ := Prod.mk.inj heq
  have hrun := Run.Guarded.of_foldlM (C := fun _ _ => True) hs
  have hinv : s.Inv fun _ => "" := hrun.inv (fun hi _ hf => step_inv hi hf) boot_inv
  obtain ⟨s', hstep, hlog⟩ := Option.map_eq_some_iff.mp (of_decide_eq_true hret)
  refine ⟨s, s', hrun, hstep, hlog, fun hcyc => ?_⟩
  obtain ⟨b, hb, hrest⟩ := Relation.TransGen.head'_iff.mp hcyc
  rw [← mem_blockers hinv.locks, htwo, mem_singleton] at hb
  subst hb
  rcases hrest.cases_head with heq | ⟨c, hc, -⟩
  · cases heq
  · rw [← mem_blockers hinv.locks, hone] at hc
    cases hc

/-- Whatever the calls and however their rounds interleave: no two owners have
conflicting locks of a byte, a process has one edge at most, and the edges make no
cycle. -/
theorem recorded_waits_acyclic {bp : Nat → String} {ops : List Op} {s : System}
    (hrun : Run.Guarded (step bp) (fun _ _ => True) .boot ops s) :
    s.locks.NoConflict ∧ Single s.locks.waiters ∧ Pointer.Acyclic (nextOf s.locks.waiters) := by
  have h : s.Inv bp := hrun.inv (fun hi _ hf => step_inv hi hf) boot_inv
  exact ⟨h.locks.noConflict, h.single, h.acyclic⟩

theorem recorded_waits_acyclic_pair : ∃ s,
    plainRun (fun _ => "") .boot deadlockOps = some s ∧ nextOf s.locks.waiters 1 = some 2 ∧
      Pointer.Acyclic (nextOf s.locks.waiters) := by
  have hmap : (plainRun (fun _ => "") .boot deadlockOps).map (nextOf ·.locks.waiters 1) =
      some (some 2) := by
    decide +kernel
  obtain ⟨s, hs, hedge⟩ := Option.map_eq_some_iff.mp hmap
  exact ⟨s, hs, hedge, (recorded_waits_acyclic (.of_foldlM hs)).2.2⟩

/-- Processes 2 and 3 read-lock what process 1 asks for, and process 3 asks for
what process 1 has. -/
def severalOps : List Op :=
  [.setlk 1 0 ⟨.wrlck, 50, 10⟩, .setlk 2 0 ⟨.rdlck, 0, 5⟩, .setlk 3 0 ⟨.rdlck, 5, 5⟩,
    .setlkw 1 0 ⟨.wrlck, 0, 10⟩, .setlkw 3 0 ⟨.wrlck, 50, 10⟩]

/-- Process 1 notes process 2, whose lock is the lower one, and no one is told
that 1 and 3 wait for each other. -/
theorem deadlock_unseen : ∃ s more s',
    Run.Guarded (step fun _ => "") (fun _ _ => True) .boot severalOps s ∧
      s.Ring (fun _ => "") [1, 3] (fun m => if m = 1 then 3 else 1) ∧
      Run.Guarded (step fun _ => "") (fun _ _ => True) s more s' ∧
      (∀ m ∈ [1, 3], 3 ≤ more.count (.step m)) ∧ s'.returned = s.returned := by
  have hmap : ((plainRun (fun _ => "") .boot severalOps).map fun s =>
      (s.blockers (fun _ => "") 1, s.blockers (fun _ => "") 3,
        decide ((plainRun (fun _ => "") s [.step 1, .step 1, .step 3, .step 3, .step 1, .step 1,
          .step 3, .step 3]).map returned = some s.returned))) =
      some ([2, 3], [1], true) := by
    decide +kernel
  obtain ⟨s, hs, heq⟩ := Option.map_eq_some_iff.mp hmap
  obtain ⟨hone, heq⟩ := Prod.mk.inj heq
  obtain ⟨hthree, hmore⟩ := Prod.mk.inj heq
  have hrun := Run.Guarded.of_foldlM (C := fun _ _ => True) hs
  have hinv : s.Inv fun _ => "" := hrun.inv (fun hi _ hf => step_inv hi hf) boot_inv
  obtain ⟨s', hs', hret⟩ := Option.map_eq_some_iff.mp (of_decide_eq_true hmore)
  refine ⟨s, _, s', hrun, ⟨nofun, by decide, fun m hm => ?_⟩,
    Run.Guarded.of_foldlM (C := fun _ _ => True) hs', by decide, hret⟩
  rw [← mem_blockers hinv.locks]
  simp only [mem_cons, not_mem_nil, or_false] at hm
  rcases hm with rfl | rfl
  · simp [hone]
  · simp [hthree]

end F7ly.Fs.RecordLock
