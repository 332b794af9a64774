import F7ly.Proofs.RecordLockTable

/-!
# Record locks are a map of bytes

The two tables stand for a map from a file, an owner and a byte to unlocked,
read or write (`Locks.held`), where an owner is a process or an open file
description. `Exact` says what a call may do to the map. It does so exactly if
there is room for what it does (`Fits`), and `lock_lost` is a run to a call
without. That no two owners have conflicting locks holds in any case.
-/

namespace F7ly.Fs.RecordLock

open Locks List

open Slots (used free)

/-- Who holds a lock. -/
inductive Owner where
  | process (pid : Nat)
  | description (file : Nat)
  deriving DecidableEq

namespace Locks

def held (s : Locks) (file : String ⊕ Nat) (o : Owner) (b : Nat) : LockType :=
  match o with
  | .process pid => heldIn (used s.posix) file pid b
  | .description d => heldIn (used s.ofd) file d b

def NoConflict (s : Locks) : Prop :=
  ∀ file o o' b, o ≠ o' → s.held file o b = .wrlck → s.held file o' b = .unlck

/-- What holds after every call. -/
structure Inv (bp : Nat → String) (s : Locks) : Prop where
  posix : Sound bp (used s.posix)
  ofd : Sound bp (used s.ofd)
  noConflict : s.NoConflict

end Locks

/-- The bytes of a request: up to `l_len` from `l_start`, or all if it is zero,
below the largest offset. -/
def Flock.InRange (l : Flock) (b : Nat) : Prop :=
  l.start ≤ b ∧ (l.len = 0 ∨ b < l.start + l.len) ∧ b < lockOpenEnd

instance (l : Flock) (b : Nat) : Decidable (l.InRange b) :=
  inferInstanceAs (Decidable (_ ∧ _ ∧ _))

theorem covers_iff {l : Flock} {b : Nat} : l.Covers b ↔ l.InRange b := by
  unfold Flock.Covers Flock.InRange recordLockEnd
  split
  · omega
  · split <;> omega

namespace Call

def file (bp : Nat → String) : Call → String ⊕ Nat
  | .posix file _ _ => (keyOf bp file).file
  | .ofd file _ => (keyOf bp file).file

def owner : Call → Owner
  | .posix _ pid _ => .process pid
  | .ofd file _ => .description file

def lock : Call → Flock
  | .posix _ _ lock => lock
  | .ofd _ lock => lock

end Call

/-- What a call may do to the map: if it succeeds, the owner's lock of the
range, and nothing else; if not, nothing. -/
def Exact (bp : Nat → String) (s : Locks) (c : Call) (out : Locks × Result) : Prop :=
  if out.2 = .ok then
    ∀ file o b, out.1.held file o b =
      if file = c.file bp ∧ o = c.owner ∧ c.lock.InRange b then c.lock.type
      else s.held file o b
  else out.1 = s

theorem Exact.of_error {bp : Nat → String} {s : Locks} {c : Call} {out : Locks × Result}
    (h : Exact bp s c out) (herr : out.2 ≠ .ok) : out.1 = s := by
  rwa [Exact, if_neg herr] at h

section Conflicts

variable {α : Type}

theorem lowest_eq_none {p : Entry α → Bool} {t : Table α} :
    lowest p t none = none ↔ ∀ e ∈ used t, p e = false := by
  have hsome : ∀ (t : Table α) e, ∃ e', lowest p t (some e) = some e' := by
    intro t
    induction t with
    | nil => exact fun e => ⟨e, rfl⟩
    | cons x t ih =>
        intro e
        cases x with
        | none => exact ih e
        | some x =>
            rw [lowest]
            split
            · exact ih x
            · exact ih e
  induction t with
  | nil => simp [lowest]
  | cons x t ih =>
      cases x with
      | none => simpa [lowest] using ih
      | some x =>
          rw [lowest]
          by_cases hx : p x = true
          · obtain ⟨e', he'⟩ := hsome t x
            simp [hx, he']
          · simp [hx, ih]

end Conflicts

def Conflicted (s : Locks) (key : FileKey) (o : Owner) (lock : Flock) : Prop :=
  (∃ e ∈ used s.posix, keysMatch e.key key ∧ .process e.owner ≠ o ∧ typesConflict e.lock lock) ∨
  ∃ e ∈ used s.ofd, keysMatch e.key key ∧ .description e.owner ≠ o ∧ typesConflict e.lock lock

/-- The tables have room for what a call does. A request that cuts nothing may
find the table full. -/
def Fits (bp : Nat → String) (s : Locks) (c : Call) : Prop :=
  match c with
  | .posix file pid lock =>
      (lock.type ≠ .unlck ∧ Conflicted s (keyOf bp file) (.process pid) lock) ∨
        TableFits (keyOf bp file) pid lock s.posix
  | .ofd file lock =>
      (lock.type ≠ .unlck ∧ Conflicted s (keyOf bp file) (.description file) lock) ∨
        TableFits (keyOf bp file) file lock s.ofd

variable {key : FileKey} {t : Table Nat}

section Steps

variable {bp : Nat → String} {s : Locks}

theorem keyOf_stable (file : Nat) : (keyOf bp file).Stable bp := rfl

theorem keyOf_identity (file : Nat) : (keyOf bp file).identity = file := rfl

theorem conflicting_posix_none {pid : Nat} {lock : Flock} :
    (s.findConflictingPosix key pid lock true = none ∧ s.findConflictingOfd key lock none = none) ↔
      ¬ Conflicted s key (.process pid) lock := by
  unfold findConflictingPosix findConflictingOfd Conflicted
  rw [lowest_eq_none, lowest_eq_none]
  simp

theorem conflicting_ofd_none {file : Nat} {lock : Flock} :
    (s.findConflictingOfd key lock (some file) = none ∧
      s.findConflictingPosix key 0 lock false = none) ↔
      ¬ Conflicted s key (.description file) lock := by
  unfold findConflictingPosix findConflictingOfd Conflicted
  rw [lowest_eq_none, lowest_eq_none, and_comm]
  simp [@eq_comm _ file]

/-- A call fails with nothing done, or sets a lock that nothing is in the way
of. -/
theorem applyPosix_cases (s : Locks) (key : FileKey) (pid : Nat) (lock : Flock) :
    (lock.type ≠ .unlck ∧ Conflicted s key (.process pid) lock ∧
      ∃ p, s.applyPosixRecordLock key pid lock = (s, .eagain p)) ∨
    (¬ (lock.type ≠ .unlck ∧ Conflicted s key (.process pid) lock) ∧ ∃ w,
      ((setLock key pid lock s.posix).2 = .ok ∧ w = clearWait pid s.waiters ∨
        (setLock key pid lock s.posix).2 ≠ .ok ∧ w = s.waiters) ∧
      s.applyPosixRecordLock key pid lock =
        ({ s with posix := (setLock key pid lock s.posix).1, waiters := w },
          (setLock key pid lock s.posix).2)) := by
  unfold applyPosixRecordLock setLock
  by_cases htype : lock.type = .unlck
  · exact .inr ⟨fun h => h.1 htype, clearWait pid s.waiters, by simp [htype], by simp [htype]⟩
  · simp only [htype]
    cases hp : s.findConflictingPosix key pid lock true with
    | some e =>
        refine .inl ⟨htype, ?_, _, rfl⟩
        by_contra hno
        rw [← conflicting_posix_none, hp] at hno
        cases hno.1
    | none =>
        cases ho : s.findConflictingOfd key lock none with
        | some e =>
            refine .inl ⟨htype, ?_, _, rfl⟩
            by_contra hno
            rw [← conflicting_posix_none, ho] at hno
            cases hno.2
        | none =>
            refine .inr ⟨fun h => conflicting_posix_none.mp ⟨hp, ho⟩ h.2, ?_⟩
            cases hi : Slots.insert (replaceSameOwner key pid lock s.posix)
                ⟨key, pid, lock⟩ with
            | some t => exact ⟨clearWait pid s.waiters, .inl ⟨rfl, rfl⟩, rfl⟩
            | none => exact ⟨s.waiters, .inr ⟨nofun, rfl⟩, rfl⟩

theorem applyOfd_cases (s : Locks) (key : FileKey) (lock : Flock) :
    (lock.type ≠ .unlck ∧ Conflicted s key (.description key.identity) lock ∧
      s.applyOfdRecordLock key lock = (s, .eagain 0)) ∨
    (¬ (lock.type ≠ .unlck ∧ Conflicted s key (.description key.identity) lock) ∧
      s.applyOfdRecordLock key lock = ({ s with ofd := (setLock key key.identity lock s.ofd).1 },
          (setLock key key.identity lock s.ofd).2)) := by
  unfold applyOfdRecordLock setLock
  by_cases htype : lock.type = .unlck
  · exact .inr ⟨fun h => h.1 htype, by simp [htype]⟩
  · simp only [htype]
    cases ho : s.findConflictingOfd key lock (some key.identity) with
    | some e =>
        refine .inl ⟨htype, ?_, rfl⟩
        by_contra hno
        rw [← conflicting_ofd_none, ho] at hno
        cases hno.1
    | none =>
        cases hp : s.findConflictingPosix key 0 lock false with
        | some e =>
            refine .inl ⟨htype, ?_, rfl⟩
            by_contra hno
            rw [← conflicting_ofd_none, hp] at hno
            cases hno.2
        | none =>
            refine .inr ⟨fun h => conflicting_ofd_none.mp ⟨ho, hp⟩ h.2, ?_⟩
            cases hi : Slots.insert (replaceSameOwner key key.identity lock s.ofd)
                ⟨key, key.identity, lock⟩ <;> rfl

theorem Locks.Inv.conflicted (h : s.Inv bp) (hkey : key.Stable bp)
    {o owner : Owner} {lock : Flock} {b : Nat} (hne : o ≠ owner) (hb : lock.Covers b)
    (htype : lock.type ≠ .unlck) (hheld : s.held key.file o b ≠ .unlck)
    (hw : s.held key.file o b = .wrlck ∨ lock.type = .wrlck) : Conflicted s key owner lock := by
  have hconf : ∀ l : Flock, l.Covers b → l.type ≠ .unlck →
      l.type = .wrlck ∨ lock.type = .wrlck → typesConflict l lock = true := by
    intro l hl hlt hlw
    rw [typesConflict, if_neg (by simp [hlt, htype]),
      if_neg (by simp [overlap_iff.mpr ⟨b, hl, hb⟩])]
    simpa using hlw
  cases o with
  | process pid =>
      rcases heldIn_cases (used s.posix) key.file pid b with ⟨e, he, hat, heq⟩ | ⟨-, heq⟩
      · rw [show s.held key.file (.process pid) b = e.lock.type from heq] at hheld hw
        exact .inl ⟨e, he, (keysMatch_iff (h.posix.keys e he) hkey).mpr hat.1,
          hat.2.1 ▸ hne, hconf _ hat.2.2 hheld hw⟩
      · exact absurd heq hheld
  | description d =>
      rcases heldIn_cases (used s.ofd) key.file d b with ⟨e, he, hat, heq⟩ | ⟨-, heq⟩
      · rw [show s.held key.file (.description d) b = e.lock.type from heq] at hheld hw
        exact .inr ⟨e, he, (keysMatch_iff (h.ofd.keys e he) hkey).mpr hat.1,
          hat.2.1 ▸ hne, hconf _ hat.2.2 hheld hw⟩
      · exact absurd heq hheld

/-- Two owners stay without conflict when one gets a lock that nothing is in the
way of. -/
theorem Locks.Inv.noConflict_of_le (h : s.Inv bp) {s' : Locks}
    (hkey : key.Stable bp) {owner : Owner} {lock : Flock}
    (hfree : ¬ (lock.type ≠ .unlck ∧ Conflicted s key owner lock))
    (hle : ∀ file o b, s'.held file o b = .unlck ∨ s'.held file o b = s.held file o b ∨
      (file = key.file ∧ o = owner ∧ lock.Covers b) ∧ s'.held file o b = lock.type) :
    s'.NoConflict := by
  intro file o o' b hne hw
  rcases hle file o' b with h' | h' | ⟨⟨rfl, rfl, hb⟩, h'⟩
  · exact h'
  · rcases hle file o b with h₁ | h₁ | ⟨⟨rfl, rfl, hb⟩, h₁⟩
    · rw [hw] at h₁
      cases h₁
    · rw [h']
      exact h.noConflict file o o' b hne (h₁ ▸ hw)
    · by_contra hheld
      have htype : lock.type = .wrlck := h₁ ▸ hw
      refine hfree ⟨by rw [htype]; decide, ?_⟩
      exact h.conflicted hkey (Ne.symm hne) hb (by rw [htype]; decide) (h' ▸ hheld)
        (.inr htype)
  · rw [h']
    by_contra htype
    rcases hle key.file o b with h₁ | h₁ | ⟨⟨-, rfl, -⟩, -⟩
    · rw [hw] at h₁
      cases h₁
    · have hwo : s.held key.file o b = .wrlck := h₁ ▸ hw
      exact hfree ⟨htype, h.conflicted hkey hne hb htype (by rw [hwo]; decide) (.inl hwo)⟩
    · exact hne rfl

theorem call_inv (h : s.Inv bp) (c : Call) : (s.call bp c).1.Inv bp := by
  cases c with
  | posix file pid lock =>
      rcases applyPosix_cases s (keyOf bp file) pid lock with ⟨-, -, p, heq⟩ | ⟨hfree, w, -, heq⟩
      · rw [call, heq]
        exact h
      · rw [call, heq]
        refine ⟨setLock_sound h.posix (keyOf_stable file), h.ofd, ?_⟩
        refine h.noConflict_of_le (keyOf_stable file) hfree fun f o b => ?_
        cases o with
        | description d => exact .inr (.inl rfl)
        | process q =>
            exact (setLock_le h.posix (keyOf_stable file) f q b).imp id
              (Or.imp id fun ⟨⟨hf, ho, hb⟩, ht⟩ => ⟨⟨hf, congrArg _ ho, hb⟩, ht⟩)
  | ofd file lock =>
      rcases applyOfd_cases s (keyOf bp file) lock with ⟨-, -, heq⟩ | ⟨hfree, heq⟩
      · rw [call, heq]
        exact h
      · rw [call, heq]
        refine ⟨h.posix, setLock_sound h.ofd (keyOf_stable file), ?_⟩
        refine h.noConflict_of_le (keyOf_stable file) hfree fun f o b => ?_
        cases o with
        | process q => exact .inr (.inl rfl)
        | description d =>
            exact (setLock_le h.ofd (keyOf_stable file) f d b).imp id
              (Or.imp id fun ⟨⟨hf, ho, hb⟩, ht⟩ => ⟨⟨hf, congrArg _ ho, hb⟩, ht⟩)

theorem empty_inv : empty.Inv bp := by
  have hused : used (replicate maxRecordLocks none : Table Nat) = [] := by
    simp [used]
  refine ⟨?_, ?_, fun file o o' b hne hw => ?_⟩
  · rw [empty, hused]
    exact ⟨by simp, by simp, .nil⟩
  · rw [empty, hused]
    exact ⟨by simp, by simp, .nil⟩
  · cases o <;> simp [held, empty, heldIn] at hw

theorem run_inv (calls : List Call) : (run bp calls).Inv bp := by
  exact foldlRecOn calls _ empty_inv fun s hs c _ => call_inv hs c

theorem exact_posix_iff {file pid : Nat} {lock : Flock}
    {w : List (Option WaitEntry)} {r : Result} (hw : r ≠ .ok → w = s.waiters) :
    Exact bp s (.posix file pid lock) ({ s with posix := t, waiters := w }, r) ↔
      TableExact (keyOf bp file) pid lock s.posix (t, r) := by
  unfold Exact TableExact
  split
  · constructor
    · intro h f q b
      simpa [Asked, covers_iff, Call.file, Call.owner, Call.lock, held] using
        h f (.process q) b
    · intro h f o b
      cases o with
      | process q =>
          simpa [Asked, covers_iff, Call.file, Call.owner, Call.lock, held] using h f q b
      | description d => simp [Call.owner, held]
  · next hr =>
      rw [hw hr]
      exact ⟨fun h => congrArg posix h, fun h => by rw [show t = s.posix from h]⟩

theorem exact_ofd_iff {file : Nat} {lock : Flock} {r : Result} :
    Exact bp s (.ofd file lock) ({ s with ofd := t }, r) ↔
      TableExact (keyOf bp file) file lock s.ofd (t, r) := by
  unfold Exact TableExact
  split
  · constructor
    · intro h f d b
      simpa [Asked, covers_iff, Call.file, Call.owner, Call.lock, held] using
        h f (.description d) b
    · intro h f o b
      cases o with
      | process q => simp [Call.owner, held]
      | description d =>
          simpa [Asked, covers_iff, Call.file, Call.owner, Call.lock, held] using h f d b
  · exact ⟨fun h => congrArg ofd h, fun h => by rw [show t = s.ofd from h]⟩

theorem call_exact_of_inv (h : s.Inv bp) (c : Call) : Exact bp s c (s.call bp c) ↔ Fits bp s c := by
  cases c with
  | posix file pid lock =>
      rcases applyPosix_cases s (keyOf bp file) pid lock with
        ⟨htype, hconf, p, heq⟩ | ⟨hfree, w, hw, heq⟩
      · rw [call, heq]
        simp [Exact, Fits, htype, hconf]
      · rw [call, heq, Fits, or_iff_right hfree,
          exact_posix_iff fun hr => (hw.resolve_left fun h => hr h.1).2]
        exact setLock_exact_iff h.posix (keyOf_stable file)
  | ofd file lock =>
      have hcases := applyOfd_cases s (keyOf bp file) lock
      rw [keyOf_identity] at hcases
      rcases hcases with ⟨htype, hconf, heq⟩ | ⟨hfree, heq⟩
      · rw [call, heq]
        simp [Exact, Fits, htype, hconf]
      · rw [call, heq, Fits, or_iff_right hfree, exact_ofd_iff]
        exact setLock_exact_iff h.ofd (keyOf_stable file)

end Steps

/-- After every sequence of calls no two owners have conflicting locks of a
byte, and the next call does to the map what it should exactly if the tables
have room for it. -/
theorem record_locks_refine_iff_fits (bp : Nat → String) (calls : List Call) :
    (Locks.run bp calls).NoConflict ∧ ∀ c,
      (Exact bp (Locks.run bp calls) c ((Locks.run bp calls).call bp c) ↔
        Fits bp (Locks.run bp calls) c) :=
  ⟨(run_inv calls).noConflict, call_exact_of_inv (run_inv calls)⟩

section Full

variable {bp : Nat → String} {s : Locks}

theorem setLock_full {α : Type} [DecidableEq α] {owner : α} {lock : Flock}
    {t : Table α} (htype : lock.type ≠ .unlck) (h : ¬ Room key owner lock 1 t) :
    setLock key owner lock t = (replaceSameOwner key owner lock t, .enfile) := by
  rw [← free_replace_pos, Nat.pos_iff_ne_zero, not_not] at h
  simp [setLock, htype, Slots.insert_eq_none.mpr h]

theorem mergeSameOwner_alone {e : Entry Nat} {es : List (Entry Nat)} (hp : (used t).Perm (e :: es))
    (hes : ∀ e' ∈ es, keysMatch e'.key key = false) : mergeSameOwner key t = t := by
  have hnone : mergeOnce key t = none := by
    cases hm : mergeOnce key t with
    | none => rfl
    | some t' =>
        obtain ⟨l, r, rest, hl, hr, -, -, hu, -⟩ := mergeOnce_spec hm
        have hcount := (hp.symm.trans hu).countP_eq (keysMatch ·.key key)
        have hzero : es.countP (keysMatch ·.key key) = 0 := by
          simpa [countP_eq_zero] using hes
        rw [countP_cons, countP_cons, countP_cons, if_pos hl, if_pos hr, hzero] at hcount
        split at hcount <;> omega
  unfold mergeSameOwner
  cases t.length with
  | zero => rfl
  | succ n => rw [mergeLoop, hnone]

theorem call_fresh (file pid : Nat) (lock : Flock) (htype : lock.type ≠ .unlck)
    (hposix : ∀ e ∈ used s.posix, keysMatch e.key (keyOf bp file) = false)
    (hofd : used s.ofd = []) (hfree : 0 < free s.posix) :
    (used (s.call bp (.posix file pid lock)).1.posix).Perm
        (⟨keyOf bp file, pid, lock⟩ :: used s.posix) ∧
      free (s.call bp (.posix file pid lock)).1.posix + 1 = free s.posix ∧
      (s.call bp (.posix file pid lock)).1.ofd = s.ofd := by
  rcases applyPosix_cases s (keyOf bp file) pid lock with ⟨-, hconf, -⟩ | ⟨-, w, -, heq⟩
  · rcases hconf with ⟨e, he, hk, -⟩ | ⟨e, he, -⟩
    · rw [hposix e he] at hk
      cases hk
    · rw [hofd] at he
      cases he
  · have hcut : replaceSameOwner (keyOf bp file) pid lock s.posix = s.posix :=
      replace_of_no_hits (filter_eq_nil_iff.mpr fun e he => by simp [hit, hposix e he])
    obtain ⟨t, hi⟩ := Slots.insert_isSome hfree ⟨keyOf bp file, pid, lock⟩
    obtain ⟨hp, hfree', -⟩ := Slots.insert_spec hi
    have hset : setLock (keyOf bp file) pid lock s.posix = (t, .ok) := by
      simp [setLock, hcut, htype, hi, mergeSameOwner_alone hp hposix]
    rw [call, heq, hset]
    exact ⟨hp, hfree', rfl⟩

def fill (k : Nat) : List Call :=
  (range k).map fun file => .posix file 1 ⟨.rdlck, 0, 1⟩

theorem run_concat (calls : List Call) (c : Call) :
    run bp (calls ++ [c]) = ((run bp calls).call bp c).1 := by
  simp [run]

theorem keysMatch_noPath {k : FileKey} {file : Nat} (h : k.identity ≠ file) :
    keysMatch k (keyOf (fun _ => "") file) = false := by
  simp [keysMatch, keyOf, h]

theorem fill_spec {k : Nat} (hk : k ≤ maxRecordLocks) :
    (∀ e ∈ used (run (fun _ => "") (fill k)).posix, e.key.identity < k) ∧
      free (run (fun _ => "") (fill k)).posix + k = maxRecordLocks ∧
      used (run (fun _ => "") (fill k)).ofd = [] := by
  induction k with
  | zero =>
      have hused : used (replicate maxRecordLocks none : Table Nat) = [] := by
        simp [used]
      refine ⟨?_, ?_, hused⟩
      · change ∀ e ∈ used (replicate maxRecordLocks none), _
        simp
      · simp [fill, run, empty, free, countP_replicate]
  | succ k ih =>
      obtain ⟨hid, hfree, hofd⟩ := ih (by omega)
      have hcalls : fill (k + 1) = fill k ++ [.posix k 1 ⟨.rdlck, 0, 1⟩] := by
        simp [fill, range_succ]
      rw [hcalls, run_concat]
      obtain ⟨hp, hfree', hofd'⟩ := call_fresh k 1 ⟨.rdlck, 0, 1⟩ (by decide)
        (fun e he => keysMatch_noPath (Nat.ne_of_lt (hid e he))) hofd (by omega)
      refine ⟨fun e he => ?_, by omega, hofd' ▸ hofd⟩
      rcases mem_cons.mp (hp.mem_iff.mp he) with rfl | he
      · exact Nat.lt_succ_self k
      · have := hid e he
        omega

/-- A full table, where the only lock of a file is a write lock, and its owner
asks for a read lock in the middle. -/
theorem lost_of_full {file pid : Nat} {es : List (Entry Nat)} (hs : s.Inv bp)
    (hp : (used s.posix).Perm (⟨keyOf bp file, pid, ⟨.wrlck, 10, 30⟩⟩ :: es))
    (hother : ∀ e ∈ es, keysMatch e.key (keyOf bp file) = false)
    (hofd : used s.ofd = []) (hfull : free s.posix = 0) :
    (s.call bp (.posix file pid ⟨.rdlck, 20, 10⟩)).2 = .enfile ∧
      s.held (keyOf bp file).file (.process pid) 25 = .wrlck ∧
      (s.call bp (.posix file pid ⟨.rdlck, 20, 10⟩)).1.held (keyOf bp file).file
        (.process pid) 25 = .unlck ∧ ¬ Exact bp s (.posix file pid ⟨.rdlck, 20, 10⟩)
        (s.call bp (.posix file pid ⟨.rdlck, 20, 10⟩)) := by
  have hkey : keysMatch (keyOf bp file) (keyOf bp file) = true :=
    (keysMatch_iff (keyOf_stable file) (keyOf_stable file)).mpr rfl
  have hhits : hits (keyOf bp file) pid ⟨.rdlck, 20, 10⟩ s.posix =
      [⟨keyOf bp file, pid, ⟨.wrlck, 10, 30⟩⟩] := by
    refine perm_singleton.mp ((hp.filter _).trans ?_)
    rw [filter_cons_of_pos (by simp [hit, hkey, rangesOverlap, recordLockEnd, lockOpenEnd]),
      filter_eq_nil_iff.mpr fun e he => by simp [hit, hother e he]]
  have hroom : ¬ Room (keyOf bp file) pid ⟨.rdlck, 20, 10⟩ 1 s.posix := by
    rw [Room, hhits, hfull]
    simp [recordLockEnd]
  rcases applyPosix_cases s (keyOf bp file) pid ⟨.rdlck, 20, 10⟩ with
    ⟨-, hconf, -⟩ | ⟨-, w, -, heq⟩
  · rcases hconf with ⟨d, hd, hk, hne, -⟩ | ⟨d, hd, -⟩
    · rcases mem_cons.mp (hp.mem_iff.mp hd) with rfl | hd
      · exact absurd rfl hne
      · simp [hother d hd] at hk
    · rw [hofd] at hd
      cases hd
  · rw [setLock_full (by decide) hroom] at heq
    rw [call, heq]
    have hold : s.held (keyOf bp file).file (.process pid) 25 = .wrlck :=
      hs.posix.heldIn_eq (hp.mem_iff.mpr (mem_cons_self ..))
        ⟨rfl, rfl, (by decide : Flock.Covers ⟨.wrlck, 10, 30⟩ 25)⟩
    have hle := heldIn_replace_le pid ⟨.rdlck, 20, 10⟩ hs.posix (keyOf_stable file)
      (keyOf bp file).file pid 25
    have hnew := hle.resolve_right fun h =>
      h.1 ⟨rfl, rfl, (by decide : Flock.Covers ⟨.rdlck, 20, 10⟩ 25)⟩
    refine ⟨rfl, hold, hnew, fun hex => ?_⟩
    have hsame := congrArg (held · (keyOf bp file).file (.process pid) 25)
      (hex.of_error (by simp))
    exact absurd (hold.symm.trans (hsame.symm.trans hnew)) (by decide)

/-- Every file but the last has a read lock, and the last slot is a write
lock. -/
def lastSlot : Locks :=
  run (fun _ => "") (fill 255 ++ [.posix 255 1 ⟨.wrlck, 10, 30⟩])

/-- Its owner asks for a read lock in the middle: the call fails, and the write
lock is gone. -/
theorem lock_lost :
    (lastSlot.call (fun _ => "") (.posix 255 1 ⟨.rdlck, 20, 10⟩)).2 = .enfile ∧
      lastSlot.held (keyOf (fun _ => "") 255).file (.process 1) 25 = .wrlck ∧
      (lastSlot.call (fun _ => "") (.posix 255 1 ⟨.rdlck, 20, 10⟩)).1.held
        (keyOf (fun _ => "") 255).file (.process 1) 25 = .unlck ∧
      ¬ Exact (fun _ => "") lastSlot (.posix 255 1 ⟨.rdlck, 20, 10⟩)
        (lastSlot.call (fun _ => "") (.posix 255 1 ⟨.rdlck, 20, 10⟩)) := by
  obtain ⟨hid, hfree, hofd⟩ := fill_spec (k := 255) (by decide)
  have hother : ∀ e ∈ used (run (fun _ => "") (fill 255)).posix,
      keysMatch e.key (keyOf (fun _ => "") 255) = false :=
    fun e he => keysMatch_noPath (Nat.ne_of_lt (hid e he))
  rw [maxRecordLocks] at hfree
  obtain ⟨hp, hfree', hofd'⟩ := call_fresh 255 1 ⟨.wrlck, 10, 30⟩ (by decide) hother hofd
    (by omega)
  rw [← run_concat, ← lastSlot] at hp hfree' hofd'
  rw [← hfree'] at hfree
  exact lost_of_full (run_inv _) hp hother (by rw [hofd', hofd])
    (Nat.add_right_cancel (Nat.add_right_cancel hfree))

end Full

end F7ly.Fs.RecordLock
