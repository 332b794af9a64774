import F7ly.Proc.Sigsuspend
import F7ly.Proofs.LocalStream
import F7ly.Proofs.RecordWait

/-!
# Loops that try again

`F_SETLKW`, `F_OFD_SETLKW`, `rt_sigtimedwait` and a blocking `send` go round until what
they wait for has come. The others change the state at will between two rounds, but not
what is the caller's own. None of the loops looks at `_killed` or at the signals that it
does not wait for: `yield`, `sleep` and `sleep_n_ticks` come back, and the next round is
made. So a call returns exactly if a later round finds one of the loop's own exits.
-/

namespace F7ly

/-- The states in which a task makes its rounds: what is its own is as the last round
left it. -/
def Rounds {σ τ : Type} (own : σ → τ) (round : σ → σ) (found : Nat → σ) : Prop :=
  ∀ i, own (found (i + 1)) = own (round (found i))

/-- A task that goes on after a round without an exit, and is done after one with an exit,
is done exactly if a round finds an exit. -/
theorem Rounds.done_iff {σ τ : Type} {own : σ → τ} {round : σ → σ} {found : Nat → σ}
    (h : Rounds own round found) (live done : τ → Prop) (exits : σ → Prop)
    (hnot : ∀ o, live o → ¬ done o) (hgo : ∀ s, live (own s) → ¬ exits s → live (own (round s)))
    (hexit : ∀ s, exits s → done (own (round s))) {k : Nat} (hk : live (own (found k))) :
    (∃ i, k ≤ i ∧ done (own (found i))) ↔ ∃ i, k ≤ i ∧ exits (found i) := by
  constructor
  · intro ⟨i, hki, hdone⟩
    by_contra hnone
    have hlive : live (own (found i)) := by
      clear hdone
      induction i, hki using Nat.le_induction with
      | base => exact hk
      | succ i hki ih =>
          rw [h i]
          exact hgo _ ih fun he => hnone ⟨i, hki, he⟩
    exact hnot _ hlive hdone
  · intro ⟨i, hki, he⟩
    refine ⟨i + 1, Nat.le_succ_of_le hki, ?_⟩
    rw [h i]
    exact hexit _ he

theorem Rounds.iterate {σ τ : Type} (own : σ → τ) (round : σ → σ) (s : σ) :
    Rounds own round (round^[·] s) :=
  fun i => congrArg own (Function.iterate_succ_apply' round i s)

namespace Fs.RecordLock

/-- The ways out of `F_SETLKW`: nothing is in the way, or the wait would close a cycle,
or it cannot be noted. -/
def Pending.Exits (bp : Nat → String) (l : Locks) (pid : Nat) (p : Pending) : Prop :=
  match p.pc with
  | .apply => ¬ (p.lock.type ≠ .unlck ∧
      Conflicted l (keyOf bp p.file) (.process pid) p.lock)
  | .note c => Locks.waitCycle l.waiters pid maxRecordLocks c = true ∨
      Locks.replaceWait ⟨keyOf bp p.file, pid, c, p.lock⟩ l.waiters = none ∧
        Slots.insert l.waiters ⟨keyOf bp p.file, pid, c, p.lock⟩ = none

theorem setLock_ne_eagain (key : FileKey) (owner : Nat) (lock : Flock) (t : Table Nat)
    (c : Nat) : (setLock key owner lock t).2 ≠ .eagain c := by
  unfold setLock
  split
  · exact nofun
  · dsimp only
    split <;> exact nofun

theorem note_ok_iff (l : Locks) (key : FileKey) (pid : Nat) (lock : Flock) (c : Nat) :
    (l.notePosixRecordLockWait key pid lock c).2 = .ok ↔
      ¬ (Locks.waitCycle l.waiters pid maxRecordLocks c = true ∨
        Locks.replaceWait ⟨key, pid, c, lock⟩ l.waiters = none ∧
          Slots.insert l.waiters ⟨key, pid, c, lock⟩ = none) := by
  rw [Locks.notePosixRecordLockWait]
  split
  · next hcyc => simp [hcyc]
  next hcyc =>
  cases hr : Locks.replaceWait ⟨key, pid, c, lock⟩ l.waiters with
  | some ws => simp [hcyc, hr]
  | none => cases hi : Slots.insert l.waiters ⟨key, pid, c, lock⟩ <;> simp [hcyc, hr, hi]

theorem stepPending_exits {bp : Nat → String} {s : System} {pid : Nat} (p : Pending) :
    ((s.stepPending bp pid p).pending pid = none ↔ p.Exits bp s.locks pid) := by
  have hgo : ∀ l q, (s.goOn pid l q).pending pid ≠ none := fun l q => by
    rw [goOn_pending_self]
    exact Option.some_ne_none q
  have hend : ∀ l r, (s.finish pid l r).pending pid = none := fun _ _ => Function.update_self ..
  cases hpc : p.pc with
  | apply =>
      rw [Pending.Exits, hpc]
      rcases stepPending_apply bp s pid hpc with ⟨c, hc, heq⟩ | ⟨hno, heq⟩ <;> rw [heq]
      · refine iff_of_false (hgo _ _) fun hfree => ?_
        rcases applyPosix_cases s.locks (keyOf bp p.file) pid p.lock with
          ⟨htype, hin, -⟩ | ⟨-, w, -, hset⟩
        · exact hfree ⟨htype, hin⟩
        · rw [hset] at hc
          exact setLock_ne_eagain _ _ _ _ c hc
      · refine iff_of_true (hend ..) fun ⟨htype, hin⟩ => ?_
        rcases applyPosix_cases s.locks (keyOf bp p.file) pid p.lock with
          ⟨-, -, c, hagain⟩ | ⟨hfree, -⟩
        · exact hno c (by rw [hagain])
        · exact hfree ⟨htype, hin⟩
  | note c =>
      have hnote := note_ok_iff s.locks (keyOf bp p.file) pid p.lock c
      unfold Pending.Exits System.stepPending
      rw [hpc]
      dsimp only
      generalize s.locks.notePosixRecordLockWait (keyOf bp p.file) pid p.lock c = q at hnote ⊢
      obtain ⟨l, r⟩ := q
      cases r with
      | ok => exact iff_of_false (hgo _ _) (hnote.mp rfl)
      | eagain | enfile | edeadlk =>
          exact iff_of_true (hend ..) (not_not.mp fun hno => nomatch hnote.mpr hno)

theorem applyOfd_exits (l : Locks) (key : FileKey) (lock : Flock) :
    (∀ c, (l.applyOfdRecordLock key lock).2 ≠ .eagain c) ↔
      ¬ (lock.type ≠ .unlck ∧ Conflicted l key (.description key.identity) lock) := by
  rcases applyOfd_cases l key lock with ⟨htype, hin, heq⟩ | ⟨hfree, heq⟩ <;> rw [heq]
  · exact iff_of_false (fun h => h 0 rfl) fun h => h ⟨htype, hin⟩
  · exact iff_of_true (setLock_ne_eagain _ _ _ _) hfree

end Fs.RecordLock

namespace Proc.Signal

theorem find_pending_none {set : SigSet} :
    (List.range' 1 64).find? (sigIsMember set) = none ↔ set = 0 := by
  rw [List.find?_eq_none]
  constructor
  · intro h
    refine BitVec.eq_of_getLsbD_eq fun i hi => ?_
    have := h (i + 1) (List.mem_range'_1.mpr ⟨by omega, by omega⟩)
    simpa [sigIsMember] using this
  · intro h sig _
    simp [h, sigIsMember]

theorem Sigtimedwait.round_exits (c : Sigtimedwait) {t : Task} (nowNs : Option Int)
    (h : t.signal &&& c.waitSet = 0) :
    c.round t nowNs ≠ .ok (none, t) ↔
      ∃ d, c.deadlineNs = some d ∧ ∀ now, nowNs = some now → d ≤ now := by
  have htake : t.takePendingSignal c.waitSet = .ok (none, t) := by
    rw [Task.takePendingSignal, find_pending_none.mpr h]
  rw [Sigtimedwait.round, htake]
  cases hd : c.deadlineNs with
  | none => simp [bind, Except.bind, pure, Except.pure]
  | some d =>
      cases nowNs with
      | none => simp [bind, Except.bind, pure, Except.pure]
      | some now => simp [bind, Except.bind, pure, Except.pure]

end Proc.Signal

namespace Fs.LocalStream

open Shuffle

variable {β : Type} {w : Stream β} {k : Nat}

/-- A blocking call in the loop of `enqueue_stream_data_to_peer`. -/
def Queues (o : Option (Send β)) : Prop :=
  ∃ c pending queued, o = some c ∧ c.nonblocking = false ∧ c.stage = .enqueue pending queued

/-- The other end does not receive, or has room for all that is left. -/
def Stream.Exits (w : Stream β) (k : Nat) : Prop :=
  ∃ c pending queued, w.sends[k]? = some c ∧ c.stage = .enqueue pending queued ∧
    (w.receiveOpen = false ∨ w.recvBuffer.length < recvBufferMaxBytes ∧
      (pending ++ tag k c.data).length - queued ≤ recvBufferMaxBytes - w.recvBuffer.length)

theorem step_enqueue {c : Send β} {pending : List (Item β)} {queued : Nat}
    (hk : w.sends[k]? = some c) (hstage : c.stage = .enqueue pending queued) :
    w.step (.runSend k) = w.enqueue k c pending queued := by
  simp [Stream.step, hk, Stream.runSend, hstage]

theorem sends_setStage {c : Send β} (hk : w.sends[k]? = some c) (b : List (Item β))
    (st : Stage β) : ({ w with recvBuffer := b }.setStage k st).sends[k]? = some (c.at st) :=
  (getElem?_setStage hk k).trans (if_pos rfl)

theorem Stream.Exits.returned (h : w.Exits k) :
    ∃ c, (w.step (.runSend k)).sends[k]? = some c ∧ c.isReturned = true := by
  obtain ⟨c, pending, queued, hk, hstage, h⟩ := h
  rw [step_enqueue hk hstage]
  unfold Stream.enqueue
  have hfull : ¬ (w.recvBuffer.length ≥ recvBufferMaxBytes ∧ w.receiveOpen = true) := by
    intro ⟨hge, hopen⟩
    rw [hopen] at h
    exact absurd (h.resolve_left nofun).1 (Nat.not_lt.mpr hge)
  rw [if_neg hfull]
  split
  · exact ⟨_, sends_setStage hk _ _, rfl⟩
  next hopen =>
  have hfits := (h.resolve_left (by simpa using hopen)).2
  rw [if_pos (.inr (by omega))]
  exact ⟨_, sends_setStage hk _ _, rfl⟩

theorem Queues.next (h : Queues w.sends[k]?) (hno : ¬ w.Exits k) :
    Queues (w.step (.runSend k)).sends[k]? := by
  obtain ⟨c, pending, queued, hk, hblock, hstage⟩ := h
  have hopen : w.receiveOpen = true :=
    eq_true_of_ne_false fun hshut => hno ⟨c, pending, queued, hk, hstage, .inl hshut⟩
  rw [step_enqueue hk hstage]
  unfold Stream.enqueue
  simp only [hblock, hopen, Bool.false_eq_true, false_or]
  split
  · exact ⟨c, pending, queued, hk, hblock, hstage⟩
  next hroom =>
  have hroom : w.recvBuffer.length < recvBufferMaxBytes := by simpa using hroom
  rw [if_neg (by simp), if_neg fun hlast => hno ⟨c, pending, queued, hk, hstage,
    .inr ⟨hroom, by omega⟩⟩]
  exact ⟨_, pending, _, sends_setStage hk _ _, hblock, rfl⟩

end Fs.LocalStream

open Fs.RecordLock (Locks Flock FileKey Conflicted)
open Fs.LocalStream (Stream Queues)
open Proc.Signal

/-- Whatever `_killed` and the signals of the caller are: from any round on, `F_SETLKW`
returns exactly if it finds a way out of its own in some round, `F_OFD_SETLKW` if nothing
is in its way then, `rt_sigtimedwait` without a signal of its set if its deadline is
reached or the clock cannot be read, and a blocking `send` if the other end does not
receive any more or has room for all that is left. -/
theorem retry_returns_iff (bp : Nat → String) (pid : Nat) (systems : Nat → Fs.RecordLock.System)
    (key : FileKey) (lock : Flock) (tables : Nat → Locks) (c : Sigtimedwait)
    (tasks : Nat → Task × Option Int) {β : Type} (j : Nat) (streams : Nat → Stream β) (k : Nat) :
    (Rounds (·.pending pid) (fun s => (s.step bp (.step pid)).getD s) systems →
      (systems k).pending pid ≠ none → ((∃ i, k ≤ i ∧ (systems i).pending pid = none) ↔
        ∃ i, k ≤ i ∧ ∃ p, (systems i).pending pid = some p ∧ p.Exits bp (systems i).locks pid)) ∧
    ((∃ i, k ≤ i ∧ ∀ c, ((tables i).applyOfdRecordLock key lock).2 ≠ .eagain c) ↔
      ∃ i, k ≤ i ∧ ¬ (lock.type ≠ .unlck ∧
        Conflicted (tables i) key (.description key.identity) lock)) ∧
    ((∀ i, (tasks i).1.signal &&& c.waitSet = 0) →
      ((∃ i, k ≤ i ∧ c.round (tasks i).1 (tasks i).2 ≠ .ok (none, (tasks i).1)) ↔
        ∃ i, k ≤ i ∧ ∃ d, c.deadlineNs = some d ∧ ∀ now, (tasks i).2 = some now → d ≤ now)) ∧
    (Rounds (fun w => w.sends[j]?) (·.step (.runSend j)) streams → Queues (streams k).sends[j]? →
      ((∃ i, k ≤ i ∧ ∃ c, (streams i).sends[j]? = some c ∧ c.isReturned = true) ↔
        ∃ i, k ≤ i ∧ (streams i).Exits j)) := by
  refine ⟨fun hrounds hk => ?_, ?_, fun hnone => ?_, fun hrounds hk => ?_⟩
  · refine hrounds.done_iff (· ≠ none) (· = none)
      (fun s => ∃ p, s.pending pid = some p ∧ p.Exits bp s.locks pid) (fun _ hne => hne)
      (fun s hs hno => ?_) (fun s he => ?_) hk
    · obtain ⟨p, hp⟩ := Option.ne_none_iff_exists'.mp hs
      simp only [Fs.RecordLock.System.step, hp]
      exact fun hend => hno ⟨p, hp, (Fs.RecordLock.stepPending_exits p).mp hend⟩
    · obtain ⟨p, hp, he⟩ := he
      simp only [Fs.RecordLock.System.step, hp]
      exact (Fs.RecordLock.stepPending_exits p).mpr he
  · exact exists_congr fun i => and_congr_right fun _ =>
      Fs.RecordLock.applyOfd_exits (tables i) key lock
  · exact exists_congr fun i => and_congr_right fun _ => c.round_exits _ (hnone i)
  · refine hrounds.done_iff Queues (fun o => ∃ c, o = some c ∧ c.isReturned = true)
      (·.Exits j) (fun o hq hret => ?_)
      (fun w hw hno => hw.next hno) (fun w he => he.returned) hk
    obtain ⟨c, _, _, ho, _, hstage⟩ := hq
    obtain ⟨c', ho', hdone⟩ := hret
    obtain rfl := Option.some.inj (ho.symm.trans ho')
    rw [Fs.LocalStream.Send.isReturned, hstage] at hdone
    cases hdone

/-- The states in which process 1 makes the rounds of an `F_SETLKW`, alone. -/
def lockRounds : Nat → Fs.RecordLock.System :=
  ((fun s => (Fs.RecordLock.System.step (fun _ => "") s (.step 1)).getD s)^[·]
    { Fs.RecordLock.System.boot with pending := fun _ => some ⟨0, ⟨.wrlck, 0, 10⟩, .apply⟩ })

/-- Those of a blocking `send` of one byte. -/
def sendRounds : Nat → Stream Nat :=
  ((·.step (.runSend 0))^[·]
    { Stream.connected with sends := [⟨[7], false, false, .enqueue [] 0⟩] })

theorem retry_returns_iff_free : (∃ i, 0 ≤ i ∧ (lockRounds i).pending 1 = none) ∧
    (∃ i : Nat, 0 ≤ i ∧ Sigtimedwait.round ⟨sigBit sigUsr1, some 5, true⟩ .fresh (some i) ≠
      .ok (none, .fresh)) ∧
    ∃ i, 0 ≤ i ∧ ∃ c, (sendRounds i).sends[0]? = some c ∧ c.isReturned = true := by
  have h := retry_returns_iff (fun _ => "") 1 lockRounds ⟨"", 0⟩ ⟨.wrlck, 0, 10⟩ (fun _ => .empty)
    ⟨sigBit sigUsr1, some 5, true⟩ (fun i => (.fresh, some i)) 0 sendRounds 0
  refine ⟨(h.1 (.iterate _ _ _) nofun).mpr ⟨0, le_rfl, _, rfl, ?_⟩,
    (h.2.2.1 fun _ => BitVec.zero_and).mpr ⟨5, by decide, 5, rfl, ?_⟩,
    (h.2.2.2 (.iterate _ _ _) ⟨_, _, _, rfl, rfl, rfl⟩).mpr ⟨0, le_rfl, _, _, _, rfl, rfl, ?_⟩⟩
  · rintro ⟨-, ⟨e, he, -⟩ | ⟨e, he, -⟩⟩ <;>
      simp [lockRounds, Fs.RecordLock.System.boot, Locks.empty, Slots.used] at he
  · rintro _ ⟨⟩
    exact le_rfl
  · exact .inr (by decide)

/-- A task that was killed waits for another signal without a timeout: every round goes
on as it was. -/
theorem sigtimedwait_killed :
    ∃ t : Task, t.killed = true ∧ t.hasUnmaskedSignalPending = true ∧
      ∀ nowNs, Sigtimedwait.round ⟨sigBit sigUsr1, none, true⟩ t nowNs = .ok (none, t) :=
  ⟨{ Task.fresh with killed := true, signal := sigBit sigKill }, rfl, rfl, fun _ => rfl⟩

end F7ly
