import F7ly.Lib.Run
import F7ly.Proc.PipeWait
import F7ly.Proofs.PipeFifo

/-!
# Wakeups of a pipe

A task sleeps on the pipe for a reason: it reads and the pipe is empty with a
writer left, or it writes and the pipe is full with a reader left. The reason
can go away only under the pipe's lock, and while the lock is held the call
that took it away is there to be pointed at: it has moved bytes and has not
left yet. So the invariant is that every sleeper has its reason or the lock's
holder has bytes to announce.

It survives every exit that wakes the other end. The exits that do not are
listed in `CutShort`, and a call leaves through one of them with nothing said
about the bytes it moved. The runs considered are those where nobody is
registered at the other end then, or where the other end has its reason
again.
-/

namespace F7ly.Proc

open F7ly.Ring PipeSystem PipeWaitSystem PipeThread

variable {r : Bool} {i j : Nat} {pt' : Point} {sys : PipeSystem}

namespace Pipe

/-- Why a reader (`true`) or a writer has to wait, its peer being there. -/
def Stuck (p : Pipe) : Bool → Prop
  | true => p.count = 0
  | false => p.pipeSize ≤ p.count

/-- The end a reader (`true`) or a writer waits for. -/
def peerOpen (p : Pipe) : Bool → Bool
  | true => p.writeIsOpen
  | false => p.readIsOpen

theorem Stuck.congr {p q : Pipe} (hsize : q.pipeSize = p.pipeSize)
    (hcount : q.count = p.count) (h : p.Stuck r) : q.Stuck r := by
  cases r
  · show q.pipeSize ≤ q.count
    rw [hsize, hcount]
    exact h
  · exact hcount.trans h

end Pipe

/-- The record counts the tasks inside `sleep`, and a task it names is the
only one. -/
def PipeWaiters.Registers (q : PipeWaiters) (waits : Nat → Bool) : Prop :=
  ∃ l : List Nat, l.Nodup ∧ (∀ j, j ∈ l ↔ waits j = true) ∧
    q.waiterCount = l.length ∧ ∀ w, q.waiter = some w → l = [w]

namespace PipeWaiters

variable {q : PipeWaiters} {waits waits' : Nat → Bool} {tid : Nat}

theorem Registers.congr (h : q.Registers waits)
    (hsame : ∀ j, waits' j = waits j) : q.Registers waits' := by
  have heq : waits' = waits := funext hsame
  rwa [heq]

theorem Registers.noteWaiter (h : q.Registers waits)
    (hnew : waits tid = false) (htid : waits' tid = true)
    (hrest : ∀ j, j ≠ tid → waits' j = waits j) : (q.noteWaiter tid).Registers waits' := by
  obtain ⟨l, hnodup, hmem, hcount, hone⟩ := h
  have hnotin : tid ∉ l := fun hin => by simp [(hmem tid).mp hin] at hnew
  refine ⟨tid :: l, List.nodup_cons.mpr ⟨hnotin, hnodup⟩, fun j => ?_, ?_, ?_⟩
  · by_cases hj : j = tid
    · simp [hj, htid]
    · simp [hj, hrest j hj, hmem j]
  · simp [PipeWaiters.noteWaiter, hcount]
  · intro w hw
    simp only [PipeWaiters.noteWaiter] at hw
    split at hw
    · next hzero =>
      have hnil : l = [] := List.length_eq_zero_iff.mp (by omega)
      simp_all
    split at hw
    · cases hw
    next hsame =>
    have hsame : q.waiter = some tid := by simpa using hsame
    have hl := hone tid hsame
    exact absurd (by rw [hl]; exact List.mem_singleton_self _) hnotin

theorem Registers.forgetWaiter (h : q.Registers waits)
    (hold : waits tid = true) (htid : waits' tid = false)
    (hrest : ∀ j, j ≠ tid → waits' j = waits j) : (q.forgetWaiter tid).Registers waits' := by
  obtain ⟨l, hnodup, hmem, hcount, hone⟩ := h
  have hin : tid ∈ l := (hmem tid).mpr hold
  have hpos : 0 < l.length := List.length_pos_of_mem hin
  have hlen := List.length_erase_of_mem hin
  have hnz : q.waiterCount ≠ 0 := by omega
  refine ⟨l.erase tid, hnodup.erase tid, fun j => ?_, ?_, ?_⟩
  · rw [hnodup.mem_erase_iff]
    by_cases hj : j = tid
    · simp [hj, htid]
    · simp [hj, hrest j hj, hmem j]
  · rw [PipeWaiters.forgetWaiter, if_neg hnz]
    show q.waiterCount - 1 = _
    omega
  · intro w hw
    rw [PipeWaiters.forgetWaiter, if_neg hnz] at hw
    split at hw
    · cases hw
    next hkeep =>
    have hl := hone w hw
    rw [hl] at hcount
    exact absurd (Or.inl (by rw [hcount]; rfl)) hkeep

/-- Every task inside `sleep` is addressed, if it is still asleep. -/
theorem Registers.addressed (h : q.Registers waits) {sleepers : Nat → Bool}
    (hw : waits tid = true) (hs : sleepers tid = true) : q.addressed sleepers tid = true := by
  obtain ⟨l, _, hmem, hcount, hone⟩ := h
  have hin : tid ∈ l := (hmem tid).mpr hw
  have hpos : 0 < l.length := List.length_pos_of_mem hin
  rw [PipeWaiters.addressed, if_neg (by omega)]
  split
  · next w hwaiter =>
    have hl := hone w hwaiter
    rw [hl] at hin hcount
    rw [if_pos (show q.waiterCount = 1 from hcount), ← List.mem_singleton.mp hin]
    simp [hs]
  · exact hs

end PipeWaiters

/-- A round that leaves the lock with bytes moved and says nothing: the call
gives up, or goes to have the user range of its next copy checked. -/
def PipeThread.CutShort (t : PipeThread) (out : Outside) (p : Pipe) :
    Point → Prop
  | .wait => False
  | .loop i =>
      0 < i ∧ (i : Int) < t.n ∧
        if t.call.isWrite then
          p.readIsOpen = false ∨ out.killed = true ∨ (p.pipeSize ≤ p.count ∧
              (t.call ≠ .write ∧ out.signalPending = true ∨ t.nonblock = true)) ∨
            (p.count < p.pipeSize ∧ t.call = .writeFromUser)
        else t.call = .readToUser ∧ 0 < p.count
  | .copy i =>
      0 < i ∧ out.copyOk = false ∧
        if t.call.isWrite then
          p.readIsOpen = true ∧ out.killed = false ∧ p.count < p.pipeSize
        else 0 < p.count

/-- Nobody is registered at the other end when the call is cut short, or the
other end has to wait again. -/
def PipeThread.Announces (t : PipeThread) (out : Outside) (p : Pipe)
    (waiters : Bool → PipeWaiters) : Pc → Prop
  | .held pt => t.CutShort out p pt →
      (waiters t.call.isWrite).waiterCount = 0 ∨ p.Stuck t.call.isWrite
  | _ => True

instance (p : Pipe) : (r : Bool) → Decidable (p.Stuck r)
  | true => inferInstanceAs (Decidable (p.count = 0))
  | false => inferInstanceAs (Decidable (p.pipeSize ≤ p.count))

instance (t : PipeThread) (out : Outside) (p : Pipe) :
    (pt : Point) → Decidable (t.CutShort out p pt)
  | .wait => inferInstanceAs (Decidable False)
  | .loop _ => by dsimp only [PipeThread.CutShort]; infer_instance
  | .copy _ => by dsimp only [PipeThread.CutShort]; infer_instance

instance (t : PipeThread) (out : Outside) (p : Pipe) (waiters : Bool → PipeWaiters) :
    (pc : Pc) → Decidable (t.Announces out p waiters pc)
  | .held _ => inferInstanceAs (Decidable (_ → _))
  | .start | .asleep _ | .checking _ | .done _ =>
      inferInstanceAs (Decidable True)

/-- What the tasks that wait can tell from a round. -/
structure Moves (t : PipeThread) (p : Pipe) (pt : Point)
    (res : Pipe × List UInt8 × Pc) : Prop where
  size : res.1.pipeSize = p.pipeSize
  peers : ∀ r, res.1.peerOpen r = p.peerOpen r
  own : p.Stuck (!t.call.isWrite) → res.1.Stuck (!t.call.isWrite)
  other : res.1.count = p.count ∨ ∃ pt', res.2.2 = .held pt' ∧ 0 < pt'.moved
  onward : ∀ pt', res.2.2 = .held pt' → pt.moved ≤ pt'.moved
  sleeps : ∀ pt', res.2.2 = .asleep pt' →
    res.1.Stuck (!t.call.isWrite) ∧ res.1.peerOpen (!t.call.isWrite) = true

namespace Moves

variable {t : PipeThread} {p : Pipe} {pt : Point}

theorem idle {pc : Pc} (hheld : ∀ pt', pc = .held pt' → pt.moved ≤ pt'.moved)
    (hasleep : ∀ pt', pc = .asleep pt' →
      p.Stuck (!t.call.isWrite) ∧ p.peerOpen (!t.call.isWrite) = true) : Moves t p pt (p, [], pc) :=
  ⟨rfl, fun _ => rfl, id, .inl rfl, hheld, hasleep⟩

theorem stop {ret : Int} : Moves t p pt (p, [], .done ret) :=
  idle (fun _ h => nomatch h) (fun _ h => nomatch h)

theorem check : Moves t p pt (p, [], .checking i) :=
  idle (fun _ h => nomatch h) (fun _ h => nomatch h)

theorem again (h : pt.moved ≤ pt'.moved) : Moves t p pt (p, [], .held pt') :=
  idle (fun _ he => by cases he; exact h) (fun _ he => nomatch he)

theorem wait (hs : p.Stuck (!t.call.isWrite)) (ho : p.peerOpen (!t.call.isWrite) = true) :
    Moves t p pt (p, [], .asleep pt') :=
  idle (fun _ h => nomatch h) fun _ _ => ⟨hs, ho⟩

/-- A round that moves `chunk` bytes and goes on. -/
theorem bulk {q : Pipe} {bytes : List UInt8} {chunk : Nat}
    (hi : pt.moved = i) (hsize : q.pipeSize = p.pipeSize)
    (hpeers : ∀ r, q.peerOpen r = p.peerOpen r)
    (hown : p.Stuck (!t.call.isWrite) → q.Stuck (!t.call.isWrite))
    (hsame : chunk = 0 → q.count = p.count) :
    Moves t p pt (q, bytes, .held (.loop (i + chunk))) := by
  refine ⟨hsize, hpeers, hown, ?_, ?_, fun _ h => nomatch h⟩
  · by_cases hz : chunk = 0
    · exact .inl (hsame hz)
    · exact .inr ⟨_, rfl, show 0 < i + chunk by omega⟩
  · intro pt' he
    cases he
    exact hi.le.trans (Nat.le_add_right _ _)

theorem written (hw : t.call.isWrite = true) {chunk : Nat} (hi : pt.moved = i) (src : Nat → UInt8) :
    Moves t p pt (p.writeBulk chunk src, cells src chunk, .held (.loop (i + chunk))) := by
  refine bulk hi rfl (fun r => by cases r <;> rfl) ?_ fun hz => ?_
  · rw [hw]
    exact fun h => Nat.le_add_right_of_le h
  · show p.count + chunk = p.count
    omega

theorem handed (hr : t.call.isWrite = false) {chunk : Nat}
    (hi : pt.moved = i) (bytes : List UInt8) :
    Moves t p pt (p.readBulk chunk, bytes, .held (.loop (i + chunk))) := by
  refine bulk hi rfl (fun r => by cases r <;> rfl) ?_ fun hz => ?_
  · rw [hr]
    intro h
    show p.count - chunk = 0
    rw [show p.count = 0 from h, Nat.zero_sub]
  · show p.count - chunk = p.count
    omega

theorem pushed (hw : t.call.isWrite = true) (hi : pt.moved = i)
    (hroom : p.count < p.pipeSize) (byte : UInt8) (bytes : List UInt8) :
    Moves t p pt (p.push byte, bytes, .held (.loop (i + 1))) := by
  have hpush : p.push byte =
      { p with buffer := blit p.buffer p.tail 1 fun _ => byte,
               tail := (p.tail + 1) % p.pipeSize, count := p.count + 1 } :=
    if_neg (by omega)
  rw [hpush]
  refine bulk hi rfl (fun r => by cases r <;> rfl) ?_ (fun h => by omega)
  rw [hw]
  exact fun h => Nat.le_succ_of_le h

end Moves

theorem writeRound_moves {t : PipeThread} (hw : t.call.isWrite = true)
    (out : Outside) (p : Pipe) (pt : Point) :
    Moves t p pt (writeRound t.call t.n t.nonblock out p pt) := by
  cases pt with
  | wait => exact .again (Nat.zero_le _)
  | loop i =>
      simp only [writeRound]
      split
      · exact .stop
      split
      · exact .stop
      next hopen =>
      split
      · next hfull =>
        split
        · exact .stop
        split
        · exact .stop
        · refine .wait ?_ ?_
          · rw [hw]
            exact hfull
          · rw [hw]
            show p.readIsOpen = true
            simp_all
      next hroom =>
      cases hc : t.call with
      | write =>
          dsimp only
          split
          · exact .pushed hw rfl (by omega) _ _
          · exact .stop
      | writeInKernel => exact .written hw rfl _
      | writeFromUser | read | readToUser => exact .check
  | copy i =>
      simp only [writeRound]
      split
      · exact .again (Nat.le_refl _)
      split
      · exact .written hw rfl _
      · exact .stop

theorem readWait_moves {t : PipeThread} (hr : t.call.isWrite = false)
    (out : Outside) {p : Pipe} (pt pt' : Point) (hempty : p.count = 0)
    (hopen : p.writeIsOpen = true) : Moves t p pt (readWait t.nonblock out p pt') := by
  rw [readWait]
  split
  · exact .stop
  split
  · exact .stop
  split
  · exact .stop
  · refine .wait ?_ ?_
    · rw [hr]
      exact hempty
    · rw [hr]
      exact hopen

theorem readRound_moves {t : PipeThread} (hr : t.call.isWrite = false)
    (out : Outside) (p : Pipe) (pt : Point) :
    Moves t p pt (readRound t.call t.n t.nonblock out p pt) := by
  cases pt with
  | wait =>
      simp only [readRound]
      split
      · next h => exact readWait_moves hr out _ _ h.1 h.2
      · exact .again (Nat.zero_le _)
  | loop i =>
      cases hc : t.call with
      | read =>
          simp only [readRound]
          split
          · exact .handed hr rfl _
          · exact .stop
      | readToUser | write | writeInKernel | writeFromUser =>
          simp only [readRound]
          split
          · exact .stop
          split
          · next h => exact readWait_moves hr out _ _ h.1 h.2.1
          split
          · exact .stop
          · exact .check
  | copy i =>
      simp only [readRound]
      split
      · exact .again (Nat.le_refl _)
      split
      · exact .handed hr rfl _
      · exact .stop

theorem PipeThread.round_moves (t : PipeThread) (out : Outside) (p : Pipe)
    (pt : Point) : Moves t p pt (t.round out p pt) := by
  rw [round]
  split
  · next hw => exact writeRound_moves hw out p pt
  · next hr => exact readRound_moves (by simpa using hr) out p pt

theorem writeRound_cutShort {t : PipeThread} (hw : t.call.isWrite = true)
    {out : Outside} {p : Pipe} {pt : Point} (hmoved : 0 < pt.moved)
    (hquiet : writeWakes t.call t.n t.nonblock out p pt = false) (hleaves : ∀ pt',
      (writeRound t.call t.n t.nonblock out p pt).2.2 ≠ .held pt') : t.CutShort out p pt := by
  cases pt with
  | wait => exact absurd hmoved (Nat.lt_irrefl 0)
  | loop i =>
      have hn : (i : Int) < t.n := by
        by_contra hn
        simp [writeWakes, hn] at hquiet
      refine ⟨hmoved, hn, ?_⟩
      rw [if_pos hw]
      simp only [writeWakes, hn, not_true_eq_false, if_false] at hquiet
      simp only [writeRound, hn, not_true_eq_false, if_false] at hleaves
      by_cases hopen : (!p.readIsOpen || out.killed) = true
      · simp only [Bool.or_eq_true, Bool.not_eq_true'] at hopen
        exact hopen.imp_right .inl
      rw [if_neg hopen] at hquiet hleaves
      refine .inr (.inr ?_)
      by_cases hfull : p.count ≥ p.pipeSize
      · refine .inl ⟨hfull, ?_⟩
        grind
      rw [if_neg hfull] at hquiet hleaves
      refine .inr ⟨by omega, ?_⟩
      cases hc : t.call with
      | write =>
          simp only [hc, Bool.not_eq_false'] at hquiet hleaves
          exact absurd (by rw [if_pos hquiet]) (hleaves (.loop (i + 1)))
      | writeInKernel =>
          rw [hc] at hleaves
          exact absurd rfl (hleaves _)
      | writeFromUser => rfl
      | read | readToUser => rw [hc] at hw; cases hw
  | copy i =>
      refine ⟨hmoved, ?_⟩
      simp only [writeRound] at hleaves
      split at hleaves
      · exact absurd rfl (hleaves _)
      next hopen =>
      split at hleaves
      · exact absurd rfl (hleaves _)
      next hcopy =>
      simp_all

theorem readRound_cutShort {t : PipeThread} (hr : t.call.isWrite = false)
    {out : Outside} {p : Pipe} {pt : Point} (hmoved : 0 < pt.moved)
    (hquiet : readWakes t.call t.n p pt = false) (hleaves : ∀ pt',
      (readRound t.call t.n t.nonblock out p pt).2.2 ≠ .held pt') : t.CutShort out p pt := by
  have hnw : ¬ t.call.isWrite = true := by simp [hr]
  cases pt with
  | wait => exact absurd hmoved (Nat.lt_irrefl 0)
  | loop i =>
      have hi : i ≠ 0 := Nat.ne_of_gt hmoved
      cases hc : t.call with
      | read =>
          simp only [readWakes, hc, Bool.not_eq_false', decide_eq_true_eq]
            at hquiet
          simp only [readRound, hc, if_pos hquiet] at hleaves
          exact absurd rfl (hleaves _)
      | readToUser =>
          simp only [readWakes, hc, hi, and_false] at hquiet
          have hn : (i : Int) < t.n := by
            by_contra hn
            simp [hn] at hquiet
          refine ⟨hmoved, hn, ?_⟩
          rw [if_neg hnw]
          simp only [hn, not_true_eq_false, if_false, decide_eq_false_iff_not]
            at hquiet
          exact ⟨hc, Nat.pos_of_ne_zero hquiet⟩
      | write | writeInKernel | writeFromUser => rw [hc] at hr; cases hr
  | copy i =>
      refine ⟨hmoved, ?_⟩
      rw [if_neg hnw]
      simp only [readRound] at hleaves
      split at hleaves
      · exact absurd rfl (hleaves _)
      next hcount =>
      split at hleaves
      · exact absurd rfl (hleaves _)
      next hcopy =>
      exact ⟨by simpa using hcopy, Nat.pos_of_ne_zero hcount⟩

/-- A round with bytes moved that neither goes on nor wakes is one of those
cut short. -/
theorem PipeThread.cutShort {t : PipeThread} {out : Outside} {p : Pipe}
    {pt : Point} (hmoved : 0 < pt.moved) (hquiet : t.wakes out p pt = false)
    (hleaves : ∀ pt', (t.round out p pt).2.2 ≠ .held pt') : t.CutShort out p pt := by
  rw [wakes] at hquiet
  rw [round] at hleaves
  split at hquiet
  · next hw =>
    rw [if_pos hw] at hleaves
    exact writeRound_cutShort hw hmoved hquiet hleaves
  · next hr =>
    rw [if_neg hr] at hleaves
    exact readRound_cutShort (by simpa using hr) hmoved hquiet hleaves

namespace PipeSystem

/-- The lock's holder has moved bytes that the tasks waiting for the other end
have not been told of. -/
def Owes (s : PipeSystem) (waitingForRead : Bool) : Prop :=
  ∃ tid t pt, s.lock = some tid ∧ s.threads tid = some t ∧ t.pc = .held pt ∧
    t.call.isWrite = waitingForRead ∧ 0 < pt.moved

theorem waitsOn_of_threads {s : PipeSystem} {tid : Nat} {t : PipeThread}
    (ht : s.threads tid = some t) (r : Bool) : s.waitsOn r tid = t.waitsOn r := by
  rw [waitsOn, ht]

theorem waitsOn_congr {s s' : PipeSystem} (h : s'.threads j = s.threads j) (r : Bool) :
    s'.waitsOn r j = s.waitsOn r j := by
  rw [waitsOn, waitsOn, h]

@[simp] theorem setThread_self (s : PipeSystem) (tid : Nat) (t : PipeThread) :
    (s.setThread tid t).threads tid = some t :=
  if_pos rfl

theorem setThread_of_ne (s : PipeSystem) {tid : Nat} (t : PipeThread)
    (hj : j ≠ tid) : (s.setThread tid t).threads j = s.threads j :=
  if_neg hj

theorem acquire_spec {s s' : PipeSystem} {tid : Nat} {t : PipeThread}
    {pt : Point} (h : s.acquire tid t pt = some s') :
    s.lock = none ∧ s'.pipe = s.pipe ∧ s'.threads tid = some { t with pc := .held pt } ∧
      ∀ j, j ≠ tid → s'.threads j = s.threads j := by
  rw [acquire] at h
  split at h
  · next hfree =>
    cases h
    exact ⟨hfree, rfl, setThread_self _ _ _, fun j hj => setThread_of_ne _ _ hj⟩
  · cases h

theorem round_lock (s : PipeSystem) (tid : Nat) (t : PipeThread) (pt : Point)
    (out : Outside) : (s.round tid t pt out).lock = match (t.round out s.pipe pt).2.2 with
      | .held _ => some tid
      | _ => none :=
  rfl

theorem round_self (s : PipeSystem) (tid : Nat) (t : PipeThread) (pt : Point)
    (out : Outside) : ∃ moved, (s.round tid t pt out).threads tid =
      some { t with pc := (t.round out s.pipe pt).2.2, moved } :=
  ⟨_, if_pos rfl⟩

theorem round_of_ne (s : PipeSystem) {tid : Nat} (t : PipeThread)
    (pt : Point) (out : Outside) (hj : j ≠ tid) : (s.round tid t pt out).threads j = s.threads j :=
  if_neg hj

theorem Owes.of_ne {s s' : PipeSystem} {tid : Nat} (h : s.Owes r) (hlock : s'.lock = s.lock)
    (hrest : ∀ j, j ≠ tid → s'.threads j = s.threads j)
    (htid : ∀ t pt, s.threads tid = some t → t.pc ≠ .held pt) : s'.Owes r := by
  obtain ⟨k, t, pt, hl, ht, hpc, hr, hm⟩ := h
  have hk : k ≠ tid := by
    intro he
    subst he
    exact htid t pt ht hpc
  exact ⟨k, t, pt, hlock.trans hl, (hrest k hk).trans ht, hpc, hr, hm⟩

end PipeSystem

namespace PipeWaitSystem

/-- No wakeup is lost: with the lock free, whoever sleeps has to, or a wakeup
is on its way. -/
def NoLostWakeup (s : PipeWaitSystem) : Prop :=
  s.sys.lock = none → ∀ r tid, s.asleepOn r tid = true →
    (s.sys.pipe.Stuck r ∧ s.sys.pipe.peerOpen r = true) ∨ s.issued r tid = true

/-- A round that is cut short finds nobody registered at the other end, or the
other end has to wait again. -/
def Announced (s : PipeWaitSystem) : PipeWaitEvent → Prop
  | .go tid out => ∀ t ∈ s.sys.threads tid,
      t.Announces out s.sys.pipe s.waiters t.pc
  | _ => True

instance (s : PipeWaitSystem) : (e : PipeWaitEvent) → Decidable (s.Announced e)
  | .go tid out => inferInstanceAs (Decidable (∀ t ∈ s.sys.threads tid,
      t.Announces out s.sys.pipe s.waiters t.pc))
  | .enter .. | .interrupt _ | .close _ => inferInstanceAs (Decidable True)

structure Inv (s : PipeWaitSystem) : Prop where
  registers : ∀ r, (s.waiters r).Registers (s.sys.waitsOn r)
  reason : ∀ r j, s.asleepOn r j = true →
    s.sys.pipe.peerOpen r = true ∧ (s.sys.pipe.Stuck r ∨ s.sys.Owes r)

theorem Inv.noLostWakeup {s : PipeWaitSystem} (hs : s.Inv) : s.NoLostWakeup := by
  intro hfree r j hj
  obtain ⟨hopen, hstuck | howes⟩ := hs.reason r j hj
  · exact .inl ⟨hstuck, hopen⟩
  · obtain ⟨k, t, pt, hlock, _⟩ := howes
    rw [hfree] at hlock
    cases hlock

theorem asleepOn_waitsOn {s : PipeWaitSystem}
    (h : s.asleepOn r j = true) : s.sys.waitsOn r j = true := by
  rw [asleepOn, Bool.and_eq_true] at h
  exact h.2

theorem asleepOn_wakeWaiters {s : PipeWaitSystem} {r' : Bool}
    (h : (s.wakeWaiters r').asleepOn r j = true) : s.asleepOn r j = true := by
  simp only [asleepOn, wakeWaiters, Bool.and_eq_true] at h ⊢
  exact ⟨h.1.1, h.2⟩

theorem not_asleepOn_wakeWaiters {s : PipeWaitSystem}
    (hreg : (s.waiters r).Registers (s.sys.waitsOn r)) (j : Nat) :
    (s.wakeWaiters r).asleepOn r j = false := by
  by_contra h
  have h : (s.wakeWaiters r).asleepOn r j = true := by simpa using h
  have hbefore := asleepOn_wakeWaiters h
  have hit := hreg.addressed (asleepOn_waitsOn hbefore) hbefore
  simp [asleepOn, wakeWaiters, hit] at h

theorem Inv.wakeWaiters {s : PipeWaitSystem} (hs : s.Inv) (r : Bool) : (s.wakeWaiters r).Inv :=
  ⟨hs.registers, fun r' j hj => hs.reason r' j (asleepOn_wakeWaiters hj)⟩

/-- A thread that neither was inside `sleep` nor gets there changes, and the
bytes still owed stay owed. -/
theorem Inv.lift {s : PipeWaitSystem} (hs : s.Inv) {tid : Nat} (hpipe : sys.pipe = s.sys.pipe)
    (hrest : ∀ j, j ≠ tid → sys.threads j = s.sys.threads j)
    (hbefore : ∀ r, s.sys.waitsOn r tid = false) (hafter : ∀ r, sys.waitsOn r tid = false)
    (howes : ∀ r, s.sys.Owes r → sys.Owes r) : ({ s with sys } : PipeWaitSystem).Inv := by
  have hsame : ∀ r j, sys.waitsOn r j = s.sys.waitsOn r j := by
    intro r j
    by_cases hj : j = tid
    · rw [hj, hbefore, hafter]
    · exact waitsOn_congr (hrest j hj) r
  refine ⟨fun r => (hs.registers r).congr (hsame r), fun r j hj => ?_⟩
  have hj' : s.asleepOn r j = true := by
    simpa only [asleepOn, hsame] using hj
  obtain ⟨hopen, hwhy⟩ := hs.reason r j hj'
  rw [hpipe]
  exact ⟨hopen, hwhy.imp_right (howes r)⟩

theorem Inv.enter {s s' : PipeWaitSystem} (hs : s.Inv) {tid : Nat}
    {call : PipeCall} {n : Int} {nonblock : Bool}
    (h : s.lift (.enter tid call n nonblock) = some s') : s'.Inv := by
  simp only [PipeWaitSystem.lift, PipeSystem.step] at h
  have hidle : ∀ t, s.sys.threads tid = some t → ∃ ret, t.pc = .done ret := by
    intro t ht
    rw [ht] at h
    obtain ⟨call', n', nonblock', pc, moved⟩ := t
    cases pc with
    | done ret => exact ⟨ret, rfl⟩
    | start | held | asleep | checking => cases h
  have hs' : s' =
      { s with sys := s.sys.setThread tid
                 { call, n, nonblock, pc := .start, moved := [] } } := by
    split at h
    · exact (Option.some.inj h).symm
    · exact (Option.some.inj h).symm
    · cases h
  rw [hs']
  refine hs.lift rfl (fun j hj => setThread_of_ne _ _ hj) ?_ ?_ ?_
  · intro r
    rw [PipeSystem.waitsOn]
    split
    · next t ht =>
      obtain ⟨ret, hpc⟩ := hidle t ht
      rw [PipeThread.waitsOn, hpc]
    · rfl
  · intro r
    rw [waitsOn_of_threads (setThread_self _ _ _)]
    rfl
  · intro r howes
    refine howes.of_ne rfl (fun j hj => setThread_of_ne _ _ hj) ?_
    intro t pt ht hpc
    obtain ⟨ret, hdone⟩ := hidle t ht
    rw [hdone] at hpc
    cases hpc

/-- A call takes the lock from a point where it was not inside `sleep`. -/
theorem Inv.acquire {s : PipeWaitSystem} (hs : s.Inv) {tid : Nat} {t : PipeThread} {pt : Point}
    (ht : s.sys.threads tid = some t) (hpc : ∀ r, t.waitsOn r = false)
    (h : s.sys.acquire tid t pt = some sys) : ({ s with sys } : PipeWaitSystem).Inv := by
  obtain ⟨hfree, hpipe, hself, hrest⟩ := acquire_spec h
  refine hs.lift hpipe hrest ?_ ?_ ?_
  · intro r
    rw [waitsOn_of_threads ht, hpc]
  · intro r
    rw [waitsOn_of_threads hself]
    rfl
  · rintro r ⟨k, _, _, hlock, _⟩
    rw [hfree] at hlock
    cases hlock

theorem Inv.checkFailed {s : PipeWaitSystem} (hs : s.Inv) {tid : Nat}
    {t : PipeThread} (ht : s.sys.threads tid = some t) (hpc : t.pc = .checking i) (ret : Int) :
    ({ s with sys := s.sys.setThread tid { t with pc := .done ret } } :
      PipeWaitSystem).Inv := by
  refine hs.lift rfl (fun j hj => setThread_of_ne _ _ hj) ?_ ?_ ?_
  · intro r
    rw [PipeSystem.waitsOn_of_threads ht, PipeThread.waitsOn, hpc]
  · intro r
    rw [waitsOn_of_threads (setThread_self _ _ _)]
    rfl
  · intro r howes
    refine howes.of_ne rfl (fun j hj => setThread_of_ne _ _ hj) ?_
    intro t' pt ht' hheld
    rw [ht] at ht'
    cases ht'
    rw [hpc] at hheld
    cases hheld

/-- A task that was made runnable comes back from `sleep`. -/
theorem Inv.resume {s : PipeWaitSystem} (hs : s.Inv) {tid : Nat} {t : PipeThread} {pt : Point}
    (ht : s.sys.threads tid = some t) (hpc : t.pc = .asleep pt')
    (h : s.sys.acquire tid t pt = some sys) :
    (setWaiters { s with sys } (!t.call.isWrite)
      ((s.waiters (!t.call.isWrite)).forgetWaiter tid)).Inv := by
  obtain ⟨hfree, hpipe, hself, hthreads⟩ := acquire_spec h
  have hbefore : ∀ r, s.sys.waitsOn r tid = (t.call.isWrite != r) := by
    intro r
    rw [PipeSystem.waitsOn_of_threads ht, PipeThread.waitsOn, hpc]
  have hafter : ∀ r, sys.waitsOn r tid = false := by
    intro r
    rw [waitsOn_of_threads hself]
    rfl
  have hrest : ∀ r j, j ≠ tid → sys.waitsOn r j = s.sys.waitsOn r j :=
    fun r j hj => waitsOn_congr (hthreads j hj) r
  refine ⟨fun r => ?_, fun r j hj => ?_⟩
  · by_cases hr : r = !t.call.isWrite
    · subst hr
      rw [setWaiters]
      simp only [if_pos]
      exact (hs.registers _).forgetWaiter (by rw [hbefore]; simp) (hafter _)
        (hrest _)
    · simp only [setWaiters, if_neg hr]
      refine (hs.registers r).congr fun j => ?_
      by_cases hj : j = tid
      · cases r <;> cases hw : t.call.isWrite <;> simp_all
      · exact hrest r j hj
  · have hne : j ≠ tid := by
      rintro rfl
      have hwaits : sys.waitsOn r j = true := asleepOn_waitsOn hj
      rw [hafter] at hwaits
      cases hwaits
    have hj' : s.asleepOn r j = true := by
      simpa only [asleepOn, setWaiters, hrest r j hne] using hj
    obtain ⟨hopen, hstuck | ⟨k, _, _, hlock, _⟩⟩ := hs.reason r j hj'
    · show sys.pipe.peerOpen r = true ∧ (sys.pipe.Stuck r ∨ _)
      rw [hpipe]
      exact ⟨hopen, .inl hstuck⟩
    · rw [hfree] at hlock
      cases hlock

section Round

variable {s : PipeWaitSystem} {tid : Nat} {t : PipeThread} {pt : Point}
  {out : Outside}

/-- Where the moved bytes leave a sleeper: it has its reason still, or the
call goes on with bytes to announce. The call's own side is never relieved;
the other side is told by the wakeup, or the call has nothing to tell, or the
round is cut short. -/
theorem Inv.reason_round (hs : s.Inv) (hlock : s.sys.lock = some tid)
    (ht : s.sys.threads tid = some t) (hpc : t.pc = .held pt) (hC : s.Announced (.go tid out))
    (hj : s.asleepOn r j = true) (hquiet : r = t.call.isWrite → t.wakes out s.sys.pipe pt = false) :
    (t.round out s.sys.pipe pt).1.peerOpen r = true ∧ ((t.round out s.sys.pipe pt).1.Stuck r ∨
        (s.sys.round tid t pt out).Owes r) := by
  have hm := t.round_moves out s.sys.pipe pt
  obtain ⟨hopen, hwhy⟩ := hs.reason r j hj
  refine ⟨(hm.peers r).trans hopen, ?_⟩
  -- The only holder there can be is this call.
  have hwhy : s.sys.pipe.Stuck r ∨ (r = t.call.isWrite ∧ 0 < pt.moved) := by
    refine hwhy.imp_right ?_
    rintro ⟨k, t', pt', hk, ht', hpc', hr, hmoved⟩
    rw [hlock] at hk
    cases hk
    rw [ht] at ht'
    cases ht'
    rw [hpc] at hpc'
    cases hpc'
    exact ⟨hr.symm, hmoved⟩
  by_cases hr : r = t.call.isWrite
  · by_cases hheld : ∃ pt', (t.round out s.sys.pipe pt).2.2 = .held pt'
    · obtain ⟨pt', hpc'⟩ := hheld
      have howes : 0 < pt'.moved → (s.sys.round tid t pt out).Owes r := by
        intro hmoved
        obtain ⟨moved, hself⟩ := s.sys.round_self tid t pt out
        exact ⟨tid, _, pt', by rw [round_lock, hpc'], hself, hpc', hr.symm, hmoved⟩
      rcases hwhy with hstuck | ⟨_, hmoved⟩
      · rcases hm.other with hcount | ⟨pt'', he, hmoved⟩
        · exact .inl (hstuck.congr hm.size hcount)
        · rw [hpc'] at he
          cases he
          exact .inr (howes hmoved)
      · exact .inr (howes (Nat.lt_of_lt_of_le hmoved (hm.onward pt' hpc')))
    · have hheld := not_exists.mp hheld
      have hcount : (t.round out s.sys.pipe pt).1.count = s.sys.pipe.count :=
        hm.other.resolve_right fun ⟨pt', he, _⟩ => hheld pt' he
      refine .inl (Pipe.Stuck.congr hm.size hcount ?_)
      rcases hwhy with hstuck | ⟨_, hmoved⟩
      · exact hstuck
      have hcut := cutShort hmoved (hquiet hr) hheld
      have hannounced := hC t ht
      rw [hpc] at hannounced
      rcases hannounced hcut with hzero | hstuck
      · rw [← hr] at hzero
        obtain ⟨l, _, hmem, hlen, _⟩ := hs.registers r
        have hin : j ∈ l := (hmem j).mpr (asleepOn_waitsOn hj)
        have hpos := List.length_pos_of_mem hin
        omega
      · exact hr ▸ hstuck
  · have hown : r = !t.call.isWrite := by
      cases r <;> cases hw : t.call.isWrite <;> simp_all
    refine .inl ?_
    rw [hown] at hwhy ⊢
    exact hm.own (hwhy.resolve_right fun h => hr (hown.trans h.1))

/-- The task of the round waits afterwards only if the round ends in `sleep`,
and then on its own channel. -/
theorem waitsOn_round_self (s : PipeWaitSystem) (tid : Nat) (t : PipeThread)
    (pt : Point) (out : Outside) (r : Bool) :
    (s.sys.round tid t pt out).waitsOn r tid = match (t.round out s.sys.pipe pt).2.2 with
      | .asleep _ => t.call.isWrite != r
      | _ => false := by
  obtain ⟨moved, hself⟩ := s.sys.round_self tid t pt out
  rw [waitsOn_of_threads hself]
  rfl

/-- The state after the bytes moved and the wakeup, if any, went out. -/
def relay (s : PipeWaitSystem) (tid : Nat) (t : PipeThread) (pt : Point)
    (out : Outside) : PipeWaitSystem :=
  if t.wakes out s.sys.pipe pt then
    (s.move tid t pt out).wakeWaiters t.call.isWrite
  else s.move tid t pt out

theorem relay_sys : (s.relay tid t pt out).sys = s.sys.round tid t pt out := by
  rw [relay]
  split <;> rfl

theorem relay_waiters : (s.relay tid t pt out).waiters = s.waiters := by
  rw [relay]
  split <;> rfl

theorem asleepOn_relay (hs : s.Inv) (ht : s.sys.threads tid = some t)
    (hpc : t.pc = .held pt) (hne : j ≠ tid) (hj : (s.relay tid t pt out).asleepOn r j = true) :
    s.asleepOn r j = true ∧ (r = t.call.isWrite → t.wakes out s.sys.pipe pt = false) := by
  have hmove : (s.move tid t pt out).asleepOn r j = true → s.asleepOn r j = true := by
    have hsame : (s.sys.round tid t pt out).waitsOn r j = s.sys.waitsOn r j :=
      waitsOn_congr (s.sys.round_of_ne t pt out hne) r
    simp only [asleepOn, move, hsame]
    exact id
  rw [relay] at hj
  split at hj
  · refine ⟨hmove (asleepOn_wakeWaiters hj), fun hr => ?_⟩
    subst hr
    have hreg : (s.waiters t.call.isWrite).Registers
        ((s.sys.round tid t pt out).waitsOn t.call.isWrite) := by
      refine (hs.registers _).congr fun k => ?_
      by_cases hk : k = tid
      · rw [hk, waitsOn_round_self, PipeSystem.waitsOn_of_threads ht, PipeThread.waitsOn, hpc]
        split <;> simp
      · exact waitsOn_congr (s.sys.round_of_ne t pt out hk) _
    rw [not_asleepOn_wakeWaiters (s := s.move tid t pt out) hreg j] at hj
    cases hj
  · next hquiet => exact ⟨hmove hj, fun _ => by simpa using hquiet⟩

theorem Inv.round (hs : s.Inv) (hlock : s.sys.lock = some tid)
    (ht : s.sys.threads tid = some t) (hpc : t.pc = .held pt)
    (hC : s.Announced (.go tid out)) : (s.round tid t pt out).Inv := by
  have hm := t.round_moves out s.sys.pipe pt
  have hbefore : ∀ r, s.sys.waitsOn r tid = false := by
    intro r
    rw [PipeSystem.waitsOn_of_threads ht, PipeThread.waitsOn, hpc]
  have hrest : ∀ r j, j ≠ tid → (s.sys.round tid t pt out).waitsOn r j = s.sys.waitsOn r j :=
    fun r j hj => waitsOn_congr (s.sys.round_of_ne t pt out hj) r
  have hself := waitsOn_round_self s tid t pt out
  -- The others, whatever the task of the round does next.
  have hothers : ∀ r j, j ≠ tid → (s.relay tid t pt out).asleepOn r j = true →
      (t.round out s.sys.pipe pt).1.peerOpen r = true ∧ ((t.round out s.sys.pipe pt).1.Stuck r ∨
          (s.sys.round tid t pt out).Owes r) := by
    intro r j hne hj
    obtain ⟨hj, hquiet⟩ := asleepOn_relay hs ht hpc hne hj
    exact hs.reason_round hlock ht hpc hC hj hquiet
  show (match (t.round out s.sys.pipe pt).2.2 with
    | .asleep _ => (s.relay tid t pt out).sleep (!t.call.isWrite) tid
    | _ => s.relay tid t pt out).Inv
  split
  · next pt' hpc' =>
    simp only [hpc'] at hself
    refine ⟨fun r => ?_, fun r j hj => ?_⟩
    · show (if r = !t.call.isWrite then _ else _ : PipeWaiters).Registers
        ((s.relay tid t pt out).sys.waitsOn r)
      rw [relay_sys, relay_waiters]
      split
      · next hr =>
        refine (hs.registers _).noteWaiter (hbefore _) ?_ ?_
        · rw [hself, hr]
          simp
        · rw [hr]
          exact hrest _
      next hr =>
      refine (hs.registers r).congr fun j => ?_
      by_cases hj : j = tid
      · cases r <;> cases hw : t.call.isWrite <;> simp_all
      · exact hrest r j hj
    · show (s.relay tid t pt out).sys.pipe.peerOpen r = true ∧
        ((s.relay tid t pt out).sys.pipe.Stuck r ∨ (s.relay tid t pt out).sys.Owes r)
      rw [relay_sys]
      by_cases hne : j = tid
      · subst hne
        have hown : r = !t.call.isWrite := by
          have hwaits := asleepOn_waitsOn hj
          change (s.relay j t pt out).sys.waitsOn r j = true at hwaits
          rw [relay_sys, hself] at hwaits
          cases r <;> cases hw : t.call.isWrite <;> simp_all
        obtain ⟨hstuck, hopen⟩ := hm.sleeps pt' hpc'
        rw [hown]
        exact ⟨hopen, .inl hstuck⟩
      · refine hothers r j hne ?_
        simpa [asleepOn, sleep, setWaiters, hne] using hj
  next hawake =>
  have hself : ∀ r, (s.sys.round tid t pt out).waitsOn r tid = false := by
    intro r
    rw [hself]
    split
    · next pt' hpc' => exact absurd hpc' (hawake pt')
    · rfl
  refine ⟨fun r => ?_, fun r j hj => ?_⟩
  · rw [relay_sys, relay_waiters]
    refine (hs.registers r).congr fun j => ?_
    by_cases hj : j = tid
    · rw [hj, hself, hbefore]
    · exact hrest r j hj
  · rw [relay_sys]
    refine hothers r j ?_ hj
    rintro rfl
    have hwaits := asleepOn_waitsOn hj
    rw [relay_sys, hself] at hwaits
    cases hwaits

end Round

theorem Inv.close {s : PipeWaitSystem} (hs : s.Inv) {isWrite : Bool}
    (h : s.sys.step (.close isWrite) = some sys) :
    (PipeWaitSystem.wakeWaiters { s with sys } isWrite).Inv := by
  have hclosed : sys.threads = s.sys.threads ∧
      (∀ r, r ≠ isWrite → sys.pipe.peerOpen r = s.sys.pipe.peerOpen r) ∧
      sys.pipe.pipeSize = s.sys.pipe.pipeSize ∧
      sys.pipe.count = s.sys.pipe.count ∧ s.sys.lock = none := by
    simp only [PipeSystem.step] at h
    split at h
    · cases h
    next hfree =>
    have hfree : s.sys.lock = none := by simpa using hfree
    cases isWrite <;> simp only [Bool.false_eq_true, if_false, if_true] at h <;>
      split at h <;> cases h
    all_goals
      exact ⟨rfl, fun r hr => by cases r <;> first | rfl | exact absurd rfl hr, rfl, rfl, hfree⟩
  obtain ⟨hthreads, hpeers, hsize, hcount, hfree⟩ := hclosed
  have hwaits : ∀ r j, sys.waitsOn r j = s.sys.waitsOn r j :=
    fun r j => PipeSystem.waitsOn_congr (by rw [hthreads]) r
  have hreg : ∀ r, (s.waiters r).Registers (sys.waitsOn r) :=
    fun r => (hs.registers r).congr (hwaits r)
  refine ⟨hreg, fun r j hj => ?_⟩
  have hr : r ≠ isWrite := by
    rintro rfl
    rw [not_asleepOn_wakeWaiters (s := { s with sys }) (hreg r)] at hj
    cases hj
  have hbefore : s.asleepOn r j = true := by
    simpa only [asleepOn, hwaits] using asleepOn_wakeWaiters hj
  obtain ⟨hopen, hstuck | ⟨k, _, _, hlock, _⟩⟩ := hs.reason r j hbefore
  · exact ⟨(hpeers r hr).trans hopen, .inl (hstuck.congr hsize hcount)⟩
  · rw [hfree] at hlock
    cases hlock

theorem Inv.interrupt {s : PipeWaitSystem} (hs : s.Inv) (tid : Nat) :
    ({ s with sleeping := fun j => s.sleeping j && j != tid } :
      PipeWaitSystem).Inv := by
  refine ⟨hs.registers, fun r j hj => hs.reason r j ?_⟩
  simp only [asleepOn, Bool.and_eq_true] at hj ⊢
  exact ⟨hj.1.1, hj.2⟩

theorem Inv.go {s s' : PipeWaitSystem} (hs : s.Inv) {tid : Nat}
    {out : Outside} (hC : s.Announced (.go tid out))
    (h : s.step (.go tid out) = some s') : s'.Inv := by
  simp only [step] at h
  split at h
  · cases h
  next t ht =>
  cases hpc : t.pc with
  | start =>
      simp only [hpc, PipeWaitSystem.lift, PipeSystem.step, ht] at h
      obtain ⟨sys, hsys, rfl⟩ := Option.map_eq_some_iff.mp h
      exact hs.acquire ht (fun r => by rw [PipeThread.waitsOn, hpc]) hsys
  | asleep pt =>
      simp only [hpc, PipeWaitSystem.lift, PipeSystem.step, ht] at h
      split at h
      · cases h
      rw [Option.map_map] at h
      obtain ⟨sys, hsys, rfl⟩ := Option.map_eq_some_iff.mp h
      exact hs.resume ht hpc hsys
  | checking i =>
      simp only [hpc, PipeWaitSystem.lift, PipeSystem.step, ht] at h
      split at h
      · next hfail =>
        split at h
        · rw [hfail.1] at h
          cases h
          exact (hs.checkFailed ht hpc _).wakeWaiters true
        · cases h
      · split at h
        · obtain ⟨sys, hsys, rfl⟩ := Option.map_eq_some_iff.mp h
          exact hs.acquire ht (fun r => by rw [PipeThread.waitsOn, hpc]) hsys
        · cases h
          exact hs.checkFailed ht hpc _
  | held pt =>
      simp only [hpc] at h
      split at h
      · next hlock =>
        cases h
        exact hs.round hlock ht hpc hC
      · cases h
  | done ret =>
      simp only [hpc, PipeWaitSystem.lift, PipeSystem.step, ht] at h
      cases h

theorem Inv.step {s s' : PipeWaitSystem} {e : PipeWaitEvent} (hs : s.Inv)
    (hC : s.Announced e) (h : s.step e = some s') : s'.Inv := by
  cases e with
  | enter tid call n nonblock => exact hs.enter h
  | go tid out => exact hs.go hC h
  | interrupt tid =>
      cases h
      exact hs.interrupt tid
  | close isWrite =>
      simp only [PipeWaitSystem.step, PipeWaitSystem.lift, Option.map_map] at h
      obtain ⟨sys, hsys, rfl⟩ := Option.map_eq_some_iff.mp h
      exact hs.close hsys

theorem inv_init (p : Pipe) : (init p).Inv :=
  ⟨fun _ => ⟨[], List.nodup_nil, fun _ => by simp [PipeSystem.waitsOn, init,
      PipeSystem.init], rfl, fun _ h => nomatch h⟩,
    fun _ _ h => nomatch h⟩

end PipeWaitSystem

/-- No wakeup is lost in a run where no call leaves quietly while somebody is
registered at the other end. -/
theorem pipe_run_noLostWakeup {storage : Nat → UInt8} {privileged : Bool}
    {newBuffer : Option (Nat → UInt8)} {events : List PipeWaitEvent} {s : PipeWaitSystem}
    (hr : Run.Guarded PipeWaitSystem.step PipeWaitSystem.Announced
      (.init ((Pipe.new storage).alloc privileged newBuffer)) events s) : s.NoLostWakeup :=
  (hr.inv PipeWaitSystem.Inv.step (inv_init _)).noLostWakeup

/-- One call of a thread, run for `rounds` rounds. -/
def waitCall (tid : Nat) (call : PipeCall) (n : Int) (nonblock : Bool)
    (rounds : Nat) : List PipeWaitEvent :=
  .enter tid call n nonblock :: List.replicate rounds (.go tid (quiet 1))

/-- Two readers sleep, one byte is written and both are woken; one takes it, the other
goes back to sleep and gets the next one. Then a writer that must not block is cut short
by the full pipe, with nobody there to wake, and another writer sleeps. -/
def cutShortRun : List PipeWaitEvent :=
  waitCall 0 .read 1 false 2 ++ waitCall 1 .readToUser 1 false 2 ++
    waitCall 2 .writeInKernel 1 false 3 ++
    List.replicate 4 (.go 0 (quiet 1)) ++ List.replicate 2 (.go 1 (quiet 1)) ++
    waitCall 2 .writeInKernel 1 false 3 ++ List.replicate 6 (.go 1 (quiet 1)) ++
    waitCall 2 .writeInKernel 4097 true 4 ++ waitCall 0 .write 1 false 2

theorem pipe_run_noLostWakeup_cutShort : ∃ s, s.asleepOn false 0 = true ∧
    Run.Guarded PipeWaitSystem.step PipeWaitSystem.Announced
      (.init ((Pipe.new fun _ => 0).alloc false none)) cutShortRun s ∧ s.NoLostWakeup := by
  have hr : Run.Guarded PipeWaitSystem.step PipeWaitSystem.Announced
      (.init ((Pipe.new fun _ => 0).alloc false none)) cutShortRun _ :=
    .of_foldlM rfl
  exact ⟨_, rfl, hr, pipe_run_noLostWakeup hr⟩

/-- A reader sleeps on the empty pipe; a writer that must not block writes
more than the pipe holds. -/
def quietWrite : List PipeWaitEvent :=
  waitCall 0 .read 1 false 2 ++ waitCall 1 .writeInKernel 4097 true 3

/-- The writer returns with the pipe full and the reader still asleep. -/
theorem pipe_run_quietWrite :
    ∃ s, quietWrite.foldlM PipeWaitSystem.step
        (.init ((Pipe.new fun _ => 0).alloc false none)) = some s ∧
      s.sys.pipe.count = 4096 ∧ s.asleepOn true 0 = true ∧
      s.issued true 0 = false ∧ ¬ s.NoLostWakeup := by
  refine ⟨_, rfl, rfl, rfl, rfl, fun h => ?_⟩
  rcases h rfl true 0 rfl with ⟨hstuck, _⟩ | hwoken
  · exact absurd (show 4096 = _ from hstuck) (by decide)
  · cases hwoken

end F7ly.Proc
