import F7ly.Lib.Run
import F7ly.Lib.Tally
import F7ly.Proc.Semaphore

/-!
# Permits of a semaphore

As long as every sleeper is woken by a V operation, the wait list names exactly
the sleepers and a negative counter is their number. Then the counter, the
finished P operations and the tasks on their way through `sem_p` add up to the
permits there ever were, and a V that finds a waiter finds one that still
sleeps.

`resume` gives a permit to whoever comes back from `sleep`. A waiter that a
signal wakes takes one that nobody gave back, and a waiter that is killed leaves
both its place in the list and its debt in the counter, so that the next V is
spent on it.
-/

namespace F7ly.Proc.Semaphore

open Semaphore.System List

/-- The task waits in `sem_p` and has not been killed. -/
def System.Waits (s : System) (t : Nat) : Prop := s.tasks[t]? = some ⟨.sleeping, false⟩

/-- What is promised of a semaphore with `initial` permits. -/
structure System.Sound (initial : Nat) (s : System) : Prop where
  up : s.panicked = false
  bound : s.completed ≤ initial + s.released
  /-- No permit is lost. -/
  conserved : s.sem.value + s.completed + (s.tasks.countP Task.live : Nat) =
    (initial : Int) + s.released
  /-- A V operation lets a waiter finish its P. -/
  served : ∀ {u x}, s.tasks[u]? = some x → x.phase = .running → (∃ t, s.Waits t) → ∃ t, s.Waits t ∧
      ((s.step (.v u)).step (.resume t)).completed = s.completed + 1
  /-- While a task waits, every permit is out, or on its way to a woken task. -/
  allOut : (∃ t, s.Waits t) → s.completed + s.tasks.countP (·.phase = .woken) = initial + s.released

def System.Undisturbed (s : System) : Op → Prop
  | .p t => ∀ x ∈ s.tasks[t]?, x.phase = .running → x.killed = true → 0 < s.sem.value
  | .signal t => ∀ x ∈ s.tasks[t]?, x.phase ≠ .sleeping
  | .kill t => ∀ x ∈ s.tasks[t]?, x.phase ≠ .sleeping ∧ x.phase ≠ .woken
  | _ => True

instance (s : System) : (op : Op) → Decidable (s.Undisturbed op)
  | .p t => inferInstanceAs (Decidable (∀ x ∈ s.tasks[t]?, _))
  | .signal t => inferInstanceAs (Decidable (∀ x ∈ s.tasks[t]?, _))
  | .kill t => inferInstanceAs (Decidable (∀ x ∈ s.tasks[t]?, _))
  | .resume _ | .v _ | .tryP _ | .tryV _ => inferInstanceAs (Decidable True)

/-- Every task that is awake in `sem_p` goes on to its end. -/
def System.drain (s : System) : System :=
  (range s.tasks.length).foldl (fun s t => s.step (.resume t)) s

structure System.Books (initial : Nat) (s : System) : Prop where
  up : s.panicked = false
  room : s.tasks.length ≤ numProcess
  nodup : s.sem.waitList.Nodup
  listed : ∀ t, t ∈ s.sem.waitList ↔ ∃ x, s.tasks[t]? = some x ∧ x.phase = .sleeping
  alive : ∀ x ∈ s.tasks, x.phase = .sleeping ∨ x.phase = .woken → x.killed = false
  asleep : s.tasks.countP (·.phase = .sleeping) = s.sem.waitList.length
  debt : (s.sem.value < 0 → -s.sem.value = s.sem.waitList.length) ∧
    (0 ≤ s.sem.value → s.sem.waitList = [])
  conserved : s.sem.value + s.completed + s.sem.waitList.length +
    (s.tasks.countP (·.phase = .woken) : Nat) = (initial : Int) + s.released

variable {initial : Nat} {s : System}

theorem System.Books.boot {maxValue : Int} {n : Nat} (hn : n ≤ numProcess) :
    System.Books initial (System.boot (semInitWithMax initial maxValue) n) where
  up := rfl
  room := by simpa [System.boot] using hn
  nodup := nodup_nil
  listed t := by
    simp only [System.boot, semInitWithMax, not_mem_nil, getElem?_replicate, false_iff]
    intro ⟨x, hx, hphase⟩
    split at hx
    · cases hx
      cases hphase
    · cases hx
  alive x hx := by
    intro h
    rw [(mem_replicate.mp hx).2]
  asleep := by simp [System.boot, semInitWithMax]
  debt := ⟨by simp [System.boot, semInitWithMax], fun _ => rfl⟩
  conserved := by simp [System.boot, semInitWithMax]

theorem System.Books.countP_live (h : s.Books initial) :
    s.tasks.countP Task.live = s.sem.waitList.length + s.tasks.countP (·.phase = .woken) := by
  rw [← h.asleep]
  have halive := h.alive
  generalize s.tasks = xs at halive ⊢
  induction xs with
  | nil => rfl
  | cons x xs ih =>
      cases x with
      | mk phase killed =>
          cases phase <;> simp_all [Task.live] <;> omega

variable {t : Nat} {x : Task}

theorem System.Books.waits_iff (h : s.Books initial) : s.Waits t ↔ t ∈ s.sem.waitList := by
  rw [h.listed]
  constructor
  · intro ht
    exact ⟨_, ht, rfl⟩
  · intro ⟨x, hx, hphase⟩
    have hkilled := h.alive x (mem_of_getElem? hx) (.inl hphase)
    cases x with
    | mk phase killed =>
        simp only at hphase hkilled
        rw [System.Waits, hx, hphase, hkilled]

theorem System.Books.not_mem (h : s.Books initial) (hx : s.tasks[t]? = some x)
    (hrun : x.phase = .running) : t ∉ s.sem.waitList := by
  intro hmem
  obtain ⟨y, hy, hphase⟩ := (h.listed t).mp hmem
  rw [hx] at hy
  cases hy
  rw [hrun] at hphase
  cases hphase

theorem System.Books.length_lt (h : s.Books initial) (hx : s.tasks[t]? = some x)
    (hrun : x.phase = .running) : s.sem.waitList.length < numProcess := by
  have hnot := h.not_mem hx hrun
  have hlen : (t :: s.sem.waitList).length ≤ s.tasks.length := by
    refine Tally.length_le_of_lt (nodup_cons.mpr ⟨hnot, h.nodup⟩) fun n hn => ?_
    rcases List.mem_cons.mp hn with rfl | hn
    · exact (List.getElem?_eq_some_iff.mp hx).1
    · obtain ⟨y, hy, -⟩ := (h.listed n).mp hn
      exact (List.getElem?_eq_some_iff.mp hy).1
  have := h.room
  rw [length_cons] at hlen
  omega

theorem getElem?_set_task {xs : List Task} (hx : xs[t]? = some x)
    (y : Task) (j : Nat) : (xs.set t y)[j]? = if j = t then some y else xs[j]? := by
  have hlt := (List.getElem?_eq_some_iff.mp hx).1
  rw [List.getElem?_set]
  by_cases hj : j = t
  · subst hj
    rw [if_pos rfl, if_pos hlt, if_pos rfl]
  · rw [if_neg (Ne.symm hj), if_neg hj]

theorem countP_setPhase (hx : s.tasks[t]? = some x) (phase q : Phase) :
    (s.setPhase t x phase).tasks.countP (·.phase = q) + (decide (x.phase = q)).toNat =
      s.tasks.countP (·.phase = q) + (decide (phase = q)).toNat :=
  Tally.countP_set (p := fun y : Task => y.phase = q) hx

theorem System.Books.semP (h : s.Books initial)
    (hx : s.tasks[t]? = some x) (hrun : x.phase = .running)
    (hsafe : x.killed = true → 0 < s.sem.value) : (s.semP t x).Books initial := by
  unfold System.semP
  dsimp only
  split
  · next hneg =>
      have hlive : x.killed = false := by
        cases hk : x.killed with
        | false => rfl
        | true =>
            have := hsafe hk
            omega
      rw [if_neg (by have := h.length_lt hx hrun; omega)]
      have hnot := h.not_mem hx hrun
      have hasleep := countP_setPhase hx .sleeping .sleeping
      have hwoken := countP_setPhase hx .sleeping .woken
      simp [hrun] at hasleep hwoken
      refine ⟨h.up, ?_, ?_, fun j => ?_, ?_, ?_, ?_, ?_⟩
      · simpa [setPhase] using h.room
      · exact nodup_append.mpr ⟨h.nodup, nodup_singleton t, by
          intro a ha b hb
          rw [mem_singleton.mp hb]
          exact fun hab => hnot (hab ▸ ha)⟩
      · simp only [setPhase, mem_append, getElem?_set_task hx, h.listed j]
        by_cases hj : j = t
        · simp [hj]
        · simp [hj]
      · intro y hy
        rcases mem_or_eq_of_mem_set hy with hy | rfl
        · exact h.alive y hy
        · exact fun _ => hlive
      · simp only [setPhase, length_append, length_singleton]
        simp only [setPhase] at hasleep
        rw [hasleep, h.asleep]
      · simp only [setPhase, length_append, length_singleton]
        have := h.debt
        refine ⟨fun _ => ?_, by omega⟩
        by_cases hzero : s.sem.value < 0
        · omega
        · have := this.2 (by omega)
          simp [this]
          omega
      · have := h.conserved
        simp only [setPhase, length_append, length_singleton] at hwoken ⊢
        omega
  next hpos =>
  have hnil := h.debt.2 (by omega)
  refine ⟨h.up, h.room, h.nodup, h.listed, h.alive, h.asleep,
    ⟨fun hneg => absurd hneg hpos, fun _ => hnil⟩, ?_⟩
  have := h.conserved
  dsimp only
  omega

theorem System.Books.semPResume (h : s.Books initial)
    (hx : s.tasks[t]? = some x) (hwoken : x.phase = .woken) : (s.semPResume t x).Books initial := by
  have hlive := h.alive x (mem_of_getElem? hx) (.inr hwoken)
  have hasleep := countP_setPhase hx .running .sleeping
  have hcount := countP_setPhase hx .running .woken
  simp [hwoken] at hasleep hcount
  simp only [System.setPhase] at hasleep hcount
  rw [System.semPResume, hlive, if_neg Bool.false_ne_true]
  refine ⟨h.up, ?_, h.nodup, fun j => ?_, ?_, hasleep.trans h.asleep, h.debt, ?_⟩
  · simpa [setPhase] using h.room
  · simp only [setPhase, getElem?_set_task hx, h.listed j]
    by_cases hj : j = t
    · subst hj
      simp [hx, hwoken]
    · simp [hj]
  · intro y hy
    rcases mem_or_eq_of_mem_set hy with hy | rfl
    · exact h.alive y hy
    · exact fun _ => hlive
  · have := h.conserved
    simp only [setPhase]
    omega

theorem System.Books.semTryV_cons (h : s.Books initial) {waiter : Nat} {rest : List Nat}
    (hlist : s.sem.waitList = waiter :: rest) :
    ∃ x, s.tasks[waiter]? = some x ∧ x.phase = .sleeping ∧
      s.semTryV.1 = { s with
        sem.waitList := rest
        sem.value := s.sem.value + 1
        released := s.released + 1 }.setPhase waiter x .woken := by
  obtain ⟨x, hx, hphase⟩ := (h.listed waiter).mp (hlist ▸ mem_cons_self)
  refine ⟨x, hx, hphase, ?_⟩
  simp [semTryV, hlist, wakeupOne, hx, hphase]

theorem System.Books.semTryV (h : s.Books initial) : s.semTryV.1.Books initial := by
  cases hlist : s.sem.waitList with
  | nil =>
      simp only [System.semTryV, hlist]
      split
      · exact h
      · have hdebt := h.debt
        rw [hlist, length_nil] at hdebt
        refine ⟨h.up, h.room, hlist ▸ h.nodup, hlist ▸ h.listed, h.alive, ?_,
          ⟨?_, fun _ => rfl⟩, ?_⟩
        · simpa [hlist] using h.asleep
        · intro hneg
          have hneg : s.sem.value + 1 < 0 := hneg
          omega
        · have := h.conserved
          simp only [hlist] at this ⊢
          omega
  | cons waiter rest =>
      obtain ⟨x, hx, hphase, heq⟩ := h.semTryV_cons hlist
      have hnd := nodup_cons.mp (hlist ▸ h.nodup)
      have hasleep := countP_setPhase hx .woken .sleeping
      have hwoken := countP_setPhase hx .woken .woken
      simp [hphase] at hasleep hwoken
      simp only [setPhase] at hasleep hwoken
      have hcount := h.asleep
      have hdebt := h.debt
      have hcons := h.conserved
      rw [hlist, length_cons] at hcount hcons
      rw [hlist, length_cons] at hdebt
      rw [heq]
      refine ⟨h.up, ?_, hnd.2, fun j => ?_, ?_, ?_, ⟨?_, ?_⟩, ?_⟩
      · simpa [setPhase] using h.room
      · have hj := h.listed j
        rw [hlist, mem_cons] at hj
        simp only [setPhase, getElem?_set_task hx]
        by_cases hjw : j = waiter
        · subst hjw
          simp [hnd.1]
        · simp only [hjw, false_or] at hj ⊢
          exact hj
      · intro y hy
        rcases mem_or_eq_of_mem_set hy with hy | rfl
        · exact h.alive y hy
        · exact fun _ => h.alive x (mem_of_getElem? hx) (.inl hphase)
      · simp only [setPhase]
        omega
      · simp only [setPhase]
        intro hneg
        omega
      · simp only [setPhase]
        intro hpos
        by_cases hneg : s.sem.value < 0
        · have := hdebt.1 hneg
          exact length_eq_zero_iff.mp (by omega)
        · cases hdebt.2 (by omega)
      · simp only [setPhase]
        omega

theorem System.Books.semTryP (h : s.Books initial) : s.semTryP.1.Books initial := by
  rw [System.semTryP]
  split
  · next hpos =>
      have hnil := h.debt.2 (by omega)
      have hcons := h.conserved
      refine ⟨h.up, h.room, h.nodup, h.listed, h.alive, h.asleep, ⟨?_, fun _ => hnil⟩, ?_⟩
      · dsimp only
        omega
      · dsimp only
        omega
  · exact h

/-- A task outside of `sem_p` may be killed. -/
theorem System.Books.kill (h : s.Books initial)
    (hx : s.tasks[t]? = some x) (hsleep : x.phase ≠ .sleeping) (hwoken : x.phase ≠ .woken) :
    (s.kill t x).Books initial := by
  have hcount (q : Phase) : (s.tasks.set t { x with killed := true }).countP (·.phase = q) =
      s.tasks.countP (·.phase = q) := by
    have := Tally.countP_set (p := fun y : Task => y.phase = q)
      (b := { x with killed := true }) hx
    dsimp only at this
    omega
  have heq : s.kill t x = { s with tasks := s.tasks.set t { x with killed := true } } := by
    simp [System.kill, System.wakeupOne, getElem?_set_task hx, if_neg hsleep]
  rw [heq]
  refine ⟨h.up, by simpa using h.room, h.nodup, fun j => ?_, ?_, (hcount _).trans h.asleep,
    h.debt, ?_⟩
  · simp only [getElem?_set_task hx, h.listed j]
    by_cases hj : j = t
    · subst hj
      simp [hx]
    · simp [hj]
  · intro y hy hin
    rcases mem_or_eq_of_mem_set hy with hy | rfl
    · exact h.alive y hy hin
    · exact absurd hin (not_or.mpr ⟨hsleep, hwoken⟩)
  · simp only [hcount]
    exact h.conserved

theorem System.Books.step (h : s.Books initial) {op : Op} (hsafe : s.Undisturbed op) :
    (s.step op).Books initial := by
  rw [System.step, h.up, if_neg Bool.false_ne_true]
  split
  · next x hx =>
      cases op with
      | p t =>
          rw [act]
          split
          · next hrun => exact h.semP hx hrun (hsafe x hx hrun)
          · exact h
      | resume t =>
          rw [act]
          split
          · next hwoken => exact h.semPResume hx hwoken
          · exact h
      | v t =>
          rw [act]
          split
          · exact h.semTryV
          · exact h
      | tryP t =>
          rw [act]
          split
          · exact h.semTryP
          · exact h
      | tryV t =>
          rw [act]
          split
          · exact h.semTryV
          · exact h
      | signal t =>
          have hx : s.tasks[t]? = some x := hx
          rw [act, signal, wakeupOne, hx]
          simp only [if_neg (hsafe x hx)]
          exact h
      | kill t => exact h.kill hx (hsafe x hx).1 (hsafe x hx).2
  · exact h

theorem System.step_eq (hup : s.panicked = false) {op : Op}
    (hx : s.tasks[op.task]? = some x) : s.step op = s.act x op := by
  rw [step, hup, if_neg Bool.false_ne_true, hx]

theorem System.step_v (hup : s.panicked = false) {u : Nat}
    (hx : s.tasks[u]? = some x) (hrun : x.phase = .running) : s.step (.v u) = s.semTryV.1 :=
  (step_eq hup (show s.tasks[(Op.v u).task]? = some x from hx)).trans (if_pos hrun)

theorem System.step_resume (hup : s.panicked = false) (hx : s.tasks[t]? = some x) :
    s.step (.resume t) = if x.phase = .woken then s.semPResume t x else s :=
  step_eq hup (show s.tasks[(Op.resume t).task]? = some x from hx)

theorem System.Books.value_neg (h : s.Books initial) (ht : s.Waits t) : s.sem.value < 0 := by
  by_contra hpos
  have hnil := h.debt.2 (by omega)
  have hmem := h.waits_iff.mp ht
  rw [hnil] at hmem
  cases hmem

theorem System.Books.all_out (h : s.Books initial) (ht : s.Waits t) :
    s.completed + s.tasks.countP (·.phase = .woken) = initial + s.released := by
  have hdebt := h.debt.1 (h.value_neg ht)
  have := h.conserved
  omega

theorem System.Books.served (h : s.Books initial) {u : Nat}
    (hx : s.tasks[u]? = some x) (hrun : x.phase = .running) (ht : s.Waits t) :
    ∃ t, s.Waits t ∧ ((s.step (.v u)).step (.resume t)).completed = s.completed + 1 := by
  cases hlist : s.sem.waitList with
  | nil =>
      have hmem := h.waits_iff.mp ht
      rw [hlist] at hmem
      cases hmem
  | cons waiter rest =>
      obtain ⟨y, hy, hphase, heq⟩ := h.semTryV_cons hlist
      have hlive := h.alive y (mem_of_getElem? hy) (.inl hphase)
      refine ⟨waiter, h.waits_iff.mpr (hlist ▸ mem_cons_self), ?_⟩
      have hget : s.semTryV.1.tasks[waiter]? = some { y with phase := .woken } := by
        rw [heq]
        simp [setPhase, getElem?_set_task hy]
      rw [System.step_v h.up hx hrun, System.step_resume h.semTryV.up hget, if_pos rfl,
        System.semPResume]
      simp only [hlive]
      rw [heq]
      rfl

theorem System.Books.sound (h : s.Books initial) : s.Sound initial where
  up := h.up
  bound := by
    have hcons := h.conserved
    have hdebt := h.debt
    by_cases hneg : s.sem.value < 0
    · omega
    · omega
  conserved := by
    rw [h.countP_live]
    have := h.conserved
    omega
  served hx hrun := fun ⟨_, ht⟩ => h.served hx hrun ht
  allOut := fun ⟨_, ht⟩ => h.all_out ht

/-- The sum that is `initial + released` in a sound state. -/
def System.total (s : System) : Int :=
  s.sem.value + s.completed + (s.tasks.countP Task.live : Nat)

def System.granted (s : System) : Nat :=
  s.completed + s.tasks.countP fun x => x.phase = .woken && !x.killed

/-- What a resumed task leaves as it was. -/
structure System.Resumed (s s' : System) : Prop where
  total : s'.total = s.total
  granted : s'.granted = s.granted
  released : s'.released = s.released
  up : s'.panicked = s.panicked
  length : s'.tasks.length = s.tasks.length

theorem System.resumed_step (t : Nat) :
    s.Resumed (s.step (.resume t)) ∧ ∀ j, j ≠ t → (s.step (.resume t)).tasks[j]? = s.tasks[j]? := by
  have hrefl : s.Resumed s := ⟨rfl, rfl, rfl, rfl, rfl⟩
  cases hup : s.panicked with
  | true =>
      rw [step, hup, if_pos rfl]
      exact ⟨hrefl, fun _ _ => rfl⟩
  | false =>
      cases hx : s.tasks[t]? with
      | none =>
          have hx : s.tasks[(Op.resume t).task]? = none := hx
          rw [step, hup, if_neg Bool.false_ne_true, hx]
          exact ⟨hrefl, fun _ _ => rfl⟩
      | some x =>
          rw [step_resume hup hx]
          split
          · next hwoken =>
              obtain ⟨phase, killed⟩ := x
              obtain rfl : phase = .woken := hwoken
              have hlive (q : Phase) := Tally.countP_set (p := Task.live) (b := ⟨q, killed⟩) hx
              have hgrant (q : Phase) := Tally.countP_set
                (p := fun y : Task => y.phase = .woken && !y.killed) (b := ⟨q, killed⟩) hx
              cases killed with
              | true =>
                  have hlive := hlive .exited
                  have hgrant := hgrant .exited
                  simp [Task.live] at hlive hgrant
                  rw [semPResume, if_pos rfl]
                  refine ⟨⟨?_, ?_, rfl, rfl, by simp [setPhase]⟩, fun j hj => ?_⟩
                  · simp [total, setPhase, hlive]
                  · simp [granted, setPhase, hgrant]
                  · simp [setPhase, getElem?_set_task hx, if_neg hj]
              | false =>
                  have hlive := hlive .running
                  have hgrant := hgrant .running
                  simp [Task.live] at hlive hgrant
                  rw [semPResume, if_neg Bool.false_ne_true]
                  refine ⟨⟨?_, ?_, rfl, rfl, by simp [setPhase]⟩, fun j hj => ?_⟩
                  · simp only [total, setPhase]
                    omega
                  · simp only [granted, setPhase]
                    omega
                  · simp [setPhase, getElem?_set_task hx, if_neg hj]
          · exact ⟨hrefl, fun _ _ => rfl⟩

theorem System.Resumed.trans {s' s'' : System} (h : s.Resumed s') (h' : s'.Resumed s'') :
    s.Resumed s'' :=
  ⟨h'.total.trans h.total, h'.granted.trans h.granted, h'.released.trans h.released,
    h'.up.trans h.up, h'.length.trans h.length⟩

/-- The first `n` tasks after they have gone on. -/
theorem System.resumed_range (hup : s.panicked = false) (n : Nat) :
    s.Resumed ((range n).foldl (fun s t => s.step (.resume t)) s) ∧ ∀ j x, j < n →
        ((range n).foldl (fun s t => s.step (.resume t)) s).tasks[j]? = some x →
        x.phase ≠ .woken := by
  induction n with
  | zero => exact ⟨⟨rfl, rfl, rfl, rfl, rfl⟩, fun j x hj => absurd hj (Nat.not_lt_zero j)⟩
  | succ n ih =>
      rw [range_succ, foldl_append]
      obtain ⟨hres, hpast⟩ := ih
      generalize (range n).foldl (fun s t => s.step (.resume t)) s = s' at hres hpast
      obtain ⟨hstep, hother⟩ := s'.resumed_step n
      refine ⟨hres.trans hstep, fun j x hj hx => ?_⟩
      by_cases hjn : j = n
      · subst hjn
        cases hy : s'.tasks[j]? with
        | none =>
            have hlen := hstep.length
            rw [List.getElem?_eq_none_iff] at hy
            have := (List.getElem?_eq_some_iff.mp hx).1
            simp only [List.foldl_cons, List.foldl_nil] at this
            omega
        | some y =>
            simp only [foldl_cons, foldl_nil, step_resume (hres.up.trans hup) hy] at hx
            split at hx
            · rw [semPResume] at hx
              split at hx
              all_goals
                simp only [setPhase, getElem?_set_task hy, if_true, Option.some.injEq] at hx
                rw [← hx]
                exact nofun
            next hwoken =>
            rw [hy] at hx
            cases hx
            exact hwoken
      · exact hpast j x (by omega) ((hother j hjn).symm.trans hx)

theorem System.drain_spec (hup : s.panicked = false) :
    s.Resumed s.drain ∧ s.drain.completed = s.granted := by
  obtain ⟨hres, hnone⟩ := s.resumed_range hup s.tasks.length
  refine ⟨hres, ?_⟩
  have hzero : s.drain.tasks.countP (fun x => x.phase = .woken && !x.killed) = 0 := by
    rw [countP_eq_zero]
    intro x hx
    obtain ⟨j, hj⟩ := List.getElem?_of_mem hx
    have hlt := (List.getElem?_eq_some_iff.mp hj).1
    have := hnone j x (by rw [← hres.length]; exact hlt) hj
    simp [this]
  have hgranted : s.drain.granted = s.granted := hres.granted
  rw [granted, hzero] at hgranted
  exact hgranted

theorem System.Books.drain (h : s.Books initial) : s.drain.Books initial := by
  have hall (ts : List Nat) : ∀ {s : System}, s.Books initial →
      (ts.foldl (fun s t => s.step (.resume t)) s).Books initial := by
    induction ts with
    | nil => exact fun h => h
    | cons t ts ih => exact fun h => ih (h.step trivial)
  exact hall _ h

theorem System.not_sound_of_total (hup : s.panicked = false)
    (htotal : s.total ≠ initial + s.released) : ¬s.drain.Sound initial := by
  intro hsound
  have hres := (drain_spec hup).1
  have hcons : s.drain.total = initial + s.drain.released := hsound.conserved
  rw [hres.total, hres.released] at hcons
  exact htotal hcons

theorem System.Books.total_eq (h : s.Books initial) : s.total = initial + s.released :=
  h.sound.conserved

theorem System.Books.signal_unsound (h : s.Books initial)
    (hx : s.tasks[t]? = some x) (hsleep : x.phase = .sleeping) :
    ¬(s.step (.signal t)).drain.Sound initial := by
  have hlive := h.alive x (mem_of_getElem? hx) (.inl hsleep)
  have hstep : s.step (.signal t) = s.setPhase t x .woken := by
    rw [step_eq h.up (show s.tasks[(Op.signal t).task]? = some x from hx)]
    simp [act, signal, wakeupOne, hx, if_pos hsleep]
  have hout := h.all_out (h.waits_iff.mpr ((h.listed t).mpr ⟨x, hx, hsleep⟩))
  have hwoken : s.tasks.countP (fun y => y.phase = .woken && !y.killed) =
      s.tasks.countP (·.phase = .woken) := by
    refine countP_congr fun y hy => ?_
    have := h.alive y hy
    by_cases hyw : y.phase = .woken
    · simp [this (.inr hyw)]
    · simp [hyw]
  have hgrant := Tally.countP_set (p := fun y : Task => y.phase = .woken && !y.killed)
    (b := { x with phase := .woken }) hx
  simp [hsleep, hlive] at hgrant
  intro hsound
  rw [hstep] at hsound
  obtain ⟨hres, hdone⟩ := drain_spec (s := s.setPhase t x .woken) h.up
  have hbound := hsound.bound
  rw [hres.released, hdone] at hbound
  simp only [granted, setPhase, hlive] at hbound
  omega

/-- A task that is killed in `sem_p` takes its debt with it. -/
theorem System.Books.kill_unsound (h : s.Books initial)
    (hx : s.tasks[t]? = some x) (hin : x.phase = .sleeping ∨ x.phase = .woken) :
    ¬(s.step (.kill t)).drain.Sound initial := by
  have hlive := h.alive x (mem_of_getElem? hx) hin
  have hstep : s.step (.kill t) = { s with tasks := s.tasks.set t ⟨.woken, true⟩ } := by
    rw [System.step_eq h.up (show s.tasks[(Op.kill t).task]? = some x from hx)]
    simp only [System.act, System.kill, System.wakeupOne, getElem?_set_task hx]
    rcases hin with hs | hw
    · simp [hs, System.setPhase]
    · simp [hw]
  have hcount := Tally.countP_set (p := Task.live) (b := ⟨.woken, true⟩) hx
  have hxlive : x.live = true := by
    rcases hin with hs | hw
    · simp [Task.live, hs, hlive]
    · simp [Task.live, hw, hlive]
  rw [hxlive, show Task.live ⟨.woken, true⟩ = false from rfl] at hcount
  rw [hstep]
  refine System.not_sound_of_total h.up ?_
  have htotal := h.total_eq
  simp only [System.total, Bool.toNat_true, Bool.toNat_false] at htotal hcount ⊢
  omega

/-- So does a killed task that goes to sleep in `sem_p`. -/
theorem System.Books.p_unsound (h : s.Books initial)
    (hx : s.tasks[t]? = some x) (hrun : x.phase = .running) (hk : x.killed = true)
    (hval : ¬0 < s.sem.value) : ¬(s.step (.p t)).drain.Sound initial := by
  have hlen := h.length_lt hx hrun
  have hstep : s.step (.p t) = { s with
      sem.value := s.sem.value - 1
      sem.waitList := s.sem.waitList ++ [t] }.setPhase t x .sleeping := by
    rw [step_eq h.up (show s.tasks[(Op.p t).task]? = some x from hx)]
    simp only [System.act, if_pos hrun, System.semP]
    rw [if_pos (by omega), if_neg (by omega)]
  have hcount := Tally.countP_set (p := Task.live) (b := { x with phase := .sleeping }) hx
  simp [Task.live, hk] at hcount
  rw [hstep]
  refine not_sound_of_total h.up ?_
  have htotal := h.total_eq
  simp only [total, setPhase] at htotal ⊢
  rw [hk, hcount]
  omega

/-- A semaphore is sound in every state of a run that disturbs no waiter, and the
next operation keeps it sound, once the tasks it woke have gone on, exactly if it
disturbs none either. -/
theorem semaphore_sound {initial n : Nat} {maxValue : Int} {ops : List Op} {s : System}
    (hn : n ≤ numProcess)
    (hrun : Run.Guarded (fun s op => some (System.step s op)) System.Undisturbed
      (System.boot (semInitWithMax initial maxValue) n) ops s) :
    s.Sound initial ∧ ∀ op, (s.step op).drain.Sound initial ↔ s.Undisturbed op := by
  have h : s.Books initial := by
    refine hrun.inv (I := fun s => s.Books initial) (fun hs hC hf => ?_) (.boot hn)
    cases hf
    exact hs.step hC
  refine ⟨h.sound, fun op => ⟨fun hsound => ?_, fun hsafe => (h.step hsafe).drain.sound⟩⟩
  cases op with
  | p t =>
      intro x hx hphase hk
      by_contra hval
      exact h.p_unsound hx hphase hk hval hsound
  | signal t => exact fun x hx hsleep => h.signal_unsound hx hsleep hsound
  | kill t =>
      intro x hx
      refine ⟨fun hs => ?_, fun hw => ?_⟩
      · exact h.kill_unsound hx (.inl hs) hsound
      · exact h.kill_unsound hx (.inr hw) hsound
  | resume t => trivial
  | v t => trivial
  | tryP t => trivial
  | tryV t => trivial

/-- Two tasks share one permit, the second waits until the first gives it back. -/
theorem semaphore_sound_handover :
    ((System.boot (semInit 1) 2).step (.p 0)).Sound 1 ∧
      (((((System.boot (semInit 1) 2).step (.p 0)).step (.p 1)).step (.v 0)).step
        (.resume 1)).Sound 1 := by
  have hone : Run.Guarded (fun s op => some (step s op)) System.Undisturbed
      (boot (semInitWithMax (1 : Nat) (-1)) 2) [.p 0] _ := .of_foldlM rfl
  have hfour : Run.Guarded (fun s op => some (step s op)) System.Undisturbed
      (boot (semInitWithMax (1 : Nat) (-1)) 2) [.p 0, .p 1, .v 0, .resume 1] _ :=
    .of_foldlM rfl
  exact ⟨(semaphore_sound (by decide) hone).1, (semaphore_sound (by decide) hfour).1⟩

/-- The mutex of a block device: task 0 holds it and task 1 waits. A signal lets
task 1 in as well. If task 1 is killed instead, the permit that task 0 gives back
is gone, and task 2 waits for good although nobody holds anything. -/
theorem disturbed_waiter :
    let held := ((System.boot (semInit 1) 3).step (.p 0)).step (.p 1)
    let signalled := (held.step (.signal 1)).step (.resume 1)
    let killed := ((((held.step (.kill 1)).step (.resume 1)).step (.v 0)).step (.p 2))
    (signalled.completed = 2 ∧ signalled.released = 0) ∧
      killed.completed = 1 ∧ killed.released = 1 ∧
      killed.tasks = [⟨.running, false⟩, ⟨.exited, true⟩, ⟨.sleeping, false⟩] := by
  decide

end F7ly.Proc.Semaphore
