import F7ly.Proc.Kill

/-!
# Who a signal reaches

`Obeys` is the rule a sending call has to keep: a slot it adds the signal for
is one the caller may signal by the rule of `tkill`, and the other slots stay
as they are. `tkill` and `tgkill` keep it always. `kill_signal` decides by
`pid` and asks for permission in one of its branches only, so what it takes
for the rule to hold is a condition on the slots it selects.
-/

namespace F7ly.Proc.Signal

structure Obeys (cur : Pcb) (pool : List Pcb) (out : Outcome) : Prop where
  permitted : ∀ i ∈ out.sent, ∃ p, pool[i]? = some p ∧ permitted cur p = true
  rest : ∀ i, i ∉ out.sent → out.pool[i]? = pool[i]?

variable {sig : Nat} {info : Option SigInfo}

theorem addSignal_ok (info : Option SigInfo) (h1 : 1 ≤ sig) (h64 : sig ≤ sigRtMax) (t : Task) :
    ∃ t', t.addSignal sig info = .ok t' := by
  rw [Task.addSignal, if_neg (by omega)]
  cases info with
  | none => exact ⟨_, rfl⟩
  | some info => exact ⟨_, rfl⟩

theorem killSignal_ok (info : Option SigInfo) (h1 : 1 ≤ sig) (h64 : sig ≤ sigRtMax) (p : Pcb) :
    ∃ p', signalPcb (·.killSignal sig info) p = .ok p' := by
  obtain ⟨t, ht⟩ := addSignal_ok info h1 h64 p.task
  rw [signalPcb, Task.killSignal, if_neg (by omega), ht]
  exact ⟨_, rfl⟩

theorem tkill_ok (info : Option SigInfo) (h1 : 1 ≤ sig) (h64 : sig ≤ sigRtMax) (p : Pcb) :
    ∃ p', signalPcb (·.tkill sig info) p = .ok p' := by
  obtain ⟨t, ht⟩ := addSignal_ok info h1 h64 p.task
  rw [signalPcb, Task.tkill, if_neg (by omega), ht]
  exact ⟨_, rfl⟩

/-- Slot `i` holds a process that the scan selects. -/
def Selected (select : Pcb → Bool) (pool : List Pcb) (i : Nat) : Prop :=
  ∃ p, pool[i]? = some p ∧ select p = true ∧ p.inUse = true

variable {select : Pcb → Bool} {p : Pcb}

theorem selected_cons_zero {ps : List Pcb} :
    Selected select (p :: ps) 0 ↔ (select p && p.inUse) = true := by
  simp [Selected]

theorem selected_cons_succ {ps : List Pcb}
    {i : Nat} : Selected select (p :: ps) (i + 1) ↔ Selected select ps i := by
  simp [Selected]

theorem killScan_ok (info : Option SigInfo) (select : Pcb → Bool) (h1 : 1 ≤ sig)
    (h64 : sig ≤ sigRtMax) :
    ∀ (pool : List Pcb) (slot : Nat), ∃ scan, killScan select sig info slot pool = .ok scan ∧
      (∀ i, slot + i ∈ scan.sent ↔ Selected select pool i) ∧ (∀ j ∈ scan.sent, slot ≤ j) ∧
      ∀ i, slot + i ∉ scan.sent → scan.pool[i]? = pool[i]? := by
  intro pool
  induction pool with
  | nil =>
      intro slot
      exact ⟨_, rfl, by simp [Selected], by simp, fun i _ => rfl⟩
  | cons p ps ih =>
      intro slot
      obtain ⟨scan, hscan, hsent, hlow, hrest⟩ := ih (slot + 1)
      have hstep : ∀ i, slot + (i + 1) = slot + 1 + i := fun i => by omega
      have hzero : slot ∉ scan.sent := fun hmem => by
        have := hlow slot hmem
        omega
      rw [killScan]
      by_cases hsel : (select p && p.inUse) = true
      · obtain ⟨p', hp'⟩ := killSignal_ok info h1 h64 p
        rw [if_pos hsel, hp', hscan]
        have hcons : sentTo sig slot ++ scan.sent = slot :: scan.sent := by
          rw [sentTo, if_neg (by omega)]
          rfl
        refine ⟨_, rfl, fun i => ?_, fun j hj => ?_, fun i hi => ?_⟩
        · rw [hcons]
          cases i with
          | zero => simp [selected_cons_zero, hsel]
          | succ i =>
              rw [selected_cons_succ, ← hsent i, hstep i, List.mem_cons]
              exact or_iff_right (by omega)
        · rw [hcons] at hj
          rcases List.mem_cons.mp hj with rfl | hj
          · exact Nat.le_refl _
          · exact Nat.le_of_succ_le (hlow j hj)
        · rw [hcons] at hi
          cases i with
          | zero => exact absurd List.mem_cons_self hi
          | succ i =>
              rw [hstep i] at hi
              exact hrest i fun hmem => hi (List.mem_cons_of_mem _ hmem)
      · rw [if_neg hsel, hscan]
        refine ⟨_, rfl, fun i => ?_, fun j hj => ?_, fun i hi => ?_⟩
        · cases i with
          | zero => simp [selected_cons_zero, hsel, hzero]
          | succ i => rw [selected_cons_succ, ← hsent i, hstep i]
        · exact Nat.le_of_succ_le (hlow j hj)
        · cases i with
          | zero => rfl
          | succ i =>
              rw [hstep i] at hi
              exact hrest i hi

theorem findAndSend_ok (select : Pcb → Bool) (h1 : 1 ≤ sig) {deliver : Pcb → Except KillPanic Pcb}
    (hd : ∀ p, ∃ p', deliver p = .ok p') :
    ∀ (pool : List Pcb) (slot : Nat), ∃ r, findAndSend select sig deliver slot pool = .ok r ∧
      match pool.find? fun p => select p && p.inUse with
      | none => r = none
      | some p => ∃ scan i, r = some scan ∧ pool[i]? = some p ∧
          scan.sent = [slot + i] ∧ ∀ j, j ≠ i → scan.pool[j]? = pool[j]? := by
  intro pool
  induction pool with
  | nil => exact fun slot => ⟨none, rfl, rfl⟩
  | cons p ps ih =>
      intro slot
      rw [findAndSend]
      by_cases hsel : (select p && p.inUse) = true
      · obtain ⟨p', hp'⟩ := hd p
        rw [if_pos hsel, hp', List.find?_cons_of_pos (p := fun p => select p && p.inUse) hsel]
        refine ⟨_, rfl, _, 0, rfl, rfl, ?_, fun j hj => ?_⟩
        · simp [sentTo, Nat.ne_of_gt h1]
        · obtain ⟨j, rfl⟩ := Nat.exists_eq_succ_of_ne_zero hj
          rfl
      · obtain ⟨r, hr, hfound⟩ := ih (slot + 1)
        rw [if_neg hsel, hr, List.find?_cons_of_neg (p := fun p => select p && p.inUse) hsel]
        cases hf : ps.find? fun p => select p && p.inUse with
        | none =>
            rw [hf] at hfound
            rw [hfound]
            exact ⟨none, rfl, rfl⟩
        | some q =>
            rw [hf] at hfound
            obtain ⟨scan, i, rfl, hq, hsent, hrest⟩ := hfound
            refine ⟨_, rfl, _, i + 1, rfl, hq, ?_, fun j hj => ?_⟩
            · rw [hsent]
              exact congrArg (fun n => [n]) (by omega)
            · cases j with
              | zero => rfl
              | succ j => exact hrest j fun h => hj (congrArg (· + 1) h)

variable {cur : Pcb} {pool : List Pcb}

theorem nothingSent_obeys (cur : Pcb) (pool : List Pcb) (result : Int) :
    Obeys cur pool (nothingSent pool result) :=
  ⟨fun _ hi => absurd hi List.not_mem_nil, fun _ _ => rfl⟩

theorem obeys_of_first (cur : Pcb) (result : Int) {scan : Scan}
    {i : Nat} (hp : pool[i]? = some p) (hsent : scan.sent = [0 + i])
    (hrest : ∀ j, j ≠ i → scan.pool[j]? = pool[j]?) :
    Obeys cur pool (scan.outcome result) ↔ permitted cur p = true := by
  rw [Nat.zero_add] at hsent
  constructor
  · intro h
    obtain ⟨q, hq, hok⟩ := h.permitted i (by simp [Scan.outcome, hsent])
    rw [hp] at hq
    cases hq
    exact hok
  · refine fun hok => ⟨fun j hj => ?_, fun j hj => hrest j ?_⟩
    · rw [Scan.outcome, hsent, List.mem_singleton] at hj
      exact ⟨p, hj ▸ hp, hok⟩
    · simpa [Scan.outcome, hsent] using hj

theorem threadKill_obeys (select : Pcb → Bool) (h1 : 1 ≤ sig) (h64 : sig ≤ sigRtMax) :
    ∃ out, threadKill select cur sig info pool = .ok out ∧ Obeys cur pool out ∧
      (out.result ≠ 0 → out = nothingSent pool out.result) := by
  obtain ⟨r, hr, hfound⟩ :=
    findAndSend_ok select h1 (tkill_ok info h1 h64) pool 0
  rw [threadKill]
  cases hf : pool.find? fun p => select p && p.inUse with
  | none => exact ⟨_, rfl, nothingSent_obeys cur pool _, fun _ => rfl⟩
  | some p =>
      rw [hf] at hfound
      obtain ⟨scan, i, rfl, hp, hsent, hrest⟩ := hfound
      dsimp only
      split
      · exact ⟨_, rfl, nothingSent_obeys cur pool _, fun _ => rfl⟩
      · next hok =>
          rw [hr]
          exact ⟨_, rfl, (obeys_of_first cur 0 hp hsent hrest).mpr (by simpa using hok),
            fun h => absurd rfl h⟩

/-- `tkill` and `tgkill` always return, they reach only whom the caller may signal, and a
call that fails changes nothing. -/
theorem thread_signals_obey (cur : Pcb) (info : Option SigInfo) (pool : List Pcb)
    (tgid tid : Int) (h1 : 1 ≤ sig) (h64 : sig ≤ sigRtMax) :
    (∃ out, tkill cur tid sig info pool = .ok out ∧ Obeys cur pool out ∧
      (out.result ≠ 0 → out = nothingSent pool out.result)) ∧
    ∃ out, tgkill cur tgid tid sig info pool = .ok out ∧ Obeys cur pool out ∧
      (out.result ≠ 0 → out = nothingSent pool out.result) :=
  ⟨threadKill_obeys _ h1 h64, threadKill_obeys _ h1 h64⟩

/-- A group scan obeys the rule if the caller may signal everyone it
selects. -/
theorem obeys_of_scan (cur : Pcb) {scan : Scan}
    (hsent : ∀ i, 0 + i ∈ scan.sent ↔ Selected select pool i)
    (hrest : ∀ i, 0 + i ∉ scan.sent → scan.pool[i]? = pool[i]?) :
    Obeys cur pool scan.groupOutcome ↔
      ∀ p ∈ pool, select p = true → p.inUse = true → permitted cur p = true := by
  simp only [Nat.zero_add] at hsent hrest
  constructor
  · intro h p hmem hsel huse
    obtain ⟨i, hi⟩ := List.mem_iff_getElem?.mp hmem
    obtain ⟨q, hq, hok⟩ := h.permitted i ((hsent i).mpr ⟨p, hi, hsel, huse⟩)
    rw [hi] at hq
    cases hq
    exact hok
  · refine fun hall => ⟨fun i hi => ?_, hrest⟩
    obtain ⟨p, hp, hsel, huse⟩ := (hsent i).mp hi
    exact ⟨p, hp, hall p (List.mem_of_getElem? hp) hsel huse⟩

/-- The rule of the branch for a negative group is narrower than that of
`tkill`. -/
theorem permitted_of_groupPermitted (h : groupPermitted cur p = true) : permitted cur p = true := by
  simp only [groupPermitted, permitted, Bool.or_eq_true, beq_iff_eq] at h ⊢
  rcases h with h | h
  · simp [h]
  · simp [h]

/-- What `kill_signal` does not check itself: the slot it finds for a positive
`pid` and the slots of the caller's own group are ones the caller may signal,
and `pid` is not `-1`. -/
structure MaySignal (cur : Pcb) (pid : Int) (pool : List Pcb) : Prop where
  notAll : pid ≠ -1
  one : 0 < pid → ∀ p, (pool.find? fun p => p.pid == pid && p.inUse) = some p →
    permitted cur p = true
  group : pid = 0 → ∀ p ∈ pool, p.pgid = cur.pgid → p.inUse = true → permitted cur p = true

theorem killSignal_obeys_iff (info : Option SigInfo) (h1 : 1 ≤ sig)
    (h64 : sig ≤ sigRtMax) (pid : Int) :
    (∃ out, killSignal cur pid sig info pool = .ok out ∧ Obeys cur pool out) ↔
      MaySignal cur pid pool := by
  rw [killSignal]
  split
  · next hpos =>
      have hgroup : pid = 0 → ∀ p ∈ pool, p.pgid = cur.pgid → p.inUse = true →
          permitted cur p = true := fun h => absurd h (by omega)
      obtain ⟨r, hr, hfound⟩ := findAndSend_ok (·.pid == pid) h1
        (killSignal_ok info h1 h64) pool 0
      rw [hr]
      cases hf : pool.find? fun p => p.pid == pid && p.inUse with
      | none =>
          rw [hf] at hfound
          rw [hfound]
          refine ⟨fun _ => ⟨by omega, fun _ p hp => ?_, hgroup⟩,
            fun _ => ⟨_, rfl, nothingSent_obeys cur pool _⟩⟩
          rw [hf] at hp
          cases hp
      | some p =>
          rw [hf] at hfound
          obtain ⟨scan, i, rfl, hp, hsent, hrest⟩ := hfound
          have hiff := obeys_of_first cur 0 hp hsent hrest
          constructor
          · intro ⟨out, hout, hobeys⟩
            cases hout
            refine ⟨by omega, fun _ q hq => ?_, hgroup⟩
            rw [hf] at hq
            cases hq
            exact hiff.mp hobeys
          · exact fun h => ⟨_, rfl, hiff.mpr (h.one hpos p hf)⟩
  next hpos =>
  split
  · next hzero =>
      obtain ⟨scan, hscan, hsent, -, hrest⟩ :=
        killScan_ok info (·.pgid == cur.pgid) h1 h64 pool 0
      have hiff := obeys_of_scan cur hsent hrest
      rw [hscan]
      constructor
      · intro ⟨out, hout, hobeys⟩
        cases hout
        refine ⟨by omega, fun h => absurd h hpos, fun _ p hp hg huse => ?_⟩
        exact hiff.mp hobeys p hp (by simpa using hg) huse
      · refine fun h => ⟨_, rfl, hiff.mpr fun p hp hg huse => ?_⟩
        exact h.group hzero p hp (by simpa using hg) huse
  next hzero =>
  split
  · next hall =>
      constructor
      · intro ⟨out, hout, _⟩
        cases hout
      · exact fun h => absurd hall h.notAll
  next hall =>
  obtain ⟨scan, hscan, hsent, -, hrest⟩ := killScan_ok info
    (fun p => p.pgid == -pid && groupPermitted cur p) h1 h64 pool 0
  rw [hscan]
  refine ⟨fun _ => ⟨hall, fun h => absurd h hpos, fun h => absurd h hzero⟩,
    fun _ => ⟨_, rfl, (obeys_of_scan cur hsent hrest).mpr ?_⟩⟩
  intro p _ hsel _
  exact permitted_of_groupPermitted (Bool.and_eq_true_iff.mp hsel).2

/-- The system call keeps the rule, and returns, exactly if `MaySignal` holds.
`INT_MIN` it turns away itself. -/
theorem sysKillSignal_obeys_iff (cur : Pcb) (pool : List Pcb) (pid : Int)
    (sig : Nat) (h1 : 1 ≤ sig) (h64 : sig ≤ sigRtMax) :
    (∃ out, sysKillSignal cur pid sig pool = .ok out ∧ Obeys cur pool out) ↔
      MaySignal cur pid pool := by
  rw [sysKillSignal, if_neg (by omega)]
  split
  · next hmin =>
      rw [intMin] at hmin
      refine ⟨fun _ => ⟨by omega, fun h => absurd h (by omega),
        fun h => absurd h (by omega)⟩, fun _ => ⟨_, rfl, nothingSent_obeys cur pool _⟩⟩
  · rw [← killSignal_obeys_iff none h1 h64 pid, Int.toNat_natCast]
    cases hk : killSignal cur pid sig none pool with
    | error e => exact ⟨fun ⟨_, h, _⟩ => (nomatch h), fun ⟨_, h, _⟩ => (nomatch h)⟩
    | ok out =>
        have hret : ∀ result, Obeys cur pool { out with result } ↔
            Obeys cur pool out := fun _ =>
          ⟨fun h => ⟨h.permitted, h.rest⟩, fun h => ⟨h.permitted, h.rest⟩⟩
        show (∃ o, (if out.result = -1 then Except.ok { out with result := esrch }
          else Except.ok out) = Except.ok o ∧ Obeys cur pool o) ↔ _
        split
        · constructor
          · intro ⟨o, ho, hobeys⟩
            cases ho
            exact ⟨out, rfl, (hret _).mp hobeys⟩
          · intro ⟨o, ho, hobeys⟩
            cases ho
            exact ⟨_, rfl, (hret _).mpr hobeys⟩
        · exact Iff.rfl

def userProcess (uid : UInt32) (pid : Int) : Pcb :=
  { pid, tid := pid, tgid := pid, pgid := pid, uid, euid := uid, suid := uid,
    parent := none, task := .fresh }

theorem sysKillSignal_obeys_own :
    ∃ out, sysKillSignal (userProcess 1000 7) 8 9 [userProcess 1000 8] = .ok out ∧
      Obeys (userProcess 1000 7) [userProcess 1000 8] out := by
  refine (sysKillSignal_obeys_iff _ _ 8 9 (by decide) (by decide)).mpr ?_
  refine ⟨by decide, fun _ p hp => ?_, fun h => absurd h (by decide)⟩
  cases hp
  rfl

theorem thread_signals_obey_system : ∃ out,
    tgkill (userProcess 1000 7) 8 8 9 none [userProcess 0 8] = .ok out ∧
      out.result = epermResult ∧ Obeys (userProcess 1000 7) [userProcess 0 8] out := by
  obtain ⟨out, hout, hobeys, -⟩ := (thread_signals_obey (userProcess 1000 7) none
    [userProcess 0 8] 8 8 (by decide : 1 ≤ 9) (by decide)).2
  cases hout
  exact ⟨_, rfl, rfl, hobeys⟩

/-- A user's process kills one of the system, and any process brings the
kernel down with `pid` `-1`. -/
theorem sysKillSignal_disobeys :
    (¬ ∃ out, sysKillSignal (userProcess 1000 7) 8 9 [userProcess 0 8] = .ok out ∧
      Obeys (userProcess 1000 7) [userProcess 0 8] out) ∧
    sysKillSignal (userProcess 1000 7) (-1) 9 [userProcess 1000 8] = .error .allNotImplemented := by
  refine ⟨fun ⟨out, hout, hobeys⟩ => ?_, rfl⟩
  cases hout
  obtain ⟨p, hp, hok⟩ := hobeys.permitted 0 List.mem_cons_self
  cases hp
  exact absurd hok (by decide)

end F7ly.Proc.Signal
