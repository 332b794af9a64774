import F7ly.Lib.Run
import F7ly.Proofs.MClock

/-!
# Waiting in one class

While one class has flows, a request is taken from the flow at `rr_hint` and the flow
goes to the end of the rotation. A new flow goes to the end of the list instead, and
that is the end of the rotation only while `rr_hint` is at the head of the list:
otherwise the new flow comes in front of those that were passed. Two processes that
submit in turns keep the hint between them and a third one never gets to it
(`served_starves`). Without such an arrival the place of a flow in the rotation is a
bound on the requests served before its first one.
-/

namespace F7ly.Fs.Virtio

open ClassState MClockScheduler List

/-- The first requests of the flows as the round robin meets them. -/
def ClassState.heads (c : ClassState) : List IoRequest := c.rotation.map Flow.first

variable {r x : IoRequest} {fs rest : List Flow} {f : Flow} {c : Fin classCount} {nowUs : UInt64}
  {d : DispatchDecision}

theorem appendRequest_firsts :
    ∀ {fs'}, appendRequest r fs = some fs' → fs'.map Flow.first = fs.map Flow.first := by
  induction fs with
  | nil => exact fun h => nomatch h
  | cons f fs ih =>
      intro fs' h
      rw [appendRequest] at h
      split at h
      · cases h
        rfl
      · obtain ⟨gs, hgs, rfl⟩ := Option.map_eq_some_iff.mp h
        rw [map_cons, map_cons, ih hgs]

/-- A request does not come in front of another if its process has a flow or no flow
has been passed. -/
theorem addRequest_heads {c c' : ClassState} {full : Bool}
    (hcalm : r.submitPid ∈ c.flows.map Flow.pid ∨ c.passed = [])
    (h : c.addRequest full r = some c') : ∃ new, c'.heads = c.heads ++ new := by
  rw [ClassState.addRequest] at h
  split at h
  · next passed hpassed =>
      cases h
      refine ⟨[], ?_⟩
      dsimp only [ClassState.heads, ClassState.rotation]
      rw [map_append, map_append, appendRequest_firsts hpassed, append_nil]
  next hpassed =>
  split at h
  · next coming hcoming =>
      cases h
      refine ⟨[], ?_⟩
      dsimp only [ClassState.heads, ClassState.rotation]
      rw [map_append, map_append, appendRequest_firsts hcoming, append_nil]
  next hcoming =>
  split at h
  · cases h
  cases h
  have hnil : c.passed = [] := by
    refine hcalm.resolve_left fun hmem => ?_
    rw [ClassState.flows, map_append, mem_append] at hmem
    exact hmem.elim (appendRequest_none hpassed) (appendRequest_none hcoming)
  refine ⟨[r], ?_⟩
  dsimp only [ClassState.heads, ClassState.rotation]
  rw [hnil, append_nil, append_nil, map_append]
  rfl

theorem findFlow_append {before after : List Flow} (h : f.pid ∉ before.map Flow.pid) :
    findFlow f.pid (before ++ f :: after) = some (before, f, after) := by
  induction before with
  | nil => exact if_pos rfl
  | cons g before ih =>
      rw [map_cons, mem_cons, not_or] at h
      rw [cons_append, findFlow, if_neg fun heq => h.1 heq.symm, ih h.2]
      rfl

theorem popFlow_rotation {c : ClassState} (hd : Distinct c.flows) (h : c.rotation = f :: rest) :
    ∃ c', c.popFlow f.pid = some (f.first, c') ∧ c'.rotation = rest ++ f.popped ∧
      Distinct c'.flows := by
  have hmem : f ∈ c.flows := by
    have hin : f ∈ c.rotation := h ▸ mem_cons_self
    exact mem_append.mpr (mem_append.mp hin).symm
  obtain ⟨c', hpop, -, hd'⟩ := popFlow_spec hd hmem
  refine ⟨c', hpop, ?_, hd'⟩
  rw [ClassState.rotation] at h
  rw [ClassState.popFlow, ClassState.flows] at hpop
  cases hcoming : c.coming with
  | nil =>
      rw [hcoming, nil_append] at h
      rw [hcoming, h, append_nil, findFlow, if_pos rfl] at hpop
      cases hpop
      split
      · next hrest => rw [hrest]; exact append_nil _
      · rfl
  | cons g coming =>
      rw [hcoming, cons_append] at h
      obtain ⟨rfl, rfl⟩ := cons.inj h
      have hnot : g.pid ∉ c.passed.map Flow.pid := by
        rw [Distinct, ClassState.flows, hcoming, map_append, map_cons] at hd
        exact fun hin => (nodup_append.mp hd).2.2 _ hin _ mem_cons_self rfl
      rw [hcoming, findFlow_append hnot] at hpop
      cases hpop
      split
      · next hrest => rw [hrest]; exact append_nil _
      · exact (append_assoc ..).symm

namespace MClockScheduler

variable {s : MClockScheduler}

theorem dequeueNext_pop (hactive : s.activeClasses = [c])
    (hrotation : (s.classes c).rotation = f :: rest) (hdue : f.first.lTagUs ≤ nowUs)
    {state : ClassState} (hpop : (s.classes c).popFlow f.pid = some (f.first, state)) :
    s.dequeueNext nowUs = some (⟨some f.first, 0⟩, s.setClass c state) := by
  have hdispatch : s.dispatchFlow c f = some (⟨some f.first, 0⟩, s.setClass c state) := by
    rw [dispatchFlow, hpop]
    exact if_neg fun hne => hne rfl
  rw [dequeueNext, dequeueSingle_one nowUs hactive hrotation,
    if_neg (UInt64.not_lt.mpr hdue), hdispatch]
  rfl

theorem dequeueNext_one (h : s.Wf) (nowUs : UInt64) (hactive : s.activeClasses = [c])
    (hrotation : (s.classes c).rotation = f :: rest) :
    (∃ gate, s.dequeueNext nowUs = some (⟨none, gate⟩, s)) ∨
      ∃ state, s.dequeueNext nowUs = some (⟨some f.first, 0⟩, s.setClass c state) ∧
        state.rotation = rest ++ f.popped ∧ Distinct state.flows := by
  by_cases hdue : f.first.lTagUs ≤ nowUs
  · obtain ⟨state, hpop, hrot, hd⟩ := popFlow_rotation (h c) hrotation
    exact .inr ⟨state, dequeueNext_pop hactive hrotation hdue hpop, hrot, hd⟩
  · refine .inl (dequeueNext_not_due fun hd => hdue ?_)
    obtain ⟨g, hg, hle⟩ := (due_one nowUs hactive).mp hd
    rw [hrotation] at hg
    cases hg
    exact hle

theorem mem_activeClasses (h : (s.classes c).rotation ≠ []) : c ∈ s.activeClasses := by
  refine mem_filter.mpr ⟨mem_finRange c, decide_eq_true fun hflows => h ?_⟩
  obtain ⟨hpassed, hcoming⟩ := append_eq_nil_iff.mp hflows
  rw [ClassState.rotation, hpassed, hcoming]
  rfl

theorem flowsInUse_eq (s : MClockScheduler) (c : Fin classCount) :
    s.flowsInUse = (s.classes c).flows.length +
      (((finRange classCount).erase c).map fun c => (s.classes c).flows.length).sum :=
  ((perm_cons_erase (mem_finRange c)).map _).sum_eq

theorem flowsInUse_setClass (s : MClockScheduler) (c : Fin classCount) (state : ClassState) :
    (s.setClass c state).flowsInUse + (s.classes c).flows.length =
      s.flowsInUse + state.flows.length := by
  have hothers : ((finRange classCount).erase c).map
        (fun c' => ((s.setClass c state).classes c').flows.length) =
      ((finRange classCount).erase c).map fun c' => (s.classes c').flows.length := by
    refine map_congr_left fun c' hc' => ?_
    have hne : c' ≠ c := ((nodup_finRange _).mem_erase_iff.mp hc').1
    rw [setClass_of_ne s state hne]
  rw [flowsInUse_eq _ c, flowsInUse_eq s c, setClass_self, hothers]
  omega

end MClockScheduler

theorem appendRequest_length {fs' : List Flow}
    (h : appendRequest r fs = some fs') : fs'.length = fs.length := by
  have hlen := congrArg length (appendRequest_some h).2
  rwa [length_map, length_map] at hlen

theorem addRequest_length {c c' : ClassState} {full : Bool} (h : c.addRequest full r = some c') :
    c'.flows.length ≤ c.flows.length + (!full).toNat := by
  rw [addRequest] at h
  split at h
  · next passed hpassed =>
      cases h
      simp only [flows, length_append, appendRequest_length hpassed]
      omega
  split at h
  · next coming hcoming =>
      cases h
      simp only [flows, length_append, appendRequest_length hcoming]
      omega
  split at h
  · cases h
  next hfull =>
  cases h
  simp only [hfull, flows, length_append, length_singleton]
  simp only [Bool.not_false, Bool.toNat_true]
  omega

theorem popFlow_length {c c' : ClassState} {pid : Nat}
    (h : c.popFlow pid = some (r, c')) : c'.flows.length ≤ c.flows.length := by
  obtain ⟨⟨before, f, after⟩, hfind, heq⟩ := Option.map_eq_some_iff.mp h
  obtain ⟨hflows, -⟩ := findFlow_some hfind
  have hpopped : f.popped.length ≤ 1 := by
    rw [Flow.popped]
    split
    · exact Nat.zero_le 1
    · exact Nat.le_refl 1
  cases heq
  rw [hflows]
  split
  · simp only [flows, length_append, length_cons, length_nil]
    omega
  · simp only [flows, length_append, length_cons]
    omega

namespace MClockScheduler

variable {s s' : MClockScheduler}

theorem enqueue_some {ewmaBps : UInt64} (h : s.enqueue r nowUs ewmaBps = some s') :
    ∃ (c : Fin classCount) (state state' : ClassState),
      c = niceToServiceClass r.submitNice ∧ s' = s.setClass c state' ∧
      state.passed = (s.classes c).passed ∧ state.coming = (s.classes c).coming ∧
      ∃ r' : IoRequest, r'.submitPid = r.submitPid ∧
        state.addRequest (maxFlows ≤ s.flowsInUse) r' = some state' := by
  obtain ⟨state', hadd, rfl⟩ := Option.map_eq_some_iff.mp h
  let tagged := (s.classes (niceToServiceClass r.submitNice)).tag
    (niceToServiceClass r.submitNice) r nowUs ewmaBps
  exact ⟨_, tagged.2, state', rfl, rfl, rfl, rfl, tagged.1, rfl, hadd⟩

theorem enqueue_heads {ewmaBps : UInt64} (h : s.enqueue r nowUs ewmaBps = some s')
    (hcalm : r.submitPid ∈ (s.classes (niceToServiceClass r.submitNice)).flows.map Flow.pid ∨
      (s.classes (niceToServiceClass r.submitNice)).passed = []) (c : Fin classCount) :
    ∃ new, (s'.classes c).heads = (s.classes c).heads ++ new := by
  obtain ⟨c', state, state', rfl, rfl, hpassed, hcoming, r', hpid, hadd⟩ := enqueue_some h
  by_cases hc : c = niceToServiceClass r.submitNice
  · subst hc
    rw [← hpid, flows, ← hpassed, ← hcoming] at hcalm
    obtain ⟨new, hnew⟩ := addRequest_heads hcalm hadd
    refine ⟨new, ?_⟩
    rw [setClass_self, hnew, ClassState.heads, ClassState.heads, ClassState.rotation,
      ClassState.rotation, hpassed, hcoming]
  · rw [setClass_of_ne _ _ hc]
    exact ⟨[], (append_nil _).symm⟩

theorem dequeueNext_heads (hs : s.Wf) (hone : s.activeClasses.length ≤ 1) {xs : List IoRequest}
    (hheads : (s.classes c).heads = x :: xs) (h : s.dequeueNext nowUs = some (d, s')) :
    (d.request = none ∧ s' = s) ∨
      (d.request = some x ∧ ∃ new, (s'.classes c).heads = xs ++ new) := by
  obtain ⟨f, rest, hrotation, rfl, rfl⟩ := map_eq_cons_iff.mp hheads
  have hmem : c ∈ s.activeClasses :=
    mem_activeClasses (by rw [hrotation]; exact cons_ne_nil _ _)
  have hactive : s.activeClasses = [c] := by
    obtain ⟨c', hc'⟩ : ∃ c', s.activeClasses = [c'] :=
      length_eq_one_iff.mp (Nat.le_antisymm hone (length_pos_of_mem hmem))
    rw [hc'] at hmem ⊢
    rw [mem_singleton.mp hmem]
  rcases dequeueNext_one hs nowUs hactive hrotation with ⟨gate, heq⟩ | ⟨state, heq, hstate, -⟩
  · rw [heq] at h
    cases h
    exact .inl ⟨rfl, rfl⟩
  · rw [heq] at h
    cases h
    refine .inr ⟨rfl, f.popped.map Flow.first, ?_⟩
    rw [setClass_self, heads, hstate, map_append]

theorem dispatchFlow_pool
    (h : s.dispatchFlow c f = some (d, s')) : s'.flowsInUse ≤ s.flowsInUse := by
  obtain ⟨⟨r, state⟩, hpop, h⟩ := Option.bind_eq_some_iff.mp h
  dsimp only at h
  split at h
  · cases h
  · cases h
    have hlen := popFlow_length hpop
    have hsum := flowsInUse_setClass s c state
    omega

theorem dequeueNext_cases (h : s.dequeueNext nowUs = some (d, s')) :
    s' = s ∨ ∃ c f, s.dispatchFlow c f = some (d, s') := by
  obtain ⟨single, hsingle, h⟩ := Option.bind_eq_some_iff.mp h
  split at h
  · cases h
    rw [dequeueSingleActiveClass] at hsingle
    repeat' split at hsingle
    all_goals first | exact .inr ⟨_, _, hsingle⟩ | (cases hsingle; exact .inl rfl)
  · split at h
    · cases h
      exact .inl rfl
    · exact .inr ⟨_, _, h⟩

theorem dequeueNext_wf (hs : s.Wf) (h : s.dequeueNext nowUs = some (d, s')) : s'.Wf := by
  by_cases hdue : s.Due nowUs
  · obtain ⟨r, s'', heq, -, -, hwf⟩ := dequeueNext_due hs hdue
    rw [heq] at h
    cases h
    exact hwf
  · obtain ⟨gate, heq⟩ := dequeueNext_not_due hdue
    rw [heq] at h
    cases h
    exact hs

end MClockScheduler

inductive MClockOp where
  | enqueue (r : IoRequest) (nowUs ewmaBps : UInt64)
  | dequeue (nowUs : UInt64)

/-- The scheduler, and the requests it has given out. -/
structure Service where
  sched : MClockScheduler
  served : List IoRequest

variable {t : Service}

namespace Service

def start : Service := ⟨.empty, []⟩

def step (t : Service) : MClockOp → Option Service
  | .enqueue r nowUs ewmaBps =>
      (t.sched.enqueue r nowUs ewmaBps).map fun s => { t with sched := s }
  | .dequeue nowUs =>
      (t.sched.dequeueNext nowUs).map fun p => ⟨p.2, t.served ++ p.1.request.toList⟩

/-- A process without a flow submits only while `rr_hint` is at the head of the list of
its class, and a request is taken only while at most one class has flows. -/
def Calm (t : Service) : MClockOp → Prop
  | .enqueue r _ _ =>
      r.submitPid ∈ (t.sched.classes (niceToServiceClass r.submitNice)).flows.map Flow.pid ∨
        (t.sched.classes (niceToServiceClass r.submitNice)).passed = []
  | .dequeue _ => t.sched.activeClasses.length ≤ 1

instance (t : Service) : ∀ op, Decidable (t.Calm op)
  | .enqueue _ _ _ => inferInstanceAs (Decidable (_ ∨ _))
  | .dequeue _ => inferInstanceAs (Decidable (_ ≤ _))

/-- What every run keeps: the flows of a class belong to different processes, and there
are no more than the pool has. -/
structure Ok (t : Service) : Prop where
  wf : t.sched.Wf
  pool : t.sched.flowsInUse ≤ maxFlows

theorem ok_start : start.Ok := by
  refine ⟨fun c => nodup_nil, ?_⟩
  decide

theorem Ok.step {t' : Service} {op : MClockOp} (ht : t.Ok) (h : t.step op = some t') : t'.Ok := by
  cases op with
  | enqueue r nowUs ewmaBps =>
      obtain ⟨s, hs, rfl⟩ := Option.map_eq_some_iff.mp h
      obtain ⟨c, state, state', _, rfl, hpassed, hcoming, r', _, hadd⟩ :=
        enqueue_some hs
      have hflows : state.flows = (t.sched.classes c).flows := by
        rw [flows, flows, hpassed, hcoming]
      refine ⟨ht.wf.setClass (addRequest_some ?_ hadd).2, ?_⟩
      · rw [hflows]
        exact ht.wf c
      · have hlen := addRequest_length hadd
        have hsum := t.sched.flowsInUse_setClass c state'
        have hpool := ht.pool
        rw [hflows] at hlen
        by_cases hfull : maxFlows ≤ t.sched.flowsInUse
        · simp only [hfull, decide_true, Bool.not_true, Bool.toNat_false] at hlen
          dsimp only
          omega
        · simp only [hfull, decide_false, Bool.not_false, Bool.toNat_true] at hlen
          dsimp only
          omega
  | dequeue nowUs =>
      obtain ⟨⟨d, s⟩, hs, rfl⟩ := Option.map_eq_some_iff.mp h
      refine ⟨dequeueNext_wf ht.wf hs, ?_⟩
      rcases dequeueNext_cases hs with rfl | ⟨c, f, hdispatch⟩
      · exact ht.pool
      · exact Nat.le_trans (dispatchFlow_pool hdispatch) ht.pool

theorem served_step {t' : Service} {op : MClockOp} (h : t.step op = some t') :
    ∃ later, t'.served = t.served ++ later := by
  cases op with
  | enqueue r nowUs ewmaBps =>
      obtain ⟨s, -, rfl⟩ := Option.map_eq_some_iff.mp h
      exact ⟨[], (append_nil _).symm⟩
  | dequeue nowUs =>
      obtain ⟨⟨d, s⟩, -, rfl⟩ := Option.map_eq_some_iff.mp h
      exact ⟨_, rfl⟩

theorem served_run {C : Service → MClockOp → Prop} {t' : Service} {ops : List MClockOp}
    (h : Run.Guarded step C t ops t') : ∃ later, t'.served = t.served ++ later := by
  induction h with
  | nil t => exact ⟨[], (append_nil _).symm⟩
  | cons _ hf _ ih =>
      obtain ⟨l, hl⟩ := served_step hf
      obtain ⟨l', hl'⟩ := ih
      exact ⟨l ++ l', by rw [hl', hl, append_assoc]⟩

/-- A request with others in front of it in the rotation: at most so many are served
before it. -/
theorem served_before {t' : Service} {ops : List MClockOp} (ht : t.Ok)
    (h : Run.Guarded step Calm t ops t') :
    ∀ before after, (t.sched.classes c).heads = before ++ x :: after →
      ∃ later, t'.served = t.served ++ later ∧
        (later.takeWhile (· ≠ x)).length ≤ before.length := by
  induction h with
  | nil t => exact fun _ _ _ => ⟨[], (append_nil _).symm, Nat.zero_le _⟩
  | @cons t t₁ t' op ops hC hf hrest ih =>
      intro before after hheads
      have ht₁ := ht.step hf
      cases op with
      | enqueue r nowUs ewmaBps =>
          obtain ⟨s, hs, rfl⟩ := Option.map_eq_some_iff.mp hf
          obtain ⟨new, hnew⟩ := enqueue_heads hs hC c
          refine ih ht₁ before (after ++ new) ?_
          rw [hnew, hheads, append_assoc, cons_append]
      | dequeue nowUs =>
          obtain ⟨⟨d, s⟩, hs, rfl⟩ := Option.map_eq_some_iff.mp hf
          cases before with
          | nil =>
              rcases dequeueNext_heads ht.wf hC hheads hs with
                ⟨hnone, rfl⟩ | ⟨hsome, -⟩
              · obtain ⟨later, hlater, hle⟩ := ih ht₁ [] after hheads
                exact ⟨later, by rw [hlater, hnone]; simp, hle⟩
              · obtain ⟨later, hlater⟩ := served_run hrest
                exact ⟨x :: later, by rw [hlater, hsome]; simp, by simp⟩
          | cons y before =>
              rw [cons_append] at hheads
              rcases dequeueNext_heads ht.wf hC hheads hs with
                ⟨hnone, rfl⟩ | ⟨hsome, new, hnew⟩
              · obtain ⟨later, hlater, hle⟩ := ih ht₁ (y :: before) after hheads
                exact ⟨later, by rw [hlater, hnone]; simp, hle⟩
              · obtain ⟨later, hlater, hle⟩ := ih ht₁ before (after ++ new)
                  (by rw [hnew, append_assoc, cons_append])
                refine ⟨y :: later, by rw [hlater, hsome]; simp, ?_⟩
                rw [takeWhile_cons, length_cons]
                split
                · rw [length_cons]
                  omega
                · exact Nat.zero_le _

end Service

/-- From any reached state, a request that is first in its flow waits for at most as many
requests of its class as there can be flows, in every run without a newcomer in front of
the flows that were passed and with one class at a time. -/
theorem served_before_le {ops ops' : List MClockOp} {t t' : Service} {c : Fin classCount}
    {x : IoRequest} (hr : Run.Guarded Service.step (fun _ _ => True) .start ops t)
    (hx : x ∈ (t.sched.classes c).flows.map Flow.first)
    (hr' : Run.Guarded Service.step Service.Calm t ops' t') :
    ∃ later, t'.served = t.served ++ later ∧ ((later.takeWhile (· ≠ x)).filter
        fun r => niceToServiceClass r.submitNice = c).length ≤ maxFlows := by
  have ht := hr.inv (fun ht _ h => ht.step h) Service.ok_start
  have hperm : (t.sched.classes c).rotation.Perm (t.sched.classes c).flows :=
    perm_append_comm
  have hin : x ∈ (t.sched.classes c).heads := ((hperm.map Flow.first).mem_iff).mpr hx
  obtain ⟨before, after, hheads⟩ := append_of_mem hin
  obtain ⟨later, hlater, hle⟩ := Service.served_before ht hr' before after hheads
  refine ⟨later, hlater, ?_⟩
  have hlen : before.length < (t.sched.classes c).flows.length := by
    have := congrArg length hheads
    rw [heads, length_map, hperm.length_eq, length_append, length_cons] at this
    omega
  have hpool := ht.pool
  rw [t.sched.flowsInUse_eq c] at hpool
  exact Nat.le_trans (length_filter_le ..) (by omega)

def diskRead (id pid : Nat) : IoRequest :=
  { id, dataLen := 512, startSector := 0, write := false, requestBytes := 512,
    submitPid := pid, submitNice := 0 }

def defaultClass : Fin classCount := niceToServiceClass 0

def firstReads : List MClockOp := [.enqueue (diskRead 1 1) 0 0, .enqueue (diskRead 2 2) 0 0]

/-- Processes 1 and 2 have a flow each; process 1 submits once more, process 3 begins, and
then process 1 is served before process 2. -/
theorem served_before_le_second :
    ∃ t t' x, Run.Guarded Service.step Service.Calm t [.enqueue (diskRead 3 1) 0 0,
        .enqueue (diskRead 4 3) 0 0, .dequeue 0, .dequeue 0] t' ∧
      x.submitPid = 2 ∧ x ∈ t'.served ∧ t'.served.map (·.submitPid) = [1, 2] ∧
      ∃ later, t'.served = t.served ++ later ∧ ((later.takeWhile (· ≠ x)).filter
          fun r => niceToServiceClass r.submitNice = defaultClass).length ≤ maxFlows := by
  have hr : Run.Guarded Service.step (fun _ _ => True) .start firstReads
      ((firstReads.foldlM Service.step .start).getD .start) := .of_foldlM rfl
  have hr' : Run.Guarded Service.step Service.Calm
      ((firstReads.foldlM Service.step .start).getD .start) [.enqueue (diskRead 3 1) 0 0,
        .enqueue (diskRead 4 3) 0 0, .dequeue 0, .dequeue 0] _ := .of_foldlM rfl
  exact ⟨_, _, _, hr', rfl, mem_cons_of_mem _ mem_cons_self, rfl,
    served_before_le hr (mem_cons_of_mem _ mem_cons_self) hr'⟩

theorem setClass_setClass (s : MClockScheduler) (c : Fin classCount) (state state' : ClassState) :
    (s.setClass c state).setClass c state' = s.setClass c state' :=
  congrArg MClockScheduler.mk (Function.update_idem ..)

theorem activeClasses_setClass (c : Fin classCount) {state : ClassState} (h : state.flows ≠ []) :
    (empty.setClass c state).activeClasses = [c] := by
  have hfilter : ∀ c' : Fin classCount, decide (((empty.setClass c state).classes c').flows ≠ []) =
        decide (c' = c) := by
    intro c'
    by_cases hc : c' = c
    · rw [hc, setClass_self]
      simp [h]
    · rw [setClass_of_ne _ _ hc]
      simp [hc, empty, flows]
  have hself : ∀ c : Fin classCount,
      (finRange classCount).filter (fun c' => decide (c' = c)) = [c] := by decide
  rw [activeClasses, filter_congr fun c' _ => hfilter c', hself]

/-- The flow of `x` was passed, and the flows `coming` are next. -/
def starved (x : IoRequest) (state : ClassState) (coming : List Flow) : MClockScheduler :=
  empty.setClass defaultClass { state with passed := [⟨1, x, []⟩], coming }

/-- A turn: another process submits, and a request is taken. It is not that of `x`. -/
theorem starved_turn {pid pid' : Nat} (hr : r.lTagUs = 0) (state : ClassState)
    (served : List IoRequest) (id : Nat) (hpid : pid ≠ pid') (hone : 1 ≠ pid') (hp : 1 ≠ pid) :
    ∃ state' r', [.enqueue (diskRead id pid') 0 0, .dequeue 0].foldlM Service.step
        ⟨starved x state [⟨pid, r, []⟩], served⟩ =
          some ⟨starved x state' [⟨pid', r', []⟩], served ++ [r]⟩ ∧
      r'.lTagUs = 0 ∧ r'.id = id ∧ r'.submitNice = 0 := by
  have hself : (starved x state [⟨pid, r, []⟩]).classes defaultClass =
      { state with passed := [⟨1, x, []⟩], coming := [⟨pid, r, []⟩] } :=
    MClockScheduler.setClass_self ..
  obtain ⟨⟨r', state'⟩, htag⟩ : ∃ tagged, ((starved x state [⟨pid, r, []⟩]).classes
      defaultClass).tag defaultClass (diskRead id pid') 0 0 = tagged := ⟨_, rfl⟩
  have hroom : ¬ maxFlows ≤ (starved x state [⟨pid, r, []⟩]).flowsInUse := by
    have hsum := MClockScheduler.empty.flowsInUse_setClass defaultClass
      { state with passed := [⟨1, x, []⟩], coming := [⟨pid, r, []⟩] }
    have htwo : (starved x state [⟨pid, r, []⟩]).flowsInUse = 2 := hsum.trans (by rfl)
    rw [htwo]
    decide
  have henq : (starved x state [⟨pid, r, []⟩]).enqueue (diskRead id pid') 0 0 =
      some (starved x state' [⟨pid, r, []⟩, ⟨pid', r', []⟩]) := by
    have hclass : niceToServiceClass (diskRead id pid').submitNice = defaultClass := rfl
    simp only [MClockScheduler.enqueue, hclass, htag, hroom]
    rw [hself] at htag
    cases htag
    simp [ClassState.addRequest, appendRequest, diskRead, hpid, hone, starved, setClass_setClass]
  have hdeq : (starved x state' [⟨pid, r, []⟩, ⟨pid', r', []⟩]).dequeueNext 0 =
      some (⟨some r, 0⟩, starved x state' [⟨pid', r', []⟩]) := by
    have hself := MClockScheduler.empty.setClass_self defaultClass { state' with
      passed := [⟨1, x, []⟩], coming := [⟨pid, r, []⟩, ⟨pid', r', []⟩] }
    have hpop : ClassState.popFlow { state' with
        passed := [⟨1, x, []⟩], coming := [⟨pid, r, []⟩, ⟨pid', r', []⟩] } pid =
        some (r, { state' with passed := [⟨1, x, []⟩], coming := [⟨pid', r', []⟩] }) := by
      simp [ClassState.popFlow, ClassState.flows, findFlow, Flow.popped, hp]
    rw [starved, MClockScheduler.dequeueNext_pop
      (activeClasses_setClass defaultClass (by simp [ClassState.flows]))
      (congrArg ClassState.rotation hself) (UInt64.le_of_eq hr) (hself.symm ▸ hpop),
      setClass_setClass]
    rfl
  refine ⟨state', r', ?_, ?_⟩
  · rw [foldlM_cons, Service.step, henq, Option.map_some, Option.bind_eq_bind,
      Option.bind_some, foldlM_cons, Service.step, hdeq]
    rfl
  · cases htag
    exact ⟨rfl, rfl, rfl⟩

def turns : Nat → List MClockOp
  | 0 => []
  | n + 1 => turns n ++ [.enqueue (diskRead (n + 3) (2 + (n + 1) % 2)) 0 0, .dequeue 0]

theorem starved_turns (x : IoRequest) {t : Service}
    (h : ∃ state r, t.sched = starved x state [⟨2, r, []⟩] ∧ r.lTagUs = 0 ∧ r.id = 2 ∧
      r.submitNice = 0) (n : Nat) :
    ∃ state r later, (turns n).foldlM Service.step t =
        some ⟨starved x state [⟨2 + n % 2, r, []⟩], t.served ++ later⟩ ∧
      r.lTagUs = 0 ∧ r.id = n + 2 ∧ r.submitNice = 0 ∧ later.length = n ∧
      ∀ q ∈ later, 2 ≤ q.id ∧ q.submitNice = 0 := by
  induction n with
  | zero =>
      obtain ⟨state, r, hsched, hr⟩ := h
      exact ⟨state, r, [], by rw [← hsched, append_nil]; rfl, hr.1, hr.2.1, hr.2.2, rfl, by simp⟩
  | succ n ih =>
      obtain ⟨state, r, later, hrun, htag, hid, hnice, hlen, hall⟩ := ih
      obtain ⟨state', r', hturn, hr'⟩ := starved_turn (x := x) htag state (t.served ++ later)
        (n + 3) (show 2 + n % 2 ≠ 2 + (n + 1) % 2 by omega) (by omega) (by omega)
      refine ⟨state', r', later ++ [r], ?_, hr'.1, hr'.2.1, hr'.2.2, ?_, ?_⟩
      · rw [turns, foldlM_append, hrun, ← append_assoc]
        exact hturn
      · rw [length_append, hlen, length_singleton]
      · intro q hq
        rcases mem_append.mp hq with hq | hq
        · exact hall q hq
        · rw [mem_singleton.mp hq, hid]
          exact ⟨by omega, hnice⟩

/-- A process with a second request, and two that take turns. All the calls are made at
one time, and more requests of the class are served than there can be flows while `x` is
first in its flow. -/
theorem served_starves :
    ∃ (ops : List MClockOp) (t : Service) (x : IoRequest) (t' : Service)
      (later : List IoRequest), ops.foldlM Service.step .start = some t ∧
      x ∈ (t.sched.classes defaultClass).flows.map Flow.first ∧
      (turns (maxFlows + 1)).foldlM Service.step t = some t' ∧
      t'.served = t.served ++ later ∧ x ∉ later ∧
      (later.filter fun r => niceToServiceClass r.submitNice = defaultClass).length =
        maxFlows + 1 := by
  obtain ⟨t, ht⟩ : ∃ t, [.enqueue (diskRead 0 1) 0 0, .enqueue (diskRead 1 1) 0 0,
      .enqueue (diskRead 2 2) 0 0, .dequeue 0].foldlM Service.step .start = some t := ⟨_, rfl⟩
  obtain ⟨x, hx, hid, hstarved⟩ : ∃ x,
      x ∈ (t.sched.classes defaultClass).flows.map Flow.first ∧ x.id = 1 ∧
        ∃ state r, t.sched = starved x state [⟨2, r, []⟩] ∧ r.lTagUs = 0 ∧ r.id = 2 ∧
          r.submitNice = 0 := by
    cases ht
    exact ⟨_, mem_cons_self, rfl, _, _,
      (setClass_setClass ..).trans ((setClass_setClass ..).trans (setClass_setClass ..)),
      rfl, rfl, rfl⟩
  obtain ⟨_, _, later, hrun, -, -, -, hlen, hall⟩ := starved_turns x hstarved (maxFlows + 1)
  refine ⟨_, t, x, _, later, ht, hx, hrun, rfl, fun hmem => ?_, ?_⟩
  · have := (hall x hmem).1
    omega
  · rw [filter_eq_self.mpr fun r hr => ?_, hlen]
    rw [(hall r hr).2]
    decide

end F7ly.Fs.Virtio
