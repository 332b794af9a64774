import F7ly.Fs.MClock

/-!
# What the scheduler does with its requests

The tags decide in which order requests leave; that each leaves once does not depend on
them. The flows of a class belong to different processes (`Distinct`), so the flow a
scan has chosen is the one that is found again when its head is taken: no panic of
the scheduler is reached, and what `dequeueNext` gives out is what is then missing.
-/

namespace F7ly.Fs.Virtio

open List

def requestsOf (fs : List Flow) : List IoRequest := fs.flatMap Flow.requests

def Distinct (fs : List Flow) : Prop := (fs.map Flow.pid).Nodup

theorem requestsOf_append (fs gs : List Flow) :
    requestsOf (fs ++ gs) = requestsOf fs ++ requestsOf gs := flatMap_append

theorem requestsOf_cons (f : Flow) (fs : List Flow) :
    requestsOf (f :: fs) = f.requests ++ requestsOf fs := flatMap_cons

theorem length_le_requestsOf (fs : List Flow) : fs.length ≤ (requestsOf fs).length := by
  induction fs with
  | nil => exact Nat.le_refl 0
  | cons f fs ih =>
      rw [requestsOf_cons, length_append, Flow.requests, length_cons, length_cons]
      omega

variable {r : IoRequest} {fs : List Flow} {f : Flow}

theorem appendRequest_some :
    ∀ {fs'}, appendRequest r fs = some fs' →
      (requestsOf fs').Perm (r :: requestsOf fs) ∧ fs'.map Flow.pid = fs.map Flow.pid := by
  induction fs with
  | nil => exact fun h => nomatch h
  | cons f fs ih =>
      intro fs' h
      rw [appendRequest] at h
      split at h
      · cases h
        refine ⟨?_, rfl⟩
        rw [requestsOf_cons, requestsOf_cons, ← cons_append]
        refine List.Perm.append_right _ ?_
        exact ((perm_append_singleton r f.rest).cons f.first).trans (.swap ..)
      · obtain ⟨gs, hgs, rfl⟩ := Option.map_eq_some_iff.mp h
        obtain ⟨hperm, hpids⟩ := ih hgs
        refine ⟨?_, by rw [map_cons, map_cons, hpids]⟩
        exact (hperm.append_left f.requests).trans perm_middle

theorem appendRequest_none (h : appendRequest r fs = none) : r.submitPid ∉ fs.map Flow.pid := by
  induction fs with
  | nil => exact not_mem_nil
  | cons f fs ih =>
      rw [appendRequest] at h
      split at h
      · cases h
      next hne =>
      rw [Option.map_eq_none_iff] at h
      rw [map_cons, mem_cons, not_or]
      exact ⟨fun heq => hne heq.symm, ih h⟩

theorem addRequest_some {c c' : ClassState} {full : Bool}
    (hd : Distinct c.flows) (h : c.addRequest full r = some c') :
    (requestsOf c'.flows).Perm (r :: requestsOf c.flows) ∧ Distinct c'.flows := by
  rw [ClassState.addRequest] at h
  split at h
  · next passed hpassed =>
      cases h
      obtain ⟨hperm, hpids⟩ := appendRequest_some hpassed
      refine ⟨?_, ?_⟩
      · dsimp only [ClassState.flows]
        rw [requestsOf_append, requestsOf_append, ← cons_append]
        exact hperm.append_right _
      · dsimp only [ClassState.flows, Distinct]
        rw [map_append, hpids, ← map_append]
        exact hd
  next hpassed =>
  split at h
  · next coming hcoming =>
      cases h
      obtain ⟨hperm, hpids⟩ := appendRequest_some hcoming
      refine ⟨?_, ?_⟩
      · dsimp only [ClassState.flows]
        rw [requestsOf_append, requestsOf_append]
        exact (hperm.append_left _).trans perm_middle
      · dsimp only [ClassState.flows, Distinct]
        rw [map_append, hpids, ← map_append]
        exact hd
  next hcoming =>
  split at h
  · cases h
  cases h
  have hflows : ({ c with coming := c.coming ++ [⟨r.submitPid, r, []⟩] } : ClassState).flows =
      c.flows ++ [⟨r.submitPid, r, []⟩] := (append_assoc ..).symm
  have hnew : r.submitPid ∉ c.flows.map Flow.pid := by
    rw [ClassState.flows, map_append, mem_append, not_or]
    exact ⟨appendRequest_none hpassed, appendRequest_none hcoming⟩
  rw [hflows]
  refine ⟨?_, ?_⟩
  · rw [requestsOf_append]
    exact perm_append_singleton r _
  · rw [Distinct, map_append]
    refine nodup_append.mpr ⟨hd, nodup_singleton _, fun a ha b hb heq => ?_⟩
    rw [heq, mem_singleton.mp hb] at ha
    exact hnew ha

theorem addRequest_isSome (c : ClassState) (r : IoRequest) :
    ∃ c', c.addRequest false r = some c' := by
  rw [ClassState.addRequest]
  split
  · exact ⟨_, rfl⟩
  split
  · exact ⟨_, rfl⟩
  · exact ⟨_, rfl⟩

theorem findFlow_some {pid : Nat} :
    ∀ {before f after}, findFlow pid fs = some (before, f, after) →
      fs = before ++ f :: after ∧ f.pid = pid := by
  induction fs with
  | nil => exact fun h => nomatch h
  | cons g fs ih =>
      intro before f after h
      rw [findFlow] at h
      split at h
      · next hpid =>
          cases h
          exact ⟨rfl, hpid⟩
      · obtain ⟨⟨before', f', after'⟩, hrest, heq⟩ := Option.map_eq_some_iff.mp h
        cases heq
        obtain ⟨rfl, hpid⟩ := ih hrest
        exact ⟨rfl, hpid⟩

theorem findFlow_mem (hd : Distinct fs) (hf : f ∈ fs) :
    ∃ before after, findFlow f.pid fs = some (before, f, after) := by
  induction fs with
  | nil => exact absurd hf not_mem_nil
  | cons g fs ih =>
      obtain ⟨hg, hd'⟩ := nodup_cons.mp hd
      rw [findFlow]
      rcases mem_cons.mp hf with rfl | hmem
      · exact ⟨[], fs, if_pos rfl⟩
      · have hne : g.pid ≠ f.pid := fun heq => hg (heq ▸ mem_map_of_mem hmem)
        obtain ⟨before, after, hfind⟩ := ih hd' hmem
        exact ⟨g :: before, after, by rw [if_neg hne, hfind]; rfl⟩

theorem requests_popped (f : Flow) : f.requests = f.first :: requestsOf f.popped := by
  rw [Flow.popped, Flow.requests]
  split
  · next hrest => rw [hrest]; rfl
  · next r rest hrest => rw [hrest]; simp [requestsOf, Flow.requests]

theorem pids_popped (f : Flow) : (f.popped.map Flow.pid).Sublist [f.pid] := by
  rw [Flow.popped]
  split
  · exact nil_sublist _
  · exact .refl _

theorem popFlow_spec {c : ClassState} (hd : Distinct c.flows) (hf : f ∈ c.flows) :
    ∃ c', c.popFlow f.pid = some (f.first, c') ∧
      (requestsOf c.flows).Perm (f.first :: requestsOf c'.flows) ∧ Distinct c'.flows := by
  obtain ⟨before, after, hfind⟩ := findFlow_mem hd hf
  obtain ⟨hflows, -⟩ := findFlow_some hfind
  have hpop : c.popFlow f.pid = some (f.first,
      if after = [] then { c with passed := [], coming := before ++ f.popped }
      else { c with passed := before ++ f.popped, coming := after }) := by
    rw [ClassState.popFlow, hfind]
    rfl
  have hnew : (if after = [] then { c with passed := [], coming := before ++ f.popped }
      else { c with passed := before ++ f.popped, coming := after } : ClassState).flows =
      before ++ (f.popped ++ after) := by
    rw [← append_assoc]
    split
    · next hafter => rw [hafter, append_nil]; rfl
    · rfl
  refine ⟨_, hpop, ?_, ?_⟩
  · rw [hnew, hflows, requestsOf_append, requestsOf_append, requestsOf_append,
      requestsOf_cons, requests_popped, cons_append]
    exact perm_middle
  · rw [hnew, Distinct, map_append, map_append]
    rw [Distinct, hflows, append_cons, map_append, map_append, append_assoc] at hd
    exact hd.sublist ((pids_popped f).append_right _ |>.append_left _)

namespace MClockScheduler

variable {s : MClockScheduler} {c : Fin classCount}

def Wf (s : MClockScheduler) : Prop := ∀ c, Distinct (s.classes c).flows

def others (s : MClockScheduler) (c : Fin classCount) : List IoRequest :=
  ((finRange classCount).erase c).flatMap fun c => requestsOf (s.classes c).flows

theorem pending_perm (s : MClockScheduler) (c : Fin classCount) :
    s.pending.Perm (requestsOf (s.classes c).flows ++ s.others c) :=
  (perm_cons_erase (mem_finRange c)).flatMap_right _

theorem setClass_self (s : MClockScheduler) (c : Fin classCount) (state : ClassState) :
    (s.setClass c state).classes c = state := Function.update_self ..

theorem setClass_of_ne (s : MClockScheduler) {c c' : Fin classCount} (state : ClassState)
    (hne : c' ≠ c) : (s.setClass c state).classes c' = s.classes c' :=
  Function.update_of_ne hne ..

theorem others_setClass (s : MClockScheduler) (c : Fin classCount) (state : ClassState) :
    (s.setClass c state).others c = s.others c := by
  refine flatMap_congr fun c' hc' => ?_
  have hne : c' ≠ c := ((nodup_finRange _).mem_erase_iff.mp hc').1
  rw [setClass_of_ne s state hne]

theorem Wf.setClass (h : s.Wf) {state : ClassState} (hd : Distinct state.flows) :
    (s.setClass c state).Wf := by
  intro c'
  by_cases hc : c' = c
  · rw [hc, setClass_self]
    exact hd
  · rw [setClass_of_ne s state hc]
    exact h c'

theorem flowsInUse_le (s : MClockScheduler) : s.flowsInUse ≤ s.pending.length := by
  rw [flowsInUse, pending, length_flatMap]
  exact sum_le_sum fun c _ => length_le_requestsOf _

/-- A request is queued with the current time as its limit tag, and there is a flow for
it as long as there are fewer requests than flows. -/
theorem enqueue_spec (h : s.Wf) (r : IoRequest) (nowUs ewmaBps : UInt64)
    (hroom : s.pending.length < maxFlows) :
    ∃ s' r', s.enqueue r nowUs ewmaBps = some s' ∧ r'.id = r.id ∧ r'.lTagUs = nowUs ∧
      s'.pending.Perm (r' :: s.pending) ∧ s'.Wf := by
  have hfull : decide (maxFlows ≤ s.flowsInUse) = false :=
    decide_eq_false (Nat.not_le.mpr (Nat.lt_of_le_of_lt s.flowsInUse_le hroom))
  rw [enqueue]
  generalize niceToServiceClass r.submitNice = c
  rw [hfull]
  obtain ⟨state, hadd⟩ := addRequest_isSome ((s.classes c).tag c r nowUs ewmaBps).2
    ((s.classes c).tag c r nowUs ewmaBps).1
  have hd₀ : Distinct ((s.classes c).tag c r nowUs ewmaBps).2.flows := h c
  obtain ⟨hperm, hd⟩ := addRequest_some hd₀ hadd
  refine ⟨_, ((s.classes c).tag c r nowUs ewmaBps).1, by rw [hadd]; rfl, rfl, rfl, ?_,
    h.setClass hd⟩
  refine ((s.setClass c state).pending_perm c).trans ?_
  rw [setClass_self, others_setClass]
  exact (hperm.append_right _).trans ((s.pending_perm c).symm.cons _)

theorem dispatchFlow_spec (h : s.Wf) (hf : f ∈ (s.classes c).flows) :
    ∃ s', s.dispatchFlow c f = some (⟨some f.first, 0⟩, s') ∧
      s.pending.Perm (f.first :: s'.pending) ∧ s'.Wf := by
  obtain ⟨state, hpop, hperm, hd⟩ := popFlow_spec (h c) hf
  refine ⟨s.setClass c state, ?_, ?_, h.setClass hd⟩
  · rw [dispatchFlow, hpop]
    exact if_neg fun hne => hne rfl
  · refine (s.pending_perm c).trans ((hperm.append_right _).trans (List.Perm.cons _ ?_))
    have hnew := (s.setClass c state).pending_perm c
    rw [setClass_self, others_setClass] at hnew
    exact hnew.symm

theorem mem_candidates {x : Fin classCount × Flow} :
    x ∈ s.candidates ↔ x.2 ∈ (s.classes x.1).flows := by
  obtain ⟨c, f⟩ := x
  rw [candidates, mem_flatMap]
  constructor
  · rintro ⟨c', -, hmem⟩
    obtain ⟨g, hg, heq⟩ := mem_map.mp hmem
    cases heq
    exact mem_append.mpr (mem_append.mp hg).symm
  · intro hf
    exact ⟨c, mem_finRange c, mem_map_of_mem (mem_append.mpr (mem_append.mp hf).symm)⟩

end MClockScheduler

namespace PickState

/-- A flow considered may become the best if its first request is not behind its limit,
and one of the two is best then. -/
theorem selected_consider (nowUs : UInt64) (pick : PickState) (x : Fin classCount × Flow) :
    ((pick.consider nowUs x).selected = pick.selected ∨
      (x.2.first.lTagUs ≤ nowUs ∧ (pick.consider nowUs x).selected = some x)) ∧
    (x.2.first.lTagUs ≤ nowUs → (pick.consider nowUs x).selected ≠ none) := by
  rw [consider]
  split
  · next hgate =>
      have hnot : ¬x.2.first.lTagUs ≤ nowUs := UInt64.not_le.mpr hgate
      split
      · exact ⟨.inl rfl, fun h => absurd h hnot⟩
      · exact ⟨.inl rfl, fun h => absurd h hnot⟩
  next hgate =>
  have hle : x.2.first.lTagUs ≤ nowUs := UInt64.not_lt.mp hgate
  split
  · split
    · exact ⟨.inr ⟨hle, rfl⟩, fun _ h => nomatch h⟩
    next hlater =>
    refine ⟨.inl rfl, fun _ hnone => ?_⟩
    rw [(Option.or_eq_none_iff.mp hnone).1] at hlater
    exact hlater rfl
  split
  · refine ⟨?_, fun _ hnone => nomatch (Option.or_eq_none_iff.mp hnone).2⟩
    cases hres : pick.bestReservation with
    | none => exact .inr ⟨hle, by simp [selected]⟩
    | some y => exact .inl (by simp [selected, hres])
  next hlater =>
  refine ⟨.inl rfl, fun _ hnone => ?_⟩
  rw [(Option.or_eq_none_iff.mp hnone).2] at hlater
  exact hlater rfl

theorem selected_foldl (nowUs : UInt64) (xs : List (Fin classCount × Flow)) :
    ∀ pick : PickState, (∀ x, (xs.foldl (consider nowUs) pick).selected = some x →
        pick.selected = some x ∨ (x ∈ xs ∧ x.2.first.lTagUs ≤ nowUs)) ∧
      ((xs.foldl (consider nowUs) pick).selected = none →
        pick.selected = none ∧ ∀ x ∈ xs, ¬x.2.first.lTagUs ≤ nowUs) := by
  induction xs with
  | nil =>
      exact fun _ => ⟨fun _ h => .inl h, fun h => ⟨h, fun _ hx => absurd hx not_mem_nil⟩⟩
  | cons y xs ih =>
      intro pick
      obtain ⟨hsome, hnone⟩ := ih (pick.consider nowUs y)
      obtain ⟨hselected, hdue⟩ := selected_consider nowUs pick y
      refine ⟨fun x hx => ?_, fun h => ?_⟩
      · rcases hsome x hx with hx | ⟨hmem, hle⟩
        · rcases hselected with hsame | ⟨hle, hnew⟩
          · exact .inl (hsame ▸ hx)
          · rw [hnew] at hx
            cases hx
            exact .inr ⟨mem_cons_self, hle⟩
        · exact .inr ⟨mem_cons_of_mem _ hmem, hle⟩
      · obtain ⟨hnow, hrest⟩ := hnone h
        have hy : ¬y.2.first.lTagUs ≤ nowUs := fun hle => hdue hle hnow
        refine ⟨?_, forall_mem_cons.mpr ⟨hy, hrest⟩⟩
        rcases hselected with hsame | ⟨hle, -⟩
        · rw [← hsame, hnow]
        · exact absurd hle hy

end PickState

namespace MClockScheduler

variable {s : MClockScheduler}

/-- A request may leave now. With one active class only the flow of the round robin is
asked, otherwise every flow. -/
def Due (s : MClockScheduler) (nowUs : UInt64) : Prop :=
  match s.activeClasses with
  | [c] => ∃ f ∈ (s.classes c).rotation.head?, f.first.lTagUs ≤ nowUs
  | _ => ∃ x ∈ s.candidates, x.2.first.lTagUs ≤ nowUs

theorem pick_spec (s : MClockScheduler) (nowUs : UInt64) :
    (∀ x, (s.pick nowUs).selected = some x → x ∈ s.candidates ∧ x.2.first.lTagUs ≤ nowUs) ∧
      ((s.pick nowUs).selected = none → ∀ x ∈ s.candidates, ¬x.2.first.lTagUs ≤ nowUs) := by
  obtain ⟨hsome, hnone⟩ := PickState.selected_foldl nowUs s.candidates {}
  exact ⟨fun x hx => (hsome x hx).resolve_left (fun h => nomatch h), fun h => (hnone h).2⟩

theorem mem_flows_of_rotation {c : ClassState} (h : c.rotation.head? = some f) : f ∈ c.flows :=
  mem_append.mpr (mem_append.mp (mem_of_head? h)).symm

theorem dequeueSingle_one {c : Fin classCount} {rest : List Flow} (nowUs : UInt64)
    (hactive : s.activeClasses = [c]) (hrotation : (s.classes c).rotation = f :: rest) :
    s.dequeueSingleActiveClass nowUs =
      if f.first.lTagUs > nowUs then some (⟨none, f.first.lTagUs⟩, s) else s.dispatchFlow c f := by
  simp [dequeueSingleActiveClass, hactive, hrotation]

theorem dequeueSingle_many (nowUs : UInt64) (hactive : ¬∃ c, s.activeClasses = [c]) :
    s.dequeueSingleActiveClass nowUs = some (⟨none, 0⟩, s) := by
  rw [dequeueSingleActiveClass]
  split
  · next c heq => exact absurd ⟨c, heq⟩ hactive
  · rfl

theorem dequeueNext_many (nowUs : UInt64) (hactive : ¬∃ c, s.activeClasses = [c]) :
    s.dequeueNext nowUs = match (s.pick nowUs).selected with
      | none => some (⟨none, (s.pick nowUs).gate⟩, s)
      | some (c, f) => s.dispatchFlow c f := by
  rw [dequeueNext, dequeueSingle_many nowUs hactive]
  rfl

theorem due_one {c : Fin classCount} (nowUs : UInt64) (hactive : s.activeClasses = [c]) :
    s.Due nowUs ↔ ∃ f ∈ (s.classes c).rotation.head?, f.first.lTagUs ≤ nowUs := by
  simp only [Due, hactive]

theorem due_many (nowUs : UInt64) (hactive : ¬∃ c, s.activeClasses = [c]) :
    s.Due nowUs ↔ ∃ x ∈ s.candidates, x.2.first.lTagUs ≤ nowUs := by
  rw [Due]
  split
  · next c heq => exact absurd ⟨c, heq⟩ hactive
  · rfl

theorem dequeueNext_due (h : s.Wf) {nowUs : UInt64} (hdue : s.Due nowUs) :
    ∃ r s', s.dequeueNext nowUs = some (⟨some r, 0⟩, s') ∧ r.lTagUs ≤ nowUs ∧
      s.pending.Perm (r :: s'.pending) ∧ s'.Wf := by
  by_cases hactive : ∃ c, s.activeClasses = [c]
  · obtain ⟨c, hactive⟩ := hactive
    obtain ⟨f, hf, hle⟩ := (due_one nowUs hactive).mp hdue
    obtain ⟨s', hs', hperm, hwf⟩ := dispatchFlow_spec h (mem_flows_of_rotation hf)
    obtain ⟨rest, hrotation⟩ := head?_eq_some_iff.mp hf
    refine ⟨f.first, s', ?_, hle, hperm, hwf⟩
    rw [dequeueNext, dequeueSingle_one nowUs hactive hrotation, if_neg (UInt64.not_lt.mpr hle), hs']
    rfl
  · obtain ⟨x, hx, hle⟩ := (due_many nowUs hactive).mp hdue
    obtain ⟨hsome, hnone⟩ := s.pick_spec nowUs
    cases hselected : (s.pick nowUs).selected with
    | none => exact absurd hle (hnone hselected x hx)
    | some y =>
        obtain ⟨hy, hyle⟩ := hsome y hselected
        obtain ⟨s', hs', hperm, hwf⟩ := dispatchFlow_spec h (mem_candidates.mp hy)
        refine ⟨y.2.first, s', ?_, hyle, hperm, hwf⟩
        rw [dequeueNext_many nowUs hactive, hselected]
        exact hs'

theorem rotation_of_active {c : Fin classCount} (hactive : s.activeClasses = [c]) :
    ∃ f rest, (s.classes c).rotation = f :: rest := by
  have hmem : c ∈ s.activeClasses := by rw [hactive]; exact mem_singleton_self c
  have hflows : (s.classes c).flows ≠ [] := of_decide_eq_true (mem_filter.mp hmem).2
  cases hrotation : (s.classes c).rotation with
  | nil =>
      rw [ClassState.rotation, append_eq_nil_iff] at hrotation
      rw [ClassState.flows, hrotation.1, hrotation.2] at hflows
      exact absurd rfl hflows
  | cons f rest => exact ⟨f, rest, rfl⟩

theorem dequeueNext_not_due {nowUs : UInt64} (hdue : ¬s.Due nowUs) :
    ∃ gate, s.dequeueNext nowUs = some (⟨none, gate⟩, s) := by
  by_cases hactive : ∃ c, s.activeClasses = [c]
  · obtain ⟨c, hactive⟩ := hactive
    obtain ⟨f, rest, hrotation⟩ := rotation_of_active hactive
    rw [due_one nowUs hactive, hrotation] at hdue
    have hlt : f.first.lTagUs > nowUs := UInt64.not_le.mp fun hle => hdue ⟨f, rfl, hle⟩
    have hgate : f.first.lTagUs ≠ 0 := by
      intro hzero
      rw [hzero] at hlt
      exact absurd hlt (UInt64.not_lt.mpr UInt64.zero_le)
    refine ⟨f.first.lTagUs, ?_⟩
    rw [dequeueNext, dequeueSingle_one nowUs hactive hrotation, if_pos hlt,
      Option.bind_eq_bind, Option.bind_some]
    exact if_pos (.inr hgate)
  · obtain ⟨hsome, -⟩ := s.pick_spec nowUs
    rw [due_many nowUs hactive] at hdue
    rw [dequeueNext_many nowUs hactive]
    cases hselected : (s.pick nowUs).selected with
    | some y => exact absurd ⟨y, hsome y hselected⟩ hdue
    | none => exact ⟨_, rfl⟩

end MClockScheduler

end F7ly.Fs.Virtio
