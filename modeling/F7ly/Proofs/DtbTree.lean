import F7ly.Devs.DtbQuery
import F7ly.Proofs.DtbWalk

/-!
# The tree of a device tree

The walker's events as a tree. What stands between the begin and the end of a node is
a `Content`: properties and subnodes in any order, since `next` does not ask for
properties first. The events of a walk that ends valid are those of one content at
depth zero.
-/

namespace F7ly.Devs

variable {mem : Nat → UInt8} {c : FdtCursor}

structure Property where
  name : Nat
  value : Nat
  length : Nat

inductive Content where
  | nil
  | prop (p : Property) (rest : Content)
  | node (name : Nat) (body rest : Content)

namespace Content

/-- The events of a content whose subnodes have depth `d`. -/
def events : Nat → Content → List FdtEvent
  | _, .nil => []
  | d, .prop p rest => .property (d - 1) p.name p.value p.length :: events d rest
  | d, .node name body rest =>
      .beginNode d name :: (events (d + 1) body ++ .endNode d :: events d rest)

def props : Content → List Property
  | .nil => []
  | .prop p rest => p :: rest.props
  | .node _ _ rest => rest.props

def nodes : Content → List (Nat × Content)
  | .nil => []
  | .prop _ rest => rest.nodes
  | .node name body rest => (name, body) :: rest.nodes

end Content

/-- The events up to the end of the walk: the rest `x` of the innermost open node, and
the rests of the nodes around it. -/
def closing : Content → List Content → List FdtEvent
  | x, [] => x.events 0
  | x, y :: ys => x.events (ys.length + 1) ++ .endNode ys.length :: closing y ys

theorem closing_node (name : Nat) (x y : Content) (ys : List Content) :
    closing (.node name x y) ys = .beginNode ys.length name :: closing x (y :: ys) := by
  cases ys with
  | nil => rfl
  | cons z zs => simp [closing, Content.events]

theorem Trace.closing {p d r d' : Nat} {toks : List Tok} {es : List FdtEvent}
    (h : Trace mem c p d toks es r d') (hd : d' = 0) :
    ∃ x ys, ys.length = d ∧ es = closing x ys := by
  induction h with
  | nil => exact ⟨.nil, [], hd.symm, rfl⟩
  | nop _ _ ih => exact ih hd
  | @beginNode p q d r d' name toks es _ _ ih =>
      obtain ⟨x, ys, hlen, rfl⟩ := ih hd
      match ys, hlen with
      | y :: ys, hlen =>
          have hlen := Nat.succ.inj hlen
          exact ⟨.node name x y, ys, hlen, by rw [closing_node, hlen]⟩
  | endNode _ _ ih =>
      obtain ⟨y, ys, rfl, rfl⟩ := ih hd
      exact ⟨.nil, y :: ys, rfl, rfl⟩
  | @prop p q d r d' name value length toks es _ _ ih =>
      obtain ⟨x, ys, hlen, rfl⟩ := ih hd
      match ys, hlen with
      | y :: ys, hlen =>
          have hlen := Nat.succ.inj hlen
          exact ⟨.prop ⟨name, value, length⟩ x, y :: ys, congrArg (· + 1) hlen, by
            simp [Devs.closing, Content.events, hlen]⟩

theorem all_sees : Sees (fun a => some (mem a)) mem c := fun _ _ => rfl

theorem validated_has_tree {dtbAddr : Nat} (h : loadFdtCursor mem dtbAddr = .ok c)
    (hspace : dtbAddr + c.totalSize < 2 ^ 64) (hvalid : validateFdtStructure mem c = true) :
    ∃ tree : Content, (walk mem c).1 = tree.events 0 := by
  have hc := loadFdtCursor_ok h hspace
  obtain ⟨events, w, hcalls, hwalk⟩ :=
    calls_walked hc (show Sees (fun a => some (mem a)) mem c from all_sees) (c.structSize + 1)
      (start_live hc)
  obtain ⟨toks, p, htrace, hfin⟩ := hwalk.trace
  rw [validateFdtStructure, walk, hcalls] at hvalid
  obtain ⟨x, ys, hlen, hevents⟩ := htrace.closing (hfin hvalid).1
  have hys : ys = [] := List.length_eq_zero_iff.mp hlen
  refine ⟨x, ?_⟩
  rw [walk, hcalls, hevents, hys]
  rfl

/-- Events of a content whose subnodes have depth `d`. -/
def FdtEvent.From (d : Nat) : FdtEvent → Prop
  | .beginNode k _ => d ≤ k
  | .endNode k => d ≤ k
  | .property k _ _ _ => d ≤ k + 1

theorem Content.events_from {x : Content} {d k : Nat} (hk : k ≤ d) :
    ∀ e ∈ x.events d, e.From k := by
  induction x generalizing d with
  | nil => exact fun e he => (List.not_mem_nil he).elim
  | prop p rest ih =>
      rw [Content.events, List.forall_mem_cons]
      exact ⟨by simp only [FdtEvent.From]; omega, ih hk⟩
  | node name body rest ihBody ihRest =>
      rw [Content.events, List.forall_mem_cons, List.forall_mem_append, List.forall_mem_cons]
      exact ⟨hk, ihBody (by omega), hk, ihRest hk⟩

theorem foldl_events_skip {σ : Type} {step : σ → FdtEvent → σ} {s : σ} {k d : Nat}
    (hs : ∀ e : FdtEvent, e.From k → step s e = s) (hk : k ≤ d) (x : Content) :
    (x.events d).foldl step s = s := by
  have hfrom := x.events_from hk
  generalize x.events d = es at hfrom ⊢
  induction es with
  | nil => rfl
  | cons e es ih =>
      rw [List.forall_mem_cons] at hfrom
      rw [List.foldl_cons, hs e hfrom.1]
      exact ih hfrom.2

theorem foldl_node {σ : Type} (step : σ → FdtEvent → σ) (s : σ) (d name : Nat)
    (body rest : Content) :
    ((Content.node name body rest).events d).foldl step s = (rest.events d).foldl step
        (step ((body.events (d + 1)).foldl step (step s (.beginNode d name))) (.endNode d)) := by
  rw [Content.events, List.foldl_cons, List.foldl_append, List.foldl_cons]

end F7ly.Devs
