import F7ly.Proofs.DtbTree

/-!
# The timebase of a device tree

`get_timebase_frequency` looks at the properties `timebase-frequency` of the nodes
`cpus` below a root, in the order of the tree. It refuses a property of a wrong length
and any property behind an accepted one, but an accepted property sets the verdict
anew: properties of a wrong length in front of it are forgotten. That is the one list
of properties on which its answer is not that of the specification.
-/

namespace F7ly.Devs

open List

variable {mem : Nat → UInt8} {c : FdtCursor}

section Spec

variable (mem)

def Property.isTimebase (p : Property) : Bool := strEq mem p.name "timebase-frequency"

/-- The timebases of the nodes `cpus` among some nodes. -/
def Content.cpusTimebases (x : Content) : List Property :=
  (x.nodes.filter fun n => strEq mem n.1 "cpus").flatMap fun n =>
    n.2.props.filter (·.isTimebase mem)

/-- The timebases of the nodes `cpus` at depth one. -/
def Content.timebases (x : Content) : List Property :=
  x.nodes.flatMap fun n => n.2.cpusTimebases mem

def Property.Good (p : Property) : Prop := p.length = 4 ∧ be32 mem p.value ≠ 0

/-- Timebases of a wrong length in front of a good one, and nothing behind it. -/
def Masked (ps : List Property) : Prop :=
  ∃ bad p, bad ≠ [] ∧ ps = bad ++ [p] ∧ (∀ b ∈ bad, b.length ≠ 4) ∧ p.Good mem

end Spec

variable {s : TimebaseScan}

namespace TimebaseScan

def takes (mem : Nat → UInt8) (s : TimebaseScan) (ps : List Property) : TimebaseScan :=
  ps.foldl (fun s p => s.take mem p.value p.length) s

theorem takes_append (s : TimebaseScan) (ps qs : List Property) :
    s.takes mem (ps ++ qs) = (s.takes mem ps).takes mem qs := foldl_append

def setDepth (s : TimebaseScan) (d : Option Nat) : TimebaseScan := { s with cpusDepth := d }

theorem takes_setDepth (s : TimebaseScan) (d : Option Nat) (ps : List Property) :
    (s.setDepth d).takes mem ps = (s.takes mem ps).setDepth d := by
  induction ps generalizing s with
  | nil => rfl
  | cons p ps ih =>
      have htake : (s.setDepth d).take mem p.value p.length =
          (s.take mem p.value p.length).setDepth d := by
        by_cases h : s.propertyFound = true ∨ p.length ≠ 4
        · rw [take, take, if_pos h]
          exact if_pos h
        · rw [take, take, if_neg h]
          exact if_neg h
      exact (congrArg (takes mem · ps) htake).trans (ih _)

variable (mem) in
theorem takes_cpusDepth (s : TimebaseScan) (ps : List Property) :
    (s.takes mem ps).cpusDepth = s.cpusDepth := by
  have h : s.takes mem ps = (s.takes mem ps).setDepth s.cpusDepth :=
    takes_setDepth s s.cpusDepth ps
  rw [h]
  rfl

theorem step_beginNode {depth : Nat} (h : depth ≠ 1) (name : Nat) :
    s.step mem (.beginNode depth name) = s :=
  if_neg fun hand => h hand.1

/-- Outside a node `cpus` nothing below depth one counts. -/
theorem step_outside (hs : s.cpusDepth = none) {e : FdtEvent}
    (he : e.From 2) : s.step mem e = s := by
  cases e with
  | beginNode depth name =>
      refine step_beginNode ?_ name
      simp only [FdtEvent.From] at he
      omega
  | endNode depth => exact if_neg (by rw [hs]; exact Option.some_ne_none depth)
  | property depth name value length =>
      exact if_pos (.inl (by rw [hs]; exact Option.some_ne_none depth))

/-- Inside a node `cpus` nothing of its subnodes counts. -/
theorem step_below (hs : s.cpusDepth = some 1) {e : FdtEvent}
    (he : e.From 3) : s.step mem e = s := by
  cases e with
  | beginNode depth name =>
      refine step_beginNode ?_ name
      simp only [FdtEvent.From] at he
      omega
  | endNode depth =>
      have hdepth : depth ≠ 1 := by
        simp only [FdtEvent.From] at he
        omega
      exact if_neg (by rw [hs]; exact fun h => hdepth (Option.some.inj h))
  | property depth name value length =>
      have hdepth : depth ≠ 1 := by
        simp only [FdtEvent.From] at he
        omega
      exact if_pos (.inl (by rw [hs]; exact fun h => hdepth (Option.some.inj h)))

/-- The events inside a node `cpus`. -/
theorem foldl_cpus (x : Content) (hs : s.cpusDepth = some 1) :
    (x.events 2).foldl (step mem) s = s.takes mem (x.props.filter (·.isTimebase mem)) := by
  induction x generalizing s with
  | nil => rfl
  | prop p rest ih =>
      rw [Content.events, foldl_cons, Content.props, filter_cons]
      by_cases hp : p.isTimebase mem
      · have hstep : s.step mem (.property 1 p.name p.value p.length) =
            s.take mem p.value p.length := by
          refine if_neg (not_or.mpr ⟨?_, ?_⟩)
          · rw [hs]
            exact fun h => h rfl
          · exact fun h => h hp
        rw [if_pos hp]
        refine (congrArg (foldl (step mem) · _) hstep).trans (ih ?_)
        exact (takes_cpusDepth mem s [p]).trans hs
      · rw [if_neg hp]
        refine (congrArg (foldl (step mem) · _) ?_).trans (ih hs)
        exact if_pos (.inr hp)
  | node name body rest ihBody ihRest =>
      have hend : s.step mem (.endNode 2) = s := by
        refine if_neg ?_
        rw [hs]
        decide
      rw [foldl_node, step_beginNode (by decide),
        foldl_events_skip (fun e he => step_below hs he) (Nat.le_refl 3), hend]
      exact ihRest hs

theorem foldl_root (x : Content) (hs : s.cpusDepth = none) :
    (x.events 1).foldl (step mem) s = s.takes mem (x.cpusTimebases mem) := by
  induction x generalizing s with
  | nil => rfl
  | prop p rest ih =>
      rw [Content.events, foldl_cons]
      refine (congrArg (foldl (step mem) · _) ?_).trans (ih hs)
      exact if_pos (.inl (by rw [hs]; exact Option.some_ne_none _))
  | node name body rest _ ih =>
      rw [foldl_node, Content.cpusTimebases, Content.nodes, filter_cons]
      by_cases hcpus : strEq mem name "cpus" = true
      · have hbegin : s.step mem (.beginNode 1 name) = s.setDepth (some 1) :=
          if_pos ⟨rfl, hcpus⟩
        have hend : ∀ t : TimebaseScan,
            (t.setDepth (some 1)).step mem (.endNode 1) = t.setDepth none := by
          intro t
          rw [step]
          exact if_pos rfl
        have hback : ∀ t : TimebaseScan, t.cpusDepth = none → t.setDepth none = t :=
          fun t ht => by rw [← ht]; rfl
        have hdepth := fun ps => (takes_cpusDepth mem s ps).trans hs
        rw [if_pos hcpus, flatMap_cons, takes_append, hbegin, foldl_cpus body rfl,
          takes_setDepth, hend, hback _ (hdepth _)]
        exact ih (hdepth _)
      · have hbegin : s.step mem (.beginNode 1 name) = s := if_neg fun h => hcpus h.2
        have hend : s.step mem (.endNode 1) = s :=
          if_neg (by rw [hs]; exact Option.some_ne_none _)
        rw [if_neg hcpus, hbegin,
          foldl_events_skip (fun e he => step_outside hs he) (Nat.le_refl 2), hend]
        exact ih hs

theorem foldl_tree (x : Content) (hs : s.cpusDepth = none) :
    (x.events 0).foldl (step mem) s = s.takes mem (x.timebases mem) := by
  induction x generalizing s with
  | nil => rfl
  | prop p rest ih =>
      rw [Content.events, foldl_cons]
      refine (congrArg (foldl (step mem) · _) ?_).trans (ih hs)
      exact if_pos (.inl (by rw [hs]; exact Option.some_ne_none _))
  | node name body rest _ ih =>
      have hdepth : (s.takes mem (body.cpusTimebases mem)).cpusDepth = none :=
        (takes_cpusDepth mem s _).trans hs
      rw [foldl_node, step_beginNode (by decide), foldl_root body hs, Content.timebases,
        Content.nodes, flatMap_cons, takes_append]
      refine (congrArg (foldl (step mem) · _) ?_).trans (ih hdepth)
      exact if_neg (by rw [hdepth]; exact Option.some_ne_none _)

section Verdict

variable (mem)

theorem takes_refused (s : TimebaseScan) {ps : List Property}
    (h : s.propertyFound = true ∨ ∀ p ∈ ps, p.length ≠ 4) :
    (s.takes mem ps).propertyFound = s.propertyFound ∧
      (s.takes mem ps).frequencyHz = s.frequencyHz ∧
      (s.takes mem ps).propertyValid = (s.propertyValid && ps.isEmpty) := by
  induction ps generalizing s with
  | nil => exact ⟨rfl, rfl, (Bool.and_true _).symm⟩
  | cons p ps ih =>
      have htake : s.take mem p.value p.length = { s with propertyValid := false } :=
        if_pos (h.imp_right fun h => h p mem_cons_self)
      obtain ⟨h1, h2, h3⟩ := ih { s with propertyValid := false }
        (h.imp_right fun h q hq => h q (mem_cons_of_mem p hq))
      have htakes : s.takes mem (p :: ps) = takes mem { s with propertyValid := false } ps :=
        congrArg (takes mem · ps) htake
      rw [htakes]
      exact ⟨h1, h2, h3.trans (by simp)⟩

theorem takes_first {bad : List Property} {p : Property} (rest : List Property)
    (hbad : ∀ b ∈ bad, b.length ≠ 4) (hp : p.length = 4) :
    (takes mem {} (bad ++ p :: rest)).propertyFound = true ∧
      (takes mem {} (bad ++ p :: rest)).frequencyHz = be32 mem p.value ∧
      (takes mem {} (bad ++ p :: rest)).propertyValid =
        (decide (be32 mem p.value ≠ 0) && rest.isEmpty) := by
  obtain ⟨hfound, -, -⟩ := takes_refused mem {} (.inr hbad)
  rw [takes_append]
  generalize takes mem {} bad = s at hfound
  have htake : s.take mem p.value p.length =
      { s with propertyFound := true, frequencyHz := be32 mem p.value,
               propertyValid := be32 mem p.value ≠ 0 } :=
    if_neg (not_or.mpr ⟨by rw [hfound]; decide, not_not.mpr hp⟩)
  have htakes : s.takes mem (p :: rest) = (s.take mem p.value p.length).takes mem rest := rfl
  rw [htakes, htake]
  exact takes_refused mem _ (.inl rfl)

end Verdict

theorem takes_true_iff {ps : List Property} {hz : Nat} :
    ((takes mem {} ps).propertyFound && (takes mem {} ps).propertyValid) = true ∧
        (takes mem {} ps).frequencyHz = hz ↔
      ∃ bad p, ps = bad ++ [p] ∧ (∀ b ∈ bad, b.length ≠ 4) ∧ p.Good mem ∧
        hz = be32 mem p.value := by
  constructor
  · intro ⟨h, hhz⟩
    obtain ⟨hfound, hvalid⟩ := Bool.and_eq_true_iff.mp h
    by_cases hall : ∀ p ∈ ps, p.length ≠ 4
    · rw [(takes_refused mem {} (.inr hall)).1] at hfound
      cases hfound
    · -- The list up to its first property of four bytes.
      obtain ⟨p, bad, rest, hp, hps, hbad⟩ :
          ∃ p bad rest, p.length = 4 ∧ ps = bad ++ p :: rest ∧ ∀ b ∈ bad, b.length ≠ 4 := by
        simp only [not_forall, not_not] at hall
        obtain ⟨q, hq, hlen⟩ := hall
        have hfind : (ps.find? fun q => decide (q.length = 4)).isSome :=
          find?_isSome.mpr ⟨q, hq, decide_eq_true hlen⟩
        obtain ⟨p, hp⟩ := Option.isSome_iff_exists.mp hfind
        obtain ⟨hpp, bad, rest, hps, hbad⟩ := find?_eq_some_iff_append.mp hp
        exact ⟨p, bad, rest, of_decide_eq_true hpp, hps, fun b hb => by simpa using hbad b hb⟩
      subst hps
      obtain ⟨-, hfreq, hval⟩ := takes_first mem rest hbad hp
      rw [hval, Bool.and_eq_true_iff] at hvalid
      have hrest : rest = [] := isEmpty_iff.mp hvalid.2
      rw [hfreq] at hhz
      exact ⟨bad, p, by rw [hrest], hbad, ⟨hp, of_decide_eq_true hvalid.1⟩, hhz.symm⟩
  · intro ⟨bad, p, hps, hbad, ⟨hp, hvalue⟩, hhz⟩
    subst hps
    obtain ⟨hfound, hfreq, hval⟩ := takes_first mem [] hbad hp
    rw [hfound, hval, hfreq]
    exact ⟨by simp [hvalue], hhz.symm⟩

end TimebaseScan

theorem getTimebaseFrequency_tree {dtbAddr : Nat} (h : loadFdtCursor mem dtbAddr = .ok c)
    (hvalid : validateFdtStructure mem c = true) {tree : Content}
    (htree : (walk mem c).1 = tree.events 0) (hz : Nat) :
    getTimebaseFrequency mem dtbAddr = (true, hz) ↔
      ∃ bad p, tree.timebases mem = bad ++ [p] ∧ (∀ b ∈ bad, b.length ≠ 4) ∧ p.Good mem ∧
        hz = be32 mem p.value := by
  have heq : getTimebaseFrequency mem dtbAddr =
      (((TimebaseScan.takes mem {} (tree.timebases mem)).propertyFound &&
          (TimebaseScan.takes mem {} (tree.timebases mem)).propertyValid),
        (TimebaseScan.takes mem {} (tree.timebases mem)).frequencyHz) := by
    have hok : (walk mem c).2 = true := hvalid
    simp only [getTimebaseFrequency, h, htree, hok, Bool.true_and]
    rw [TimebaseScan.foldl_tree tree rfl]
  rw [heq, Prod.mk.injEq]
  exact TimebaseScan.takes_true_iff

/-- A well-formed device tree has a tree, and on it the query answers with the value of
the only timebase, if that is a good one, exactly where no timebase of a wrong length
stands in front of a good last one. -/
theorem getTimebaseFrequency_exact_iff {dtbAddr : Nat}
    (h : loadFdtCursor mem dtbAddr = .ok c) (hspace : dtbAddr + c.totalSize < 2 ^ 64)
    (hvalid : validateFdtStructure mem c = true) :
    (∃ tree : Content, (walk mem c).1 = tree.events 0) ∧
      ∀ tree : Content, (walk mem c).1 = tree.events 0 →
        ((∀ hz, getTimebaseFrequency mem dtbAddr = (true, hz) ↔
            ∃ p, tree.timebases mem = [p] ∧ p.Good mem ∧ hz = be32 mem p.value) ↔
          ¬Masked mem (tree.timebases mem)) := by
  refine ⟨validated_has_tree h hspace hvalid, fun tree htree => ?_⟩
  have hget := getTimebaseFrequency_tree h hvalid htree
  constructor
  · intro hspec ⟨bad, p, hne, hps, hbad, hgood⟩
    obtain ⟨q, hq, -⟩ := (hspec _).mp ((hget _).mpr ⟨bad, p, hps, hbad, hgood, rfl⟩)
    have hlen := congrArg length (hps.symm.trans hq)
    rw [length_append, length_singleton, length_singleton] at hlen
    exact hne (length_eq_zero_iff.mp (by omega))
  · intro hmask hz
    rw [hget]
    constructor
    · intro ⟨bad, p, hps, hbad, hgood, hhz⟩
      have hnil : bad = [] := by
        by_contra hne
        exact hmask ⟨bad, p, hne, hps, hbad, hgood⟩
      exact ⟨p, by rw [hps, hnil, nil_append], hgood, hhz⟩
    · intro ⟨p, hps, hgood, hhz⟩
      exact ⟨[], p, hps, fun b hb => absurd hb not_mem_nil, hgood, hhz⟩

def word (n : Nat) : List UInt8 :=
  [UInt8.ofNat (n / 2 ^ 24), UInt8.ofNat (n / 2 ^ 16), UInt8.ofNat (n / 2 ^ 8), UInt8.ofNat n]

/-- A blob at address 4096 whose node `/cpus` has timebases with the given words. -/
def cpusMemory (values : List (List Nat)) : Nat → UInt8 :=
  let block := [fdtBeginNode, 0, fdtBeginNode].flatMap word ++ [99, 112, 117, 115, 0, 0, 0, 0] ++
    (values.flatMap fun v => ([fdtProp, 4 * v.length, 0] ++ v).flatMap word) ++
    [fdtEndNode, fdtEndNode, fdtEnd].flatMap word
  let strings := literal "timebase-frequency" ++ [0]
  let header := [fdtMagic, 56 + block.length + strings.length, 56, 56 + block.length, 40, 17,
    16, 0, strings.length, block.length, 0, 0, 0, 0].flatMap word
  fun a => (header ++ block ++ strings).getD (a - 4096) 0

theorem getTimebaseFrequency_exact_iff_single :
    ∃ c tree, loadFdtCursor (cpusMemory [[10000000]]) 4096 = .ok c ∧
      (walk (cpusMemory [[10000000]]) c).1 = Content.events 0 tree ∧
      ∀ hz, getTimebaseFrequency (cpusMemory [[10000000]]) 4096 = (true, hz) ↔
        ∃ p, tree.timebases (cpusMemory [[10000000]]) = [p] ∧ p.Good (cpusMemory [[10000000]]) ∧
          hz = be32 (cpusMemory [[10000000]]) p.value := by
  have hload : loadFdtCursor (cpusMemory [[10000000]]) 4096 =
      .ok ⟨4096, 4219, 4152, 4200, 4200, 4219, 4136, 123, 48, 19⟩ := by decide +kernel
  obtain ⟨-, h⟩ := getTimebaseFrequency_exact_iff hload (by decide) (by decide +kernel)
  have htree : (walk (cpusMemory [[10000000]])
      ⟨4096, 4219, 4152, 4200, 4200, 4219, 4136, 123, 48, 19⟩).1 =
      Content.events 0 (.node 4156 (.node 4164 (.prop ⟨4200, 4184, 4⟩ .nil) .nil) .nil) := by
    decide +kernel
  refine ⟨_, _, hload, htree, (h _ htree).mpr ?_⟩
  intro ⟨bad, p, hne, hps, _⟩
  have hlen : (bad ++ [p]).length = 1 := (congrArg length hps).symm.trans (by decide +kernel)
  rw [length_append, length_singleton] at hlen
  exact hne (length_eq_zero_iff.mp (by omega))

/-- Two timebases, the first of eight bytes: the query answers with the second. -/
theorem getTimebaseFrequency_masked :
    ∃ c tree, loadFdtCursor (cpusMemory [[0, 5], [10000000]]) 4096 = .ok c ∧
      validateFdtStructure (cpusMemory [[0, 5], [10000000]]) c = true ∧
      (walk (cpusMemory [[0, 5], [10000000]]) c).1 = Content.events 0 tree ∧
      (tree.timebases (cpusMemory [[0, 5], [10000000]])).map Property.length = [8, 4] ∧
      getTimebaseFrequency (cpusMemory [[0, 5], [10000000]]) 4096 = (true, 10000000) :=
  ⟨⟨4096, 4239, 4152, 4220, 4220, 4239, 4136, 143, 68, 19⟩,
    .node 4156 (.node 4164 (.prop ⟨4220, 4184, 8⟩ (.prop ⟨4220, 4204, 4⟩ .nil)) .nil) .nil,
    by decide +kernel⟩

end F7ly.Devs
