import Mathlib.Init

/-!
# Runs of a step function

A run is a list of operations folded over a state. Where an operation may
fail, `foldlM_ok` is the rule: one that cannot fail on a good state and
leaves a good state makes every run succeed and end in a good state. Where an
operation may not be possible at all, a run is a relation, and `Guarded` is a
run whose every operation meets a condition in the state it starts from.
-/

namespace F7ly.Run

theorem bind_eq_ok {ε α β : Type _} {x : Except ε α} {f : α → Except ε β}
    {b : β} : x >>= f = .ok b ↔ ∃ a, x = .ok a ∧ f a = .ok b := by
  cases x with
  | error e => simp [bind, Except.bind]
  | ok a => simp [bind, Except.bind]

theorem map_eq_ok {ε α β : Type _} {x : Except ε α} {f : α → β} {b : β} :
    x.map f = .ok b ↔ ∃ a, x = .ok a ∧ f a = b := by
  cases x with
  | error e => simp [Except.map]
  | ok a => simp [Except.map]

/-- A step that succeeds and preserves `I` lifts to runs. -/
theorem foldlM_ok {σ α ε : Type _} {f : σ → α → Except ε σ} {I : σ → Prop}
    (hstep : ∀ s a, I s → ∃ s', f s a = .ok s' ∧ I s') (ops : List α) :
    ∀ s, I s → ∃ s', ops.foldlM f s = .ok s' ∧ I s' := by
  induction ops with
  | nil => exact fun s hs => ⟨s, rfl, hs⟩
  | cons a ops ih =>
      intro s hs
      obtain ⟨s', hf, hs'⟩ := hstep s a hs
      obtain ⟨s'', hr, hs''⟩ := ih s' hs'
      exact ⟨s'', by rw [List.foldlM_cons, hf]; exact hr, hs''⟩

theorem foldlM_inv {σ α ε : Type _} {f : σ → α → Except ε σ} {I : σ → Prop}
    (hstep : ∀ {s a s'}, I s → f s a = .ok s' → I s') {ops : List α} :
    ∀ {s s' : σ}, ops.foldlM f s = .ok s' → I s → I s' := by
  induction ops with
  | nil =>
      intro s s' hr hs
      cases hr
      exact hs
  | cons a ops ih =>
      intro s s' hr hs
      rw [List.foldlM_cons] at hr
      obtain ⟨s₁, hf, hrest⟩ := bind_eq_ok.mp hr
      exact ih hrest (hstep hs hf)

/-- A run from one state to another, each operation possible and meeting the
condition `C`. -/
inductive Guarded {σ α : Type _} (f : σ → α → Option σ) (C : σ → α → Prop) :
    σ → List α → σ → Prop
  | nil (s : σ) : Guarded f C s [] s
  | cons {s s' s'' : σ} {a : α} {ops : List α} (hC : C s a)
      (hf : f s a = some s') (hrest : Guarded f C s' ops s'') :
      Guarded f C s (a :: ops) s''

theorem Guarded.inv {σ α : Type _} {f : σ → α → Option σ} {C : σ → α → Prop}
    {I : σ → Prop} (hstep : ∀ {s a s'}, I s → C s a → f s a = some s' → I s')
    {s s' : σ} {ops : List α} (hr : Guarded f C s ops s') (hs : I s) : I s' := by
  induction hr with
  | nil => exact hs
  | cons hC hf _ ih => exact ih (hstep hs hC hf)

/-- A condition that implies another in the states of a run can be put in its
place. -/
theorem Guarded.imp {σ α : Type _} {f : σ → α → Option σ} {C C' : σ → α → Prop}
    {I : σ → Prop} (hstep : ∀ {s a s'}, I s → f s a = some s' → I s')
    (himp : ∀ {s a}, I s → C s a → C' s a) {s s' : σ} {ops : List α}
    (hr : Guarded f C s ops s') (hs : I s) : Guarded f C' s ops s' := by
  induction hr with
  | nil s => exact .nil s
  | cons hC hf _ ih => exact .cons (himp hs hC) hf (ih (hstep hs hf))

theorem Guarded.append {σ α : Type _} {f : σ → α → Option σ}
    {C : σ → α → Prop} {s s' s'' : σ} {ops ops' : List α}
    (hr : Guarded f C s ops s') (hr' : Guarded f C s' ops' s'') :
    Guarded f C s (ops ++ ops') s'' := by
  induction hr with
  | nil => exact hr'
  | cons hC hf _ ih => exact .cons hC hf (ih hr')

theorem Guarded.of_foldlM {σ α : Type _} {f : σ → α → Option σ}
    {C : σ → α → Prop} [∀ s a, Decidable (C s a)] {ops : List α} :
    ∀ {s s' : σ}, ops.foldlM (fun s a => if C s a then f s a else none) s =
      some s' → Guarded f C s ops s' := by
  induction ops with
  | nil =>
      intro s s' h
      cases h
      exact .nil s
  | cons a ops ih =>
      intro s s' h
      rw [List.foldlM_cons] at h
      obtain ⟨t, ht, hrest⟩ := Option.bind_eq_some_iff.mp h
      split at ht
      · next hC => exact .cons hC ht (ih hrest)
      · cases ht

end F7ly.Run
