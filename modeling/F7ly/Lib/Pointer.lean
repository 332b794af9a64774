import Mathlib.Logic.Relation
import Mathlib.Logic.Function.Basic
import Mathlib.Data.Finset.Card

/-!
# Walks along pointers

Every node points to one node or to none. `walk` follows the pointers for a
number of rounds to see whether it comes to a goal. It is right where it says
yes, and with more rounds than there are nodes that lead to the goal, also
where it says no (`walk_complete`), as long as the pointers have no cycle. Pointing a
node to another from which a walk does not come back makes no cycle.
-/

namespace F7ly.Pointer

open Relation

variable {α : Type} {next : α → Option α} {a b goal : α}

def Edge (next : α → Option α) (a b : α) : Prop := next a = some b

def Acyclic (next : α → Option α) : Prop := ∀ a, ¬ TransGen (Edge next) a a

def walk [DecidableEq α] (next : α → Option α) (goal : α) : Nat → α → Bool
  | 0, _ => false
  | n + 1, a =>
      if a = goal then true
      else
        match next a with
        | none => false
        | some b => walk next goal n b

theorem walk_sound [DecidableEq α] {n : Nat} (h : walk next goal n a = true) :
    ReflTransGen (Edge next) a goal := by
  induction n generalizing a with
  | zero => cases h
  | succ n ih =>
      rw [walk] at h
      split at h
      · next heq => exact heq ▸ .refl
      · split at h
        · cases h
        · next b hb => exact .head hb (ih h)

/-- The nodes on the way to the goal are all different, so there are no more
rounds than nodes. -/
theorem walk_complete [DecidableEq α] (hac : Acyclic next) {n : Nat} (dom : List α)
    (hdom : ∀ x, ReflTransGen (Edge next) a x → ReflTransGen (Edge next) x goal →
      x ≠ goal → x ∈ dom) (hlen : dom.length < n) (h : ReflTransGen (Edge next) a goal) :
    walk next goal n a = true := by
  induction n generalizing a dom with
  | zero => omega
  | succ n ih =>
      rw [walk]
      split
      · rfl
      next hne =>
      have ha : a ∈ dom := hdom a .refl h hne
      rcases h.cases_head with heq | ⟨b, hb, hrest⟩
      · exact absurd heq hne
      · rw [show next a = some b from hb]
        refine ih (dom.erase a) (fun x hx hgoal hxne => ?_) ?_ hrest
        · refine (List.mem_erase_of_ne ?_).mpr (hdom x (.head hb hx) hgoal hxne)
          intro heq
          subst heq
          exact hac x (.head' hb hx)
        · rw [List.length_erase_of_mem ha]
          have := List.length_pos_of_mem ha
          omega

theorem Acyclic.mono {next' : α → Option α} (h : Acyclic next)
    (hle : ∀ a b, next' a = some b → next a = some b) : Acyclic next' :=
  fun a hcyc => h a (TransGen.mono hle _ _ hcyc)

theorem Acyclic.update [DecidableEq α] (h : Acyclic next) (hno : ¬ ReflTransGen (Edge next) b a) :
    Acyclic (Function.update next a (some b)) := by
  have hpath : ∀ {x y}, TransGen (Edge (Function.update next a (some b))) x y →
      TransGen (Edge next) x y ∨ ReflTransGen (Edge next) x a ∧ ReflTransGen (Edge next) b y := by
    intro x y hxy
    have hedge : ∀ {y z}, Edge (Function.update next a (some b)) y z →
        y = a ∧ z = b ∨ Edge next y z := by
      intro y z hyz
      unfold Edge at hyz
      rw [Function.update_apply] at hyz
      split at hyz
      · next heq => exact .inl ⟨heq, (Option.some.inj hyz).symm⟩
      · exact .inr hyz
    induction hxy with
    | single hxy =>
        rcases hedge hxy with ⟨rfl, rfl⟩ | hxy
        · exact .inr ⟨.refl, .refl⟩
        · exact .inl (.single hxy)
    | tail _ hyz ih =>
        rcases hedge hyz with ⟨rfl, rfl⟩ | hyz
        · exact .inr ⟨ih.elim TransGen.to_reflTransGen And.left, .refl⟩
        · exact ih.imp (·.tail hyz) fun ⟨hxa, hby⟩ => ⟨hxa, hby.tail hyz⟩
  intro x hcyc
  rcases hpath hcyc with hcyc | ⟨hxa, hbx⟩
  · exact h x hcyc
  · exact hno (hbx.trans hxa)

theorem Acyclic.not_ring (h : Acyclic next) {ms : List α} (hne : ms ≠ [])
    {f : α → α} (hf : ∀ a ∈ ms, f a ∈ ms ∧ next a = some (f a)) : False := by
  classical
  obtain ⟨x, hx⟩ := List.exists_mem_of_ne_nil ms hne
  have hmem : ∀ n, f^[n] x ∈ ms := fun n => by
    induction n with
    | zero => exact hx
    | succ n ih =>
        rw [Function.iterate_succ_apply']
        exact (hf _ ih).1
  have hpath : ∀ n k, TransGen (Edge next) (f^[n] x) (f^[n + k + 1] x) := fun n k => by
    induction k with
    | zero =>
        rw [Function.iterate_succ_apply']
        exact .single (hf _ (hmem n)).2
    | succ k ih =>
        rw [← Nat.add_assoc, Function.iterate_succ_apply' f (n + k + 1)]
        exact ih.tail (hf _ (hmem (n + k + 1))).2
  obtain ⟨i, -, j, -, hij, heq⟩ := Finset.exists_ne_map_eq_of_card_lt_of_maps_to
    (s := Finset.range (ms.toFinset.card + 1)) (t := ms.toFinset) (f := fun n => f^[n] x)
    (by simp) (fun n _ => by simpa using hmem n)
  have hlt : ∀ i j, i < j → f^[i] x = f^[j] x → False := fun i j hij heq => by
    have hcyc := hpath i (j - i - 1)
    rw [show i + (j - i - 1) + 1 = j by omega, ← heq] at hcyc
    exact h _ hcyc
  rcases Nat.lt_or_gt_of_ne hij with hij | hij
  · exact hlt i j hij heq
  · exact hlt j i hij heq.symm

end F7ly.Pointer
