import Mathlib.Data.List.ReduceOption
import Mathlib.Data.List.Perm.Basic

/-!
# Arrays of slots

A slot is free or holds a value. A new value goes into the first free slot, and
clearing a slot frees it. What the users of an array need to know is which
values it holds, in any order, and how many slots are free.
-/

namespace F7ly.Slots

variable {α : Type}

abbrev used (t : List (Option α)) : List α := t.reduceOption

def free (t : List (Option α)) : Nat := t.countP Option.isNone

@[simp] theorem free_nil : free ([] : List (Option α)) = 0 := rfl

@[simp] theorem free_cons_none (t : List (Option α)) : free (none :: t) = free t + 1 := by
  simp [free]

@[simp] theorem free_cons_some (x : α) (t : List (Option α)) : free (some x :: t) = free t := by
  simp [free]

theorem free_add_used (t : List (Option α)) : free t + (used t).length = t.length := by
  induction t with
  | nil => rfl
  | cons x t ih =>
      cases x with
      | none => simp [used] at ih ⊢; omega
      | some x => simp [used] at ih ⊢; omega

def insert : List (Option α) → α → Option (List (Option α))
  | [], _ => none
  | none :: t, x => some (some x :: t)
  | some y :: t, x => (insert t x).map (some y :: ·)

theorem insert_eq_none {t : List (Option α)} {x : α} : insert t x = none ↔ free t = 0 := by
  induction t with
  | nil => simp [insert]
  | cons y t ih =>
      cases y with
      | none => simp [insert]
      | some y => simp [insert, ih]

theorem insert_isSome {t : List (Option α)} (h : 0 < free t) (x : α) :
    ∃ t', insert t x = some t' := by
  cases hi : insert t x with
  | none =>
      rw [insert_eq_none] at hi
      omega
  | some t' => exact ⟨t', rfl⟩

theorem insert_spec {t t' : List (Option α)} {x : α} (h : insert t x = some t') :
    (used t').Perm (x :: used t) ∧ free t' + 1 = free t ∧ t'.length = t.length := by
  induction t generalizing t' with
  | nil => cases h
  | cons y t ih =>
      cases y with
      | none =>
          cases h
          exact ⟨by simp [used], by simp, rfl⟩
      | some y =>
          obtain ⟨u, hu, rfl⟩ := Option.map_eq_some_iff.mp h
          obtain ⟨hperm, hfree, hlen⟩ := ih hu
          refine ⟨?_, by simpa using hfree, by simp [hlen]⟩
          rw [used, List.reduceOption_cons_of_some, used, List.reduceOption_cons_of_some]
          exact (hperm.cons y).trans (List.Perm.swap x y _)

def keep (p : α → Bool) (t : List (Option α)) : List (Option α) := t.map (·.filter p)

@[simp] theorem keep_cons_none (p : α → Bool) (t : List (Option α)) :
    keep p (none :: t) = none :: keep p t := rfl

theorem keep_cons_pos {p : α → Bool} {x : α} (hx : p x = true) (t : List (Option α)) :
    keep p (some x :: t) = some x :: keep p t := by
  simp [keep, Option.filter, hx]

theorem keep_cons_neg {p : α → Bool} {x : α} (hx : ¬ p x = true) (t : List (Option α)) :
    keep p (some x :: t) = none :: keep p t := by
  simp [keep, Option.filter, hx]

theorem used_keep (p : α → Bool) (t : List (Option α)) : used (keep p t) = (used t).filter p := by
  induction t with
  | nil => rfl
  | cons x t ih =>
      cases x with
      | none => simpa [used] using ih
      | some x =>
          by_cases hp : p x = true
          · rw [keep_cons_pos hp]
            simpa [used, hp] using ih
          · rw [keep_cons_neg hp]
            simpa [used, hp] using ih

theorem free_keep (p : α → Bool) (t : List (Option α)) :
    free (keep p t) = free t + ((used t).filter (!p ·)).length := by
  induction t with
  | nil => rfl
  | cons x t ih =>
      cases x with
      | none =>
          rw [keep_cons_none, free_cons_none, ih]
          simp [used]
          omega
      | some x =>
          by_cases hp : p x = true
          · rw [keep_cons_pos hp, free_cons_some, ih]
            simp [used, hp]
          · rw [keep_cons_neg hp, free_cons_none, ih]
            simp [used, hp]
            omega

theorem keep_eq_self {p : α → Bool} {t : List (Option α)} (h : ∀ x ∈ used t, p x = true) :
    keep p t = t := by
  induction t with
  | nil => rfl
  | cons x t ih =>
      cases x with
      | none => rw [keep_cons_none, ih (by simpa [used] using h)]
      | some x =>
          have hx := List.forall_mem_cons.mp (show ∀ y ∈ x :: used t, p y = true from h)
          rw [keep_cons_pos hx.1, ih hx.2]

end F7ly.Slots
