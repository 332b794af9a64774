import Mathlib

/-!
# Counting what a table refers to

A table of references (a page table, a map from page numbers to pages, the
areas of a list) contributes to the number of references an object has. The
contribution is a sum of weights, one per entry, and every change of the
table changes it by what goes and what comes. The lemmas state such a change
as an equation without subtraction, so that a claim about counts is linear
arithmetic over the equations of the steps.
-/

namespace F7ly.Tally

open List

section Table

variable {κ ν : Type}

def weight (w : ν → Nat) (m : AList fun _ : κ => ν) : Nat :=
  (m.entries.map fun e => w e.2).sum

def weightOf (w : ν → Nat) : Option ν → Nat
  | none => 0
  | some v => w v

@[simp] theorem weightOf_none (w : ν → Nat) : weightOf w none = 0 := rfl

@[simp] theorem weightOf_some (w : ν → Nat) (v : ν) : weightOf w (some v) = w v :=
  rfl

variable [DecidableEq κ]

theorem weight_erase (w : ν → Nat) (m : AList fun _ : κ => ν) (k : κ) :
    weight w (m.erase k) + weightOf w (m.lookup k) = weight w m := by
  by_cases hk : k ∈ m
  · obtain ⟨v, l, r, hl, he, hk'⟩ := exists_of_kerase hk
    have hv : m.lookup k = some v := by
      rw [← Option.mem_def, AList.mem_lookup_iff, he]
      exact mem_append_right _ mem_cons_self
    have hentries : (m.erase k).entries = l ++ r := hk'
    rw [weight, weight, hv, hentries, he]
    simp only [map_append, map_cons, sum_append, sum_cons, weightOf_some]
    omega
  · rw [AList.lookup_eq_none.mpr hk, weightOf_none, Nat.add_zero, weight, weight]
    rw [show (m.erase k).entries = m.entries from
      kerase_of_notMem_keys hk]

theorem weight_insert (w : ν → Nat) (m : AList fun _ : κ => ν) (k : κ) (v : ν) :
    weight w (m.insert k v) + weightOf w (m.lookup k) = weight w m + w v := by
  have herase := weight_erase w m k
  have hcons : weight w (m.insert k v) = w v + weight w (m.erase k) := by
    simp only [weight, AList.entries_insert, map_cons, sum_cons]
    rfl
  omega

theorem weightOf_le (w : ν → Nat) (m : AList fun _ : κ => ν) (k : κ) :
    weightOf w (m.lookup k) ≤ weight w m := by
  have := weight_erase w m k
  omega

theorem weight_pos (w : ν → Nat) (m : AList fun _ : κ => ν) :
    0 < weight w m ↔ ∃ k v, m.lookup k = some v ∧ 0 < w v := by
  constructor
  · intro h
    obtain ⟨n, hmem, hne⟩ := exists_mem_ne_zero_of_sum_ne_zero (Nat.pos_iff_ne_zero.mp h)
    obtain ⟨⟨k, v⟩, he, rfl⟩ := mem_map.mp hmem
    exact ⟨k, v, AList.mem_lookup_iff.mpr he, Nat.pos_iff_ne_zero.mpr hne⟩
  · intro ⟨k, v, hk, hw⟩
    have := weightOf_le w m k
    rw [hk, weightOf_some] at this
    omega

end Table

section Family

variable {ι : Type}

theorem sum_map_set {f : ι → Nat} {a b : ι} :
    ∀ {xs : List ι} {i : Nat}, xs[i]? = some a →
      ((xs.set i b).map f).sum + f a = (xs.map f).sum + f b
  | x :: xs, 0, h => by
      obtain rfl := Option.some.inj h
      rw [set_cons_zero, map_cons, map_cons, sum_cons, sum_cons]
      omega
  | x :: xs, i + 1, h => by
      have := sum_map_set (f := f) (b := b) (show xs[i]? = some a from h)
      rw [set_cons_succ, map_cons, map_cons, sum_cons, sum_cons]
      omega

theorem countP_set {p : ι → Bool} {a b : ι} :
    ∀ {xs : List ι} {i : Nat}, xs[i]? = some a →
      (xs.set i b).countP p + (p a).toNat = xs.countP p + (p b).toNat
  | x :: xs, 0, h => by
      obtain rfl := Option.some.inj h
      rw [set_cons_zero, countP_cons, countP_cons]
      cases p x <;> cases p b <;> simp
  | x :: xs, i + 1, h => by
      have := countP_set (p := p) (b := b) (show xs[i]? = some a from h)
      rw [set_cons_succ, countP_cons, countP_cons]
      omega

theorem countP_change {p q : ι → Bool} {i : ι} :
    ∀ {xs : List ι}, xs.Nodup → i ∈ xs → (∀ j ∈ xs, j ≠ i → q j = p j) →
      xs.countP q + (p i).toNat = xs.countP p + (q i).toNat := by
  intro xs
  induction xs with
  | nil => exact fun _ hi => absurd hi not_mem_nil
  | cons x xs ih =>
      intro hnd hi hpq
      obtain ⟨hx, hnd⟩ := nodup_cons.mp hnd
      rw [countP_cons, countP_cons]
      rcases mem_cons.mp hi with rfl | hmem
      · have hrest : xs.countP q = xs.countP p := by
          refine countP_congr fun j hj => ?_
          rw [hpq j (mem_cons_of_mem _ hj) fun heq => hx (heq ▸ hj)]
        rw [hrest]
        cases p i <;> cases q i <;> simp
      · have hne : x ≠ i := by
          rintro rfl
          exact hx hmem
        have := ih hnd hmem fun j hj => hpq j (mem_cons_of_mem _ hj)
        rw [hpq x mem_cons_self hne]
        omega

variable [DecidableEq ι]

end Family

theorem length_le_of_lt {l : List Nat} {b : Nat} (hn : l.Nodup)
    (hb : ∀ n ∈ l, n < b) : l.length ≤ b := by
  have hsub : l.toFinset ⊆ Finset.range b := by
    intro n hmem
    exact Finset.mem_range.mpr (hb n (mem_toFinset.mp hmem))
  have := Finset.card_le_card hsub
  rwa [toFinset_card_of_nodup hn, Finset.card_range] at this

end F7ly.Tally
