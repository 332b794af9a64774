import Mathlib.Data.List.Basic

/-!
# Streams with several writers

A stream to which several writers append, each item with the number of the
writer who brought it. `ofWriter` is what one writer brought, in order, and a
stream serves a family of lists if every writer brought exactly its list: it is
some shuffle of them. `exists_serving` is the rule for prefixes: a stream in
which nobody is ahead of its list can be continued to one that serves them all.
-/

namespace F7ly.Shuffle

variable {α : Type}

structure Item (α : Type) where
  writer : Nat
  value : α
  deriving DecidableEq

def tag (k : Nat) (l : List α) : List (Item α) := l.map (⟨k, ·⟩)

def ofWriter (k : Nat) (l : List (Item α)) : List α :=
  (l.filter (·.writer = k)).map (·.value)

@[simp] theorem ofWriter_nil (k : Nat) : ofWriter k ([] : List (Item α)) = [] := rfl

@[simp] theorem ofWriter_append (k : Nat) (l l' : List (Item α)) :
    ofWriter k (l ++ l') = ofWriter k l ++ ofWriter k l' := by
  simp [ofWriter]

@[simp] theorem length_tag (k : Nat) (l : List α) : (tag k l).length = l.length := by
  simp [tag]

theorem drop_tag (k n : Nat) (l : List α) : (tag k l).drop n = tag k (l.drop n) := by
  simp [tag]

@[simp] theorem ofWriter_tag_self (k : Nat) (l : List α) : ofWriter k (tag k l) = l := by
  simp [ofWriter, tag, List.filter_map, Function.comp_def]

theorem ofWriter_tag_ne {j k : Nat} (h : j ≠ k) (l : List α) : ofWriter k (tag j l) = [] := by
  simp [ofWriter, tag, List.filter_map, Function.comp_def, h]

/-- What is missing of the lists of the writers below `n`. -/
def missing (lists : Nat → List α) (l : List (Item α)) (n : Nat) : List (Item α) :=
  (List.range n).flatMap fun k => tag k ((lists k).drop (ofWriter k l).length)

theorem ofWriter_missing (lists : Nat → List α) (l : List (Item α)) (k n : Nat) :
    ofWriter k (missing lists l n) =
      if k < n then (lists k).drop (ofWriter k l).length else [] := by
  induction n with
  | zero => rfl
  | succ n ih =>
      rw [missing, List.range_succ, List.flatMap_append, ofWriter_append, List.flatMap_singleton,
        ← missing, ih]
      by_cases hk : n = k
      · subst hk
        simp
      · rw [ofWriter_tag_ne hk, List.append_nil]
        congr 1
        simp only [eq_iff_iff]
        omega

theorem exists_serving {lists : Nat → List α} {l : List (Item α)} {n : Nat}
    (h : ∀ k < n, ofWriter k l <+: lists k) :
    ∃ order, l <+: order ∧ (∀ k < n, ofWriter k order = lists k) ∧
      ∀ k, n ≤ k → ofWriter k order = ofWriter k l := by
  refine ⟨l ++ missing lists l n, List.prefix_append _ _, fun k hk => ?_, fun k hk => ?_⟩
  · rw [ofWriter_append, ofWriter_missing, if_pos hk]
    obtain ⟨rest, hrest⟩ := h k hk
    rw [← hrest, List.drop_left]
  · rw [ofWriter_append, ofWriter_missing, if_neg (Nat.not_lt.mpr hk), List.append_nil]

end F7ly.Shuffle
