import Mathlib.Data.List.Basic
import Mathlib.Data.Nat.ModEq
import Mathlib.Tactic.Ring

/-!
# Ring buffers

A ring of `size` cells in an array given as a function, read from `head` for
`count` cells with wrap-around. `contents` is the list it stands for. The
lemmas say what the three moves on such a ring do to that list: a block copy
in at the end, a block taken off the front, and a copy of the whole ring to
the start of another array. A block copy never wraps; what decides where it
may start is only that its first cell is the one after the last in use modulo
the size.
-/

namespace F7ly.Ring

/-- Copy `n` cells of `src` to the array from cell `start` on. -/
def blit {α : Type _} (buf : Nat → α) (start n : Nat) (src : Nat → α) : Nat → α :=
  fun j => if start ≤ j ∧ j < start + n then src (j - start) else buf j

/-- The first `n` cells of an array. -/
def cells {α : Type _} (src : Nat → α) (n : Nat) : List α :=
  (List.range n).map src

@[simp] theorem length_cells {α : Type _} (src : Nat → α) (n : Nat) :
    (cells src n).length = n := by simp [cells]

@[simp] theorem cells_zero {α : Type _} (src : Nat → α) : cells src 0 = [] :=
  rfl

theorem cells_congr {α : Type _} {f g : Nat → α} {n : Nat}
    (h : ∀ k, k < n → f k = g k) : cells f n = cells g n :=
  List.map_congr_left fun k hk => h k (List.mem_range.mp hk)

theorem cells_add {α : Type _} (f : Nat → α) (m n : Nat) :
    cells f (m + n) = cells f m ++ cells (fun k => f (m + k)) n := by
  simp [cells, List.range_add, Function.comp_def]

def contents {α : Type _} (buf : Nat → α) (size head count : Nat) : List α :=
  cells (fun k => buf ((head + k) % size)) count

theorem contents_blit {α : Type _} {buf src : Nat → α}
    {size head tail count n : Nat} (ht : tail % size = (head + count) % size)
    (hroom : tail + n ≤ size) (hfit : count + n ≤ size) :
    contents (blit buf tail n src) size head (count + n) =
      contents buf size head count ++ cells src n := by
  rw [contents, cells_add]
  congr 1
  · refine cells_congr fun k hk => ?_
    -- A cell in use is not among those overwritten: its distance from the
    -- head is smaller.
    have hout : ¬ (tail ≤ (head + k) % size ∧ (head + k) % size < tail + n) := by
      intro ⟨hlo, hhi⟩
      obtain ⟨j, hj⟩ : ∃ j, (head + k) % size = tail + j :=
        ⟨(head + k) % size - tail, by omega⟩
      have hmod : head + k ≡ head + (count + j) [MOD size] := by
        have h1 : head + k ≡ tail + j [MOD size] := by
          rw [← hj]; exact (Nat.mod_modEq _ _).symm
        have h2 : tail + j ≡ head + count + j [MOD size] :=
          Nat.ModEq.add_right j ht
        exact (h1.trans h2).trans (by rw [Nat.add_assoc])
      have hk' : k ≡ count + j [MOD size] := Nat.ModEq.add_left_cancel' head hmod
      have := Nat.ModEq.eq_of_lt_of_lt hk' (by omega) (by omega)
      omega
    simp only [blit, if_neg hout]
  · refine cells_congr fun k hk => ?_
    have hidx : (head + (count + k)) % size = tail + k := by
      rw [← Nat.add_assoc, Nat.add_mod, ← ht, ← Nat.add_mod]
      exact Nat.mod_eq_of_lt (by omega)
    simp only [blit, hidx]
    rw [if_pos ⟨by omega, by omega⟩, Nat.add_sub_cancel_left]

theorem contents_split {α : Type _} (buf : Nat → α) {size head count n : Nat}
    (hroom : head + n ≤ size) (hn : n ≤ count) :
    contents buf size head count = cells (fun k => buf (head + k)) n ++
        contents buf size ((head + n) % size) (count - n) := by
  conv_lhs => rw [contents, show count = n + (count - n) by omega, cells_add]
  congr 1
  · refine cells_congr fun k hk => ?_
    rw [Nat.mod_eq_of_lt (by omega)]
  · refine cells_congr fun k hk => ?_
    rw [Nat.mod_add_mod, Nat.add_assoc]

theorem contents_push {α : Type _} {buf : Nat → α} {size head count : Nat}
    (hroom : count < size) (x : α) :
    contents (Function.update buf ((head + count) % size) x) size head (count + 1) =
      contents buf size head count ++ [x] := by
  rw [contents, cells_add]
  congr 1
  · refine cells_congr fun k hk => Function.update_of_ne (fun heq => ?_) ..
    have hk' := Nat.ModEq.eq_of_lt_of_lt (Nat.ModEq.add_left_cancel' head heq)
      (by omega) hroom
    omega
  · simp [cells]

theorem contents_pop {α : Type _} (buf : Nat → α) (size head count : Nat) :
    contents buf size head (count + 1) =
      buf (head % size) :: contents buf size (head + 1) count := by
  rw [contents, Nat.add_comm count 1, cells_add]
  simp [cells, contents, Nat.add_assoc]

theorem contents_mod {α : Type _} {buf : Nat → α} {size m : Nat} (h : size ∣ m) (head count : Nat) :
    contents buf size (head % m) count = contents buf size head count := by
  refine cells_congr fun k _ => ?_
  rw [Nat.add_mod, Nat.mod_mod_of_dvd _ h, ← Nat.add_mod]

theorem contents_linear {α : Type _} {buf buf' : Nat → α}
    {size size' head count : Nat} (hfit : count ≤ size')
    (h : ∀ k, k < count → buf' k = buf ((head + k) % size)) :
    contents buf' size' 0 count = contents buf size head count := by
  refine cells_congr fun k hk => ?_
  rw [Nat.zero_add, Nat.mod_eq_of_lt (by omega), h k hk]

end F7ly.Ring
