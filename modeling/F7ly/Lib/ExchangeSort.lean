import Mathlib.Data.List.Basic
import Mathlib.Tactic.Common

/-!
# Sorting by exchange

The double loop that compares position `left` with each later position `right` and
exchanges the two entries when they are out of order. Position `left` holds the least
entry once its round is over, so the loop goes on with what is behind it.
-/

namespace F7ly.ExchangeSort

variable {α : Type} (key : α → Nat)

/-- The round of one position: its entry at the end, and what is left behind it. -/
def round (x : α) : List α → α × List α
  | [] => (x, [])
  | y :: ys =>
      if key y < key x then
        let r := round y ys
        (r.1, x :: r.2)
      else
        let r := round x ys
        (r.1, y :: r.2)

theorem round_length (x : α) (ys : List α) : (round key x ys).2.length = ys.length := by
  fun_induction round key x ys with
  | case1 => rfl
  | case2 x y ys _ _ ih => simpa using ih
  | case3 x y ys _ _ ih => simpa using ih

def rounds : Nat → List α → List α
  | _, [] => []
  | 0, xs => xs
  | n + 1, x :: xs =>
      let r := round key x xs
      r.1 :: rounds n r.2

def sort (xs : List α) : List α := rounds key xs.length xs

theorem round_perm (x : α) (ys : List α) :
    ((round key x ys).1 :: (round key x ys).2).Perm (x :: ys) := by
  fun_induction round key x ys with
  | case1 => exact .refl _
  | case2 x y ys _ _ ih => exact (List.Perm.swap ..).trans (ih.cons x)
  | case3 x y ys _ _ ih =>
      exact (List.Perm.swap ..).trans ((ih.cons y).trans (List.Perm.swap ..))

theorem round_le_start (x : α) (ys : List α) : key (round key x ys).1 ≤ key x := by
  fun_induction round key x ys with
  | case1 => exact Nat.le_refl _
  | case2 x y ys hlt _ ih => exact Nat.le_trans ih (Nat.le_of_lt hlt)
  | case3 x y ys _ _ ih => exact ih

theorem round_least (x : α) (ys : List α) :
    ∀ z ∈ (round key x ys).2, key (round key x ys).1 ≤ key z := by
  fun_induction round key x ys with
  | case1 => exact fun z hz => (List.not_mem_nil hz).elim
  | case2 x y ys hlt r ih =>
      intro z hz
      rcases List.mem_cons.mp hz with rfl | hz
      · exact Nat.le_trans (round_le_start key y ys) (Nat.le_of_lt hlt)
      · exact ih z hz
  | case3 x y ys hle r ih =>
      intro z hz
      rcases List.mem_cons.mp hz with rfl | hz
      · exact Nat.le_trans (round_le_start key x ys) (Nat.le_of_not_lt hle)
      · exact ih z hz

theorem rounds_perm (n : Nat) (xs : List α) : (rounds key n xs).Perm xs := by
  fun_induction rounds key n xs with
  | case1 => exact .refl _
  | case2 => exact .refl _
  | case3 n x xs r ih => exact (ih.cons r.1).trans (round_perm key x xs)

theorem sort_perm (xs : List α) : (sort key xs).Perm xs := rounds_perm key _ xs

theorem rounds_sorted (n : Nat) (xs : List α) (h : xs.length ≤ n) :
    (rounds key n xs).Pairwise fun a b => key a ≤ key b := by
  fun_induction rounds key n xs with
  | case1 => exact .nil
  | case2 xs hne => exact absurd (List.length_eq_zero_iff.mp (Nat.le_zero.mp h)) hne
  | case3 n x xs r ih =>
      refine List.pairwise_cons.mpr ⟨fun z hz => ?_, ih ?_⟩
      · exact round_least key x xs z ((rounds_perm key n r.2).mem_iff.mp hz)
      · rw [round_length]
        exact Nat.le_of_succ_le_succ h

theorem sort_sorted (xs : List α) : (sort key xs).Pairwise fun a b => key a ≤ key b :=
  rounds_sorted key _ xs (Nat.le_refl _)

end F7ly.ExchangeSort
