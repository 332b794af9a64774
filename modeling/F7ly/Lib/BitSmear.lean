import Mathlib.Data.Nat.Log
import Mathlib.Data.Nat.Bitwise

/-!
# Filling a word below its highest bit

The branch-free round-up to a power of two ORs a word with copies of itself
shifted by 1, 2, 4, 8 and 16. After each step a bit is set exactly when one
of the bits in a window above it was set in the original; the windows double,
and once they are as wide as the word the result is all ones up to the
highest bit. `Smeared` is that invariant with the window as a parameter,
`smeared_step` the one step, and `smeared_full` the reading at the end.
-/

namespace F7ly.BitSmear

/-- Bit `i` of `z` says whether `y` has a bit in `[i, i + w)`. -/
def Smeared (w y z : Nat) : Prop :=
  ∀ i, z.testBit i = true ↔ ∃ j, i ≤ j ∧ j < i + w ∧ y.testBit j = true

theorem smeared_one (y : Nat) : Smeared 1 y y := by
  intro i
  constructor
  · intro h
    exact ⟨i, by omega, by omega, h⟩
  · rintro ⟨j, h1, h2, h⟩
    rwa [show i = j by omega]

theorem smeared_step {w y z : Nat} (h : Smeared w y z) {s : Nat} (hs : s ≤ w) :
    Smeared (w + s) y (z ||| z >>> s) := by
  intro i
  rw [Nat.testBit_or, Nat.testBit_shiftRight, Bool.or_eq_true, h i, h (s + i)]
  constructor
  · rintro (⟨j, h1, h2, hj⟩ | ⟨j, h1, h2, hj⟩)
    · exact ⟨j, h1, by omega, hj⟩
    · exact ⟨j, by omega, by omega, hj⟩
  · rintro ⟨j, h1, h2, hj⟩
    rcases Nat.lt_or_ge j (i + w) with hlt | hge
    · exact .inl ⟨j, h1, hlt, hj⟩
    · exact .inr ⟨j, by omega, by omega, hj⟩

theorem smeared_full {w y z : Nat} (h : Smeared w y z) (hy : y < 2 ^ w)
    (h0 : y ≠ 0) : z + 1 = 2 ^ (Nat.log 2 y + 1) := by
  have hz : z = 2 ^ (Nat.log 2 y + 1) - 1 := by
    refine Nat.eq_of_testBit_eq fun i => ?_
    rw [Nat.testBit_two_pow_sub_one, Bool.eq_iff_iff, h i, decide_eq_true_eq]
    constructor
    · rintro ⟨j, h1, -, hj⟩
      have hle : 2 ^ j ≤ y := Nat.ge_two_pow_of_testBit hj
      have := Nat.le_log_of_pow_le (b := 2) (by omega) hle
      omega
    · intro hi
      refine ⟨Nat.log 2 y, by omega, ?_, ?_⟩
      · have : Nat.log 2 y < w := Nat.log_lt_of_lt_pow h0 hy
        omega
      · rw [← Nat.log2_eq_log_two]
        exact Nat.testBit_log2 h0
  have hp : 0 < 2 ^ (Nat.log 2 y + 1) := Nat.two_pow_pos _
  omega

theorem smeared_zero {w z : Nat} (h : Smeared w 0 z) : z = 0 := by
  refine Nat.eq_of_testBit_eq fun i => ?_
  rw [Nat.zero_testBit, Bool.eq_false_iff]
  intro hi
  obtain ⟨j, -, -, hj⟩ := (h i).mp hi
  simp at hj

def smear32 (y : Nat) : Nat :=
  let y := y ||| y >>> 1
  let y := y ||| y >>> 2
  let y := y ||| y >>> 4
  let y := y ||| y >>> 8
  y ||| y >>> 16

theorem smear32_smeared (y : Nat) : Smeared 32 y (smear32 y) := by
  have h1 := smeared_step (smeared_one y) (s := 1) (by omega)
  have h2 := smeared_step h1 (s := 2) (by omega)
  have h3 := smeared_step h2 (s := 4) (by omega)
  have h4 := smeared_step h3 (s := 8) (by omega)
  exact smeared_step h4 (s := 16) (by omega)

/-- Rounding up: one less, smeared, plus one is the least power of two at or
above the number. -/
theorem smear32_pred_succ {x : Nat} (h0 : x ≠ 0) (hx : x ≤ 2 ^ 32) :
    smear32 (x - 1) + 1 = 2 ^ Nat.clog 2 x := by
  rcases Nat.eq_or_lt_of_le (Nat.one_le_iff_ne_zero.mpr h0) with h1 | h1
  · rw [← h1, smeared_zero (smear32_smeared _)]
    simp
  · rw [smeared_full (smear32_smeared (x - 1)) (by omega) (by omega)]
    have hlo : 2 ^ Nat.log 2 (x - 1) ≤ x - 1 := Nat.pow_log_le_self 2 (by omega)
    have hhi : x - 1 < 2 ^ (Nat.log 2 (x - 1) + 1) :=
      Nat.lt_pow_succ_log_self (by omega) _
    have hle : Nat.clog 2 x ≤ Nat.log 2 (x - 1) + 1 :=
      Nat.clog_le_of_le_pow (by omega)
    have hlt : Nat.log 2 (x - 1) < Nat.clog 2 x :=
      (Nat.lt_clog_iff_pow_lt (by omega)).mpr (by omega)
    rw [show Nat.clog 2 x = Nat.log 2 (x - 1) + 1 by omega]

end F7ly.BitSmear
