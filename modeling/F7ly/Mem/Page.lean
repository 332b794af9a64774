import Mathlib

/-!
# Sizes and page arithmetic

`NPROC` of `kernel/libs/param.h`, and `PGROUNDDOWN` and `PGROUNDUP` of
`kernel/mem/page.hh` on `uint64` addresses, which are natural numbers here; a sum
that can leave the type is taken modulo `2 ^ 64`.

Both roundings give page addresses; rounding up reaches the address unless that
lies in the last page of the address space, where the sum wraps.
-/

namespace F7ly

/-- `NPROC`, which is also `num_process`. -/
def numProcess : Nat := 512

/-- Addition of two `uint64`. -/
def add64 (a b : Nat) : Nat := (a + b) % 2 ^ 64

/-- Subtraction of two `uint64`. -/
def sub64 (a b : Nat) : Nat := (a + 2 ^ 64 - b) % 2 ^ 64

def pgSize : Nat := 4096

def pgRoundDown (a : Nat) : Nat := a / pgSize * pgSize

/-- `PGROUNDUP`: the addition wraps. -/
def pgRoundUp (a : Nat) : Nat := pgRoundDown (add64 a (pgSize - 1))

theorem pgRoundDown_le (a : Nat) : pgRoundDown a ≤ a := Nat.div_mul_le_self a pgSize

theorem pgRoundDown_mod (a : Nat) : pgRoundDown a % 4096 = 0 := Nat.mul_mod_left ..

theorem pgRoundUp_mod (a : Nat) : pgRoundUp a % 4096 = 0 := pgRoundDown_mod _

theorem pgRoundUp_lt (a : Nat) : pgRoundUp a < 2 ^ 64 :=
  Nat.lt_of_le_of_lt (pgRoundDown_le _) (Nat.mod_lt _ (by decide))

/-- The end of the last whole page before the address space ends. -/
def lastPage : Nat := 2 ^ 64 - 4096

theorem le_pgRoundUp {a : Nat} (h : a ≤ lastPage) : a ≤ pgRoundUp a := by
  unfold lastPage at h
  unfold pgRoundUp pgRoundDown add64 pgSize
  omega

theorem pgRoundUp_aligned {a : Nat} (h : a % 4096 = 0) (hlt : a < 2 ^ 64) : pgRoundUp a = a := by
  unfold pgRoundUp pgRoundDown add64 pgSize
  omega

end F7ly
