import Mathlib.Data.Nat.Basic
import Mathlib.Tactic.Ring

/-!
# Bytes in a flat memory

Numbers as little-endian byte strings, and a byte-addressed memory whose
addresses wrap. A structure of the program is a list of 64-bit words, stored
one after the other; reading word `k` of what was stored gives word `k` back,
and a store leaves everything outside its range alone.
-/

namespace F7ly.Bytes

open List

/-- The low `k` bytes of a number, least significant first. -/
def toBytes : Nat → Nat → List UInt8
  | 0, _ => []
  | k + 1, v => UInt8.ofNat v :: toBytes k (v / 256)

def ofBytes : List UInt8 → Nat
  | [] => 0
  | b :: bs => b.toNat + 256 * ofBytes bs

@[simp] theorem length_toBytes (k v : Nat) : (toBytes k v).length = k := by
  induction k generalizing v with
  | zero => rfl
  | succ k ih => simp [toBytes, ih]

theorem ofBytes_toBytes (k v : Nat) : ofBytes (toBytes k v) = v % 256 ^ k := by
  induction k generalizing v with
  | zero => simp [toBytes, ofBytes, Nat.mod_one]
  | succ k ih =>
      rw [toBytes, ofBytes, ih, Nat.pow_succ', Nat.mod_mul]
      simp [UInt8.toNat_ofNat']

def wordsBytes (ws : List (BitVec 64)) : List UInt8 :=
  ws.flatMap fun w => toBytes 8 w.toNat

/-- Word `k` of a byte string. -/
def wordAt (bs : List UInt8) (k : Nat) : BitVec 64 :=
  BitVec.ofNat 64 (ofBytes ((bs.drop (8 * k)).take 8))

@[simp] theorem length_wordsBytes (ws : List (BitVec 64)) :
    (wordsBytes ws).length = 8 * ws.length := by
  induction ws with
  | nil => rfl
  | cons w ws ih =>
      rw [wordsBytes, flatMap_cons, length_append, length_toBytes]
      rw [wordsBytes] at ih
      rw [ih, length_cons]
      omega

theorem wordAt_wordsBytes {ws : List (BitVec 64)} {k : Nat} {w : BitVec 64}
    (h : ws[k]? = some w) : wordAt (wordsBytes ws) k = w := by
  induction ws generalizing k with
  | nil => simp at h
  | cons v ws ih =>
      cases k with
      | zero =>
          obtain rfl : v = w := by simpa using h
          have hlen : (toBytes 8 v.toNat).length = 8 := length_toBytes _ _
          have htake : ((wordsBytes (v :: ws)).drop (8 * 0)).take 8 = toBytes 8 v.toNat := by
            rw [Nat.mul_zero, drop_zero, wordsBytes, flatMap_cons]
            exact take_left' hlen
          rw [wordAt, htake, ofBytes_toBytes]
          exact BitVec.eq_of_toNat_eq (by simpa using v.isLt)
      | succ k =>
          have hdrop : (wordsBytes (v :: ws)).drop (8 * (k + 1)) =
              (wordsBytes ws).drop (8 * k) := by
            rw [wordsBytes, flatMap_cons, Nat.mul_succ, Nat.add_comm,
              ← drop_drop, drop_left' (length_toBytes _ _)]
            rfl
          rw [wordAt, hdrop]
          exact ih h

variable {w : Nat}

def store (m : BitVec w → UInt8) (a : BitVec w) (bs : List UInt8) : BitVec w → UInt8 :=
  fun p => bs[(p - a).toNat]?.getD (m p)

/-- The `n` bytes from an address on. -/
def load (m : BitVec w → UInt8) (a : BitVec w) (n : Nat) : List UInt8 :=
  (range n).map fun i => m (a + BitVec.ofNat w i)

theorem load_congr {m m' : BitVec w → UInt8} {a : BitVec w} {n : Nat}
    (h : ∀ i, i < n → m (a + BitVec.ofNat w i) = m' (a + BitVec.ofNat w i)) :
    load m a n = load m' a n :=
  map_congr_left fun i hi => h i (mem_range.mp hi)

theorem offset_sub {a : BitVec w} {i j : Nat} (hij : j ≤ i) (hi : i < 2 ^ w) :
    (a + BitVec.ofNat w i - (a + BitVec.ofNat w j)).toNat = i - j := by
  have hsum : a + BitVec.ofNat w i = BitVec.ofNat w (i - j) + (a + BitVec.ofNat w j) := by
    have hofNat : BitVec.ofNat w i = BitVec.ofNat w (i - j) + BitVec.ofNat w j := by
      rw [← BitVec.ofNat_add, Nat.sub_add_cancel hij]
    rw [hofNat, ← BitVec.add_assoc, ← BitVec.add_assoc, BitVec.add_comm a (BitVec.ofNat w (i - j))]
  rw [hsum, BitVec.add_sub_cancel, BitVec.toNat_ofNat]
  exact Nat.mod_eq_of_lt (Nat.lt_of_le_of_lt (Nat.sub_le _ _) hi)

theorem offset_sub_lt {a : BitVec w} {i j : Nat} (hij : i < j) (hj : j < 2 ^ w) :
    (a + BitVec.ofNat w i - (a + BitVec.ofNat w j)).toNat = 2 ^ w - (j - i) := by
  have hneg : a + BitVec.ofNat w i - (a + BitVec.ofNat w j) =
      -(a + BitVec.ofNat w j - (a + BitVec.ofNat w i)) := by
    rw [BitVec.neg_sub, BitVec.sub_eq_add_neg, BitVec.add_comm]
  rw [hneg, BitVec.toNat_neg, offset_sub (Nat.le_of_lt hij) hj]
  exact Nat.mod_eq_of_lt (by omega)

/-- A store at offset `j` is seen at the offsets it covers and nowhere
else. -/
theorem store_offset (m : BitVec w → UInt8) {a : BitVec w} {bs : List UInt8}
    {i j : Nat} (hi : i < 2 ^ w) (hj : j + bs.length ≤ 2 ^ w) :
    store m (a + BitVec.ofNat w j) bs (a + BitVec.ofNat w i) =
      if j ≤ i ∧ i < j + bs.length then bs[i - j]?.getD 0 else m (a + BitVec.ofNat w i) := by
  rw [store]
  by_cases hij : j ≤ i
  · rw [offset_sub hij hi]
    by_cases hlt : i < j + bs.length
    · rw [if_pos ⟨hij, hlt⟩, getElem?_eq_getElem (by omega)]
      rfl
    · rw [if_neg (by omega), getElem?_eq_none (by omega)]
      rfl
  · rw [if_neg (by omega)]
    by_cases hnil : bs = []
    · simp [hnil]
    · have hpos := length_pos_iff.mpr hnil
      rw [offset_sub_lt (by omega) (by omega), getElem?_eq_none (by omega)]
      rfl

theorem load_store_self (m : BitVec w → UInt8) {a : BitVec w}
    {c : List UInt8} {j : Nat} (hj : j + c.length ≤ 2 ^ w) :
    load (store m (a + BitVec.ofNat w j) c) (a + BitVec.ofNat w j) c.length = c := by
  refine ext_getElem (by simp [load]) fun i hi hi' => ?_
  have haddr : a + BitVec.ofNat w j + BitVec.ofNat w i = a + BitVec.ofNat w (j + i) := by
    rw [BitVec.add_assoc, ← BitVec.ofNat_add]
  simp only [load, getElem_map, getElem_range, haddr]
  rw [store_offset m (by omega) hj, if_pos (by omega)]
  simp [hi']

theorem load_store_apart (m : BitVec w → UInt8) {a : BitVec w}
    {c : List UInt8} {j k n : Nat} (hj : j + c.length ≤ 2 ^ w)
    (hk : k + n ≤ 2 ^ w) (hapart : k + n ≤ j ∨ j + c.length ≤ k) :
    load (store m (a + BitVec.ofNat w j) c) (a + BitVec.ofNat w k) n =
      load m (a + BitVec.ofNat w k) n := by
  refine load_congr fun i hi => ?_
  rw [BitVec.add_assoc, ← BitVec.ofNat_add, store_offset m (by omega) hj, if_neg (by omega)]

end F7ly.Bytes
