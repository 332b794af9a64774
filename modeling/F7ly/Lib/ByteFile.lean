import Mathlib.Tactic.Common

/-!
# A file as an array of bytes

A file is its size and its bytes, and beyond its size every byte is zero, so a
write past the end leaves a hole of zeros without saying so. The laws are the
ones a cache in front of a file needs: what is buffered is a `slice` of a
buffer, a write into the buffered range is an `overlay` of the buffer, and a
read of that range is a read of the buffer.
-/

namespace F7ly

open List

@[ext] structure ByteFile where
  size : Nat
  byte : Nat → UInt8
  zero : ∀ i, size ≤ i → byte i = 0

namespace ByteFile

/-- `n` bytes of a buffer. -/
def slice (b : Nat → UInt8) (n : Nat) : List UInt8 := (range n).map b

def overlay (b : Nat → UInt8) (off : Nat) (data : List UInt8) : Nat → UInt8 :=
  fun i => if off ≤ i ∧ i < off + data.length then data.getD (i - off) 0 else b i

def read (A : ByteFile) (off len : Nat) : List UInt8 :=
  slice (fun i => A.byte (off + i)) (min len (A.size - off))

def write (A : ByteFile) (off : Nat) (data : List UInt8) : ByteFile where
  size := if data = [] then A.size else max A.size (off + data.length)
  byte := overlay A.byte off data
  zero i hi := by
    have hA : A.size ≤ i ∧ ¬ (off ≤ i ∧ i < off + data.length) := by
      split at hi
      · next hnil =>
          rw [hnil, length_nil]
          omega
      · omega
    rw [overlay, if_neg hA.2]
    exact A.zero i hA.1

@[simp] theorem length_slice (b : Nat → UInt8) (n : Nat) : (slice b n).length = n := by
  simp [slice]

theorem slice_congr {b b' : Nat → UInt8} {n : Nat} (h : ∀ i, i < n → b i = b' i) :
    slice b n = slice b' n :=
  map_congr_left fun i hi => h i (mem_range.mp hi)

theorem overlay_of_not_mem {b : Nat → UInt8} {off i : Nat} {data : List UInt8}
    (h : i < off ∨ off + data.length ≤ i) : overlay b off data i = b i :=
  if_neg (by omega)

@[simp] theorem write_nil (A : ByteFile) (off : Nat) : A.write off [] = A := by
  refine ByteFile.ext ?_ (funext fun i => ?_)
  · rfl
  · exact overlay_of_not_mem (by rw [length_nil]; omega)

theorem size_write {A : ByteFile} {off : Nat} {data : List UInt8} (h : data ≠ []) :
    (A.write off data).size = max A.size (off + data.length) := if_neg h

theorem write_append (A : ByteFile) (off : Nat) (x y : List UInt8) :
    (A.write off x).write (off + x.length) y = A.write off (x ++ y) := by
  by_cases hx : x = []
  · rw [hx, write_nil, length_nil, Nat.add_zero, nil_append]
  by_cases hy : y = []
  · rw [hy, write_nil, append_nil]
  refine ByteFile.ext ?_ (funext fun i => ?_)
  · rw [size_write hy, size_write hx, size_write (append_ne_nil_of_left_ne_nil hx y), length_append]
    omega
  · change overlay (overlay A.byte off x) (off + x.length) y i = overlay A.byte off (x ++ y) i
    simp only [overlay, length_append]
    by_cases h : off + x.length ≤ i ∧ i < off + x.length + y.length
    · rw [if_pos h, if_pos (by omega), getD_eq_getElem?_getD, getD_eq_getElem?_getD,
        getElem?_append_right (by omega)]
      congr 2
      omega
    · rw [if_neg h]
      by_cases h' : off ≤ i ∧ i < off + x.length
      · rw [if_pos h', if_pos (by omega), getD_eq_getElem?_getD, getD_eq_getElem?_getD,
          getElem?_append_left (by omega)]
      · rw [if_neg h', if_neg (by omega)]

def tail (A : ByteFile) (off : Nat) : List UInt8 := A.read off A.size

@[simp] theorem length_tail (A : ByteFile) (off : Nat) : (A.tail off).length = A.size - off := by
  rw [tail, read, length_slice]
  omega

theorem read_eq_take_tail (A : ByteFile) (off n : Nat) : A.read off n = (A.tail off).take n := by
  rw [tail, read, read, slice, slice, ← map_take, take_range]
  congr 2
  omega

/-- A write behind what is read, or in front of it, does not change it. The end of the
file does not come into it if the range that is read lies in the file or behind the
write. -/
theorem read_write_apart {A : ByteFile} {off n pos : Nat} {data : List UInt8}
    (h : off + n ≤ A.size ∧ off + n ≤ pos ∨ pos + data.length ≤ off) :
    (A.write pos data).read off n = A.read off n := by
  by_cases hnil : data = []
  · rw [hnil, write_nil]
  have hlen : min n ((A.write pos data).size - off) = min n (A.size - off) := by
    rw [size_write hnil]
    omega
  rw [read, read, hlen]
  refine slice_congr fun i hi => overlay_of_not_mem ?_
  omega

theorem tail_add (A : ByteFile) (off n : Nat) : A.tail (off + n) = (A.tail off).drop n := by
  refine ext_getElem (by simp; omega) fun i hi hi' => ?_
  simp [tail, read, slice, Nat.add_assoc]

end ByteFile

end F7ly
