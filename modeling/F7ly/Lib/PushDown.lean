import F7ly.Lib.ByteFile

/-!
# Pieces pushed downward

A memory into which pieces are written one below the other, from `hi` down to
`lo`. `Pushed` says of a list of pieces, the last one first, that they lie in
that order without overlap and that each can still be read; `push` is the rule
for one more, and `join` takes two that touch as one.
-/

namespace F7ly.PushDown

open ByteFile List

def readAt (mem : Nat → UInt8) (a n : Nat) : List UInt8 := slice (fun i => mem (a + i)) n

structure Pushed (lo hi : Nat) (mem : Nat → UInt8) (sp : Nat)
    (pieces : List (Nat × List UInt8)) : Prop where
  low : lo ≤ sp
  high : sp ≤ hi
  order : pieces.Pairwise fun p q => p.1 + p.2.length ≤ q.1
  within : ∀ p ∈ pieces, sp ≤ p.1 ∧ p.1 + p.2.length ≤ hi
  read : ∀ p ∈ pieces, readAt mem p.1 p.2.length = p.2

variable {lo hi sp a b : Nat} {mem : Nat → UInt8} {pieces : List (Nat × List UInt8)}
  {data x y : List UInt8}

theorem readAt_overlay_self (mem : Nat → UInt8) (a : Nat) (data : List UInt8) :
    readAt (overlay mem a data) a data.length = data := by
  refine ext_getElem (length_slice _ _) fun i hi hi' => ?_
  simp only [readAt, slice, getElem_map, getElem_range]
  rw [overlay, if_pos (by omega), Nat.add_sub_cancel_left]
  simp [hi']

theorem readAt_overlay_above {n : Nat} (h : a + data.length ≤ b) :
    readAt (overlay mem a data) b n = readAt mem b n :=
  slice_congr fun i _ => overlay_of_not_mem (by omega)

theorem Pushed.push (h : Pushed lo hi mem sp pieces) (hlow : lo ≤ a) (ha : a + data.length ≤ sp) :
    Pushed lo hi (overlay mem a data) a ((a, data) :: pieces) where
  low := hlow
  high := by
    have := h.high
    omega
  order := by
    refine pairwise_cons.mpr ⟨fun p hp => ?_, h.order⟩
    exact Nat.le_trans ha (h.within p hp).1
  within p hp := by
    rcases mem_cons.mp hp with rfl | hp
    · exact ⟨Nat.le_refl _, Nat.le_trans ha h.high⟩
    · have := h.within p hp
      omega
  read p hp := by
    rcases mem_cons.mp hp with rfl | hp
    · exact readAt_overlay_self mem a data
    · rw [readAt_overlay_above (Nat.le_trans ha (h.within p hp).1)]
      exact h.read p hp

theorem readAt_append (mem : Nat → UInt8) (a m n : Nat) :
    readAt mem a (m + n) = readAt mem a m ++ readAt mem (a + m) n := by
  simp [readAt, slice, range_add, Nat.add_assoc]

theorem Pushed.join (h : Pushed lo hi mem sp ((a, x) :: (b, y) :: pieces))
    (hab : a + x.length = b) : Pushed lo hi mem sp ((a, x ++ y) :: pieces) where
  low := h.low
  high := h.high
  order := by
    obtain ⟨-, horder⟩ := pairwise_cons.mp h.order
    obtain ⟨hb, horder⟩ := pairwise_cons.mp horder
    refine pairwise_cons.mpr ⟨fun p hp => ?_, horder⟩
    have := hb p hp
    dsimp only at this ⊢
    rw [length_append]
    omega
  within p hp := by
    rcases mem_cons.mp hp with rfl | hp
    · have ha := h.within _ (.head _)
      have hb := h.within _ (.tail _ (.head _))
      dsimp only at ha hb ⊢
      rw [length_append]
      omega
    · exact h.within p (.tail _ (.tail _ hp))
  read p hp := by
    rcases mem_cons.mp hp with rfl | hp
    · rw [length_append, readAt_append, hab]
      exact congrArg₂ _ (h.read _ (.head _)) (h.read _ (.tail _ (.head _)))
    · exact h.read p (.tail _ (.tail _ hp))

end F7ly.PushDown
