import Mathlib.Data.Nat.Log
import Mathlib.Tactic.Linarith
import Mathlib.Tactic.Ring

/-!
# Complete binary trees laid out in an array

The usual implicit layout: node `i` has its children at `i * 2 + 1` and
`i * 2 + 2`, and the array is a plain function. `view` reads the complete
tree of a given height below an index back as an inductive value, so that a
program walking indices can be compared with a function recursing on trees.

Everything a comparison needs from the layout is about separation: which
indices a subtree occupies (`Below`), that the two children occupy disjoint
sets, that neither contains their parent, and that a write outside a subtree
does not show in its view. `view_subtree` goes the other way, from a property
every subtree inherits to the node at a given index, with the position of the
subtree among those of its level.
-/

namespace F7ly.HeapTree

def set {α : Type _} (t : Nat → α) (i : Nat) (a : α) : Nat → α :=
  fun j => if j = i then a else t j

@[simp] theorem set_same {α : Type _} (t : Nat → α) (i : Nat) (a : α) :
    set t i a i = a := by simp [set]

theorem set_other {α : Type _} (t : Nat → α) {i j : Nat} (a : α)
    (h : j ≠ i) : set t i a j = t j := by simp [set, h]

/-- A complete binary tree whose every node carries a label. -/
inductive PTree (α : Type _) where
  | leaf (a : α)
  | node (a : α) (l r : PTree α)

def PTree.root {α : Type _} : PTree α → α
  | .leaf a => a
  | .node a _ _ => a

def PTree.setRoot {α : Type _} (a : α) : PTree α → PTree α
  | .leaf _ => .leaf a
  | .node _ l r => .node a l r

/-- The complete tree of height `h` below index `i`. -/
def view {α : Type _} (t : Nat → α) : Nat → Nat → PTree α
  | 0, i => .leaf (t i)
  | h + 1, i => .node (t i) (view t h (i * 2 + 1)) (view t h (i * 2 + 2))

@[simp] theorem root_view {α : Type _} (t : Nat → α) (h i : Nat) :
    (view t h i).root = t i := by cases h <;> rfl

/-- Index `j` belongs to the complete tree of height `h` below `i`: counted
from one, the nodes `d` levels below `i` are a block of `2 ^ d` numbers. -/
def Below (h i j : Nat) : Prop :=
  ∃ d, d ≤ h ∧ 2 ^ d * (i + 1) ≤ j + 1 ∧ j + 1 < 2 ^ d * (i + 2)

theorem below_self (h i : Nat) : Below h i i := ⟨0, by omega, by omega, by omega⟩

theorem below_left {h i j : Nat} (hb : Below h (i * 2 + 1) j) : Below (h + 1) i j := by
  obtain ⟨d, hd, hlo, hhi⟩ := hb
  refine ⟨d + 1, by omega, ?_, ?_⟩ <;> rw [pow_succ] <;> nlinarith

theorem below_right {h i j : Nat} (hb : Below h (i * 2 + 2) j) : Below (h + 1) i j := by
  obtain ⟨d, hd, hlo, hhi⟩ := hb
  refine ⟨d + 1, by omega, ?_, ?_⟩ <;> rw [pow_succ] <;> nlinarith

theorem not_below_left (h i : Nat) : ¬ Below h (i * 2 + 1) i := by
  rintro ⟨d, -, hlo, -⟩
  have hp : 1 ≤ 2 ^ d := Nat.one_le_two_pow
  nlinarith

theorem not_below_right (h i : Nat) : ¬ Below h (i * 2 + 2) i := by
  rintro ⟨d, -, hlo, -⟩
  have hp : 1 ≤ 2 ^ d := Nat.one_le_two_pow
  nlinarith

/-- The depth at which a number sits below a root is its own bit length minus
the root's, so two blocks containing it are at the same depth. -/
theorem below_depth_unique {a b m d e : Nat} (ha : 2 ^ d * (a + 1) ≤ m)
    (ha' : m < 2 ^ d * (a + 2)) (hb : 2 ^ e * (b + 1) ≤ m)
    (hb' : m < 2 ^ e * (b + 2)) (hab : Nat.log 2 (a + 1) = Nat.log 2 (b + 1)) : d = e := by
  -- Both roots share a bit length, so `m`'s bit length pins either depth.
  have key : ∀ {c f : Nat}, 2 ^ f * (c + 1) ≤ m → m < 2 ^ f * (c + 2) →
      Nat.log 2 m = Nat.log 2 (c + 1) + f := by
    intro c f hlo hhi
    have h1 : 2 ^ Nat.log 2 (c + 1) ≤ c + 1 := Nat.pow_log_le_self 2 (by omega)
    have h2 : c + 1 < 2 ^ (Nat.log 2 (c + 1) + 1) :=
      Nat.lt_pow_succ_log_self (by omega) _
    have hp : 0 < 2 ^ f := Nat.two_pow_pos f
    refine (Nat.log_eq_iff (Or.inr ⟨by omega, by nlinarith⟩)).mpr ⟨?_, ?_⟩
    · rw [pow_add]; nlinarith
    · have h3 : c + 2 ≤ 2 ^ (Nat.log 2 (c + 1) + 1) := h2
      calc m < 2 ^ f * (c + 2) := hhi
        _ ≤ 2 ^ f * 2 ^ (Nat.log 2 (c + 1) + 1) := Nat.mul_le_mul_left _ h3
        _ = 2 ^ (Nat.log 2 (c + 1) + f + 1) := by rw [← pow_add]; congr 1; omega
  have h1 := key ha ha'
  have h2 := key hb hb'
  omega

theorem log_children (i : Nat) : Nat.log 2 (i * 2 + 1 + 1) = Nat.log 2 (i * 2 + 2 + 1) := by
  rw [Nat.log_of_one_lt_of_le (n := i * 2 + 1 + 1) (by omega) (by omega),
    Nat.log_of_one_lt_of_le (n := i * 2 + 2 + 1) (by omega) (by omega)]
  congr 2
  omega

theorem below_disjoint {h h' i j : Nat} (hl : Below h (i * 2 + 1) j)
    (hr : Below h' (i * 2 + 2) j) : False := by
  obtain ⟨d, -, hlo, hhi⟩ := hl
  obtain ⟨e, -, hlo', hhi'⟩ := hr
  have hde : d = e := below_depth_unique hlo hhi hlo' hhi' (log_children i)
  subst hde
  have : 2 ^ d * (i * 2 + 1 + 2) ≤ j + 1 := by
    rw [show i * 2 + 1 + 2 = i * 2 + 2 + 1 by omega]; exact hlo'
  omega

theorem view_congr {α : Type _} {t u : Nat → α} : ∀ {h i : Nat},
    (∀ j, Below h i j → t j = u j) → view t h i = view u h i := by
  intro h
  induction h with
  | zero =>
      intro i hag
      simp only [view, hag i (below_self 0 i)]
  | succ h ih =>
      intro i hag
      simp only [view]
      rw [hag i (below_self _ i), ih (fun j hj => hag j (below_left hj)),
        ih (fun j hj => hag j (below_right hj))]

theorem eq_of_view_eq {α : Type _} {t u : Nat → α} : ∀ {h i j : Nat},
    view t h i = view u h i → Below h i j → t j = u j := by
  intro h
  induction h with
  | zero =>
      intro i j hv ⟨d, hd, hlo, hhi⟩
      obtain rfl : d = 0 := by omega
      obtain rfl : j = i := by omega
      exact PTree.leaf.inj hv
  | succ h ih =>
      intro i j hv ⟨d, hd, hlo, hhi⟩
      obtain ⟨hroot, hl, hr⟩ := PTree.node.inj hv
      cases d with
      | zero =>
          obtain rfl : j = i := by omega
          exact hroot
      | succ d =>
          rw [pow_succ] at hlo hhi
          rcases Nat.lt_or_ge (j + 1) (2 ^ d * (i * 2 + 1 + 2)) with hlt | hge
          · exact ih hl ⟨d, by omega, by nlinarith, hlt⟩
          · exact ih hr ⟨d, by omega, hge, by nlinarith⟩

theorem view_set_root {α : Type _} (t : Nat → α) (h i : Nat) (a : α) :
    view (set t i a) h i = (view t h i).setRoot a := by
  cases h with
  | zero => simp [view, PTree.setRoot]
  | succ h =>
      simp only [view, PTree.setRoot, set_same]
      congr 1 <;> refine view_congr fun j hj => set_other t a ?_
      · rintro rfl; exact not_below_left h j hj
      · rintro rfl; exact not_below_right h j hj

theorem view_set_out {α : Type _} {t : Nat → α} {h i j : Nat} {a : α}
    (hj : ¬ Below h i j) : view (set t j a) h i = view t h i := by
  refine view_congr fun k hk => set_other t a ?_
  rintro rfl
  exact hj hk

/-- A property the children inherit from a node holds of every subtree of a
view. The property may mention how many leaves lie to the left, `off`, and
the conclusion says how many those are for the subtree at index `j`. -/
theorem view_subtree {α : Type _} {t : Nat → α} {P : Nat → Nat → PTree α → Prop}
    (hP : ∀ {h off a l r}, P (h + 1) off (.node a l r) → P h off l ∧ P h (off + 2 ^ h) r) :
    ∀ {d h i j off : Nat}, 2 ^ d * (i + 1) ≤ j + 1 → j + 1 < 2 ^ d * (i + 2) →
      P (h + d) off (view t (h + d) i) →
      P h (off + (j + 1 - 2 ^ d * (i + 1)) * 2 ^ h) (view t h j) := by
  intro d
  induction d with
  | zero =>
      intro h i j off hlo hhi hv
      obtain rfl : j = i := by omega
      simpa using hv
  | succ d ih =>
      intro h i j off hlo hhi hv
      obtain ⟨hl, hr⟩ : P (h + d) off _ ∧ P (h + d) (off + 2 ^ (h + d)) _ :=
        hP hv
      rw [pow_succ] at hlo hhi ⊢
      rcases Nat.lt_or_ge (j + 1) (2 ^ d * (i * 2 + 1 + 2)) with hlt | hge
      · have hsub := ih (by nlinarith) hlt hl
        rwa [show 2 ^ d * (i * 2 + 1 + 1) = 2 ^ d * 2 * (i + 1) by ring] at hsub
      · -- All of the left child's leaves come before.
        have hsub := ih (i := i * 2 + 2) hge (by nlinarith) hr
        have hsum : off + 2 ^ (h + d) + (j + 1 - 2 ^ d * (i * 2 + 2 + 1)) * 2 ^ h =
            off + (j + 1 - 2 ^ d * 2 * (i + 1)) * 2 ^ h := by
          have hge' : 2 ^ d * (i * 2 + 2 + 1) ≤ j + 1 := hge
          have hsplit : j + 1 - 2 ^ d * 2 * (i + 1) =
              2 ^ d + (j + 1 - 2 ^ d * (i * 2 + 2 + 1)) := by
            have : 2 ^ d * (i * 2 + 2 + 1) = 2 ^ d * 2 * (i + 1) + 2 ^ d := by ring
            omega
          rw [hsplit, Nat.add_mul, pow_add]
          ring
        rwa [hsum] at hsub

end F7ly.HeapTree
