import Mathlib.Order.Interval.Set.OrdConnected
import Mathlib.Logic.Function.Iterate
import Mathlib.Tactic.Linarith

/-!
# Iterating a decreasing function until it settles

A loop that replaces `x` by `f x` until nothing changes, with a bound on its rounds.
For an antitone `f` the values jump back and forth across the fixed point while the
interval between two of them shrinks, and what can go wrong is a pair of numbers that
`f` exchanges: from outside of such a pair the loop never gets between them
(`settle_eq_none`).

Without such a pair the loop ends, and how soon depends on how fast the interval
shrinks. `Slow q` says that numbers at most `q * k` apart have images at most `k`
apart. A function that is slow on either side of one point takes at most thirteen
rounds from an interval of length `q ^ 3`: while the interval contains the point each
of its ends still moves slowly, and after four double rounds one of them stops.
-/

namespace F7ly.Settle

/-- At most `n` rounds; `none` if they do not suffice. -/
def settle (f : Nat → Nat) : Nat → Nat → Option Nat
  | 0, _ => none
  | n + 1, x => if f x = x then some x else settle f n (f x)

/-- `f` exchanges the two numbers. -/
def Swaps (f : Nat → Nat) (a b : Nat) : Prop := f a = b ∧ f b = a

/-- `f` maps the set into itself and reverses the order there. -/
structure Reverses (f : Nat → Nat) (D : Set Nat) : Prop where
  maps : ∀ x ∈ D, f x ∈ D
  antitone : AntitoneOn f D

/-- Numbers of the set at most `q * k` apart have images at most `k` apart. -/
def Slow (f : Nat → Nat) (q : Nat) (D : Set Nat) : Prop :=
  ∀ a ∈ D, ∀ b ∈ D, a ≤ b → ∀ k, b ≤ a + q * k → f a ≤ f b + k

section Rounds

variable {f : Nat → Nat} {D : Set Nat}

theorem settle_eq_none (hf : Reverses f D) {a b : Nat} (ha : a ∈ D) (hb : b ∈ D)
    (hab : a < b) (hswap : Swaps f a b) (n : Nat) {x : Nat} (hx : x ∈ D)
    (hout : x ≤ a ∨ b ≤ x) : settle f n x = none := by
  induction n generalizing x with
  | zero => rfl
  | succ n ih =>
      -- The next value is on the other side of the pair.
      have hnext : b ≤ f x ∧ x ≤ a ∨ f x ≤ a ∧ b ≤ x := by
        rcases hout with hle | hge
        · exact .inl ⟨hswap.1 ▸ hf.antitone hx ha hle, hle⟩
        · exact .inr ⟨hswap.2 ▸ hf.antitone hb hx hge, hge⟩
      rw [settle, if_neg (by omega)]
      exact ih (hf.maps x hx) (by omega)

theorem settle_eq_some {n x y c : Nat} (hx : x ≤ c) (hc : ∀ z, f z ≤ c)
    (h : settle f n x = some y) : f y = y ∧ y ≤ c := by
  induction n generalizing x with
  | zero => cases h
  | succ n ih =>
      rw [settle] at h
      split at h
      · next heq =>
        cases h
        exact ⟨heq, hx⟩
      · exact ih (hc x) h

theorem settle_succ {n x : Nat} (h : f x = x ∨ (settle f n (f x)).isSome) :
    (settle f (n + 1) x).isSome := by
  rw [settle]
  split
  · rfl
  · next hne => exact h.resolve_left hne

theorem settle_mono {m n x : Nat} (hmn : m ≤ n) (h : (settle f m x).isSome) :
    (settle f n x).isSome := by
  induction m generalizing n x with
  | zero => cases h
  | succ m ih =>
      obtain ⟨n, rfl⟩ : ∃ k, n = k + 1 := ⟨n - 1, by omega⟩
      refine settle_succ ?_
      rw [settle] at h
      split at h
      · next heq => exact .inl heq
      · exact .inr (ih (by omega) h)

def Inward (f : Nat → Nat) (x : Nat) : Prop :=
  f x ≤ f (f x) ∧ f (f x) ≤ x ∨ x ≤ f (f x) ∧ f (f x) ≤ f x

theorem Inward.next (hf : Reverses f D) {x : Nat} (hx : x ∈ D) (h : Inward f x) :
    Inward f (f x) := by
  have hy := hf.maps x hx
  have hz := hf.maps _ hy
  rcases h with ⟨h1, h2⟩ | ⟨h1, h2⟩
  · exact .inr ⟨hf.antitone hz hx h2, hf.antitone hy hz h1⟩
  · exact .inl ⟨hf.antitone hz hy h2, hf.antitone hx hz h1⟩

/-- A value and the next are at most `d` apart. -/
def Within (f : Nat → Nat) (d x : Nat) : Prop := x ≤ f x + d ∧ f x ≤ x + d

theorem Inward.within {d x : Nat} (h : Inward f x) (hw : Within f d x) : Within f d (f x) := by
  rw [Within] at hw ⊢
  rcases h with ⟨h1, h2⟩ | ⟨h1, h2⟩ <;> omega

theorem settle_two (hf : Reverses f D) {x : Nat} (hx : x ∈ D) (h : Inward f x)
    (hw : Within f 1 x) (hswap : ∀ a ∈ D, ∀ b ∈ D, a < b → ¬ Swaps f a b) :
    (settle f 2 x).isSome := by
  have hy := hf.maps x hx
  refine settle_succ ?_
  by_cases heq : f x = x
  · exact .inl heq
  refine .inr (settle_succ (.inl ?_))
  by_contra hne
  have hback : f (f x) = x := by
    rw [Within] at hw
    rcases h with ⟨h1, h2⟩ | ⟨h1, h2⟩ <;> omega
  rcases Nat.lt_or_gt_of_ne heq with hlt | hgt
  · exact hswap _ hy _ hx hlt ⟨hback, rfl⟩
  · exact hswap _ hx _ hy hgt ⟨rfl, hback⟩

theorem Slow.within {q d k x : Nat} {S : Set Nat} (hS : Slow f q S) (hf : Reverses f D)
    (hx : x ∈ D) (hxS : x ∈ S) (hyS : f x ∈ S) (hw : Within f d x) (hd : d ≤ q * k) :
    Within f k (f x) := by
  have hy := hf.maps x hx
  rw [Within] at hw ⊢
  rcases Nat.le_total x (f x) with hle | hle
  · have h1 := hS x hxS _ hyS hle k (by omega)
    have h2 := hf.antitone hx hy hle
    omega
  · have h1 := hS _ hyS x hxS hle k (by omega)
    have h2 := hf.antitone hy hx hle
    omega

theorem settle_five (hf : Reverses f D) {q x : Nat} {S : Set Nat} (hS : Slow f q S)
    (hconn : S.OrdConnected) (hx : x ∈ D) (hxS : x ∈ S) (hyS : f x ∈ S) (h : Inward f x)
    (hw : Within f (q ^ 3) x) (hswap : ∀ a ∈ D, ∀ b ∈ D, a < b → ¬ Swaps f a b) :
    (settle f 5 x).isSome := by
  have hbetween : ∀ {y}, Inward f y → y ∈ S → f y ∈ S → f (f y) ∈ S := by
    intro y hin hy hfy
    rcases hin with ⟨h1, h2⟩ | ⟨h1, h2⟩
    · exact hconn.out hfy hy ⟨h1, h2⟩
    · exact hconn.out hy hfy ⟨h1, h2⟩
  have hx1 := hf.maps x hx
  have hx2 := hf.maps _ hx1
  have hx3 := hf.maps _ hx2
  have h1 := h.next hf hx
  have h2 := h1.next hf hx1
  have h3 := h2.next hf hx2
  have hS2 := hbetween h hxS hyS
  have hS3 := hbetween h1 hyS hS2
  have hw1 : Within f (q ^ 2) (f x) := hS.within hf hx hxS hyS hw (by rw [pow_succ'])
  have hw2 : Within f q (f (f x)) := hS.within hf hx1 hyS hS2 hw1 (by rw [pow_two])
  have hw3 : Within f 1 (f (f (f x))) := hS.within hf hx2 hS2 hS3 hw2 (by rw [Nat.mul_one])
  exact settle_succ (.inr (settle_succ (.inr (settle_succ (.inr
    (settle_two hf hx3 h3 hw3 hswap))))))

end Rounds

section Sides

variable {f : Nat → Nat} {D : Set Nat}

theorem settle_iterate {n x : Nat} : ∀ {i : Nat}, (settle f n (f^[i] x)).isSome →
    (settle f (n + i) x).isSome := by
  intro i
  induction i generalizing x with
  | zero => exact id
  | succ i ih => exact fun h => settle_succ (.inr (ih h))

theorem Inward.iterate (hf : Reverses f D) {d x : Nat} (hx : x ∈ D) (h : Inward f x)
    (hw : Within f d x) (i : Nat) : f^[i] x ∈ D ∧ Inward f (f^[i] x) ∧ Within f d (f^[i] x) := by
  induction i with
  | zero => exact ⟨hx, h, hw⟩
  | succ i ih =>
      obtain ⟨h1, h2, h3⟩ := ih
      rw [Function.iterate_succ_apply']
      exact ⟨hf.maps _ h1, h2.next hf h1, h2.within h3⟩

/-- From above a point, the rounds do not stay on alternating sides of it: the two
ends of the interval come to rest within four double rounds, and two that rest are
exchanged. -/
theorem exists_same_side (hf : Reverses f D) {q B x : Nat} (hq : 2 ≤ q)
    (hlow : Slow f q (D ∩ Set.Iic B)) (hhigh : Slow f q (D ∩ Set.Ioi B)) (hx : x ∈ D)
    (hin : Inward f x) (hw : Within f (q ^ 3) x) (hB : B < x)
    (hswap : ∀ a ∈ D, ∀ b ∈ D, a < b → ¬ Swaps f a b) :
    ∃ i ≤ 8, (f^[i] x ≤ B ↔ f^[i + 1] x ≤ B) := by
  by_contra hnone
  have hall := fun i => hin.iterate hf hx hw i
  have hstep : ∀ i, f (f^[i] x) = f^[i + 1] x :=
    fun i => (Function.iterate_succ_apply' f i x).symm
  generalize hg : (fun i => f^[i] x) = g at *
  have hgi : ∀ i, f^[i] x = g i := fun i => congrFun hg i
  simp only [hgi] at hall hstep hnone
  have hx0 : g 0 = x := (hgi 0).symm
  have hcross : ∀ i, i ≤ 8 → (B < g i ↔ g (i + 1) ≤ B) := fun i hi => by
    have : ¬ (g i ≤ B ↔ g (i + 1) ≤ B) := fun h => hnone ⟨i, hi, h⟩
    omega
  have hside : ∀ j, j ≤ 4 → B < g (2 * j) ∧ g (2 * j + 1) ≤ B := by
    intro j hj
    induction j with
    | zero =>
        have h0 : B < g 0 := hx0 ▸ hB
        exact ⟨h0, (hcross 0 (by omega)).mp h0⟩
    | succ j ih =>
        have h2 : B < g (2 * j + 1 + 1) := by
          have := hcross (2 * j + 1) (by omega)
          omega
        exact ⟨h2, (hcross (2 * (j + 1)) (by omega)).mp h2⟩
  -- The upper ends come down, the lower ends go up.
  have hdown : ∀ j, j ≤ 3 → g (2 * j + 2) ≤ g (2 * j) := fun j hj => by
    have h1 := hside j (by omega)
    have h2 := (hall (2 * j)).2.1
    rw [Inward, hstep, hstep, show 2 * j + 1 + 1 = 2 * j + 2 from rfl] at h2
    omega
  have hup : ∀ j, j ≤ 3 → g (2 * j + 1) ≤ g (2 * j + 3) := fun j hj => by
    have h1 := hside (j + 1) (by omega)
    have h2 := (hall (2 * j + 1)).2.1
    rw [Inward, hstep, hstep, show 2 * j + 1 + 1 + 1 = 2 * j + 3 from rfl] at h2
    rw [show 2 * (j + 1) = 2 * j + 1 + 1 by omega] at h1
    have h3 := (hside j (by omega)).2
    omega
  have hslow : ∀ i j k, i ≤ j → j ≤ 4 → g (2 * i) ≤ g (2 * j) + q * k →
      g (2 * j) ≤ g (2 * i) → g (2 * j + 1) ≤ g (2 * i + 1) + k := by
    intro i j k hij hj hle hdown
    have := hhigh _ ⟨(hall (2 * j)).1, (hside j hj).1⟩ _
      ⟨(hall (2 * i)).1, (hside i (by omega)).1⟩ hdown k hle
    rwa [hstep, hstep] at this
  have hslow' : ∀ j k, j ≤ 3 → g (2 * j + 3) ≤ g (2 * j + 1) + q * k →
      g (2 * j + 2) ≤ g (2 * j + 4) + k := by
    intro j k hj hle
    have := hlow _ ⟨(hall (2 * j + 1)).1, (hside j (by omega)).2⟩ _
      ⟨(hall (2 * j + 3)).1, (hside (j + 1) (by omega)).2⟩ (hup j hj) k hle
    rwa [hstep, hstep] at this
  have hlast : B < g 8 ∧ g 9 ≤ B := hside 4 (by omega)
  have hd1 : g 4 ≤ g 2 := hdown 1 (by omega)
  have hd2 : g 6 ≤ g 4 := hdown 2 (by omega)
  have hd3 : g 8 ≤ g 6 := hdown 3 (by omega)
  have hu2 : g 5 ≤ g 7 := hup 2 (by omega)
  have hu3 : g 7 ≤ g 9 := hup 3 (by omega)
  have h02 : g 0 ≤ g 2 + q * q ^ 2 := by
    have hwidth := (hall 0).2.2.1
    have h1 : B < g 0 ∧ g 1 ≤ B := hside 0 (by omega)
    rw [hstep, Nat.zero_add, show q ^ 3 = q * q ^ 2 from pow_succ' q 2] at hwidth
    omega
  have h13 : g 3 ≤ g 1 + q * q := pow_two q ▸ hslow 0 1 (q ^ 2) (by omega) (by omega) h02
    (hdown 0 (by omega))
  have h24 : g 2 ≤ g 4 + q * 1 := (Nat.mul_one q).symm ▸ hslow' 0 q (by omega) h13
  have h35 : g 5 ≤ g 3 + 1 := hslow 1 2 1 (by omega) (by omega) h24 hd1
  have h46 : g 4 ≤ g 6 + 1 := hslow' 1 1 (by omega) (show g 5 ≤ g 3 + q * 1 by omega)
  have h57 : g 7 ≤ g 5 + 1 :=
    hslow 2 3 1 (by omega) (by omega) (show g 4 ≤ g 6 + q * 1 by omega) hd2
  have h68 : g 6 ≤ g 8 + 1 := hslow' 2 1 (by omega) (show g 7 ≤ g 5 + q * 1 by omega)
  have h59 : g 9 ≤ g 5 + 1 :=
    hslow 2 4 1 (by omega) (by omega) (show g 4 ≤ g 8 + q * 1 by omega) (hd3.trans hd2)
  -- Of the last two lower ends one has not moved.
  rcases (by omega : g 7 = g 5 ∨ g 9 = g 7) with hrest | hrest
  · have hback : f (g 7) = g 6 := by rw [hrest, hstep]
    exact hswap _ (hall 7).1 _ (hall 6).1 (by omega) ⟨hback, hstep 6⟩
  · have hback : f (g 9) = g 8 := by rw [hrest, hstep]
    exact hswap _ (hall 9).1 _ (hall 8).1 (by omega) ⟨hback, hstep 8⟩

/-- A function that reverses an interval, slowly on either side of one point, and
exchanges no pair settles from the top within thirteen rounds. -/
theorem settle_thirteen (hf : Reverses f D) (hD : D.OrdConnected) {q B x : Nat} (hq : 2 ≤ q)
    (hlow : Slow f q (D ∩ Set.Iic B)) (hhigh : Slow f q (D ∩ Set.Ioi B)) (hx : x ∈ D)
    (htop : ∀ y ∈ D, f y ≤ x) (hle : f x ≤ x) (hw : x ≤ f x + q ^ 3)
    (hswap : ∀ a ∈ D, ∀ b ∈ D, a < b → ¬ Swaps f a b) : (settle f 13 x).isSome := by
  have hy := hf.maps x hx
  have hin : Inward f x := .inl ⟨hf.antitone hy hx hle, htop _ hy⟩
  have hwithin : Within f (q ^ 3) x := ⟨hw, by omega⟩
  obtain ⟨i, hi, hsame⟩ : ∃ i ≤ 8, (f^[i] x ≤ B ↔ f^[i + 1] x ≤ B) := by
    rcases Nat.lt_or_ge B x with hB | hB
    · exact exists_same_side hf hq hlow hhigh hx hin hwithin hB hswap
    · exact ⟨0, by omega, iff_of_true hB (hle.trans hB)⟩
  obtain ⟨hxi, hini, hwi⟩ := hin.iterate hf hx hwithin i
  rw [Function.iterate_succ_apply'] at hsame
  have hyi := hf.maps _ hxi
  have hfive : (settle f 5 (f^[i] x)).isSome := by
    by_cases hB : f^[i] x ≤ B
    · exact settle_five hf hlow (hD.inter Set.ordConnected_Iic) hxi ⟨hxi, hB⟩
        ⟨hyi, hsame.mp hB⟩ hini hwi hswap
    · exact settle_five hf hhigh (hD.inter Set.ordConnected_Ioi) hxi
        ⟨hxi, Nat.not_le.mp hB⟩ ⟨hyi, Nat.not_le.mp fun h => hB (hsame.mpr h)⟩ hini hwi hswap
  exact settle_mono (by omega) (settle_iterate hfive)

theorem settle_eq_none_iff (hf : Reverses f D) (hD : D.OrdConnected) {q B x n : Nat}
    (hq : 2 ≤ q) (hlow : Slow f q (D ∩ Set.Iic B)) (hhigh : Slow f q (D ∩ Set.Ioi B))
    (hx : x ∈ D) (htop : ∀ y ∈ D, f y ≤ x) (hle : f x ≤ x) (hw : x ≤ f x + q ^ 3) (hn : 13 ≤ n) :
    settle f n x = none ↔ ∃ a ∈ D, ∃ b ∈ D, a < b ∧ Swaps f a b := by
  constructor
  · intro hnone
    by_contra hno
    have hsome := settle_mono hn (settle_thirteen hf hD hq hlow hhigh hx htop hle hw
      fun a ha b hb hab hswap => hno ⟨a, ha, b, hb, hab, hswap⟩)
    rw [hnone] at hsome
    cases hsome
  · intro ⟨a, ha, b, hb, hab, hswap⟩
    exact settle_eq_none hf ha hb hab hswap n hx (.inr (hswap.1 ▸ htop a ha))

end Sides

end F7ly.Settle
