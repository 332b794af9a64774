import Mathlib.Data.List.Chain
import Mathlib.Logic.Relation

/-!
# Relations without long chains

A relation is bounded by `k` if no chain has more than `k` members. Then it
has no cycle, and whatever is always held by something else is held, at the
far end of a chain, by something that is not. The rule for edits is
`bounded_link_iff`: what a new edge may join.
-/

namespace F7ly.Chain

open Relation List

variable {α : Type} {R S : α → α → Prop} {k : Nat}

def Bounded (R : α → α → Prop) (k : Nat) : Prop :=
  ∀ l : List α, l.IsChain R → l.length ≤ k

theorem Bounded.mono (h : Bounded R k) (hsub : ∀ {a b}, S a b → R a b) : Bounded S k :=
  fun l hl => h l (hl.imp fun _ _ => hsub)

/-- No chain from `a` has more than `n` members. -/
def Within (R : α → α → Prop) (a : α) (n : Nat) : Prop :=
  ∀ l : List α, (a :: l).IsChain R → l.length < n

theorem Bounded.within {n : Nat} (h : Bounded R k) (a : α) (hkn : k ≤ n) : Within R a n :=
  fun _ hl => (h _ hl).trans hkn

theorem Within.next {a b : α} {n : Nat} (h : Within R a (n + 1)) (hab : R a b) : Within R b n :=
  fun l hl => Nat.lt_of_succ_lt_succ (h (b :: l) (isChain_cons_cons.mpr ⟨hab, hl⟩))

theorem exists_chain_of_forall_succ {P : α → Prop} (hsucc : ∀ x, P x → ∃ y, P y ∧ R x y)
    (n : Nat) : ∀ x, P x → ∃ l : List α, (x :: l).IsChain R ∧ l.length = n := by
  induction n with
  | zero => exact fun x _ => ⟨[], .singleton x, rfl⟩
  | succ n ih =>
      intro x hx
      obtain ⟨y, hy, hxy⟩ := hsucc x hx
      obtain ⟨l, hl, hn⟩ := ih y hy
      exact ⟨y :: l, isChain_cons_cons.mpr ⟨hxy, hl⟩, by rw [length_cons, hn]⟩

theorem Bounded.acyclic (h : Bounded R k) (a : α) : ¬ TransGen R a a := by
  intro hcycle
  -- on the cycle there is always a next one
  have hsucc : ∀ x, TransGen R x a → ∃ y, TransGen R y a ∧ R x y := by
    intro x hx
    obtain ⟨y, hxy, hya⟩ := TransGen.head'_iff.mp hx
    obtain rfl | hya := reflTransGen_iff_eq_or_transGen.mp hya
    · exact ⟨a, hcycle, hxy⟩
    · exact ⟨y, hya, hxy⟩
  obtain ⟨l, hl, hn⟩ := exists_chain_of_forall_succ hsucc k a hcycle
  have := h _ hl
  rw [length_cons, hn] at this
  omega

/-- A relation has no cycle if the rank grows along every edge that another one
follows. -/
theorem acyclic_of_rank (rank : α → Nat) (h : ∀ {a b c}, R a b → R b c → rank a < rank b)
    (a : α) : ¬ TransGen R a a := by
  have hgrow : ∀ {b}, TransGen R a b → ∀ c, R b c → rank a < rank b := by
    intro b hab
    induction hab with
    | single hab => exact fun c hbc => h hab hbc
    | tail _ hbc ih => exact fun d hcd => (ih _ hbc).trans (h hbc hcd)
  intro hcycle
  obtain ⟨c, hac, -⟩ := TransGen.head'_iff.mp hcycle
  exact Nat.lt_irrefl _ (hgrow hcycle c hac)

/-- If everything in `P` is in `Q` or held by something in `P`, everything in
`P` is held, through some chain, by something in `Q`. -/
theorem Bounded.rooted (h : Bounded R k) {P Q : α → Prop}
    (hup : ∀ x, P x → Q x ∨ ∃ y, P y ∧ R y x) : ∀ x, P x → ∃ r, Q r ∧ ReflTransGen R r x := by
  intro x hx
  by_contra hno
  -- nobody above `x` is in `Q`, so the way up never ends
  have hsucc : ∀ y, P y ∧ ReflTransGen R y x → ∃ z, (P z ∧ ReflTransGen R z x) ∧ R z y := by
    intro y ⟨hy, hyx⟩
    obtain hq | ⟨z, hz, hzy⟩ := hup y hy
    · exact absurd ⟨y, hq, hyx⟩ hno
    · exact ⟨z, ⟨hz, .head hzy hyx⟩, hzy⟩
  obtain ⟨l, hl, hn⟩ := exists_chain_of_forall_succ (R := fun a b => R b a) hsucc k x
    ⟨hx, .refl⟩
  have := h _ (isChain_reverse.mpr hl)
  rw [length_reverse, length_cons, hn] at this
  omega

/-- `R` with an edge from `a` to `b`. -/
def Link (R : α → α → Prop) (a b : α) : α → α → Prop :=
  fun x y => R x y ∨ (x = a ∧ y = b)

/-- A chain with the new edge runs in the old relation, or up to `a` in the
old relation and on from `b`. -/
theorem Link.isChain_cases {a b : α} :
    ∀ {l : List α}, l.IsChain (Link R a b) →
      l.IsChain R ∨ ∃ l₁ l₂, l = l₁ ++ b :: l₂ ∧ l₁.IsChain R ∧ l₁.getLast? = some a ∧
        (b :: l₂).IsChain (Link R a b)
  | [], _ => .inl .nil
  | [x], _ => .inl (.singleton x)
  | x :: y :: l, h => by
      obtain ⟨hxy, hl⟩ := isChain_cons_cons.mp h
      obtain hR | ⟨rfl, rfl⟩ := hxy
      · obtain hold | ⟨l₁, l₂, heq, h₁, hlast, h₂⟩ := Link.isChain_cases hl
        · exact .inl (isChain_cons_cons.mpr ⟨hR, hold⟩)
        · cases l₁ with
          | nil => exact absurd hlast nofun
          | cons z l₁ =>
              obtain ⟨rfl, rfl⟩ := cons.inj heq
              refine .inr ⟨x :: y :: l₁, l₂, rfl, isChain_cons_cons.mpr ⟨hR, h₁⟩, ?_, h₂⟩
              rw [getLast?_cons_cons]
              exact hlast
      · exact .inr ⟨[x], l, rfl, .singleton x, rfl, hl⟩

theorem reflTransGen_of_isChain {a b : α} {l : List α} (h : l.IsChain R)
    (hhead : l.head? = some a) (hlast : l.getLast? = some b) : ReflTransGen R a b := by
  have hne : l ≠ [] := by
    intro hnil
    rw [hnil] at hhead
    cases hhead
  have hpath := relationReflTransGen_of_exists_isChain l h hne
  rw [head?_eq_some_head hne] at hhead
  rw [getLast?_eq_some_getLast hne] at hlast
  rwa [Option.some.inj hhead, Option.some.inj hlast] at hpath

/-- A new edge keeps the bound exactly when its ends are not joined the other
way round already and no chain up to the one and on from the other is too
long. -/
theorem bounded_link_iff {a b : α} (h : Bounded R k) :
    Bounded (Link R a b) k ↔ ¬ ReflTransGen R b a ∧
      ∀ l₁ l₂ : List α, l₁.IsChain R → l₁.getLast? = some a → l₂.IsChain R →
        l₂.head? = some b → l₁.length + l₂.length ≤ k := by
  constructor
  · intro hb
    refine ⟨fun hba => ?_, ?_⟩
    · refine hb.acyclic a (.head' (.inr ⟨rfl, rfl⟩) ?_)
      exact ReflTransGen.mono (fun _ _ => .inl) _ _ hba
    · intro l₁ l₂ h₁ hlast h₂ hhead
      rw [← length_append]
      refine hb _ (isChain_append.mpr ⟨h₁.imp fun _ _ => .inl, h₂.imp fun _ _ => .inl, ?_⟩)
      intro x hx y hy
      obtain rfl : a = x := Option.some.inj (hlast.symm.trans hx)
      obtain rfl : b = y := Option.some.inj (hhead.symm.trans hy)
      exact .inr ⟨rfl, rfl⟩
  · intro ⟨hpath, hlen⟩ l hl
    obtain hold | ⟨l₁, l₂, rfl, h₁, hlast, h₂⟩ := Link.isChain_cases hl
    · exact h l hold
    · have hrest : (b :: l₂).IsChain R := by
        obtain hold | ⟨m₁, m₂, heq, hm, hmlast, _⟩ := Link.isChain_cases h₂
        · exact hold
        · -- a second use of the edge would lead from `b` back to `a`
          cases m₁ with
          | nil => exact absurd hmlast nofun
          | cons z m₁ =>
              obtain ⟨rfl, _⟩ := cons.inj heq
              exact absurd (reflTransGen_of_isChain hm rfl hmlast) hpath
      rw [length_append]
      exact hlen l₁ (b :: l₂) h₁ hlast hrest rfl

end F7ly.Chain
