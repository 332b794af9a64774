import Mathlib

/-!
# Half-open intervals of natural numbers

An interval is a start and a length. The one counting fact the users need:
pairwise disjoint intervals below a bound cover as many numbers as their
lengths add up to.
-/

namespace F7ly.Interval

/-- `p` lies in the interval `[b.1, b.1 + b.2)`. -/
def Covers (b : Nat × Nat) (p : Nat) : Prop := b.1 ≤ p ∧ p < b.1 + b.2

instance (b : Nat × Nat) (p : Nat) : Decidable (Covers b p) :=
  inferInstanceAs (Decidable (_ ∧ _))

def Apart (a b : Nat × Nat) : Prop := a.1 + a.2 ≤ b.1 ∨ b.1 + b.2 ≤ a.1

theorem Apart.symm {a b : Nat × Nat} (h : Apart a b) : Apart b a := Or.symm h

instance : Std.Symm Apart := ⟨fun _ _ => Apart.symm⟩

theorem Apart.not_covers {a b : Nat × Nat} {p : Nat} (h : Apart a b)
    (ha : Covers a p) : ¬ Covers b p := by
  rintro ⟨h1, h2⟩
  obtain ⟨h3, h4⟩ := ha
  rcases h with h | h <;> omega

theorem eq_of_covers {bs : List (Nat × Nat)} (hp : bs.Pairwise Apart)
    {a b : Nat × Nat} (ha : a ∈ bs) (hb : b ∈ bs) {p : Nat} (hap : Covers a p)
    (hbp : Covers b p) : a = b := by
  by_contra hne
  exact (hp.forall ha hb hne).not_covers hap hbp

def total (bs : List (Nat × Nat)) : Nat := (bs.map Prod.snd).sum

@[simp] theorem total_nil : total [] = 0 := rfl

@[simp] theorem total_cons (b : Nat × Nat) (bs : List (Nat × Nat)) :
    total (b :: bs) = b.2 + total bs := by simp [total]

theorem total_perm {as bs : List (Nat × Nat)} (h : as.Perm bs) :
    total as = total bs := (h.map Prod.snd).sum_eq

theorem count_covers {n : Nat} {b : Nat × Nat} (hb : b.1 + b.2 ≤ n) :
    Nat.count (Covers b) n = b.2 := by
  rw [Nat.count_eq_card_filter_range]
  have hfilter : (Finset.range n).filter (Covers b) = Finset.Ico b.1 (b.1 + b.2) := by
    ext p
    simp only [Finset.mem_filter, Finset.mem_range, Finset.mem_Ico, Covers]
    omega
  rw [hfilter, Nat.card_Ico]
  omega

/-- A number some interval misses is in one more interval or missed by all:
the step of the count below. -/
theorem count_uncovered_cons {n : Nat} {b : Nat × Nat}
    {bs : List (Nat × Nat)} (hb : ∀ c ∈ bs, Apart b c) :
    Nat.count (fun p => ∀ c ∈ bs, ¬ Covers c p) n =
      Nat.count (fun p => ∀ c ∈ b :: bs, ¬ Covers c p) n + Nat.count (Covers b) n := by
  induction n with
  | zero => simp
  | succ n ih =>
      rw [Nat.count_succ, Nat.count_succ, Nat.count_succ, ih]
      simp only [List.forall_mem_cons]
      by_cases hc : Covers b n
      · have hall : ∀ c ∈ bs, ¬ Covers c n :=
          fun c hmem => (hb c hmem).not_covers hc
        rw [if_pos hall, if_neg (fun h => h.1 hc), if_pos hc]
        omega
      · simp only [hc, not_false_eq_true, true_and, if_false]
        omega

theorem count_uncovered {n : Nat} {bs : List (Nat × Nat)}
    (hp : bs.Pairwise Apart) (hle : ∀ b ∈ bs, b.1 + b.2 ≤ n) :
    Nat.count (fun p => ∀ b ∈ bs, ¬ Covers b p) n + total bs = n := by
  induction bs with
  | nil => simp [Nat.count_true]
  | cons b bs ih =>
      obtain ⟨hb, hbs⟩ := List.pairwise_cons.mp hp
      obtain ⟨hb1, hle⟩ := List.forall_mem_cons.mp hle
      have hrest := ih hbs hle
      rw [count_uncovered_cons hb, count_covers hb1] at hrest
      rw [total_cons]
      omega

end F7ly.Interval
