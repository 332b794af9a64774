import F7ly.Lib.Settle
import F7ly.Mem.PmmLayout
import F7ly.Proofs.BuddyInit

/-!
# The layout loops

Both loops look for a number of pages that is what is left beside the metadata for
that many. More pages need more metadata, so each is an iteration of an antitone
function; the metadata grows by a page for every 2048 pages and, where the number of
pages passes a power of two, by the half of the tree that is new. A region for which
two numbers of pages each are what the other leaves has the loop go back and forth
between them until it gives up, and there are no other regions like that.
-/

namespace F7ly.Mem

open F7ly.Devs (maxU64)
open F7ly.Settle
open BuddySystem (requiredTreeBytes capacityPagesFor nextPowerOfTwo)

/-- The room that the tree for `m` pages takes in front of the counts. Above `2 ^ 31`
pages its size has wrapped, and so has the sum with its address. -/
def treeRoom (m : Nat) : Nat := (requiredTreeBytes m + 1) % 2 ^ 64

theorem requiredTreeBytes_eq {m : Nat} (h0 : m ≠ 0) (hm : m ≤ 2 ^ 31) :
    requiredTreeBytes m + 1 = 2 * 2 ^ Nat.clog 2 m := by
  have hle : Nat.clog 2 m ≤ 31 := Nat.clog_le_of_le_pow hm
  have hpow : 2 ^ Nat.clog 2 m ≤ 2 ^ 31 := Nat.pow_le_pow_right (by omega) hle
  have hpos : 0 < 2 ^ Nat.clog 2 m := Nat.two_pow_pos _
  rw [requiredTreeBytes, BuddySystem.capacityPagesFor_eq h0 hm]
  omega

theorem requiredTreeBytes_zero : requiredTreeBytes 0 = 1 := by decide

theorem requiredTreeBytes_odd (m : Nat) : requiredTreeBytes m % 2 = 1 := by
  rw [requiredTreeBytes]
  omega

theorem clog_eq {j m : Nat} (hlo : 2 ^ j < 2 * m) (hhi : m ≤ 2 ^ j) : Nat.clog 2 m = j := by
  refine Nat.le_antisymm (Nat.clog_le_of_le_pow hhi) ?_
  cases j with
  | zero => exact Nat.zero_le _
  | succ j =>
      exact (Nat.lt_clog_iff_pow_lt (by omega)).mpr (by omega)

theorem treeRoom_eq {m : Nat} (h0 : m ≠ 0) (hm : m ≤ 2 ^ 31) :
    treeRoom m = 2 * 2 ^ Nat.clog 2 m := by
  have hle : Nat.clog 2 m ≤ 31 := Nat.clog_le_of_le_pow hm
  have hpow : 2 ^ Nat.clog 2 m ≤ 2 ^ 31 := Nat.pow_le_pow_right (by omega) hle
  rw [treeRoom, requiredTreeBytes_eq h0 hm, Nat.mod_eq_of_lt (by omega)]

theorem treeRoom_wide {m : Nat} (hlo : 2 ^ 31 < m) (hhi : m < 2 ^ 32) : treeRoom m = 0 := by
  rw [treeRoom, BuddySystem.requiredTreeBytes_wide hlo hhi]
  decide

variable {a b : Nat} {D : Set Nat}

theorem requiredTreeBytes_mono (hab : a ≤ b) (hb : b ≤ 2 ^ 31) :
    requiredTreeBytes a ≤ requiredTreeBytes b := by
  rcases Nat.eq_zero_or_pos a with rfl | ha
  · rw [requiredTreeBytes_zero]
    have := requiredTreeBytes_odd b
    omega
  · have h1 := requiredTreeBytes_eq (by omega : a ≠ 0) (by omega)
    have h2 := requiredTreeBytes_eq (by omega : b ≠ 0) hb
    have hpow : 2 ^ Nat.clog 2 a ≤ 2 ^ Nat.clog 2 b :=
      Nat.pow_le_pow_right (by omega) (Nat.clog_mono_right 2 hab)
    omega

theorem requiredTreeBytes_le {m : Nat} (hm : m ≤ 2 ^ 31) : requiredTreeBytes m ≤ 4 * m + 1 := by
  rcases Nat.lt_or_ge m 2 with hlt | hge
  · have h0 := requiredTreeBytes_zero
    have h1 : requiredTreeBytes 1 = 1 := by decide
    obtain rfl | rfl : m = 0 ∨ m = 1 := by omega
    · omega
    · omega
  · have h1 := requiredTreeBytes_eq (by omega : m ≠ 0) hm
    have h2 : 2 ^ (Nat.clog 2 m).pred < m := Nat.pow_pred_clog_lt_self (by omega) (by omega)
    have hpos : 0 < Nat.clog 2 m := Nat.clog_pos (by omega) (by omega)
    obtain ⟨j, hj⟩ : ∃ j, Nat.clog 2 m = j + 1 := ⟨Nat.clog 2 m - 1, by omega⟩
    rw [hj, pow_succ] at h1
    rw [hj, Nat.pred_succ] at h2
    omega

theorem treeRoom_le {m : Nat} (hm : m < 2 ^ 32) : treeRoom m ≤ 4 * m + 2 := by
  rcases Nat.lt_or_ge (2 ^ 31) m with hlo | hle
  · rw [treeRoom_wide hlo hm]
    omega
  · have := requiredTreeBytes_le hle
    rw [treeRoom]
    omega

theorem treeRoom_mono (hab : a ≤ b) (hb : b ≤ 2 ^ 31) : treeRoom a ≤ treeRoom b := by
  have h1 := requiredTreeBytes_mono hab hb
  have h2 := requiredTreeBytes_le hb
  rw [treeRoom, treeRoom]
  omega

/-- The pages in front of `m` managed pages: the allocator, its tree and the counts. -/
def metadataPages (m : Nat) : Nat :=
  (buddySystemBytes + treeRoom m + m * 2 + (pgSize - 1)) / pgSize

theorem metadataPages_le {m P : Nat} (hm : m ≤ P) (hP : P < 2 ^ 32) :
    metadataPages m ≤ (6 * P + 4137) / 4096 := by
  have := treeRoom_le (show m < 2 ^ 32 by omega)
  unfold metadataPages buddySystemBytes pgSize
  omega

theorem metadataPages_mono (hab : a ≤ b) (hroom : treeRoom a ≤ treeRoom b) :
    metadataPages a ≤ metadataPages b := by
  exact Nat.div_le_div_right (by omega)

theorem metadataPages_slow {k : Nat} (hroom : treeRoom b = treeRoom a)
    (hb : b ≤ a + 2048 * k) : metadataPages b ≤ metadataPages a + k := by
  unfold metadataPages pgSize
  omega

section Candidate

variable {start limit P m : Nat}

theorem pmmCandidate_eq (hstart : start % 4096 = 0)
    (hend : start + metadataPages m * 4096 < 2 ^ 64) :
    pmmCandidate start m =
      { metadataStart := start
        metadataEnd := start + metadataPages m * 4096
        treeStart := start + 40
        treeBytes := requiredTreeBytes m
        refcountStart := start + 40 + treeRoom m
        refcountBytes := m * 2
        managedStart := start + metadataPages m * 4096
        managedPages := m } := by
  have hodd := requiredTreeBytes_odd m
  have hroom : treeRoom m = (requiredTreeBytes m + 1) % 2 ^ 64 := rfl
  have hpages : buddySystemBytes + treeRoom m + m * 2 ≤ metadataPages m * 4096 ∧
      metadataPages m * 4096 < buddySystemBytes + treeRoom m + m * 2 + 4096 := by
    unfold metadataPages pgSize
    omega
  rw [pmmCandidate]
  generalize metadataPages m = pages at *
  generalize requiredTreeBytes m = bytes at *
  generalize treeRoom m = room at *
  have htree : alignUp (add64 start buddySystemBytes) 8 = start + 40 := by
    unfold alignUp add64 buddySystemBytes
    omega
  have hcounts : alignUp (add64 (start + 40) bytes) 2 = start + 40 + room := by
    unfold alignUp add64
    omega
  have hmeta : pgRoundUp (add64 (start + 40 + room) (m * 2)) = start + pages * 4096 := by
    unfold buddySystemBytes at hpages
    unfold pgRoundUp pgRoundDown add64 pgSize
    omega
  simp [htree, hcounts, hmeta]

/-- What the pages of a region of `P` pages leave beside their metadata. -/
def pagesLeft (P m : Nat) : Nat := P - metadataPages m

theorem metadataPages_lt (hP : 2 ≤ P) (hlt : P < 2 ^ 32) (hm : m ≤ P) : metadataPages m < P := by
  have := metadataPages_le hm hlt
  omega

/-- The loop is the iteration of `pagesLeft`. -/
theorem pmmLayoutLoop_eq (hstart : start % 4096 = 0) (hP : 2 ≤ P) (hlt : P < 2 ^ 32)
    (hlimit : start + P * 4096 < 2 ^ 64) (n : Nat) (hm : m ≤ P) :
    pmmLayoutLoop start (start + P * 4096) n m = match settle (pagesLeft P) n m with
      | some m => .ok (pmmCandidate start m)
      | none => .error .pmmDidNotConverge := by
  induction n generalizing m with
  | zero => rfl
  | succ n ih =>
      have hpages := metadataPages_lt hP hlt hm
      have hend : start + metadataPages m * 4096 < 2 ^ 64 :=
        Nat.lt_of_le_of_lt (by gcongr) hlimit
      have hcandidate := pmmCandidate_eq hstart hend
      have hroom : buddySystemBytes + treeRoom m + m * 2 ≤ metadataPages m * 4096 := by
        unfold metadataPages pgSize
        omega
      have hleft : (start + P * 4096 - (start + metadataPages m * 4096)) / pgSize =
          pagesLeft P m := by
        unfold pagesLeft pgSize
        omega
      have hnext : pagesLeft P m ≤ P := Nat.sub_le _ _
      rw [pmmLayoutLoop, settle]
      simp only [hcandidate, hleft]
      rw [if_neg (by unfold maxU64; omega), if_neg (by omega), if_neg (by unfold maxU32; omega)]
      split
      · exact congrArg Except.ok hcandidate.symm
      · exact ih hnext

end Candidate

/-- The two numbers of pages are each what is left beside the metadata for the other,
and both are on the side of `2 ^ 31` on which the loop stays after its first round. -/
structure Conflict (P a b : Nat) : Prop where
  lt : a < b
  le : b ≤ P
  left : b + metadataPages a = P
  right : a + metadataPages b = P
  sideLeft : a ≤ 2 ^ 31 ↔ pagesLeft P P ≤ 2 ^ 31
  sideRight : b ≤ 2 ^ 31 ↔ pagesLeft P P ≤ 2 ^ 31

section Settles

variable {P : Nat}

theorem swaps_iff (hP : 2 ≤ P) (hlt : P < 2 ^ 32) (ha : a ≤ P) (hb : b ≤ P) :
    Swaps (pagesLeft P) a b ↔ b + metadataPages a = P ∧ a + metadataPages b = P := by
  have h1 := metadataPages_lt hP hlt ha
  have h2 := metadataPages_lt hP hlt hb
  unfold Swaps pagesLeft
  omega

theorem pagesLeft_antitone (hab : a ≤ b) (hroom : treeRoom a ≤ treeRoom b) :
    pagesLeft P b ≤ pagesLeft P a :=
  Nat.sub_le_sub_left (metadataPages_mono hab hroom) P

theorem pagesLeft_slow (hroom : ∀ a ∈ D, ∀ b ∈ D, treeRoom a = treeRoom b) :
    Slow (pagesLeft P) 2048 D := by
  intro a ha b hb _ k hk
  have := metadataPages_slow (hroom b hb a ha) hk
  unfold pagesLeft
  omega

theorem pagesLeft_half (hP : 2 ≤ P) (hlt : P < 2 ^ 32) {m : Nat} (hm : m ≤ P) :
    P ≤ 2 * pagesLeft P m ∧ P ≤ pagesLeft P m + 2048 ^ 3 := by
  have h1 := metadataPages_le hm hlt
  unfold pagesLeft
  omega

/-- The loop from the top of an interval that it maps into itself, with trees of at
most two sizes, gives up exactly if there is a conflict in the interval. -/
theorem pagesLeft_none_iff (hP : 2 ≤ P) (hlt : P < 2 ^ 32) {B x n : Nat}
    (hD : D.OrdConnected) (hsub : ∀ y ∈ D, y ≤ P) (hx : x ∈ D) (hle : pagesLeft P x ≤ x)
    (hmaps : ∀ y ∈ D, pagesLeft P y ∈ D ∧ pagesLeft P y ≤ x)
    (hroom : ∀ a ∈ D, ∀ b ∈ D, a ≤ b → treeRoom a ≤ treeRoom b)
    (hlow : ∀ a ∈ D ∩ Set.Iic B, ∀ b ∈ D ∩ Set.Iic B, treeRoom a = treeRoom b)
    (hhigh : ∀ a ∈ D ∩ Set.Ioi B, ∀ b ∈ D ∩ Set.Ioi B, treeRoom a = treeRoom b) (hn : 13 ≤ n) :
    settle (pagesLeft P) n x = none ↔
      ∃ a ∈ D, ∃ b ∈ D, a < b ∧ b + metadataPages a = P ∧ a + metadataPages b = P := by
  have hf : Reverses (pagesLeft P) D :=
    ⟨fun y hy => (hmaps y hy).1, fun a ha b hb hab =>
      pagesLeft_antitone hab (hroom a ha b hb hab)⟩
  have hwidth := (pagesLeft_half hP hlt (hsub x hx)).2
  rw [settle_eq_none_iff hf hD (by omega : 2 ≤ 2048) (pagesLeft_slow hlow)
    (pagesLeft_slow hhigh) hx (fun y hy => (hmaps y hy).2) hle
    (Nat.le_trans (hsub x hx) hwidth) hn]
  refine exists_congr fun a => and_congr_right fun ha => exists_congr fun b =>
    and_congr_right fun hb => and_congr_right fun _ => ?_
  exact swaps_iff hP hlt (hsub a ha) (hsub b hb)

/-- A size that goes by powers of two takes at most two values from half of `x` to
`x`. -/
theorem two_sizes (room size : Nat → Nat) {lo x : Nat} (hx : 2 ≤ x) (hlo : x ≤ 2 * lo)
    (hsize : ∀ {y k}, y ≤ x → 2 ^ k < 2 * y → y ≤ 2 ^ k → room y = size k) :
    ∃ B, (∀ a ∈ Set.Icc lo x ∩ Set.Iic B, ∀ b ∈ Set.Icc lo x ∩ Set.Iic B, room a = room b) ∧
      ∀ a ∈ Set.Icc lo x ∩ Set.Ioi B, ∀ b ∈ Set.Icc lo x ∩ Set.Ioi B, room a = room b := by
  have hclog : x ≤ 2 ^ Nat.clog 2 x := Nat.le_pow_clog (by omega) x
  have hpos : 0 < Nat.clog 2 x := Nat.clog_pos (by omega) (by omega)
  obtain ⟨j, hj⟩ : ∃ j, Nat.clog 2 x = j + 1 := ⟨Nat.clog 2 x - 1, by omega⟩
  have hjx : 2 ^ j < x := (Nat.lt_clog_iff_pow_lt (by omega)).mp (by omega)
  rw [hj, pow_succ] at hclog
  have hlow : ∀ y ∈ Set.Icc lo x ∩ Set.Iic (2 ^ j), room y = size j := by
    intro y ⟨hy, hyB⟩
    have h1 := hy.1
    exact hsize hy.2 (by omega) hyB
  have hhigh : ∀ y ∈ Set.Icc lo x ∩ Set.Ioi (2 ^ j), room y = size (j + 1) := by
    intro y ⟨hy, hyB⟩
    have h1 : 2 ^ j < y := hyB
    have h2 := hy.2
    exact hsize h2 (by omega) (by omega)
  exact ⟨2 ^ j, fun a ha b hb => (hlow a ha).trans (hlow b hb).symm,
    fun a ha b hb => (hhigh a ha).trans (hhigh b hb).symm⟩

/-- Up to `2 ^ 31` pages: the tree sizes are those of the two powers of two around the
pages and half of them. -/
theorem settle_narrow (hP : 2 ≤ P) (hle : P ≤ 2 ^ 31) :
    settle (pagesLeft P) 16 P = none ↔ ∃ a b, Conflict P a b := by
  have hself : pagesLeft P P ≤ P := Nat.sub_le _ _
  have hhalf := (pagesLeft_half hP (by omega) (Nat.le_refl P)).1
  have hroom : ∀ {a b}, a ≤ b → b ≤ P → treeRoom a ≤ treeRoom b :=
    fun hab hb => treeRoom_mono hab (by omega)
  have hleast : ∀ y, y ≤ P → pagesLeft P P ≤ pagesLeft P y :=
    fun y hy => pagesLeft_antitone hy (hroom hy (Nat.le_refl P))
  obtain ⟨B, hlow, hhigh⟩ := two_sizes treeRoom (fun k => 2 * 2 ^ k) hP hhalf
    fun hy hlo hhi => by rw [treeRoom_eq (by omega) (by omega), clog_eq hlo hhi]
  rw [pagesLeft_none_iff hP (by omega) (Set.ordConnected_Icc (a := pagesLeft P P))
    (fun y hy => hy.2) ⟨Nat.sub_le _ _, Nat.le_refl P⟩ (Nat.sub_le _ _)
    (fun y hy => ⟨⟨hleast y hy.2, Nat.sub_le _ _⟩, Nat.sub_le _ _⟩)
    (fun a _ b hb hab => hroom hab hb.2) hlow hhigh (by omega)]
  constructor
  · intro ⟨a, ha, b, hb, hab, hleft, hright⟩
    exact ⟨a, b, hab, hb.2, hleft, hright, by omega, by omega⟩
  · intro ⟨a, b, h⟩
    have h1 := h.left
    have h2 := h.right
    have hab := h.lt
    have hb := h.le
    have ha' := hleast b hb
    have hpb : pagesLeft P b = a := by unfold pagesLeft; omega
    exact ⟨a, ⟨by omega, by omega⟩, b, ⟨by omega, hb⟩, hab, h1, h2⟩

/-- Above `2 ^ 31` pages with more than that many left: no room is kept for a tree. -/
theorem settle_wide (hside : 2 ^ 31 < pagesLeft P P) (hlt : P < 2 ^ 32) :
    settle (pagesLeft P) 16 P = none ↔ ∃ a b, Conflict P a b := by
  have hself : pagesLeft P P ≤ P := Nat.sub_le _ _
  have hroom : ∀ {y}, 2 ^ 31 < y → y ≤ P → treeRoom y = 0 :=
    fun hlo hhi => treeRoom_wide hlo (by omega)
  have hleast : ∀ y, 2 ^ 31 < y → y ≤ P → pagesLeft P P ≤ pagesLeft P y := fun y hlo hhi =>
    pagesLeft_antitone hhi (by rw [hroom hlo hhi]; omega)
  have hsame : ∀ a ∈ Set.Icc (pagesLeft P P) P, ∀ b ∈ Set.Icc (pagesLeft P P) P,
      treeRoom a = treeRoom b := fun a ha b hb => by
    have h1 := ha.1
    have h2 := hb.1
    rw [hroom (by omega) ha.2, hroom (by omega) hb.2]
  rw [pagesLeft_none_iff (by omega) hlt (B := P) (Set.ordConnected_Icc (a := pagesLeft P P))
    (fun y hy => hy.2) ⟨Nat.sub_le _ _, Nat.le_refl P⟩ (Nat.sub_le _ _)
    (fun y hy => ⟨⟨hleast y (by have := hy.1; omega) hy.2, Nat.sub_le _ _⟩, Nat.sub_le _ _⟩)
    (fun a ha b hb _ => (hsame a ha b hb).le) (fun a ha b hb => hsame a ha.1 b hb.1)
    (fun a ha b hb => hsame a ha.1 b hb.1) (by omega)]
  constructor
  · intro ⟨a, ha, b, hb, hab, hleft, hright⟩
    have h1 := ha.1
    exact ⟨a, b, hab, hb.2, hleft, hright, by omega, by omega⟩
  · intro ⟨a, b, h⟩
    have h1 := h.left
    have h2 := h.right
    have hab := h.lt
    have hb := h.le
    have h3 := h.sideLeft
    have ha' := hleast b (by omega) hb
    have hpb : pagesLeft P b = a := by unfold pagesLeft; omega
    exact ⟨a, ⟨by omega, by omega⟩, b, ⟨by omega, hb⟩, hab, h1, h2⟩

/-- Above `2 ^ 31` pages with at most that many left: the first round has no tree, the
others have the largest. -/
theorem settle_between (hlo : 2 ^ 31 < P) (hside : pagesLeft P P ≤ 2 ^ 31) (hlt : P < 2 ^ 32) :
    settle (pagesLeft P) 16 P = none ↔ ∃ a b, Conflict P a b := by
  have hself : pagesLeft P P ≤ P := Nat.sub_le _ _
  have hfirst : metadataPages P = (P * 2 + 4135) / 4096 := by
    unfold metadataPages buddySystemBytes pgSize
    rw [treeRoom_wide hlo hlt]
    omega
  have hsize : ∀ {y}, 2 ^ 30 < y → y ≤ 2 ^ 31 → treeRoom y = 2 ^ 32 := fun h1 h2 => by
    rw [treeRoom_eq (by omega) h2, clog_eq (j := 31) (by omega) h2]
    rfl
  have hpages : ∀ {y}, 2 ^ 30 < y → y ≤ 2 ^ 31 →
      metadataPages y = (y * 2 + 4135) / 4096 + 2 ^ 20 := fun h1 h2 => by
    unfold metadataPages buddySystemBytes pgSize
    rw [hsize h1 h2]
    omega
  have hPbound : P ≤ 2 ^ 31 + 2 ^ 21 := by
    unfold pagesLeft at hside
    omega
  have hbounds : ∀ {y}, 2 ^ 30 < y → y ≤ 2 ^ 31 →
      2 ^ 30 < pagesLeft P y ∧ pagesLeft P y ≤ pagesLeft P P := fun h1 h2 => by
    unfold pagesLeft
    rw [hpages h1 h2, hfirst]
    omega
  have hfirstPages : 2 ^ 30 < pagesLeft P P := by
    unfold pagesLeft
    omega
  have hround : settle (pagesLeft P) 16 P = settle (pagesLeft P) 15 (pagesLeft P P) := by
    rw [settle, if_neg (by omega)]
  generalize hD : Set.Ioc (2 ^ 30) (pagesLeft P P) = D
  have hmem : ∀ {y}, y ∈ D ↔ 2 ^ 30 < y ∧ y ≤ pagesLeft P P := by
    rw [← hD]
    exact Set.mem_Ioc
  have hsame : ∀ a ∈ D, ∀ b ∈ D, treeRoom a = treeRoom b := fun a ha b hb => by
    have h1 := hmem.mp ha
    have h2 := hmem.mp hb
    rw [hsize h1.1 (h1.2.trans hside), hsize h2.1 (h2.2.trans hside)]
  have hmaps : ∀ y ∈ D, pagesLeft P y ∈ D ∧ pagesLeft P y ≤ pagesLeft P P := fun y hy => by
    have h1 := hmem.mp hy
    have h2 := hbounds h1.1 (h1.2.trans hside)
    exact ⟨hmem.mpr h2, h2.2⟩
  rw [hround, pagesLeft_none_iff (by omega) hlt (B := P) (hD ▸ Set.ordConnected_Ioc)
    (fun y hy => (hmem.mp hy).2.trans hself) (hmem.mpr ⟨hfirstPages, Nat.le_refl _⟩)
    (hbounds hfirstPages hside).2 hmaps (fun a ha b hb _ => (hsame a ha b hb).le)
    (fun a ha b hb => hsame a ha.1 b hb.1) (fun a ha b hb => hsame a ha.1 b hb.1) (by omega)]
  constructor
  · rintro ⟨a, ha, b, hb, hab, hleft, hright⟩
    have h2 := (hmem.mp hb).2
    exact ⟨a, b, hab, by omega, hleft, hright, by omega, by omega⟩
  · rintro ⟨a, b, h⟩
    have h1 := h.left
    have h2 := h.right
    have hab := h.lt
    have h4 := h.sideRight
    have hmax := metadataPages_le (show b ≤ 2 ^ 31 by omega) (by omega)
    have ha : 2 ^ 30 < a := by omega
    have hpa : pagesLeft P a = b := by unfold pagesLeft; omega
    have hb1 := (hbounds ha (by omega)).2
    exact ⟨a, hmem.mpr ⟨ha, by omega⟩, b, hmem.mpr ⟨by omega, by omega⟩, hab, h1, h2⟩

theorem settle_pagesLeft (hP : 2 ≤ P) (hlt : P < 2 ^ 32) :
    settle (pagesLeft P) 16 P = none ↔ ∃ a b, Conflict P a b := by
  rcases Nat.lt_or_ge (2 ^ 31) P with hlo | hle
  · rcases Nat.lt_or_ge (2 ^ 31) (pagesLeft P P) with hside | hside
    · exact settle_wide hside hlt
    · exact settle_between hlo hside hlt
  · exact settle_narrow hP hle

theorem Conflict.large (h : Conflict P a b) : 16 < P := by
  by_contra hle
  have hone : ∀ {m}, m ≤ 16 → metadataPages m = 1 := fun {m} hm => by
    have h1 := treeRoom_le (show m < 2 ^ 32 by omega)
    unfold metadataPages buddySystemBytes pgSize
    omega
  have h1 := h.left
  have h2 := h.right
  have h3 := h.lt
  rw [hone (by omega)] at h1 h2
  omega

/-- A region of one page or none, which is let through where the bound on its size
wraps, does not get past the other checks. -/
theorem pmmLayoutLoop_tiny {start n : Nat} (hstart : start % 4096 = 0) (hP : P ≤ 1)
    (hlimit : start + P * 4096 < 2 ^ 64) :
    ∃ e, pmmLayoutLoop start (start + P * 4096) (n + 1) P = .error e ∧ e ≠ .pmmDidNotConverge := by
  have hone : metadataPages P = 1 := by
    obtain rfl | rfl : P = 0 ∨ P = 1 := by omega
    · decide
    · decide
  rw [pmmLayoutLoop]
  split
  · exact ⟨_, rfl, by decide⟩
  by_cases hlast : start + 4096 < 2 ^ 64
  · have hend : start + metadataPages P * 4096 < 2 ^ 64 := by rw [hone]; omega
    simp only [pmmCandidate_eq hstart hend]
    rw [if_pos (by omega)]
    exact ⟨_, rfl, by decide⟩
  · obtain rfl : P = 0 := by omega
    obtain rfl : start = 2 ^ 64 - 4096 := by omega
    exact ⟨_, rfl, by decide⟩

/-- For every region of page addresses with a number of pages that the buddy allocator
can count, the loop gives up exactly if two numbers of pages are in conflict, and
otherwise it is the checks on the size that a region without a layout fails. -/
theorem calculatePmmLayout_settles_iff {start : Nat} (hstart : start % 4096 = 0)
    (hlimit : start + P * 4096 < 2 ^ 64) (hlt : P < 2 ^ 32) :
    (calculatePmmLayout start (start + P * 4096) ≠ .error .pmmDidNotConverge ↔
      ¬ ∃ a b, Conflict P a b) ∧
    ((∃ layout, calculatePmmLayout start (start + P * 4096) = .ok layout) ↔
      add64 start (pgSize * 16) < start + P * 4096 ∧ 2 ≤ P ∧ ¬ ∃ a b, Conflict P a b) := by
  rw [calculatePmmLayout]
  split
  · next hsmall =>
    refine ⟨iff_of_true (by simp) fun ⟨a, b, h⟩ => ?_,
      iff_of_false (by simp) fun h => Nat.not_le_of_lt h.1 hsmall⟩
    have := h.large
    unfold add64 pgSize at hsmall
    omega
  · next hsize =>
    have hpages : sub64 (start + P * 4096) start / pgSize = P := by
      unfold sub64 pgSize
      omega
    simp only [hpages]
    rw [if_neg (by unfold maxU32; omega)]
    rcases Nat.lt_or_ge P 2 with htiny | hP
    · obtain ⟨e, herror, hne⟩ := pmmLayoutLoop_tiny (n := 15) hstart (by omega) hlimit
      rw [herror]
      refine ⟨iff_of_true (by simpa using hne) fun ⟨a, b, h⟩ => ?_,
        iff_of_false (by simp) fun h => Nat.not_le_of_lt htiny h.2.1⟩
      have := h.large
      omega
    · rw [pmmLayoutLoop_eq hstart hP hlt hlimit 16 (Nat.le_refl P), ← settle_pagesLeft hP hlt]
      have hsize := Nat.lt_of_not_le hsize
      cases settle (pagesLeft P) 16 P <;> simp [hsize, hP]

end Settles

def heapMetadataPages (h : Nat) : Nat :=
  (buddySystemBytes + requiredTreeBytes h + (pgSize - 1)) / pgSize

/-- What a budget of `Q` pages leaves beside it, up to the largest heap. -/
def heapPagesLeft (Q h : Nat) : Nat := min maximumHeapPages (Q - heapMetadataPages h)

def heapLayoutOf (areaBytes h : Nat) : HeapLayout :=
  let metadataBytes := heapMetadataPages h * 4096
  let remaining := sub64 (sub64 areaBytes metadataBytes) (h * 4096)
  { metadataBytes
    allocatorBytes := h * 4096
    shmBytes := pgRoundDown (if remaining > shmSizeLimit then shmSizeLimit else remaining)
    allocatorPages := h }

section Heap

variable {area Q h : Nat}

theorem maximumHeapPages_eq : maximumHeapPages = 65536 := by decide

theorem heapMetadataPages_le (hh : h ≤ maximumHeapPages) : heapMetadataPages h ≤ 65 := by
  rw [maximumHeapPages_eq] at hh
  have := requiredTreeBytes_le (show h ≤ 2 ^ 31 by omega)
  unfold heapMetadataPages buddySystemBytes pgSize
  omega

theorem heapMetadataPages_mono (hab : a ≤ b) (hb : b ≤ maximumHeapPages) :
    heapMetadataPages a ≤ heapMetadataPages b := by
  rw [maximumHeapPages_eq] at hb
  have := requiredTreeBytes_mono hab (by omega)
  exact Nat.div_le_div_right (by omega)

theorem heapPagesLeft_le (Q h : Nat) : heapPagesLeft Q h ≤ maximumHeapPages := Nat.min_le_left _ _

/-- The loop is the iteration of `heapPagesLeft`. -/
theorem heapLayoutLoop_eq (area n : Nat) (hh : h ≤ maximumHeapPages) :
    heapLayoutLoop area n h = match settle (heapPagesLeft (heapBudget area / 4096)) n h with
      | some h => .ok (heapLayoutOf area h)
      | none => .error .heapDidNotConverge := by
  induction n generalizing h with
  | zero => rfl
  | succ n ih =>
      have hbytes : pgRoundUp (requiredStorageBytes h) = heapMetadataPages h * 4096 := by
        rw [maximumHeapPages_eq] at hh
        have := requiredTreeBytes_le (show h ≤ 2 ^ 31 by omega)
        unfold requiredStorageBytes heapMetadataPages pgRoundUp pgRoundDown add64
          buddySystemBytes pgSize
        omega
      have hleft : (if heapBudget area > heapMetadataPages h * 4096 then
          (heapBudget area - heapMetadataPages h * 4096) / pgSize else 0) =
          heapBudget area / 4096 - heapMetadataPages h := by
        unfold pgSize
        split <;> omega
      have hmin : (if heapBudget area / 4096 - heapMetadataPages h > maximumHeapPages then
          maximumHeapPages else heapBudget area / 4096 - heapMetadataPages h) =
          heapPagesLeft (heapBudget area / 4096) h := by
        rw [heapPagesLeft, Nat.min_def]
        split <;> split <;> omega
      rw [heapLayoutLoop, settle]
      simp only [hbytes, hleft, hmin]
      split
      · rfl
      · exact ih (heapPagesLeft_le _ _)

theorem heapPagesLeft_slow (hsame : ∀ a ∈ D, ∀ b ∈ D, heapMetadataPages a = heapMetadataPages b) :
    Slow (heapPagesLeft Q) 2048 D := by
  intro a ha b hb _ k _
  rw [heapPagesLeft, heapPagesLeft, hsame a ha b hb]
  omega

theorem heapPagesLeft_large (hQ : maximumHeapPages + 65 ≤ Q) (hh : h ≤ maximumHeapPages) :
    heapPagesLeft Q h = maximumHeapPages := by
  have := heapMetadataPages_le hh
  rw [heapPagesLeft]
  omega

theorem heapPagesLeft_none_iff {x B : Nat} (hx : x = min maximumHeapPages Q)
    (hlow : ∀ a ∈ Set.Icc (heapPagesLeft Q x) x ∩ Set.Iic B,
      ∀ b ∈ Set.Icc (heapPagesLeft Q x) x ∩ Set.Iic B, heapMetadataPages a = heapMetadataPages b)
    (hhigh : ∀ a ∈ Set.Icc (heapPagesLeft Q x) x ∩ Set.Ioi B,
      ∀ b ∈ Set.Icc (heapPagesLeft Q x) x ∩ Set.Ioi B, heapMetadataPages a = heapMetadataPages b) :
    settle (heapPagesLeft Q) 16 x = none ↔ ∃ a b, a < b ∧ Swaps (heapPagesLeft Q) a b := by
  have hmax : x ≤ maximumHeapPages := hx ▸ Nat.min_le_left _ _
  have htop : ∀ y, heapPagesLeft Q y ≤ x := fun y => by
    rw [hx, heapPagesLeft]
    omega
  have hanti : ∀ {a b}, a ≤ b → b ≤ x → heapPagesLeft Q b ≤ heapPagesLeft Q a := by
    intro a b hab hb
    have := heapMetadataPages_mono hab (hb.trans hmax)
    rw [heapPagesLeft, heapPagesLeft]
    omega
  have hf : Reverses (heapPagesLeft Q) (Set.Icc (heapPagesLeft Q x) x) :=
    ⟨fun y hy => ⟨hanti hy.2 (Nat.le_refl x), htop y⟩, fun a _ b hb hab => hanti hab hb.2⟩
  have hwidth : x ≤ heapPagesLeft Q x + 2048 ^ 3 := by
    rw [maximumHeapPages_eq] at hmax
    omega
  rw [settle_eq_none_iff hf Set.ordConnected_Icc (by omega : 2 ≤ 2048)
    (heapPagesLeft_slow hlow) (heapPagesLeft_slow hhigh) ⟨htop x, Nat.le_refl x⟩
    (fun y _ => htop y) (htop x) hwidth (by omega)]
  constructor
  · intro ⟨a, _, b, _, hab, hswap⟩
    exact ⟨a, b, hab, hswap⟩
  · intro ⟨a, b, hab, hswap⟩
    have ha : a ≤ x := hswap.2 ▸ htop b
    have hb : b ≤ x := hswap.1 ▸ htop a
    exact ⟨a, ⟨hswap.2 ▸ hanti hb (Nat.le_refl x), ha⟩, b,
      ⟨hswap.1 ▸ hanti ha (Nat.le_refl x), hb⟩, hab, hswap⟩

theorem heapMetadataPages_one (hh : h ≤ 1024) : heapMetadataPages h = 1 := by
  have := requiredTreeBytes_mono hh (by omega)
  have hbytes : requiredTreeBytes 1024 = 2047 := by decide
  unfold heapMetadataPages buddySystemBytes pgSize
  omega

theorem settle_heapPagesLeft {x : Nat} (hx : x = min maximumHeapPages (Q % 2 ^ 32)) :
    settle (heapPagesLeft Q) 16 x = none ↔ ∃ a b, a < b ∧ Swaps (heapPagesLeft Q) a b := by
  have hmax : x ≤ maximumHeapPages := hx ▸ Nat.min_le_left _ _
  rcases Nat.lt_or_ge Q (maximumHeapPages + 65) with hsmall | hlarge
  · have hmod : Q % 2 ^ 32 = Q := Nat.mod_eq_of_lt (by rw [maximumHeapPages_eq] at hsmall; omega)
    rw [hmod] at hx
    rcases Nat.lt_or_ge 1024 x with hlo | hle
    · have hleft : x ≤ 2 * heapPagesLeft Q x := by
        have := heapMetadataPages_le hmax
        rw [heapPagesLeft]
        omega
      rw [maximumHeapPages_eq] at hmax
      obtain ⟨B, hlow, hhigh⟩ := two_sizes heapMetadataPages
        (fun k => (buddySystemBytes + (2 * 2 ^ k - 1) + (pgSize - 1)) / pgSize)
        (by omega) hleft (by
          intro y k hy hlo hhi
          have := requiredTreeBytes_eq (show y ≠ 0 by omega) (by omega)
          rw [clog_eq hlo hhi] at this
          rw [heapMetadataPages, ← this, Nat.add_sub_cancel])
      exact heapPagesLeft_none_iff hx hlow hhigh
    · refine heapPagesLeft_none_iff (B := x) hx ?_ ?_ <;> intro a ha b hb
      all_goals rw [heapMetadataPages_one (ha.1.2.trans hle),
        heapMetadataPages_one (hb.1.2.trans hle)]
  · -- Every round finds the largest heap.
    refine iff_of_false (fun hnone => ?_) fun ⟨a, b, hab, hswap⟩ => ?_
    · have hround := heapPagesLeft_large hlarge hmax
      have hnext := heapPagesLeft_large hlarge (Nat.le_refl maximumHeapPages)
      have hsome : (settle (heapPagesLeft Q) 2 x).isSome :=
        settle_succ (.inr (settle_succ (.inl (by rw [hround, hnext]))))
      rw [Option.isNone_iff_eq_none.symm, ← Option.not_isSome, settle_mono (by omega) hsome]
        at hnone
      cases hnone
    · have hb : b ≤ maximumHeapPages := hswap.1 ▸ heapPagesLeft_le Q a
      have h2 := hswap.2
      rw [heapPagesLeft_large hlarge hb] at h2
      omega

theorem calculateHeapLayout_settles_iff (area : Nat) :
    (∃ layout, calculateHeapLayout area = .ok layout) ↔
      ¬ ∃ a b, a < b ∧ Swaps (heapPagesLeft (heapBudget area / 4096)) a b := by
  have hstart : (if heapBudget area / pgSize % 2 ^ 32 > maximumHeapPages then maximumHeapPages
      else heapBudget area / pgSize % 2 ^ 32) =
      min maximumHeapPages (heapBudget area / 4096 % 2 ^ 32) := by
    rw [Nat.min_def]
    unfold pgSize
    split <;> split <;> omega
  rw [calculateHeapLayout]
  simp only [hstart]
  rw [heapLayoutLoop_eq area 16 (Nat.min_le_left _ _), ← settle_heapPagesLeft rfl]
  cases settle (heapPagesLeft (heapBudget area / 4096)) 16 _ <;> simp

end Heap

/-- For every region of page addresses and every size of the heap's area, a layout is
returned exactly if the checks on the size pass and no two numbers of pages are in
conflict; the loop gives up for no other reason. -/
theorem layouts_settle_iff {start limit : Nat} (hstart : start % pgSize = 0)
    (hlimit : limit % pgSize = 0) (hle : start ≤ limit) (hlt : limit < 2 ^ 64)
    (hpages : (limit - start) / pgSize ≤ maxU32) (area : Nat) :
    (calculatePmmLayout start limit ≠ .error .pmmDidNotConverge ↔
      ¬ ∃ a b, Conflict ((limit - start) / pgSize) a b) ∧
    ((∃ layout, calculatePmmLayout start limit = .ok layout) ↔
      add64 start (pgSize * 16) < limit ∧ 2 ≤ (limit - start) / pgSize ∧
        ¬ ∃ a b, Conflict ((limit - start) / pgSize) a b) ∧
    ((∃ layout, calculateHeapLayout area = .ok layout) ↔
      ¬ ∃ a b, a < b ∧ Swaps (heapPagesLeft (heapBudget area / pgSize)) a b) := by
  rw [← and_assoc]
  refine ⟨?_, calculateHeapLayout_settles_iff area⟩
  have hend : limit = start + (limit - start) / pgSize * 4096 := by
    unfold pgSize at *
    omega
  generalize (limit - start) / pgSize = P at hend hpages ⊢
  subst hend
  exact calculatePmmLayout_settles_iff hstart hlt (by unfold maxU32 at hpages; omega)

theorem layouts_settle_iff_ram :
    ((∃ layout, calculatePmmLayout 0x80000000 0x88000000 = .ok layout) ↔
      ¬ ∃ a b, Conflict 0x8000 a b) ∧
    ((∃ layout, calculateHeapLayout 0x2000000 = .ok layout) ↔
      ¬ ∃ a b, a < b ∧ Swaps (heapPagesLeft (heapBudget 0x2000000 / pgSize)) a b) := by
  have h := @layouts_settle_iff 0x80000000 0x88000000 (by decide) (by decide) (by decide)
    (by decide) (by decide) 0x2000000
  exact ⟨h.2.1.trans ⟨fun h => h.2.2, fun h => ⟨by decide, by decide, h⟩⟩, h.2.2⟩

/-- A region of 1006 pages, for 1004 or 1005 of which there is room, and an area of
1539 pages, with room for 1024 or 1025 pages of heap. -/
theorem layouts_do_not_settle :
    calculatePmmLayout 0x80000000 (0x80000000 + 1006 * 4096) = .error .pmmDidNotConverge ∧
    calculateHeapLayout (1539 * 4096) = .error .heapDidNotConverge := by
  constructor <;> rfl

end F7ly.Mem
