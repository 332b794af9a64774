import F7ly.Fs.Fat32Dir
import F7ly.Proofs.Fat32Contents

/-!
# Reading a directory

`enext` goes over the slots that its offset leads to, so a call is a scan of a
sequence of slots (`scanLoop`): long-name slots, then free ones, then the slot that
ends it. Each long-name slot stores 13 characters at a place that its order number
gives. They are in the name when the number is one of 1 to 19: the last places of a
name with 20 slots are behind its end.

A slot with the flag of a last slot also clears the pointer `count`. A second one,
or free slots and then a used one, store through it.
-/

namespace F7ly.Fs.Fat32

open Scan Slot List

/-- All stores from `b` to `b'` are in `[lo, hi)`. -/
structure Buf.Within (lo hi : Int) (b b' : Buf) : Prop where
  stored : ∀ a ∈ b'.stored, a ∈ b.stored ∨ lo ≤ a ∧ a < hi
  keeps : ∀ a ∈ b.stored, a ∈ b'.stored
  bytes : ∀ a, ¬(lo ≤ a ∧ a < hi) → b'.bytes a = b.bytes a

variable {a : Int} {d : Slot} {k : Nat} {l longs empties : List Slot}

namespace Buf.Within

variable {lo hi lo' hi' : Int} {b b₁ b₂ : Buf}

theorem refl : Within lo hi b b :=
  ⟨fun _ ha => .inl ha, fun _ ha => ha, fun _ _ => rfl⟩

theorem trans (h₁ : Within lo hi b b₁) (h₂ : Within lo hi b₁ b₂) : Within lo hi b b₂ := by
  refine ⟨fun a ha => ?_, fun a ha => h₂.keeps a (h₁.keeps a ha),
    fun a ha => (h₂.bytes a ha).trans (h₁.bytes a ha)⟩
  rcases h₂.stored a ha with ha | ha
  · exact h₁.stored a ha
  · exact .inr ha

theorem mono (h : Within lo hi b b₁) (hlo : lo' ≤ lo) (hhi : hi ≤ hi') : Within lo' hi' b b₁ := by
  refine ⟨fun a ha => ?_, h.keeps, fun a ha => h.bytes a (by omega)⟩
  rcases h.stored a ha with ha | ha
  · exact .inl ha
  · exact .inr (by omega)

theorem store {x : UInt8} (hlo : lo ≤ a) (hhi : a < hi) : Within lo hi b (b.store a x) := by
  refine ⟨fun c hc => ?_, fun c hc => mem_cons_of_mem _ hc, fun c hc => ?_⟩
  · rcases mem_cons.mp hc with rfl | hc
    · exact .inr ⟨hlo, hhi⟩
    · exact .inl hc
  · exact Function.update_of_ne (by omega) ..

end Buf.Within

theorem zeros_within (n : Nat) (a : Int) (b : Buf) : b.Within a (a + n) (zeros a n b) := by
  induction n generalizing a b with
  | zero => exact .refl
  | succ n ih =>
      exact Buf.Within.trans (.store (Int.le_refl a) (by omega))
        ((ih (a + 1) (b.store a 0)).mono (by omega) (by omega))

theorem zeros_bytes (n : Nat) (a : Int) (b : Buf) {c : Int} (hlo : a ≤ c) (hhi : c < a + n) :
    (zeros a n b).bytes c = 0 := by
  induction n generalizing a b with
  | zero => omega
  | succ n ih =>
      rw [zeros]
      by_cases hc : c = a
      · subst hc
        rw [(zeros_within n (c + 1) _).bytes c (by omega)]
        exact Function.update_self ..
      · exact ih (a + 1) _ (by omega) (by omega)

theorem snstr_within (cs : List Nat) (a : Int) (b : Buf) :
    b.Within a (a + cs.length) (snstr a cs b) := by
  induction cs generalizing a b with
  | nil => exact .refl
  | cons c cs ih =>
      rw [snstr, length_cons]
      split
      · exact Buf.Within.trans (.store (Int.le_refl a) (by omega))
          ((ih (a + 1) _).mono (by omega) (by omega))
      · exact (zeros_within ..).mono (Int.le_refl a) (by omega)

theorem snstr_first {cs : List Nat} (hcs : 2 ≤ cs.length) (a : Int) (b : Buf) :
    a ∈ (snstr a cs b).stored := by
  match cs, hcs with
  | c :: d :: cs, _ =>
      rw [snstr]
      split
      · exact (snstr_within ..).keeps a (mem_cons_self ..)
      · exact (zeros_within cs.length (a + 1) (b.store a 0)).keeps a (mem_cons_self ..)

theorem copyName_within (d : Slot) (n j : Nat) (a : Int) (b : Buf) :
    a ≤ (copyName d j n a b).1 ∧ (copyName d j n a b).1 ≤ a + n ∧
      b.Within a (a + n) (copyName d j n a b).2 := by
  induction n generalizing j a b with
  | zero => exact ⟨Int.le_refl a, by rw [copyName]; omega, .refl⟩
  | succ n ih =>
      rw [copyName]
      split
      · exact ⟨Int.le_refl a, by omega, .refl⟩
      · obtain ⟨hlo, hhi, hw⟩ := ih (j + 1) (a + 1) (b.store a (d j))
        exact ⟨by omega, by omega, Buf.Within.trans (.store (Int.le_refl a) (by omega))
          (hw.mono (by omega) (by omega))⟩

theorem wchars_length (d : Slot) (i n : Nat) : (d.wchars i n).length = n := by
  simp [wchars]

theorem readEntryName_within (a : Int) (d : Slot) (b : Buf) :
    b.Within a (a + 13) (readEntryName a d b) := by
  rw [readEntryName]
  split
  · have h₁ := snstr_within d.name1 a b
    have h₂ := snstr_within d.name2 (a + 5) (snstr a d.name1 b)
    have h₃ := snstr_within d.name3 (a + 11) (snstr (a + 5) d.name2 (snstr a d.name1 b))
    rw [name1, wchars_length] at h₁
    rw [name2, wchars_length] at h₂
    rw [name3, wchars_length] at h₃
    exact ((h₁.mono (by omega) (by omega)).trans (h₂.mono (by omega) (by omega))).trans
      (h₃.mono (by omega) (by omega))
  · have h₀ := zeros_within (charShortName + 2) a b
    obtain ⟨hlo₁, hhi₁, h₁⟩ := copyName_within d 8 0 a (zeros a (charShortName + 2) b)
    cases hc : copyName d 0 8 a (zeros a (charShortName + 2) b) with
    | mk i b₁ =>
        rw [hc] at hlo₁ hhi₁ h₁
        dsimp only at hlo₁ hhi₁ h₁ ⊢
        have hb₁ : b.Within a (a + 13) b₁ :=
          (h₀.mono (by omega) (by unfold charShortName; omega)).trans
            (h₁.mono (by omega) (by omega))
        split
        · obtain ⟨_, _, h₂⟩ := copyName_within d 3 8 (i + 1) (b₁.store i 0x2e)
          exact (hb₁.trans (.store (by omega) (by omega))).trans
            (h₂.mono (by omega) (by omega))
        · obtain ⟨_, _, h₂⟩ := copyName_within d 3 8 i b₁
          exact hb₁.trans (h₂.mono (by omega) (by omega))

theorem readEntryName_long (hd : d.attr = attrLongName) (a : Int) (b : Buf) :
    a ∈ (readEntryName a d b).stored ∧ a + 11 ∈ (readEntryName a d b).stored := by
  rw [readEntryName, if_pos hd]
  constructor
  · refine (snstr_within ..).keeps a ((snstr_within ..).keeps a (snstr_first ?_ a b))
    exact (wchars_length ..).symm ▸ (by decide)
  · refine snstr_first ?_ (a + 11) _
    exact (wchars_length ..).symm ▸ (by decide)

namespace Slot

def isEnd (d : Slot) : Bool := d.order = endOfEntry

def isEmpty (d : Slot) : Bool := d.order = emptyEntry

def isLong (d : Slot) : Bool := !d.isEnd && !d.isEmpty && d.attr = attrLongName

end Slot

/-- `enext` on the slots from its offset on. After the last one is `none`. -/
def scanLoop (slots : Nat → Option Slot) : Nat → Nat → Scan → Option (Int × Scan)
  | 0, _, _ => none
  | fuel + 1, k, s =>
      match slots k with
      | none => some (-1, s)
      | some d =>
          if d.isEnd then some (-1, s)
          else if d.isEmpty then scanLoop slots fuel (k + 1) { s with cnt := s.cnt + 1 }
          else if s.cnt ≠ 0 then some (0, s.setCount s.cnt)
          else if d.isLong then scanLoop slots fuel (k + 1) (s.longSlot d)
          else some (1, s.shortSlot d)

def finish (slot : Option Slot) (s : Scan) : Int × Scan :=
  match slot with
  | none => (-1, s)
  | some d =>
      if d.isEnd then (-1, s)
      else if s.cnt ≠ 0 then (0, s.setCount s.cnt)
      else (1, s.shortSlot d)

/-- The slots from `k` on are those of `l`. -/
def Covers (slots : Nat → Option Slot) (k : Nat) (l : List Slot) : Prop :=
  ∀ i d, l[i]? = some d → slots (k + i) = some d

/-- `longs`, then `empties`, and then a slot that ends the scan. -/
structure Stretch (slots : Nat → Option Slot) (longs empties : List Slot) : Prop where
  covers : Covers slots 0 (longs ++ empties)
  long : ∀ d ∈ longs, d.isLong
  empty : ∀ d ∈ empties, d.isEmpty
  stop : ∀ d, slots (longs.length + empties.length) = some d →
    ¬d.isEmpty ∧ (empties = [] → ¬d.isLong)

variable {slots : Nat → Option Slot} {s s' : Scan} {r : Int}

theorem Slot.isLong_iff : d.isLong ↔ ¬d.isEnd ∧ ¬d.isEmpty ∧ d.attr = attrLongName := by
  simp [isLong, and_assoc]

theorem Slot.isEnd_of_isEmpty (h : d.isEmpty) : ¬d.isEnd := by
  simp only [isEmpty, isEnd, decide_eq_true_eq] at h ⊢
  rw [h]
  decide

theorem Covers.tail (h : Covers slots k (d :: l)) :
    Covers slots (k + 1) l := fun i x hx => by
  rw [Nat.add_right_comm, Nat.add_assoc]
  exact h (i + 1) x hx

theorem Covers.cons (hd : slots k = some d)
    (h : Covers slots (k + 1) l) : Covers slots k (d :: l) := fun i x hx => by
  cases i with
  | zero =>
      obtain rfl : d = x := by simpa using hx
      exact hd
  | succ i =>
      rw [← Nat.add_assoc, Nat.add_right_comm]
      exact h i x hx

theorem setCount_cnt (s : Scan) (n : Nat) : (s.setCount n).cnt = s.cnt := by
  rw [setCount]
  split <;> rfl

theorem longSlot_cnt (s : Scan) (d : Slot) : (s.longSlot d).cnt = s.cnt := by
  rw [longSlot]
  split
  · exact setCount_cnt ..
  · rfl

theorem foldl_cnt (longs : List Slot) (s : Scan) : (longs.foldl longSlot s).cnt = s.cnt := by
  induction longs generalizing s with
  | nil => rfl
  | cons d longs ih => rw [foldl_cons, ih, longSlot_cnt]

theorem scanLoop_longs (fuel : Nat)
    (hcov : Covers slots k longs) (hlong : ∀ d ∈ longs, d.isLong) (hcnt : s.cnt = 0) :
    scanLoop slots (longs.length + fuel) k s =
      scanLoop slots fuel (k + longs.length) (longs.foldl longSlot s) := by
  induction longs generalizing k s with
  | nil => rw [length_nil, Nat.zero_add]; rfl
  | cons d longs ih =>
      have hd : slots k = some d := hcov 0 d rfl
      have hl := hlong d (mem_cons_self ..)
      obtain ⟨hend, hempty, _⟩ := isLong_iff.mp hl
      rw [length_cons, Nat.add_right_comm, scanLoop, hd]
      dsimp only
      rw [if_neg hend, if_neg hempty, if_neg (by simp [hcnt]), if_pos hl,
        ih hcov.tail (fun x hx => hlong x (mem_cons_of_mem _ hx)) ?_, foldl_cons,
        Nat.add_assoc, Nat.add_comm 1]
      rw [longSlot_cnt, hcnt]

theorem scanLoop_empties (fuel : Nat)
    (hcov : Covers slots k empties) (hempty : ∀ d ∈ empties, d.isEmpty) :
    scanLoop slots (empties.length + fuel) k s =
      scanLoop slots fuel (k + empties.length) { s with cnt := s.cnt + empties.length } := by
  induction empties generalizing k s with
  | nil => rw [length_nil, Nat.zero_add]; rfl
  | cons d empties ih =>
      have hd : slots k = some d := hcov 0 d rfl
      have he := hempty d (mem_cons_self ..)
      rw [length_cons, Nat.add_right_comm, scanLoop, hd]
      dsimp only
      rw [if_neg (isEnd_of_isEmpty he), if_pos he,
        ih hcov.tail fun x hx => hempty x (mem_cons_of_mem _ hx),
        Nat.add_assoc k, Nat.add_comm 1, Nat.add_assoc s.cnt, Nat.add_comm 1]

theorem Covers.append_left {m : List Slot} (h : Covers slots k (l ++ m)) :
    Covers slots k l := fun i d hd => by
  have hi := (List.getElem?_eq_some_iff.mp hd).1
  exact h i d (by rw [List.getElem?_append_left hi, hd])

theorem Covers.append_right {m : List Slot} (h : Covers slots k (l ++ m)) :
    Covers slots (k + l.length) m := fun i d hd => by
  rw [Nat.add_assoc]
  exact h _ d (by rw [getElem?_append_right (by omega), Nat.add_sub_cancel_left, hd])

theorem scanLoop_finish {fuel : Nat}
    (hstop : ∀ d, slots k = some d → ¬d.isEmpty ∧ (s.cnt = 0 → ¬d.isLong)) :
    scanLoop slots (fuel + 1) k s = some (finish (slots k) s) := by
  rw [scanLoop, finish.eq_def]
  cases hd : slots k with
  | none => rfl
  | some d =>
      obtain ⟨hempty, hlong⟩ := hstop d hd
      dsimp only
      by_cases hend : d.isEnd
      · rw [if_pos hend, if_pos hend]
      · rw [if_neg hend, if_neg hend, if_neg hempty]
        by_cases hcnt : s.cnt = 0
        · rw [if_neg (by simp [hcnt]), if_neg (hlong hcnt), if_neg (by simp [hcnt])]
        · rw [if_pos hcnt, if_pos hcnt]

theorem Stretch.run (h : Stretch slots longs empties) (hcnt : s.cnt = 0) :
    scanLoop slots (longs.length + (empties.length + 1)) 0 s =
      some (finish (slots (longs.length + empties.length))
        { longs.foldl longSlot s with cnt := empties.length }) := by
  have hfold : (longs.foldl longSlot s).cnt = 0 := (foldl_cnt ..).trans hcnt
  rw [scanLoop_longs _ h.covers.append_left h.long hcnt,
    scanLoop_empties _ h.covers.append_right h.empty, hfold, Nat.zero_add, Nat.zero_add,
    scanLoop_finish]
  intro d hd
  obtain ⟨hempty, hlong⟩ := h.stop d hd
  exact ⟨hempty, fun hzero => hlong (eq_nil_of_length_eq_zero hzero)⟩

theorem scanLoop_empties_inv {p : Int × Scan} {fuel : Nat}
    (h : scanLoop slots fuel k s = some p) (hcnt : s.cnt ≠ 0) :
    ∃ empties : List Slot, Covers slots k empties ∧ (∀ d ∈ empties, d.isEmpty) ∧
      (∀ d, slots (k + empties.length) = some d → ¬d.isEmpty) ∧
      p = finish (slots (k + empties.length)) { s with cnt := s.cnt + empties.length } := by
  induction fuel generalizing k s with
  | zero => cases h
  | succ fuel ih =>
      by_cases hempty : ∃ d, slots k = some d ∧ d.isEmpty
      · obtain ⟨d, hd, hempty⟩ := hempty
        rw [scanLoop, hd] at h
        dsimp only at h
        rw [if_neg (isEnd_of_isEmpty hempty), if_pos hempty] at h
        obtain ⟨empties, hcov, hall, hstop, hp⟩ := ih h (Nat.succ_ne_zero _)
        refine ⟨d :: empties, .cons hd hcov, ?_, ?_, ?_⟩
        · intro x hx
          rcases mem_cons.mp hx with rfl | hx
          · exact hempty
          · exact hall x hx
        · rw [length_cons, Nat.add_comm _ 1, ← Nat.add_assoc]
          exact hstop
        · rw [length_cons, Nat.add_comm _ 1, ← Nat.add_assoc, ← Nat.add_assoc]
          exact hp
      · have hstop : ∀ d, slots k = some d → ¬d.isEmpty ∧ (s.cnt = 0 → ¬d.isLong) :=
          fun d hd => ⟨fun he => hempty ⟨d, hd, he⟩, fun hzero => absurd hzero hcnt⟩
        rw [scanLoop_finish hstop] at h
        exact ⟨[], fun i d hd => by simp at hd, fun d hd => (not_mem_nil hd).elim,
          fun d hd => (hstop d hd).1, (Option.some.inj h).symm⟩

theorem scanLoop_inv {p : Int × Scan} {fuel : Nat} (h : scanLoop slots fuel k s = some p)
    (hcnt : s.cnt = 0) :
    ∃ longs empties : List Slot, Covers slots k (longs ++ empties) ∧
      (∀ d ∈ longs, d.isLong) ∧ (∀ d ∈ empties, d.isEmpty) ∧
      (∀ d, slots (k + (longs.length + empties.length)) = some d →
        ¬d.isEmpty ∧ (empties = [] → ¬d.isLong)) ∧
      p = finish (slots (k + (longs.length + empties.length)))
        { longs.foldl longSlot s with cnt := empties.length } := by
  induction fuel generalizing k s with
  | zero => cases h
  | succ fuel ih =>
      by_cases hempty : ∃ d, slots k = some d ∧ d.isEmpty
      · -- the long-name slots end with a free one
        obtain ⟨d, hd, hempty⟩ := hempty
        rw [scanLoop, hd] at h
        dsimp only at h
        rw [if_neg (isEnd_of_isEmpty hempty), if_pos hempty] at h
        obtain ⟨empties, hcov, hall, hstop, hp⟩ :=
          scanLoop_empties_inv h (by simp)
        have hlen : k + (([] : List Slot).length + (d :: empties).length) =
            k + 1 + empties.length := by
          simp
          omega
        refine ⟨[], d :: empties, .cons hd hcov, fun x hx => (not_mem_nil hx).elim, ?_, ?_, ?_⟩
        · intro x hx
          rcases mem_cons.mp hx with rfl | hx
          · exact hempty
          · exact hall x hx
        · rw [hlen]
          exact fun x hx => ⟨hstop x hx, fun hnil => absurd hnil (by simp)⟩
        · rw [hlen, hp, hcnt, Nat.zero_add, length_cons, Nat.add_comm 1]
          rfl
      · by_cases hlong : ∃ d, slots k = some d ∧ d.isLong
        · obtain ⟨d, hd, hlong⟩ := hlong
          obtain ⟨hend, hnempty, _⟩ := isLong_iff.mp hlong
          rw [scanLoop, hd] at h
          dsimp only at h
          rw [if_neg hend, if_neg hnempty, if_neg (by simp [hcnt]), if_pos hlong] at h
          obtain ⟨longs, empties, hcov, hall, hempties, hstop, hp⟩ :=
            ih h ((longSlot_cnt s d).trans hcnt)
          have hlen : k + ((d :: longs).length + empties.length) =
              k + 1 + (longs.length + empties.length) := by
            simp
            omega
          refine ⟨d :: longs, empties, .cons hd hcov, ?_, hempties, ?_, ?_⟩
          · intro x hx
            rcases mem_cons.mp hx with rfl | hx
            · exact hlong
            · exact hall x hx
          · rw [hlen]
            exact hstop
          · rw [hlen, hp]
            rfl
        · have hstop : ∀ d, slots k = some d → ¬d.isEmpty ∧ (s.cnt = 0 → ¬d.isLong) :=
            fun d hd => ⟨fun he => hempty ⟨d, hd, he⟩, fun _ hl => hlong ⟨d, hd, hl⟩⟩
          rw [scanLoop_finish hstop] at h
          refine ⟨[], [], fun i d hd => by simp at hd, fun d hd => (not_mem_nil hd).elim,
            fun d hd => (not_mem_nil hd).elim,
            fun d hd => ⟨(hstop d hd).1, fun _ => (hstop d hd).2 hcnt⟩, ?_⟩
          have hs : ({ s with cnt := 0 } : Scan) = s := by rw [← hcnt]
          show p = finish (slots k) { s with cnt := 0 }
          rw [hs]
          exact (Option.some.inj h).symm

/-- Every store was inside `ep->filename`. -/
def Scan.Safe (s : Scan) : Prop :=
  s.nullStore = false ∧ ∀ a ∈ s.name.stored, 0 ≤ a ∧ a < 256

def Slot.place (d : Slot) : Int := (d.lcnt - 1 : Int) * charLongName

theorem place_inside : (0 ≤ d.place ∧ d.place + 11 < 256) ↔ 1 ≤ d.lcnt ∧ d.lcnt ≤ 19 := by
  unfold place charLongName
  omega

theorem longSlot_name (s : Scan) (d : Slot) :
    (s.longSlot d).name = readEntryName d.place d s.name := by
  rw [longSlot, place]
  dsimp only
  congr 1
  split
  · rw [setCount]
    split <;> rfl
  · rfl

theorem longSlot_countSet (s : Scan) (d : Slot) :
    (s.longSlot d).countSet = (s.countSet && !d.isLast) := by
  rw [longSlot]
  cases hl : d.isLast
  · simp
  · simp

theorem longSlot_nullStore (s : Scan) (d : Slot) :
    (s.longSlot d).nullStore = (s.nullStore || (!s.countSet && d.isLast)) := by
  rw [longSlot]
  cases hl : d.isLast
  · simp
  · cases hc : s.countSet <;> simp [setCount, hc]

theorem foldl_countSet (longs : List Slot) (s : Scan) :
    (longs.foldl longSlot s).countSet = (s.countSet && !longs.any (·.isLast)) := by
  induction longs generalizing s with
  | nil => simp
  | cons d longs ih => rw [foldl_cons, ih, longSlot_countSet, any_cons, Bool.not_or,
      Bool.and_assoc]

theorem foldl_nullStore (longs : List Slot) (s : Scan) :
    (longs.foldl longSlot s).nullStore = false ↔ s.nullStore = false ∧
        longs.countP (·.isLast) ≤ if s.countSet then 1 else 0 := by
  induction longs generalizing s with
  | nil => simp
  | cons d longs ih =>
      rw [foldl_cons, ih, longSlot_nullStore, longSlot_countSet, countP_cons]
      cases hl : d.isLast <;> cases hc : s.countSet <;> simp

theorem foldl_name (longs : List Slot) (s : Scan) (a : Int)
    (ha : a ∈ (longs.foldl longSlot s).name.stored) :
    a ∈ s.name.stored ∨ ∃ d ∈ longs, d.place ≤ a ∧ a < d.place + 13 := by
  induction longs generalizing s with
  | nil => exact .inl ha
  | cons d longs ih =>
      rcases ih (s.longSlot d) ha with ha | ⟨x, hx, hplace⟩
      · rw [longSlot_name] at ha
        rcases (readEntryName_within ..).stored a ha with ha | ha
        · exact .inl ha
        · exact .inr ⟨d, mem_cons_self .., ha⟩
      · exact .inr ⟨x, mem_cons_of_mem _ hx, hplace⟩

theorem foldl_keeps (longs : List Slot) (s : Scan) (ha : a ∈ s.name.stored) :
    a ∈ (longs.foldl longSlot s).name.stored := by
  induction longs generalizing s with
  | nil => exact ha
  | cons d longs ih =>
      refine ih (s.longSlot d) ?_
      rw [longSlot_name]
      exact (readEntryName_within ..).keeps a ha

theorem foldl_places (s : Scan) (hd : d ∈ longs) (hlong : d.attr = attrLongName) :
    d.place ∈ (longs.foldl longSlot s).name.stored ∧
      d.place + 11 ∈ (longs.foldl longSlot s).name.stored := by
  induction longs generalizing s with
  | nil => cases hd
  | cons x longs ih =>
      rcases mem_cons.mp hd with rfl | hd
      · obtain ⟨h₁, h₂⟩ := readEntryName_long hlong d.place s.name
        rw [← longSlot_name] at h₁ h₂
        exact ⟨foldl_keeps longs _ h₁, foldl_keeps longs _ h₂⟩
      · exact ih (s.longSlot x) hd

theorem foldl_bytes (s : Scan) (ha : ∀ d ∈ longs, ¬(d.place ≤ a ∧ a < d.place + 13)) :
    (longs.foldl longSlot s).name.bytes a = s.name.bytes a := by
  induction longs generalizing s with
  | nil => rfl
  | cons d longs ih =>
      rw [foldl_cons, ih (s.longSlot d) fun x hx => ha x (mem_cons_of_mem _ hx), longSlot_name]
      exact (readEntryName_within ..).bytes a (ha d (mem_cons_self ..))

/-- The last step of a scan stores through `count` only, which is null after a last
slot. -/
theorem finish_safe (slot : Option Slot) (s : Scan) :
    (finish slot s).2.Safe ↔
      s.Safe ∧ (s.cnt ≠ 0 → (∃ d, slot = some d ∧ ¬d.isEnd) → s.countSet = true) := by
  rw [finish.eq_def]
  cases slot with
  | none => simp
  | some d =>
      dsimp only
      by_cases hend : d.isEnd
      · simp [hend]
      · rw [if_neg hend]
        by_cases hcnt : s.cnt = 0
        · rw [if_neg (by simp [hcnt])]
          simp only [hcnt, ne_eq, not_true_eq_false, false_implies, and_true]
          rw [shortSlot, setCount]
          split
          · -- the short name stays in the first 13 places
            constructor
            · intro ⟨hnull, hin⟩
              exact ⟨hnull, fun a ha => hin a ((readEntryName_within ..).keeps a ha)⟩
            · intro ⟨hnull, hin⟩
              refine ⟨hnull, fun a ha => ?_⟩
              rcases (readEntryName_within ..).stored a ha with ha | ha
              · exact hin a ha
              · omega
          · exact Iff.rfl
        · rw [if_pos hcnt, setCount]
          cases hset : s.countSet
          · simp [Scan.Safe, hcnt, hend]
          · simp [Scan.Safe]

theorem finish_bytes (slot : Option Slot) (s : Scan) (ha : 13 ≤ a) :
    (finish slot s).2.name.bytes a = s.name.bytes a := by
  rw [finish.eq_def]
  cases slot with
  | none => rfl
  | some d =>
      dsimp only
      split
      · rfl
      · split
        · rw [setCount]
          split <;> rfl
        · rw [shortSlot, setCount]
          split
          · exact (readEntryName_within ..).bytes a (by omega)
          · rfl

def Tame (slots : Nat → Option Slot) : Prop :=
  ∃ longs empties, Stretch slots longs empties ∧
    (∀ d ∈ longs, 1 ≤ d.lcnt ∧ d.lcnt ≤ 19) ∧ longs.countP (·.isLast) ≤ 1 ∧
    (empties ≠ [] → (∃ d ∈ longs, d.isLast) →
      ∀ d, slots (longs.length + empties.length) = some d → d.isEnd)

/-- A scan before its first slot, with the name cleared. -/
structure Scan.Fresh (s : Scan) : Prop where
  cnt : s.cnt = 0
  countSet : s.countSet = true
  nullStore : s.nullStore = false
  stored : ∀ a ∈ s.name.stored, 0 ≤ a ∧ a < 256
  last : s.name.bytes 255 = 0

theorem stretch_safe (hs : s.Fresh) (h : Stretch slots longs empties) :
    (finish (slots (longs.length + empties.length))
        { longs.foldl longSlot s with cnt := empties.length }).2.Safe ↔
      (∀ d ∈ longs, 1 ≤ d.lcnt ∧ d.lcnt ≤ 19) ∧ longs.countP (·.isLast) ≤ 1 ∧
      (empties ≠ [] → (∃ d ∈ longs, d.isLast) →
        ∀ d, slots (longs.length + empties.length) = some d → d.isEnd) := by
  have hnull := foldl_nullStore longs s
  rw [hs.nullStore, hs.countSet, if_pos rfl] at hnull
  have hset : (longs.foldl longSlot s).countSet = true ↔ ¬∃ d ∈ longs, d.isLast := by
    rw [foldl_countSet, hs.countSet, Bool.true_and, Bool.not_eq_true', any_eq_false]
    push Not
    exact Iff.rfl
  have hstored : (∀ a ∈ (longs.foldl longSlot s).name.stored, 0 ≤ a ∧ a < 256) ↔
      ∀ d ∈ longs, 1 ≤ d.lcnt ∧ d.lcnt ≤ 19 := by
    constructor
    · intro hin d hd
      obtain ⟨hlo, hhi⟩ := foldl_places s hd (isLong_iff.mp (h.long d hd)).2.2
      exact place_inside.mp ⟨(hin _ hlo).1, (hin _ hhi).2⟩
    · intro hall a ha
      rcases foldl_name longs s a ha with ha | ⟨d, hd, ha⟩
      · exact hs.stored a ha
      · have hle := hall d hd
        unfold place charLongName at ha
        omega
  have hempty : empties.length ≠ 0 ↔ empties ≠ [] := by simp
  rw [finish_safe]
  rw [Scan.Safe, hnull, hstored, hset, hempty]
  constructor
  · intro ⟨⟨⟨_, hcount⟩, hall⟩, huse⟩
    refine ⟨hall, hcount, fun hne hlast d hd => ?_⟩
    by_contra hend
    exact huse hne ⟨d, hd, hend⟩ hlast
  · intro ⟨hall, hcount, hend⟩
    refine ⟨⟨⟨rfl, hcount⟩, hall⟩, fun hne ⟨d, hd, hnot⟩ hlast => ?_⟩
    exact hnot (hend hne hlast d hd)

/-- A scan ends, stores in the name only and leaves a terminated name, exactly when
the slots ahead are tame. -/
theorem scanLoop_safe_iff (hs : s.Fresh) :
    (∃ fuel r s', scanLoop slots fuel 0 s = some (r, s') ∧ s'.Safe ∧
      (r = 1 → ∃ i : Int, 0 ≤ i ∧ i < 256 ∧ s'.name.bytes i = 0)) ↔ Tame slots := by
  constructor
  · intro ⟨fuel, r, s', hrun, hsafe, _⟩
    obtain ⟨longs, empties, hcov, hlong, hempty, hstop, hp⟩ := scanLoop_inv hrun hs.cnt
    rw [Nat.zero_add] at hstop hp
    have hstretch : Stretch slots longs empties := ⟨hcov, hlong, hempty, hstop⟩
    rw [show s' = (finish _ _).2 from congrArg Prod.snd hp, stretch_safe hs hstretch] at hsafe
    exact ⟨longs, empties, hstretch, hsafe⟩
  · intro ⟨longs, empties, hstretch, htame⟩
    refine ⟨_, _, _, hstretch.run hs.cnt, (stretch_safe hs hstretch).mpr htame, fun _ => ?_⟩
    refine ⟨255, by decide, by decide, ?_⟩
    refine (finish_bytes _ _ (by decide)).trans ((foldl_bytes s fun d hd => ?_).trans hs.last)
    have hle := htame.1 d hd
    unfold place charLongName
    omega

/-- The slot at offset `p` of a directory with chain `cs`. -/
def slotAt (g : Geometry) (v : Volume) (cs : List Nat) (p : Nat) : Option Slot :=
  if p < cs.length * g.bytsPerClus then
    some fun i => if i < 32 then fileByte g v cs (p + i) else 0
  else none

/-- The slots that `enext` goes over: the offset is a `uint`. -/
def slotsFrom (g : Geometry) (v : Volume) (cs : List Nat) (off k : Nat) : Option Slot :=
  slotAt g v cs ((off + 32 * k) % 2 ^ 32)

variable {g : Geometry} {v : Volume} {dp : Entry} {cs : List Nat} {others : List (List Nat)}

theorem slot_fits {p : Nat} (hp : p % 32 = 0) : 32 ≤ g.bytsPerClus - p % g.bytsPerClus := by
  have hb := bytsPerClus_pos g
  have hdvd : 32 ∣ g.bytsPerClus := Nat.dvd_mul_left_of_dvd (by decide) _
  have hmod : p % g.bytsPerClus % 32 = 0 := by rw [Nat.mod_mod_of_dvd _ hdvd, hp]
  have hlt := Nat.mod_lt p hb
  omega

theorem readClus_within {p m : Nat} (hm : m ≤ g.bytsPerClus - p % g.bytsPerClus) :
    readClus g v (cs.getD (p / g.bytsPerClus) 0) (p % g.bytsPerClus) m =
      some fun i => if i < m then fileByte g v cs (p + i) else 0 := by
  obtain ⟨r, k, out, hrun, hrk, hk, harr, hall⟩ :=
    arrived_clus v cs (fun _ => true) 0 (fun _ => 0) hm
  have hr := hall fun _ _ => rfl
  obtain rfl : k = m := by omega
  rw [readClus, hrun]
  refine congrArg some (funext fun i => (harr i).trans ?_)
  simp

theorem FileAt.moveTo (hfile : FileAt g dp cs) {i : Nat} (hi : i < cs.length) :
    FileAt g (dp.moveTo cs i) cs :=
  ⟨hfile.first, hfile.size, fun _ => moveTo_position hi⟩

theorem FileAt.restart (hfile : FileAt g dp cs) :
    FileAt g { dp with curClus := dp.firstClus, clusCnt := 0 } cs := by
  refine ⟨hfile.first, hfile.size, fun hne => ?_⟩
  cases cs with
  | nil => exact absurd rfl hne
  | cons c cs => exact congrArg some hfile.first.symm

/-- `enext` is the scan of its slots, and `dp` stays an entry of its directory. -/
theorem enextLoop_scan (hwf : WF g v (cs :: others)) (hne : cs ≠ []) {off : Nat}
    (hoff : off % 32 = 0) (fuel k : Nat) (dp : Entry) (hfile : FileAt g dp cs) (s : Scan) :
    (enextLoop g v fuel ((off + 32 * k) % 2 ^ 32) dp s).map (fun r => (r.1, r.2.2)) =
        scanLoop (slotsFrom g v cs off) fuel k s ∧
      ∀ r dp' s', enextLoop g v fuel ((off + 32 * k) % 2 ^ 32) dp s = some (r, dp', s') →
        FileAt g dp' cs := by
  induction fuel generalizing k dp s with
  | zero => exact ⟨rfl, fun _ _ _ h => (nomatch h)⟩
  | succ fuel ih =>
      obtain ⟨p, hp⟩ : ∃ p, p = (off + 32 * k) % 2 ^ 32 := ⟨_, rfl⟩
      have halign : p % 32 = 0 := by omega
      have hnext : (p + 32) % 2 ^ 32 = (off + 32 * (k + 1)) % 2 ^ 32 := by omega
      have hpos := hfile.position hne
      -- a call that returns leaves the position where `reloc_clus` put it
      have hdone : ∀ (r : Int) (dp' : Entry) (s' : Scan), FileAt g dp' cs →
          (some (r, dp', s')).map (fun r => (r.1, r.2.2)) = some (r, s') ∧
          ∀ r₁ dp₁ s₁, some (r, dp', s') = some (r₁, dp₁, s₁) → FileAt g dp₁ cs := by
        intro r dp' s' hfile'
        refine ⟨rfl, fun r₁ dp₁ s₁ heq => ?_⟩
        obtain ⟨_, rfl, _⟩ : r = r₁ ∧ dp' = dp₁ ∧ s' = s₁ := by simpa using heq
        exact hfile'
      rw [← hp, enextLoop, scanLoop, slotsFrom, ← hp, slotAt]
      by_cases hin : p < cs.length * g.bytsPerClus
      · have hidx := index_lt hin
        have hmoved := hfile.moveTo hidx
        rw [if_pos hin, relocClus_within hwf hfile.first hpos false hidx]
        dsimp only
        rw [show (dp.moveTo cs (p / g.bytsPerClus)).curClus =
          cs.getD (p / g.bytsPerClus) 0 from rfl, readClus_within (slot_fits halign)]
        generalize (fun i => if i < 32 then fileByte g v cs (p + i) else 0) = d
        have hend : isEnd d ↔ order d = endOfEntry := decide_eq_true_iff
        have hempty : isEmpty d ↔ order d = emptyEntry := decide_eq_true_iff
        simp only [hend, hempty]
        split
        · exact hdone _ _ _ hmoved
        · split
          · rw [hnext]
            exact ih (k + 1) _ hmoved _
          next hend' hempty' =>
          have hlong : isLong d ↔ attr d = attrLongName := by
            rw [isLong_iff, hend, hempty]
            exact ⟨fun h => h.2.2, fun h => ⟨hend', hempty', h⟩⟩
          simp only [hlong]
          split
          · exact hdone _ _ _ hmoved
          · split
            · rw [hnext]
              exact ih (k + 1) _ hmoved _
            · exact hdone _ _ _ hmoved
      · rw [if_neg hin, relocClus_beyond hwf hne hpos
          ((Nat.le_div_iff_mul_le (bytsPerClus_pos g)).mpr (Nat.not_lt.mp hin))]
        exact hdone _ _ _ hfile.restart

/-- The variables of `enext` before its loop. -/
def Scan.start (mem : Int → UInt8) (count : Nat) : Scan where
  name := zeros 0 (maxFilename + 1) ⟨mem, []⟩
  cnt := 0
  countSet := true
  count := count
  nullStore := false
  info := none

theorem Scan.start_fresh (mem : Int → UInt8) (count : Nat) : (start mem count).Fresh := by
  refine ⟨rfl, rfl, rfl, fun a ha => ?_, ?_⟩
  · rcases (zeros_within ..).stored a ha with ha | ha
    · cases ha
    · unfold maxFilename at ha
      omega
  · exact zeros_bytes _ _ _ (by decide) (by decide)

theorem enext_scan (hwf : WF g v (cs :: others)) (hne : cs ≠ []) (hfile : FileAt g dp cs)
    (hdir : dp.attr &&& attrDirectory ≠ 0) (mem : Int → UInt8) (count : Nat) {off : Nat}
    (hoff : off % 32 = 0) (hlt : off < 2 ^ 32) (fuel : Nat) :
    (enext g v dp mem count off fuel).map (fun r => (r.1, r.2.2)) =
        scanLoop (slotsFrom g v cs off) fuel 0 (.start mem count) ∧
      ∀ r dp' s, enext g v dp mem count off fuel = some (r, dp', s) → FileAt g dp' cs := by
  have h := enextLoop_scan hwf hne hoff fuel 0 dp hfile (.start mem count)
  rw [Nat.mul_zero, Nat.add_zero, Nat.mod_eq_of_lt hlt] at h
  rw [enext, if_neg (by rw [not_or, not_not]; exact ⟨hdir, hoff⟩)]
  exact h

/-- A call of `enext` ends, stores in `ep->filename` only and leaves a terminated
name when it returns 1, exactly when the slots from its offset on are tame. -/
theorem enext_safe_iff_tame (hwf : WF g v (cs :: others)) (hne : cs ≠ [])
    (hfile : FileAt g dp cs) (hdir : dp.attr &&& attrDirectory ≠ 0) (mem : Int → UInt8)
    (count : Nat) {off : Nat} (hoff : off % 32 = 0) (hlt : off < 2 ^ 32) :
    (∃ fuel r dp' s, enext g v dp mem count off fuel = some (r, dp', s) ∧ s.Safe ∧
      (r = 1 → ∃ i : Int, 0 ≤ i ∧ i < 256 ∧ s.name.bytes i = 0)) ↔ Tame (slotsFrom g v cs off) := by
  have hscan := fun fuel => (enext_scan hwf hne hfile hdir mem count hoff hlt fuel).1
  rw [← scanLoop_safe_iff (start_fresh mem count)]
  constructor
  · intro ⟨fuel, r, dp', s, hrun, h⟩
    refine ⟨fuel, r, s, ?_, h⟩
    rw [← hscan, hrun]
    rfl
  · intro ⟨fuel, r, s, hrun, h⟩
    rw [← hscan] at hrun
    obtain ⟨⟨r', dp', s'⟩, heq, hres⟩ := Option.map_eq_some_iff.mp hrun
    obtain ⟨rfl, rfl⟩ := Prod.ext_iff.mp hres
    exact ⟨fuel, r', dp', s', heq, h⟩

/-- A directory in one cluster, whose first slot has the order number `order`. -/
def oneSlot (order : UInt8) : Volume where
  fat := fun c => if c ≤ 2 then eoc + 7 else 0
  sectors := fun sec i => if sec = 4 ∧ i = 0 then order else if sec = 4 ∧ i = 11 then 0x0f else 0

def oneDir : Entry :=
  { attr := attrDirectory, firstClus := 2, fileSize := 0, curClus := 2, clusCnt := 0,
    dirty := false }

theorem oneSlot_wf (order : UInt8) : WF threeClusters (oneSlot order) [[2]] := by
  refine ⟨?_, ?_, by decide⟩
  · intro cs hcs c hc
    obtain rfl : cs = [2] := by simpa using hcs
    obtain rfl : c = 2 := by simpa using hc
    decide
  · intro cs hcs
    obtain rfl : cs = [2] := by simpa using hcs
    exact ⟨Nat.le_add_right .., Nat.le_refl _⟩

theorem oneDir_at : FileAt threeClusters oneDir [2] := ⟨rfl, by decide, fun _ => rfl⟩

theorem enext_safe_iff_tame_one :
    (∃ fuel r dp' s, enext threeClusters (oneSlot 0x41) oneDir (fun _ => 1) 0 0 fuel =
        some (r, dp', s) ∧ s.Safe ∧ (r = 1 → ∃ i : Int, 0 ≤ i ∧ i < 256 ∧ s.name.bytes i = 0)) ↔
    Tame (slotsFrom threeClusters (oneSlot 0x41) [2] 0) :=
  enext_safe_iff_tame (oneSlot_wf 0x41) (by simp) oneDir_at (by decide) (fun _ => 1) 0 rfl
    (by decide)

/-- The first slot of a name with 20 slots stores behind the name. -/
theorem twentieth_slot_outside :
    WF threeClusters (oneSlot 0x54) [[2]] ∧ FileAt threeClusters oneDir [2] ∧
    ∃ r dp' s, enext threeClusters (oneSlot 0x54) oneDir (fun _ => 1) 0 0 2 =
        some (r, dp', s) ∧ (256 : Int) ∈ s.name.stored := by
  refine ⟨oneSlot_wf 0x54, oneDir_at, ?_⟩
  obtain ⟨⟨r, dp', s⟩, hrun, hres⟩ := Option.map_eq_some_iff.mp (show
    (enext threeClusters (oneSlot 0x54) oneDir (fun _ => 1) 0 0 2).map
      (fun p => decide ((256 : Int) ∈ p.2.2.name.stored)) = some true by decide +kernel)
  exact ⟨r, dp', s, hrun, by simpa using hres⟩

end F7ly.Fs.Fat32
