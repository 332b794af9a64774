import F7ly.Proofs.Fat32Name

/-!
# Changing a directory

A well-formed directory is a sequence of entries and free slots (`Item`). An entry
is its long-name slots, numbered downwards with a flag on the first, and its short
entry. `dirlookup` goes from item to item, so the offset that it returns is that of
an item.

`eupdate` and `eremove` take the number of long-name slots from the first byte of
the entry. Without a long name that byte is the first character of the short name,
so they find the short entry only when it is `@`, which reads as the number 0.
-/

namespace F7ly.Fs.Fat32

open Slot

/-- A free slot, or an entry: its long-name slots and its short entry. -/
inductive Item where
  | free (d : Slot)
  | file (longs : List Slot) (short : Slot)

namespace Item

def slots : Item → List Slot
  | free d => [d]
  | file longs short => longs ++ [short]

/-- The slots of a long name are numbered downwards to 1. The first has the flag. -/
def Ok : Item → Prop
  | free d => d.isEmpty
  | file longs short =>
      longs.length ≤ 20 ∧
      (∀ i d, longs[i]? = some d → d.attr = attrLongName ∧
        d.order = longs.length - i + if i = 0 then lastLongEntry else 0) ∧
      ¬short.isEnd ∧ ¬short.isEmpty ∧ short.attr ≠ attrLongName

end Item

def slotsOf (items : List Item) : List Slot := items.flatMap Item.slots

@[simp] theorem slotsOf_append (l m : List Item) : slotsOf (l ++ m) = slotsOf l ++ slotsOf m :=
  List.flatMap_append ..

@[simp] theorem slotsOf_cons (it : Item) (l : List Item) :
    slotsOf (it :: l) = it.slots ++ slotsOf l := rfl

/-- A directory that holds `items`. Its offsets are `uint`s. -/
structure Dir (g : Geometry) (v : Volume) (cs : List Nat) (items : List Item) : Prop where
  ok : ∀ it ∈ items, it.Ok
  covers : Covers (fun k => slotAt g v cs (32 * k)) 0 (slotsOf items)
  stop : ∀ d, slotAt g v cs (32 * (slotsOf items).length) = some d → d.isEnd
  size : 32 * (slotsOf items).length < 2 ^ 32

/-- `it` is the item at offset `off`. -/
def ItemAt (items : List Item) (off : Nat) (it : Item) : Prop :=
  ∃ before after, items = before ++ it :: after ∧ off = 32 * (slotsOf before).length

/-- A scan with `items` ahead of it. -/
structure Ahead (slots : Nat → Option Slot) (items : List Item) : Prop where
  ok : ∀ it ∈ items, it.Ok
  covers : Covers slots 0 (slotsOf items)
  stop : ∀ d, slots (slotsOf items).length = some d → d.isEnd

variable {g : Geometry} {v : Volume} {dp : Entry} {cs : List Nat} {others : List (List Nat)}
  {items before after : List Item} {slots : Nat → Option Slot} {s : Scan}

theorem Dir.ahead (h : Dir g v cs (before ++ after)) :
    Ahead (slotsFrom g v cs (32 * (slotsOf before).length)) after := by
  have hcov := h.covers
  have hsize := h.size
  have hstop := h.stop
  rw [slotsOf_append] at hcov
  simp only [slotsOf_append, List.length_append] at hsize hstop
  have heq : ∀ k, k ≤ (slotsOf after).length → slotsFrom g v cs (32 * (slotsOf before).length) k =
        slotAt g v cs (32 * ((slotsOf before).length + k)) := by
    intro k hk
    rw [slotsFrom, Nat.mod_eq_of_lt (by omega), Nat.mul_add]
  refine ⟨fun it hit => h.ok it (List.mem_append_right _ hit), fun i d hd => ?_, fun d hd => ?_⟩
  · have hi := (List.getElem?_eq_some_iff.mp hd).1
    have := hcov.append_right i d hd
    rw [Nat.zero_add] at this ⊢
    rw [heq i (by omega)]
    exact this
  · rw [heq _ (Nat.le_refl _)] at hd
    exact hstop d hd

theorem zero_bits : ∀ n, n < 256 → n ≠ 0 → (n &&& 0xbf = 0 ↔ n = 0x40) := by
  decide +kernel

theorem order_bits : ∀ n, n < 21 → 0 < n → n ≠ emptyEntry ∧ n + lastLongEntry ≠ emptyEntry ∧
    n &&& 0xbf = n ∧ (n + lastLongEntry) &&& 0xbf = n ∧ n &&& lastLongEntry = 0 ∧
    (n + lastLongEntry) &&& lastLongEntry ≠ 0 := by
  decide

variable {longs : List Slot} {short d : Slot} {i fuel off p : Nat}

theorem order_long (hok : (Item.file longs short).Ok) (hd : longs[i]? = some d) :
    d.isLong ∧ d.lcnt = longs.length - i ∧ (d.isLast ↔ i = 0) := by
  obtain ⟨hlen, hall, _⟩ := hok
  obtain ⟨hattr, horder⟩ := hall i d hd
  have hi := (List.getElem?_eq_some_iff.mp hd).1
  obtain ⟨n, hn⟩ : ∃ n, n = longs.length - i := ⟨_, rfl⟩
  have hpos : 0 < n := by omega
  have hle : n ≤ 20 := by omega
  rw [← hn] at horder ⊢
  obtain ⟨h₁, h₂, h₃, h₄, h₅, h₆⟩ := order_bits n (Nat.lt_succ_of_le hle) hpos
  by_cases hzero : i = 0
  · rw [if_pos hzero] at horder
    refine ⟨isLong_iff.mpr ⟨?_, ?_, hattr⟩, ?_, ?_⟩
    · simp [isEnd, horder, endOfEntry]
      omega
    · simpa [isEmpty, horder] using h₂
    · rw [lcnt, horder, h₄]
    · simpa [isLast, horder, hzero] using h₆
  · rw [if_neg hzero, Nat.add_zero] at horder
    refine ⟨isLong_iff.mpr ⟨?_, ?_, hattr⟩, ?_, ?_⟩
    · simp [isEnd, horder, endOfEntry]
      omega
    · simpa [isEmpty, horder] using h₁
    · rw [lcnt, horder, h₃]
    · simpa [isLast, horder, hzero] using h₅

theorem Ahead.file (h : Ahead slots (.file longs short :: after)) :
    Stretch slots longs [] ∧ slots longs.length = some short := by
  have hok := h.ok _ (List.mem_cons_self ..)
  have hcov := h.covers
  rw [slotsOf_cons, Item.slots, List.append_assoc] at hcov
  have hshort : slots longs.length = some short := by
    have := hcov.append_right 0 short rfl
    simpa using this
  refine ⟨⟨?_, ?_, fun d hd => (List.not_mem_nil hd).elim, fun d hd => ?_⟩, hshort⟩
  · rw [List.append_nil]
    exact hcov.append_left
  · intro d hd
    obtain ⟨i, hi, rfl⟩ := List.getElem_of_mem hd
    exact (order_long hok (List.getElem?_eq_getElem hi)).1
  · rw [List.length_nil, Nat.add_zero, hshort] at hd
    obtain rfl := Option.some.inj hd
    obtain ⟨_, _, _, hempty, hattr⟩ := hok
    exact ⟨hempty, fun _ hlong => hattr (isLong_iff.mp hlong).2.2⟩

theorem frees_split (items : List Item) :
    ∃ (ds : List Slot) (rest : List Item), items = ds.map Item.free ++ rest ∧
      (rest = [] ∨ ∃ longs short tail, rest = .file longs short :: tail) := by
  induction items with
  | nil => exact ⟨[], [], rfl, .inl rfl⟩
  | cons it items ih =>
      cases it with
      | free d =>
          obtain ⟨ds, rest, rfl, hrest⟩ := ih
          exact ⟨d :: ds, rest, rfl, hrest⟩
      | file longs short => exact ⟨[], _, rfl, .inr ⟨longs, short, items, rfl⟩⟩

theorem slotsOf_frees (ds : List Slot) : slotsOf (ds.map Item.free) = ds := by
  induction ds with
  | nil => rfl
  | cons d ds ih => rw [List.map_cons, slotsOf_cons, ih]; rfl

theorem Slot.not_empty_of_end (h : d.isEnd) : ¬d.isEmpty :=
  fun he => isEnd_of_isEmpty he h

theorem first_used (hok : (Item.file longs short).Ok)
    (hd : (longs ++ [short])[0]? = some d) : ¬d.isEmpty := by
  cases longs with
  | nil =>
      obtain rfl : short = d := by simpa using hd
      exact hok.2.2.2.1
  | cons x longs =>
      obtain rfl : x = d := by simpa using hd
      exact (isLong_iff.mp (order_long hok (i := 0) rfl).1).2.1

theorem Ahead.frees {ds : List Slot} {rest : List Item}
    (h : Ahead slots (ds.map Item.free ++ rest)) (hds : ds ≠ [])
    (hrest : rest = [] ∨ ∃ longs short tail, rest = .file longs short :: tail) :
    Stretch slots [] ds := by
  have hcov := h.covers
  have hstop := h.stop
  rw [slotsOf_append, slotsOf_frees] at hcov hstop
  refine ⟨hcov.append_left, fun d hd => (List.not_mem_nil hd).elim, fun d hd => ?_,
    fun d hd => ⟨?_, fun hnil => absurd hnil hds⟩⟩
  · exact h.ok (.free d) (List.mem_append_left _ (List.mem_map_of_mem hd))
  · rw [List.length_nil, Nat.zero_add] at hd
    rcases hrest with rfl | ⟨longs, short, tail, rfl⟩
    · refine not_empty_of_end (hstop d ?_)
      rw [List.length_append]
      exact hd
    · have hok := h.ok (.file longs short) (List.mem_append_right _ (List.mem_cons_self ..))
      refine first_used hok ?_
      cases hfirst : (longs ++ [short])[0]? with
      | none => simp at hfirst
      | some x =>
          have hx : (slotsOf (.file longs short :: tail))[0]? = some x := by
            rw [slotsOf_cons, Item.slots, List.getElem?_append_left (by simp), hfirst]
          have := hcov.append_right 0 x hx
          rw [Nat.zero_add, Nat.add_zero, hd] at this
          exact this.symm

theorem scanLoop_mono {fuel' k : Nat} {p : Int × Scan}
    (h : scanLoop slots fuel k s = some p) (hle : fuel ≤ fuel') :
    scanLoop slots fuel' k s = some p := by
  induction fuel generalizing fuel' k s with
  | zero => cases h
  | succ fuel ih =>
      obtain ⟨fuel', rfl⟩ : ∃ m, fuel' = m + 1 := ⟨fuel' - 1, by omega⟩
      rw [scanLoop] at h ⊢
      cases hd : slots k with
      | none => rw [hd] at h; exact h
      | some d =>
          rw [hd] at h
          dsimp only at h ⊢
          split at h
          · next hend => rw [if_pos hend]; exact h
          next hend =>
          rw [if_neg hend]
          split at h
          · next he => rw [if_pos he]; exact ih h (by omega)
          next he =>
          rw [if_neg he]
          split at h
          · next hc => rw [if_pos hc]; exact h
          next hc =>
          rw [if_neg hc]
          split at h
          · next hl => rw [if_pos hl]; exact ih h (by omega)
          · next hl => rw [if_neg hl]; exact h

theorem Stretch.result {empties : List Slot} (h : Stretch slots longs empties)
    (hcnt : s.cnt = 0) {p : Int × Scan} (hrun : scanLoop slots fuel 0 s = some p) :
    p = finish (slots (longs.length + empties.length))
      { longs.foldl Scan.longSlot s with cnt := empties.length } := by
  have h₁ := scanLoop_mono hrun (Nat.le_max_left fuel (longs.length + (empties.length + 1)))
  have h₂ := scanLoop_mono (h.run hcnt)
    (Nat.le_max_right fuel (longs.length + (empties.length + 1)))
  exact Option.some.inj (h₁.symm.trans h₂)

theorem foldl_count (h : ∀ d ∈ longs, ¬d.isLast) (s : Scan) :
    (longs.foldl Scan.longSlot s).count = s.count := by
  induction longs generalizing s with
  | nil => rfl
  | cons d longs ih =>
      rw [List.foldl_cons, ih (fun x hx => h x (List.mem_cons_of_mem _ hx)), Scan.longSlot,
        if_neg (h d (List.mem_cons_self ..))]

theorem file_count (hok : (Item.file longs short).Ok) (hset : s.countSet = true) :
    (({ longs.foldl Scan.longSlot s with cnt := 0 } : Scan).shortSlot short).count =
      longs.length + 1 := by
  cases longs with
  | nil => simp [Scan.shortSlot, Scan.setCount, hset]
  | cons d longs =>
      obtain ⟨_, hlcnt, hlast⟩ := order_long hok (i := 0) (d := d) rfl
      have hrest : ∀ x ∈ longs, ¬x.isLast := fun x hx => by
        obtain ⟨i, hi, rfl⟩ := List.getElem_of_mem hx
        have := (order_long hok (i := i + 1) (List.getElem?_eq_getElem (by simpa using hi))).2.2
        exact fun hl => absurd (this.mp (by simpa using hl)) (Nat.succ_ne_zero _)
      have hclear : (longs.foldl Scan.longSlot (s.longSlot d)).countSet = false := by
        rw [foldl_countSet, longSlot_countSet, hlast.mpr rfl]
        simp
      rw [List.foldl_cons, Scan.shortSlot, if_neg (by simp [hclear])]
      rw [foldl_count hrest, Scan.longSlot, if_pos (hlast.mpr rfl), Scan.setCount, if_pos hset,
        hlcnt]
      rfl

/-- A call of `enext` at an item goes over whole items. -/
theorem scan_items (h : Ahead slots items) (hs : s.Fresh) {r : Int} {s' : Scan}
    (hrun : scanLoop slots fuel 0 s = some (r, s')) (hr : r ≠ -1) :
    ∃ seen rest, seen ≠ [] ∧ items = seen ++ rest ∧ s'.count = (slotsOf seen).length := by
  cases items with
  | nil =>
      have hstretch : Stretch slots [] [] := ⟨h.covers, fun d hd => (List.not_mem_nil hd).elim,
        fun d hd => (List.not_mem_nil hd).elim, fun d hd =>
          ⟨not_empty_of_end (h.stop d hd),
            fun _ hl => (isLong_iff.mp hl).1 (h.stop d hd)⟩⟩
      have hp := hstretch.result hs.cnt hrun
      refine absurd (congrArg Prod.fst hp) ?_
      rw [finish.eq_def]
      cases hd : slots (([] : List Slot).length + ([] : List Slot).length) with
      | none => exact hr
      | some d =>
          dsimp only
          rw [if_pos (h.stop d hd)]
          exact hr
  | cons it items =>
      cases it with
      | file longs short =>
          obtain ⟨hstretch, hshort⟩ := h.file
          have hok := h.ok _ (List.mem_cons_self ..)
          have hp := hstretch.result hs.cnt hrun
          rw [List.length_nil, Nat.add_zero, hshort, finish.eq_def] at hp
          dsimp only at hp
          rw [if_neg hok.2.2.1, if_neg (by simp)] at hp
          refine ⟨[.file longs short], items, by simp, rfl, ?_⟩
          rw [show s' = _ from congrArg Prod.snd hp]
          refine (file_count hok hs.countSet).trans ?_
          simp [slotsOf, Item.slots]
      | free d =>
          obtain ⟨ds, rest, heq, hrest⟩ := frees_split items
          rw [heq, ← List.cons_append, ← List.map_cons] at h ⊢
          have hstretch := h.frees (by simp) hrest
          have hp := hstretch.result hs.cnt hrun
          refine ⟨(d :: ds).map Item.free, rest, by simp, rfl, ?_⟩
          rw [slotsOf_frees]
          rw [finish.eq_def] at hp
          split at hp
          · exact absurd (congrArg Prod.fst hp) hr
          · split at hp
            · exact absurd (congrArg Prod.fst hp) hr
            · rw [if_pos (by simp)] at hp
              rw [show s' = _ from congrArg Prod.snd hp, Scan.setCount, List.foldl_nil,
                if_pos hs.countSet]

theorem enext_dir {mem : Int → UInt8} {count : Nat} {p : Int × Entry × Scan}
    (h : enext g v dp mem count off fuel = some p) :
    dp.attr &&& attrDirectory ≠ 0 ∧ off % 32 = 0 := by
  rw [enext] at h
  split at h
  · cases h
  · next hok =>
      rw [not_or, not_not] at hok
      exact hok

theorem dirlookupLoop_found (hwf : WF g v (cs :: others)) (hne : cs ≠ [])
    (hdir : Dir g v cs items) {filename : Nat → UInt8} {rounds : Nat} :
    ∀ fuel count dp mem before after off info dp', items = before ++ after → FileAt g dp cs →
      dirlookupLoop g v filename rounds fuel (32 * (slotsOf before).length) count dp mem =
        some (some (off, info), dp') → (∃ it, ItemAt items off it) ∧ FileAt g dp' cs := by
  intro fuel
  induction fuel with
  | zero => intro _ _ _ _ _ _ _ _ _ _ h; cases h
  | succ fuel ih =>
      intro count dp mem before after off info dp' heq hfile h
      have hsize := hdir.size
      simp only [heq, slotsOf_append, List.length_append] at hsize
      rw [dirlookupLoop] at h
      cases hcall : enext g v dp mem count (32 * (slotsOf before).length) rounds with
      | none => rw [hcall] at h; cases h
      | some p =>
          obtain ⟨r, dp₁, s⟩ := p
          rw [hcall] at h
          obtain ⟨hattr, halign⟩ := enext_dir hcall
          obtain ⟨hscan, hpos⟩ := enext_scan hwf hne hfile hattr mem count halign (by omega) rounds
          rw [hcall, Option.map_some] at hscan
          dsimp only at h hscan
          by_cases hr : r = -1
          · rw [if_pos hr] at h
            simp at h
          · rw [if_neg hr] at h
            obtain ⟨seen, rest, hseen, rfl, hcount⟩ := scan_items (heq ▸ hdir).ahead
              (Scan.start_fresh mem count) hscan.symm hr
            split at h
            · obtain ⟨⟨rfl, _⟩, rfl⟩ : (_ ∧ _) ∧ _ := by simpa using h
              cases seen with
              | nil => exact absurd rfl hseen
              | cons it seen => exact ⟨⟨it, before, seen ++ rest, heq, rfl⟩, hpos _ _ _ hcall⟩
            · refine ih s.count dp₁ s.name.bytes (before ++ seen) rest off info dp'
                (by rw [heq, List.append_assoc]) (hpos _ _ _ hcall) ?_
              simp only [slotsOf_append, List.length_append] at hsize ⊢
              rwa [show (32 * (slotsOf before).length + 32 * s.count) % 2 ^ 32 =
                32 * ((slotsOf before).length + (slotsOf seen).length) by omega] at h

/-- The offset that `dirlookup` returns is that of an item. -/
theorem dirlookup_found (hwf : WF g v (cs :: others)) (hne : cs ≠ []) (hfile : FileAt g dp cs)
    (hdir : Dir g v cs items) {filename : Nat → UInt8} {mem : Int → UInt8}
    {rounds : Nat} {info : Option Info} {dp' : Entry}
    (h : dirlookup g v dp filename mem rounds fuel = some (some (off, info), dp')) :
    (∃ it, ItemAt items off it) ∧ FileAt g dp' cs := by
  have hzero : 0 / g.bytsPerClus < cs.length := by
    rw [Nat.zero_div]
    exact List.length_pos_of_ne_nil hne
  rw [dirlookup, relocClus_within hwf hfile.first (hfile.position hne) false hzero] at h
  exact dirlookupLoop_found hwf hne hdir fuel 0 _ mem [] items off info dp' rfl
    (hfile.moveTo hzero) h

theorem slotAt_of_item (hdir : Dir g v cs items) (hat : ItemAt items off (.file longs short))
    (hd : (longs ++ [short])[i]? = some d) :
    off % 32 = 0 ∧ off + 32 * i < 2 ^ 32 ∧ slotAt g v cs (off + 32 * i) = some d := by
  obtain ⟨before, after, rfl, rfl⟩ := hat
  have hcov := hdir.covers
  have hsize := hdir.size
  have hi := (List.getElem?_eq_some_iff.mp hd).1
  rw [slotsOf_append, slotsOf_cons, Item.slots] at hcov hsize
  refine ⟨Nat.mul_mod_right .., ?_, ?_⟩
  · simp only [List.length_append] at hsize hi ⊢
    omega
  · have := hcov.append_right.append_left i d hd
    rwa [Nat.zero_add, Nat.mul_add] at this

theorem slotAt_inv (h : slotAt g v cs p = some d) :
    p < cs.length * g.bytsPerClus ∧ ∀ i, i < 32 → fileByte g v cs (p + i) = d i := by
  rw [slotAt] at h
  split at h
  · next hp =>
      obtain rfl := Option.some.inj h
      exact ⟨hp, fun i hi => (if_pos hi).symm⟩
  · cases h

theorem writeClus_within (hwf : WF g v (cs :: others)) {m : Nat}
    (hp : p < cs.length * g.bytsPerClus) (hpos : 0 < m)
    (hm : m ≤ g.bytsPerClus - p % g.bytsPerClus) (d : Nat → UInt8) :
    ∃ v', writeClus g v (cs.getD (p / g.bytsPerClus) 0) (p % g.bytsPerClus) m d = some v' ∧
      Wrote g v cs others (fun x => d (x - p)) p (p + m) v' cs := by
  obtain ⟨v', hrun, _, hw⟩ := wrote_clus (fun x => d (x - p)) (fun a => some (d a)) 0 hwf
    (index_lt hp) hpos hm (fun _ _ => rfl) (fun x _ _ => by rw [Nat.zero_add]; rfl)
  exact ⟨v', by rw [writeClus, hrun]; rfl, hw⟩

theorem entcnt_within :
    entcnt g v (cs.getD (p / g.bytsPerClus) 0) (p % g.bytsPerClus) =
      some ((fileByte g v cs p).toNat &&& 0xbf) := by
  have hmod := Nat.mod_lt p (bytsPerClus_pos g)
  rw [entcnt, readClus_within (by omega)]
  rfl

/-- The slot that `eupdate` goes to. -/
def target (g : Geometry) (v : Volume) (cs : List Nat) (off : Nat) : Nat :=
  (off + 32 * ((fileByte g v cs off).toNat &&& 0xbf)) % 2 ^ 32

theorem eupdate_within (hwf : WF g v (cs :: others)) (hne : cs ≠ []) (hfile : FileAt g dp cs)
    (hoff : off < cs.length * g.bytsPerClus) (halign : off % 32 = 0)
    (ht : target g v cs off < cs.length * g.bytsPerClus) (firstClus fileSize : Nat) :
    ∃ v' dp', eupdate g v dp off firstClus fileSize = some (v', dp') ∧ Wrote g v cs others (fun x =>
          setInfo (fun i => if i < 32 then fileByte g v cs (target g v cs off + i) else 0)
            firstClus fileSize (x - target g v cs off))
        (target g v cs off) (target g v cs off + 32) v' cs := by
  have htalign : target g v cs off % 32 = 0 := by
    unfold target
    omega
  have hmoved := hfile.moveTo (index_lt hoff)
  obtain ⟨v', hwrite, hw⟩ := writeClus_within hwf ht (by decide) (slot_fits htalign)
    (setInfo (fun i => if i < 32 then fileByte g v cs (target g v cs off + i) else 0)
      firstClus fileSize)
  refine ⟨v', (dp.moveTo cs (off / g.bytsPerClus)).moveTo cs
    (target g v cs off / g.bytsPerClus), ?_, hw⟩
  rw [eupdate, relocClus_within hwf hfile.first (hfile.position hne) false (index_lt hoff)]
  dsimp only [asOffset, Option.getD_some]
  rw [show (dp.moveTo cs (off / g.bytsPerClus)).curClus =
    cs.getD (off / g.bytsPerClus) 0 from rfl, entcnt_within]
  dsimp only
  rw [show (off + 32 * ((fileByte g v cs off).toNat &&& 0xbf)) % 2 ^ 32 =
      target g v cs off from rfl,
    relocClus_within hwf hmoved.first (hmoved.position hne) false (index_lt ht)]
  dsimp only [Option.getD_some]
  rw [show ((dp.moveTo cs (off / g.bytsPerClus)).moveTo cs
      (target g v cs off / g.bytsPerClus)).curClus =
    cs.getD (target g v cs off / g.bytsPerClus) 0 from rfl,
    readClus_within (slot_fits htalign)]
  dsimp only
  rw [hwrite]

theorem readClus_beyond {c : Nat} {d : Nat → UInt8}
    (hread : readClus g v c (2 ^ 32 - 1) 32 = some d) :
    d 0 = spanByte v (firstSecOfClus g c) (2 ^ 32 - 1) := by
  obtain ⟨r, k, out, hrun, hrk, hk, hout, hall⟩ := rwLoop_copyOut (fun _ => true) 0 (n := 32)
    (firstSecOfClus g c) (2 ^ 32 - 1) v fun _ => 0
  have hr := hall fun _ _ => rfl
  rw [readClus, rwClus] at hread
  split at hread
  · cases hread
  · rw [hrun] at hread
    obtain rfl : out = d := Option.some.inj hread
    exact (hout 0).trans (if_pos ⟨Nat.le_refl 0, by omega⟩)

/-- A write of 32 bytes at the offset -1 of a cluster, whose first byte is the one
there, leaves the last byte of every slot. -/
theorem writeClus_beyond {c : Nat} {d : Nat → UInt8} {v' : Volume}
    (hwrite : writeClus g v c (2 ^ 32 - 1) 32 d = some v')
    (hd : d 0 = spanByte v (firstSecOfClus g c) (2 ^ 32 - 1)) (sec j : Nat) (hj : j % 32 = 31)
    (hlt : j < bsize) : v'.sectors sec j = v.sectors sec j := by
  obtain ⟨v₁, hrun, _, hbelow, hbyte⟩ := rwLoop_copyIn (fun a => some (d a)) 0 (n := 32)
    (fun _ _ => rfl) (firstSecOfClus g c) (2 ^ 32 - 1) v
  have heq : v₁ = v' := by
    rw [writeClus, rwClus] at hwrite
    split at hwrite
    · cases hwrite
    · rw [hrun] at hwrite
      exact Option.some.inj hwrite
  subst heq
  by_cases hsec : sec < firstSecOfClus g c
  · rw [hbelow sec (.inl hsec)]
  · -- the byte is one of the span of the cluster
    obtain ⟨k, rfl⟩ := Nat.exists_eq_add_of_le (Nat.not_lt.mp hsec)
    have hspan : ∀ w : Volume,
        spanByte w (firstSecOfClus g c) (bsize * k + j) = w.sectors (firstSecOfClus g c + k) j := by
      intro w
      rw [spanByte, Nat.mul_add_div (by decide), Nat.div_eq_of_lt hlt, Nat.add_zero,
        Nat.mul_add_mod, Nat.mod_eq_of_lt hlt]
    rw [← hspan, ← hspan, hbyte]
    split
    · next hin =>
        have hfirst : bsize * k + j = 2 ^ 32 - 1 := by
          unfold bsize at hin ⊢
          omega
        rw [hfirst, Nat.sub_self, ← hd]
        rfl
    · rfl

theorem eupdate_misses (hwf : WF g v (cs :: others)) (hne : cs ≠ []) (hfile : FileAt g dp cs)
    (hoff : off < cs.length * g.bytsPerClus) (halign : off % 32 = 0)
    (hcnt : (fileByte g v cs off).toNat &&& 0xbf ≠ 0)
    {firstClus fileSize : Nat} {v' : Volume} {dp' : Entry}
    (hrun : eupdate g v dp off firstClus fileSize = some (v', dp')) :
    fileByte g v' cs (off + 31) = fileByte g v cs (off + 31) := by
  have hle : (fileByte g v cs off).toNat &&& 0xbf ≤ 0xbf := Nat.and_le_right
  have hcap : off + 31 < cs.length * g.bytsPerClus := by
    have hdvd : 32 ∣ cs.length * g.bytsPerClus :=
      Nat.dvd_mul_left_of_dvd (Nat.dvd_mul_left_of_dvd (by decide) _) _
    omega
  by_cases ht : target g v cs off < cs.length * g.bytsPerClus
  · obtain ⟨v₁, dp₁, hrun₁, hw⟩ := eupdate_within hwf hne hfile hoff halign ht firstClus fileSize
    obtain ⟨rfl, _⟩ : v₁ = v' ∧ dp₁ = dp' := by
      rw [hrun₁] at hrun
      simpa using hrun
    refine hw.outside _ hcap ?_
    unfold target
    omega
  · have hmoved := hfile.moveTo (index_lt hoff)
    rw [eupdate, relocClus_within hwf hfile.first (hfile.position hne) false (index_lt hoff)]
      at hrun
    dsimp only [asOffset, Option.getD_some] at hrun
    rw [show (dp.moveTo cs (off / g.bytsPerClus)).curClus =
      cs.getD (off / g.bytsPerClus) 0 from rfl, entcnt_within] at hrun
    dsimp only at hrun
    rw [show (off + 32 * ((fileByte g v cs off).toNat &&& 0xbf)) % 2 ^ 32 =
        target g v cs off from rfl, relocClus_beyond hwf hne (hmoved.position hne)
        ((Nat.le_div_iff_mul_le (bytsPerClus_pos g)).mpr (Nat.not_lt.mp ht))] at hrun
    dsimp only [Option.getD_none] at hrun
    split at hrun
    · cases hrun
    next de hread =>
    split at hrun
    · cases hrun
    next v₁ hwrite =>
    obtain ⟨rfl, _⟩ : v₁ = v' ∧ _ = dp' := by simpa using hrun
    refine writeClus_beyond hwrite ?_ _ _ ?_ (Nat.mod_lt _ (by decide))
    · exact (show setInfo de firstClus fileSize 0 = de 0 from rfl).trans
        (readClus_beyond hread)
    · have hdvd : bsize ∣ g.bytsPerClus := Nat.dvd_mul_left _ _
      rw [Nat.mod_mod_of_dvd _ hdvd, Nat.mod_mod_of_dvd _ (by decide)]
      omega

/-- Byte `p` is in the first-cluster or size field of the short entry at `q`. -/
def InField (q p : Nat) : Prop := q + 20 ≤ p ∧ p < q + 22 ∨ q + 26 ≤ p ∧ p < q + 32

/-- `eupdate` of the entry at `off` sets the fields of the short entry at `q`, for
all values, and changes no other byte of the directory. -/
def UpdatesOnly (g : Geometry) (v : Volume) (dp : Entry) (cs : List Nat) (off q : Nat) : Prop :=
  ∀ firstClus fileSize, firstClus < 2 ^ 32 → fileSize < 2 ^ 32 →
    ∃ v' dp', eupdate g v dp off firstClus fileSize = some (v', dp') ∧
      (readEntryInfo fun i => fileByte g v' cs (q + i)).firstClus = firstClus ∧
      (readEntryInfo fun i => fileByte g v' cs (q + i)).fileSize = fileSize ∧
      ∀ p, p < cs.length * g.bytsPerClus → ¬InField q p → fileByte g v' cs p = fileByte g v cs p

/-- `eremove` marks the `n` slots from `off` on as free, and changes no other byte of
the directory. -/
def RemovesOnly (g : Geometry) (v : Volume) (dp : Entry) (cs : List Nat) (off n : Nat) : Prop :=
  ∃ v' dp', eremove g v dp off = some (v', dp') ∧
    ∀ p, p < cs.length * g.bytsPerClus → fileByte g v' cs p =
      if off ≤ p ∧ p < off + 32 * n ∧ (p - off) % 32 = 0 then UInt8.ofNat emptyEntry
      else fileByte g v cs p

theorem setInfo_info {firstClus fileSize : Nat} (hclus : firstClus < 2 ^ 32)
    (hsize : fileSize < 2 ^ 32) :
    (readEntryInfo (setInfo d firstClus fileSize)).firstClus = firstClus ∧
      (readEntryInfo (setInfo d firstClus fileSize)).fileSize = fileSize := by
  simp [readEntryInfo, le16, setInfo]
  omega

theorem setInfo_other {firstClus fileSize : Nat} (h : ¬InField 0 i) :
    setInfo d firstClus fileSize i = d i := by
  unfold InField at h
  rw [setInfo, if_neg (by omega), if_neg (by omega), if_neg (by omega)]

theorem updatesOnly_of_target (hwf : WF g v (cs :: others)) (hne : cs ≠ [])
    (hfile : FileAt g dp cs) {q : Nat} (hoff : off < cs.length * g.bytsPerClus)
    (halign : off % 32 = 0) (hq : target g v cs off = q) (hin : q < cs.length * g.bytsPerClus) :
    UpdatesOnly g v dp cs off q := by
  intro firstClus fileSize hclus hsize
  obtain ⟨v', dp', hrun, hw⟩ :=
    eupdate_within hwf hne hfile hoff halign (hq ▸ hin) firstClus fileSize
  rw [hq] at hw
  have hbytes : ∀ i, i < 32 → fileByte g v' cs (q + i) =
      setInfo (fun i => if i < 32 then fileByte g v cs (q + i) else 0) firstClus fileSize i := by
    intro i hi
    rw [hw.inside (q + i) (Nat.le_add_right ..) (by omega), Nat.add_sub_cancel_left]
  have hinfo : readEntryInfo (fun i => fileByte g v' cs (q + i)) = readEntryInfo
      (setInfo (fun i => if i < 32 then fileByte g v cs (q + i) else 0) firstClus fileSize) := by
    simp only [readEntryInfo, le16, attr]
    simp [hbytes _ (show 11 < 32 by decide), hbytes _ (show 20 < 32 by decide),
      hbytes _ (show 20 + 1 < 32 by decide), hbytes _ (show 26 < 32 by decide),
      hbytes _ (show 26 + 1 < 32 by decide), hbytes _ (show 28 < 32 by decide),
      hbytes _ (show 28 + 1 < 32 by decide), hbytes _ (show 30 < 32 by decide),
      hbytes _ (show 30 + 1 < 32 by decide)]
  refine ⟨v', dp', hrun, ?_, ?_, fun p hp hfield => ?_⟩
  · rw [hinfo]
    exact (setInfo_info hclus hsize).1
  · rw [hinfo]
    exact (setInfo_info hclus hsize).2
  · by_cases hslot : q ≤ p ∧ p < q + 32
    · obtain ⟨i, rfl⟩ := Nat.exists_eq_add_of_le hslot.1
      rw [hbytes i (by omega), setInfo_other fun h => hfield (by unfold InField at h ⊢; omega),
        if_pos (by omega)]
    · exact hw.outside p hp hslot

/-- The size of an entry that `eupdate` misses stays. -/
theorem not_updatesOnly (hwf : WF g v (cs :: others)) (hne : cs ≠ []) (hfile : FileAt g dp cs)
    (hoff : off < cs.length * g.bytsPerClus) (halign : off % 32 = 0)
    (hcnt : (fileByte g v cs off).toNat &&& 0xbf ≠ 0) : ¬UpdatesOnly g v dp cs off off := by
  intro h
  -- a size with another last byte
  obtain ⟨b, hb⟩ : ∃ b, b = (fileByte g v cs (off + 31)).toNat := ⟨_, rfl⟩
  obtain ⟨v', dp', hrun, _, hsize, _⟩ := h 0 ((b + 1) % 256 * 2 ^ 24) (by decide) (by omega)
  have hsame := eupdate_misses hwf hne hfile hoff halign hcnt hrun
  simp only [readEntryInfo, le16] at hsize
  rw [show off + (30 + 1) = off + 31 by omega, hsame, ← hb] at hsize
  have h₁ := UInt8.toNat_lt (fileByte g v' cs (off + 28))
  have h₂ := UInt8.toNat_lt (fileByte g v' cs (off + (28 + 1)))
  have h₃ := UInt8.toNat_lt (fileByte g v' cs (off + 30))
  omega

theorem relocClus_total (hwf : WF g v (cs :: others)) (hne : cs ≠ []) (hfile : FileAt g dp cs)
    (off : Nat) : ∃ o dp', relocClus g v dp off false = some (o, v, dp') := by
  by_cases hin : off / g.bytsPerClus < cs.length
  · exact ⟨_, _, relocClus_within hwf hfile.first (hfile.position hne) false hin⟩
  · exact ⟨_, _, relocClus_beyond hwf hne (hfile.position hne) (Nat.not_lt.mp hin)⟩

/-- The loop of `eremove`, on slots of the directory. -/
theorem eremoveLoop_marks (n : Nat) : ∀ v off, WF g v (cs :: others) → cs ≠ [] →
    FileAt g dp cs → off % 32 = 0 → off + 32 * n < 2 ^ 32 →
    off + 32 * n < cs.length * g.bytsPerClus →
    ∃ v' dp', eremoveLoop g (n + 1) v (dp.moveTo cs (off / g.bytsPerClus)) off
        (off % g.bytsPerClus) = some (v', dp') ∧
      ∀ p, p < cs.length * g.bytsPerClus → fileByte g v' cs p =
        if off ≤ p ∧ p < off + 32 * (n + 1) ∧ (p - off) % 32 = 0 then UInt8.ofNat emptyEntry
        else fileByte g v cs p := by
  induction n with
  | zero =>
      intro v off hwf hne hfile halign hlt hin
      obtain ⟨v₁, hwrite, hw⟩ := writeClus_within hwf (p := off) (m := 1) (by omega) (by decide)
        (by have := slot_fits (g := g) halign; omega) fun _ => UInt8.ofNat emptyEntry
      obtain ⟨o, dp₁, hloc⟩ := relocClus_total hw.wf hne
        (hfile.moveTo (index_lt (p := off) (by omega))) ((off + 32) % 2 ^ 32)
      refine ⟨v₁, dp₁, ?_, fun p hp => ?_⟩
      · rw [eremoveLoop, show (dp.moveTo cs (off / g.bytsPerClus)).curClus =
          cs.getD (off / g.bytsPerClus) 0 from rfl, hwrite]
        dsimp only
        rw [hloc]
        rfl
      · split
        · exact hw.inside p (by omega) (by omega)
        · exact hw.outside p hp (by omega)
  | succ n ih =>
      intro v off hwf hne hfile halign hlt hin
      obtain ⟨v₁, hwrite, hw⟩ := writeClus_within hwf (p := off) (m := 1) (by omega) (by decide)
        (by have := slot_fits (g := g) halign; omega) fun _ => UInt8.ofNat emptyEntry
      have hmoved := hfile.moveTo (index_lt (g := g) (p := off) (by omega))
      have hnext : (off + 32) % 2 ^ 32 = off + 32 := Nat.mod_eq_of_lt (by omega)
      have hloc := relocClus_within hw.wf hmoved.first (hmoved.position hne) false
        (index_lt (g := g) (p := off + 32) (by omega))
      obtain ⟨v', dp', hrun, hbytes⟩ := ih v₁ (off + 32) hw.wf hne hfile (by omega) (by omega)
        (by omega)
      refine ⟨v', dp', ?_, fun p hp => ?_⟩
      · rw [eremoveLoop, show (dp.moveTo cs (off / g.bytsPerClus)).curClus =
          cs.getD (off / g.bytsPerClus) 0 from rfl, hwrite]
        dsimp only
        rw [hnext, hloc]
        exact hrun
      · rw [hbytes p hp]
        by_cases hfirst : p = off
        · rw [if_neg (by omega), if_pos (by omega)]
          exact hw.inside p (by omega) (by omega)
        · rw [hw.outside p hp (by omega)]
          exact if_congr (by omega) rfl rfl

theorem removesOnly_of_count (hwf : WF g v (cs :: others)) (hne : cs ≠ [])
    (hfile : FileAt g dp cs) {n : Nat} (halign : off % 32 = 0)
    (hcnt : (fileByte g v cs off).toNat &&& 0xbf = n) (hlt : off + 32 * n < 2 ^ 32)
    (hin : off + 32 * n < cs.length * g.bytsPerClus) : RemovesOnly g v dp cs off (n + 1) := by
  have hidx : off / g.bytsPerClus < cs.length := index_lt (by omega)
  obtain ⟨v', dp', hrun, hbytes⟩ := eremoveLoop_marks n v off hwf hne hfile halign hlt hin
  refine ⟨v', dp', ?_, hbytes⟩
  rw [eremove, relocClus_within hwf hfile.first (hfile.position hne) false hidx]
  dsimp only [asOffset, Option.getD_some]
  rw [show (dp.moveTo cs (off / g.bytsPerClus)).curClus =
    cs.getD (off / g.bytsPerClus) 0 from rfl, entcnt_within, hcnt]
  exact hrun

/-- The first byte of an entry reads as the number of its long-name slots, when it
has some or its short name begins with `@`. -/
theorem first_count (hdir : Dir g v cs items) (hat : ItemAt items off (.file longs short)) :
    (fileByte g v cs off).toNat &&& 0xbf = longs.length ↔ longs ≠ [] ∨ short.order = 0x40 := by
  have hok : (Item.file longs short).Ok := by
    obtain ⟨before, after, rfl, _⟩ := hat
    exact hdir.ok _ (List.mem_append_right _ (List.mem_cons_self ..))
  cases longs with
  | nil =>
      obtain ⟨_, _, hslot⟩ := slotAt_of_item hdir hat (i := 0) (d := short) rfl
      have hbyte := (slotAt_inv hslot).2 0 (by decide)
      rw [Nat.mul_zero, Nat.add_zero] at hbyte
      have hend : short.order ≠ 0 := fun h => hok.2.2.1 (by simp [isEnd, h, endOfEntry])
      rw [hbyte, show (short 0).toNat = short.order from rfl]
      simp only [ne_eq, not_true_eq_false, false_or]
      exact zero_bits _ (UInt8.toNat_lt _) hend
  | cons d longs =>
      obtain ⟨_, _, hslot⟩ := slotAt_of_item hdir hat (i := 0) (d := d) rfl
      have hbyte := (slotAt_inv hslot).2 0 (by decide)
      rw [Nat.mul_zero, Nat.add_zero] at hbyte
      have hlcnt := (order_long hok (i := 0) (d := d) rfl).2.1
      rw [hbyte, show (d 0).toNat &&& 0xbf = d.lcnt from rfl, hlcnt]
      simp

/-- After `dirlookup` returned the entry at `off`, `eupdate` changes only its fields
and `eremove` frees exactly its slots, exactly when it is an entry with a long name or
with a short name that begins with `@`. -/
theorem entry_changes_exact_iff (hwf : WF g v (cs :: others)) (hne : cs ≠ [])
    (hfile : FileAt g dp cs) (hdir : Dir g v cs items) {filename : Nat → UInt8}
    {mem : Int → UInt8} {rounds fuel off : Nat} {info : Option Info} {dp' : Entry}
    (hlookup : dirlookup g v dp filename mem rounds fuel = some (some (off, info), dp')) :
    (∃ longs short, ItemAt items off (.file longs short) ∧
      UpdatesOnly g v dp' cs off (off + 32 * longs.length) ∧
      RemovesOnly g v dp' cs off (longs.length + 1)) ↔
    ∃ longs short, ItemAt items off (.file longs short) ∧ (longs ≠ [] ∨ short.order = 0x40) := by
  have hfile' := (dirlookup_found hwf hne hfile hdir hlookup).2
  constructor
  · intro ⟨longs, short, hat, hupdate, _⟩
    refine ⟨longs, short, hat, ?_⟩
    by_contra hnot
    obtain rfl : longs = [] := by
      by_contra h
      exact hnot (.inl h)
    obtain ⟨halign, hlt, hslot⟩ := slotAt_of_item hdir hat (i := 0) (d := short) rfl
    refine not_updatesOnly hwf hne hfile' (slotAt_inv hslot).1 halign ?_ hupdate
    exact fun h => hnot ((first_count hdir hat).mp h)
  · intro ⟨longs, short, hat, h⟩
    have hcnt := (first_count hdir hat).mpr h
    obtain ⟨halign, hlt, hslot⟩ := slotAt_of_item hdir hat (i := longs.length) (d := short)
      (by simp)
    have hin := (slotAt_inv hslot).1
    refine ⟨longs, short, hat, ?_, removesOnly_of_count hwf hne hfile' halign hcnt hlt hin⟩
    refine updatesOnly_of_target hwf hne hfile' (by omega) halign ?_ hin
    rw [target, hcnt, Nat.mod_eq_of_lt hlt]

/-- A directory with two short entries. The first has the name `c`. -/
def shortDir (c : UInt8) : Volume where
  fat := fun x => if x ≤ 2 then eoc + 7 else 0
  sectors := fun sec i =>
    if sec ≠ 4 then 0
    else if i = 0 then c
    else if i = 32 then 0x42
    else if i % 32 < 12 ∧ i < 64 then 0x20 else 0

def shortSlotAt (c : UInt8) (p : Nat) : Slot :=
  fun i => if i < 32 then fileByte threeClusters (shortDir c) [2] (p + i) else 0

theorem shortDir_wf (c : UInt8) : WF threeClusters (shortDir c) [[2]] := by
  refine ⟨?_, ?_, by decide⟩
  · intro cs hcs x hx
    obtain rfl : cs = [2] := by simpa using hcs
    obtain rfl : x = 2 := by simpa using hx
    decide
  · intro cs hcs
    obtain rfl : cs = [2] := by simpa using hcs
    exact ⟨Nat.le_add_right .., Nat.le_refl _⟩

theorem shortDir_byte (c : UInt8) (hp : p < bsize) :
    fileByte threeClusters (shortDir c) [2] p = (shortDir c).sectors 4 p := by
  have hsec : firstSecOfClus threeClusters 2 = 4 := by decide +kernel
  have hlt : p < threeClusters.bytsPerClus := Nat.lt_trans hp (by decide)
  rw [fileByte, clusByte, spanByte, Nat.div_eq_of_lt hlt, Nat.mod_eq_of_lt hlt,
    Nat.div_eq_of_lt hp, Nat.mod_eq_of_lt hp, List.getD_cons_zero, hsec]

theorem shortSlotAt_byte (c : UInt8) (hi : i < 32) (hp : p + i < bsize) :
    shortSlotAt c p i = (shortDir c).sectors 4 (p + i) := by
  rw [shortSlotAt, if_pos hi, shortDir_byte c hp]

theorem shortDir_slot (c : UInt8) (hp : p < threeClusters.bytsPerClus) :
    slotAt threeClusters (shortDir c) [2] p = some (shortSlotAt c p) := by
  rw [slotAt, if_pos (by simpa using hp)]
  rfl

theorem shortDir_items (c : UInt8) (hc : c.toNat ≠ 0 ∧ c.toNat ≠ emptyEntry) :
    Dir threeClusters (shortDir c) [2]
      [.file [] (shortSlotAt c 0), .file [] (shortSlotAt c 32)] := by
  have hshort : ∀ p, p + 32 < bsize → ((shortDir c).sectors 4 p).toNat ≠ endOfEntry →
      ((shortDir c).sectors 4 p).toNat ≠ emptyEntry →
      ((shortDir c).sectors 4 (p + 11)).toNat ≠ attrLongName →
      (Item.file [] (shortSlotAt c p)).Ok := by
    intro p hp hend hempty hattr
    refine ⟨by simp, fun i x hx => by simp at hx, ?_, ?_, ?_⟩
    · simpa [isEnd, order, shortSlotAt_byte c (p := p) (i := 0) (by decide) (by omega)]
        using hend
    · simpa [isEmpty, order,
        shortSlotAt_byte c (p := p) (i := 0) (by decide) (by omega)] using hempty
    · rwa [attr, shortSlotAt_byte c (by decide) (by omega)]
  refine ⟨fun it hit => ?_, fun i d hd => ?_, fun d hd => ?_, ?_⟩
  · rcases (by simpa using hit : it = .file [] (shortSlotAt c 0) ∨
      it = .file [] (shortSlotAt c 32)) with rfl | rfl
    · exact hshort 0 (by decide) hc.1 hc.2 (by simp [shortDir, attrLongName])
    · exact hshort 32 (by decide) (by simp [shortDir, endOfEntry])
        (by simp [shortDir, emptyEntry]) (by simp [shortDir, attrLongName])
  · rcases i with _ | _ | i
    · exact (shortDir_slot c (by decide)).trans hd
    · exact (shortDir_slot c (by decide)).trans hd
    · simp [slotsOf, Item.slots] at hd
  · have hslot := (shortDir_slot c (p := 64) (by decide)).symm.trans hd
    obtain rfl := Option.some.inj hslot
    simp [isEnd, order, shortSlotAt_byte c (p := 64) (i := 0) (by decide) (by decide),
      shortDir, endOfEntry]
  · simp [slotsOf, Item.slots]

def nameOf (c : UInt8) : Nat → UInt8 := fun i => if i = 0 then c else 0

theorem entry_changes_exact_iff_at :
    ∃ info dp', dirlookup threeClusters (shortDir 0x40) oneDir (nameOf 0x40) (fun _ => 0) 4 4 =
        some (some (0, info), dp') ∧ ∃ longs short,
        ItemAt [.file [] (shortSlotAt 0x40 0), .file [] (shortSlotAt 0x40 32)] 0
          (.file longs short) ∧
        UpdatesOnly threeClusters (shortDir 0x40) dp' [2] 0 (0 + 32 * longs.length) ∧
        RemovesOnly threeClusters (shortDir 0x40) dp' [2] 0 (longs.length + 1) := by
  obtain ⟨⟨found, dp'⟩, hrun, hres⟩ := Option.map_eq_some_iff.mp (show
    (dirlookup threeClusters (shortDir 0x40) oneDir (nameOf 0x40) (fun _ => 0) 4 4).map
      (fun p => p.1.map (·.1)) = some (some 0) by decide +kernel)
  obtain ⟨⟨off, info⟩, rfl, rfl⟩ := Option.map_eq_some_iff.mp hres
  refine ⟨info, dp', hrun, (entry_changes_exact_iff (shortDir_wf 0x40) (by simp) oneDir_at
    (shortDir_items 0x40 (by decide)) hrun).mpr ⟨[], shortSlotAt 0x40 0, ?_, .inr rfl⟩⟩
  exact ⟨[], _, rfl, rfl⟩

/-- The update of an entry without a long name, `A`, changes the next one. -/
theorem next_entry_changed :
    WF threeClusters (shortDir 0x41) [[2]] ∧ FileAt threeClusters oneDir [2] ∧
    Dir threeClusters (shortDir 0x41) [2]
      [.file [] (shortSlotAt 0x41 0), .file [] (shortSlotAt 0x41 32)] ∧
    ∃ info dp', dirlookup threeClusters (shortDir 0x41) oneDir (nameOf 0x41) (fun _ => 0) 4 4 =
        some (some (0, info), dp') ∧
      ∃ v' dp'', eupdate threeClusters (shortDir 0x41) dp' 0 0 5 = some (v', dp'') ∧
        fileByte threeClusters (shortDir 0x41) [2] (32 + 28) = 0 ∧
        fileByte threeClusters v' [2] (32 + 28) = 5 := by
  refine ⟨shortDir_wf 0x41, oneDir_at, shortDir_items 0x41 (by decide), ?_⟩
  obtain ⟨⟨found, dp'⟩, hrun, hres⟩ := Option.map_eq_some_iff.mp (show
    (dirlookup threeClusters (shortDir 0x41) oneDir (nameOf 0x41) (fun _ => 0) 4 4).map
      (fun p => (p.1.map (·.1), (eupdate threeClusters (shortDir 0x41) p.2 0 0 5).map
        fun q => fileByte threeClusters q.1 [2] (32 + 28))) = some (some 0, some 5) by
          decide +kernel)
  obtain ⟨hfound, hupdate⟩ := Prod.mk.inj hres
  obtain ⟨⟨off, info⟩, rfl, rfl⟩ := Option.map_eq_some_iff.mp hfound
  obtain ⟨⟨v', dp''⟩, heq, hbyte⟩ := Option.map_eq_some_iff.mp hupdate
  refine ⟨info, dp', hrun, v', dp'', heq, ?_, hbyte⟩
  rw [shortDir_byte 0x41 (by decide)]
  simp [shortDir]

end F7ly.Fs.Fat32
