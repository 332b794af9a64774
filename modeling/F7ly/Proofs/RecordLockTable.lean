import F7ly.Fs.RecordLock

/-!
# Requests on a table of record locks

A table stands for a map from a file, an owner and a byte to unlocked, read or
write (`heldIn`). Everything is about the entries of a table in any order:
`replaceSameOwner` cuts the request out of the owner's entries, a new entry
fills the gap, and merging changes no byte.

The one thing in the way is room: the entries that a request cuts are cleared
before it is known that the pieces on both sides and the new lock have slots,
and a piece without a slot is dropped. `setLock_exact_iff` says that a request
does to the map what it should exactly if there is room (`TableFits`).
-/

namespace F7ly.Fs.RecordLock

open List

open Slots (used free)

def Flock.Covers (l : Flock) (b : Nat) : Prop := l.start ≤ b ∧ b < recordLockEnd l

instance (l : Flock) (b : Nat) : Decidable (l.Covers b) :=
  inferInstanceAs (Decidable (_ ∧ _))

theorem end_le (l : Flock) : recordLockEnd l ≤ lockOpenEnd := by
  unfold recordLockEnd
  split
  · exact Nat.le_refl _
  · split <;> omega

variable {l s : Flock} {b : Nat}

theorem start_lt_end (h : l.start < lockOpenEnd) : l.start < recordLockEnd l := by
  unfold recordLockEnd
  split
  · exact h
  · split <;> omega

theorem end_of_le (h : lockOpenEnd ≤ l.start) : recordLockEnd l = lockOpenEnd := by
  unfold recordLockEnd
  split
  · rfl
  · rw [if_pos (by omega)]

theorem end_makeSlice (base : Flock) (start stop : Nat) (hle : stop ≤ lockOpenEnd)
    (hlt : start < stop ∨ stop = lockOpenEnd) :
    recordLockEnd (makeSlice base start stop) = stop := by
  unfold makeSlice
  by_cases hstop : stop ≥ lockOpenEnd
  · rw [if_pos hstop, recordLockEnd, if_pos rfl]
    omega
  · rw [if_neg hstop, recordLockEnd]
    dsimp only
    rw [if_neg (by omega), if_neg (by omega)]
    omega

theorem overlap_iff {a b : Flock} : rangesOverlap a b = true ↔ ∃ x, a.Covers x ∧ b.Covers x := by
  rw [rangesOverlap, Bool.and_eq_true, decide_eq_true_eq, decide_eq_true_eq]
  have ha := end_le a
  have hb := end_le b
  constructor
  · intro ⟨h₁, h₂⟩
    have ha' := start_lt_end (l := a) (by omega)
    have hb' := start_lt_end (l := b) (by omega)
    exact ⟨max a.start b.start, ⟨by omega, by omega⟩, ⟨by omega, by omega⟩⟩
  · intro ⟨x, hx, hx'⟩
    unfold Flock.Covers at hx hx'
    omega

theorem mem_slices {request lock : Flock} (h : rangesOverlap lock request = true)
    (hs : s ∈ slices request lock) :
    s.type = lock.type ∧ (∃ b, s.Covers b) ∧
      ∀ b, s.Covers b → lock.Covers b ∧ ¬ request.Covers b := by
  rw [rangesOverlap, Bool.and_eq_true, decide_eq_true_eq, decide_eq_true_eq] at h
  have hl := end_le lock
  rw [slices, mem_append] at hs
  rcases hs with hs | hs
  · split at hs
    · next hlt =>
        obtain rfl := mem_singleton.mp hs
        have hend := end_makeSlice lock lock.start request.start (by omega) (.inl hlt)
        refine ⟨rfl, ⟨lock.start, Nat.le_refl _, by omega⟩, fun b hb => ?_⟩
        unfold Flock.Covers at hb ⊢
        rw [hend] at hb
        have hb : lock.start ≤ b ∧ b < request.start := hb
        omega
    · cases hs
  · split at hs
    · next hlt =>
        obtain rfl := mem_singleton.mp hs
        have hend := end_makeSlice lock (recordLockEnd request) (recordLockEnd lock) hl (.inl hlt)
        refine ⟨rfl, ⟨recordLockEnd request, Nat.le_refl _, by omega⟩, fun b hb => ?_⟩
        unfold Flock.Covers at hb ⊢
        rw [hend] at hb
        have hb : recordLockEnd request ≤ b ∧ b < recordLockEnd lock := hb
        omega
    · cases hs

theorem slices_cover {request lock : Flock} (h : rangesOverlap lock request = true)
    (hb : lock.Covers b) (hnb : ¬ request.Covers b) : ∃ s ∈ slices request lock, s.Covers b := by
  rw [rangesOverlap, Bool.and_eq_true, decide_eq_true_eq, decide_eq_true_eq] at h
  have hl := end_le lock
  unfold Flock.Covers at hb hnb
  by_cases hlt : b < request.start
  · have hpos : lock.start < request.start := by omega
    refine ⟨makeSlice lock lock.start request.start, ?_, hb.1, ?_⟩
    · rw [slices, if_pos hpos]
      exact mem_append_left _ (mem_singleton_self _)
    · rw [end_makeSlice lock _ _ (by omega) (.inl hpos)]
      exact hlt
  · have hpos : recordLockEnd request < recordLockEnd lock := by omega
    refine ⟨makeSlice lock (recordLockEnd request) (recordLockEnd lock), ?_, ?_, ?_⟩
    · rw [slices, if_pos hpos]
      exact mem_append_right _ (mem_singleton_self _)
    · change recordLockEnd request ≤ b
      omega
    · rw [end_makeSlice lock _ _ hl (.inl hpos)]
      exact hb.2

theorem slices_apart {request lock : Flock} (h : rangesOverlap lock request = true) :
    (slices request lock).Pairwise fun s s' => ∀ b, ¬ (s.Covers b ∧ s'.Covers b) := by
  rw [rangesOverlap, Bool.and_eq_true, decide_eq_true_eq, decide_eq_true_eq] at h
  have hl := end_le lock
  have hr := start_lt_end (l := request) (by omega)
  rw [slices, pairwise_append]
  refine ⟨?_, ?_, fun s hs s' hs' b ⟨hb, hb'⟩ => ?_⟩
  · split <;> simp
  · split <;> simp
  · split at hs
    · next hlt =>
        obtain rfl := mem_singleton.mp hs
        split at hs'
        · obtain rfl := mem_singleton.mp hs'
          have hb := hb.2
          rw [end_makeSlice lock _ _ (by omega) (.inl hlt)] at hb
          have hb' : recordLockEnd request ≤ b := hb'.1
          omega
        · cases hs'
    · cases hs

theorem mergeLock_covers {r : Flock} (h : canMerge l r = true) (b : Nat) :
    (mergeLock l r).Covers b ↔ l.Covers b ∨ r.Covers b := by
  unfold canMerge at h
  split at h
  · cases h
  · rw [Bool.and_eq_true, decide_eq_true_eq, decide_eq_true_eq] at h
    have hl := end_le l
    have hr := end_le r
    have hend : recordLockEnd (mergeLock l r) = max (recordLockEnd l) (recordLockEnd r) := by
      refine end_makeSlice l _ _ (by omega) ?_
      by_cases hs : l.start < lockOpenEnd
      · have := start_lt_end hs
        exact .inl (by omega)
      · have := end_of_le (Nat.le_of_not_lt hs)
        exact .inr (by omega)
    have hstart : (mergeLock l r).start = min l.start r.start := rfl
    unfold Flock.Covers
    omega

def FileKey.file (k : FileKey) : String ⊕ Nat :=
  if k.path ≠ "" then .inl k.path else .inr k.identity

section Paths

variable {bp : Nat → String}

def FileKey.Stable (bp : Nat → String) (k : FileKey) : Prop := k = keyOf bp k.identity

theorem keysMatch_iff {k k' : FileKey} (h : k.Stable bp) (h' : k'.Stable bp) :
    keysMatch k k' = true ↔ k.file = k'.file := by
  have hpath : k.identity = k'.identity → k.path = k'.path := fun hid => by
    rw [h, h', hid]
  unfold keysMatch FileKey.file
  by_cases hk : k.path = ""
  · by_cases hk' : k'.path = ""
    · simp [hk, hk']
    · have hne : k.identity ≠ k'.identity := fun hid => hk' (hpath hid ▸ hk)
      simp [hk, hk', hne]
  · by_cases hk' : k'.path = ""
    · have hne : k.identity ≠ k'.identity := fun hid => hk ((hpath hid).trans hk')
      simp [hk, hk', hne]
    · simp [hk, hk']

end Paths

section Entries

variable {α : Type}

def Entry.At (e : Entry α) (file : String ⊕ Nat) (o : α) (b : Nat) : Prop :=
  e.key.file = file ∧ e.owner = o ∧ e.lock.Covers b

instance [DecidableEq α] (e : Entry α) (file : String ⊕ Nat) (o : α) (b : Nat) :
    Decidable (e.At file o b) :=
  inferInstanceAs (Decidable (_ ∧ _ ∧ _))

def Entry.Apart (e e' : Entry α) : Prop := ∀ file o b, ¬ (e.At file o b ∧ e'.At file o b)

theorem Entry.Apart.symm {e e' : Entry α} (h : e.Apart e') : e'.Apart e :=
  fun file o b hb => h file o b hb.symm

/-- What a table keeps: keys of open files, no entry that unlocks, and at most
one entry of an owner for a byte. -/
structure Sound (bp : Nat → String) (es : List (Entry α)) : Prop where
  keys : ∀ e ∈ es, e.key.Stable bp
  types : ∀ e ∈ es, e.lock.type ≠ .unlck
  apart : es.Pairwise Entry.Apart

def heldIn [DecidableEq α] (es : List (Entry α)) (file : String ⊕ Nat) (o : α)
    (b : Nat) : LockType :=
  match es.find? fun e => decide (e.At file o b) with
  | some e => e.lock.type
  | none => .unlck

variable {bp : Nat → String} {es es' : List (Entry α)}

theorem Sound.perm (h : Sound bp es) (hp : es.Perm es') : Sound bp es' where
  keys e he := h.keys e (hp.mem_iff.mpr he)
  types e he := h.types e (hp.mem_iff.mpr he)
  apart := (hp.pairwise_iff Entry.Apart.symm).mp h.apart

theorem Sound.sublist (h : Sound bp es) (hs : es'.Sublist es) : Sound bp es' where
  keys e he := h.keys e (hs.subset he)
  types e he := h.types e (hs.subset he)
  apart := h.apart.sublist hs

theorem Sound.unique (h : Sound bp es) {e e' : Entry α} (he : e ∈ es) (he' : e' ∈ es)
    {file : String ⊕ Nat} {o : α} (ha : e.At file o b) (ha' : e'.At file o b) : e = e' := by
  by_contra hne
  have : Std.Symm (Entry.Apart (α := α)) := ⟨fun _ _ => Entry.Apart.symm⟩
  exact h.apart.forall he he' hne file o b ⟨ha, ha'⟩

variable [DecidableEq α]

theorem Sound.heldIn_eq (h : Sound bp es) {e : Entry α} (he : e ∈ es)
    {file : String ⊕ Nat} {o : α} (ha : e.At file o b) : heldIn es file o b = e.lock.type := by
  unfold heldIn
  cases hf : es.find? fun e => decide (e.At file o b) with
  | none => exact absurd ha (by simpa using find?_eq_none.mp hf e he)
  | some e' =>
      have hat := find?_some hf
      rw [decide_eq_true_eq] at hat
      rw [h.unique he (mem_of_find?_eq_some hf) ha hat]

theorem heldIn_none {file : String ⊕ Nat} {o : α}
    (h : ∀ e ∈ es, ¬ e.At file o b) : heldIn es file o b = .unlck := by
  unfold heldIn
  rw [find?_eq_none.mpr (by simpa using h)]

theorem heldIn_cases (es : List (Entry α)) (file : String ⊕ Nat) (o : α) (b : Nat) :
    (∃ e ∈ es, e.At file o b ∧ heldIn es file o b = e.lock.type) ∨
      (∀ e ∈ es, ¬ e.At file o b) ∧ heldIn es file o b = .unlck := by
  unfold heldIn
  cases hf : es.find? fun e => decide (e.At file o b) with
  | none => exact .inr ⟨by simpa using find?_eq_none.mp hf, rfl⟩
  | some e =>
      have hat := find?_some hf
      rw [decide_eq_true_eq] at hat
      exact .inl ⟨e, mem_of_find?_eq_some hf, hat, rfl⟩

/-- Two tables give a byte the same if each has an entry for what the other
has. -/
theorem Sound.heldIn_congr (h' : Sound bp es') {file : String ⊕ Nat} {o : α}
    (hfwd : ∀ e ∈ es, e.At file o b → ∃ e' ∈ es', e'.At file o b ∧ e'.lock.type = e.lock.type)
    (hbwd : ∀ e ∈ es', e.At file o b → ∃ e' ∈ es, e'.At file o b) :
    heldIn es' file o b = heldIn es file o b := by
  rcases heldIn_cases es file o b with ⟨e, he, hat, heq⟩ | ⟨hno, heq⟩
  · obtain ⟨e', he', hat', htype⟩ := hfwd e he hat
    rw [heq, h'.heldIn_eq he' hat', htype]
  · rw [heq]
    refine heldIn_none fun e he hat => ?_
    obtain ⟨e', he', hat'⟩ := hbwd e he hat
    exact hno e' he' hat'

end Entries

section Cut

variable {α : Type} [DecidableEq α] {bp : Nat → String} {key : FileKey} {owner : α}
  {request : Flock} {t : Table α}

def Asked (key : FileKey) (owner : α) (request : Flock) (file : String ⊕ Nat) (o : α)
    (b : Nat) : Prop :=
  file = key.file ∧ o = owner ∧ request.Covers b

instance (file : String ⊕ Nat) (o : α) (b : Nat) : Decidable (Asked key owner request file o b) :=
  inferInstanceAs (Decidable (_ ∧ _ ∧ _))

def hits (key : FileKey) (owner : α) (request : Flock) (t : Table α) : List (Entry α) :=
  (used t).filter (hit key owner request)

theorem hit_iff {e : Entry α} (he : e.key.Stable bp) (hkey : key.Stable bp) :
    hit key owner request e = true ↔ e.key.file = key.file ∧ e.owner = owner ∧
      rangesOverlap e.lock request = true := by
  rw [hit, Bool.and_eq_true, Bool.and_eq_true, keysMatch_iff he hkey, decide_eq_true_eq, and_assoc]

omit [DecidableEq α] in
theorem restore_spec (key : FileKey) (owner : α) (ss : List Flock) (t : Table α) :
    (used (restore key owner ss t)).Perm ((ss.take (free t)).map (Entry.mk key owner) ++ used t) ∧
    free (restore key owner ss t) = free t - ss.length := by
  induction ss generalizing t with
  | nil => exact ⟨by simp [restore], by simp [restore]⟩
  | cons s ss ih =>
      rw [restore]
      cases hi : Slots.insert t (Entry.mk key owner s) with
      | none =>
          have hfull := Slots.insert_eq_none.mp hi
          obtain ⟨hperm, hfree⟩ := ih t
          rw [hfull] at hperm hfree ⊢
          exact ⟨by simpa using hperm, by simpa using hfree⟩
      | some t' =>
          obtain ⟨hperm', hfree', -⟩ := Slots.insert_spec hi
          obtain ⟨hperm, hfree⟩ := ih t'
          rw [Option.getD_some]
          refine ⟨?_, ?_⟩
          · rw [← hfree', take_succ_cons, map_cons, cons_append]
            exact hperm.trans ((List.Perm.append_left _ hperm').trans perm_middle)
          · rw [hfree, length_cons]
            omega

def cutAll (key : FileKey) (owner : α) (request : Flock) (t : Table α) : List (Entry α) :=
  (preserved key owner request t).map (Entry.mk key owner) ++
    (used t).filter (!hit key owner request ·)

theorem replace_spec (key : FileKey) (owner : α) (request : Flock) (t : Table α) :
    (used (replaceSameOwner key owner request t)).Perm
      (((preserved key owner request t).take (free t + (hits key owner request t).length)).map
        (Entry.mk key owner) ++ (used t).filter (!hit key owner request ·)) ∧
    free (replaceSameOwner key owner request t) =
      free t + (hits key owner request t).length - (preserved key owner request t).length := by
  have hfree : free (clearHits key owner request t) =
      free t + (hits key owner request t).length := by
    rw [clearHits, Slots.free_keep, hits]
    simp
  have h := restore_spec key owner (preserved key owner request t)
    (clearHits key owner request t)
  rw [hfree, clearHits, Slots.used_keep] at h
  exact h

theorem mem_preserved : s ∈ preserved key owner request t ↔
    ∃ e ∈ used t, hit key owner request e = true ∧ s ∈ slices request e.lock := by
  simp only [preserved, mem_flatMap, mem_filter]
  tauto

theorem preserved_at (hkey : key.Stable bp) (h : Sound bp (used t))
    (hs : s ∈ preserved key owner request t) : (∃ b, s.Covers b) ∧
      ∃ e ∈ used t, s.type = e.lock.type ∧ ∀ file o b, (Entry.mk key owner s).At file o b →
          e.At file o b ∧ ¬ Asked key owner request file o b := by
  obtain ⟨e, he, hhit, hs⟩ := mem_preserved.mp hs
  obtain ⟨hfile, howner, hover⟩ := (hit_iff (h.keys e he) hkey).mp hhit
  obtain ⟨htype, hne, hcov⟩ := mem_slices hover hs
  refine ⟨hne, e, he, htype, fun file o b ⟨hf, ho, hb⟩ => ?_⟩
  obtain ⟨hb, hnb⟩ := hcov b hb
  exact ⟨⟨hfile.trans hf, howner.trans ho, hb⟩, fun hasked => hnb hasked.2.2⟩

theorem Sound.cutAll (h : Sound bp (used t)) (hkey : key.Stable bp) :
    Sound bp (cutAll key owner request t) := by
  have hkeep := h.sublist (filter_sublist (p := (!hit key owner request ·)))
  refine ⟨fun e he => ?_, fun e he => ?_, ?_⟩
  · rcases mem_append.mp he with he | he
    · obtain ⟨s, -, rfl⟩ := mem_map.mp he
      exact hkey
    · exact hkeep.keys e he
  · rcases mem_append.mp he with he | he
    · obtain ⟨s, hs, rfl⟩ := mem_map.mp he
      obtain ⟨-, e, he, htype, -⟩ := preserved_at hkey h hs
      rw [htype]
      exact h.types e he
    · exact hkeep.types e he
  · refine pairwise_append.mpr ⟨?_, hkeep.apart, fun e he e' he' => ?_⟩
    · rw [pairwise_map, preserved, pairwise_flatMap]
      refine ⟨fun e he => ?_, ?_⟩
      · obtain ⟨he, hhit⟩ := mem_filter.mp he
        have hover := ((hit_iff (h.keys e he) hkey).mp hhit).2.2
        exact (slices_apart hover).imp fun hap file o b hb => hap b ⟨hb.1.2.2, hb.2.2.2⟩
      · refine (List.Pairwise.and_mem.mp (h.apart.sublist filter_sublist)).imp ?_
        intro e e' ⟨he, he', hap⟩ s hs s' hs' file o b ⟨hb, hb'⟩
        obtain ⟨he, hhit⟩ := mem_filter.mp he
        obtain ⟨he', hhit'⟩ := mem_filter.mp he'
        obtain ⟨hf, ho, hover⟩ := (hit_iff (h.keys e he) hkey).mp hhit
        obtain ⟨hf', ho', hover'⟩ := (hit_iff (h.keys e' he') hkey).mp hhit'
        exact hap file o b
          ⟨⟨hf.trans hb.1, ho.trans hb.2.1, ((mem_slices hover hs).2.2 b hb.2.2).1⟩,
            ⟨hf'.trans hb.1, ho'.trans hb.2.1, ((mem_slices hover' hs').2.2 b hb'.2.2).1⟩⟩
    · intro file o b ⟨hb, hb'⟩
      obtain ⟨s, hs, rfl⟩ := mem_map.mp he
      obtain ⟨he', hmiss⟩ := mem_filter.mp he'
      obtain ⟨d, hd, hhit, hs⟩ := mem_preserved.mp hs
      obtain ⟨hf, ho, hover⟩ := (hit_iff (h.keys d hd) hkey).mp hhit
      have hat : d.At file o b :=
        ⟨hf.trans hb.1, ho.trans hb.2.1, ((mem_slices hover hs).2.2 b hb.2.2).1⟩
      rw [h.unique hd he' hat hb'] at hhit
      simp [hhit] at hmiss

theorem cutAll_covers (h : Sound bp (used t)) (hkey : key.Stable bp) {e : Entry α}
    (he : e ∈ used t) {file : String ⊕ Nat} {o : α} (hat : e.At file o b)
    (hasked : ¬ Asked key owner request file o b) :
    ∃ e' ∈ cutAll key owner request t, e'.At file o b ∧ e'.lock.type = e.lock.type := by
  by_cases hhit : hit key owner request e = true
  · obtain ⟨hf, ho, hover⟩ := (hit_iff (h.keys e he) hkey).mp hhit
    have hfile : key.file = file := hf.symm.trans hat.1
    have howner : owner = o := ho.symm.trans hat.2.1
    obtain ⟨s, hs, hb⟩ := slices_cover hover hat.2.2
      fun hb => hasked ⟨hfile.symm, howner.symm, hb⟩
    refine ⟨⟨key, owner, s⟩, mem_append_left _ (mem_map_of_mem ?_),
      ⟨hfile, howner, hb⟩, (mem_slices hover hs).1⟩
    exact mem_preserved.mpr ⟨e, he, hhit, hs⟩
  · refine ⟨e, mem_append_right _ (mem_filter.mpr ⟨he, ?_⟩), hat, rfl⟩
    simpa using hhit

theorem cutAll_at (h : Sound bp (used t)) (hkey : key.Stable bp) {e' : Entry α}
    (he' : e' ∈ cutAll key owner request t) {file : String ⊕ Nat} {o : α} (hat : e'.At file o b) :
    ¬ Asked key owner request file o b ∧ ∃ e ∈ used t, e.At file o b := by
  rcases mem_append.mp he' with he' | he'
  · obtain ⟨s, hs, rfl⟩ := mem_map.mp he'
    obtain ⟨-, e, he, -, hcov⟩ := preserved_at hkey h hs
    obtain ⟨hate, hasked⟩ := hcov file o b hat
    exact ⟨hasked, e, he, hate⟩
  · obtain ⟨he', hmiss⟩ := mem_filter.mp he'
    refine ⟨fun ⟨hf, ho, hb⟩ => ?_, e', he', hat⟩
    have hhit : hit key owner request e' = true :=
      (hit_iff (h.keys e' he') hkey).mpr ⟨hat.1.trans hf, hat.2.1.trans ho,
        overlap_iff.mpr ⟨b, hat.2.2, hb⟩⟩
    simp [hhit] at hmiss

theorem heldIn_cutAll (h : Sound bp (used t)) (hkey : key.Stable bp)
    (file : String ⊕ Nat) (o : α) (b : Nat) :
    heldIn (cutAll key owner request t) file o b =
      if Asked key owner request file o b then .unlck else heldIn (used t) file o b := by
  split
  · next hasked =>
      exact heldIn_none fun e he hat => (cutAll_at h hkey he hat).1 hasked
  next hasked =>
  refine (h.cutAll hkey).heldIn_congr
    (fun e he hat => cutAll_covers h hkey he hat hasked) fun e he hat => ?_
  exact (cutAll_at h hkey he hat).2

end Cut

section Merge

variable {α : Type} [DecidableEq α] {bp : Nat → String} {key : FileKey}

/-- `es'` is `es` with two entries of one owner for the file merged. -/
def Merged (key : FileKey) (es es' : List (Entry α)) : Prop :=
  ∃ l r rest, keysMatch l.key key = true ∧ keysMatch r.key key = true ∧
    l.owner = r.owner ∧ canMerge l.lock r.lock = true ∧ es.Perm (l :: r :: rest) ∧
    es'.Perm ({ l with lock := mergeLock l.lock r.lock } :: rest)

theorem absorb_spec {l e : Entry α} {t t' : Table α} (h : absorb key l t = some (e, t')) :
    ∃ r rest, keysMatch r.key key = true ∧ l.owner = r.owner ∧
      canMerge l.lock r.lock = true ∧ (used t).Perm (r :: rest) ∧ (used t').Perm rest ∧
      e = { l with lock := mergeLock l.lock r.lock } := by
  induction t generalizing t' with
  | nil => cases h
  | cons o t ih =>
      cases o with
      | none =>
          rw [absorb, Option.map_eq_some_iff] at h
          obtain ⟨⟨e₁, t₁⟩, habs, heq⟩ := h
          obtain ⟨rfl, rfl⟩ := Prod.mk.inj heq
          have h := ih habs
          exact h
      | some rhs =>
          rw [absorb] at h
          split at h
          · next hc =>
              rw [Bool.and_eq_true, Bool.and_eq_true, decide_eq_true_eq] at hc
              obtain ⟨rfl, rfl⟩ := Prod.mk.inj (Option.some.inj h)
              exact ⟨rhs, used t, hc.1.1, hc.1.2, hc.2, by simp, by simp, rfl⟩
          · rw [Option.map_eq_some_iff] at h
            obtain ⟨⟨e₁, t₁⟩, h, heq⟩ := h
            obtain ⟨rfl, rfl⟩ := Prod.mk.inj heq
            obtain ⟨r, rest, hk, ho, hm, hu, hu', he⟩ := ih h
            refine ⟨r, rhs :: rest, hk, ho, hm, ?_, hu'.cons rhs, he⟩
            exact (hu.cons rhs).trans (.swap r rhs rest)

theorem mergeOnce_spec {t t' : Table α} (h : mergeOnce key t = some t') :
    Merged key (used t) (used t') := by
  induction t generalizing t' with
  | nil => cases h
  | cons o t ih =>
      have later : ∀ l, (mergeOnce key t).map (some l :: ·) = some t' →
          Merged key (used (some l :: t)) (used t') := fun l h => by
        obtain ⟨t₁, hmer, rfl⟩ := Option.map_eq_some_iff.mp h
        obtain ⟨l', r, rest, hl, hr, ho, hm, hu, hu'⟩ := ih hmer
        refine ⟨l', r, l :: rest, hl, hr, ho, hm, ?_, (hu'.cons l).trans (.swap _ _ _)⟩
        exact (hu.cons l).trans ((List.Perm.swap _ _ _).trans (.cons _ (.swap _ _ _)))
      cases o with
      | none =>
          obtain ⟨t₁, hmer, rfl⟩ := Option.map_eq_some_iff.mp h
          have h := ih hmer
          exact h
      | some l =>
          rw [mergeOnce] at h
          split at h
          · next hkey =>
              split at h
              · next e t₁ habs =>
                  obtain rfl := Option.some.inj h
                  obtain ⟨r, rest, hr, ho, hm, hu, hu', rfl⟩ := absorb_spec habs
                  exact ⟨l, r, rest, hkey, hr, ho, hm, hu.cons l, hu'.cons _⟩
              · exact later l h
          · exact later l h

variable {es es' : List (Entry α)}

omit [DecidableEq α] in
omit [DecidableEq α] in
theorem merged_at {l r : Entry α} (hl : l.key.Stable bp) (hr : r.key.Stable bp)
    (hkey : key.Stable bp) (hlk : keysMatch l.key key = true)
    (hrk : keysMatch r.key key = true) (ho : l.owner = r.owner)
    (hm : canMerge l.lock r.lock = true) (file : String ⊕ Nat) (o : α) (b : Nat) :
    Entry.At { l with lock := mergeLock l.lock r.lock } file o b ↔
      l.At file o b ∨ r.At file o b := by
  have hfile : l.key.file = r.key.file :=
    ((keysMatch_iff hl hkey).mp hlk).trans ((keysMatch_iff hr hkey).mp hrk).symm
  unfold Entry.At
  rw [← hfile, ← ho, ← and_or_left, ← and_or_left]
  exact and_congr_right fun _ => and_congr_right fun _ => mergeLock_covers hm b

omit [DecidableEq α] in
theorem canMerge_type {r : Flock} (h : canMerge l r = true) : l.type = r.type := by
  unfold canMerge at h
  split at h
  · cases h
  · next hne => exact not_not.mp hne

theorem Sound.merged (h : Sound bp es) (hkey : key.Stable bp) (hmer : Merged key es es') :
    Sound bp es' ∧ heldIn es' = heldIn es := by
  obtain ⟨l, r, rest, hlk, hrk, ho, hm, hu, hu'⟩ := hmer
  have h := h.perm hu
  have hat := merged_at (h.keys l (by simp)) (h.keys r (by simp)) hkey hlk hrk ho hm
  have hap := pairwise_cons.mp h.apart
  have hap' := pairwise_cons.mp hap.2
  have hs : Sound bp ({ l with lock := mergeLock l.lock r.lock } :: rest) := by
    refine ⟨?_, ?_, pairwise_cons.mpr ⟨fun e he file o b ⟨hb, hb'⟩ => ?_, hap'.2⟩⟩
    · intro e he
      rcases mem_cons.mp he with rfl | he
      · exact h.keys l (by simp)
      · exact h.keys e (by simp [he])
    · intro e he
      rcases mem_cons.mp he with rfl | he
      · exact h.types l (by simp)
      · exact h.types e (by simp [he])
    · rcases (hat file o b).mp hb with hb | hb
      · exact hap.1 e (by simp [he]) file o b ⟨hb, hb'⟩
      · exact hap'.1 e he file o b ⟨hb, hb'⟩
  refine ⟨hs.perm hu'.symm, ?_⟩
  funext file o b
  refine (hs.perm hu'.symm).heldIn_congr (fun e he hb => ?_) fun e he hb => ?_
  · have hin := hu'.mem_iff.mpr (mem_cons_self ..)
    rcases mem_cons.mp (hu.mem_iff.mp he) with rfl | he
    · exact ⟨_, hin, (hat file o b).mpr (.inl hb), rfl⟩
    · rcases mem_cons.mp he with rfl | he
      · exact ⟨_, hin, (hat file o b).mpr (.inr hb), (canMerge_type hm : l.lock.type = _)⟩
      · exact ⟨e, hu'.mem_iff.mpr (by simp [he]), hb, rfl⟩
  · rcases mem_cons.mp (hu'.mem_iff.mp he) with rfl | he
    · rcases (hat file o b).mp hb with hb | hb
      · exact ⟨l, hu.mem_iff.mpr (by simp), hb⟩
      · exact ⟨r, hu.mem_iff.mpr (by simp), hb⟩
    · exact ⟨e, hu.mem_iff.mpr (by simp [he]), hb⟩

theorem Sound.mergeLoop {t : Table α} (h : Sound bp (used t)) (hkey : key.Stable bp)
    (rounds : Nat) : Sound bp (used (mergeLoop key rounds t)) ∧
      heldIn (used (RecordLock.mergeLoop key rounds t)) = heldIn (used t) := by
  induction rounds generalizing t with
  | zero => exact ⟨h, rfl⟩
  | succ rounds ih =>
      rw [RecordLock.mergeLoop]
      split
      · next t' hmer =>
          obtain ⟨h', heq⟩ := h.merged hkey (mergeOnce_spec hmer)
          rw [← heq]
          exact ih h'
      · exact ⟨h, rfl⟩

end Merge

section Request

variable {α : Type} [DecidableEq α] {bp : Nat → String} {key : FileKey} {owner : α}
  {request : Flock} {t : Table α}

/-- The slots that a request needs are there: the owner's entries that it cuts
give theirs back, each side that sticks out needs one, and a new lock needs
`extra`. -/
def Room (key : FileKey) (owner : α) (request : Flock) (extra : Nat) (t : Table α) : Prop :=
  ((hits key owner request t).filter (·.lock.start < request.start)).length +
    ((hits key owner request t).filter
      (recordLockEnd request < recordLockEnd ·.lock)).length + extra ≤
    free t + (hits key owner request t).length

instance (extra : Nat) : Decidable (Room key owner request extra t) :=
  inferInstanceAs (Decidable (_ ≤ _))

omit [DecidableEq α] in
theorem length_slices (es : List (Entry α)) :
    (es.flatMap fun e => slices request e.lock).length =
      (es.filter (·.lock.start < request.start)).length +
      (es.filter (recordLockEnd request < recordLockEnd ·.lock)).length := by
  induction es with
  | nil => rfl
  | cons e es ih =>
      rw [flatMap_cons, length_append, ih, slices, filter_cons, filter_cons]
      by_cases h₁ : e.lock.start < request.start <;>
        by_cases h₂ : recordLockEnd request < recordLockEnd e.lock <;>
        simp [h₁, h₂] <;> omega

theorem room_iff (extra : Nat) : Room key owner request extra t ↔
    (preserved key owner request t).length + extra ≤
      free t + (hits key owner request t).length := by
  rw [Room, preserved, length_slices, hits]

theorem Sound.replace (h : Sound bp (used t)) (hkey : key.Stable bp) :
    Sound bp (used (replaceSameOwner key owner request t)) := by
  have hcut : Sound bp (RecordLock.cutAll key owner request t) := h.cutAll hkey
  refine (hcut.sublist ?_).perm (replace_spec key owner request t).1.symm
  exact ((take_sublist _ _).map _).append_right _

theorem heldIn_replace (h : Sound bp (used t)) (hkey : key.Stable bp)
    (hroom : Room key owner request 0 t) (file : String ⊕ Nat) (o : α) (b : Nat) :
    heldIn (used (replaceSameOwner key owner request t)) file o b =
      if Asked key owner request file o b then .unlck else heldIn (used t) file o b := by
  have hp := (replace_spec key owner request t).1
  rw [take_of_length_le ((room_iff 0).mp hroom)] at hp
  rw [← heldIn_cutAll h hkey]
  exact ((h.cutAll hkey).perm hp.symm).heldIn_congr
    (fun e he hat => ⟨e, hp.mem_iff.mpr he, hat, rfl⟩)
    fun e he hat => ⟨e, hp.mem_iff.mp he, hat⟩

theorem replace_drops (h : Sound bp (used t)) (hkey : key.Stable bp)
    (hroom : ¬ Room key owner request 0 t) :
    ∃ file o b, ¬ Asked key owner request file o b ∧ heldIn (used t) file o b ≠ .unlck ∧
      heldIn (used (replaceSameOwner key owner request t)) file o b = .unlck := by
  rw [room_iff, Nat.add_zero, Nat.not_le] at hroom
  have hp := (replace_spec key owner request t).1
  have hcut : Sound bp (cutAll key owner request t) := h.cutAll hkey
  obtain ⟨d, ds, hdrop⟩ := exists_cons_of_ne_nil
    (fun hnil => Nat.not_le.mpr hroom (drop_eq_nil_iff.mp hnil))
  have hss := take_append_drop (free t + (hits key owner request t).length)
    (preserved key owner request t)
  rw [hdrop] at hss
  have hmem : d ∈ preserved key owner request t := hss ▸ by simp
  obtain ⟨⟨b, hb⟩, e, he, -, hcov⟩ := preserved_at hkey h hmem
  have hat : (Entry.mk key owner d).At key.file owner b := ⟨rfl, rfl, hb⟩
  obtain ⟨hate, hasked⟩ := hcov _ _ b hat
  refine ⟨key.file, owner, b, hasked, ?_, heldIn_none fun e' he' hat' => ?_⟩
  · rw [h.heldIn_eq he hate]
    exact h.types e he
  -- The dropped piece is apart from every entry that is left.
  · have hapart := hcut.apart
    rw [cutAll, ← hss, map_append, append_assoc] at hapart
    obtain ⟨-, hright, hleft⟩ := pairwise_append.mp hapart
    rcases mem_append.mp (hp.mem_iff.mp he') with he' | he'
    · exact hleft e' he' _ (by simp) _ _ _ ⟨hat', hat⟩
    · exact (pairwise_cons.mp hright).1 e' (mem_append_right _ he') _ _ _
        ⟨hat, hat'⟩

variable (owner request) in
theorem heldIn_replace_le (h : Sound bp (used t)) (hkey : key.Stable bp)
    (file : String ⊕ Nat) (o : α) (b : Nat) :
    heldIn (used (replaceSameOwner key owner request t)) file o b = .unlck ∨
      ¬ Asked key owner request file o b ∧
        heldIn (used (replaceSameOwner key owner request t)) file o b =
          heldIn (used t) file o b := by
  have hcut : Sound bp (cutAll key owner request t) := h.cutAll hkey
  rcases heldIn_cases (used (replaceSameOwner key owner request t)) file o b with
    ⟨e, he, hat, heq⟩ | ⟨-, heq⟩
  · have hin : e ∈ cutAll key owner request t :=
      (((take_sublist _ _).map _).append_right _).subset
        ((replace_spec key owner request t).1.mem_iff.mp he)
    have hasked := (cutAll_at h hkey hin hat).1
    refine .inr ⟨hasked, ?_⟩
    rw [heq, ← hcut.heldIn_eq hin hat, heldIn_cutAll h hkey, if_neg hasked]
  · exact .inl heq

variable (request) in
theorem heldIn_replace_other (h : Sound bp (used t)) (hkey : key.Stable bp) {o : α}
    (ho : o ≠ owner) (file : String ⊕ Nat) (b : Nat) :
    heldIn (used (replaceSameOwner key owner request t)) file o b = heldIn (used t) file o b := by
  have hp := (replace_spec key owner request t).1
  have hcut : Sound bp (used (replaceSameOwner key owner request t)) := h.replace hkey
  refine hcut.heldIn_congr (fun e he hat => ⟨e, hp.mem_iff.mpr ?_, hat, rfl⟩)
    fun e he hat => ?_
  · refine mem_append_right _ (mem_filter.mpr ⟨he, ?_⟩)
    simp [hit, hat.2.1, ho]
  · rcases mem_append.mp (hp.mem_iff.mp he) with he | he
    · obtain ⟨s, -, rfl⟩ := mem_map.mp he
      exact absurd hat.2.1.symm ho
    · exact ⟨e, mem_of_mem_filter he, hat⟩

theorem Sound.merge_insert (h : Sound bp (used t)) (hkey : key.Stable bp)
    (htype : request.type ≠ .unlck)
    (hclear : ∀ e ∈ used t, ∀ file o b, Asked key owner request file o b → ¬ e.At file o b)
    {t' : Table α} (hi : Slots.insert t ⟨key, owner, request⟩ = some t') :
    Sound bp (used (mergeSameOwner key t')) ∧ ∀ file o b,
      heldIn (used (mergeSameOwner key t')) file o b =
        if Asked key owner request file o b then request.type else heldIn (used t) file o b := by
  obtain ⟨hp, -, -⟩ := Slots.insert_spec hi
  have hnew : Sound bp (⟨key, owner, request⟩ :: used t) := by
    refine ⟨?_, ?_, pairwise_cons.mpr ⟨fun e he file o b ⟨hb, hb'⟩ => ?_, h.apart⟩⟩
    · exact forall_mem_cons.mpr ⟨hkey, h.keys⟩
    · exact forall_mem_cons.mpr ⟨htype, h.types⟩
    · exact hclear e he file o b ⟨hb.1.symm, hb.2.1.symm, hb.2.2⟩ hb'
  have hs := hnew.perm hp.symm
  obtain ⟨hs', heq⟩ := hs.mergeLoop hkey t'.length
  refine ⟨hs', fun file o b => ?_⟩
  rw [mergeSameOwner, heq]
  split
  · next hasked =>
      exact hs.heldIn_eq (hp.mem_iff.mpr (mem_cons_self ..))
        ⟨hasked.1.symm, hasked.2.1.symm, hasked.2.2⟩
  next hasked =>
  refine hs.heldIn_congr (fun e he hat => ⟨e, hp.mem_iff.mpr (by simp [he]), hat, rfl⟩)
    fun e he hat => ?_
  rcases mem_cons.mp (hp.mem_iff.mp he) with rfl | he
  · exact absurd ⟨hat.1.symm, hat.2.1.symm, hat.2.2⟩ hasked
  · exact ⟨e, he, hat⟩

theorem replace_clear (h : Sound bp (used t)) (hkey : key.Stable bp) :
    ∀ e ∈ used (replaceSameOwner key owner request t), ∀ file o b,
      Asked key owner request file o b → ¬ e.At file o b := by
  intro e he file o b hasked hat
  have hs : Sound bp (used (replaceSameOwner key owner request t)) := h.replace hkey
  have heq := hs.heldIn_eq he hat
  rcases heldIn_replace_le owner request h hkey file o b with hun | ⟨hno, -⟩
  · exact hs.types e he (heq.symm.trans hun)
  · exact hno hasked

theorem replace_of_no_hits (h : hits key owner request t = []) :
    replaceSameOwner key owner request t = t := by
  have hpre : preserved key owner request t = [] := by
    rw [preserved, show (used t).filter (hit key owner request) = [] from h]
    rfl
  rw [replaceSameOwner, hpre, restore, clearHits]
  refine Slots.keep_eq_self fun e he => ?_
  have := filter_eq_nil_iff.mp h e he
  simpa using this

/-- What both calls do to their table once nothing is in the way. -/
def setLock (key : FileKey) (owner : α) (lock : Flock) (t : Table α) : Table α × Result :=
  let cut := replaceSameOwner key owner lock t
  if lock.type = .unlck then (cut, .ok)
  else
    match Slots.insert cut ⟨key, owner, lock⟩ with
    | some t => (mergeSameOwner key t, .ok)
    | none => (cut, .enfile)

def TableFits (key : FileKey) (owner : α) (lock : Flock) (t : Table α) : Prop :=
  if lock.type = .unlck then Room key owner lock 0 t
  else hits key owner lock t = [] ∨ Room key owner lock 1 t

/-- `setLock` did to the map what it should. -/
def TableExact (key : FileKey) (owner : α) (lock : Flock) (t : Table α)
    (out : Table α × Result) : Prop :=
  if out.2 = .ok then
    ∀ file o b, heldIn (used out.1) file o b =
      if Asked key owner lock file o b then lock.type else heldIn (used t) file o b
  else out.1 = t

theorem Room.zero {extra : Nat} (h : Room key owner request extra t) :
    Room key owner request 0 t := by
  unfold Room at h ⊢
  omega

theorem free_replace_pos : 0 < free (replaceSameOwner key owner request t) ↔
    Room key owner request 1 t := by
  rw [(replace_spec key owner request t).2, room_iff]
  omega

theorem setLock_sound (h : Sound bp (used t)) (hkey : key.Stable bp) :
    Sound bp (used (setLock key owner request t).1) := by
  have hcut : Sound bp (used (replaceSameOwner key owner request t)) := h.replace hkey
  unfold setLock
  dsimp only
  split
  · exact hcut
  next htype =>
  split
  · next t' hi => exact (hcut.merge_insert hkey htype (replace_clear h hkey) hi).1
  · exact hcut

theorem setLock_le (h : Sound bp (used t)) (hkey : key.Stable bp)
    (file : String ⊕ Nat) (o : α) (b : Nat) :
    heldIn (used (setLock key owner request t).1) file o b = .unlck ∨
      heldIn (used (setLock key owner request t).1) file o b = heldIn (used t) file o b ∨
      Asked key owner request file o b ∧
        heldIn (used (setLock key owner request t).1) file o b = request.type := by
  have hcut : Sound bp (used (replaceSameOwner key owner request t)) := h.replace hkey
  have hle := heldIn_replace_le owner request h hkey file o b
  unfold setLock
  dsimp only
  split
  · exact hle.imp id fun h => .inl h.2
  next htype =>
  split
  · next t' hi =>
      rw [(hcut.merge_insert hkey htype (replace_clear h hkey) hi).2 file o b]
      split
      · next hasked => exact .inr (.inr ⟨hasked, rfl⟩)
      · exact hle.imp id fun h => .inl h.2
  · exact hle.imp id fun h => .inl h.2

theorem setLock_other (h : Sound bp (used t)) (hkey : key.Stable bp) {o : α}
    (ho : o ≠ owner) (file : String ⊕ Nat) (b : Nat) :
    heldIn (used (setLock key owner request t).1) file o b = heldIn (used t) file o b := by
  have hcut : Sound bp (used (replaceSameOwner key owner request t)) := h.replace hkey
  have hother := heldIn_replace_other request h hkey ho file b
  rw [← hother]
  unfold setLock
  dsimp only
  split
  · rfl
  next htype =>
  split
  · next t' hi =>
      rw [(hcut.merge_insert hkey htype (replace_clear h hkey) hi).2]
      exact if_neg fun hasked => ho hasked.2.1
  · rfl

theorem setLock_exact_iff (h : Sound bp (used t)) (hkey : key.Stable bp) :
    TableExact key owner request t (setLock key owner request t) ↔
      TableFits key owner request t := by
  have hcut : Sound bp (used (replaceSameOwner key owner request t)) := h.replace hkey
  unfold setLock TableExact TableFits
  by_cases htype : request.type = .unlck
  · simp only [htype, if_true]
    constructor
    · intro hex
      by_contra hroom
      obtain ⟨file, o, b, hasked, hold, hnew⟩ := replace_drops h hkey hroom
      rw [hex, if_neg hasked] at hnew
      exact hold hnew
    · exact fun hroom => heldIn_replace h hkey hroom
  · simp only [htype, if_false]
    cases hi : Slots.insert (replaceSameOwner key owner request t) ⟨key, owner, request⟩ with
    | some t' =>
        have hfree : 0 < free (replaceSameOwner key owner request t) := by
          rw [Nat.pos_iff_ne_zero]
          intro hzero
          rw [Slots.insert_eq_none.mpr hzero] at hi
          cases hi
        have hroom := free_replace_pos.mp hfree
        refine ⟨fun _ => .inr hroom, fun _ file o b => ?_⟩
        rw [(hcut.merge_insert hkey htype (replace_clear h hkey) hi).2,
          heldIn_replace h hkey hroom.zero]
        split <;> rfl
    | none =>
        have hfull := Slots.insert_eq_none.mp hi
        have hroom : ¬ Room key owner request 1 t := fun hroom => by
          have := free_replace_pos.mpr hroom
          omega
        simp only [hroom, or_false]
        refine ⟨fun heq => ?_, replace_of_no_hits⟩
        -- An entry that is cut is gone, so the table is another one.
        refine filter_eq_nil_iff.mpr fun e he hhit => ?_
        obtain ⟨hf, ho, hover⟩ := (hit_iff (h.keys e he) hkey).mp hhit
        obtain ⟨b, hb, hb'⟩ := overlap_iff.mp hover
        refine replace_clear h hkey e ?_ key.file owner b ⟨rfl, rfl, hb'⟩ ⟨hf, ho, hb⟩
        rw [heq]
        exact he

end Request

end F7ly.Fs.RecordLock
