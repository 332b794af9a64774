import F7ly.Lib.Run
import F7ly.Proc.Asid

/-!
# An ASID is handed out clean

What makes a reclaim safe is the epoch it reads before its flush: an ASID
retired later has a larger epoch, so the ones put back after the flush were
all retired before it began. `Inv` follows a CPU through the reclaim with that
in hand. It rests on the epoch growing, so it holds as long as the 64-bit
epoch does not go around.

The last section shows that going around is not harmless: a CPU that reads the
largest epoch before its flush takes an ASID retired during the flush, whose
epoch is 0, for one retired before.
-/

namespace F7ly.Proc.Asid

open F7ly.Run Allocator Asid.System

/-- A full flush that began after the ASID's last retirement is over. -/
def System.Clean (s : System) (asid : Nat) : Prop :=
  ∀ t, s.retiredAt asid = some t → ∃ f, s.flushedFrom = some f ∧ t < f

/-- No address space holds the ASID, and no TLB can have an entry for it from
an earlier one. -/
structure System.Safe (s : System) (asid : Nat) : Prop where
  unheld : ∀ m, s.asid m ≠ some asid
  clean : s.Clean asid

def NoWrap (s : System) : Event → Prop
  | .destroy _ => s.al.retirementEpoch + 1 < 2 ^ 64
  | _ => True

namespace Allocator

variable {al : Allocator} {asid : Nat}

theorem mem_candidates_range (h : asid ∈ al.candidates) :
    firstUserAsid ≤ asid ∧ asid < userAsidCount := by
  obtain ⟨offset, -, rfl⟩ := List.mem_map.mp h
  have := Nat.mod_lt (al.nextUserAsid - firstUserAsid + offset)
    (show 0 < userAsidCount - 1 by decide)
  simp only [firstUserAsid] at *
  omega

theorem findFree_range (h : al.findFree = some asid) :
    firstUserAsid ≤ asid ∧ asid < userAsidCount := by
  rw [findFree] at h
  exact mem_candidates_range (List.mem_of_find?_eq_some h)

theorem findFree_isFree (h : al.findFree = some asid) : al.isFree asid = true := by
  exact List.find?_some h

theorem retire_eq (al : Allocator) (hlow : firstUserAsid ≤ asid) (hhigh : asid < userAsidCount) :
    al.retire asid = { al with
      active := fun b => if b = asid then false else al.active b
      retired := fun b => if b = asid then true else al.retired b
      retiredEpoch := fun b =>
        if b = asid then (al.retirementEpoch + 1) % 2 ^ 64 else al.retiredEpoch b
      retirementEpoch := (al.retirementEpoch + 1) % 2 ^ 64 } := by
  rw [retire, if_neg (by omega)]

theorem isFree_iff : al.isFree asid = true ↔ al.active asid = false ∧ al.retired asid = false := by
  simp [isFree]

end Allocator

structure Inv (s : System) : Prop where
  held : ∀ m a, s.asid m = some a → firstUserAsid ≤ a ∧ a < userAsidCount ∧ s.al.active a = true
  unique : ∀ m m' a, s.asid m = some a → s.asid m' = some a → m = m'
  apart : ∀ a, s.al.active a = true → s.al.retired a = false
  free : ∀ a, s.al.isFree a = true → s.Clean a
  past : ∀ a t, s.retiredAt a = some t → t < s.now
  unlocked : ∀ cpu m e, s.pc cpu = .unlocked m e → e ≤ s.al.retirementEpoch
  flushing : ∀ cpu m e start, s.pc cpu = .flushing m e start →
    e ≤ s.al.retirementEpoch ∧ ∀ a t, s.al.retired a = true →
      s.al.retiredEpoch a ≤ e → s.retiredAt a = some t → t < start
  flushed : ∀ cpu m e, s.pc cpu = .flushed m e →
    e ≤ s.al.retirementEpoch ∧ ∀ a, s.al.retired a = true → s.al.retiredEpoch a ≤ e → s.Clean a

theorem Inv.init : Inv .init where
  held := fun _ _ h => nomatch h
  unique := fun _ _ _ h => nomatch h
  apart := fun _ h => nomatch h
  free := fun _ _ _ h => nomatch h
  past := fun _ _ h => nomatch h
  unlocked := fun _ _ _ h => nomatch h
  flushing := fun _ _ _ _ h => nomatch h
  flushed := fun _ _ _ h => nomatch h

variable {cpu : Cpu} {a : Nat} {m : Space} {e : Event} {s' : System}

theorem Inv.safe {s : System} (hs : Inv s) (h : s.handsOut cpu = some a) : s.Safe a := by
  rw [handsOut] at h
  split at h
  · have hfree := findFree_isFree h
    refine ⟨fun m hm => ?_, hs.free a hfree⟩
    have := (hs.held m a hm).2.2
    rw [(isFree_iff.mp hfree).1] at this
    cases this
  · cases h

variable {s : System}

theorem Inv.setPc (hs : Inv s) {pc : Pc} (hu : ∀ m e, pc = .unlocked m e → e ≤ s.al.retirementEpoch)
    (hf : ∀ m e start, pc = .flushing m e start →
      e ≤ s.al.retirementEpoch ∧ ∀ a t, s.al.retired a = true →
        s.al.retiredEpoch a ≤ e → s.retiredAt a = some t → t < start)
    (hd : ∀ m e, pc = .flushed m e → e ≤ s.al.retirementEpoch ∧ ∀ a, s.al.retired a = true →
        s.al.retiredEpoch a ≤ e → s.Clean a) : Inv (s.setPc cpu pc) := by
  refine ⟨hs.held, hs.unique, hs.apart, hs.free, hs.past, fun c m e h => ?_,
    fun c m e start h => ?_, fun c m e h => ?_⟩
  · simp only [System.setPc] at h
    split at h
    · exact hu m e h
    · exact hs.unlocked c m e h
  · simp only [System.setPc] at h
    split at h
    · exact hf m e start h
    · exact hs.flushing c m e start h
  · simp only [System.setPc] at h
    split at h
    · exact hd m e h
    · exact hs.flushed c m e h

theorem Inv.tick (hs : Inv s) : Inv s.tick where
  held := hs.held
  unique := hs.unique
  apart := hs.apart
  free := hs.free
  past := fun a t h => Nat.lt_succ_of_lt (hs.past a t h)
  unlocked := hs.unlocked
  flushing := hs.flushing
  flushed := hs.flushed

theorem Inv.spaces (hs : Inv s) (n : Nat) : Inv { s with spaces := n } :=
  ⟨hs.held, hs.unique, hs.apart, hs.free, hs.past, hs.unlocked, hs.flushing, hs.flushed⟩

theorem search_none (hf : s.al.findFree = none) (hr : s.al.reclaiming = false) : s.search cpu m =
      (s.setAl s.al.startReclaim).setPc cpu (.unlocked m s.al.retirementEpoch) := by
  unfold search
  rw [hf]
  exact if_neg (by simp [hr])

theorem search_waiting (hf : s.al.findFree = none)
    (hr : s.al.reclaiming = true) : s.search cpu m = s := by
  unfold search
  rw [hf]
  exact if_pos hr

theorem search_some (hf : s.al.findFree = some a) :
    s.search cpu m = ((s.setAl (s.al.take a)).setAsid m (some a)).setPc cpu .idle := by
  unfold search
  rw [hf]

theorem Inv.take (hs : Inv s) (ha : s.al.findFree = some a) (m : Space) :
    Inv ((s.setAl (s.al.take a)).setAsid m (some a)) := by
  have hrange := Allocator.findFree_range ha
  obtain ⟨hact, hret⟩ := Allocator.isFree_iff.mp (Allocator.findFree_isFree ha)
  have hnot : ∀ k, s.asid k ≠ some a := fun k hk => by
    rw [(hs.held k a hk).2.2] at hact
    cases hact
  refine ⟨fun k b hk => ?_, fun k k' b hk hk' => ?_, fun b hb => ?_,
    fun b hb => ?_, hs.past, hs.unlocked, hs.flushing, hs.flushed⟩
  · simp only [System.setAsid, System.setAl, Allocator.take] at hk ⊢
    split at hk
    · cases hk
      simp [hrange]
    · obtain ⟨h1, h2, h3⟩ := hs.held k b hk
      exact ⟨h1, h2, by simp [h3]⟩
  · simp only [System.setAsid] at hk hk'
    split at hk
    · cases hk
      split at hk'
      · next h h' => exact h.trans h'.symm
      · exact absurd hk' (hnot k')
    · split at hk'
      · cases hk'
        exact absurd hk (hnot k)
      · exact hs.unique k k' b hk hk'
  · simp only [System.setAsid, System.setAl, Allocator.take] at hb ⊢
    split at hb
    · next h => rw [h, hret]
    · exact hs.apart b hb
  · rw [Allocator.isFree_iff] at hb
    simp only [System.setAsid, System.setAl, Allocator.take] at hb
    obtain ⟨hb, hr⟩ := hb
    split at hb
    · cases hb
    · exact hs.free b (Allocator.isFree_iff.mpr ⟨hb, hr⟩)

theorem Inv.startReclaim (hs : Inv s) : Inv (s.setAl s.al.startReclaim) :=
  ⟨hs.held, hs.unique, hs.apart, hs.free, hs.past, hs.unlocked, hs.flushing, hs.flushed⟩

theorem Inv.flush (hs : Inv s) (start : Nat) :
    Inv { s with flushedFrom := some (latest start s.flushedFrom) } := by
  have hclean : ∀ a, s.Clean a →
      System.Clean { s with flushedFrom := some (latest start s.flushedFrom) }
        a := by
    intro a ha t ht
    obtain ⟨f, hf, hlt⟩ := ha t ht
    refine ⟨_, rfl, ?_⟩
    rw [hf, latest]
    omega
  exact ⟨hs.held, hs.unique, hs.apart, fun a h => hclean a (hs.free a h), hs.past,
    hs.unlocked, hs.flushing, fun c m e h => ⟨(hs.flushed c m e h).1,
      fun a hr he => hclean a ((hs.flushed c m e h).2 a hr he)⟩⟩

theorem clean_of_flush {start : Nat} (h : ∀ t, s.retiredAt a = some t → t < start) :
    System.Clean { s with flushedFrom := some (latest start s.flushedFrom) }
      a := by
  intro t ht
  have := h t ht
  refine ⟨_, rfl, ?_⟩
  cases s.flushedFrom with
  | none => exact this
  | some f =>
      rw [latest]
      omega

theorem Inv.reclaim (hs : Inv s) {e : Nat}
    (he : ∀ a, s.al.retired a = true → s.al.retiredEpoch a ≤ e → s.Clean a) :
    Inv (s.setAl (s.al.reclaim e)) := by
  have hold : ∀ {a}, (s.al.reclaim e).retired a = true →
      s.al.retired a = true ∧ (s.al.reclaim e).retiredEpoch a = s.al.retiredEpoch a := by
    intro a h
    simp only [Allocator.reclaim] at h ⊢
    split at h
    · cases h
    · next hn => exact ⟨h, if_neg hn⟩
  refine ⟨hs.held, hs.unique, fun a h => ?_, fun a h => ?_, hs.past, hs.unlocked,
    fun c m k start hpc => ?_, fun c m k hpc => ?_⟩
  · simp only [System.setAl, Allocator.reclaim] at h ⊢
    split
    · rfl
    · exact hs.apart a h
  · obtain ⟨hact, hret⟩ := isFree_iff.mp h
    simp only [System.setAl, Allocator.reclaim] at hact hret
    split at hret
    · next hr =>
        simp only [reclaims, Bool.and_eq_true, decide_eq_true_eq] at hr
        exact he a hr.1.2 hr.2
    · exact hs.free a (isFree_iff.mpr ⟨hact, hret⟩)
  · obtain ⟨h1, h2⟩ := hs.flushing c m k start hpc
    refine ⟨h1, fun a t hr hle => ?_⟩
    obtain ⟨hr', heq⟩ := hold hr
    exact h2 a t hr' (heq ▸ hle)
  · obtain ⟨h1, h2⟩ := hs.flushed c m k hpc
    refine ⟨h1, fun a hr hle => ?_⟩
    obtain ⟨hr', heq⟩ := hold hr
    exact h2 a hr' (heq ▸ hle)

theorem System.Clean.of_eq (h : s.Clean a) (hf : s'.flushedFrom = s.flushedFrom)
    (hr : s'.retiredAt a = s.retiredAt a) : s'.Clean a := by
  rwa [System.Clean, hf, hr]

theorem Inv.retire (hs : Inv s) (hm : s.asid m = some a)
    (hwrap : s.al.retirementEpoch + 1 < 2 ^ 64) :
    Inv ({ s with
      al := s.al.retire a
      retiredAt := fun b => if b = a then some s.now else s.retiredAt b
      }.setAsid m none).tick := by
  obtain ⟨hlow, hhigh, -⟩ := hs.held m a hm
  have hret : s.al.retire a = { s.al with
      active := fun b => if b = a then false else s.al.active b
      retired := fun b => if b = a then true else s.al.retired b
      retiredEpoch := fun b =>
        if b = a then s.al.retirementEpoch + 1 else s.al.retiredEpoch b
      retirementEpoch := s.al.retirementEpoch + 1 } := by
    rw [retire_eq _ hlow hhigh, Nat.mod_eq_of_lt hwrap]
  rw [hret]
  refine ⟨fun k b hk => ?_, fun k k' b hk hk' => ?_, fun b hb => ?_,
    fun b hb => ?_, fun b t ht => ?_, fun c k e hpc => ?_,
    fun c k e start hpc => ?_, fun c k e hpc => ?_⟩
  · simp only [System.setAsid, System.tick] at hk ⊢
    split at hk
    · cases hk
    next hne =>
    obtain ⟨h1, h2, h3⟩ := hs.held k b hk
    have hb : b ≠ a := fun hb => hne (hs.unique k m a (hb ▸ hk) hm)
    exact ⟨h1, h2, by rw [if_neg hb]; exact h3⟩
  · simp only [System.setAsid, System.tick] at hk hk'
    split at hk
    · cases hk
    · split at hk'
      · cases hk'
      · exact hs.unique k k' b hk hk'
  · simp only [System.setAsid, System.tick] at hb ⊢
    split at hb
    · cases hb
    · next hne =>
        rw [if_neg hne]
        exact hs.apart b hb
  · obtain ⟨hact, hfree⟩ := isFree_iff.mp hb
    simp only [System.setAsid, System.tick] at hact hfree
    split at hfree
    · cases hfree
    · next hne =>
        rw [if_neg hne] at hact
        exact (hs.free b (isFree_iff.mpr ⟨hact, hfree⟩)).of_eq rfl (if_neg hne)
  · simp only [System.setAsid, System.tick] at ht ⊢
    split at ht
    · cases ht
      exact Nat.lt_succ_self _
    · exact Nat.lt_succ_of_lt (hs.past b t ht)
  · exact Nat.le_succ_of_le (hs.unlocked c k e hpc)
  · obtain ⟨h1, h2⟩ := hs.flushing c k e start hpc
    refine ⟨Nat.le_succ_of_le h1, fun b t hr hle ht => ?_⟩
    simp only [System.setAsid, System.tick] at hr hle ht
    split at hle
    · omega
    · next hne =>
        rw [if_neg hne] at hr ht
        exact h2 b t hr hle ht
  · obtain ⟨h1, h2⟩ := hs.flushed c k e hpc
    refine ⟨Nat.le_succ_of_le h1, fun b hr hle => ?_⟩
    simp only [System.setAsid, System.tick] at hr hle
    split at hle
    · omega
    · next hne =>
        rw [if_neg hne] at hr
        exact (h2 b hr hle).of_eq rfl (if_neg hne)

theorem Inv.search (hs : Inv s) (cpu : Cpu) (m : Space) : Inv (s.search cpu m) := by
  cases hf : s.al.findFree with
  | some a =>
      rw [search_some hf]
      exact (hs.take hf m).setPc (by simp) (by simp) (by simp)
  | none =>
      cases hr : s.al.reclaiming with
      | true =>
          rw [search_waiting hf hr]
          exact hs
      | false =>
          rw [search_none hf hr]
          refine hs.startReclaim.setPc (fun k e h => ?_) (by simp) (by simp)
          cases h
          exact Nat.le_refl _

theorem Inv.step (hs : Inv s) (hw : NoWrap s e) (h : s.step e = some s') : Inv s' := by
  obtain ⟨t, ht, rfl⟩ := Option.map_eq_some_iff.mp h
  cases e with
  | create cpu =>
      simp only [act] at ht
      split at ht
      · cases ht
        exact ((hs.spaces _).setPc (by simp) (by simp) (by simp)).tick
      · cases ht
  | search cpu =>
      simp only [act] at ht
      split at ht
      · next m hpc => exact Option.some.inj ht ▸ (hs.search cpu m).tick
      · cases ht
  | startFlush cpu =>
      simp only [act] at ht
      split at ht
      · next m k hpc =>
          cases ht
          refine (hs.setPc (by simp) (fun m' k' start h => ?_) (by simp)).tick
          cases h
          exact ⟨hs.unlocked cpu m k hpc, fun a t _ _ ht => hs.past a t ht⟩
      · cases ht
  | endFlush cpu =>
      simp only [act] at ht
      split at ht
      · next m k start hpc =>
          cases ht
          obtain ⟨h1, h2⟩ := hs.flushing cpu m k start hpc
          refine ((hs.flush start).setPc (by simp) (by simp) fun m' k' h => ?_).tick
          cases h
          exact ⟨h1, fun a hr hle => clean_of_flush fun t ht => h2 a t hr hle ht⟩
      · cases ht
  | finish cpu =>
      simp only [act] at ht
      split at ht
      · next m k hpc =>
          cases ht
          exact ((hs.reclaim (hs.flushed cpu m k hpc).2).setPc (by simp) (by simp)
            (by simp)).tick
      · cases ht
  | destroy m =>
      simp only [act] at ht
      split at ht
      · next a hm =>
          cases ht
          exact hs.retire hm hw
      · cases ht

def Reach (C : System → Event → Prop) (s s' : System) : Prop :=
  ∃ events, Guarded step C s events s'

variable {C : System → Event → Prop}

theorem Reach.refl (s : System) : Reach C s s := ⟨[], .nil s⟩

theorem Reach.trans {s₁ s₂ s₃ : System} (h : Reach C s₁ s₂) (h' : Reach C s₂ s₃) :
    Reach C s₁ s₃ := by
  obtain ⟨es, hr⟩ := h
  obtain ⟨es', hr'⟩ := h'
  exact ⟨es ++ es', hr.append hr'⟩

theorem Reach.act {s t : System} (hc : C s e) (h : s.act e = some t) (hr : Reach C t.tick s') :
    Reach C s s' := by
  obtain ⟨es, hr⟩ := hr
  exact ⟨e :: es, .cons hc (by rw [step, h]; rfl) hr⟩

theorem Allocator.findFree_next {al : Allocator} {k : Nat} (hnext : al.nextUserAsid = 1 + k % 1023)
    (hfree : al.isFree (1 + k % 1023) = true) : al.findFree = some (1 + k % 1023) := by
  have hhead : firstUserAsid + (al.nextUserAsid - firstUserAsid + 0) % (userAsidCount - 1) =
      1 + k % 1023 := by
    simp only [firstUserAsid, userAsidCount]
    omega
  rw [findFree, candidates, show userAsidCount - 1 = 1022 + 1 from rfl,
    List.range_succ_eq_map, List.map_cons]
  exact (List.find?_cons_of_pos (hhead.symm ▸ hfree)).trans (congrArg some hhead)

/-- CPU 0 is creating the address space `m`. The ones from `q` on hold the
ASIDs, which they got in turn, and the other ASIDs are free. -/
structure Held (s : System) (q m : Nat) : Prop where
  pc : s.pc 0 = .looping m
  spaces : s.spaces = m + 1
  asid : ∀ l, q ≤ l → l < m → s.asid l = some (1 + l % 1023)
  active : ∀ a, s.al.active a = true ↔ ∃ l, q ≤ l ∧ l < m ∧ a = 1 + l % 1023
  retired : ∀ a, s.al.retired a = false
  next : s.al.nextUserAsid = 1 + m % 1023
  epoch : s.al.retirementEpoch = q
  reclaiming : s.al.reclaiming = false
  past : ∀ f, s.flushedFrom = some f → f < s.now

variable {q m : Nat}

theorem act_search (h : s.pc 0 = .looping m) : s.act (.search 0) = some (s.search 0 m) := by
  rw [act, h]

theorem act_search_none (h : s.pc 0 = .looping m) (hf : s.al.findFree = none)
    (hr : s.al.reclaiming = false) : s.act (.search 0) = some
      ((s.setAl s.al.startReclaim).setPc 0 (.unlocked m s.al.retirementEpoch)) := by
  rw [act_search h, search_none hf hr]

theorem Held.hold (hs : Held s q m) (hle : q ≤ m) (hm : m < q + 1023) :
    ∃ s', Reach NoWrap s s' ∧ Held s' q (m + 1) := by
  have hfree : s.al.isFree (1 + m % 1023) = true := by
    refine isFree_iff.mpr ⟨?_, hs.retired _⟩
    rw [Bool.eq_false_iff, ne_eq, hs.active]
    rintro ⟨l, hlow, hhigh, heq⟩
    omega
  have hsearch : s.search 0 m = _ := search_some (findFree_next hs.next hfree)
  refine ⟨_, .act (e := .search 0) trivial ((act_search hs.pc).trans (congrArg some hsearch))
    (.act (e := .create 0) trivial rfl (.refl _)), congrArg Pc.looping hs.spaces,
    congrArg (· + 1) hs.spaces, fun l hlow hhigh => ?_, fun a => ?_, hs.retired, ?_,
    hs.epoch, hs.reclaiming, fun f h => Nat.lt_add_right 2 (hs.past f h)⟩
  · show (if l = m then _ else s.asid l) = _
    split
    · next h => rw [h]
    · next h => exact hs.asid l hlow (by omega)
  · show (if a = 1 + m % 1023 then true else s.al.active a) = true ↔ _
    split
    · next h => exact iff_of_true rfl ⟨m, hle, Nat.lt_succ_self m, h⟩
    next h =>
    rw [hs.active]
    refine exists_congr fun l => and_congr_right fun _ => and_congr_left fun ha => ?_
    omega
  · show (if 1 + m % 1023 + 1 < userAsidCount then _ else _) = _
    have hnext : 1 + m % 1023 + 1 < userAsidCount ↔ m % 1023 ≠ 1022 := by
      rw [userAsidCount]
      omega
    simp only [firstUserAsid]
    split <;> omega

theorem Held.findFree_none (hs : Held s q m) (hm : m = q + 1023) {al : Allocator}
    (h : ∀ a, s.al.active a = true → al.isFree a = false) : al.findFree = none := by
  cases hf : al.findFree with
  | none => rfl
  | some b =>
      obtain ⟨hlow, hhigh⟩ := findFree_range hf
      simp only [firstUserAsid, userAsidCount] at hlow hhigh
      have hb := h b ((hs.active b).mpr
        ⟨q + (b - 1 + 1023 - q % 1023) % 1023, by omega, by omega, by omega⟩)
      rw [findFree_isFree hf] at hb
      cases hb

theorem act_destroy (hm : s.asid m = some a) :
    s.act (.destroy m) = some ({ s with
      al := s.al.retire a
      retiredAt := fun b => if b = a then some s.now else s.retiredAt b
      }.setAsid m none) := by
  rw [act, hm]

theorem latest_lt {start t : Nat} {last : Option Nat}
    (hlast : ∀ f, last = some f → f < t) (h : start < t) : latest start last < t := by
  cases last with
  | none => exact h
  | some f => exact Nat.max_lt.mpr ⟨hlast f rfl, h⟩

theorem range_mod (q : Nat) : firstUserAsid ≤ 1 + q % 1023 ∧ 1 + q % 1023 < userAsidCount := by
  rw [firstUserAsid, userAsidCount]
  omega

/-- What the allocator has after the ASID of the address space `q` went. -/
theorem retire_mod (al : Allocator) (q : Nat) : al.retire (1 + q % 1023) = { al with
      active := fun b => if b = 1 + q % 1023 then false else al.active b
      retired := fun b => if b = 1 + q % 1023 then true else al.retired b
      retiredEpoch := fun b =>
        if b = 1 + q % 1023 then (al.retirementEpoch + 1) % 2 ^ 64 else al.retiredEpoch b
      retirementEpoch := (al.retirementEpoch + 1) % 2 ^ 64 } :=
  retire_eq al (range_mod q).1 (range_mod q).2

/-- The oldest address space goes and its ASID is reclaimed, for the one that
is being created. -/
theorem Held.cycle (hs : Held s q m) (hm : m = q + 1023) (hw : q + 1 < 2 ^ 64) :
    ∃ s', Reach NoWrap s s' ∧ Held s' (q + 1) m ∧ s'.retiredAt (1 + q % 1023) = some s.now := by
  obtain ⟨al, hretire⟩ : ∃ al, s.al.retire (1 + q % 1023) = al := ⟨_, rfl⟩
  have hal := hretire.symm.trans (retire_mod s.al q)
  rw [hs.epoch, Nat.mod_eq_of_lt hw] at hal
  have hdestroy := act_destroy (hs.asid q (Nat.le_refl q) (by omega))
  rw [hretire] at hdestroy
  have hnone : al.findFree = none := by
    refine hs.findFree_none hm fun a ha => ?_
    simp only [hal, isFree, ha]
    split <;> simp
  have hwrap : NoWrap s (.destroy q) := hs.epoch.symm ▸ hw
  refine ⟨_, .act hwrap hdestroy (.act (e := .search 0) trivial
    (act_search_none hs.pc hnone (hal ▸ hs.reclaiming)) (.act (e := .startFlush 0) trivial rfl
      (.act (e := .endFlush 0) trivial rfl (.act (e := .finish 0) trivial rfl (.refl _))))),
    ⟨rfl, hs.spaces, fun l hlow hhigh => ?_, fun a => ?_, fun a => ?_, ?_, ?_, rfl,
      fun f h => ?_⟩, if_pos rfl⟩
  · exact (if_neg (show ¬ l = q by omega)).trans (hs.asid l (by omega) hhigh)
  · rw [hal]
    show (if a = 1 + q % 1023 then false else s.al.active a) = true ↔ _
    split
    · next h =>
        refine iff_of_false (by simp) ?_
        rintro ⟨l, hlow, hhigh, heq⟩
        omega
    next h =>
    rw [hs.active]
    refine exists_congr fun l => and_congr_left fun hl => ?_
    omega
  · show (if al.startReclaim.reclaims al.retirementEpoch a then _ else al.retired a) = false
    by_cases ha : a = 1 + q % 1023
    · refine if_pos ?_
      simp [reclaims, startReclaim, hal, ha, range_mod]
    · simp [hal, ha, hs.retired]
  · exact (congrArg nextUserAsid hal).trans hs.next
  · exact congrArg retirementEpoch hal
  · cases h
    show latest (s.now + 2) s.flushedFrom < s.now + 5
    exact latest_lt (fun f h => Nat.lt_add_right 5 (hs.past f h)) (by omega)

theorem reach_held (q : Nat) (hq : q < 2 ^ 64) :
    ∃ s, Reach NoWrap .init s ∧ Held s q (q + 1023) := by
  induction q with
  | zero =>
      have hfill : ∀ c ≤ 1023, ∃ s, Reach NoWrap .init s ∧ Held s 0 c := by
        intro c hc
        induction c with
        | zero =>
            refine ⟨_, .act (e := .create 0) trivial rfl (.refl _), rfl, rfl, by simp,
              fun a => iff_of_false Bool.false_ne_true (by simp), fun _ => rfl, rfl, rfl, rfl, ?_⟩
            intro f h
            cases h
        | succ c ih =>
            obtain ⟨s, hr, hs⟩ := ih (by omega)
            obtain ⟨s', hr', hs'⟩ := hs.hold (by omega) (by omega)
            exact ⟨s', hr.trans hr', hs'⟩
      exact hfill 1023 (Nat.le_refl _)
  | succ q ih =>
      obtain ⟨s, hr, hs⟩ := ih (by omega)
      obtain ⟨s₁, hr₁, hs₁, _⟩ := hs.cycle rfl hq
      obtain ⟨s₂, hr₂, hs₂⟩ := hs₁.hold (by omega) (by omega)
      exact ⟨s₂, hr.trans (hr₁.trans hr₂), Nat.add_right_comm q 1023 1 ▸ hs₂⟩

/-- In every run in which the epoch does not go around, an ASID that is about
to be handed out is held by nobody, and a full flush that began after its last
retirement is over. -/
theorem asid_run_safe (events : List Event) (s : System)
    (hr : Guarded System.step NoWrap .init events s) (cpu : Cpu) (asid : Nat)
    (h : s.handsOut cpu = some asid) : s.Safe asid :=
  (hr.inv (fun hs hw h => Inv.step hs hw h) .init).safe h

/-- With every ASID held the first address space goes, and its ASID is about to
be handed out again. -/
theorem asid_run_safe_reused : ∃ events s t, Guarded System.step NoWrap .init events s ∧
    s.retiredAt 1 = some t ∧ s.handsOut 0 = some 1 ∧ s.Safe 1 := by
  obtain ⟨s, hr, hs⟩ := reach_held 0 (by decide)
  obtain ⟨s', hr', hs', hretired⟩ := hs.cycle rfl (by decide)
  obtain ⟨events, hrun⟩ := hr.trans hr'
  have hout : s'.handsOut 0 = some 1 := by
    rw [handsOut, hs'.pc]
    refine findFree_next (k := 1023) hs'.next (isFree_iff.mpr ⟨?_, hs'.retired _⟩)
    rw [Bool.eq_false_iff, ne_eq, hs'.active]
    rintro ⟨l, hlow, hhigh, heq⟩
    omega
  exact ⟨events, s', _, hrun, hretired, hout, asid_run_safe _ _ hrun 0 1 hout⟩

/-- At the largest epoch CPU 0 flushes and, while it does, the oldest address
space goes: its ASID is handed out next, and it is not clean. -/
theorem Held.stale (hs : Held s q m) (hm : m = q + 1023) (hq : q + 1 = 2 ^ 64) :
    ∃ s', Reach (fun _ _ => True) s s' ∧ s'.handsOut 0 = some (1 + q % 1023) ∧
      ¬ s'.Clean (1 + q % 1023) := by
  have hnone : s.al.findFree = none :=
    hs.findFree_none hm fun a ha => by simp [isFree, ha]
  obtain ⟨al, hretire⟩ : ∃ al, s.al.startReclaim.retire (1 + q % 1023) = al := ⟨_, rfl⟩
  have hal := hretire.symm.trans (retire_mod s.al.startReclaim q)
  rw [show s.al.startReclaim.retirementEpoch = q from hs.epoch, hq, Nat.mod_self] at hal
  refine ⟨_, .act trivial (act_search_none hs.pc hnone hs.reclaiming)
    (.act (e := .startFlush 0) trivial rfl (.act trivial
      (act_destroy (hs.asid q (Nat.le_refl q) (by omega))) (.act (e := .endFlush 0) trivial rfl
        (.act (e := .finish 0) trivial rfl (.refl _))))), ?_, fun hclean => ?_⟩
  · show ((s.al.startReclaim.retire (1 + q % 1023)).reclaim s.al.retirementEpoch).findFree = _
    rw [hretire]
    refine findFree_next ?_ (isFree_iff.mpr ⟨?_, if_pos ?_⟩)
    · rw [show 1 + q % 1023 = 1 + m % 1023 by omega]
      exact (congrArg nextUserAsid hal).trans hs.next
    · simp [reclaim, hal]
    · simp [reclaims, hal, range_mod]
  · obtain ⟨f, hf, hlt⟩ := hclean (s.now + 2) (if_pos rfl)
    cases hf
    have : latest (s.now + 1) s.flushedFrom < s.now + 2 :=
      latest_lt (fun f h => Nat.lt_add_right 2 (hs.past f h)) (by omega)
    exact Nat.lt_asymm this hlt

/-- Without the condition on the epoch an ASID that is not clean is handed
out. -/
theorem asid_run_unsafe : ∃ events s asid, Guarded System.step (fun _ _ => True) .init events s ∧
      s.handsOut 0 = some asid ∧ ¬ s.Safe asid := by
  obtain ⟨s, hr, hs⟩ := reach_held (2 ^ 64 - 1) (by decide)
  obtain ⟨s', hr', hout, hstale⟩ := hs.stale rfl (by decide)
  obtain ⟨events, hrun⟩ := hr
  obtain ⟨events', hrun'⟩ := hr'
  exact ⟨_, s', _, (hrun.imp (I := fun _ => True) (fun _ _ => trivial) (fun _ _ => trivial)
    trivial).append hrun', hout,
    fun hsafe => hstale hsafe.clean⟩

end F7ly.Proc.Asid
