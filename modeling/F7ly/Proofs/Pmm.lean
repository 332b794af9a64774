import F7ly.Mem.Pmm
import F7ly.Proofs.BuddyRun

/-!
# Reference counts and the buddy tree

The callers' side of the memory manager is a ledger: the blocks they were
handed and how many references they hold on each page. It is kept from the
calls and their replies alone. A block leaves it when the last reference on its
pages is dropped.

`Agree` is what every call preserves: the tree's blocks are the ledger's, and
each count is the number of references held. The tree and the counts never
look at each other in the source, so that they agree is a fact about the calls
in between.
-/

namespace F7ly.Mem

open F7ly.Interval F7ly.Run BuddySystem List

/-- The blocks handed out, each its first page and its length, and the
references held on each page. -/
structure Ledger where
  blocks : List (Nat × Nat)
  refs : Nat → Nat

variable {c : Nat × Nat} {p : Nat} {pa : Address} {b : BuddySystem} {m' : Pmm}
  {pages : List Address} {op : PmmOp}

namespace Ledger

def empty : Ledger := { blocks := [], refs := fun _ => 0 }

/-- A block is handed out, with one reference on each of its pages. -/
def grant (L : Ledger) (c : Nat × Nat) : Ledger :=
  { blocks := c :: L.blocks,
    refs := fun p => if Covers c p then L.refs p + 1 else L.refs p }

def share (L : Ledger) (p : Nat) : Ledger :=
  { L with refs := Function.update L.refs p (L.refs p + 1) }

/-- One reference less on each page of a block, which is given back with the
last. -/
def dropBlock (L : Ledger) (c : Nat × Nat) : Ledger :=
  let refs := fun p => if Covers c p then L.refs p - 1 else L.refs p
  if (range' c.1 c.2).all fun p => refs p = 0 then
    { blocks := L.blocks.filter fun d => d.1 ≠ c.1, refs }
  else { L with refs }

theorem dropBlock_kept {L : Ledger} (hcp : Covers c p) (hmany : 1 < L.refs p) :
    L.dropBlock c = { L with refs := fun q => if Covers c q then L.refs q - 1 else L.refs q } := by
  refine if_neg fun hall => ?_
  have h0 := all_eq_true.mp hall p (mem_range'_1.mpr hcp)
  simp only [hcp, if_true, decide_eq_true_eq] at h0
  omega

theorem dropBlock_gone {L : Ledger} (hone : ∀ p, Covers c p → L.refs p ≤ 1) :
    L.dropBlock c =
      { blocks := L.blocks.filter fun d => d.1 ≠ c.1,
        refs := fun q => if Covers c q then L.refs q - 1 else L.refs q } := by
  refine if_pos (all_eq_true.mpr fun p hp => ?_)
  have hcp : Covers c p := mem_range'_1.mp hp
  have := hone p hcp
  simp only [hcp, if_true, decide_eq_true_eq]
  omega

def drop (L : Ledger) (p : Nat) : Ledger :=
  match L.blocks.find? fun c => c.1 = p with
  | some c => L.dropBlock c
  | none => L

def shareAll (pageOf : Address → Nat) (retained : BitVec 64) :
    Ledger → List Address → Nat → Ledger
  | L, [], _ => L
  | L, pa :: pages, index =>
      shareAll pageOf retained
        (if retained.getLsbD index then L.share (pageOf pa) else L) pages
        (index + 1)

def release (pageOf : Address → Nat) (L : Ledger) (pa : Address) : Ledger :=
  if pa = 0 then L else L.drop (pageOf pa)

end Ledger

def PmmOp.blockLength : PmmOp → Nat
  | .tryAllocPages count | .allocPages count =>
      nextPowerOfTwo (max count.toInt 1).toNat
  | .kmalloc size => nextPowerOfTwo (max (Pmm.sizeToPageNum size).toInt 1).toNat
  | .kcalloc n size =>
      nextPowerOfTwo (max (Pmm.sizeToPageNum (n.toUInt64 * size)).toInt 1).toNat
  | _ => 1

def Ledger.record (L : Ledger) (pageOf : Address → Nat) (op : PmmOp) :
    PmmReply → Ledger
  | .address (some pa) => L.grant (pageOf pa, op.blockLength)
  | .address none => L
  | .retained ok =>
      match op with
      | .retainPage pa => if ok then L.share (pageOf pa) else L
      | _ => L
  | .retainedMask retained =>
      match op with
      | .retainPagesBatch pages => Ledger.shareAll pageOf retained L pages 0
      | _ => L
  | .done =>
      match op with
      | .freePage pa => L.drop (pageOf pa)
      | .freePages pa => Ledger.release pageOf L pa
      | .releasePagesBatch pages => pages.foldl (Ledger.release pageOf) L
      | _ => L

theorem normalize_aligned (arch : Arch) (h : pa.toNat % pageSize = 0) :
    (normalizeManagedPageAddr arch pa).toNat % pageSize = 0 := by
  rw [show pageSize = 2 ^ 12 from rfl] at h ⊢
  cases arch with
  | riscv => exact h
  | loongarch =>
      rw [normalizeManagedPageAddr]
      split
      · rw [toVir, BitVec.toNat_or, BitVec.toNat_and, Nat.or_mod_two_pow,
          Nat.and_mod_two_pow, h, Nat.zero_and, Nat.zero_or]
        rfl
      · exact h

theorem Pmm.pa2pgnm_eq (m : Pmm) (h : pa.toNat % pageSize = 0) : m.pa2pgnm pa = .ok (m.pageOf pa) :=
  if_neg (not_not.mpr (normalize_aligned m.arch h))

theorem Pmm.pa2pgnm_inv {m : Pmm} (h : m.pa2pgnm pa = .ok p) : p = m.pageOf pa := by
  rw [pa2pgnm] at h
  split at h
  · cases h
  · exact (Except.ok.inj h).symm

theorem covers_one {q : Nat} : Covers (p, 1) q ↔ q = p := by
  rw [Covers]
  omega

theorem update_one (refcounts : Nat → UInt16) (p : Nat) (value : UInt16) :
    (fun q => if Covers (p, 1) q then value else refcounts q) =
      Function.update refcounts p value := by
  funext q
  by_cases hq : q = p
  · simp [covers_one, hq]
  · simp [covers_one, hq]

/-- Where the managed pages lie: on page boundaries, without going around, and
on LoongArch in the cached window. -/
structure Pmm.Placed (m : Pmm) : Prop where
  aligned : m.paStart.toNat % pageSize = 0
  fits : m.paStart.toNat + m.pageCount * pageSize ≤ 2 ^ 64
  cached : m.arch = .loongarch → physBase ≤ m.paStart

/-- The tree's blocks are the ledger's, and the counts are the references
held. -/
structure Agree (m : Pmm) (L : Ledger) : Prop where
  placed : m.Placed
  buddy : BuddyRun.Inv m.pageCount ⟨m.buddy, L.blocks⟩
  counted : ∀ p, p < m.pageCount → (m.refcounts p).toNat = L.refs p
  covered : ∀ p, 0 < L.refs p ↔ ∃ c ∈ L.blocks, Covers c p

/-- The managed pages stay the same. -/
structure Pmm.Same (m m' : Pmm) : Prop where
  pageOf : m'.pageOf = m.pageOf
  pageCount : m'.pageCount = m.pageCount

theorem Pmm.Same.trans {m m₁ m₂ : Pmm} (h : m.Same m₁) (h' : m₁.Same m₂) : m.Same m₂ :=
  ⟨h'.pageOf.trans h.pageOf, h'.pageCount.trans h.pageCount⟩

theorem Pmm.Placed.update {m : Pmm} (h : m.Placed) (b : BuddySystem) (refcounts : Nat → UInt16) :
    Pmm.Placed { m with buddy := b, refcounts := refcounts } :=
  ⟨h.aligned, h.fits, h.cached⟩

theorem Pmm.Placed.pageOf_pgnm2pa {m : Pmm} (h : m.Placed)
    (hp : p < m.pageCount) : m.pageOf (m.pgnm2pa p) = p := by
  have hfits := h.fits
  rw [pageSize] at hfits
  have hpa : (m.pgnm2pa p).toNat = p * 4096 + m.paStart.toNat := by
    rw [pgnm2pa, BitVec.toNat_add, BitVec.toNat_ofNat, pageSize]
    omega
  have hnorm : normalizeManagedPageAddr m.arch (m.pgnm2pa p) = m.pgnm2pa p := by
    cases harch : m.arch with
    | riscv => rfl
    | loongarch =>
        refine if_neg fun hlt => ?_
        have hcached := h.cached harch
        rw [BitVec.le_def] at hcached
        have hlow := hlt.2
        rw [BitVec.lt_def] at hlow
        omega
  rw [pageOf, hnorm, BitVec.toNat_sub, hpa, pageSize]
  omega

namespace Agree

variable {m : Pmm} {L : Ledger}

theorem small (h : Agree m L) : m.pageCount ≤ 2 ^ 29 :=
  Nat.le_trans h.buddy.fits (Nat.pow_le_pow_right (by omega) h.buddy.root.small)

theorem inside (h : Agree m L) (hc : c ∈ L.blocks) : 0 < c.2 ∧ c.1 + c.2 ≤ m.pageCount :=
  ⟨(h.buddy.isBlock c hc).pos, (h.buddy.isBlock c hc).inside⟩

theorem apart (h : Agree m L) : L.blocks.Pairwise Apart := h.buddy.apart

theorem eq_of_start (h : Agree m L) {d : Nat × Nat} (hc : c ∈ L.blocks)
    (hd : d ∈ L.blocks) (heq : d.1 = c.1) : d = c := by
  have hpc := (h.inside hc).1
  have hpd := (h.inside hd).1
  exact eq_of_covers h.apart hd hc (p := c.1) ⟨by omega, by omega⟩
    ⟨by omega, by omega⟩

theorem isFree_iff (h : Agree m L) (hp : p < m.pageCount) :
    (m.buddy.queryPage p).isFree = true ↔ L.refs p = 0 := by
  rw [(h.buddy.answers hp).free]
  have hcov := h.covered p
  constructor
  · intro hnone
    by_contra hne
    obtain ⟨c, hc, hcp⟩ := hcov.mp (by omega)
    exact hnone c hc hcp
  · intro h0 c hc hcp
    have := hcov.mpr ⟨c, hc, hcp⟩
    omega

theorem block (h : Agree m L) (hp : p < m.pageCount) (hf : (m.buddy.queryPage p).isFree = false) :
    ((m.buddy.queryPage p).blockOffset, (m.buddy.queryPage p).blockPages) ∈ L.blocks ∧
      Covers ((m.buddy.queryPage p).blockOffset, (m.buddy.queryPage p).blockPages) p :=
  (h.buddy.answers hp).block hf

theorem query (h : Agree m L) (hc : c ∈ L.blocks) (hcp : Covers c p) :
    (m.buddy.queryPage p).inRange = true ∧ (m.buddy.queryPage p).isFree = false ∧
      (m.buddy.queryPage p).blockOffset = c.1 ∧ (m.buddy.queryPage p).blockPages = c.2 := by
  have hp : p < m.pageCount := Nat.lt_of_lt_of_le hcp.2 (h.inside hc).2
  have ha := h.buddy.answers hp
  have hf : (m.buddy.queryPage p).isFree = false := by
    rw [← Bool.not_eq_true, ha.free]
    exact fun hnone => hnone c hc hcp
  exact ⟨ha.inRange, hf, h.buddy.good.queryBlock p c hc hcp⟩

theorem drop_eq (h : Agree m L) (hc : c ∈ L.blocks) : L.drop c.1 = L.dropBlock c := by
  have hfind : L.blocks.find? (fun d => d.1 = c.1) = some c := by
    cases hf : L.blocks.find? (fun d => d.1 = c.1) with
    | none => simpa using find?_eq_none.mp hf c hc
    | some d =>
        have hstart : d.1 = c.1 := by simpa using find?_some hf
        rw [h.eq_of_start hc (mem_of_find?_eq_some hf) hstart]
  rw [Ledger.drop, hfind]

theorem fresh (h : Agree m L) (hb : BuddyRun.Inv m.pageCount ⟨b, c :: L.blocks⟩)
    (hcp : Covers c p) : p < m.pageCount ∧ L.refs p = 0 := by
  have hinside := (hb.isBlock c mem_cons_self).inside
  refine ⟨Nat.lt_of_lt_of_le hcp.2 hinside, ?_⟩
  by_contra hne
  obtain ⟨d, hd, hdp⟩ := (h.covered p).mp (Nat.pos_of_ne_zero hne)
  exact ((pairwise_cons.mp hb.apart).1 d hd).not_covers hcp hdp

theorem refcount_fresh (h : Agree m L) (hb : BuddyRun.Inv m.pageCount ⟨b, c :: L.blocks⟩)
    (hcp : Covers c p) : p < m.pageCount ∧ m.refcounts p = 0 := by
  obtain ⟨hp, hrefs⟩ := h.fresh hb hcp
  exact ⟨hp, UInt16.toNat_inj.mp ((h.counted p hp).trans hrefs)⟩

theorem grant (h : Agree m L) (hb : BuddyRun.Inv m.pageCount ⟨b, c :: L.blocks⟩) :
    Agree { m with
      buddy := b, refcounts := fun p => if Covers c p then 1 else m.refcounts p }
      (L.grant c) := by
  refine ⟨h.placed.update _ _, hb, ?_, ?_⟩
  · intro p hp
    by_cases hcp : Covers c p
    · simp [Ledger.grant, hcp, (h.fresh hb hcp).2]
    · simp [Ledger.grant, hcp, h.counted p hp]
  · intro p
    by_cases hcp : Covers c p
    · simp [Ledger.grant, hcp]
    · simp [Ledger.grant, hcp, h.covered p]

theorem share (h : Agree m L) (hp : p < m.pageCount)
    (h0 : m.refcounts p ≠ 0) (hmax : m.refcounts p ≠ 65535) :
    Agree { m with
      refcounts := Function.update m.refcounts p (m.refcounts p + 1) }
      (L.share p) := by
  have hpos : 0 < L.refs p := by
    rw [← h.counted p hp]
    exact Nat.pos_of_ne_zero fun hz => h0 (UInt16.toNat_inj.mp hz)
  refine ⟨h.placed.update _ _, h.buddy, ?_, ?_⟩
  · intro q hq
    by_cases hqp : q = p
    · subst hqp
      have hlt := (m.refcounts q).toNat_lt
      have hne : (m.refcounts q).toNat ≠ 65535 := fun he =>
        hmax (UInt16.toNat_inj.mp he)
      have hcount := h.counted q hq
      simp only [Ledger.share, Function.update_self]
      change ((m.refcounts q).toNat + 1) % 2 ^ 16 = _
      omega
    · simpa [Ledger.share, hqp] using h.counted q hq
  · intro q
    by_cases hqp : q = p
    · subst hqp
      simpa [Ledger.share] using (h.covered q).mp hpos
    · simpa [Ledger.share, hqp] using h.covered q

theorem dropShared (h : Agree m L) (hc : (p, 1) ∈ L.blocks) (hmany : 1 < m.refcounts p) :
    Agree { m with
      refcounts := Function.update m.refcounts p (m.refcounts p - 1) }
      (L.drop p) := by
  have hp : p < m.pageCount := by
    have := (h.inside hc).2
    omega
  have hlt : 1 < (m.refcounts p).toNat := UInt16.lt_iff_toNat_lt.mp hmany
  have hcount := h.counted p hp
  rw [h.drop_eq hc, Ledger.dropBlock_kept (covers_one.mpr rfl) (by omega)]
  refine ⟨h.placed.update _ _, h.buddy, ?_, ?_⟩
  · intro q hq
    by_cases hqp : q = p
    · subst hqp
      have hle : (1 : UInt16) ≤ m.refcounts q :=
        UInt16.le_iff_toNat_le.mpr (Nat.le_of_lt hlt)
      simp only [Function.update_self, covers_one]
      rw [UInt16.toNat_sub_of_le _ _ hle, hcount]
      rfl
    · simpa [hqp, covers_one] using h.counted q hq
  · intro q
    by_cases hqp : q = p
    · subst hqp
      have hpos : 0 < L.refs q - 1 := by omega
      simpa [covers_one, hpos] using (h.covered q).mp (by omega)
    · simpa [hqp, covers_one] using h.covered q

theorem dropLast (h : Agree m L) (hc : c ∈ L.blocks) (hone : ∀ p, Covers c p → L.refs p = 1)
    (hb : m.buddy.free c.1 = .ok b) :
    Agree { m with
      buddy := b, refcounts := fun p => if Covers c p then 0 else m.refcounts p }
      (L.drop c.1) := by
  obtain ⟨b', hb', hinv⟩ := BuddyRun.free_inv (by have := h.small; omega) h.buddy
    (c.1 : Int)
  obtain rfl : b' = b := Except.ok.inj (hb'.symm.trans hb)
  have hfilter : (L.blocks.filter fun d => (d.1 : Int) ≠ (c.1 : Int)) =
      L.blocks.filter fun d => d.1 ≠ c.1 := by
    refine filter_congr fun d _ => ?_
    simp
  rw [h.drop_eq hc, Ledger.dropBlock_gone fun p hcp => (hone p hcp).le]
  refine ⟨h.placed.update _ _, ?_, ?_, ?_⟩
  · rw [← hfilter]
    exact hinv
  · intro p hp
    by_cases hcp : Covers c p
    · simp [hcp, hone p hcp]
    · simpa [hcp] using h.counted p hp
  · intro p
    by_cases hcp : Covers c p
    · simp only [hcp, if_true, hone p hcp, Nat.lt_irrefl, false_iff]
      intro ⟨d, hd, hdp⟩
      obtain ⟨hd, hne⟩ := mem_filter.mp hd
      have := eq_of_covers h.apart hd hc hdp hcp
      simp [this] at hne
    · simp only [hcp, if_false, h.covered p]
      constructor
      · intro ⟨d, hd, hdp⟩
        refine ⟨d, mem_filter.mpr ⟨hd, ?_⟩, hdp⟩
        simp only [decide_eq_true_eq]
        intro heq
        exact hcp (h.eq_of_start hc hd heq ▸ hdp)
      · intro ⟨d, hd, hdp⟩
        exact ⟨d, (mem_filter.mp hd).1, hdp⟩

end Agree

theorem ofBuddy_eq_ok {α : Type} {r : Except BuddyFault α} {a : α} :
    ofBuddy r = .ok a ↔ r = .ok a := by
  cases r with
  | error e => simp [ofBuddy, Except.mapError]
  | ok b => simp [ofBuddy, Except.mapError]

theorem refcountLoop_ok {pageCount : Nat} {expected : UInt16} (value : UInt16)
    (fault : PmmFault) : ∀ {n index : Nat} {refcounts : Nat → UInt16},
    (∀ p, Covers (index, n) p → p < pageCount ∧ refcounts p = expected) →
      Pmm.refcountLoop pageCount expected value fault n index refcounts =
        .ok fun p => if Covers (index, n) p then value else refcounts p := by
  intro n
  induction n with
  | zero =>
      intro index refcounts _
      rw [Pmm.refcountLoop]
      congr 1
      funext p
      rw [if_neg fun hc => by obtain ⟨h1, h2⟩ := hc; omega]
  | succ n ih =>
      intro index refcounts hall
      have hfirst := hall index ⟨Nat.le_refl _, by omega⟩
      rw [Pmm.refcountLoop, if_neg (by simp [hfirst.1, hfirst.2]), ih]
      · congr 1
        funext p
        by_cases hp : p = index
        · subst hp
          simp [Covers]
        · have hiff : Covers (index + 1, n) p ↔ Covers (index, n + 1) p := by
            simp only [Covers]
            omega
          simp [hiff, Function.update_of_ne hp]
      · rintro p ⟨h1, h2⟩
        rw [Function.update_of_ne (by omega)]
        exact hall p ⟨by omega, by omega⟩

theorem refcountLoop_inv {pageCount : Nat} {expected value : UInt16}
    {fault : PmmFault} : ∀ {n index : Nat} {refcounts r : Nat → UInt16},
    Pmm.refcountLoop pageCount expected value fault n index refcounts = .ok r →
      ∀ p, Covers (index, n) p → p < pageCount ∧ refcounts p = expected := by
  intro n
  induction n with
  | zero =>
      intro index refcounts r _ p ⟨h1, h2⟩
      omega
  | succ n ih =>
      intro index refcounts r h p ⟨h1, h2⟩
      rw [Pmm.refcountLoop] at h
      split at h
      · cases h
      next hfirst =>
      obtain ⟨hlt, heq⟩ := not_or.mp hfirst
      by_cases hp : p = index
      · subst hp
        exact ⟨by omega, not_not.mp heq⟩
      · have hrest := ih h p ⟨by omega, by omega⟩
        rwa [Function.update_of_ne hp] at hrest

theorem alloc_neg {b' : BuddySystem} {size x : Int} (h : b.alloc size = .ok (x, b'))
    (hx : x < 0) : x = -1 := by
  rw [alloc] at h
  dsimp only at h
  generalize nextPowerOfTwo _ = pages at h
  split at h
  · cases h
    rfl
  · split at h
    · cases h
      rfl
    · obtain ⟨offset, -, h⟩ := bind_eq_ok.mp h
      split at h
      · cases h
      next hrange =>
      split at h
      · cases h
      · cases h
        omega

/-- `Alloc`, for the callers' list. -/
theorem alloc_spec {N : Nat} {live : List (Nat × Nat)}
    (hs : BuddyRun.Inv N ⟨b, live⟩) (size : Int32) :
    ∃ x b', b.alloc size.toInt = .ok (x, b') ∧ ((x = -1 ∧ BuddyRun.Inv N ⟨b', live⟩) ∨
        ∃ p : Nat, x = p ∧ BuddyRun.Inv N
          ⟨b', (p, nextPowerOfTwo (max size.toInt 1).toNat) :: live⟩) := by
  obtain ⟨s', hstep, hinv⟩ := BuddyRun.alloc_step hs size
  obtain ⟨⟨x, b'⟩, halloc, hrest⟩ := bind_eq_ok.mp hstep
  refine ⟨x, b', halloc, ?_⟩
  dsimp only at hrest
  split at hrest
  · next hneg =>
      cases hrest
      exact .inl ⟨alloc_neg halloc hneg, hinv⟩
  · next hneg =>
      cases hrest
      exact .inr ⟨x.toNat, by omega, hinv⟩

namespace Agree

variable {m : Pmm} {L : Ledger}

/-- What an allocation of `n` pages leaves and answers. -/
def Served (m : Pmm) (L : Ledger) (n : Nat) (pa : Option Address) (m' : Pmm) : Prop :=
  m.Same m' ∧
    match pa with
    | none => Agree m' L
    | some pa => Agree m' (L.grant (m.pageOf pa, n))

theorem tryAllocPage (h : Agree m L) :
    ∃ pa m', m.tryAllocPage = .ok (pa, m') ∧ Served m L 1 pa m' := by
  obtain ⟨x, b, halloc, hres⟩ := alloc_spec h.buddy 0
  rw [Pmm.tryAllocPage, show (0 : Int) = (0 : Int32).toInt from rfl, halloc]
  dsimp only [ofBuddy, Except.mapError, bind, Except.bind]
  obtain ⟨rfl, hinv⟩ | ⟨p, rfl, hinv⟩ := hres
  · exact ⟨none, _, rfl, ⟨rfl, rfl⟩, h.placed.update b _, hinv, h.counted, h.covered⟩
  · have hone : nextPowerOfTwo (max (0 : Int32).toInt 1).toNat = 1 := by decide
    rw [hone] at hinv
    obtain ⟨hp, hzero⟩ := h.refcount_fresh hinv (covers_one.mpr rfl)
    have hmod : ((p : Int) % 2 ^ 64).toNat = p := by
      have := h.small
      omega
    rw [if_neg (by omega), hmod, if_neg (by omega), Int.toNat_natCast, if_neg (by simp [hzero])]
    refine ⟨_, _, rfl, ⟨rfl, rfl⟩, ?_⟩
    have hagree := h.grant hinv
    rw [update_one] at hagree
    have hpage : m.pageOf (m.pgnm2pa p) = p := h.placed.pageOf_pgnm2pa hp
    change Agree _ (L.grant (m.pageOf (m.pgnm2pa p), 1))
    rw [hpage]
    exact hagree

theorem allocBlock (h : Agree m L) (count : Int32) :
    ∃ x m', m.allocBlock count = .ok (x, m') ∧ m'.pageCount = m.pageCount ∧
      (∀ p, x = some p → p < m.pageCount) ∧ Served m L (nextPowerOfTwo (max count.toInt 1).toNat)
        (x.map m'.pgnm2pa) m' := by
  obtain ⟨x, b, halloc, hres⟩ := alloc_spec h.buddy count
  rw [Pmm.allocBlock, halloc]
  dsimp only [ofBuddy, Except.mapError, bind, Except.bind]
  obtain ⟨rfl, hinv⟩ | ⟨p, rfl, hinv⟩ := hres
  · exact ⟨none, _, rfl, rfl, fun p hp => (nomatch hp), ⟨rfl, rfl⟩, h.placed.update b _,
      hinv, h.counted, h.covered⟩
  · generalize nextPowerOfTwo (max count.toInt 1).toNat = n at hinv
    have hagree := h.grant hinv
    have hpos : Covers (p, n) p :=
      ⟨Nat.le_refl _, Nat.lt_add_of_pos_right (hagree.inside mem_cons_self).1⟩
    obtain ⟨hin, hf, hoff, hlen⟩ := hagree.query mem_cons_self hpos
    have hclaim := refcountLoop_ok 1 .overlapsLivePage fun q hq =>
      h.refcount_fresh hinv (c := (p, n)) hq
    have hp := (h.refcount_fresh hinv hpos).1
    rw [if_neg (by omega), Int.toNat_natCast,
      if_neg (by simp [hin, hf, hoff]), Pmm.claimPages, hlen, hclaim]
    refine ⟨_, _, rfl, rfl, fun q hq => ?_, ⟨rfl, rfl⟩, ?_⟩
    · cases hq
      exact hp
    · change Agree _ (L.grant (m.pageOf (m.pgnm2pa p), n))
      rw [h.placed.pageOf_pgnm2pa hp]
      exact hagree

theorem tryAllocPages (h : Agree m L) (count : Int32) :
    ∃ pa m', m.tryAllocPages count = .ok (pa, m') ∧
      Served m L (nextPowerOfTwo (max count.toInt 1).toNat) pa m' := by
  rw [Pmm.tryAllocPages]
  by_cases hcount : count ≤ 0
  · rw [if_pos hcount]
    exact ⟨none, m, rfl, ⟨rfl, rfl⟩, h⟩
  · rw [if_neg hcount]
    obtain ⟨x, m', hblock, hpages, hx, hserved⟩ := h.allocBlock count
    rw [hblock]
    cases x with
    | none => exact ⟨none, m', rfl, hserved⟩
    | some p =>
        dsimp only [bind, Except.bind]
        rw [if_neg (by have := hx p rfl; omega)]
        exact ⟨_, m', rfl, hserved⟩

theorem kmalloc (h : Agree m L) (size : UInt64) :
    ∃ pa m', m.kmalloc size = .ok (pa, m') ∧
      Served m L (nextPowerOfTwo (max (Pmm.sizeToPageNum size).toInt 1).toNat) pa m' := by
  rw [Pmm.kmalloc]
  split
  · exact ⟨none, m, rfl, ⟨rfl, rfl⟩, h⟩
  · obtain ⟨x, m', hblock, hpages, hx, hserved⟩ :=
      h.allocBlock (Pmm.sizeToPageNum size)
    rw [hblock]
    cases x with
    | none => exact ⟨none, m', rfl, hserved⟩
    | some p =>
        dsimp only [bind, Except.bind]
        rw [if_neg (by have := hx p rfl; omega)]
        exact ⟨_, m', rfl, hserved⟩

/-- The functions that panic when there is no page left return what the others
do. -/
theorem orPanic_eq_ok {r : Except PmmFault (Option Address × Pmm)}
    {x : Option Address × Pmm} (h : Pmm.orPanic r = .ok x) : r = .ok x := by
  obtain ⟨⟨pa, m'⟩, hr, h⟩ := bind_eq_ok.mp h
  cases pa with
  | none => cases h
  | some pa =>
      cases h
      exact hr

theorem refs_of_refcount (h : Agree m L) (hp : p < m.pageCount)
    (hone : m.refcounts p = 1) : L.refs p = 1 := by
  rw [← h.counted p hp, hone]
  rfl

theorem refcount_of_refs (h : Agree m L) (hp : p < m.pageCount)
    (hone : L.refs p = 1) : m.refcounts p = 1 :=
  UInt16.toNat_inj.mp ((h.counted p hp).trans hone)

/-- The loop over a block and the call of `Free` after it. -/
theorem dropPages (h : Agree m L) (hc : c ∈ L.blocks)
    {block : PageQueryResult} (hlen : block.blockPages = c.2) {r : Nat → UInt16}
    (hr : m.dropPages block c.1 = .ok r) (hb : m.buddy.free c.1 = .ok b) :
    Agree { m with buddy := b, refcounts := r } (L.drop c.1) := by
  rw [Pmm.dropPages, hlen] at hr
  have hall := refcountLoop_inv hr
  rw [refcountLoop_ok 0 .blockShared hall] at hr
  cases hr
  exact h.dropLast hc
    (fun p hcp => h.refs_of_refcount (hall p hcp).1 (hall p hcp).2) hb

theorem dropPages_ok (h : Agree m L) (hc : c ∈ L.blocks)
    {block : PageQueryResult} (hlen : block.blockPages = c.2)
    (hone : ∀ q, Covers c q → L.refs q = 1) :
    ∃ r b, m.dropPages block c.1 = .ok r ∧ m.buddy.free c.1 = .ok b := by
  obtain ⟨b, hb, -⟩ := BuddyRun.free_inv (by have := h.small; omega) h.buddy
    (c.1 : Int)
  have hall : ∀ q, Covers (c.1, c.2) q → q < m.pageCount ∧ m.refcounts q = 1 := by
    intro q hq
    have hqp : q < m.pageCount := Nat.lt_of_lt_of_le hq.2 (h.inside hc).2
    exact ⟨hqp, h.refcount_of_refs hqp (hone q hq)⟩
  have hloop := refcountLoop_ok 0 .blockShared hall
  rw [← hlen] at hloop
  exact ⟨_, b, hloop, hb⟩

theorem dropPage (h : Agree m L) (hc : (p, 1) ∈ L.blocks) :
    ∃ m', m.dropPage p = .ok m' ∧ m.Same m' ∧ Agree m' (L.drop p) := by
  rw [Pmm.dropPage]
  split
  · next hmany => exact ⟨_, rfl, ⟨rfl, rfl⟩, h.dropShared hc hmany⟩
  next hmany =>
  obtain ⟨b, hb, -⟩ := BuddyRun.free_inv (by have := h.small; omega) h.buddy
    (p : Int)
  have hp : p < m.pageCount := by
    have := (h.inside hc).2
    omega
  have hone : ∀ q, Covers (p, 1) q → L.refs q = 1 := by
    intro q hq
    cases covers_one.mp hq
    have hpos := (h.covered p).mpr ⟨_, hc, hq⟩
    have hle := UInt16.le_iff_toNat_le.mp (UInt16.not_lt.mp hmany)
    rw [h.counted p hp] at hle
    change _ ≤ 1 at hle
    omega
  have hagree := h.dropLast hc hone hb
  rw [update_one] at hagree
  rw [hb]
  exact ⟨_, rfl, ⟨rfl, rfl⟩, hagree⟩

theorem freePages (h : Agree m L) (hok : m.freePages pa = .ok m') :
    m.Same m' ∧ Agree m' (Ledger.release m.pageOf L pa) := by
  rw [Pmm.freePages] at hok
  rw [Ledger.release]
  split at hok
  · next h0 =>
      cases hok
      rw [if_pos h0]
      exact ⟨⟨rfl, rfl⟩, h⟩
  next h0 =>
  rw [if_neg h0]
  split at hok
  · cases hok
  · obtain ⟨p, hp, hok⟩ := bind_eq_ok.mp hok
    cases Pmm.pa2pgnm_inv hp
    generalize m.pageOf pa = p at hok ⊢
    dsimp only at hok
    split at hok
    · cases hok
    next hq =>
    simp only [not_or, Bool.not_eq_true, not_not] at hq
    obtain ⟨hin, hfree, hoff⟩ := hq
    have hlt : p % 2 ^ 32 < m.pageCount := by
      by_contra hge
      rw [queryPage, if_pos (by rw [h.buddy.pageCount]; omega)] at hin
      cases hin
    obtain ⟨hmem, hcov⟩ := h.block hlt hfree
    -- The block starts at the page, so no bit was lost.
    rw [hoff] at hmem
    obtain ⟨r, hr, hok⟩ := bind_eq_ok.mp hok
    obtain ⟨b, hb, hok⟩ := bind_eq_ok.mp hok
    cases hok
    exact ⟨⟨rfl, rfl⟩, h.dropPages hmem rfl hr (ofBuddy_eq_ok.mp hb)⟩

theorem freePages_ok (h : Agree m L) (ha : pa.toNat % pageSize = 0) (hc : c ∈ L.blocks)
    (hstart : c.1 = m.pageOf pa) (hone : ∀ q, Covers c q → L.refs q = 1) :
    ∃ m', m.freePages pa = .ok m' := by
  rw [Pmm.freePages]
  split
  · exact ⟨m, rfl⟩
  · have hin := h.inside hc
    have hsmall := h.small
    obtain ⟨hr, hf, hoff, hlen⟩ := h.query hc (p := c.1) ⟨by omega, by omega⟩
    obtain ⟨r, b, hloop, hfree⟩ := h.dropPages_ok hc hlen hone
    rw [if_neg (not_not.mpr ha), m.pa2pgnm_eq ha, ← hstart]
    dsimp only [bind, Except.bind]
    rw [Nat.mod_eq_of_lt (show c.1 < 2 ^ 32 by omega),
      if_neg (by simp [hr, hf, hoff]), hloop, hfree]
    exact ⟨_, rfl⟩

theorem freePage (h : Agree m L) (hok : m.freePage pa = .ok m') :
    m.Same m' ∧ Agree m' (L.drop (m.pageOf pa)) := by
  obtain ⟨p, hp, hok⟩ := bind_eq_ok.mp hok
  cases Pmm.pa2pgnm_inv hp
  generalize m.pageOf pa = p at hok ⊢
  split at hok
  · next hge =>
      -- Nothing is handed out there.
      cases hok
      refine ⟨⟨rfl, rfl⟩, ?_⟩
      have hnone : L.blocks.find? (fun c => c.1 = p) = none := by
        refine find?_eq_none.mpr fun c hc heq => ?_
        have hin := h.inside hc
        have : c.1 = p := by simpa using heq
        omega
      rw [Ledger.drop, hnone]
      exact h
  next hlt =>
  have hsmall := h.small
  rw [Nat.mod_eq_of_lt (show p < 2 ^ 32 by omega)] at hok
  dsimp only at hok
  split at hok
  · cases hok
  next hq =>
  simp only [not_or, Bool.not_eq_true] at hq
  obtain ⟨hmem, hcov⟩ := h.block (by omega) hq.2
  split at hok
  · split at hok
    · cases hok
    next hoff =>
    rw [not_not.mp hoff] at hmem
    obtain ⟨r, hr, hok⟩ := bind_eq_ok.mp hok
    obtain ⟨b, hb, hok⟩ := bind_eq_ok.mp hok
    cases hok
    exact ⟨⟨rfl, rfl⟩, h.dropPages hmem rfl hr (ofBuddy_eq_ok.mp hb)⟩
  next hlen =>
  have hone : (m.buddy.queryPage p).blockPages = 1 := by
    have := (h.inside hmem).1
    omega
  rw [hone] at hmem hcov
  rw [← covers_one.mp hcov] at hmem
  obtain ⟨m₁, hm₁, hpage, hagree⟩ := h.dropPage hmem
  cases hm₁.symm.trans hok
  exact ⟨hpage, hagree⟩

theorem freePage_ok (h : Agree m L) (ha : pa.toNat % pageSize = 0) (hc : c ∈ L.blocks)
    (hstart : c.1 = m.pageOf pa) (hone : c.2 = 1 ∨ ∀ q, Covers c q → L.refs q = 1) :
    ∃ m', m.freePage pa = .ok m' := by
  have hin := h.inside hc
  have hsmall := h.small
  obtain ⟨hr, hf, hoff, hlen⟩ := h.query hc (p := c.1) ⟨by omega, by omega⟩
  rw [Pmm.freePage, m.pa2pgnm_eq ha, ← hstart]
  dsimp only [bind, Except.bind]
  rw [if_neg (by omega), Nat.mod_eq_of_lt (show c.1 < 2 ^ 32 by omega),
    if_neg (by simp [hr, hf]), hlen]
  split
  · next hmany =>
      obtain ⟨r, b, hloop, hfree⟩ :=
        h.dropPages_ok hc hlen (hone.resolve_left (by omega))
      rw [if_neg (by simp [hoff]), hloop, hfree]
      exact ⟨_, rfl⟩
  next hmany =>
  have hsingle : c = (c.1, 1) := Prod.ext rfl (by omega)
  rw [hsingle] at hc
  obtain ⟨m', hm', -⟩ := h.dropPage hc
  exact ⟨m', hm'⟩

/-- A round of the batch is `free_page` on a single page. -/
theorem freePage_of_releasePage (h0 : pa ≠ 0)
    (hok : m.releasePage pa = .ok m') : m.freePage pa = .ok m' := by
  rw [Pmm.releasePage, if_neg h0] at hok
  obtain ⟨p, hp, hok⟩ := bind_eq_ok.mp hok
  rw [Pmm.freePage, hp]
  dsimp only [bind, Except.bind]
  split at hok
  · next hge =>
      rw [if_pos hge]
      exact hok
  next hge =>
  rw [if_neg hge]
  dsimp only at hok
  split at hok
  · cases hok
  next hq =>
  rw [if_neg hq]
  split at hok
  · cases hok
  next hone =>
  rw [if_neg (by omega)]
  split at hok
  · cases hok
  · exact hok

theorem releasePage (h : Agree m L) (hok : m.releasePage pa = .ok m') :
    m.Same m' ∧ Agree m' (Ledger.release m.pageOf L pa) := by
  by_cases h0 : pa = 0
  · rw [Pmm.releasePage, if_pos h0] at hok
    cases hok
    rw [Ledger.release, if_pos h0]
    exact ⟨⟨rfl, rfl⟩, h⟩
  · rw [Ledger.release, if_neg h0]
    exact h.freePage (freePage_of_releasePage h0 hok)

theorem releasePage_ok (h : Agree m L)
    (ha : pa.toNat % pageSize = 0) (hc : (m.pageOf pa, 1) ∈ L.blocks) :
    ∃ m', m.releasePage pa = .ok m' := by
  rw [Pmm.releasePage]
  split
  · exact ⟨m, rfl⟩
  · have hin := (h.inside hc).2
    have hsmall := h.small
    obtain ⟨hr, hf, hoff, hlen⟩ := h.query hc (covers_one.mpr rfl)
    have hpos : m.refcounts (m.pageOf pa) ≠ 0 := by
      intro hz
      have hcount := h.counted (m.pageOf pa) (by omega)
      have hheld := (h.covered (m.pageOf pa)).mpr ⟨_, hc, covers_one.mpr rfl⟩
      rw [hz] at hcount
      change 0 = _ at hcount
      omega
    obtain ⟨m', hm', -⟩ := h.dropPage hc
    rw [m.pa2pgnm_eq ha]
    dsimp only [bind, Except.bind]
    rw [if_neg (by omega), Nat.mod_eq_of_lt (show m.pageOf pa < 2 ^ 32 by omega),
      if_neg (by simp [hr, hf]), if_neg (by simp [hoff, hlen]), if_neg hpos]
    exact ⟨m', hm'⟩

theorem releasePagesBatch :
    ∀ {m : Pmm} {L : Ledger} {m' : Pmm}, Agree m L → m.releasePagesBatch pages = .ok m' →
      m.Same m' ∧ Agree m' (pages.foldl (Ledger.release m.pageOf) L) := by
  induction pages with
  | nil =>
      intro m L m' h hok
      cases hok
      exact ⟨⟨rfl, rfl⟩, h⟩
  | cons pa pages ih =>
      intro m L m' h hok
      obtain ⟨m₁, hm₁, hok⟩ := bind_eq_ok.mp hok
      obtain ⟨hpage, hagree⟩ := h.releasePage hm₁
      obtain ⟨hpage', hagree'⟩ := ih hagree hok
      rw [hpage.pageOf] at hagree'
      exact ⟨hpage.trans hpage', hagree'⟩

theorem retainPage (h : Agree m L) {ok : Bool} (hok : m.retainPage pa = .ok (ok, m')) :
    m.Same m' ∧ Agree m' (if ok then L.share (m.pageOf pa) else L) := by
  obtain ⟨p, hp, hok⟩ := bind_eq_ok.mp hok
  cases Pmm.pa2pgnm_inv hp
  split at hok
  · cases hok
    exact ⟨⟨rfl, rfl⟩, h⟩
  next hlt =>
  split at hok
  · cases hok
    exact ⟨⟨rfl, rfl⟩, h⟩
  next hcount =>
  obtain ⟨h0, hmax⟩ := not_or.mp hcount
  cases hok
  exact ⟨⟨rfl, rfl⟩, h.share (by omega) h0 hmax⟩

theorem retainPage_ok (m : Pmm) (ha : pa.toNat % pageSize = 0) :
    ∃ ok m', m.retainPage pa = .ok (ok, m') := by
  rw [Pmm.retainPage, m.pa2pgnm_eq ha]
  dsimp only [bind, Except.bind]
  split
  · exact ⟨false, m, rfl⟩
  · split
    · exact ⟨false, m, rfl⟩
    · exact ⟨true, _, rfl⟩

/-- A round of the loop is `retain_page` without the lock. -/
theorem retainLoop_cons (pa : Address) (pages : List Address) (index : Nat)
    (retained : BitVec 64) (m : Pmm) :
    Pmm.retainLoop (pa :: pages) index retained m = (m.retainPage pa >>= fun r =>
        Pmm.retainLoop pages (index + 1)
          (if r.1 then retained ||| 1#64 <<< index else retained) r.2) := by
  rw [Pmm.retainLoop, Pmm.retainPage]
  cases m.pa2pgnm pa with
  | error fault => rfl
  | ok p =>
      dsimp only [bind, Except.bind]
      by_cases hrange : p ≥ m.pageCount
      · rw [if_pos (.inl hrange), if_pos hrange]
        rfl
      · rw [if_neg hrange]
        by_cases hcount : m.refcounts p = 0 ∨ m.refcounts p = 65535
        · rw [if_pos (.inr hcount), if_pos hcount]
          rfl
        · rw [if_neg (not_or.mpr ⟨hrange, hcount⟩), if_neg hcount]
          rfl

theorem retainLoop_mask : ∀ {index : Nat} {retained mask : BitVec 64} {m m' : Pmm},
    Pmm.retainLoop pages index retained m = .ok (mask, m') →
      ∀ j, j < index → mask.getLsbD j = retained.getLsbD j := by
  induction pages with
  | nil =>
      intro index retained mask m m' hok j _
      cases hok
      rfl
  | cons pa pages ih =>
      intro index retained mask m m' hok j hj
      rw [retainLoop_cons] at hok
      obtain ⟨⟨ok, m₁⟩, -, hok⟩ := bind_eq_ok.mp hok
      rw [ih hok j (by omega)]
      cases ok with
      | false => rfl
      | true =>
          simp [hj]

theorem retainLoop : ∀ {index : Nat}
    {retained mask : BitVec 64} {m m' : Pmm} {L : Ledger}, Agree m L → index + pages.length ≤ 64 →
    (∀ j, index ≤ j → retained.getLsbD j = false) →
    Pmm.retainLoop pages index retained m = .ok (mask, m') → m.Same m' ∧
        Agree m' (Ledger.shareAll m.pageOf mask L pages index) := by
  induction pages with
  | nil =>
      intro index retained mask m m' L h _ _ hok
      cases hok
      exact ⟨⟨rfl, rfl⟩, h⟩
  | cons pa pages ih =>
      intro index retained mask m m' L h hlen hclear hok
      rw [retainLoop_cons] at hok
      obtain ⟨⟨ok, m₁⟩, hretain, hok⟩ := bind_eq_ok.mp hok
      obtain ⟨hpage, hagree⟩ := h.retainPage hretain
      rw [length_cons] at hlen
      -- The entry's bit in the final mask is the one written here.
      have hbit : mask.getLsbD index = ok := by
        rw [retainLoop_mask hok index (by omega)]
        cases ok with
        | false => exact hclear index (Nat.le_refl _)
        | true =>
            simp [show index < 64 by omega]
      have hclear' : ∀ j, index + 1 ≤ j →
          (if ok then retained ||| 1#64 <<< index else retained).getLsbD j = false := by
        intro j hj
        cases ok with
        | false => exact hclear j (by omega)
        | true =>
            rw [if_pos rfl, BitVec.getLsbD_or, BitVec.getLsbD_shiftLeft, hclear j (by omega)]
            simp [show j - index ≠ 0 by omega]
      obtain ⟨hpage', hagree'⟩ := ih hagree (by omega) hclear' hok
      rw [hpage.pageOf] at hagree'
      refine ⟨hpage.trans hpage', ?_⟩
      rw [Ledger.shareAll, hbit]
      exact hagree'

theorem retainLoop_ok (ha : ∀ pa ∈ pages, pa.toNat % pageSize = 0) : ∀ (index : Nat)
    (retained : BitVec 64) (m : Pmm),
    ∃ mask m', Pmm.retainLoop pages index retained m = .ok (mask, m') := by
  induction pages with
  | nil => exact fun index retained m => ⟨retained, m, rfl⟩
  | cons pa pages ih =>
      intro index retained m
      obtain ⟨ok, m₁, hm₁⟩ := retainPage_ok m (ha pa mem_cons_self)
      rw [retainLoop_cons, hm₁]
      exact ih (fun q hq => ha q (mem_cons_of_mem _ hq)) _ _ _

end Agree

/-- What the manager is started with: where the managed pages lie and where
the buddy tree is. -/
structure Boot where
  arch : Arch
  paStart : Address
  pageCount : Nat
  treeStorage : Nat
  treeBytes : Nat
  nonempty : 1 ≤ pageCount
  /-- Page numbers are `int`. -/
  numbered : pageCount ≤ 2 ^ 31
  aligned : paStart.toNat % pageSize = 0
  fits : paStart.toNat + pageCount * pageSize ≤ 2 ^ 64
  cached : arch = .loongarch → physBase ≤ paStart

/-- The manager and its callers' ledger. -/
structure PmmRun where
  pmm : Pmm
  ledger : Ledger

def PmmRun.step (s : PmmRun) (op : PmmOp) : Except PmmFault PmmRun :=
  (s.pmm.step op).map fun r => ⟨r.2, s.ledger.record s.pmm.pageOf op r.1⟩

/-- A whole run: the allocator is initialised and the counts are cleared, and
then the calls are made. -/
def pmmRun (boot : Boot) (ops : List PmmOp) : Except PmmFault PmmRun := do
  let buddy ← ofBuddy
    (initializeSystem boot.pageCount boot.treeStorage boot.treeBytes)
  ops.foldlM PmmRun.step
    ⟨{ arch := boot.arch, paStart := boot.paStart, pageCount := boot.pageCount,
       buddy, refcounts := fun _ => 0 }, .empty⟩

theorem agree_start (boot : Boot)
    (hb : initializeSystem boot.pageCount boot.treeStorage boot.treeBytes = .ok b) :
    Agree { arch := boot.arch, paStart := boot.paStart,
            pageCount := boot.pageCount, buddy := b, refcounts := fun _ => 0 }
      .empty where
  placed := ⟨boot.aligned, boot.fits, boot.cached⟩
  buddy := BuddyRun.inv_initial
    (initializeSystem_initial boot.nonempty boot.numbered hb)
  counted _ _ := rfl
  covered p := by simp [Ledger.empty]

theorem Agree.Served.record {m : Pmm} {L : Ledger}
    {pa : Option Address} (h : Served m L op.blockLength pa m') :
    m.Same m' ∧ Agree m' (L.record m.pageOf op (.address pa)) := by
  cases pa with
  | none => exact h
  | some pa => exact h

theorem agree_alloc {m : Pmm} {L : Ledger} {reply : PmmReply}
    {r : Except PmmFault (Option Address × Pmm)}
    (hspec : ∃ pa m', r = .ok (pa, m') ∧ Agree.Served m L op.blockLength pa m')
    (hok : (r.map fun x => (PmmReply.address x.1, x.2)) = .ok (reply, m')) :
    m.Same m' ∧ Agree m' (L.record m.pageOf op reply) := by
  obtain ⟨pa, m₁, hr, hserved⟩ := hspec
  rw [hr] at hok
  cases hok
  exact hserved.record

theorem agree_step {m : Pmm} {L : Ledger} {reply : PmmReply}
    (h : Agree m L) (hok : m.step op = .ok (reply, m')) :
    m.Same m' ∧ Agree m' (L.record m.pageOf op reply) := by
  cases op with
  | tryAllocPage => exact agree_alloc h.tryAllocPage hok
  | allocPage =>
      obtain ⟨x, hx, heq⟩ := map_eq_ok.mp hok
      have hx' := Agree.orPanic_eq_ok hx
      refine agree_alloc h.tryAllocPage (map_eq_ok.mpr ⟨x, hx', heq⟩)
  | tryAllocPages count => exact agree_alloc (h.tryAllocPages count) hok
  | allocPages count =>
      obtain ⟨x, hx, heq⟩ := map_eq_ok.mp hok
      have hx' := Agree.orPanic_eq_ok hx
      exact agree_alloc (h.tryAllocPages count) (map_eq_ok.mpr ⟨x, hx', heq⟩)
  | kmalloc size => exact agree_alloc (h.kmalloc size) hok
  | kcalloc n size => exact agree_alloc (h.kmalloc (n.toUInt64 * size)) hok
  | freePage pa =>
      obtain ⟨m₁, hm₁, heq⟩ := map_eq_ok.mp hok
      cases heq
      exact h.freePage hm₁
  | freePages pa =>
      obtain ⟨m₁, hm₁, heq⟩ := map_eq_ok.mp hok
      cases heq
      exact h.freePages hm₁
  | retainPage pa =>
      obtain ⟨⟨ok, m₁⟩, hm₁, heq⟩ := map_eq_ok.mp hok
      cases heq
      exact h.retainPage hm₁
  | retainPagesBatch pages =>
      obtain ⟨⟨mask, m₁⟩, hm₁, heq⟩ := map_eq_ok.mp hok
      cases heq
      rw [Pmm.retainPagesBatch] at hm₁
      split at hm₁
      · cases hm₁
      · exact h.retainLoop (by omega) (fun j _ => by simp) hm₁
  | releasePagesBatch pages =>
      obtain ⟨m₁, hm₁, heq⟩ := map_eq_ok.mp hok
      cases heq
      exact h.releasePagesBatch hm₁

/-- A batch that names single pages callers hold, each as often as it is
held. -/
def Ledger.Releasable (pageOf : Address → Nat) : Ledger → List Address → Prop
  | _, [] => True
  | L, pa :: pages =>
      (pa = 0 ∨ pa.toNat % pageSize = 0 ∧ (pageOf pa, 1) ∈ L.blocks) ∧
        Ledger.Releasable pageOf (L.release pageOf pa) pages

/-- A call that returns: it gives back what is held, at the start of its block
and, where the block has more than one page, unshared. The two functions that
panic for want of memory are not among them. -/
def PmmRun.Legal (s : PmmRun) : PmmOp → Prop
  | .allocPage | .allocPages _ => False
  | .freePage pa => pa.toNat % pageSize = 0 ∧
      ∃ c ∈ s.ledger.blocks, c.1 = s.pmm.pageOf pa ∧
        (c.2 = 1 ∨ ∀ q, Covers c q → s.ledger.refs q = 1)
  | .freePages pa => pa.toNat % pageSize = 0 ∧
      ∃ c ∈ s.ledger.blocks, c.1 = s.pmm.pageOf pa ∧ ∀ q, Covers c q → s.ledger.refs q = 1
  | .retainPage pa => pa.toNat % pageSize = 0
  | .retainPagesBatch pages =>
      pages.length ≤ 64 ∧ ∀ pa ∈ pages, pa.toNat % pageSize = 0
  | .releasePagesBatch pages => s.ledger.Releasable s.pmm.pageOf pages
  | _ => True

def Pmm.Allocated (m : Pmm) (p : Nat) : Prop :=
  p < m.pageCount ∧ (m.buddy.queryPage p).isFree = false

def Pmm.Saturated (m : Pmm) (pa : Address) : Prop :=
  pa.toNat % pageSize = 0 ∧ m.pageOf pa < m.pageCount ∧ m.refcounts (m.pageOf pa) = 65535

structure PmmRun.InStep (s : PmmRun) : Prop where
  /-- A page has a count exactly when the tree reports it allocated. -/
  allocated : ∀ p, p < s.pmm.pageCount → (0 < s.pmm.refcounts p ↔ s.pmm.Allocated p)
  /-- The count is the number of references held. -/
  counted : ∀ p, p < s.pmm.pageCount → (s.pmm.refcounts p).toNat = s.ledger.refs p
  /-- A page goes back to the tree exactly when its last reference is
  dropped. -/
  returned : ∀ op s', s.step op = .ok s' → ∀ p, p < s.pmm.pageCount →
    (s.pmm.Allocated p ∧ ¬ s'.pmm.Allocated p ↔ 0 < s.ledger.refs p ∧ s'.ledger.refs p = 0)
  /-- A block is in the tree exactly as long as it is in the ledger. -/
  blocks : ∀ p, p < s.pmm.pageCount → ∀ c, (c ∈ s.ledger.blocks ∧ Covers c p) ↔
    s.pmm.Allocated p ∧ c = ((s.pmm.buddy.queryPage p).blockOffset,
      (s.pmm.buddy.queryPage p).blockPages)
  /-- A retain that would overflow is refused and changes nothing. -/
  refused : ∀ pa, s.pmm.Saturated pa → s.pmm.retainPage pa = .ok (false, s.pmm)
  /-- So is an entry of a batch, whatever came before it. -/
  refusedBatch : ∀ pages pa mask m, pages.length < 64 →
    s.pmm.retainPagesBatch pages = .ok (mask, m) → m.Saturated pa →
      s.pmm.retainPagesBatch (pages ++ [pa]) = .ok (mask, m)
  /-- A legal call returns. -/
  returns : ∀ op, s.Legal op → ∃ s', s.step op = .ok s'

namespace Agree

variable {m : Pmm} {L : Ledger}

theorem allocated_iff (h : Agree m L) (hp : p < m.pageCount) : m.Allocated p ↔ 0 < L.refs p := by
  rw [Pmm.Allocated, ← Bool.not_eq_true, h.isFree_iff hp, Nat.pos_iff_ne_zero]
  exact and_iff_right hp

theorem refused (h : m.Saturated pa) : m.retainPage pa = .ok (false, m) := by
  obtain ⟨ha, hp, hmax⟩ := h
  rw [Pmm.retainPage, m.pa2pgnm_eq ha]
  dsimp only [bind, Except.bind]
  rw [if_neg (by omega), if_pos (.inr hmax)]
  rfl

theorem retainLoop_refused :
    ∀ {index : Nat} {retained mask : BitVec 64} {m m' : Pmm},
    Pmm.retainLoop pages index retained m = .ok (mask, m') → m'.Saturated pa →
      Pmm.retainLoop (pages ++ [pa]) index retained m = .ok (mask, m') := by
  induction pages with
  | nil =>
      intro index retained mask m m' hok hsat
      cases hok
      rw [nil_append, retainLoop_cons, refused hsat]
      rfl
  | cons q pages ih =>
      intro index retained mask m m' hok hsat
      rw [retainLoop_cons] at hok
      obtain ⟨⟨ok, m₁⟩, hm₁, hok⟩ := bind_eq_ok.mp hok
      rw [cons_append, retainLoop_cons, hm₁]
      exact ih hok hsat

theorem releasePagesBatch_ok :
    ∀ {m : Pmm} {L : Ledger}, Agree m L → L.Releasable m.pageOf pages →
      ∃ m', m.releasePagesBatch pages = .ok m' := by
  induction pages with
  | nil => exact fun {m L} _ _ => ⟨m, rfl⟩
  | cons pa pages ih =>
      intro m L h hrel
      obtain ⟨hfirst, hrest⟩ := hrel
      obtain ⟨m₁, hm₁⟩ : ∃ m₁, m.releasePage pa = .ok m₁ := by
        obtain rfl | ⟨ha, hc⟩ := hfirst
        · exact ⟨m, by rfl⟩
        · exact h.releasePage_ok ha hc
      obtain ⟨hpage, hagree⟩ := h.releasePage hm₁
      obtain ⟨m', hm'⟩ := ih hagree (hpage.pageOf ▸ hrest)
      refine ⟨m', ?_⟩
      rw [Pmm.releasePagesBatch, foldlM_cons, hm₁]
      exact hm'

theorem step_ok (h : Agree m L) (hlegal : PmmRun.Legal ⟨m, L⟩ op) : ∃ r, m.step op = .ok r := by
  have hmap : ∀ {α : Type} {x : Except PmmFault α} {f : α → PmmReply × Pmm}
      {a : α}, x = .ok a → ∃ r, x.map f = .ok r := fun hx =>
    ⟨_, map_eq_ok.mpr ⟨_, hx, rfl⟩⟩
  cases op with
  | tryAllocPage =>
      obtain ⟨pa, m', hok, -⟩ := h.tryAllocPage
      exact hmap hok
  | allocPage => exact hlegal.elim
  | tryAllocPages count =>
      obtain ⟨pa, m', hok, -⟩ := h.tryAllocPages count
      exact hmap hok
  | allocPages count => exact hlegal.elim
  | kmalloc size =>
      obtain ⟨pa, m', hok, -⟩ := h.kmalloc size
      exact hmap hok
  | kcalloc n size =>
      obtain ⟨pa, m', hok, -⟩ := h.kmalloc (n.toUInt64 * size)
      exact hmap hok
  | freePage pa =>
      obtain ⟨ha, c, hc, hstart, hone⟩ := hlegal
      obtain ⟨m', hok⟩ := h.freePage_ok ha hc hstart hone
      exact hmap hok
  | freePages pa =>
      obtain ⟨ha, c, hc, hstart, hone⟩ := hlegal
      obtain ⟨m', hok⟩ := h.freePages_ok ha hc hstart hone
      exact hmap hok
  | retainPage pa =>
      obtain ⟨ok, m', hok⟩ := retainPage_ok m hlegal
      exact hmap hok
  | retainPagesBatch pages =>
      obtain ⟨hlen, ha⟩ := hlegal
      obtain ⟨mask, m', hok⟩ := retainLoop_ok ha 0 0 m
      refine hmap (a := (mask, m')) ?_
      rw [Pmm.retainPagesBatch, if_neg (by omega)]
      exact hok
  | releasePagesBatch pages =>
      obtain ⟨m', hok⟩ := h.releasePagesBatch_ok hlegal
      exact hmap hok

end Agree

variable {s : PmmRun}

theorem PmmRun.agree_step {s' : PmmRun} (h : Agree s.pmm s.ledger) (hok : s.step op = .ok s') :
    s.pmm.Same s'.pmm ∧ Agree s'.pmm s'.ledger := by
  obtain ⟨⟨reply, m⟩, hm, heq⟩ := map_eq_ok.mp hok
  cases heq
  exact F7ly.Mem.agree_step h hm

theorem Agree.inStep (h : Agree s.pmm s.ledger) : s.InStep where
  allocated p hp := by
    rw [h.allocated_iff hp, ← h.counted p hp]
    exact UInt16.lt_iff_toNat_lt
  counted := h.counted
  returned op s' hok p hp := by
    obtain ⟨hsame, h'⟩ := PmmRun.agree_step h hok
    rw [h.allocated_iff hp, h'.allocated_iff (hsame.pageCount ▸ hp),
      Nat.pos_iff_ne_zero, Nat.pos_iff_ne_zero, not_not]
  blocks p hp c := by
    constructor
    · intro ⟨hc, hcp⟩
      obtain ⟨-, hf, hoff, hlen⟩ := h.query hc hcp
      exact ⟨⟨hp, hf⟩, Prod.ext hoff.symm hlen.symm⟩
    · intro ⟨⟨_, hf⟩, hc⟩
      rw [hc]
      exact h.block hp hf
  refused pa hsat := refused hsat
  refusedBatch pages pa mask m hlen hok hsat := by
    rw [Pmm.retainPagesBatch, if_neg (by omega)] at hok
    rw [Pmm.retainPagesBatch, if_neg (by simp; omega)]
    exact retainLoop_refused hok hsat
  returns op hlegal := by
    obtain ⟨r, hr⟩ := h.step_ok hlegal
    exact ⟨_, map_eq_ok.mpr ⟨r, hr, rfl⟩⟩

theorem pmmRun_agree {boot : Boot} {ops : List PmmOp}
    (hrun : pmmRun boot ops = .ok s) : Agree s.pmm s.ledger := by
  obtain ⟨b, hb, hrun⟩ := bind_eq_ok.mp hrun
  exact foldlM_inv (fun h hok => (PmmRun.agree_step h hok).2) hrun
    (agree_start boot (ofBuddy_eq_ok.mp hb))

/-- In every run the counts and the tree are in step. -/
theorem pmmRun_inStep (boot : Boot) (ops : List PmmOp) (s : PmmRun)
    (hrun : pmmRun boot ops = .ok s) : s.InStep :=
  (pmmRun_agree hrun).inStep

def fourPages : Boot :=
  { arch := .riscv, paStart := 0x80000000, pageCount := 4, treeStorage := 1,
    treeBytes := 7, nonempty := by decide, numbered := by decide,
    aligned := by decide, fits := by decide, cached := fun h => nomatch h }

/-- A page shared once and freed once, beside a block of two. -/
theorem pmmRun_inStep_fourPages : ∃ s,
    pmmRun fourPages [.tryAllocPage, .tryAllocPages 2, .retainPage 0x80000000,
        .freePage 0x80000000] = .ok s ∧ s.ledger.refs 0 = 1 ∧ s.ledger.refs 3 = 1 ∧ s.InStep := by
  have hrefs : (pmmRun fourPages [.tryAllocPage, .tryAllocPages 2,
      .retainPage 0x80000000, .freePage 0x80000000]).map
        (fun s => (s.ledger.refs 0, s.ledger.refs 3)) = .ok (1, 1) := rfl
  obtain ⟨s, hs, heq⟩ := map_eq_ok.mp hrefs
  exact ⟨s, hs, congrArg Prod.fst heq, congrArg Prod.snd heq, pmmRun_inStep _ _ s hs⟩

end F7ly.Mem
