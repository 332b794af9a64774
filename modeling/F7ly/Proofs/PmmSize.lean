import F7ly.Proofs.BuddyComplete
import F7ly.Proofs.Pmm

/-!
# How much memory a request gets

A request for bytes passes through a 64-bit product, a division by the page size and a
conversion to `int` before the buddy allocator sees it. Each of them can lose high bits,
and what comes out is then served like any other request. Since no block has more than
`2 ^ 29` pages, a request that lost bits is never served in full: whether the answer is
large enough is a matter of the request alone, and whether there is an answer one of the
pages that were left of it.
-/

namespace F7ly.Mem

open F7ly.Interval F7ly.Run BuddySystem

/-- A request for kernel memory. -/
inductive Request where
  | kmalloc (size : UInt64)
  | kcalloc (n : UInt32) (size : UInt64)

namespace Request

def bytes : Request → Nat
  | .kmalloc size => size.toNat
  | .kcalloc n size => n.toNat * size.toNat

/-- The bytes that reach `kmalloc_impl`. -/
def size : Request → UInt64
  | .kmalloc size => size
  | .kcalloc n size => n.toUInt64 * size

/-- The pages that are left of the request when it is compared with `page_count`. -/
def pages (r : Request) : Nat := (Pmm.sizeToPageNum r.size).toUInt32.toNat

def serve (m : Pmm) : Request → Except PmmFault (Option Address × Pmm)
  | .kmalloc size => m.kmalloc size
  | .kcalloc n size => m.kcalloc n size

theorem serve_eq (m : Pmm) (r : Request) : r.serve m = m.kmalloc r.size := by
  cases r <;> rfl

theorem size_toNat (r : Request) : r.size.toNat = r.bytes % 2 ^ 64 := by
  cases r with
  | kmalloc size => exact (Nat.mod_eq_of_lt size.toNat_lt).symm
  | kcalloc n size => rw [Request.size, UInt64.toNat_mul, UInt32.toNat_toUInt64, bytes]

theorem pages_eq (r : Request) :
    r.pages = (r.bytes % 2 ^ 64 + (pageSize - 1)) / pageSize % 2 ^ 32 := by
  have hceil : ∀ n : Nat, n / pageSize + (if n % pageSize ≠ 0 then 1 else 0) =
      (n + (pageSize - 1)) / pageSize := by
    intro n
    unfold pageSize
    split <;> omega
  rw [pages, Pmm.sizeToPageNum, hceil, size_toNat]
  exact UInt32.toNat_ofNat

/-- A request for fewer than `2 ^ 32` pages loses nothing. -/
theorem bytes_le {r : Request} (h : r.bytes ≤ (2 ^ 32 - 1) * pageSize) :
    r.bytes ≤ r.pages * pageSize := by
  rw [pages_eq]
  rw [show (2 ^ 32 - 1) * pageSize = 17592186040320 from rfl] at h
  unfold pageSize
  omega

end Request

/-- The block at `pa`, as the tree reports it, is one of at least `bytes` bytes that the
manager has taken from nobody and counts once. `s` is the state before and `m` the one
after. -/
structure PmmRun.Granted (s : PmmRun) (m : Pmm) (pa : Address) (bytes : Nat) : Prop where
  address : m.pgnm2pa (m.pageOf pa) = pa
  start : (m.buddy.queryPage (m.pageOf pa)).blockOffset = m.pageOf pa
  large : bytes ≤ (m.buddy.queryPage (m.pageOf pa)).blockPages * pageSize
  inside : m.pageOf pa + (m.buddy.queryPage (m.pageOf pa)).blockPages ≤ m.pageCount
  taken : ∀ p, Covers (m.pageOf pa, (m.buddy.queryPage (m.pageOf pa)).blockPages) p →
    ¬s.pmm.Allocated p ∧ s.ledger.refs p = 0 ∧ m.Allocated p ∧ m.refcounts p = 1
  /-- No caller holds a block that overlaps it. -/
  apart : ∀ c ∈ s.ledger.blocks, Apart (m.pageOf pa, (m.buddy.queryPage (m.pageOf pa)).blockPages) c

namespace Agree

variable {m : Pmm} {L : Ledger}

theorem allocBlock_cases {count : Int32} {x : Option Nat} {m' : Pmm} {r : Int}
    {b : BuddySystem} (halloc : m.buddy.alloc count.toInt = .ok (r, b))
    (hblock : m.allocBlock count = .ok (x, m')) :
    x = none ∧ r < 0 ∧ m' = { m with buddy := b } ∨
      0 ≤ r ∧ ∃ p refcounts, x = some p ∧ m' = { m with buddy := b, refcounts } := by
  rw [Pmm.allocBlock, halloc] at hblock
  dsimp only [ofBuddy, Except.mapError, bind, Except.bind] at hblock
  split at hblock
  · next hneg =>
    cases hblock
    exact .inl ⟨rfl, hneg, rfl⟩
  next hneg =>
  split at hblock
  · cases hblock
  · split at hblock
    · cases hblock
    · cases hblock
      exact .inr ⟨by omega, _, _, rfl, rfl⟩

/-- `kmalloc` answers exactly if the longest free block is long enough for the pages that
are left of the request, and leaves everything as it was if not. -/
theorem kmalloc_spec (h : Agree m L) (size : UInt64) :
    if m.pageCount < (Pmm.sizeToPageNum size).toUInt32.toNat ∨ m.buddy.getMaxFreeBlockPages <
          nextPowerOfTwo (max (Pmm.sizeToPageNum size).toUInt32.toNat 1) then
      m.kmalloc size = .ok (none, m) else
      ∃ p m', m.kmalloc size = .ok (some (m.pgnm2pa p), m') ∧ p < m.pageCount ∧
        m.Same m' ∧ m'.pgnm2pa = m.pgnm2pa ∧ Agree m' (L.grant
          (p, nextPowerOfTwo (max (Pmm.sizeToPageNum size).toUInt32.toNat 1))) := by
  generalize hcount : Pmm.sizeToPageNum size = count
  by_cases hmany : m.pageCount < count.toUInt32.toNat
  · rw [if_pos (.inl hmany), Pmm.kmalloc, hcount]
    exact if_pos hmany
  have hsmall := h.small
  have hint : (max count.toInt 1).toNat = max count.toUInt32.toNat 1 := by
    have hword := count.toUInt32.toBitVec.toInt_eq_toNat_cond
    change count.toInt = _ at hword
    have hsame : count.toUInt32.toBitVec.toNat = count.toUInt32.toNat := rfl
    omega
  obtain ⟨r, b, halloc, -, hmax, hsame⟩ := h.buddy.alloc_answer count
  obtain ⟨x, m', hblock, hpages, hx, hserved⟩ := h.allocBlock count
  rw [hint] at hmax hserved
  rcases allocBlock_cases halloc hblock with ⟨rfl, hneg, rfl⟩ |
    ⟨hpos, p, refcounts, rfl, rfl⟩
  · have hr := alloc_neg halloc hneg
    cases hsame hr
    rw [if_pos (.inr (hmax.mp hr)), Pmm.kmalloc, hcount, if_neg hmany, hblock]
    rfl
  · rw [if_neg (not_or.mpr ⟨hmany, fun hlt => by have := hmax.mpr hlt; omega⟩)]
    have hp := hx p rfl
    refine ⟨p, _, ?_, hp, hserved.1, rfl, ?_⟩
    · rw [Pmm.kmalloc, hcount, if_neg hmany, hblock]
      exact if_neg (Nat.not_le.mpr hp)
    · have hgrant := hserved.2
      change Agree _ (L.grant (m.pageOf (m.pgnm2pa p), _)) at hgrant
      rwa [h.placed.pageOf_pgnm2pa hp] at hgrant

theorem granted {s : PmmRun} (h : Agree s.pmm s.ledger) {p n : Nat} (hp : p < s.pmm.pageCount)
    (hsame : s.pmm.Same m) (hpa : m.pgnm2pa = s.pmm.pgnm2pa)
    (hgrant : Agree m (s.ledger.grant (p, n))) (bytes : Nat) :
    s.Granted m (s.pmm.pgnm2pa p) bytes ↔ bytes ≤ n * pageSize := by
  have hpage : m.pageOf (s.pmm.pgnm2pa p) = p := by
    rw [hsame.pageOf, h.placed.pageOf_pgnm2pa hp]
  have hpos := (hgrant.inside List.mem_cons_self).1
  have hinside := (hgrant.inside List.mem_cons_self).2
  obtain ⟨-, -, hoff, hlen⟩ :=
    hgrant.query List.mem_cons_self (p := p) ⟨Nat.le_refl _, Nat.lt_add_of_pos_right hpos⟩
  constructor
  · intro hg
    have hlarge := hg.large
    rwa [hpage, hlen] at hlarge
  · intro hlarge
    refine ⟨?_, ?_, ?_, ?_, ?_, ?_⟩ <;> rw [hpage]
    · rw [hpa]
    · exact hoff
    · rwa [hlen]
    · rwa [hlen]
    · rw [hlen]
      intro q hq
      have hbuddy := hgrant.buddy
      rw [hsame.pageCount] at hbuddy
      obtain ⟨hqs, hfree⟩ := h.fresh hbuddy hq
      have hqm : q < m.pageCount := hsame.pageCount ▸ hqs
      have hone : (s.ledger.grant (p, n)).refs q = 1 := by
        simp [Ledger.grant, hq, hfree]
      refine ⟨?_, hfree, ?_, hgrant.refcount_of_refs hqm hone⟩
      · rw [h.allocated_iff hqs]
        omega
      · rw [hgrant.allocated_iff hqm]
        omega
    · rw [hlen]
      exact (List.pairwise_cons.mp hgrant.apart).1

end Agree

/-- In every state that a run reaches, every request returns, and an answer is a block of
at least the bytes asked for exactly if either these are fewer than `2 ^ 32` pages, or the
pages left of the request are more than there are, or no free block is that long. -/
theorem pmmRun_request_iff (boot : Boot) (ops : List PmmOp) (s : PmmRun)
    (hrun : pmmRun boot ops = .ok s) (r : Request) :
    ∃ answer m, r.serve s.pmm = .ok (answer, m) ∧
      ((∀ pa, answer = some pa → s.Granted m pa r.bytes) ↔
        r.bytes ≤ (2 ^ 32 - 1) * pageSize ∨ s.pmm.pageCount < r.pages ∨
          s.pmm.buddy.getMaxFreeBlockPages < nextPowerOfTwo (max r.pages 1)) := by
  have h := pmmRun_agree hrun
  have hspec := h.kmalloc_spec r.size
  rw [← Request.serve_eq] at hspec
  change if s.pmm.pageCount < r.pages ∨
    s.pmm.buddy.getMaxFreeBlockPages < nextPowerOfTwo (max r.pages 1) then _ else _ at hspec
  split at hspec
  · next hnone => exact ⟨none, s.pmm, hspec, fun _ => .inr hnone, fun _ pa hpa => nomatch hpa⟩
  next hsome =>
  obtain ⟨p, m, hok, hp, hsame, hpa, hgrant⟩ := hspec
  refine ⟨_, m, hok, ?_⟩
  rw [or_iff_left hsome]
  have hinside := (hgrant.inside List.mem_cons_self).2
  have hsmall := hgrant.small
  have hgranted := h.granted hp hsame hpa hgrant r.bytes
  constructor
  · intro hall
    have hlarge := hgranted.mp (hall _ rfl)
    have hpages : nextPowerOfTwo (max r.pages 1) ≤ 2 ^ 32 - 1 :=
      ((Nat.le_add_left _ p).trans hinside).trans (hsmall.trans (by decide))
    exact hlarge.trans (Nat.mul_le_mul_right _ hpages)
  · intro hfew pa heq
    cases heq
    refine hgranted.mpr ?_
    have hpower := nextPowerOfTwo_eq (x := max r.pages 1) (by have := h.small; omega)
    have hle := Nat.le_pow_clog Nat.one_lt_two (max r.pages 1)
    rw [← hpower] at hle
    calc r.bytes ≤ r.pages * pageSize := Request.bytes_le hfew
      _ ≤ nextPowerOfTwo (max r.pages 1) * pageSize :=
        Nat.mul_le_mul_right _ ((Nat.le_max_left _ _).trans hle)

/-- Five thousand bytes of four pages. -/
theorem pmmRun_request_iff_fourPages : ∃ s, pmmRun fourPages [.tryAllocPage] = .ok s ∧
    ∃ answer m, (Request.kmalloc 5000).serve s.pmm = .ok (answer, m) ∧
      ((∀ pa, answer = some pa → s.Granted m pa 5000) ↔
        5000 ≤ (2 ^ 32 - 1) * pageSize ∨ s.pmm.pageCount < (Request.kmalloc 5000).pages ∨
          s.pmm.buddy.getMaxFreeBlockPages < nextPowerOfTwo (max (Request.kmalloc 5000).pages 1)) :=
  ⟨_, rfl, pmmRun_request_iff fourPages [.tryAllocPage] _ rfl (.kmalloc 5000)⟩

/-- A request for more than 16 TiB and a product that leaves 64 bits are each answered
with a single page. -/
theorem pmmRun_request_short : ∃ s, pmmRun fourPages [] = .ok s ∧
    ∀ r ∈ [Request.kmalloc (2 ^ 44 + 4096), Request.kcalloc 2 (2 ^ 63 + 2048)],
      ∃ pa m, r.serve s.pmm = .ok (some pa, m) ∧ ¬s.Granted m pa r.bytes := by
  refine ⟨_, rfl, fun r hr => ?_⟩
  simp only [List.mem_cons, List.not_mem_nil, or_false] at hr
  rcases hr with rfl | rfl
  · refine ⟨_, _, rfl, fun h => ?_⟩
    exact absurd h.large (by decide)
  · refine ⟨_, _, rfl, fun h => ?_⟩
    exact absurd h.large (by decide)

end F7ly.Mem
