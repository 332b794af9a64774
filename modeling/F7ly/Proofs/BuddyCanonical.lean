import F7ly.Proofs.BuddyComplete

/-!
# Coalescing is canonical

A well-formed tree has no memory: it is the only one with its blocks, since a node
that is not split has nothing but unused nodes below it and any other node is a
summary. Two runs from the same allocator whose callers hold the same blocks have
therefore the same tree and the same counter, in whatever order they got there, and
one whose callers hold nothing is back where `Initialize` left it.
-/

namespace F7ly.Mem

open F7ly.HeapTree F7ly.Interval BTree BuddySystem List

variable {N : Nat} {b : BuddySystem} {s : BuddyRun}

namespace BTree

theorem Wf.state_eq {h off : Nat} {s : NodeState} {l r : BTree}
    (hw : Wf N (h + 1) off (.node s l r)) (hs : s ≠ .used) : s = summarize l.root r.root := by
  cases hw with
  | node left right whole parts =>
      cases s with
      | unused => exact (summarize_eq_unused.mpr (whole (.inl rfl))).symm
      | used => exact absurd rfl hs
      | split => exact parts (.inl rfl)
      | full => exact parts (.inr rfl)

/-- Of the blocks of two halves, the first half has those that start before the
middle. -/
theorem Wf.filter_left {h off : Nat} {l r : BTree} (hl : Wf N h off l)
    (hr : Wf N h (off + 2 ^ h) r) (hoff : 2 ^ h ∣ off) :
    (blocks h off l ++ blocks h (off + 2 ^ h) r).filter (fun c => c.1 < off + 2 ^ h) =
      blocks h off l := by
  rw [filter_append, filter_eq_self.mpr, filter_eq_nil_iff.mpr, append_nil]
  · intro c hc
    have := (hr.isBlock (Nat.dvd_add hoff (Nat.dvd_refl _)) c hc).lower
    simpa using this
  · intro c hc
    have hb := hl.isBlock hoff c hc
    have := hb.upper
    have := hb.pos
    simp
    omega

theorem Wf.filter_right {h off : Nat} {l r : BTree} (hl : Wf N h off l)
    (hr : Wf N h (off + 2 ^ h) r) (hoff : 2 ^ h ∣ off) :
    (blocks h off l ++ blocks h (off + 2 ^ h) r).filter (fun c => ¬ c.1 < off + 2 ^ h) =
      blocks h (off + 2 ^ h) r := by
  rw [filter_append, filter_eq_nil_iff.mpr, filter_eq_self.mpr, nil_append]
  · intro c hc
    have := (hr.isBlock (Nat.dvd_add hoff (Nat.dvd_refl _)) c hc).lower
    simpa using this
  · intro c hc
    have hb := hl.isBlock hoff c hc
    have := hb.upper
    have := hb.pos
    simp
    omega

theorem Wf.not_mem_halves {h off : Nat} {l r : BTree} (hl : Wf N h off l)
    (hr : Wf N h (off + 2 ^ h) r) (hoff : 2 ^ h ∣ off) :
    (off, 2 ^ (h + 1)) ∉ blocks h off l ++ blocks h (off + 2 ^ h) r := by
  intro hmem
  rcases mem_append.mp hmem with hmem | hmem
  · have := (hl.isBlock hoff _ hmem).upper
    omega
  · have := (hr.isBlock (Nat.dvd_add hoff (Nat.dvd_refl _)) _ hmem).lower
    omega

theorem Wf.eq_of_blocks {h off : Nat} {t t' : BTree} (hw : Wf N h off t)
    (hw' : Wf N h off t') (hoff : 2 ^ h ∣ off)
    (hperm : (blocks h off t).Perm (blocks h off t')) : t = t' := by
  induction hw generalizing t' with
  | leaf inside beyond =>
      rename_i off s
      cases hw' with
      | leaf inside' beyond' =>
          rename_i s'
          rcases Nat.lt_or_ge off N with hlt | hge
          · rcases inside hlt with rfl | rfl <;> rcases inside' hlt with rfl | rfl <;>
              simp_all [blocks]
          · rw [beyond hge, beyond' hge]
  | node left right whole parts ihl ihr =>
      rename_i h off s l r
      have hnode := Wf.node left right whole parts
      cases hw' with
      | node left' right' whole' parts' =>
          rename_i s' l' r'
          have hnode' := Wf.node left' right' whole' parts'
          have hdl : 2 ^ h ∣ off := Nat.dvd_trans (pow_dvd_pow 2 (by omega)) hoff
          have hdr : 2 ^ h ∣ off + 2 ^ h := Nat.dvd_add hdl (Nat.dvd_refl _)
          by_cases hs : s = .used <;> by_cases hs' : s' = .used
          · -- Both are one block, with nothing below.
            subst hs hs'
            have hl := whole (.inr rfl)
            have hl' := whole' (.inr rfl)
            rw [ihl left' hdl (by rw [blocks_unused hl.1, blocks_unused hl'.1]),
              ihr right' hdr (by rw [blocks_unused hl.2, blocks_unused hl'.2])]
          · subst hs
            rw [hnode'.blocks_node hs'] at hperm
            exact absurd (hperm.mem_iff.mp (by simp [blocks])) (left'.not_mem_halves right' hdl)
          · subst hs'
            rw [hnode.blocks_node hs] at hperm
            exact absurd (hperm.mem_iff.mpr (by simp [blocks])) (left.not_mem_halves right hdl)
          · rw [hnode.blocks_node hs, hnode'.blocks_node hs'] at hperm
            have hpl := hperm.filter (fun c => c.1 < off + 2 ^ h)
            have hpr := hperm.filter (fun c => ¬ c.1 < off + 2 ^ h)
            rw [left.filter_left right hdl, left'.filter_left right' hdl] at hpl
            rw [left.filter_right right hdl, left'.filter_right right' hdl] at hpr
            obtain rfl := ihl left' hdl hpl
            obtain rfl := ihr right' hdr hpr
            rw [hnode.state_eq hs, hnode'.state_eq hs']

end BTree

namespace BuddyRun

/-- The state is one that runs from the allocator `b` can reach: the sizes are the
same, and so is what lies beyond the tree. -/
structure From (b : BuddySystem) (s : BuddyRun) : Prop where
  pageCount : s.sys.pageCount = b.pageCount
  capacityPages : s.sys.capacityPages = b.capacityPages
  level : s.sys.level = b.level
  frame : FrameOf b.level 0 b.tree s.sys.tree

theorem From.refl (b : BuddySystem) (live : List (Nat × Nat)) : From b ⟨b, live⟩ :=
  ⟨rfl, rfl, rfl, fun _ _ => rfl⟩

theorem From.write (hs : From b s) {t : Nat → NodeState}
    (hframe : FrameOf s.sys.level 0 s.sys.tree t) (n : Nat) (live : List (Nat × Nat)) :
    From b ⟨⟨s.sys.pageCount, s.sys.capacityPages, n, s.sys.level, t⟩, live⟩ := by
  refine ⟨hs.pageCount, hs.capacityPages, hs.level, fun j hj => ?_⟩
  rw [← hs.frame j hj]
  exact hframe j (hs.level ▸ hj)

theorem From.step {s' : BuddyRun} {op : BuddyOp}
    (hN : N < 2 ^ 64) (hinv : s.Inv N) (hs : From b s) (h : s.step op = .ok s') : From b s' := by
  cases op with
  | alloc size =>
      obtain ⟨k, hk⟩ := exists_nextPowerOfTwo size
      have hspec := hinv.alloc_spec hk
      rcases hT : allocT (2 ^ k) s.sys.level 0 (view s.sys.tree s.sys.level 0)
        with _ | ⟨o, T⟩
      · rw [hT] at hspec
        simp only [BuddyRun.step, hspec] at h
        cases h
        exact hs
      · rw [hT] at hspec
        obtain ⟨t, halloc, -, hframe, -⟩ := hspec
        simp only [BuddyRun.step, halloc] at h
        cases h
        exact hs.write hframe _ _
  | free offset =>
      by_cases hheld : ∃ c ∈ s.live, (c.1 : Int) = offset.toInt
      · obtain ⟨⟨start, len⟩, hmem, hoff⟩ := hheld
        obtain ⟨t, T, hfree, -, hframe, -⟩ := hinv.free_held hN hmem
        simp only [BuddyRun.step, ← hoff, hfree] at h
        cases h
        exact hs.write hframe _ _
      · have hfree := hinv.free_ignored fun c hc heq => hheld ⟨c, hc, heq⟩
        simp only [BuddyRun.step, hfree] at h
        cases h
        exact ⟨hs.pageCount, hs.capacityPages, hs.level, hs.frame⟩

theorem From.sys_eq {s' : BuddyRun} (hs : From b s)
    (hs' : From b s') (hinv : s.Inv N) (hinv' : s'.Inv N) (hlive : s.live.Perm s'.live) :
    s.sys = s'.sys := by
  have hlevel := hs.level.trans hs'.level.symm
  have hblocks := (hinv.live.symm.trans hlive).trans hinv'.live
  have hwf' := hinv'.wf
  rw [← hlevel] at hblocks hwf'
  have hview := hinv.wf.eq_of_blocks hwf' (Nat.dvd_zero _) hblocks
  have htree : s.sys.tree = s'.sys.tree := by
    funext j
    by_cases hj : Below s.sys.level 0 j
    · exact eq_of_view_eq hview hj
    · rw [hs.level] at hj
      rw [hs.frame j hj, hs'.frame j hj]
  have hcount : s.sys.freePageCount = s'.sys.freePageCount := by
    have h1 := hinv.counter
    have h2 := hinv'.counter
    rw [total_perm hlive] at h1
    omega
  have hpages := hs.pageCount.trans hs'.pageCount.symm
  have hcapacity := hs.capacityPages.trans hs'.capacityPages.symm
  revert htree hcount hpages hcapacity hlevel
  cases s.sys
  cases s'.sys
  simp_all

/-- `Free` of one offset after the other. -/
def releases (s : BuddyRun) (offsets : List Int32) : Except BuddyFault BuddyRun :=
  (offsets.map BuddyOp.free).foldlM BuddyRun.step s

theorem releases_spec (hN : N < 2 ^ 64) (offsets : List Int32) :
    ∀ {s : BuddyRun}, s.Inv N → From b s → ∃ s', s.releases offsets = .ok s' ∧ s'.Inv N ∧
      From b s' ∧ s'.live = s.live.filter fun c => ∀ o ∈ offsets, (c.1 : Int) ≠ o.toInt := by
  induction offsets with
  | nil => exact fun {s} hinv hs => ⟨s, rfl, hinv, hs, by simp⟩
  | cons o offsets ih =>
      intro s hinv hs
      obtain ⟨b', hfree, hinv'⟩ := free_inv hN hinv o.toInt
      have hstep : s.step (.free o) = .ok ⟨b', s.live.filter fun c => (c.1 : Int) ≠ o.toInt⟩ := by
        rw [BuddyRun.step, hfree]
        rfl
      obtain ⟨s', hrun, hinv'', hs', hlive⟩ := ih hinv' (hs.step hN hinv hstep)
      refine ⟨s', ?_, hinv'', hs', ?_⟩
      · rw [releases, map_cons, foldlM_cons, hstep]
        exact hrun
      · rw [hlive, filter_filter]
        refine filter_congr fun c _ => ?_
        simp only [← Bool.decide_and, forall_mem_cons, and_comm]

theorem buddyRun_from {storage bytes : Nat} {ops : List BuddyOp}
    (hN : N < 2 ^ 32) (hroom : storage + bytes < 2 ^ 64)
    (h : buddyRun N storage bytes ops = .ok s) :
    ∃ b, initializeSystem N storage bytes = .ok b ∧ From b s ∧ Inv (max N 1) ⟨b, []⟩ := by
  obtain ⟨b, hinit, hrun⟩ := Run.bind_eq_ok.mp h
  have hinv := inv_initial (initializeSystem_reaches hN hroom hinit)
  have hboth : s.Inv (max N 1) ∧ From b s := by
    refine Run.foldlM_inv (I := fun s => s.Inv (max N 1) ∧ From b s) ?_ hrun
      ⟨hinv, .refl b []⟩
    intro s op s' ⟨hs, hfrom⟩ hstep
    obtain ⟨s'', hstep', hs''⟩ := inv_step (show max N 1 < 2 ^ 64 by omega) s op hs
    rw [hstep] at hstep'
    exact ⟨Except.ok.inj hstep' ▸ hs'', hfrom.step (by omega) hs hstep⟩
  exact ⟨b, hinit, hboth.2, hinv⟩

end BuddyRun

/-- From every state of a run, releasing the same offsets in two orders ends in one
state, so that all queries agree; and once every block held is released the state is
the one `Initialize` left, so that all later calls answer as they would have then. -/
theorem buddyRun_canonical {N storage bytes : Nat} {ops : List BuddyOp} {s : BuddyRun}
    (hN : N < 2 ^ 32) (hroom : storage + bytes < 2 ^ 64)
    (h : buddyRun N storage bytes ops = .ok s) :
    (∀ offsets offsets', (∀ o, o ∈ offsets ↔ o ∈ offsets') →
      ∃ s', s.releases offsets = .ok s' ∧ s.releases offsets' = .ok s') ∧
    (∀ offsets : List Int32, (∀ c ∈ s.live, ∃ o ∈ offsets, o.toInt = (c.1 : Int)) →
      ∃ s', s.releases offsets = .ok s' ∧ buddyRun N storage bytes [] = .ok s') := by
  have hinv := BuddyRun.buddyRun_inv hN hroom h
  obtain ⟨b, hinit, hfrom, hfresh⟩ := BuddyRun.buddyRun_from hN hroom h
  have hspec := fun offsets =>
    BuddyRun.releases_spec (show max N 1 < 2 ^ 64 by omega) offsets hinv hfrom
  constructor
  · intro offsets offsets' hsame
    obtain ⟨s₁, hrun₁, hinv₁, hfrom₁, hlive₁⟩ := hspec offsets
    obtain ⟨s₂, hrun₂, hinv₂, hfrom₂, hlive₂⟩ := hspec offsets'
    have hlive : s₁.live = s₂.live := by simp [hlive₁, hlive₂, hsame]
    have hsys := hfrom₁.sys_eq hfrom₂ hinv₁ hinv₂ (.of_eq hlive)
    obtain rfl : s₁ = s₂ := by
      cases s₁
      cases s₂
      exact congrArg₂ BuddyRun.mk hsys hlive
    exact ⟨s₁, hrun₁, hrun₂⟩
  · intro offsets hall
    obtain ⟨s', hrun, hinv', hfrom', hlive⟩ := hspec offsets
    have hnil : s'.live = [] := by
      rw [hlive, filter_eq_nil_iff]
      intro c hc hkept
      obtain ⟨o, ho, heq⟩ := hall c hc
      exact of_decide_eq_true hkept o ho heq.symm
    have hsys := hfrom'.sys_eq (.refl b []) hinv' hfresh (.of_eq hnil)
    refine ⟨s', hrun, ?_⟩
    rw [buddyRun, hinit]
    cases s'
    exact congrArg Except.ok (congrArg₂ BuddyRun.mk hsys.symm hnil.symm)

theorem buddyRun_canonical_five : ∃ s, buddyRun 5 1 15 [.alloc 1, .alloc 2] = .ok s ∧
    ∃ s', s.releases [0, 2] = .ok s' ∧ s.releases [2, 0] = .ok s' := by
  obtain ⟨s, h, -⟩ := Run.map_eq_ok.mp (show (buddyRun 5 1 15 [.alloc 1, .alloc 2]).map
    (fun _ => ()) = .ok () by decide +kernel)
  refine ⟨s, h, (buddyRun_canonical (by decide) (by decide) h).1 _ _ fun o => ?_⟩
  simp [or_comm]

/-- The state of the allocator is a function of the blocks that are out: two runs that
leave their callers with the same blocks have the same tree and the same counter,
whatever calls they made. -/
theorem buddyRun_determined {N storage bytes : Nat} {ops ops' : List BuddyOp} {s s' : BuddyRun}
    (hN : N < 2 ^ 32) (hroom : storage + bytes < 2 ^ 64)
    (h : buddyRun N storage bytes ops = .ok s) (h' : buddyRun N storage bytes ops' = .ok s')
    (hlive : s.live.Perm s'.live) : s.sys = s'.sys := by
  obtain ⟨b, hinit, hfrom, -⟩ := BuddyRun.buddyRun_from hN hroom h
  obtain ⟨b', hinit', hfrom', -⟩ := BuddyRun.buddyRun_from hN hroom h'
  obtain rfl := Except.ok.inj (hinit.symm.trans hinit')
  exact hfrom.sys_eq hfrom' (BuddyRun.buddyRun_inv hN hroom h)
    (BuddyRun.buddyRun_inv hN hroom h') hlive

/-- Two pages are taken and split again, or one is taken at once. -/
theorem buddyRun_determined_five : ∃ s s', buddyRun 5 1 15 [.alloc 2, .free 0, .alloc 1] = .ok s ∧
    buddyRun 5 1 15 [.alloc 1] = .ok s' ∧ s.sys = s'.sys := by
  have hlive : (buddyRun 5 1 15 [.alloc 2, .free 0, .alloc 1]).map (·.live) = .ok [(0, 1)] ∧
      (buddyRun 5 1 15 [.alloc 1]).map (·.live) = .ok [(0, 1)] := by
    decide +kernel
  obtain ⟨s, h, heq⟩ := Run.map_eq_ok.mp hlive.1
  obtain ⟨s', h', heq'⟩ := Run.map_eq_ok.mp hlive.2
  exact ⟨s, s', h, h', buddyRun_determined (by decide) (by decide) h h'
    (.of_eq (heq.trans heq'.symm))⟩

end F7ly.Mem
