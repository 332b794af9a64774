import F7ly.Lib.Ring
import F7ly.Lib.Tally
import F7ly.Fs.VirtioBlk
import F7ly.Proofs.MClock

/-!
# The descriptors of the block driver

What the queue is for is said by `Flights`: the requests the device has, each with its
chain, in three lists. Those in the avail ring that the device has not read yet, those
it works on, and those that are back in the used ring. `Turn` says what each round of the
driver and each move of the device does to them: it takes one request one list further,
and a round of the used loop takes the first one that is back out and marks it completed.
`Holds` says how the tables, the rings and the counters of the driver stand for the three
lists; every step keeps it, takes its turn and does not panic. The counters wrap at a
multiple of the size of the rings and there are never more chains than a third of it, so a
full turn of a counter is never mistaken for an empty ring.
-/

namespace F7ly.Fs.Virtio

open F7ly.Tally VirtioBlkQueue Function List

/-- A request and its chain. -/
structure Flight where
  request : IoRequest
  head : Nat
  middle : Nat
  tail : Nat

def Flight.descs (f : Flight) : List Nat := [f.head, f.middle, f.tail]

structure Flights where
  waiting : List Flight := []
  working : List Flight := []
  back : List Flight := []

namespace Flights

def all (a : Flights) : List Flight := a.waiting ++ (a.working ++ a.back)

end Flights

variable {q' : VirtioBlkQueue} {i : Nat} {fs : List Flight} {chain : DescChain}

namespace VirtioBlkQueue

variable {q : VirtioBlkQueue}

/-- The descriptors of `f` are linked as a chain. -/
structure Linked (q : VirtioBlkQueue) (f : Flight) : Prop where
  head : q.desc f.head = ⟨.header f.head, 16, descFlagNext, f.middle⟩
  middle : q.desc f.middle = ⟨.data f.request.id, f.request.dataLen,
    (if f.request.write then 0 else descFlagWrite) ||| descFlagNext, f.tail⟩
  tail : q.desc f.tail = ⟨.status f.head, 1, descFlagWrite, 0⟩

theorem Linked.congr {f : Flight} (h : q.Linked f)
    (hdesc : ∀ i ∈ f.descs, q'.desc i = q.desc i) : q'.Linked f where
  head := by rw [hdesc f.head (by simp [Flight.descs]), h.head]
  middle := by rw [hdesc f.middle (by simp [Flight.descs]), h.middle]
  tail := by rw [hdesc f.tail (by simp [Flight.descs]), h.tail]

theorem Linked.head_next {f : Flight} (h : q.Linked f) :
    ¬(q.desc f.head).flags &&& descFlagNext = 0 := by
  rw [h.head]
  show ¬(1 &&& 1 : Nat) = 0
  decide

theorem Linked.tail_last {f : Flight} (h : q.Linked f) :
    (q.desc f.tail).flags &&& descFlagNext = 0 := by
  rw [h.tail]
  show (2 &&& 1 : Nat) = 0
  decide

theorem Linked.middle_next {f : Flight} (h : q.Linked f) :
    ¬(q.desc f.middle).flags &&& descFlagNext = 0 := by
  rw [h.middle]
  dsimp only
  cases f.request.write
  · decide
  · decide

theorem firstFree_some (h : q.firstFree = some i) : i < queueSize ∧ q.free i = true :=
  ⟨mem_range.mp (mem_of_find?_eq_some h), find?_some h⟩

theorem firstFree_of_pos (h : 0 < q.freeCount) : ∃ i, q.firstFree = some i := by
  obtain ⟨i, hi, hfree⟩ := countP_pos_iff.mp h
  exact Option.isSome_iff_exists.mp (find?_isSome.mpr ⟨i, hi, hfree⟩)

theorem takeDesc_free (q : VirtioBlkQueue) (i j : Nat) :
    (q.takeDesc i).free j = if j = i then false else q.free j := update_apply ..

theorem freeCount_takeDesc (hi : i < queueSize) (hfree : q.free i = true) :
    (q.takeDesc i).freeCount + 1 = q.freeCount := by
  have h := countP_change (p := q.free) (q := (q.takeDesc i).free) (i := i)
    nodup_range (mem_range.mpr hi) fun j _ hj => by
      rw [takeDesc_free, if_neg hj]
  rw [hfree, takeDesc_free, if_pos rfl] at h
  exact h

theorem takeDesc_ne {j : Nat} (h : (q.takeDesc i).free j = true) : j ≠ i ∧ q.free j = true := by
  rw [takeDesc_free] at h
  split at h
  · cases h
  · next hj => exact ⟨hj, h⟩

theorem allocDescChain_spec (h : q.hasFreeDescChain = true) :
    ∃ chain : DescChain, q.allocDescChain = some (some chain,
        ((q.takeDesc chain.head).takeDesc chain.middle).takeDesc chain.tail) ∧
      [chain.head, chain.middle, chain.tail].Nodup ∧
      ∀ i ∈ [chain.head, chain.middle, chain.tail], i < queueSize ∧ q.free i = true := by
  have hcount : 3 ≤ q.freeCount := of_decide_eq_true h
  obtain ⟨i, hi⟩ := firstFree_of_pos (q := q) (by omega)
  obtain ⟨hilt, hifree⟩ := firstFree_some hi
  have hcount₁ := freeCount_takeDesc hilt hifree
  obtain ⟨j, hj⟩ := firstFree_of_pos (q := q.takeDesc i) (by omega)
  obtain ⟨hjlt, hjfree⟩ := firstFree_some hj
  have hcount₂ := freeCount_takeDesc hjlt hjfree
  obtain ⟨k, hk⟩ := firstFree_of_pos (q := (q.takeDesc i).takeDesc j) (by omega)
  obtain ⟨hklt, hkfree⟩ := firstFree_some hk
  obtain ⟨hji, hjfree⟩ := takeDesc_ne hjfree
  obtain ⟨hkj, hkfree⟩ := takeDesc_ne hkfree
  obtain ⟨hki, hkfree⟩ := takeDesc_ne hkfree
  refine ⟨⟨i, j, k⟩, ?_, ?_, ?_⟩
  · rw [allocDescChain, hi]
    dsimp only
    rw [hj]
    dsimp only
    rw [hk]
  · simp [hji.symm, hki.symm, hkj.symm]
  · simp [hilt, hifree, hjlt, hjfree, hklt, hkfree]

def cleared (q : VirtioBlkQueue) (idx : Nat) : VirtioBlkQueue :=
  { q with desc := update q.desc idx {}, free := update q.free idx true }

theorem cleared_desc {idx : Nat} (h : i ≠ idx) : (q.cleared idx).desc i = q.desc i :=
  update_of_ne h ..

theorem cleared_free (q : VirtioBlkQueue) (i idx : Nat) :
    (q.cleared idx).free i = if i = idx then true else q.free i := update_apply ..

theorem freeChainLoop_round {fuel idx : Nat} (hidx : idx < queueSize) :
    freeChainLoop (fuel + 1) q idx =
      if (q.desc idx).flags &&& descFlagNext = 0 then some (q.cleared idx)
      else freeChainLoop fuel (q.cleared idx) (q.desc idx).next := by
  rw [freeChainLoop, freeDesc, if_neg (Nat.not_le.mpr hidx), Option.bind_eq_bind, Option.bind_some]
  rfl

theorem freeChain_spec {f : Flight} (h : q.Linked f) (hnd : f.descs.Nodup)
    (hlt : ∀ i ∈ f.descs, i < queueSize) :
    ∃ desc free, q.freeChain f.head = some { q with desc := desc, free := free } ∧
      (∀ i ∉ f.descs, desc i = q.desc i) ∧
      ∀ i, free i = if i ∈ f.descs then true else q.free i := by
  obtain ⟨hhm, hht, hmt⟩ : f.head ≠ f.middle ∧ f.head ≠ f.tail ∧ f.middle ≠ f.tail := by
    simpa [Flight.descs, and_assoc] using hnd
  have hhead := hlt f.head (by simp [Flight.descs])
  have hmiddle := hlt f.middle (by simp [Flight.descs])
  have htail := hlt f.tail (by simp [Flight.descs])
  have hfreed : q.freeChain f.head =
      some (((q.cleared f.head).cleared f.middle).cleared f.tail) := by
    rw [freeChain, show queueSize = 125 + 1 + 1 + 1 from rfl, freeChainLoop_round hhead,
      if_neg h.head_next, h.head]
    rw [freeChainLoop_round hmiddle, cleared_desc hhm.symm, if_neg h.middle_next, h.middle]
    rw [freeChainLoop_round htail, cleared_desc hmt.symm, cleared_desc hht.symm, if_pos h.tail_last]
  refine ⟨(((q.cleared f.head).cleared f.middle).cleared f.tail).desc,
    (((q.cleared f.head).cleared f.middle).cleared f.tail).free, hfreed, fun i hi => ?_,
    fun i => ?_⟩
  · simp only [Flight.descs, mem_cons, not_mem_nil, or_false, not_or] at hi
    rw [cleared_desc hi.2.2, cleared_desc hi.2.1, cleared_desc hi.1]
  · simp only [cleared_free, Flight.descs]
    by_cases h₁ : i = f.head
    · simp [h₁]
    by_cases h₂ : i = f.middle
    · simp [h₂]
    by_cases h₃ : i = f.tail
    · simp [h₃]
    simp [h₁, h₂]

theorem chainEnd_spec {f : Flight} (h : q.Linked f) : q.chainEnd queueSize f.head = f.tail := by
  rw [show queueSize = 125 + 1 + 1 + 1 from rfl, chainEnd, if_neg h.head_next, h.head]
  rw [chainEnd, if_neg h.middle_next, h.middle]
  rw [chainEnd, if_pos h.tail_last]

theorem writeStatus_spec {f : Flight} (h : q.Linked f) :
    q.writeStatus f.head =
      { q with info := update q.info f.head { q.info f.head with status := 0 } } := by
  rw [writeStatus, chainEnd_spec h, h.tail]

/-- The tables stand for the requests in flight. -/
structure Tables (q : VirtioBlkQueue) (fs : List Flight) : Prop where
  disjoint : (fs.flatMap Flight.descs).Nodup
  inRange : ∀ i ∈ fs.flatMap Flight.descs, i < queueSize
  free : ∀ i, i < queueSize → (q.free i = true ↔ i ∉ fs.flatMap Flight.descs)
  inflight : q.inflightCount = fs.length
  linked : ∀ f ∈ fs, q.Linked f
  request : ∀ f ∈ fs, (q.info f.head).request = some f.request

theorem Tables.perm {fs' : List Flight} (h : q.Tables fs) (hp : fs.Perm fs') : q.Tables fs' := by
  have hd := hp.flatMap_right Flight.descs
  refine ⟨hd.nodup_iff.mp h.disjoint, fun i hi => h.inRange i (hd.mem_iff.mpr hi),
    fun i hi => ?_, ?_, fun f hf => h.linked f (hp.mem_iff.mpr hf),
    fun f hf => h.request f (hp.mem_iff.mpr hf)⟩
  · rw [h.free i hi, hd.mem_iff]
  · rw [h.inflight, hp.length_eq]

theorem heads_sublist (fs : List Flight) :
    (fs.map Flight.head).Sublist (fs.flatMap Flight.descs) := by
  induction fs with
  | nil => exact .slnil
  | cons f fs ih =>
      exact ((ih.cons _).cons _).cons_cons _

theorem Tables.heads_nodup (h : q.Tables fs) :
    (fs.map Flight.head).Nodup := h.disjoint.sublist (heads_sublist fs)

theorem mem_descs {f : Flight} (hf : f ∈ fs)
    (hi : i ∈ f.descs) : i ∈ fs.flatMap Flight.descs := mem_flatMap.mpr ⟨f, hf, hi⟩

theorem head_mem_descs (f : Flight) : f.head ∈ f.descs := mem_cons_self

theorem length_descs (fs : List Flight) : (fs.flatMap Flight.descs).length = fs.length * 3 := by
  induction fs with
  | nil => rfl
  | cons f fs ih =>
      rw [flatMap_cons, length_append, ih, length_cons, Nat.add_mul, Nat.add_comm]
      rfl

theorem Tables.length_le (h : q.Tables fs) : fs.length ≤ 42 := by
  have hsub : (fs.flatMap Flight.descs) ⊆ range queueSize := fun i hi =>
    mem_range.mpr (h.inRange i hi)
  have hle := (subperm_of_subset h.disjoint hsub).length_le
  rw [length_descs, length_range, queueSize] at hle
  omega

theorem Tables.freeCount_add (h : q.Tables fs) : q.freeCount + fs.length * 3 = queueSize := by
  have hperm : ((range queueSize).filter (· ∈ fs.flatMap Flight.descs)).Perm
      (fs.flatMap Flight.descs) := by
    refine (perm_ext_iff_of_nodup (nodup_range.filter _) h.disjoint).mpr fun i => ?_
    rw [mem_filter, mem_range, decide_eq_true_iff]
    exact ⟨fun hi => hi.2, fun hi => ⟨h.inRange i hi, hi⟩⟩
  have hfree : q.freeCount = (range queueSize).countP (· ∉ fs.flatMap Flight.descs) := by
    refine countP_congr fun i hi => ?_
    rw [h.free i (mem_range.mp hi), decide_eq_true_iff]
  have hlen := length_eq_countP_add_countP (· ∈ fs.flatMap Flight.descs) (l := range queueSize)
  rw [length_range, countP_eq_length_filter, hperm.length_eq, length_descs] at hlen
  simp only [decide_eq_true_eq] at hlen
  rw [hfree]
  omega

/-- The two tests of the dispatch loop ask for a chain that is left. -/
theorem Tables.room_iff (h : q.Tables fs) :
    q.inflightCount < queueSize ∧ q.hasFreeDescChain = true ↔ fs.length < queueSize / 3 := by
  have hcount := h.freeCount_add
  rw [h.inflight, hasFreeDescChain, decide_eq_true_iff]
  rw [queueSize] at hcount ⊢
  omega

theorem Tables.congr (h : q.Tables fs) (hdesc : q'.desc = q.desc) (hfree : q'.free = q.free)
    (hcount : q'.inflightCount = q.inflightCount)
    (hinfo : ∀ i, (q'.info i).request = (q.info i).request) : q'.Tables fs := by
  refine ⟨h.disjoint, h.inRange, ?_, hcount ▸ h.inflight, fun f hf => ?_, fun f hf => ?_⟩
  · rw [hfree]
    exact h.free
  · exact (h.linked f hf).congr fun i _ => by rw [hdesc]
  · rw [hinfo, h.request f hf]

theorem takeChain_free (chain : DescChain) (i : Nat) :
    (((q.takeDesc chain.head).takeDesc chain.middle).takeDesc chain.tail).free i =
      if i ∈ [chain.head, chain.middle, chain.tail] then false else q.free i := by
  simp only [takeDesc_free]
  by_cases h₁ : i = chain.head
  · simp [h₁]
  by_cases h₂ : i = chain.middle
  · simp [h₂]
  by_cases h₃ : i = chain.tail
  · simp [h₃]
  simp [h₁, h₂]

theorem fillChain_desc_of_notMem (r : IoRequest) (us : UInt64)
    (hi : i ∉ [chain.head, chain.middle, chain.tail]) :
    (q.fillChain r chain us).desc i = q.desc i := by
  simp only [mem_cons, not_mem_nil, or_false, not_or] at hi
  dsimp only [fillChain]
  rw [update_of_ne hi.2.2, update_of_ne hi.2.1, update_of_ne hi.1]

theorem fillChain_linked (r : IoRequest) (us : UInt64)
    (hnd : [chain.head, chain.middle, chain.tail].Nodup) :
    (q.fillChain r chain us).Linked ⟨r, chain.head, chain.middle, chain.tail⟩ := by
  obtain ⟨hhm, hht, hmt⟩ : chain.head ≠ chain.middle ∧ chain.head ≠ chain.tail ∧
      chain.middle ≠ chain.tail := by
    simpa [and_assoc] using hnd
  refine ⟨?_, ?_, ?_⟩
  · dsimp only [fillChain]
    rw [update_of_ne hht, update_of_ne hhm, update_self]
  · dsimp only [fillChain]
    rw [update_of_ne hmt, update_self]
  · exact update_self ..

theorem Tables.submit (h : q.Tables fs) (r : IoRequest)
    (us : UInt64) (hnd : [chain.head, chain.middle, chain.tail].Nodup)
    (hfree : ∀ i ∈ [chain.head, chain.middle, chain.tail], i < queueSize ∧ q.free i = true) :
    (((((q.takeDesc chain.head).takeDesc chain.middle).takeDesc chain.tail).fillChain r
      chain us).publish chain.head).Tables (⟨r, chain.head, chain.middle, chain.tail⟩ :: fs) := by
  have hout : ∀ i ∈ [chain.head, chain.middle, chain.tail], i ∉ fs.flatMap Flight.descs :=
    fun i hi => (h.free i (hfree i hi).1).mp (hfree i hi).2
  have hother : ∀ f ∈ fs, ∀ i ∈ f.descs, i ∉ [chain.head, chain.middle, chain.tail] :=
    fun f hf i hi hmem => hout i hmem (mem_descs hf hi)
  refine ⟨?_, ?_, fun i hi => ?_, ?_, ?_, ?_⟩
  · refine nodup_append.mpr ⟨hnd, h.disjoint, fun i hi j hj heq => ?_⟩
    exact hout i hi (heq ▸ hj)
  · intro i hi
    rw [flatMap_cons, mem_append] at hi
    exact hi.elim (fun hi => (hfree i hi).1) (h.inRange i)
  · rw [flatMap_cons, mem_append, not_or]
    show (((q.takeDesc chain.head).takeDesc chain.middle).takeDesc chain.tail).free i = true ↔ _
    rw [takeChain_free]
    split
    · next hmem => exact iff_of_false Bool.false_ne_true fun hand => hand.1 hmem
    · next hmem =>
        rw [h.free i hi]
        exact ⟨fun hi => ⟨hmem, hi⟩, fun hi => hi.2⟩
  · show q.inflightCount + 1 = _
    rw [h.inflight, length_cons]
    rfl
  · refine forall_mem_cons.mpr
      ⟨(fillChain_linked r us hnd).congr fun _ _ => rfl, fun f hf => ?_⟩
    refine (h.linked f hf).congr fun i hi => ?_
    exact fillChain_desc_of_notMem r us (hother f hf i hi)
  · refine forall_mem_cons.mpr ⟨?_, fun f hf => ?_⟩
    · dsimp only [publish, fillChain]
      rw [update_self]
    · have hne : f.head ≠ chain.head := by
        intro heq
        refine hother f hf f.head (head_mem_descs f) ?_
        rw [heq]
        exact mem_cons_self
      dsimp only [publish, fillChain]
      rw [update_of_ne hne]
      exact h.request f hf

theorem Tables.reap {f : Flight} (h : q.Tables (f :: fs))
    (hdesc : ∀ i ∉ f.descs, q'.desc i = q.desc i)
    (hfree : ∀ i, q'.free i = if i ∈ f.descs then true else q.free i)
    (hcount : q'.inflightCount = q.inflightCount - 1)
    (hinfo : ∀ i, i ≠ f.head → (q'.info i).request = (q.info i).request) : q'.Tables fs := by
  obtain ⟨hnd, hrest, hout⟩ := nodup_append.mp (flatMap_cons ▸ h.disjoint)
  have hother : ∀ g ∈ fs, ∀ i ∈ g.descs, i ∉ f.descs :=
    fun g hg i hi hmem => hout i hmem i (mem_descs hg hi) rfl
  refine ⟨hrest, fun i hi => ?_, fun i hi => ?_, ?_, fun g hg => ?_, fun g hg => ?_⟩
  · exact h.inRange i (by rw [flatMap_cons, mem_append]; exact .inr hi)
  · rw [hfree]
    split
    · next hmem => exact iff_of_true rfl fun hi => hout i hmem i hi rfl
    · next hmem =>
        rw [h.free i hi, flatMap_cons, mem_append, not_or]
        exact ⟨fun hand => hand.2, fun hi => ⟨hmem, hi⟩⟩
  · rw [hcount, h.inflight, length_cons]
    omega
  · exact (h.linked g (mem_cons_of_mem _ hg)).congr fun i hi => hdesc i (hother g hg i hi)
  · rw [hinfo g.head fun heq => hother g hg g.head (head_mem_descs g)
      (heq ▸ head_mem_descs f)]
    exact h.request g (mem_cons_of_mem _ hg)

end VirtioBlkQueue

/-- The rings and their counters stand for the three lists. -/
structure Rings (d : Disk) (a : Flights) : Prop where
  waiting : Ring.contents d.queue.avail queueSize d.seen a.waiting.length =
    a.waiting.map Flight.head
  availIdx : d.queue.availIdx = (d.seen + a.waiting.length) % 2 ^ 16
  seen_lt : d.seen < 2 ^ 16
  working : d.taken = a.working.map Flight.head
  back : Ring.contents d.queue.used queueSize d.queue.usedIdx a.back.length = a.back.map Flight.head
  usedId : d.queue.usedId = (d.queue.usedIdx + a.back.length) % 2 ^ 16
  usedIdx_lt : d.queue.usedIdx < 2 ^ 16
  status : ∀ f ∈ a.back, (d.queue.info f.head).status = 0

theorem queueSize_dvd : queueSize ∣ 2 ^ 16 := ⟨512, rfl⟩

namespace Rings

variable {d d' : Disk} {a : Flights} {f : Flight} {rest : List Flight}

theorem submit (h : Rings d a) (hroom : a.waiting.length < queueSize) (havail : d'.queue.avail =
      update d.queue.avail (d.queue.availIdx % queueSize) f.head)
    (hidx : d'.queue.availIdx = (d.queue.availIdx + 1) % 2 ^ 16) (hseen : d'.seen = d.seen)
    (htaken : d'.taken = d.taken) (hused : d'.queue.used = d.queue.used)
    (husedIdx : d'.queue.usedIdx = d.queue.usedIdx) (husedId : d'.queue.usedId = d.queue.usedId)
    (hstatus : ∀ g ∈ a.back, (d'.queue.info g.head).status = (d.queue.info g.head).status) :
    Rings d' { a with waiting := a.waiting ++ [f] } := by
  refine ⟨?_, ?_, hseen ▸ h.seen_lt, htaken ▸ h.working, ?_, ?_, husedIdx ▸ h.usedIdx_lt,
    fun g hg => (hstatus g hg).trans (h.status g hg)⟩
  · rw [havail, hseen, h.availIdx, Nat.mod_mod_of_dvd _ queueSize_dvd, length_append,
      length_singleton, Ring.contents_push hroom, h.waiting, map_append]
    rfl
  · rw [hidx, hseen, h.availIdx, Nat.mod_add_mod, length_append]
    rfl
  · rw [hused, husedIdx]
    exact h.back
  · rw [husedId, husedIdx]
    exact h.usedId

theorem take (h : Rings d a) (hlen : a.waiting.length ≤ queueSize) :
    (d.deviceTake = d ∧ a.waiting = []) ∨ ∃ f rest, a.waiting = f :: rest ∧
      Rings d.deviceTake { a with waiting := rest, working := a.working ++ [f] } := by
  rw [Disk.deviceTake]
  have hidx := h.availIdx
  have hlt := h.seen_lt
  rw [queueSize] at hlen
  split
  · next heq =>
      exact .inl ⟨rfl, eq_nil_of_length_eq_zero (by omega)⟩
  next hne =>
  cases hw : a.waiting with
  | nil =>
      rw [hw, length_nil, Nat.add_zero, Nat.mod_eq_of_lt hlt] at hidx
      exact absurd hidx.symm hne
  | cons f rest =>
      have hwaiting := h.waiting
      rw [hw, length_cons, Ring.contents_pop, map_cons] at hwaiting
      obtain ⟨hhead, hcontents⟩ := cons.inj hwaiting
      refine .inr ⟨f, rest, rfl, ?_, ?_, Nat.mod_lt _ (by decide), ?_, h.back, h.usedId,
        h.usedIdx_lt, h.status⟩
      · rw [Ring.contents_mod queueSize_dvd]
        exact hcontents
      · rw [hw, length_cons] at hidx
        dsimp only
        omega
      · rw [hhead, h.working, map_append]
        rfl

theorem handBack (h : Rings d a) {l r : List Flight} (hworking : a.working = l ++ f :: r)
    (hl : f.head ∉ l.map Flight.head) (hlinked : d.queue.Linked f)
    (hroom : a.back.length < queueSize) :
    Rings (d.deviceReturn f.head) { a with working := l ++ r, back := a.back ++ [f] } := by
  have hmem : f.head ∈ d.taken := by
    rw [h.working, hworking]
    exact mem_map_of_mem (mem_append_right _ mem_cons_self)
  rw [Disk.deviceReturn, if_pos hmem, writeStatus_spec hlinked]
  refine ⟨h.waiting, h.availIdx, h.seen_lt, ?_, ?_, ?_, h.usedIdx_lt, fun g hg => ?_⟩
  · rw [h.working, hworking, map_append, map_cons, erase_append_right _ hl,
      erase_cons_head, map_append]
  · dsimp only [returnHead]
    rw [h.usedId, Nat.mod_mod_of_dvd _ queueSize_dvd, length_append,
      length_singleton, Ring.contents_push hroom, h.back, map_append]
    rfl
  · dsimp only [returnHead]
    rw [h.usedId, Nat.mod_add_mod, length_append]
    rfl
  · dsimp only [returnHead]
    by_cases hhead : g.head = f.head
    · rw [hhead, update_self]
    · rw [update_of_ne hhead]
      rcases mem_append.mp hg with hg | hg
      · exact h.status g hg
      · exact absurd (congrArg Flight.head (mem_singleton.mp hg)) hhead

theorem back_cases (h : Rings d a) (hlen : a.back.length ≤ queueSize) :
    (d.queue.usedIdx = d.queue.usedId ∧ a.back = []) ∨
    ∃ f rest, a.back = f :: rest ∧ d.queue.usedIdx ≠ d.queue.usedId ∧
      d.queue.used (d.queue.usedIdx % queueSize) = f.head := by
  have hidx := h.usedId
  have hlt := h.usedIdx_lt
  rw [queueSize] at hlen
  cases hb : a.back with
  | nil =>
      rw [hb, length_nil, Nat.add_zero, Nat.mod_eq_of_lt hlt] at hidx
      exact .inl ⟨hidx.symm, rfl⟩
  | cons f rest =>
      have hback := h.back
      rw [hb, length_cons, Ring.contents_pop, map_cons] at hback
      rw [hb, length_cons] at hidx hlen
      exact .inr ⟨f, rest, rfl, by omega, (cons.inj hback).1⟩

theorem reap (h : Rings d a) (hback : a.back = f :: rest)
    (havail : d'.queue.avail = d.queue.avail) (hidx : d'.queue.availIdx = d.queue.availIdx)
    (hseen : d'.seen = d.seen) (htaken : d'.taken = d.taken) (hused : d'.queue.used = d.queue.used)
    (husedIdx : d'.queue.usedIdx = (d.queue.usedIdx + 1) % 2 ^ 16)
    (husedId : d'.queue.usedId = d.queue.usedId)
    (hstatus : ∀ g ∈ rest, (d'.queue.info g.head).status = (d.queue.info g.head).status) :
    Rings d' { a with back := rest } := by
  have hcontents := h.back
  rw [hback, length_cons, Ring.contents_pop, map_cons] at hcontents
  have hid := h.usedId
  rw [hback, length_cons] at hid
  refine ⟨?_, ?_, hseen ▸ h.seen_lt, htaken ▸ h.working, ?_, ?_, ?_, fun g hg => ?_⟩
  · rw [havail, hseen]
    exact h.waiting
  · rw [hidx, hseen]
    exact h.availIdx
  · rw [hused, husedIdx, Ring.contents_mod queueSize_dvd]
    exact (cons.inj hcontents).2
  · dsimp only
    rw [husedId, husedIdx, hid, Nat.mod_add_mod]
    congr 1
    omega
  · rw [husedIdx]
    exact Nat.mod_lt _ (by decide)
  · rw [hstatus g hg]
    exact h.status g (hback ▸ mem_cons_of_mem f hg)

end Rings

def openIds (d : Disk) (a : Flights) : List Nat :=
  d.queue.scheduler.pending.map IoRequest.id ++ a.all.map fun f => f.request.id

/-- A request is open until it is marked completed, and that happens once. Its caller
waits for it as long as it is open. -/
structure Once (d : Disk) (a : Flights) : Prop where
  wf : d.queue.scheduler.Wf
  distinct : (openIds d a).Nodup
  isOpen : ∀ id ∈ openIds d a, id < d.nextId ∧ d.completed id = 0 ∧ ∃ i, d.caller i = some id
  settled : ∀ id, id < d.nextId → id ∈ openIds d a ∨ d.completed id = 1
  fresh : ∀ id, d.nextId ≤ id → d.completed id = 0
  known : ∀ i id, d.caller i = some id → id < d.nextId

namespace Once

variable {d d' : Disk} {a a' : Flights}

theorem pending_le (h : Once d a) : d.queue.scheduler.pending.length ≤ numProcess := by
  have hnd := h.distinct.sublist (sublist_append_left _ _)
  have hsub : d.queue.scheduler.pending.map IoRequest.id ⊆
      (finRange numProcess).filterMap d.caller := by
    intro id hid
    obtain ⟨-, -, i, hi⟩ := h.isOpen id (mem_append_left _ hid)
    exact mem_filterMap.mpr ⟨i, mem_finRange i, hi⟩
  have hle := (subperm_of_subset hnd hsub).length_le
  rw [length_map] at hle
  exact hle.trans ((length_filterMap_le ..).trans (length_finRange ..).le)

theorem perm (h : Once d a) (hwf : d'.queue.scheduler.Wf)
    (hids : (openIds d a).Perm (openIds d' a')) (hnext : d'.nextId = d.nextId)
    (hcompleted : d'.completed = d.completed)
    (hcaller : ∀ i id, id ∈ openIds d a → d.caller i = some id → d'.caller i = some id)
    (hknown : ∀ i id, d'.caller i = some id → d.caller i = some id) : Once d' a' := by
  refine ⟨hwf, hids.nodup_iff.mp h.distinct, fun id hid => ?_, fun id hid => ?_,
    fun id hid => ?_, fun i id hi => hnext ▸ h.known i id (hknown i id hi)⟩
  · have hid := hids.mem_iff.mpr hid
    obtain ⟨hlt, hzero, i, hi⟩ := h.isOpen id hid
    rw [hnext, hcompleted]
    exact ⟨hlt, hzero, i, hcaller i id hid hi⟩
  · rw [hnext] at hid
    rw [hcompleted, ← hids.mem_iff]
    exact h.settled id hid
  · rw [hnext] at hid
    rw [hcompleted]
    exact h.fresh id hid

theorem enqueue (h : Once d a) {i : Fin numProcess} (hi : d.caller i = none)
    (hwf : d'.queue.scheduler.Wf) (hids : (openIds d' a).Perm (d.nextId :: openIds d a))
    (hnext : d'.nextId = d.nextId + 1) (hcompleted : d'.completed = d.completed)
    (hcaller : d'.caller = update d.caller i (some d.nextId)) : Once d' a := by
  have hnew : d.nextId ∉ openIds d a := fun hmem => Nat.lt_irrefl _ (h.isOpen _ hmem).1
  refine ⟨hwf, hids.nodup_iff.mpr (nodup_cons.mpr ⟨hnew, h.distinct⟩), fun id hid => ?_,
    fun id hid => ?_, fun id hid => ?_, fun j id hj => ?_⟩
  · rw [hnext, hcompleted, hcaller]
    rcases mem_cons.mp (hids.mem_iff.mp hid) with rfl | hid
    · exact ⟨Nat.lt_succ_self _, h.fresh _ (Nat.le_refl _), i, update_self ..⟩
    · obtain ⟨hlt, hzero, j, hj⟩ := h.isOpen id hid
      have hne : j ≠ i := by
        rintro rfl
        rw [hi] at hj
        cases hj
      exact ⟨Nat.lt_succ_of_lt hlt, hzero, j, by rw [update_of_ne hne, hj]⟩
  · rw [hcompleted, hids.mem_iff, mem_cons]
    by_cases heq : id = d.nextId
    · exact .inl (.inl heq)
    · exact (h.settled id (by omega)).imp_left .inr
  · rw [hcompleted]
    exact h.fresh id (by omega)
  · rw [hcaller, update_apply] at hj
    rw [hnext]
    split at hj
    · cases hj
      exact Nat.lt_succ_self _
    · exact Nat.lt_succ_of_lt (h.known j id hj)

theorem complete (h : Once d a) {id : Nat} (hwf : d'.queue.scheduler.Wf)
    (hids : (openIds d a).Perm (id :: openIds d' a')) (hnext : d'.nextId = d.nextId)
    (hcompleted : d'.completed = update d.completed id (d.completed id + 1))
    (hcaller : d'.caller = d.caller) : Once d' a' := by
  obtain ⟨hout, hnd⟩ := nodup_cons.mp (hids.nodup_iff.mp h.distinct)
  obtain ⟨hlt, hzero, -⟩ := h.isOpen id (hids.mem_iff.mpr mem_cons_self)
  refine ⟨hwf, hnd, fun id' hid' => ?_, fun id' hid' => ?_, fun id' hid' => ?_,
    fun i id' hi => hnext ▸ h.known i id' (hcaller ▸ hi)⟩
  · have hne : id' ≠ id := fun heq => hout (heq ▸ hid')
    rw [hnext, hcompleted, hcaller, update_of_ne hne]
    exact h.isOpen id' (hids.mem_iff.mpr (mem_cons_of_mem _ hid'))
  · rw [hcompleted]
    by_cases heq : id' = id
    · rw [heq, update_self, hzero]
      exact .inr rfl
    · rw [update_of_ne heq]
      refine (h.settled id' (hnext ▸ hid')).imp_left fun hmem => ?_
      exact (mem_cons.mp (hids.mem_iff.mp hmem)).resolve_left heq
  · have hne : id' ≠ id := by omega
    rw [hcompleted, update_of_ne hne]
    exact h.fresh id' (hnext ▸ hid')

end Once

/-- The driver and the device stand for the requests in flight, and every request is
completed at most once. -/
structure Holds (d : Disk) (a : Flights) : Prop where
  tables : d.queue.Tables a.all
  rings : Rings d a
  once : Once d a

theorem holds_boot : Holds {} {} := by
  refine ⟨⟨nodup_nil, fun _ h => absurd h not_mem_nil, fun _ _ => ?_, rfl,
    fun _ h => absurd h not_mem_nil, fun _ h => absurd h not_mem_nil⟩,
    ⟨rfl, rfl, by decide, rfl, rfl, rfl, by decide, fun _ h => absurd h not_mem_nil⟩,
    ⟨fun c => nodup_nil, nodup_nil, fun _ h => absurd h not_mem_nil,
      fun _ h => absurd h (Nat.not_lt_zero _), fun _ _ => rfl, nofun⟩⟩
  exact iff_of_true rfl not_mem_nil

/-- What an operation does to the requests in flight, `a` before and `a'` after it, and to
the marks. A request is submitted as long as a chain is left for it, and it is marked
completed when its own head is the next one back, and only then. -/
def Turn (d : Disk) (a : Flights) (d' : Disk) (a' : Flights) : DiskOp → Prop
  | .enqueue i _ _ =>
      a' = a ∧ d'.completed = d.completed ∧ (d.caller i = none →
        d'.caller i = some d.nextId ∧ ∃ r : IoRequest, r.id = d.nextId ∧
          d'.queue.scheduler.pending.Perm (r :: d.queue.scheduler.pending))
  | .dispatch nowUs _ =>
      d'.completed = d.completed ∧
        if a.all.length < queueSize / 3 then
          (d.queue.scheduler.Due nowUs ∧ ∃ f, a' = { a with waiting := a.waiting ++ [f] } ∧
            d.queue.scheduler.pending.Perm (f.request :: d'.queue.scheduler.pending)) ∨
          ¬d.queue.scheduler.Due nowUs ∧ a' = a
        else a' = a
  | .used _ =>
      match a.back with
      | [] => a' = a ∧ d'.completed = d.completed
      | f :: rest =>
          a' = { a with back := rest } ∧ d'.completed = update d.completed f.request.id 1
  | .leave i =>
      a' = a ∧ d'.completed = d.completed ∧ d'.caller i = (d.caller i).filter (d.completed · = 0)
  | .deviceTake =>
      d'.completed = d.completed ∧
        match a.waiting with
        | [] => a' = a
        | f :: rest => a' = { a with waiting := rest, working := a.working ++ [f] }
  | .deviceReturn head =>
      d'.completed = d.completed ∧
        if head ∈ a.working.map Flight.head then
          ∃ l f r, a.working = l ++ f :: r ∧ f.head = head ∧
            a' = { a with working := l ++ r, back := a.back ++ [f] }
        else a' = a

/-- A step from a state that stands for `a` leads to one that stands for `a'`. -/
structure Follows (d : Disk) (a : Flights) (op : DiskOp) (d' : Disk) (a' : Flights) : Prop where
  holds : Holds d' a'
  turn : Turn d a d' a' op

def Stepped (p p' : Disk × Flights) : Prop :=
  ∃ op, p.1.step op = some p'.1 ∧ Follows p.1 p.2 op p'.1 p'.2

namespace Holds

variable {d : Disk} {a : Flights}

theorem all_le (h : Holds d a) : a.waiting.length + (a.working.length + a.back.length) ≤ 42 := by
  have hle := h.tables.length_le
  rwa [Flights.all, length_append, length_append] at hle

theorem enqueue (h : Holds d a) (i : Fin numProcess) (r : IoRequest) (nowUs : UInt64) :
    ∃ d', d.enqueue i r nowUs = some d' ∧ Follows d a (.enqueue i r nowUs) d' a := by
  rw [Disk.enqueue]
  split
  · next hi => exact ⟨d, rfl, h, rfl, rfl, fun hnone => by rw [hi] at hnone; cases hnone⟩
  next hi =>
  have hroom : d.queue.scheduler.pending.length < maxFlows :=
    Nat.lt_of_le_of_lt h.once.pending_le (by decide)
  obtain ⟨s', r', hs', hid, -, hperm, hwf⟩ := MClockScheduler.enqueue_spec h.once.wf
    { r with id := d.nextId } nowUs d.queue.ewmaBps hroom
  rw [hs']
  refine ⟨_, rfl, ⟨?_, ?_, ?_⟩, rfl, rfl, fun _ => ⟨update_self .., r', hid, hperm⟩⟩
  · exact h.tables.congr rfl rfl rfl fun _ => rfl
  · exact ⟨h.rings.waiting, h.rings.availIdx, h.rings.seen_lt, h.rings.working,
      h.rings.back, h.rings.usedId, h.rings.usedIdx_lt, h.rings.status⟩
  · refine h.once.enqueue hi hwf ?_ rfl rfl rfl
    have hids := hperm.map IoRequest.id
    rw [map_cons, hid] at hids
    exact hids.append_right _

theorem leave (h : Holds d a) (i : Fin numProcess) : Follows d a (.leave i) (d.leave i) a := by
  rw [Disk.leave]
  split
  · next r hr =>
      split
      · next hzero => exact ⟨h, rfl, rfl, by rw [hr]; simp [Option.filter, hzero]⟩
      next hdone =>
      refine ⟨⟨h.tables, ⟨h.rings.waiting, h.rings.availIdx, h.rings.seen_lt,
        h.rings.working, h.rings.back, h.rings.usedId, h.rings.usedIdx_lt,
        h.rings.status⟩, ?_⟩, rfl, rfl, by rw [hr]; simp [Option.filter, hdone]⟩
      refine h.once.perm h.once.wf (.refl _) rfl rfl (fun j id hid hj => ?_)
        fun j id hj => ?_
      · have hne : j ≠ i := by
          rintro rfl
          rw [hr] at hj
          cases hj
          exact hdone (h.once.isOpen r hid).2.1
        exact (update_of_ne hne ..).trans hj
      · dsimp only at hj
        rw [update_apply] at hj
        split at hj
        · cases hj
        · exact hj
  · next hnone => exact ⟨h, rfl, rfl, by rw [hnone]; rfl⟩

theorem deviceTake (h : Holds d a) : ∃ a', Follows d a .deviceTake d.deviceTake a' := by
  have hle := h.all_le
  rcases h.rings.take (by rw [queueSize]; omega) with ⟨hsame, hw⟩ | ⟨f, rest, hw, hrings⟩
  · rw [hsame]
    exact ⟨a, h, rfl, by rw [hw]⟩
  · have hsame : d.deviceTake.queue = d.queue ∧ d.deviceTake.nextId = d.nextId ∧
        d.deviceTake.completed = d.completed ∧ d.deviceTake.caller = d.caller := by
      rw [Disk.deviceTake]
      split
      · exact ⟨rfl, rfl, rfl, rfl⟩
      · exact ⟨rfl, rfl, rfl, rfl⟩
    obtain ⟨hqueue, hnext, hcompleted, hcaller⟩ := hsame
    have hall : a.all.Perm (Flights.all
        { a with waiting := rest, working := a.working ++ [f] }) := by
      dsimp only [Flights.all]
      rw [hw, append_assoc a.working, ← append_assoc rest, cons_append, ← append_assoc rest]
      exact perm_middle.symm
    refine ⟨_, ⟨?_, hrings, ?_⟩, hcompleted, by rw [hw]⟩
    · rw [hqueue]
      exact h.tables.perm hall
    · refine h.once.perm (hqueue ▸ h.once.wf) ?_ hnext hcompleted
        (fun _ _ _ hj => hcaller ▸ hj) fun _ _ hj => hcaller ▸ hj
      rw [openIds, openIds, hqueue]
      exact (hall.map _).append_left _

theorem deviceReturn (h : Holds d a) (head : Nat) :
    ∃ a', Follows d a (.deviceReturn head) (d.deviceReturn head) a' := by
  by_cases hmem : head ∈ d.taken
  · rw [h.rings.working] at hmem
    have hhead := hmem
    obtain ⟨f, hf, rfl⟩ := mem_map.mp hmem
    obtain ⟨l, r, hworking⟩ := append_of_mem hf
    have hfall : f ∈ a.all :=
      mem_append_right _ (mem_append_left _ (hworking ▸ hf))
    have hlinked := h.tables.linked f hfall
    have hl : f.head ∉ l.map Flight.head := by
      have hnd := h.tables.heads_nodup
      rw [Flights.all, hworking, map_append, map_append, map_append, map_cons] at hnd
      have hnd := (hnd.sublist (sublist_append_right _ _)).sublist
        (sublist_append_left _ _)
      exact fun hin => (nodup_append.mp hnd).2.2 _ hin _ mem_cons_self rfl
    have hle := h.all_le
    have hrings := h.rings.handBack hworking hl hlinked (by rw [queueSize]; omega)
    have hall : a.all.Perm (Flights.all
        { a with working := l ++ r, back := a.back ++ [f] }) := by
      dsimp only [Flights.all]
      rw [hworking]
      refine List.Perm.append_left _ ?_
      rw [append_assoc, append_assoc, cons_append]
      refine List.Perm.append_left _ ?_
      rw [← append_assoc]
      exact (perm_append_singleton f _).symm
    have hmem' : f.head ∈ d.taken := by rw [h.rings.working]; exact hmem
    rw [Disk.deviceReturn, if_pos hmem', writeStatus_spec hlinked] at hrings ⊢
    refine ⟨_, ⟨?_, hrings, ?_⟩, rfl, by rw [if_pos hhead]; exact ⟨l, f, r, hworking, rfl, rfl⟩⟩
    · refine (h.tables.perm hall).congr rfl rfl rfl fun i => ?_
      dsimp only [returnHead]
      by_cases hi : i = f.head
      · rw [hi, update_self]
      · rw [update_of_ne hi]
    · refine h.once.perm h.once.wf ?_ rfl rfl (fun _ _ _ hj => hj) fun _ _ hj => hj
      exact (hall.map _).append_left _
  · rw [Disk.deviceReturn, if_neg hmem]
    rw [h.rings.working] at hmem
    exact ⟨a, h, rfl, by rw [if_neg hmem]⟩

end Holds

namespace VirtioBlkQueue

variable {q : VirtioBlkQueue} {nowUs : UInt64}

def submitted (q : VirtioBlkQueue) (s : MClockScheduler) (r : IoRequest) (chain : DescChain)
    (us : UInt64) : VirtioBlkQueue :=
  ((((({ q with scheduler := s }).takeDesc chain.head).takeDesc chain.middle).takeDesc
    chain.tail).fillChain r chain us).publish chain.head

theorem dispatchRound_due (hcount : q.inflightCount < queueSize)
    (hchain : q.hasFreeDescChain = true) (hwf : q.scheduler.Wf)
    (hdue : q.scheduler.Due nowUs) (us : UInt64) :
    ∃ r s' chain, q.dispatchRound nowUs us = some (.submitted r, q.submitted s' r chain us) ∧
      q.scheduler.pending.Perm (r :: s'.pending) ∧ s'.Wf ∧
      [chain.head, chain.middle, chain.tail].Nodup ∧
      ∀ i ∈ [chain.head, chain.middle, chain.tail], i < queueSize ∧ q.free i = true := by
  obtain ⟨r, s', hs', -, hperm, hwf'⟩ := MClockScheduler.dequeueNext_due hwf hdue
  obtain ⟨chain, halloc, hnd, hfree⟩ :=
    allocDescChain_spec (q := { q with scheduler := s' }) hchain
  refine ⟨r, s', chain, ?_, hperm, hwf', hnd, hfree⟩
  rw [dispatchRound, if_pos ⟨hcount, hchain⟩, hs', Option.bind_eq_bind, Option.bind_some]
  dsimp only
  rw [submitOne, halloc]
  rfl

theorem dispatchRound_not_due (hdue : ¬q.scheduler.Due nowUs) (us : UInt64) :
    ∃ gate, q.dispatchRound nowUs us = some (.stopped gate, q) := by
  rw [dispatchRound]
  split
  · obtain ⟨gate, hgate⟩ := MClockScheduler.dequeueNext_not_due hdue
    rw [hgate]
    exact ⟨gate, rfl⟩
  · exact ⟨0, rfl⟩

theorem updateEwma_eq (q : VirtioBlkQueue) (r : IoRequest) (us us' : UInt64) :
    ∃ bps, q.updateEwma r us us' = { q with ewmaBps := bps } := by
  rw [updateEwma]
  split
  · dsimp only
    split
    · exact ⟨_, rfl⟩
    · exact ⟨q.ewmaBps, rfl⟩
  · exact ⟨q.ewmaBps, rfl⟩

/-- A head that is back with status OK: its request is done and its chain is given
back. -/
theorem usedRound_spec {f : Flight} (h : q.Tables (f :: fs))
    (hne : q.usedIdx ≠ q.usedId) (hid : q.used (q.usedIdx % queueSize) = f.head)
    (hstatus : (q.info f.head).status = 0) (us : UInt64) :
    ∃ bps desc free info,
      q.usedRound us = some (some (some f.request), { q with
        ewmaBps := bps, desc := desc, free := free, info := info
        inflightCount := q.inflightCount - 1, usedIdx := (q.usedIdx + 1) % 2 ^ 16 }) ∧
      (∀ i ∉ f.descs, desc i = q.desc i) ∧
      (∀ i, free i = if i ∈ f.descs then true else q.free i) ∧
      ∀ i, i ≠ f.head → info i = q.info i := by
  have hmem : f ∈ f :: fs := mem_cons_self
  obtain ⟨hnd, -, -⟩ := nodup_append.mp (flatMap_cons ▸ h.disjoint)
  have hrange : ∀ i ∈ f.descs, i < queueSize := fun i hi => h.inRange i (mem_descs hmem hi)
  obtain ⟨bps, hbps⟩ := q.updateEwma_eq f.request (q.info f.head).dispatchUs us
  obtain ⟨desc, free, hfreed, hdesc, hfree⟩ := freeChain_spec
    (q := { q with
      ewmaBps := bps
      info := update q.info f.head
        { q.info f.head with request := none, dispatchUs := 0 } })
    ((h.linked f hmem).congr fun _ _ => rfl) hnd hrange
  refine ⟨bps, desc, free, update q.info f.head
      { q.info f.head with request := none, dispatchUs := 0 }, ?_, hdesc, hfree,
    fun i hi => update_of_ne hi ..⟩
  rw [usedRound, if_neg hne, hid, if_neg (Nat.not_le.mpr (hrange _ (head_mem_descs f))),
    if_neg (not_not.mpr hstatus), h.request f hmem]
  dsimp only
  rw [hbps, hfreed]
  rfl

end VirtioBlkQueue

namespace Holds

variable {d : Disk} {a : Flights}

theorem dispatch (h : Holds d a) (nowUs us : UInt64) :
    ∃ d' a', d.dispatch nowUs us = some d' ∧ Follows d a (.dispatch nowUs us) d' a' := by
  by_cases hround : a.all.length < queueSize / 3 ∧ d.queue.scheduler.Due nowUs
  · obtain ⟨hlen, hdue⟩ := hround
    obtain ⟨hcount, hchain⟩ := h.tables.room_iff.mpr hlen
    obtain ⟨r, s', chain, heq, hperm, hwf, hnd, hfree⟩ :=
      dispatchRound_due hcount hchain h.once.wf hdue us
    have hqueued : ({ d.queue with scheduler := s' } : VirtioBlkQueue).Tables a.all :=
      h.tables.congr rfl rfl rfl fun _ => rfl
    have htables := hqueued.submit r us hnd hfree
    have hout : ∀ g ∈ a.back, g.head ≠ chain.head := by
      intro g hg hhead
      have hgall : g ∈ a.all := mem_append_right _ (mem_append_right _ hg)
      obtain ⟨hlt, hisFree⟩ := hfree chain.head mem_cons_self
      refine (h.tables.free _ hlt).mp hisFree (mem_descs hgall ?_)
      rw [← hhead]
      exact head_mem_descs g
    have hall : (⟨r, chain.head, chain.middle, chain.tail⟩ :: a.all : List Flight).Perm
        (Flights.all { a with
          waiting := a.waiting ++ [⟨r, chain.head, chain.middle, chain.tail⟩] }) := by
      dsimp only [Flights.all]
      rw [append_assoc]
      exact perm_middle.symm
    have hle := h.all_le
    refine ⟨{ d with queue := d.queue.submitted s' r chain us },
      { a with waiting := a.waiting ++ [⟨r, chain.head, chain.middle, chain.tail⟩] }, ?_,
      ⟨?_, ?_, ?_⟩, rfl, ?_⟩
    · rw [Disk.dispatch, heq]
      rfl
    · exact htables.perm hall
    · refine h.rings.submit (by rw [queueSize]; omega) rfl rfl rfl rfl rfl rfl rfl ?_
      intro g hg
      exact congrArg RequestInfo.status (update_of_ne (hout g hg) ..)
    · refine h.once.perm hwf ?_ rfl rfl (fun _ _ _ hj => hj) fun _ _ hj => hj
      refine ((hperm.map IoRequest.id).append_right _).trans ?_
      refine perm_middle.symm.trans ?_
      exact (hall.map fun f => f.request.id).append_left _
    · rw [if_pos hlen]
      exact .inl ⟨hdue, ⟨r, chain.head, chain.middle, chain.tail⟩, rfl, hperm⟩
  · have hsame : ∃ round, d.queue.dispatchRound nowUs us = some (round, d.queue) := by
      by_cases hlen : a.all.length < queueSize / 3
      · obtain ⟨gate, hgate⟩ := dispatchRound_not_due (fun hdue => hround ⟨hlen, hdue⟩) us
        exact ⟨_, hgate⟩
      · exact ⟨_, if_neg fun hroom => hlen (h.tables.room_iff.mp hroom)⟩
    obtain ⟨round, heq⟩ := hsame
    refine ⟨d, a, by rw [Disk.dispatch, heq]; rfl, h, rfl, ?_⟩
    split
    · next hlen => exact .inr ⟨fun hdue => hround ⟨hlen, hdue⟩, rfl⟩
    · rfl

theorem used (h : Holds d a) (us : UInt64) :
    ∃ d' a', d.used us = some d' ∧ Follows d a (.used us) d' a' := by
  have hle := h.all_le
  rcases h.rings.back_cases (by rw [queueSize]; omega) with
    ⟨hempty, hback⟩ | ⟨f, rest, hback, hne, hid⟩
  · refine ⟨d, a, ?_, h, by simp only [Turn, hback, and_self]⟩
    rw [Disk.used, usedRound, if_pos hempty]
    rfl
  · have hall : a.all.Perm (f :: Flights.all { a with back := rest }) := by
      dsimp only [Flights.all]
      rw [hback, ← append_assoc, ← append_assoc]
      exact perm_middle
    have htables := h.tables.perm hall
    have hstatus := h.rings.status f (hback ▸ mem_cons_self)
    have hzero : d.completed f.request.id = 0 :=
      (h.once.isOpen _ (mem_append_right _ (mem_map_of_mem (hall.mem_iff.mpr mem_cons_self)))).2.1
    obtain ⟨bps, desc, free, info, heq, hdesc, hfree, hinfo⟩ :=
      usedRound_spec htables hne hid hstatus us
    have hother : ∀ g ∈ rest, g.head ≠ f.head := by
      intro g hg hhead
      have hgall : g ∈ Flights.all { a with back := rest } :=
        mem_append_right _ (mem_append_right _ hg)
      obtain ⟨hout, -⟩ := nodup_cons.mp htables.heads_nodup
      exact hout (hhead ▸ mem_map_of_mem hgall)
    refine ⟨_, { a with back := rest }, by rw [Disk.used, heq]; rfl, ⟨?_, ?_, ?_⟩,
      by simp only [Turn, hback, Disk.markCompleted, hzero, Nat.zero_add, and_self]⟩
    · exact htables.reap hdesc hfree rfl fun i hi => congrArg RequestInfo.request (hinfo i hi)
    · refine h.rings.reap hback rfl rfl rfl rfl rfl rfl rfl fun g hg => ?_
      exact congrArg RequestInfo.status (hinfo g.head (hother g hg))
    · refine h.once.complete h.once.wf ?_ rfl rfl rfl
      exact ((hall.map fun f => f.request.id).append_left _).trans perm_middle

theorem step (h : Holds d a) (op : DiskOp) :
    ∃ d' a', d.step op = some d' ∧ Follows d a op d' a' := by
  cases op with
  | enqueue i r nowUs =>
      obtain ⟨d', hd', hfollows⟩ := h.enqueue i r nowUs
      exact ⟨d', a, hd', hfollows⟩
  | dispatch nowUs us => exact h.dispatch nowUs us
  | used us => exact h.used us
  | leave i => exact ⟨_, a, rfl, h.leave i⟩
  | deviceTake =>
      obtain ⟨a', hfollows⟩ := h.deviceTake
      exact ⟨_, a', rfl, hfollows⟩
  | deviceReturn head =>
      obtain ⟨a', hfollows⟩ := h.deviceReturn head
      exact ⟨_, a', rfl, hfollows⟩

theorem foldlM (ops : List DiskOp) :
    ∀ {d a}, Holds d a → ∃ d' a', ops.foldlM Disk.step d = some d' ∧
      Relation.ReflTransGen Stepped (d, a) (d', a') ∧ Holds d' a' := by
  induction ops with
  | nil => exact fun {d a} h => ⟨d, a, rfl, .refl, h⟩
  | cons op ops ih =>
      intro d a h
      obtain ⟨d₁, a₁, hstep, hfollows⟩ := h.step op
      obtain ⟨d', a', hrun, hpath, h'⟩ := ih hfollows.holds
      exact ⟨d', a', by rw [foldlM_cons, hstep]; exact hrun, .head ⟨op, hstep, hfollows⟩ hpath, h'⟩

end Holds

/-- Every sequence of rounds of the driver and moves of the device runs without a panic.
Each of its steps takes its turn with the requests in flight, up to where the state says
they are, and so does any further step. -/
theorem virtio_descriptor_discipline (ops : List DiskOp) :
    ∃ d a, ops.foldlM Disk.step {} = some d ∧
      Relation.ReflTransGen Stepped ({}, {}) (d, a) ∧ Holds d a ∧
      ∀ op, ∃ d' a', d.step op = some d' ∧ Follows d a op d' a' := by
  obtain ⟨d, a, hrun, hpath, h⟩ := Holds.foldlM ops holds_boot
  exact ⟨d, a, hrun, hpath, h, h.step⟩

end F7ly.Fs.Virtio
