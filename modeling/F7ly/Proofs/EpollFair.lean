import F7ly.Proofs.EpollEdge

/-!
# How long a ready watch waits for its event

A scan that does not get to a watch has filled the array before, and it leaves the
cursor behind the last watch it delivered: what is ahead of the watch in the next scan
is the rest of what was ahead of it in this one, and at least `maxevents` watches that
deliver are gone from it. So the number of watches that deliver at all bounds the number
of scans, and with it a watch that another one can come in front of waits longer than
the always ready ones alone would make it.
-/

namespace F7ly.Fs.Epoll

open EpollFile List

def ring (n start : Nat) : List Nat := (range n).map fun offset => (start + offset) % n

theorem ring_add (n start k : Nat) : ring n (start + k) = (ring n start).rotate k := by
  refine ext_getElem (by simp [ring]) fun i hi hi' => ?_
  simp only [ring, getElem_map, getElem_range, getElem_rotate, length_map, length_range]
  rw [Nat.add_mod_mod, Nat.add_assoc, Nat.add_comm k i]

theorem ring_mod (n start : Nat) : ring n (start % n) = ring n start :=
  map_congr_left fun _ _ => Nat.mod_add_mod ..

theorem EpollFile.order_eq (e : EpollFile) : e.order = ring e.watchList.length e.scanCursor :=
  ring_mod ..

theorem ring_behind {n start j : Nat} {before after : List Nat}
    (h : ring n start = before ++ j :: after) : ring n (j + 1) = after ++ (before ++ [j]) := by
  have hlen : before.length < (ring n start).length := by simp [h]
  have hj : j = (start + before.length) % n := by
    have hget : (ring n start)[before.length]? = some j := by simp [h]
    rw [getElem?_eq_getElem hlen] at hget
    simpa [ring] using hget.symm
  have hring : ring n (j + 1) = ring n (start + (before ++ [j]).length) := by
    rw [← ring_mod, hj, Nat.mod_add_mod, ring_mod, length_append, length_singleton, Nat.add_assoc]
  rw [hring, ring_add, h, append_cons, rotate_append_length_eq]

/-- The scan has filled the array from the first positions of `ahead` and left the rest. -/
structure Scan.Filled (m : Nat) (ahead : List Nat) (c r : Scan) (rest : List Nat) : Prop where
  cursor : ∃ before j, ahead = before ++ j :: rest ∧ r.nextCursor = (j + 1) % c.watchList.length ∧
    ∃ events, r.events = c.events ++ events ∧ c.events.length + events.length = m ∧
      (events.map Prod.fst).Sublist (before ++ [j])
  deliveredAny : r.deliveredAny = true
  length : r.watchList.length = c.watchList.length

theorem Scan.Filled.cons {m j : Nat} {ahead rest : List Nat} {c c' r : Scan}
    (h : Scan.Filled m ahead c' r rest) (hlen : c'.watchList.length = c.watchList.length)
    (hev : ∃ events, c'.events = c.events ++ events ∧ (events.map Prod.fst).Sublist [j]) :
    Scan.Filled m (j :: ahead) c r rest := by
  obtain ⟨⟨before, k, hahead, hcursor, events, hevents, hm, hsub⟩, hany, hlength⟩ := h
  obtain ⟨events', hevents', hsub'⟩ := hev
  refine ⟨⟨j :: before, k, by rw [hahead]; rfl, by rw [hcursor, hlen], events' ++ events, ?_, ?_,
    ?_⟩, hany, hlength.trans hlen⟩
  · rw [hevents, hevents', append_assoc]
  · rw [hevents', length_append] at hm
    rw [length_append]
    omega
  · rw [map_append]
    exact hsub'.append hsub

/-- A watch that has something to deliver gets its event, or the array was filled before
the scan got to it. -/
theorem Scan.run_due {v : View} {m i : Nat} {w : Watch} (hdue : (w.visit v).1 ≠ 0)
    (after : List Nat) :
    ∀ {ahead : List Nat} {c : Scan}, (ahead ++ i :: after).Nodup → c.Left i w →
      (∀ j ∈ ahead, j < c.watchList.length) → c.events.length < m →
      (Scan.run v m (ahead ++ i :: after) c).Visited v i w ∨
        (Scan.run v m (ahead ++ i :: after) c).Left i w ∧
          ∃ rest, Scan.Filled m ahead c (Scan.run v m (ahead ++ i :: after) c) rest := by
  intro ahead
  induction ahead with
  | nil =>
      intro c hnd hc _ hroom
      rw [nil_append, Scan.run_cons hc.1, if_neg hdue, if_neg (by omega)]
      refine .inl ?_
      split
      · exact Scan.deliver_visited hc
      · exact Scan.run_deliver (nodup_cons.mp hnd).1 hc
  | cons j ahead ih =>
      intro c hnd hc hlt hroom
      rw [cons_append] at hnd ⊢
      obtain ⟨hj, hnd⟩ := nodup_cons.mp hnd
      have hij : i ≠ j := fun heq => hj (heq ▸ mem_append_right _ mem_cons_self)
      have hjlt := hlt j mem_cons_self
      have hrest : ∀ k ∈ ahead, k < c.watchList.length :=
        fun k hk => hlt k (mem_cons_of_mem _ hk)
      have hwj : c.watchList[j]? = some (c.watchList[j]) := getElem?_eq_getElem hjlt
      rw [Scan.run_cons hwj]
      split
      · refine (ih hnd (hc.put hij) (by simpa [Scan.put] using hrest) hroom).imp_right ?_
        rintro ⟨hleft, rest, hfilled⟩
        exact ⟨hleft, rest, hfilled.cons (by simp [Scan.put])
          ⟨[], (append_nil _).symm, nil_sublist _⟩⟩
      rw [if_neg (by omega)]
      split
      · next hfull =>
          refine .inr ⟨hc.deliver hij, ahead, ⟨⟨[], j, rfl, rfl, _, rfl, hfull, .refl _⟩, rfl, ?_⟩⟩
          simp [Scan.deliver]
      next hfull =>
      refine (ih hnd (hc.deliver hij) (by simpa [Scan.deliver] using hrest) ?_).imp_right ?_
      · simp only [Scan.deliver, length_append, length_singleton]
        omega
      · rintro ⟨hleft, rest, hfilled⟩
        exact ⟨hleft, rest, hfilled.cons (by simp [Scan.deliver]) ⟨_, rfl, .refl _⟩⟩

theorem EpollFile.collect_due {v : View} {m i : Nat} {e : EpollFile} {w : Watch} (hm : 0 < m)
    (hw : e.watchList[i]? = some w) (hdue : (w.visit v).1 ≠ 0) {ahead after : List Nat}
    (horder : e.order = ahead ++ i :: after) :
    deliveredTo (e.collectEpollReadyEvents v m).1 i = (w.visit v).1 ∨
      (e.collectEpollReadyEvents v m).2.watchList[i]? = some w ∧
        ∃ before rest after', ahead = before ++ rest ∧
          (e.collectEpollReadyEvents v m).2.order = rest ++ i :: after' ∧
          (e.collectEpollReadyEvents v m).1.length = m ∧
          ((e.collectEpollReadyEvents v m).1.map Prod.fst).Sublist before := by
  have hlt : i < e.watchList.length := (List.getElem?_eq_some_iff.mp hw).1
  have hnd := e.order_nodup
  have hpos : ∀ j ∈ ahead, j < e.watchList.length := fun j hj =>
    order_lt (horder ▸ mem_append_left _ hj)
  have hc : Scan.Left i w
      ⟨e.watchList, [], e.scanCursor % e.watchList.length, false⟩ := ⟨hw, rfl⟩
  rw [horder] at hnd
  rw [collectEpollReadyEvents, if_neg (by omega), if_neg (by omega), horder]
  refine (Scan.run_due hdue after hnd hc hpos hm).imp (fun h => h.2) ?_
  rintro ⟨hleft, rest, ⟨⟨before, j, hahead, hcursor, events, hevents, hlen, hsub⟩, hany, hlength⟩⟩
  refine ⟨hleft.1, before ++ [j], rest, after ++ (before ++ [j]), ?_, ?_, ?_, ?_⟩
  · rw [hahead, append_cons]
  · rw [order_eq, hlength]
    dsimp only
    rw [hany, if_pos rfl, hcursor, ring_mod]
    rw [order_eq, hahead, append_assoc, cons_append] at horder
    rw [ring_behind horder, append_assoc, cons_append]
  · dsimp only at hevents ⊢
    rw [hevents]
    simpa using hlen
  · dsimp only at hevents ⊢
    rw [hevents]
    exact hsub

/-- The arrays of consecutive scans; the files change in between, the list of watches
does not. -/
def EpollFile.calls (m : Nat) (e : EpollFile) : List View → List (List (Nat × Event))
  | [] => []
  | v :: views =>
      (e.collectEpollReadyEvents v m).1 :: (e.collectEpollReadyEvents v m).2.calls m views

theorem EpollFile.calls_due {m i : Nat} {w : Watch} (hm : 0 < m) {D : Finset Nat} :
    ∀ {views : List View} {e : EpollFile} {ahead after : List Nat},
      e.watchList[i]? = some w → (∀ v ∈ views, (w.visit v).1 ≠ 0) →
      (∀ events ∈ e.calls m views, ∀ p ∈ events, p.1 ∈ D) →
      e.order = ahead ++ i :: after → (ahead.filter (· ∈ D)).length < m * views.length →
      ∃ v ∈ views, ∃ events ∈ e.calls m views, deliveredTo events i = (w.visit v).1 := by
  intro views
  induction views with
  | nil => exact fun _ _ _ _ hcount => absurd hcount (Nat.not_lt_zero _)
  | cons v views ih =>
      intro e ahead after hw hdue hD horder hcount
      rw [forall_mem_cons] at hdue
      rw [calls, forall_mem_cons] at hD
      rcases collect_due hm hw hdue.1 horder with
        hnow | ⟨hw', before, rest, after', rfl, horder', hlen, hsub⟩
      · exact ⟨v, mem_cons_self, _, mem_cons_self, hnow⟩
      · -- the events of this scan are for positions that are no longer ahead
        have hgone : m ≤ (before.filter (· ∈ D)).length := by
          have hall : ((e.collectEpollReadyEvents v m).1.map Prod.fst).filter (· ∈ D) =
              (e.collectEpollReadyEvents v m).1.map Prod.fst := by
            refine filter_eq_self.mpr fun j hj => ?_
            obtain ⟨p, hp, rfl⟩ := mem_map.mp hj
            exact decide_eq_true (hD.1 p hp)
          have hle := (hsub.filter fun j => decide (j ∈ D)).length_le
          rwa [hall, length_map, hlen] at hle
        rw [filter_append, length_append, length_cons, Nat.mul_add, Nat.mul_one] at hcount
        obtain ⟨v', hv', events, hevents, heq⟩ :=
          ih hw' hdue.2 hD.2 horder' (by omega)
        exact ⟨v', mem_cons_of_mem _ hv', events, mem_cons_of_mem _ hevents, heq⟩

theorem EpollFile.ahead_lt {e : EpollFile} {i : Nat} {ahead after : List Nat}
    (horder : e.order = ahead ++ i :: after) {D : Finset Nat} (hi : i ∈ D) :
    (ahead.filter (· ∈ D)).length < D.card := by
  have hnd : (ahead.filter (· ∈ D) ++ [i]).Nodup := by
    refine e.order_nodup.sublist ?_
    rw [horder]
    exact filter_sublist.append (singleton_sublist.mpr mem_cons_self)
  have hsub : (ahead.filter (· ∈ D) ++ [i]).toFinset ⊆ D := by
    intro j hj
    rcases mem_append.mp (mem_toFinset.mp hj) with hj | hj
    · exact of_decide_eq_true (mem_filter.mp hj).2
    · exact mem_singleton.mp hj ▸ hi
  have hcard := Finset.card_le_card hsub
  rw [toFinset_card_of_nodup hnd, length_append, length_singleton] at hcard
  exact hcard

theorem mem_of_deliveredTo {events : List (Nat × Event)} {i : Nat}
    (h : deliveredTo events i ≠ 0) : ∃ p ∈ events, p.1 = i := by
  rw [deliveredTo] at h
  split at h
  · next ev hlookup =>
      obtain ⟨l₁, l₂, rfl, -⟩ := lookup_eq_some_iff.mp hlookup
      exact ⟨(i, ev), mem_append_right _ mem_cons_self, rfl⟩
  · exact absurd rfl h

/-- In consecutive scans with room for as many events as there are watches that get one, a
watch that is ready all the time gets one, and so does a bit that an edge-triggered watch
has not reported and that stays. -/
theorem ready_watch_delivered {m : Nat} (hm : 0 < m) {e : EpollFile} {views : List View}
    {D : Finset Nat} (hD : ∀ events ∈ e.calls m views, ∀ p ∈ events, p.1 ∈ D)
    (hcalls : D.card ≤ m * views.length) {i : Nat} (hi : i ∈ D) {w : Watch}
    (hw : e.watchList[i]? = some w) (harmed : w.oneshotDisabled = false)
    (hfile : ∀ v ∈ views, v.openFile w.fd = some w.target) :
    (w.edgeTriggered = false → (∀ v ∈ views, w.ready v.targets ≠ 0) →
      ∃ events ∈ e.calls m views, ∃ p ∈ events, p.1 = i) ∧
    ∀ n, w.edgeTriggered = true → w.lastReadyEvents.getLsbD n = false →
      (∀ v ∈ views, (w.ready v.targets).getLsbD n) →
      ∃ events ∈ e.calls m views, (deliveredTo events i).getLsbD n := by
  have hlt : i < e.watchList.length := (List.getElem?_eq_some_iff.mp hw).1
  obtain ⟨ahead, after, horder⟩ := List.append_of_mem (mem_order hlt)
  have hcount := Nat.lt_of_lt_of_le (ahead_lt horder hi) hcalls
  constructor
  · intro hlevel hready
    have hvisit : ∀ v ∈ views, (w.visit v).1 = w.ready v.targets := by
      intro v hv
      rw [(Watch.visit_current (hfile v hv) harmed).1, hlevel]
      rfl
    obtain ⟨v, hv, events, hevents, heq⟩ := calls_due hm hw
      (fun v hv => hvisit v hv ▸ hready v hv) hD horder hcount
    refine ⟨events, hevents, mem_of_deliveredTo ?_⟩
    rw [heq, hvisit v hv]
    exact hready v hv
  · intro n hedge hlast hready
    have hvisit : ∀ v ∈ views, (w.visit v).1.getLsbD n := by
      intro v hv
      rw [(Watch.visit_current (hfile v hv) harmed).1, hedge, if_pos rfl, BitVec.getLsbD_and,
        hready v hv, getLsbD_not_of (hready v hv) hlast]
      rfl
    obtain ⟨v, hv, events, hevents, heq⟩ := calls_due hm hw
      (fun v hv hzero => by simpa [hzero] using hvisit v hv) hD horder hcount
    refine ⟨events, hevents, ?_⟩
    rw [heq]
    exact hvisit v hv

/-- An edge-triggered watch and a level-triggered one, on files that are readable. -/
def edgeAndLevel : EpollFile :=
  ⟨[⟨3, 7, epollIn ||| epollEt, 0, 0, false⟩, ⟨4, 8, epollIn, 1, 0, false⟩], 0⟩

def bothReadable : View := ⟨fun fd => some (fd + 4), fun _ => pipeEnd true⟩

theorem ready_watch_delivered_second :
    ∃ events ∈ edgeAndLevel.calls 1 [bothReadable, bothReadable], ∃ p ∈ events, p.1 = 1 :=
  (ready_watch_delivered (D := {0, 1}) (by decide) (by decide) (by decide) (by decide) rfl rfl
    (by decide)).1 (by decide) (by decide)

/-- The one level-triggered watch is ready, and the one scan that is due to it goes to the
other. -/
theorem ready_watch_passed :
    (∀ w ∈ edgeAndLevel.watchList[1]?, w.edgeTriggered = false ∧ w.oneshot = false ∧
      w.ready bothReadable.targets ≠ 0 ∧ bothReadable.openFile w.fd = some w.target) ∧
    edgeAndLevel.calls 1 [bothReadable] = [[(0, ⟨epollIn, 0⟩)]] := by
  decide

end F7ly.Fs.Epoll
