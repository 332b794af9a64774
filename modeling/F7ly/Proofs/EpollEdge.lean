import Mathlib
import F7ly.Fs.Epoll
import F7ly.Lib.Run

/-!
# Which edges an edge-triggered watch loses

An edge is owed to a watch when a bit it has delivered went away and came
back, and it stays owed until the bit is delivered again or goes away once
more. `Tracked` runs the system and keeps that account beside it. The watch
itself only remembers `last_ready_events`, so the question is when the two
agree: an owed bit must not stand in the history.

No scan breaks that, wherever it stops and whether or not there was room: it
either leaves the watch alone or replaces the history by what it has just
reported (`Watch.visit`). A modification empties the history. Only the target
can break it, by rising while the history still holds the bit, that is, when
no scan has reached the watch while the bit was down. The bit is then never
reported again while it stays up.
-/

namespace F7ly.Fs.Epoll

open List

def Events.Within (a b : Events) : Prop := ∀ n, a.getLsbD n → b.getLsbD n

def Events.Apart (a b : Events) : Prop := ∀ n, a.getLsbD n → b.getLsbD n = false

theorem and_eq_zero_iff {a b : Events} : a &&& b = 0 ↔ a.Apart b := by
  constructor
  · intro h n ha
    have hn := congrArg (·.getLsbD n) h
    simpa [ha] using hn
  · intro h
    apply BitVec.eq_of_getLsbD_eq
    intro n _
    cases ha : a.getLsbD n with
    | false => simp [ha]
    | true => simp [h n ha]

variable {n i j m : Nat} {v : View} {w w' : Watch} {c : Scan} {is : List Nat} {e : EpollFile}

theorem getLsbD_not_eq {a : Events} (h : (~~~a).getLsbD n) : a.getLsbD n = false := by
  simp at h
  exact h.2

theorem getLsbD_not_of {a b : Events} (hb : b.getLsbD n)
    (h : a.getLsbD n = false) : (~~~a).getLsbD n := by
  rw [BitVec.getLsbD_not, h, decide_eq_true (BitVec.lt_of_getLsbD hb)]
  rfl

theorem Watch.visit_current
    (hfile : v.openFile w.fd = some w.target) (harmed : w.oneshotDisabled = false) :
    (w.visit v).1 = (if w.edgeTriggered then w.ready v.targets &&& ~~~w.lastReadyEvents
      else w.ready v.targets) ∧ (w.visit v).2.lastReadyEvents = w.ready v.targets := by
  simp [Watch.visit, hfile, harmed]

theorem Watch.visit_kept (v : View) (w : Watch) :
    (w.visit v).2.fd = w.fd ∧ (w.visit v).2.target = w.target ∧
    (w.visit v).2.events = w.events ∧ (w.visit v).2.data = w.data := by
  unfold Watch.visit
  split <;> simp

theorem Watch.visit_history (h : (w.visit v).2.lastReadyEvents.getLsbD n) :
    w.lastReadyEvents.getLsbD n ∨ (w.visit v).1.getLsbD n := by
  unfold Watch.visit at h ⊢
  split at h
  · simp at h
  next hok =>
  rw [if_neg hok]
  by_cases het : w.edgeTriggered
  · simp only [het, if_true] at h ⊢
    cases hl : w.lastReadyEvents.getLsbD n with
    | true => exact .inl rfl
    | false => exact .inr (by rw [BitVec.getLsbD_and, h, getLsbD_not_of h hl]; rfl)
  · simp only [het] at h ⊢
    exact .inr h

theorem Watch.visit_disabled (hw : w.oneshotDisabled → w.oneshot) :
    (w.visit v).2.oneshotDisabled → (w.visit v).2.oneshot := by
  intro h
  have hev : (w.visit v).2.oneshot = w.oneshot := by
    rw [Watch.oneshot, (w.visit_kept v).2.2.1, ← Watch.oneshot]
  rw [hev]
  unfold Watch.visit at h
  split at h
  · exact hw h
  · simp only [Bool.or_eq_true, Bool.and_eq_true] at h
    exact h.elim hw And.right

/-- What is ready and not in the history of an edge-triggered watch is
delivered by a visit, or the history is empty afterwards. -/
theorem Watch.visit_delivers
    (hready : (w.ready v.targets).getLsbD n) (hl : w.lastReadyEvents.getLsbD n = false) :
    (w.visit v).1.getLsbD n ∨ (w.visit v).2.lastReadyEvents = 0 := by
  unfold Watch.visit
  split
  · exact .inr rfl
  · refine .inl ?_
    split
    · rw [BitVec.getLsbD_and, hready, getLsbD_not_of hready hl]
      rfl
    · exact hready

/-- The bits an array of events holds for the watch at a position. -/
def deliveredTo (events : List (Nat × Event)) (i : Nat) : Events :=
  match events.lookup i with
  | some ev => ev.events
  | none => 0

def Scan.Left (i : Nat) (w : Watch) (c : Scan) : Prop :=
  c.watchList[i]? = some w ∧ c.events.lookup i = none

def Scan.Visited (v : View) (i : Nat) (w : Watch) (c : Scan) : Prop :=
  c.watchList[i]? = some (w.visit v).2 ∧ deliveredTo c.events i = (w.visit v).1

theorem lookup_append_ne {events : List (Nat × Event)} {ev : Event}
    (h : i ≠ j) : (events ++ [(j, ev)]).lookup i = events.lookup i := by
  induction events with
  | nil => simp [lookup, beq_eq_false_iff_ne.mpr h]
  | cons p events ih =>
      rw [cons_append, lookup_cons, lookup_cons, ih]

theorem lookup_append_self {events : List (Nat × Event)} {ev : Event}
    (h : events.lookup i = none) : (events ++ [(i, ev)]).lookup i = some ev := by
  induction events with
  | nil => simp
  | cons p events ih =>
      rw [cons_append, lookup_cons]
      rw [lookup_cons] at h
      split at h
      · cases h
      · exact ih h

theorem Scan.put_other (h : i ≠ j) : (c.put j w).watchList[i]? = c.watchList[i]? :=
  getElem?_set_ne h.symm

theorem Scan.deliver_other {bits : Events} (h : i ≠ j) :
    (c.deliver j bits w).watchList[i]? = c.watchList[i]? ∧
    (c.deliver j bits w).events.lookup i = c.events.lookup i :=
  ⟨getElem?_set_ne h.symm, lookup_append_ne h⟩

/-- What one round does to a scan: it moves on with the watch visited, or it
finds the array full. -/
theorem Scan.run_cons (hw : c.watchList[i]? = some w) :
    Scan.run v m (i :: is) c = if (w.visit v).1 = 0 then Scan.run v m is (c.put i (w.visit v).2)
      else if m ≤ c.events.length then Scan.run v m is c
      else if c.events.length + 1 = m then c.deliver i (w.visit v).1 (w.visit v).2
      else Scan.run v m is (c.deliver i (w.visit v).1 (w.visit v).2) := by
  have hlen : (c.deliver i (w.visit v).1 (w.visit v).2).events.length =
      c.events.length + 1 := by simp [Scan.deliver]
  simp [Scan.run, hw, hlen]

theorem Scan.run_other :
    ∀ {is : List Nat} {c : Scan}, i ∉ is → (Scan.run v m is c).watchList[i]? = c.watchList[i]? ∧
      (Scan.run v m is c).events.lookup i = c.events.lookup i := by
  intro is
  induction is with
  | nil => exact fun _ => ⟨rfl, rfl⟩
  | cons j is ih =>
      intro c hmem
      obtain ⟨hne, hmem⟩ := ne_and_not_mem_of_not_mem_cons hmem
      cases hw : c.watchList[j]? with
      | none =>
          simp only [Scan.run, hw]
          exact ⟨trivial, trivial⟩
      | some w =>
          rw [Scan.run_cons hw]
          have hdel : (c.deliver j (w.visit v).1 (w.visit v).2).watchList[i]? =
              c.watchList[i]? ∧ (c.deliver j (w.visit v).1 (w.visit v).2).events.lookup i =
              c.events.lookup i := Scan.deliver_other hne
          split
          · have h := ih (c := c.put j (w.visit v).2) hmem
            exact ⟨h.1.trans (Scan.put_other hne), h.2⟩
          · split
            · exact ih hmem
            · split
              · exact hdel
              · have h := ih (c := c.deliver j (w.visit v).1 (w.visit v).2) hmem
                exact ⟨h.1.trans hdel.1, h.2.trans hdel.2⟩

theorem Scan.run_put (hmem : i ∉ is) (hc : c.Left i w) (hbits : (w.visit v).1 = 0) :
    (Scan.run v m is (c.put i (w.visit v).2)).Visited v i w := by
  obtain ⟨hl, he⟩ := Scan.run_other (v := v) (m := m) (c := c.put i (w.visit v).2) hmem
  have hlt : i < c.watchList.length := (List.getElem?_eq_some_iff.mp hc.1).1
  refine ⟨hl.trans (List.getElem?_set_self hlt), ?_⟩
  have hnone : (Scan.run v m is (c.put i (w.visit v).2)).events.lookup i = none :=
    he.trans hc.2
  rw [deliveredTo, hnone, hbits]

theorem Scan.deliver_visited
    (hc : c.Left i w) : (c.deliver i (w.visit v).1 (w.visit v).2).Visited v i w := by
  have hlt : i < c.watchList.length := (List.getElem?_eq_some_iff.mp hc.1).1
  refine ⟨List.getElem?_set_self hlt, ?_⟩
  have hsome : (c.deliver i (w.visit v).1 (w.visit v).2).events.lookup i =
      some ⟨(w.visit v).1, (w.visit v).2.data⟩ := lookup_append_self hc.2
  rw [deliveredTo, hsome]

theorem Scan.run_deliver (hmem : i ∉ is) (hc : c.Left i w) :
    (Scan.run v m is (c.deliver i (w.visit v).1 (w.visit v).2)).Visited v i w := by
  obtain ⟨hl, he⟩ := Scan.run_other (v := v) (m := m)
    (c := c.deliver i (w.visit v).1 (w.visit v).2) hmem
  obtain ⟨hl', he'⟩ := Scan.deliver_visited (v := v) hc
  exact ⟨hl.trans hl', by rw [deliveredTo, he]; exact he'⟩

theorem Scan.Left.put (hc : c.Left i w) (h : i ≠ j) : (c.put j w').Left i w :=
  ⟨(Scan.put_other h).trans hc.1, hc.2⟩

theorem Scan.Left.deliver {bits : Events}
    (hc : c.Left i w) (h : i ≠ j) : (c.deliver j bits w').Left i w :=
  ⟨(Scan.deliver_other h).1.trans hc.1, (Scan.deliver_other h).2.trans hc.2⟩

theorem Scan.run_left_or_visited :
    ∀ {is : List Nat} {c : Scan}, is.Nodup → c.Left i w →
      (Scan.run v m is c).Left i w ∨ (Scan.run v m is c).Visited v i w := by
  intro is
  induction is with
  | nil => exact fun _ hc => .inl hc
  | cons j is ih =>
      intro c hcons hc
      obtain ⟨hj, hnd⟩ := nodup_cons.mp hcons
      cases hwj : c.watchList[j]? with
      | none =>
          simp only [Scan.run, hwj]
          exact .inl hc
      | some wj =>
          rw [Scan.run_cons hwj]
          by_cases hij : i = j
          · subst hij
            obtain rfl : w = wj := Option.some.inj (hc.1.symm.trans hwj)
            split
            · next hbits => exact .inr (Scan.run_put hj hc hbits)
            · split
              · exact ih hnd hc
              · split
                · exact .inr (Scan.deliver_visited hc)
                · exact .inr (Scan.run_deliver hj hc)
          · split
            · exact ih hnd (hc.put hij)
            · split
              · exact ih hnd hc
              · split
                · exact .inl (hc.deliver hij)
                · exact ih hnd (hc.deliver hij)

theorem Scan.run_visits :
    ∀ {is : List Nat} {c : Scan}, is.Nodup → i ∈ is → c.Left i w →
      (∀ j ∈ is, j < c.watchList.length) → is.length + c.events.length ≤ m →
      (Scan.run v m is c).Visited v i w := by
  intro is
  induction is with
  | nil => exact fun _ hi => absurd hi not_mem_nil
  | cons j is ih =>
      intro c hcons hi hc hlt hroom
      obtain ⟨hj, hnd⟩ := nodup_cons.mp hcons
      have hjlt := hlt j mem_cons_self
      have hrest : ∀ k ∈ is, k < c.watchList.length :=
        fun k hk => hlt k (mem_cons_of_mem _ hk)
      have hwj : c.watchList[j]? = some (c.watchList[j]) := getElem?_eq_getElem hjlt
      rw [length_cons] at hroom
      have hfull : ¬ m ≤ c.events.length := by omega
      rw [Scan.run_cons hwj, if_neg hfull]
      generalize c.watchList[j] = wj at hwj
      by_cases hij : i = j
      · subst hij
        obtain rfl : w = wj := Option.some.inj (hc.1.symm.trans hwj)
        split
        · next hbits => exact Scan.run_put hj hc hbits
        · split
          · exact Scan.deliver_visited hc
          · exact Scan.run_deliver hj hc
      · have hi : i ∈ is := (mem_cons.mp hi).resolve_left hij
        have hpos : 0 < is.length := length_pos_of_mem hi
        split
        · refine ih hnd hi (hc.put hij) ?_ (by simp only [Scan.put]; omega)
          simpa [Scan.put] using hrest
        · -- the array is not full yet: a watch is still to come
          rw [if_neg (by omega)]
          refine ih hnd hi (hc.deliver hij) ?_ (by simp [Scan.deliver]; omega)
          simpa [Scan.deliver] using hrest

/-! The positions of a scan are all positions, once each. -/

theorem EpollFile.order_nodup (e : EpollFile) : e.order.Nodup := by
  refine List.Nodup.map_on ?_ nodup_range
  intro a ha b hb hab
  have hlt := mem_range.mp ha
  have hlt' := mem_range.mp hb
  have hmod : Nat.ModEq e.watchList.length a b := Nat.ModEq.add_left_cancel' _ hab
  rwa [Nat.ModEq, Nat.mod_eq_of_lt hlt, Nat.mod_eq_of_lt hlt'] at hmod

theorem EpollFile.order_lt (h : i ∈ e.order) : i < e.watchList.length := by
  obtain ⟨o, ho, rfl⟩ := mem_map.mp h
  exact Nat.mod_lt _ (Nat.zero_lt_of_lt (mem_range.mp ho))

theorem EpollFile.length_order (e : EpollFile) : e.order.length = e.watchList.length := by
  simp [EpollFile.order]

theorem EpollFile.mem_order (h : i < e.watchList.length) : i ∈ e.order := by
  have hsub : e.order ⊆ range e.watchList.length :=
    fun j hj => mem_range.mpr (EpollFile.order_lt hj)
  have hperm := subperm_of_subset e.order_nodup hsub
  have heq := hperm.perm_of_length_le (by simp [EpollFile.length_order])
  exact heq.mem_iff.mpr (mem_range.mpr h)

theorem EpollFile.collect_left_or_visited (hw : e.watchList[i]? = some w) :
    ((e.collectEpollReadyEvents v m).2.watchList[i]? = some w ∧
      deliveredTo (e.collectEpollReadyEvents v m).1 i = 0) ∨
    ((e.collectEpollReadyEvents v m).2.watchList[i]? = some (w.visit v).2 ∧
      deliveredTo (e.collectEpollReadyEvents v m).1 i = (w.visit v).1) := by
  unfold EpollFile.collectEpollReadyEvents
  split
  · exact .inl ⟨hw, rfl⟩
  · split
    · exact .inl ⟨hw, rfl⟩
    · have hc : Scan.Left i w
          ⟨e.watchList, [], e.scanCursor % e.watchList.length, false⟩ := ⟨hw, rfl⟩
      refine (Scan.run_left_or_visited (v := v) (m := m) e.order_nodup hc).imp ?_ id
      exact fun h => ⟨h.1, by simp [deliveredTo, h.2]⟩

theorem EpollFile.collect_visits (hw : e.watchList[i]? = some w) (hroom : e.watchList.length ≤ m) :
    deliveredTo (e.collectEpollReadyEvents v m).1 i = (w.visit v).1 := by
  have hlt : i < e.watchList.length := (List.getElem?_eq_some_iff.mp hw).1
  unfold EpollFile.collectEpollReadyEvents
  rw [if_neg (by omega), if_neg (by omega)]
  have hc : Scan.Left i w
      ⟨e.watchList, [], e.scanCursor % e.watchList.length, false⟩ := ⟨hw, rfl⟩
  exact (Scan.run_visits e.order_nodup (EpollFile.mem_order hlt) hc
    (fun j hj => EpollFile.order_lt hj) (by simpa [EpollFile.length_order] using hroom)).2

def System.readyAt (s : System) (i : Nat) : Events :=
  match s.epoll.watchList[i]? with
  | some w => w.ready s.targets
  | none => 0

/-- The system with, for each watch, the bits it has ever delivered and the
bits it owes: delivered once, gone since, back, and not delivered again. -/
structure Tracked where
  sys : System
  delivered : Nat → Events
  owed : Nat → Events

def Tracked.start (s : System) : Tracked := ⟨s, fun _ => 0, fun _ => 0⟩

def Tracked.step (s : Tracked) (op : Op) : Tracked :=
  let (events, sys) := s.sys.step op
  let delivered := fun i => s.delivered i ||| deliveredTo events i
  { sys := sys
    delivered := delivered
    owed := fun i =>
      ((s.owed i &&& ~~~deliveredTo events i) |||
        (sys.readyAt i &&& ~~~s.sys.readyAt i &&& delivered i)) &&& sys.readyAt i }

/-- Every edge owed to an edge-triggered watch is delivered by a scan that has
room, by any process whose descriptor still names the target. -/
def Tracked.Redelivers (s : Tracked) : Prop :=
  ∀ i w, s.sys.epoll.watchList[i]? = some w → w.edgeTriggered → w.oneshot = false →
    ∀ openFile maxevents, openFile w.fd = some w.target →
      s.sys.epoll.watchList.length ≤ maxevents → ∀ n, (s.owed i).getLsbD n →
        (deliveredTo (s.sys.step (.collect openFile maxevents)).1 i).getLsbD n

/-- No target raises a bit that an edge-triggered watch still has in its
history: since the bit fell, a scan has visited the watch or it was modified. -/
def System.Seen (s : System) : Op → Prop
  | .change t now =>
      ∀ w ∈ s.epoll.watchList, w.target = t → w.edgeTriggered → w.oneshot = false →
        queryEpollReadyEvents now w.events &&& ~~~w.ready s.targets &&& w.lastReadyEvents = 0
  | _ => True

/-- Every watch is as `add_watch` left it. -/
def EpollFile.Fresh (e : EpollFile) : Prop :=
  ∀ w ∈ e.watchList, w.lastReadyEvents = 0 ∧ w.oneshotDisabled = false

structure Tracked.Inv (s : Tracked) : Prop where
  ready : ∀ i w, s.sys.epoll.watchList[i]? = some w → (s.owed i).Within (w.ready s.sys.targets)
  history : ∀ i (w : Watch), s.sys.epoll.watchList[i]? = some w →
    Events.Within w.lastReadyEvents (s.delivered i)
  armed : ∀ w ∈ s.sys.epoll.watchList, w.oneshotDisabled → w.oneshot

def Tracked.Apart (s : Tracked) : Prop :=
  ∀ i w, s.sys.epoll.watchList[i]? = some w → w.edgeTriggered → w.oneshot = false →
    (s.owed i).Apart w.lastReadyEvents

variable {s : Tracked}

theorem Tracked.redelivers_iff (hinv : s.Inv) : s.Redelivers ↔ s.Apart := by
  constructor
  · intro h i w hw het hos n hn
    have harmed : w.oneshotDisabled = false := by
      have := hinv.armed w (mem_of_getElem? hw)
      simpa [hos] using this
    have hgot := h i w hw het hos (fun _ => some w.target) _ rfl (Nat.le_refl _) n hn
    rw [System.step, EpollFile.collect_visits hw (Nat.le_refl _),
      (Watch.visit_current rfl harmed).1, if_pos het, BitVec.getLsbD_and,
      Bool.and_eq_true] at hgot
    exact getLsbD_not_eq hgot.2
  · intro h i w hw het hos openFile m hfile hroom n hn
    have harmed : w.oneshotDisabled = false := by
      have := hinv.armed w (mem_of_getElem? hw)
      simpa [hos] using this
    have hready := hinv.ready i w hw n hn
    rw [System.step, EpollFile.collect_visits hw hroom,
      (Watch.visit_current hfile harmed).1, if_pos het, BitVec.getLsbD_and, hready,
      getLsbD_not_of hready (h i w hw het hos n hn)]
    rfl

/-- What a step does to one watch: nothing, a visit, or a modification. Only
in the first case can the target have changed. -/
inductive Turn (s s' : System) (got : Events) (w : Watch) : Watch → Prop
  | same (h : got = 0) : Turn s s' got w w
  | visit (v : View) (hv : v.targets = s.targets) (ht : s'.targets = s.targets)
      (h : got = (w.visit v).1) : Turn s s' got w (w.visit v).2
  | rearm (events : Events) (data : Nat) (h : got = 0) :
      Turn s s' got w (w.rearm events data)

theorem getElem?_modify_cases {l : List Watch} {f : Watch → Watch} :
    (l.modify j f)[i]? = l[i]? ∨ (l.modify j f)[i]? = l[i]?.map f := by
  rw [getElem?_modify]
  split
  · exact .inr rfl
  · exact .inl (by cases l[i]? <;> rfl)

theorem EpollFile.collect_watch (h : (e.collectEpollReadyEvents v m).2.watchList[i]? = some w') :
    ∃ w, e.watchList[i]? = some w := by
  cases hw : e.watchList[i]? with
  | some w => exact ⟨w, rfl⟩
  | none =>
      have hmem : i ∉ e.order := fun hi =>
        absurd (EpollFile.order_lt hi) (by simpa using hw)
      unfold EpollFile.collectEpollReadyEvents at h
      split at h
      · exact absurd h (by simp [hw])
      · split at h
        · exact absurd h (by simp [hw])
        · rw [(Scan.run_other hmem).1] at h
          exact absurd h (by simp [hw])

theorem System.step_turn {s : System} {op : Op} (h : (s.step op).2.epoll.watchList[i]? = some w') :
    ∃ w, s.epoll.watchList[i]? = some w ∧
      Turn s (s.step op).2 (deliveredTo (s.step op).1 i) w w' := by
  cases op with
  | change t now => exact ⟨w', h, .same rfl⟩
  | collect openFile m =>
      obtain ⟨w, hw⟩ := EpollFile.collect_watch (v := ⟨openFile, s.targets⟩) (m := m) h
      refine ⟨w, hw, ?_⟩
      obtain ⟨hl, hd⟩ | ⟨hl, hd⟩ := EpollFile.collect_left_or_visited
        (v := ⟨openFile, s.targets⟩) (m := m) hw
      · obtain rfl : w = w' := Option.some.inj (hl.symm.trans h)
        exact .same hd
      · obtain rfl : (w.visit _).2 = w' := Option.some.inj (hl.symm.trans h)
        exact .visit ⟨openFile, s.targets⟩ rfl rfl hd
  | mod fd target events data =>
      unfold System.step EpollFile.modWatch at h ⊢
      cases hf : s.epoll.find fd target with
      | none =>
          simp only [hf] at h ⊢
          exact ⟨w', h, .same rfl⟩
      | some j =>
          simp only [hf] at h ⊢
          obtain hm | hm := getElem?_modify_cases (l := s.epoll.watchList)
            (f := (·.rearm events data)) (i := i) (j := j)
          · exact ⟨w', hm.symm.trans h, .same rfl⟩
          · obtain ⟨w, hw, rfl⟩ := Option.map_eq_some_iff.mp (hm.symm.trans h)
            exact ⟨w, hw, .rearm events data rfl⟩

theorem readyAt_eq {s : System}
    (hw : s.epoll.watchList[i]? = some w) : s.readyAt i = w.ready s.targets := by
  rw [System.readyAt, hw]

theorem Watch.ready_visit (v : View) (w : Watch) (targets : Nat → Target) :
    (w.visit v).2.ready targets = w.ready targets := by
  obtain ⟨_, ht, he, _⟩ := w.visit_kept v
  rw [Watch.ready, ht, he, ← Watch.ready]

theorem Tracked.owed_step {op : Op} (hw : s.sys.epoll.watchList[i]? = some w)
    (hw' : (s.sys.step op).2.epoll.watchList[i]? = some w') :
    ((s.step op).owed i).getLsbD n ↔ (w'.ready (s.sys.step op).2.targets).getLsbD n ∧
      ((s.owed i).getLsbD n ∧ (deliveredTo (s.sys.step op).1 i).getLsbD n = false ∨
        (w.ready s.sys.targets).getLsbD n = false ∧ ((s.step op).delivered i).getLsbD n) := by
  show ((((s.owed i &&& ~~~deliveredTo (s.sys.step op).1 i) |||
    ((s.sys.step op).2.readyAt i &&& ~~~s.sys.readyAt i &&& (s.step op).delivered i)) &&&
      (s.sys.step op).2.readyAt i).getLsbD n = true) ↔ _
  rw [readyAt_eq hw, readyAt_eq hw']
  have hlt : ∀ b : Events, b.getLsbD n → n < 32 := fun _ => BitVec.lt_of_getLsbD
  have h₂ := hlt (w'.ready (s.sys.step op).2.targets)
  grind

theorem Tracked.Inv.step (hinv : s.Inv) (op : Op) : (s.step op).Inv := by
  refine ⟨?_, ?_, ?_⟩
  · intro i w' hw' n hn
    obtain ⟨w, hw, _⟩ := System.step_turn hw'
    exact ((Tracked.owed_step hw hw').mp hn).1
  · intro i w' hw' n hn
    obtain ⟨w, hw, hturn⟩ := System.step_turn hw'
    show (s.delivered i ||| deliveredTo (s.sys.step op).1 i).getLsbD n = true
    rw [BitVec.getLsbD_or, Bool.or_eq_true]
    cases hturn with
    | same => exact .inl (hinv.history i w' hw n hn)
    | visit v _ _ hgot =>
        rw [hgot]
        exact (Watch.visit_history hn).imp (hinv.history i w hw n) id
    | rearm => simp [Watch.rearm] at hn
  · intro w' hmem
    obtain ⟨i, hw'⟩ := getElem?_of_mem hmem
    obtain ⟨w, hw, hturn⟩ := System.step_turn hw'
    have harmed := hinv.armed w (mem_of_getElem? hw)
    cases hturn with
    | same => exact harmed
    | visit v => exact Watch.visit_disabled harmed
    | rearm => exact fun h => absurd h (by simp [Watch.rearm])

theorem Watch.ready_update {targets : Nat → Target} {t : Nat} {now : Target} :
    w.ready (Function.update targets t now) =
      if w.target = t then queryEpollReadyEvents now w.events else w.ready targets := by
  rw [Watch.ready, Function.update_apply]
  split <;> rfl

theorem System.mod_targets {s : System} {fd target data : Nat} {events : Events} :
    (s.step (.mod fd target events data)).2.targets = s.targets := by
  unfold System.step
  dsimp only
  split <;> rfl

theorem System.Seen.rising {s : System} {op : Op} (h : s.Seen op)
    (hw : w ∈ s.epoll.watchList) (het : w.edgeTriggered) (hos : w.oneshot = false)
    (hup : (w.ready (s.step op).2.targets).getLsbD n)
    (hdown : (w.ready s.targets).getLsbD n = false) : w.lastReadyEvents.getLsbD n = false := by
  cases op with
  | change t now =>
      change (w.ready (Function.update s.targets t now)).getLsbD n = true at hup
      rw [Watch.ready_update] at hup
      split at hup
      · next ht =>
          refine and_eq_zero_iff.mp (h w hw ht het hos) n ?_
          rw [BitVec.getLsbD_and, hup, getLsbD_not_of hup hdown]
          rfl
      · exact absurd hup (by rw [hdown]; decide)
  | collect openFile m => exact absurd (hdown.symm.trans hup) Bool.false_ne_true
  | mod fd target events data =>
      rw [System.mod_targets] at hup
      exact absurd (hdown.symm.trans hup) Bool.false_ne_true

/-- A step keeps the account and the histories in agreement exactly when no
target rises behind the back of a watch. -/
theorem Tracked.Apart.step_iff (hinv : s.Inv) (h : s.Apart) (op : Op) :
    (s.step op).Apart ↔ s.sys.Seen op := by
  constructor
  · intro h'
    cases op with
    | collect => trivial
    | mod => trivial
    | change t now =>
        intro w hmem ht het hos
        obtain ⟨i, hw⟩ := getElem?_of_mem hmem
        refine and_eq_zero_iff.mpr fun n hn => ?_
        rw [BitVec.getLsbD_and, Bool.and_eq_true] at hn
        cases hl : w.lastReadyEvents.getLsbD n with
        | false => rfl
        | true =>
            -- the bit rises with its history still there: it is owed now
            have hready : (w.ready (Function.update s.sys.targets t now)).getLsbD n := by
              rw [Watch.ready_update, if_pos ht]
              exact hn.1
            have hdel : ((s.step (.change t now)).delivered i).getLsbD n := by
              show (s.delivered i ||| 0#32).getLsbD n = true
              rw [BitVec.or_zero]
              exact hinv.history i w hw n hl
            have howed : ((s.step (.change t now)).owed i).getLsbD n :=
              (Tracked.owed_step hw (show (s.sys.step (.change t now)).2.epoll.watchList[i]? =
                some w from hw)).mpr ⟨hready, .inr ⟨getLsbD_not_eq hn.2, hdel⟩⟩
            exact hl.symm.trans (h' i w hw het hos n howed)
  · intro hseen i w' hw' het hos n hn
    obtain ⟨w, hw, hturn⟩ := System.step_turn hw'
    obtain ⟨hready, hcase⟩ := (Tracked.owed_step hw hw').mp hn
    cases hturn with
    | same =>
        obtain ⟨howed, _⟩ | ⟨hdown, _⟩ := hcase
        · exact h i w' hw het hos n howed
        · exact hseen.rising (mem_of_getElem? hw) het hos hready hdown
    | visit v hv ht hgot =>
        rw [Watch.ready_visit, ht] at hready
        rw [Watch.edgeTriggered, (w.visit_kept v).2.2.1] at het
        rw [Watch.oneshot, (w.visit_kept v).2.2.1] at hos
        obtain ⟨howed, hnot⟩ | ⟨hdown, _⟩ := hcase
        · rw [hgot] at hnot
          have hl := h i w hw het hos n howed
          obtain hbit | hempty := Watch.visit_delivers (hv.symm ▸ hready) hl
          · exact absurd (hnot.symm.trans hbit) Bool.false_ne_true
          · rw [hempty]
            simp
        · exact absurd (hdown.symm.trans hready) Bool.false_ne_true
    | rearm events data => simp [Watch.rearm]

theorem Tracked.start_inv (h : e.Fresh) (targets : Nat → Target) :
    (Tracked.start ⟨e, targets⟩).Inv ∧ (Tracked.start ⟨e, targets⟩).Apart := by
  refine ⟨⟨?_, ?_, ?_⟩, ?_⟩
  · intro i w _ n hn
    simp [Tracked.start] at hn
  · intro i w hw n hn
    rw [(h w (mem_of_getElem? hw)).1] at hn
    simp at hn
  · intro w hw hd
    rw [(h w hw).2] at hd
    cases hd
  · intro i w _ _ _ n hn
    simp [Tracked.start] at hn

/-- In a run in which no target rises behind the back of a watch, a scan with
room delivers every edge that is owed; and from such a state the next step
keeps it so exactly when it is again such a step. -/
theorem edges_redelivered {e : EpollFile} {targets : Nat → Target} {ops : List Op}
    {s : Tracked} (hfresh : e.Fresh)
    (hrun : Run.Guarded (fun s op => some (Tracked.step s op)) (fun s op => s.sys.Seen op)
      (Tracked.start ⟨e, targets⟩) ops s) :
    s.Redelivers ∧ ∀ op, (s.step op).Redelivers ↔ s.sys.Seen op := by
  have hinv : s.Inv ∧ s.Apart := by
    refine hrun.inv (I := fun s => s.Inv ∧ s.Apart) ?_ (Tracked.start_inv hfresh targets)
    intro s op s' h hseen hs'
    obtain rfl := Option.some.inj hs'
    exact ⟨h.1.step op, (h.2.step_iff h.1 op).mpr hseen⟩
  refine ⟨(Tracked.redelivers_iff hinv.1).mpr hinv.2, fun op => ?_⟩
  rw [Tracked.redelivers_iff (hinv.1.step op)]
  exact hinv.2.step_iff hinv.1 op

/-! A pipe's read end, watched by one edge-triggered watch through descriptor 3.
It is drained and filled again, with and without a scan in between. -/

def pipeEnd (readable : Bool) : Target := ⟨.pipe, readable, false, false, false, false⟩

def onePipe : System :=
  ⟨⟨[⟨3, 7, epollIn ||| epollEt, 42, 0, false⟩], 0⟩, fun _ => pipeEnd true⟩

def ownFiles : Nat → Option Nat := fun fd => if fd = 3 then some 7 else none

/-- The readings and the waits of `ops`, from the watch as it was added. -/
def after (ops : List Op) : Tracked := ops.foldl Tracked.step (Tracked.start onePipe)

theorem edges_redelivered_scanned :
    let ops : List Op := [.collect ownFiles 8, .change 7 (pipeEnd false),
      .collect ownFiles 8, .change 7 (pipeEnd true)]
    Run.Guarded (fun s op => some (Tracked.step s op)) (fun s op => s.sys.Seen op)
      (Tracked.start onePipe) ops (after ops) ∧
    (after ops).owed 0 = epollIn ∧ (after ops).Redelivers := by
  intro ops
  have hrun : Run.Guarded (fun s op => some (Tracked.step s op))
      (fun s op => s.sys.Seen op) (Tracked.start onePipe) ops (after ops) := by
    refine .cons trivial rfl (.cons ?_ rfl (.cons trivial rfl (.cons ?_ rfl (.nil _))))
    · show ∀ w ∈ _, _
      decide
    · show ∀ w ∈ _, _
      decide
  refine ⟨hrun, by decide, (edges_redelivered ?_ hrun).1⟩
  show ∀ w ∈ _, _
  decide

/-- Without the scan the edge is owed and never delivered, however often the
process waits. -/
theorem edge_lost :
    let s := after [.collect ownFiles 8, .change 7 (pipeEnd false), .change 7 (pipeEnd true)]
    s.delivered 0 = epollIn ∧ s.owed 0 = epollIn ∧ ∀ (rooms : List Nat) (room : Nat),
        ((rooms.foldl (fun t m => t.step (.collect ownFiles m)) s).sys.step
          (.collect ownFiles room)).1 = [] := by
  intro s
  have hstill : ∀ room, s.sys.step (.collect ownFiles room) = ([], s.sys) := by
    intro room
    have hepoll : s.sys.epoll = ⟨[⟨3, 7, epollIn ||| epollEt, 42, epollIn, false⟩], 0⟩ := by
      decide
    have hvisit : (Watch.mk 3 7 (epollIn ||| epollEt) 42 epollIn false).visit
        ⟨ownFiles, s.sys.targets⟩ = (0, ⟨3, 7, epollIn ||| epollEt, 42, epollIn, false⟩) := by
      decide
    have hcollect : s.sys.epoll.collectEpollReadyEvents ⟨ownFiles, s.sys.targets⟩ room =
        ([], s.sys.epoll) := by
      rw [hepoll, EpollFile.collectEpollReadyEvents]
      split
      · rfl
      · simp [EpollFile.order, Scan.run, hvisit, Scan.put]
    rw [System.step, hcollect]
  refine ⟨by decide, by decide, fun rooms room => ?_⟩
  have hsys : (rooms.foldl (fun t m => t.step (.collect ownFiles m)) s).sys = s.sys := by
    generalize s = t at hstill
    induction rooms generalizing t with
    | nil => rfl
    | cons m rooms ih =>
        have hstep : (t.step (.collect ownFiles m)).sys = t.sys :=
          congrArg Prod.snd (hstill m)
        rw [foldl_cons, ih _ (by rw [hstep]; exact hstill), hstep]
  rw [hsys, hstill]

end F7ly.Fs.Epoll
