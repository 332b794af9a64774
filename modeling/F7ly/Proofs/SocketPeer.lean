import F7ly.Fs.SocketPeer
import F7ly.Lib.Run
import Mathlib.Tactic.Set

/-!
# Lifetime of the two ends of a stream

A task that has read `_peer` goes on to use it without a lock or a reference, so
what keeps the other end alive is only that its destructor has not finished. The
stages of a call say which ends it will still use, and a state is sound if none
of them is destroyed.

Only two steps can spoil that. The last step of a destructor does if some call
has yet to use the end. And a destructor that finds `_peer` set reads it three
times more; the destructor of the other end, running at the same time, clears it
in between. Everything else keeps the invariant, which says besides that `_peer`
is cleared at both ends before a destructor reaches its end: `_peer` of an end is
set while that of the other is not only between the two steps in which its own
destructor clears them.
-/

namespace F7ly.Fs.SocketPeer

open SocketPeer.System Stage

/-- The ends a task in this stage will still follow a pointer to. -/
def Stage.uses : Stage → List Bool
  | .idle => []
  | .sendStart e _ | .sendHeld e _ => [e]
  | .sendProbe e _ | .sendProbeHeld e _ => [e, !e]
  | .sendClear e _ _ | .sendClearHeld e _ _ => [e, !e]
  | .sendQueue x _ _ | .sendQueueHeld x _ _ => [x]
  | .recvStart e _ _ _ | .recvHeld e _ _ _ => [e]
  | .shutStart e _ | .shutHeld e _ => [e]
  | .shutPeer x | .shutPeerHeld x => [x]
  | .dtorStart e | .dtorHeld e | .dtorCheck e | .dtorEnd e => [e]
  | .dtorPeer e | .dtorPeerHeld e | .dtorPeerMarked e => [e, !e]

def Stage.dtor : Stage → Option Bool
  | .dtorStart e | .dtorHeld e | .dtorCheck e | .dtorEnd e => some e
  | .dtorPeer e | .dtorPeerHeld e | .dtorPeerMarked e => some e
  | _ => none

/-- The end whose destructor has found `_peer` set and not cleared it yet. -/
def Stage.window : Stage → Option Bool
  | .dtorPeer e | .dtorPeerHeld e | .dtorPeerMarked e => some e
  | _ => none

structure System.Sound (s : System) : Prop where
  fault : s.fault = false
  peer : ∀ e, (s.ends e).peer = true → (s.ends (!e)).destroyed = false
  uses : ∀ {t x}, x ∈ (s.stages t).uses → (s.ends x).destroyed = false

/-- The step finishes a destructor only if no call will use the end any more, and
lets a destructor that finds `_peer` set turn to the other end only if that one's is
not turned to this end. -/
def System.Orderly (s : System) : Op → Prop
  | .call _ _ => True
  | .run t _ =>
      match s.stages t with
      | .dtorCheck e => (s.ends e).peer = true → ∀ t', (s.stages t').window ≠ some (!e)
      | .dtorEnd e => ∀ t', t' ≠ t → e ∉ (s.stages t').uses
      | _ => True

structure System.Inv (s : System) : Prop extends s.Sound where
  one : ∀ {t t' e}, (s.stages t).dtor = some e → (s.stages t').dtor = some e → t = t'
  closing : ∀ {t e}, (s.stages t).dtor = some e → (s.ends e).closing = true
  gone : ∀ e, (s.ends e).destroyed = true → (s.ends e).closing = true
  window : ∀ {t e}, (s.stages t).window = some e → (s.ends e).peer = true
  apart : ∀ {t t' e}, (s.stages t).window = some e → (s.stages t').window ≠ some (!e)
  marked : ∀ e, (s.ends e).peer = true →
    (s.ends (!e)).peer = true ∨ ∃ t, s.stages t = .dtorPeerMarked e
  cleared : ∀ {t e}, s.stages t = .dtorPeerMarked e → (s.ends (!e)).peer = false
  ended : ∀ {t e}, s.stages t = .dtorEnd e → (s.ends e).peer = false

theorem System.Inv.boot : boot.Inv where
  fault := rfl
  peer _ _ := rfl
  uses h := by cases h
  one h := by cases h
  closing h := by cases h
  gone _ h := by cases h
  window h := by cases h
  apart h := by cases h
  marked _ _ := .inl rfl
  cleared h := by cases h
  ended h := by cases h

variable {e x : Bool} {f : End → End}

theorem Stage.dtor_of_window {st : Stage} (h : st.window = some e) : st.dtor = some e := by
  cases st <;> simp_all [window, dtor]

variable {s s' : System} {t : Nat} {next : Stage}

/-- After a step that moves one task, what holds of its stage and of the others' old
ones holds of every stage. -/
theorem stages_cases {motive : Nat → Stage → Prop}
    (hstages : s'.stages = Function.update s.stages t next) (hself : motive t next)
    (hother : ∀ j, j ≠ t → motive j (s.stages j)) (j : Nat) : motive j (s'.stages j) := by
  rw [hstages, Function.update_apply]
  split
  · next hj => rwa [hj]
  · next hj => exact hother j hj

/-- What a step that moves one task has to show: pointers are only cleared, and the end
of one is alive and points back unless a destructor is between its two steps. -/
theorem System.Inv.change (h : s.Inv) (hfault : s'.fault = s.fault)
    (hstages : s'.stages = Function.update s.stages t next)
    (hpeers : ∀ e, (s'.ends e).peer = true → (s.ends e).peer = true ∧
      (s'.ends (!e)).destroyed = false ∧
      ((s'.ends (!e)).peer = true ∨ ∃ j, s'.stages j = .dtorPeerMarked e))
    (hclosing : ∀ e, (s.ends e).closing = true → (s'.ends e).closing = true)
    (hgone : ∀ e, (s'.ends e).destroyed = true → (s'.ends e).closing = true)
    (hothers : ∀ j, j ≠ t → (∀ x ∈ (s.stages j).uses, (s'.ends x).destroyed = false) ∧
      ∀ e, (s.stages j).window = some e → (s'.ends e).peer = true)
    (huses : ∀ x ∈ next.uses, (s'.ends x).destroyed = false) (hdtor : ∀ e, next.dtor = some e →
      (s'.ends e).closing = true ∧ ∀ j, j ≠ t → (s.stages j).dtor ≠ some e)
    (hwindow : ∀ e, next.window = some e →
      (s'.ends e).peer = true ∧ ∀ j, j ≠ t → (s.stages j).window ≠ some (!e))
    (hmarked : ∀ e, next = .dtorPeerMarked e → (s'.ends (!e)).peer = false)
    (hended : ∀ e, next = .dtorEnd e → (s'.ends e).peer = false) : s'.Inv := by
  have hcleared {e : Bool} (he : (s.ends e).peer = false) : (s'.ends e).peer = false :=
    eq_false_of_ne_true fun hp => by simp [(hpeers e hp).1] at he
  have hmoved {α : Type} (f : Stage → Option α) {j : Nat} {a : α}
      (hj : f (s'.stages j) = some a) :
      (j = t ∧ f next = some a) ∨ (j ≠ t ∧ f (s.stages j) = some a) :=
    stages_cases (motive := fun j st => f st = some a → (j = t ∧ f next = some a) ∨
      (j ≠ t ∧ f (s.stages j) = some a)) hstages (fun hf => .inl ⟨rfl, hf⟩)
      (fun j hj hf => .inr ⟨hj, hf⟩) j hj
  refine ⟨⟨hfault.trans h.fault, fun e he => (hpeers e he).2.1, fun {j x} => ?_⟩,
    fun {j j' e} hj hj' => ?_, fun {j e} => ?_, hgone, fun {j e} => ?_,
    fun {j j' e} hj hj' => ?_, fun e he => (hpeers e he).2.2, fun {j e} => ?_, fun {j e} => ?_⟩
  · exact stages_cases (motive := fun _ st => x ∈ st.uses → _) hstages (huses x)
      (fun j hj => (hothers j hj).1 x) j
  · rcases hmoved Stage.dtor hj with ⟨rfl, hn⟩ | ⟨hjt, ho⟩
    · rcases hmoved Stage.dtor hj' with ⟨rfl, -⟩ | ⟨hjt', ho'⟩
      · rfl
      · exact absurd ho' ((hdtor e hn).2 j' hjt')
    · rcases hmoved Stage.dtor hj' with ⟨rfl, hn'⟩ | ⟨-, ho'⟩
      · exact absurd ho ((hdtor e hn').2 j hjt)
      · exact h.one ho ho'
  · exact stages_cases (motive := fun _ st => st.dtor = some e → _) hstages
      (fun hd => (hdtor e hd).1) (fun _ _ hd => hclosing e (h.closing hd)) j
  · exact stages_cases (motive := fun _ st => st.window = some e → _) hstages
      (fun hw => (hwindow e hw).1) (fun j hj => (hothers j hj).2 e) j
  · rcases hmoved Stage.window hj with ⟨rfl, hn⟩ | ⟨hjt, ho⟩
    · rcases hmoved Stage.window hj' with ⟨-, hn'⟩ | ⟨hjt', ho'⟩
      · rw [hn] at hn'
        simp at hn'
      · exact (hwindow e hn).2 j' hjt' ho'
    · rcases hmoved Stage.window hj' with ⟨rfl, hn'⟩ | ⟨-, ho'⟩
      · exact (hwindow (!e) hn').2 j hjt (by rwa [Bool.not_not])
      · exact h.apart ho ho'
  · exact stages_cases (motive := fun _ st => st = .dtorPeerMarked e → _) hstages (hmarked e)
      (fun _ _ hj => hcleared (h.cleared hj)) j
  · exact stages_cases (motive := fun _ st => st = .dtorEnd e → _) hstages (hended e)
      (fun _ _ hj => hcleared (h.ended hj)) j

/-- A step that leaves the pointers and destructors of both ends alone and moves
one task. -/
structure System.Moves (s s' : System) (t : Nat) (next : Stage) : Prop where
  fault : s'.fault = s.fault
  peer : ∀ e, (s'.ends e).peer = (s.ends e).peer
  closing : ∀ e, (s'.ends e).closing = (s.ends e).closing
  destroyed : ∀ e, (s'.ends e).destroyed = (s.ends e).destroyed
  stages : s'.stages = Function.update s.stages t next

theorem System.Inv.moves (h : s.Inv) (hm : s.Moves s' t next)
    (huses : ∀ x ∈ next.uses, (s.ends x).destroyed = false)
    (hdtor : ∀ e, next.dtor = some e → (s.stages t).dtor = some e)
    (hwindow : ∀ e, next.window = some e → (s.ends e).peer = true ∧
      ∀ t', t' ≠ t → (s.stages t').window ≠ some (!e))
    (hmarked : ∀ e, s.stages t ≠ .dtorPeerMarked e ∧ next ≠ .dtorPeerMarked e)
    (hended : ∀ e, next = .dtorEnd e → (s.ends e).peer = false) : s'.Inv := by
  refine h.change hm.fault hm.stages (fun e he => ?_) (fun e he => ?_) (fun e he => ?_)
    (fun j _ => ⟨fun x hx => ?_, fun e he => ?_⟩) (fun x hx => ?_) (fun e he => ⟨?_, ?_⟩)
    (fun e he => ?_) (fun e he => absurd he (hmarked e).2) (fun e he => ?_)
  · rw [hm.peer] at he
    rw [hm.destroyed, hm.peer]
    refine ⟨he, h.peer e he, (h.marked e he).imp_right fun ⟨j, hj⟩ => ⟨j, ?_⟩⟩
    have hjt : j ≠ t := fun hjt => (hmarked e).1 (hjt ▸ hj)
    rw [hm.stages, Function.update_of_ne hjt, hj]
  · rwa [hm.closing]
  · rw [hm.closing]
    exact h.gone e (hm.destroyed e ▸ he)
  · rw [hm.destroyed]
    exact h.uses hx
  · rw [hm.peer]
    exact h.window he
  · rw [hm.destroyed]
    exact huses x hx
  · rw [hm.closing]
    exact h.closing (hdtor e he)
  · exact fun j hj hd => hj (h.one hd (hdtor e he))
  · rw [hm.peer]
    exact hwindow e he
  · rw [hm.peer]
    exact hended e he

/-- Work on an end that leaves its pointer and its destructor alone. -/
structure Quiet (f : End → End) : Prop where
  peer : ∀ x, (f x).peer = x.peer
  closing : ∀ x, (f x).closing = x.closing
  destroyed : ∀ x, (f x).destroyed = x.destroyed

theorem System.moves_setEnd (hf : Quiet f) : s.Moves ((s.setEnd x f).go t next) t next := by
  have hsame {α : Type} (g : End → α) (hg : ∀ y, g (f y) = g y) (e : Bool) :
      g (((s.setEnd x f).go t next).ends e) = g (s.ends e) := by
    by_cases he : e = x
    · subst he
      simp [setEnd, go, hg]
    · simp [setEnd, go, Function.update_of_ne he]
  exact ⟨rfl, hsame (·.peer) hf.peer, hsame (·.closing) hf.closing,
    hsame (·.destroyed) hf.destroyed, rfl⟩

theorem Quiet.lock (hf : Quiet f) (l : Option Nat) : Quiet fun x => { f x with lock := l } :=
  ⟨hf.peer, hf.closing, hf.destroyed⟩

theorem Quiet.id : Quiet (id : End → End) := ⟨fun _ => rfl, fun _ => rfl, fun _ => rfl⟩

theorem System.leave_moves (halive : (s.ends x).destroyed = false)
    (hf : Quiet f) : s.Moves (s.leave t x f next) t next := by
  rw [leave, halive, if_neg Bool.false_ne_true]
  exact moves_setEnd (hf.lock none)

theorem System.enter_moves (halive : (s.ends x).destroyed = false) :
    s.enter t x next = s ∨ s.Moves (s.enter t x next) t next := by
  rw [enter, halive, if_neg Bool.false_ne_true]
  split
  · exact .inl rfl
  · exact .inr (moves_setEnd (Quiet.id.lock (some t)))

theorem System.Inv.call_moves (h : s.Inv) (hm : s.Moves s' t next)
    (hcall : (s.stages t).dtor = none) (hnext : next.dtor = none)
    (huses : ∀ x ∈ next.uses, (s.ends x).destroyed = false) : s'.Inv := by
  refine h.moves hm huses (fun e he => ?_) (fun e he => ?_)
    (fun e => ⟨fun he => ?_, fun he => ?_⟩) (fun e he => ?_)
  · rw [hnext] at he
    cases he
  · have := dtor_of_window he
    rw [hnext] at this
    cases this
  · rw [he] at hcall
    cases hcall
  · rw [he] at hnext
    cases hnext
  · rw [he] at hnext
    cases hnext

theorem System.Inv.enter (h : s.Inv) {st : Stage} (hst : s.stages t = st)
    (hx : x ∈ st.uses) (huses : next.uses = st.uses) (hdtor : next.dtor = st.dtor)
    (hwindow : next.window = st.window)
    (hmarked : ∀ e, st ≠ .dtorPeerMarked e ∧ next ≠ .dtorPeerMarked e)
    (hended : ∀ e, next ≠ .dtorEnd e) : (s.enter t x next).Inv := by
  subst hst
  rcases enter_moves (h.uses hx) with heq | hm
  · rwa [heq]
  · refine h.moves hm (fun y hy => h.uses (huses ▸ hy)) (fun e he => hdtor ▸ he)
      (fun e he => ?_) hmarked (fun e he => absurd he (hended e))
    rw [hwindow] at he
    exact ⟨h.window he, fun t' _ => h.apart he⟩

theorem System.Inv.leave (h : s.Inv) (hx : x ∈ (s.stages t).uses)
    (hf : Quiet f) (hcall : (s.stages t).dtor = none) (hnext : next.dtor = none)
    (huses : ∀ y ∈ next.uses, (s.ends y).destroyed = false) : (s.leave t x f next).Inv :=
  h.call_moves (leave_moves (h.uses hx) hf) hcall hnext huses

theorem End.peer_of_writeOpen {x : End} (h : ¬(!x.writeOpen) = true) : x.peer = true := by
  simp only [End.writeOpen, Bool.not_and, Bool.or_eq_true, not_or] at h
  simpa using h.2

theorem System.Inv.sendFirst (h : s.Inv) {r : Request}
    (hst : s.stages t = .sendHeld e r) : (s.sendFirst t e r).Inv := by
  have hx : e ∈ (s.stages t).uses := by simp [hst, uses]
  have hcall : (s.stages t).dtor = none := by rw [hst]; rfl
  have hidle {f : End → End} (hf : Quiet f) : (s.leave t e f .idle).Inv :=
    h.leave hx hf hcall rfl fun y hy => by cases hy
  unfold System.sendFirst
  dsimp only
  split
  · exact hidle .id
  split
  · exact hidle .id
  next hopen =>
  -- the section has seen `_peer` set, so the other end is there
  have hpeer := h.peer e (End.peer_of_writeOpen hopen)
  have hself := h.uses hx
  split
  · refine hidle ⟨fun x => ?_, fun x => ?_, fun x => ?_⟩ <;> split <;> rfl
  split
  · exact h.leave hx .id hcall rfl (by simpa [uses] using hpeer)
  split
  · exact h.leave hx .id hcall rfl (by simpa [uses] using ⟨hself, hpeer⟩)
  · exact h.leave hx .id hcall rfl (by simpa [uses] using ⟨hself, hpeer⟩)

theorem System.Inv.sendProbed (h : s.Inv) {total : Nat}
    (hst : s.stages t = .sendProbeHeld e total) : (s.sendProbed t e total).Inv := by
  have hx : (!e) ∈ (s.stages t).uses := by simp [hst, uses]
  have hcall : (s.stages t).dtor = none := by rw [hst]; rfl
  have hidle : (s.leave t (!e) id .idle).Inv :=
    h.leave hx .id hcall rfl fun y hy => by cases hy
  unfold System.sendProbed
  dsimp only
  split
  · exact hidle
  split
  · refine h.leave hx .id hcall rfl fun y hy => h.uses (t := t) ?_
    rw [hst]
    exact hy
  · exact hidle

theorem System.Inv.sendQueued (h : s.Inv) {left : Nat} {nonblocking : Bool}
    (hst : s.stages t = .sendQueueHeld x left nonblocking) :
    (s.sendQueued t x left nonblocking).Inv := by
  have hx : x ∈ (s.stages t).uses := by simp [hst, uses]
  have hcall : (s.stages t).dtor = none := by rw [hst]; rfl
  have halive := h.uses hx
  have hidle : (s.leave t x id .idle).Inv :=
    h.leave hx .id hcall rfl fun y hy => by cases hy
  unfold System.sendQueued
  dsimp only
  split
  · split
    · exact hidle
    · exact h.leave hx .id hcall rfl (by simpa [uses] using halive)
  split
  · exact hidle
  · refine h.leave hx ⟨fun _ => rfl, fun _ => rfl, fun _ => rfl⟩ hcall ?_ ?_
    · split <;> rfl
    · split
      · exact fun y hy => by cases hy
      · simpa [uses] using halive

theorem System.Inv.recvd (h : s.Inv) {peek woken giveUp : Bool} {len : Nat}
    (hst : s.stages t = .recvHeld e len peek woken) : (s.recvd t e len peek woken giveUp).Inv := by
  have hx : e ∈ (s.stages t).uses := by simp [hst, uses]
  have hcall : (s.stages t).dtor = none := by rw [hst]; rfl
  have halive := h.uses hx
  have hidle {f : End → End} (hf : Quiet f) : (s.leave t e f .idle).Inv :=
    h.leave hx hf hcall rfl fun y hy => by cases hy
  unfold System.recvd
  dsimp only
  split
  · exact hidle .id
  split
  · split
    · exact hidle .id
    · exact h.leave hx .id hcall rfl (by simpa [uses] using halive)
  · refine hidle ⟨fun x => ?_, fun x => ?_, fun x => ?_⟩ <;> split <;> rfl

theorem System.Inv.shut (h : s.Inv) {how : How}
    (hst : s.stages t = .shutHeld e how) : (s.shut t e how).Inv := by
  have hx : e ∈ (s.stages t).uses := by simp [hst, uses]
  have hcall : (s.stages t).dtor = none := by rw [hst]; rfl
  have hidle {f : End → End} (hf : Quiet f) : (s.leave t e f .idle).Inv :=
    h.leave hx hf hcall rfl fun y hy => by cases hy
  -- the other end is told if `_peer` was seen set
  have htell {f : End → End} (hf : Quiet f) :
      (s.leave t e f (if (s.ends e).peer then .shutPeer (!e) else .idle)).Inv := by
    split
    · next hp => exact h.leave hx hf hcall rfl (by simpa [uses] using h.peer e hp)
    · exact hidle hf
  unfold System.shut
  dsimp only
  split
  · exact hidle .id
  · cases how with
    | rd => exact hidle ⟨fun _ => rfl, fun _ => rfl, fun _ => rfl⟩
    | wr => exact htell ⟨fun _ => rfl, fun _ => rfl, fun _ => rfl⟩
    | rdwr => exact htell ⟨fun _ => rfl, fun _ => rfl, fun _ => rfl⟩

theorem System.Inv.markClosed (h : s.Inv) (hst : s.stages t = .dtorPeerHeld e) :
    (s.markClosed t e).Inv := by
  have hw : (s.stages t).window = some e := by rw [hst]; rfl
  have hd : (s.stages t).dtor = some e := dtor_of_window hw
  have hpeer := h.window hw
  have halive : (s.ends (!e)).destroyed = false := h.uses (t := t) (by simp [hst, Stage.uses])
  unfold System.markClosed
  rw [hpeer, halive]
  simp only [Bool.not_true, Bool.false_eq_true, if_false]
  set s' := (s.setEnd (!e) fun p => { p with
      peer := false
      peerClosed := true
      peerWriteShutdown := true }).go t (.dtorPeerMarked e) with hs'
  have hends : ∀ x, (s'.ends x).closing = (s.ends x).closing ∧
      (s'.ends x).destroyed = (s.ends x).destroyed ∧
      (s'.ends x).peer = if x = !e then false else (s.ends x).peer := by
    intro x
    by_cases hx : x = !e
    · subst hx
      simp [hs', setEnd, go]
    · simp [hs', setEnd, go, hx]
  have hself : (s'.ends e).peer = true := by
    rw [(hends e).2.2, if_neg (by cases e <;> simp), hpeer]
  refine h.change rfl rfl (fun x hx => ?_) (fun x hx => ?_) (fun x hx => ?_)
    (fun j hj => ⟨fun x hx => ?_, fun x hx => ?_⟩) (fun x hx => ?_) (fun x hx => ?_)
    (fun x hx => ?_) (fun x hx => ?_) (fun x hx => by cases hx)
  · have hxe : x = e := by
      rw [(hends x).2.2] at hx
      split at hx
      · cases hx
      · next hne => rw [Bool.eq_not_of_ne hne, Bool.not_not]
    rw [hxe, (hends _).2.1]
    exact ⟨hpeer, halive, .inr ⟨t, Function.update_self ..⟩⟩
  · rwa [(hends x).1]
  · rw [(hends x).1]
    exact h.gone x ((hends x).2.1 ▸ hx)
  · rw [(hends x).2.1]
    exact h.uses hx
  · rw [(hends x).2.2, if_neg fun hxe => h.apart hw (hxe ▸ hx)]
    exact h.window hx
  · rw [(hends x).2.1]
    exact h.uses (t := t) (by rw [hst]; exact hx)
  · cases hx
    rw [(hends e).1]
    exact ⟨h.closing hd, fun j hj hd' => hj (h.one hd' hd)⟩
  · cases hx
    exact ⟨hself, fun j _ => h.apart hw⟩
  · cases hx
    rw [(hends _).2.2, if_pos rfl]

theorem System.Inv.forgetPeer (h : s.Inv) (hst : s.stages t = .dtorPeerMarked e) :
    (s.forgetPeer t e).Inv := by
  have hw : (s.stages t).window = some e := by rw [hst]; rfl
  have hd : (s.stages t).dtor = some e := dtor_of_window hw
  have hpeer := h.window hw
  have halive : (s.ends (!e)).destroyed = false := h.uses (t := t) (by simp [hst, uses])
  have hclear := h.cleared hst
  unfold System.forgetPeer
  rw [hpeer, halive]
  simp only [Bool.not_true, Bool.false_eq_true, if_false]
  set s' := ((s.setEnd (!e) fun p => { p with lock := none }).setEnd e fun x =>
      { x with peer := false }).go t (.dtorEnd e) with hs'
  have hends : ∀ x, (s'.ends x).closing = (s.ends x).closing ∧
      (s'.ends x).destroyed = (s.ends x).destroyed ∧ (s'.ends x).peer = false := by
    intro x
    by_cases hx : x = e
    · subst hx
      simp [hs', setEnd, go]
    · rw [Bool.eq_not_of_ne hx]
      simp [hs', setEnd, go, hclear]
  refine h.change rfl rfl (fun x hx => ?_) (fun x hx => ?_) (fun x hx => ?_)
    (fun j hj => ⟨fun x hx => ?_, fun x hx => ?_⟩) (fun x hx => ?_) (fun x hx => ?_)
    (fun x hx => by cases hx) (fun x hx => by cases hx) (fun x _ => (hends x).2.2)
  · rw [(hends x).2.2] at hx
    cases hx
  · rwa [(hends x).1]
  · rw [(hends x).1]
    exact h.gone x ((hends x).2.1 ▸ hx)
  · rw [(hends x).2.1]
    exact h.uses hx
  · -- Nobody else is in a window: not of this end, whose destructor runs once, nor of
    -- the other.
    by_cases hxe : x = e
    · exact absurd (h.one (dtor_of_window hx) (hxe ▸ hd)) hj
    · exact absurd (Bool.eq_not_of_ne hxe ▸ hx) (h.apart hw)
  · rw [(hends x).2.1, List.mem_singleton.mp hx]
    exact h.uses (t := t) (by simp [hst, uses])
  · cases hx
    rw [(hends e).1]
    exact ⟨h.closing hd, fun j hj hd' => hj (h.one hd' hd)⟩

theorem System.Inv.finish (h : s.Inv) (hst : s.stages t = .dtorEnd e)
    (hfree : ∀ t', t' ≠ t → e ∉ (s.stages t').uses) :
    ((s.setEnd e fun x => { x with destroyed := true }).go t .idle).Inv := by
  have hpeer := h.ended hst
  have hpeer' : (s.ends (!e)).peer = false := by
    by_contra hp
    rw [Bool.not_eq_false] at hp
    rcases h.marked (!e) hp with hq | ⟨j, hj⟩
    · rw [Bool.not_not, hpeer] at hq
      cases hq
    · refine hfree j (fun hjt => ?_) (by simp [hj, uses])
      rw [hjt, hst] at hj
      cases hj
  have hnone : ∀ x, (s.ends x).peer = false := by
    intro x
    by_cases hx : x = e
    · rwa [hx]
    · rwa [Bool.eq_not_of_ne hx]
  set s' := (s.setEnd e fun x => { x with destroyed := true }).go t .idle with hs'
  have hends : ∀ x, (s'.ends x).closing = (s.ends x).closing ∧ (s'.ends x).peer = false ∧
      (s'.ends x).destroyed = if x = e then true else (s.ends x).destroyed := by
    intro x
    by_cases hx : x = e
    · subst hx
      simp [hs', setEnd, go, hnone]
    · simp [hs', setEnd, go, hx, hnone]
  refine h.change rfl rfl (fun x hx => ?_) (fun x hx => ?_) (fun x hx => ?_)
    (fun j hj => ⟨fun x hx => ?_, fun x hx => ?_⟩) (fun x hx => by cases hx)
    (fun x hx => by cases hx) (fun x hx => by cases hx) (fun x hx => by cases hx)
    (fun x hx => by cases hx)
  · rw [(hends x).2.1] at hx
    cases hx
  · rwa [(hends x).1]
  · rw [(hends x).1]
    by_cases hxe : x = e
    · exact h.closing (t := t) (by rw [hst, hxe]; rfl)
    · rw [(hends x).2.2, if_neg hxe] at hx
      exact h.gone x hx
  · have hxe : x ≠ e := fun hxe => hfree j hj (hxe ▸ hx)
    rw [(hends x).2.2, if_neg hxe]
    exact h.uses hx
  · have hp := h.window hx
    rw [hnone x] at hp
    cases hp

theorem System.Inv.close (h : s.Inv) (hidle : s.stages t = .idle)
    (hopen : (s.ends e).closing = false) :
    ((s.setEnd e fun x => { x with closing := true }).go t (.dtorStart e)).Inv := by
  have halive : (s.ends e).destroyed = false :=
    eq_false_of_ne_true fun hd => by simp [h.gone e hd] at hopen
  set s' := (s.setEnd e fun x => { x with closing := true }).go t (.dtorStart e) with hs'
  have hends : ∀ x, (s'.ends x).destroyed = (s.ends x).destroyed ∧
      (s'.ends x).peer = (s.ends x).peer ∧
      ((s.ends x).closing = true ∨ x = e → (s'.ends x).closing = true) := by
    intro x
    by_cases hx : x = e
    · subst hx
      simp [hs', setEnd, go]
    · simp [hs', setEnd, go, hx]
  refine h.change rfl rfl (fun x hx => ?_) (fun x hx => (hends x).2.2 (.inl hx))
    (fun x hx => (hends x).2.2 (.inl (h.gone x ((hends x).1 ▸ hx))))
    (fun j hj => ⟨fun x hx => ?_, fun x hx => ?_⟩) (fun x hx => ?_) (fun x hx => ?_)
    (fun x hx => by cases hx) (fun x hx => by cases hx) (fun x hx => by cases hx)
  · rw [(hends x).2.1] at hx
    rw [(hends _).1, (hends _).2.1]
    refine ⟨hx, h.peer x hx, (h.marked x hx).imp_right fun ⟨j, hj⟩ => ⟨j, ?_⟩⟩
    have hjt : j ≠ t := fun hjt => by rw [hjt, hidle] at hj; cases hj
    exact (Function.update_of_ne hjt ..).trans hj
  · rw [(hends x).1]
    exact h.uses hx
  · rw [(hends x).2.1]
    exact h.window hx
  · rw [(hends x).1, List.mem_singleton.mp hx]
    exact halive
  · -- No destructor of the end runs yet.
    cases hx
    refine ⟨(hends e).2.2 (.inr rfl), fun j _ hd => ?_⟩
    rw [h.closing hd] at hopen
    cases hopen

theorem System.Inv.run (h : s.Inv) {choice : Bool} (hsafe : s.Orderly (.run t choice)) :
    (s.run t choice).Inv := by
  unfold System.run
  split
  · exact h
  · next e r hst => exact h.enter hst (by simp [uses]) rfl rfl rfl (by simp) (by simp)
  · next e r hst => exact h.sendFirst hst
  · next e total hst => exact h.enter hst (by simp [uses]) rfl rfl rfl (by simp) (by simp)
  · next e total hst => exact h.sendProbed hst
  · next e total nb hst => exact h.enter hst (by simp [uses]) rfl rfl rfl (by simp) (by simp)
  · next e total nb hst =>
      refine h.leave (by simp [hst, uses]) ⟨fun _ => rfl, fun _ => rfl, fun _ => rfl⟩
        (by rw [hst]; rfl) rfl fun y hy => h.uses (t := t) ?_
      rw [hst]
      exact List.mem_cons_of_mem _ hy
  · next x left nb hst => exact h.enter hst (by simp [uses]) rfl rfl rfl (by simp) (by simp)
  · next x left nb hst => exact h.sendQueued hst
  · next e len peek woken hst =>
      exact h.enter hst (by simp [uses]) rfl rfl rfl (by simp) (by simp)
  · next e len peek woken hst => exact h.recvd hst
  · next e how hst => exact h.enter hst (by simp [uses]) rfl rfl rfl (by simp) (by simp)
  · next e how hst => exact h.shut hst
  · next x hst => exact h.enter hst (by simp [uses]) rfl rfl rfl (by simp) (by simp)
  · next x hst =>
      exact h.leave (by simp [hst, uses]) ⟨fun _ => rfl, fun _ => rfl, fun _ => rfl⟩
        (by rw [hst]; rfl) rfl fun y hy => by cases hy
  · next e hst => exact h.enter hst (by simp [uses]) rfl rfl rfl (by simp) (by simp)
  · next e hst =>
      have hx : e ∈ (s.stages t).uses := by simp [hst, uses]
      refine h.moves (leave_moves (h.uses hx) ⟨fun _ => rfl, fun _ => rfl, fun _ => rfl⟩)
        (fun y hy => h.uses (t := t) (by rw [hst]; exact hy)) (fun x hx => by rw [hst]; exact hx)
        (fun x hx => by cases hx) (by simp [hst]) (fun x hx => by cases hx)
  · next e hst =>
      have hsafe : (s.ends e).peer = true → ∀ t', (s.stages t').window ≠ some (!e) := by
        simpa only [System.Orderly, hst] using hsafe
      have hx : (s.ends e).destroyed = false := h.uses (t := t) (by simp [hst, uses])
      have hm {next : Stage} : s.Moves (s.go t next) t next :=
        ⟨rfl, fun _ => rfl, fun _ => rfl, fun _ => rfl, rfl⟩
      split
      · next hp =>
          refine h.moves hm ?_ (fun x hx => by rw [hst]; exact hx) (fun x hx => ?_)
            (by simp [hst]) (fun x hx => by cases hx)
          · simpa [uses] using ⟨hx, h.peer e hp⟩
          · cases hx
            exact ⟨hp, fun t' _ => hsafe hp t'⟩
      next hp =>
      refine h.moves hm (by simpa [uses] using hx) (fun x hx => by rw [hst]; exact hx)
        (fun x hx => by cases hx) (by simp [hst]) (fun x hx => ?_)
      cases hx
      simpa using hp
  · next e hst =>
      have hw : (s.stages t).window = some e := by rw [hst]; rfl
      rw [if_pos (h.window hw)]
      exact h.enter hst (by simp [uses]) rfl rfl rfl (by simp) (by simp)
  · next e hst => exact h.markClosed hst
  · next e hst => exact h.forgetPeer hst
  · next e hst => exact h.finish hst (by simpa only [System.Orderly, hst] using hsafe)

theorem Call.start_uses {c : Call} (h : x ∈ c.start.uses) : x = c.target := by
  revert h
  cases c <;> simp only [start, target] <;> (try split) <;> simp [Stage.uses]

theorem Call.start_dtor {c : Call} (h : c.isClose = false) : c.start.dtor = none := by
  cases c with
  | close e => cases h
  | send e r => simp only [start]; split <;> rfl
  | recv e len peek => simp only [start]; split <;> rfl
  | shutdown e how => rfl

theorem System.Inv.step (h : s.Inv) {op : Op} (hsafe : s.Orderly op) : (s.step op).Inv := by
  cases op with
  | run t choice => exact h.run hsafe
  | call t c =>
      rw [System.step]
      split
      · next hidle =>
          obtain ⟨hidle, hopen⟩ := hidle
          have hopen : (s.ends c.target).closing = false := by simpa using hopen
          have halive : (s.ends c.target).destroyed = false := by
            by_contra hd
            rw [Bool.not_eq_false] at hd
            rw [h.gone _ hd] at hopen
            cases hopen
          have hm : s.Moves (s.go t c.start) t c.start :=
            ⟨rfl, fun _ => rfl, fun _ => rfl, fun _ => rfl, rfl⟩
          cases hc : c.isClose with
          | true =>
              cases c with
              | close e => exact h.close hidle hopen
              | _ => cases hc
          | false =>
              refine h.call_moves hm (by rw [hidle]; rfl) (Call.start_dtor hc) fun x hx => ?_
              rwa [Call.start_uses hx]
      · exact h

/-- A destructor that finishes while a call will still use its end leaves the
call with a pointer to a destroyed end. -/
theorem System.Inv.finish_iff (h : s.Inv) {choice : Bool} (hst : s.stages t = .dtorEnd e) :
    (s.step (.run t choice)).Sound ↔ s.Orderly (.run t choice) := by
  refine ⟨fun hsound => ?_, fun hsafe => (h.step hsafe).toSound⟩
  simp only [System.Orderly, hst]
  intro t' ht' huse
  have hstep : s.step (.run t choice) =
      (s.setEnd e fun x => { x with destroyed := true }).go t .idle := by
    simp [System.step, System.run, hst]
  rw [hstep] at hsound
  have hdead := hsound.uses (t := t') (x := e) (by
    simpa only [go, setEnd, Function.update_of_ne ht'] using huse)
  simp [go, setEnd] at hdead

/-- In every run of orderly steps from a connected pair no pointer to a destroyed
end is followed or kept, and the last step of a destructor keeps it so exactly
if it is orderly. -/
theorem peers_outlive_calls {ops : List Op} {s : System}
    (hrun : Run.Guarded (fun s op => some (System.step s op)) System.Orderly System.boot ops s) :
    s.Sound ∧ ∀ t choice e, s.stages t = .dtorEnd e →
      ((s.step (.run t choice)).Sound ↔ s.Orderly (.run t choice)) := by
  have h : s.Inv := by
    refine hrun.inv (I := System.Inv) (fun hs hC hf => ?_) .boot
    cases hf
    exact hs.step hC
  exact ⟨h.toSound, fun t choice e hst => h.finish_iff hst⟩

/-- Task `t` runs `n` times. -/
def runs (t n : Nat) : List Op := List.replicate n (.run t true)

/-- After a send both ends are closed at once: the destructor of one clears `_peer` of the
other, whose own then finds it null while the first has yet to finish, and both finish. -/
def closingOps : List Op :=
  [.call 0 (.send false ⟨3, false, false⟩)] ++ runs 0 4 ++ [.call 0 (.close false),
    .call 1 (.close true)] ++ runs 1 2 ++ runs 0 5 ++ runs 1 1 ++ runs 0 2 ++ runs 1 1

theorem peers_outlive_calls_closing : (closingOps.foldl System.step System.boot).Sound := by
  have hrun : Run.Guarded (fun s op => some (step s op)) System.Orderly boot closingOps
      (closingOps.foldl step boot) := by
    refine .cons trivial rfl (.cons trivial rfl (.cons trivial rfl (.cons trivial rfl
      (.cons trivial rfl (.cons trivial rfl (.cons trivial rfl (.cons trivial rfl
      (.cons trivial rfl (.cons trivial rfl (.cons trivial rfl (.cons ?_ rfl
      (.cons trivial rfl (.cons trivial rfl (.cons ?_ rfl (.cons trivial rfl
      (.cons ?_ rfl (.cons ?_ rfl (.nil _))))))))))))))))))
    -- the first destructor finds `_peer` set, and the other one is not turned to it yet
    · rintro - (_ | _ | j) h <;> cases h
    · exact fun hp => by cases hp
    · rintro (_ | _ | j) hj
      · exact absurd rfl hj
      · decide
      · exact List.not_mem_nil
    · rintro (_ | _ | j) hj
      · decide
      · exact absurd rfl hj
      · exact List.not_mem_nil
  exact (peers_outlive_calls hrun).1

/-- A sender has read `_peer` when the other end is closed for the last time: it
takes the lock of a destroyed socket. And two ends closed at the same time: each
finds `_peer` set, the first clears the second's, and the second follows a null
pointer. -/
theorem sender_outlives_peer :
    (([Op.call 0 (.send false ⟨3, false, false⟩)] ++ runs 0 2 ++ [Op.call 1 (.close true)] ++
        runs 1 7 ++ runs 0 1).foldl System.step System.boot).fault = true ∧
      (([Op.call 0 (.close false), .call 1 (.close true)] ++ runs 0 3 ++ runs 1 3 ++ runs 0 2 ++
        runs 1 1).foldl System.step System.boot).fault = true := by
  decide

end F7ly.Fs.SocketPeer
