import F7ly.Fs.SocketLocks
import F7ly.Lib.Chain
import F7ly.Lib.Run

/-!
# Waiting for the locks of sockets

A task waits for another if it wants a lock the other has. A task that wants a
lock and is in nobody's way has few locks: either none, or its own socket and
no listener. So as long as every socket that `connect` finds under an address is
listening, whoever is waited for and waits itself has more locks than the one
who waits for it, and there is no cycle. A socket that is bound and not
listening may want the table itself: that is how two of them, or one and
itself, block each other for good.
-/

namespace F7ly.Fs.SocketLocks

open Relation World Stage Function

def World.state (w : World) (x : Ref) : SocketState := (w.sockets x).state

def World.WaitsFor (w : World) (t u : Nat) : Prop :=
  ∃ l next, (w.stages t).wants = some (l, next) ∧ w.owner l = some u

/-- What `connect` finds under the address once it has the table. -/
def World.found (w : World) : Stage → Option Ref
  | .connectTableHeld x port => (w.binding x.family port).map (⟨x.family, ·⟩)
  | _ => none

/-- What `connect` finds is listening. -/
def World.Allowed (w : World) : Op → Prop
  | .run t _ => ∀ l ∈ w.found (w.stages t), w.state l = .listening
  | _ => True

instance (w : World) : DecidablePred w.Allowed
  | .socket _ => instDecidableTrue
  | .call _ _ => instDecidableTrue
  | .run t _ => inferInstanceAs (Decidable (∀ l ∈ w.found (w.stages t), w.state l = .listening))

def World.Ready (w : World) : Stage → Prop
  | .bindAlloc x | .bindAllocHeld x | .bindRegister x _ | .bindRegisterHeld x _
  | .bindFinish x _ | .bindUndo x _ | .bindUndoHeld x _ | .listenBind x _
  | .listenBindHeld x _ | .connectBind x _ | .connectBindHeld x _ | .connectTable x _
  | .connectTableHeld x _ => w.state x ≠ .listening
  | .connectListener x _ l | .connectListenerHeld x _ l | .connectNew x l
  | .connectNewHeld x l => w.state x ≠ .listening ∧ w.state l = .listening
  | _ => True

def Stage.subject : Stage → Option Ref
  | .idle => none
  | .bindEnter x _ | .bindHeld x _ | .bindAlloc x | .bindAllocHeld x | .bindRegister x _
  | .bindRegisterHeld x _ | .bindFinish x _ | .bindUndo x _ | .bindUndoHeld x _
  | .unixRegister x _ | .unixRegisterHeld x _ | .unixSet x _ | .unixSetHeld x _
  | .unixUndo x _ | .unixUndoHeld x _ | .listenEnter x _ | .listenHeld x _ | .listenBind x _
  | .listenBindHeld x _ | .acceptEnter x | .acceptHeld x | .connectEnter x _
  | .connectHeld x _ | .connectBind x _ | .connectBindHeld x _ | .connectTable x _
  | .connectTableHeld x _ | .connectListener x _ _ | .connectListenerHeld x _ _
  | .connectNew x _ | .connectNewHeld x _ | .connectRetry x _ | .connectAwake x _
  | .connectAwakeHeld x _ => some x

structure World.Inv (w : World) : Prop where
  owned : ∀ l t, w.owner l = some t ↔ l ∈ (w.stages t).holds
  ready : ∀ t, w.Ready (w.stages t)
  exist : ∀ t, ∀ x ∈ (w.stages t).subject, x.id < w.count x.family
  /-- Sockets that do not exist yet are as a new one. -/
  beyond : ∀ x : Ref, w.count x.family ≤ x.id → w.state x = .created

theorem boot_inv : boot.Inv where
  owned l t := by simp [boot, holds]
  ready t := trivial
  exist t x hx := nomatch hx
  beyond x _ := rfl

variable {s next : Stage} {l : Lock}

theorem Stage.mem_holds_of_wants (h : s.wants = some (l, next))
    (k : Lock) : k ∈ next.holds ↔ k ∈ s.holds ∨ k = l := by
  cases s <;> simp only [wants, reduceCtorEq] at h
  all_goals
    obtain ⟨rfl, rfl⟩ := h
    simp [holds, or_assoc]

theorem Stage.subject_of_wants (h : s.wants = some (l, next)) : next.subject = s.subject := by
  cases s <;> simp only [wants, reduceCtorEq] at h
  all_goals
    obtain ⟨-, rfl⟩ := h
    rfl

variable {w w₁ : World} {t u : Nat} {x : Ref} {port : Nat} {c : Choice}

theorem World.Ready.acquired (h : s.wants = some (l, next)) (hr : w.Ready s) : w.Ready next := by
  cases s <;> simp only [wants, reduceCtorEq] at h
  all_goals
    obtain ⟨rfl, rfl⟩ := h
    exact hr

/-- The tasks that spin, by the locks they have. -/
inductive World.Spins (w : World) : List Lock → Lock → Prop
  | none (l : Lock) : Spins w [] l
  | own (x : Ref) (hx : w.state x ≠ .listening) : Spins w [.sock x] (.table x.family)
  | address (x l : Ref) (hx : w.state x ≠ .listening) (hl : w.state l = .listening) :
      Spins w [.sock x, .table x.family] (.sock l)
  | listener (x l : Ref) : Spins w [.sock x, .table x.family, .sock l] .registry

theorem World.Ready.spins (hr : w.Ready s) (h : s.wants = some (l, next)) : w.Spins s.holds l := by
  cases s <;> simp only [wants] at h
  all_goals obtain ⟨rfl, -⟩ := h
  case connectListener x port l => exact .address x l hr.1 hr.2
  case connectNew x l => exact .listener x l
  all_goals first | exact .none _ | exact .own _ hr

theorem World.Spins.length_lt {held held' : List Lock} {l' : Lock} (h : w.Spins held l)
    (h' : w.Spins held' l') (hl : l ∈ held') : held.length < held'.length := by
  cases h with
  | none => exact List.length_pos_of_mem hl
  | own x hx =>
      -- only one who has the table and more has it and spins
      cases h' <;> simp at hl ⊢
  | address x l hx hlisten =>
      cases h' with
      | none => simp at hl
      | own y hy =>
          simp only [List.mem_singleton, Lock.sock.injEq] at hl
          exact absurd (hl ▸ hlisten) hy
      | address y k hy =>
          simp only [List.mem_cons, Lock.sock.injEq, reduceCtorEq, List.not_mem_nil, or_false] at hl
          exact absurd (hl ▸ hlisten) hy
      | listener y k => exact Nat.lt_succ_self 2
  | listener x l => cases h' <;> simp at hl

theorem World.Inv.acyclic (hw : w.Inv) (t : Nat) : ¬ TransGen w.WaitsFor t t := by
  refine Chain.acyclic_of_rank (fun t => (w.stages t).holds.length) ?_ t
  intro t u v ⟨l, next, hwants, howner⟩ ⟨l', next', hwants', _⟩
  exact ((hw.ready t).spins hwants).length_lt ((hw.ready u).spins hwants')
    ((hw.owned l u).mp howner)

/-- A change of sockets and addresses by a task: what listens goes on, and only
a socket the task has the lock of begins to. -/
structure World.Edit (w w₁ : World) (t : Nat) : Prop where
  stages : w₁.stages = w.stages
  owner : w₁.owner = w.owner
  keeps : ∀ x, w.state x = .listening → w₁.state x = .listening
  begins : ∀ x, w₁.state x = .listening → w.state x = .listening ∨ .sock x ∈ (w.stages t).holds
  count : ∀ f, w.count f ≤ w₁.count f
  beyond : ∀ x : Ref, w₁.count x.family ≤ x.id → w₁.state x = .created

theorem World.Edit.ready (h : w.Edit w₁ t) (hr : w.Ready s)
    (hother : ∀ l ∈ s.holds, l ∉ (w.stages t).holds) : w₁.Ready s := by
  have hstill : ∀ x, Lock.sock x ∈ s.holds → w.state x ≠ .listening → w₁.state x ≠ .listening := by
    intro x hx hne heq
    rcases h.begins x heq with hl | hheld
    · exact hne hl
    · exact hother _ hx hheld
  cases s <;> try exact trivial
  case connectListener x port l => exact ⟨hstill x (.head _) hr.1, h.keeps l hr.2⟩
  case connectListenerHeld x port l => exact ⟨hstill x (.head _) hr.1, h.keeps l hr.2⟩
  case connectNew x l => exact ⟨hstill x (.head _) hr.1, h.keeps l hr.2⟩
  case connectNewHeld x l => exact ⟨hstill x (.head _) hr.1, h.keeps l hr.2⟩
  all_goals exact hstill _ (.head _) hr

/-- A stage may go on to another with no more locks and for the same socket. -/
structure Stage.Next (s next : Stage) : Prop where
  holds : next.holds ⊆ s.holds
  subject : ∀ x ∈ next.subject, x ∈ s.subject

theorem World.Inv.goto (hw : w.Inv) (h : w.Edit w₁ t)
    (hgo : (w.stages t).Next next) (hnext : w₁.Ready next) : (w₁.goto t next).Inv where
  owned l u := by
    simp only [World.goto, h.stages, h.owner]
    by_cases hut : u = t
    · subst hut
      rw [update_self]
      have hown := hw.owned l u
      have hsub := @hgo.holds l
      split
      · next hl => exact ⟨nofun, fun hin => absurd hin hl.2⟩
      · next hl =>
          rw [hown]
          exact ⟨fun hin => not_not.mp fun hout => hl ⟨hin, hout⟩, hsub⟩
    · rw [update_of_ne hut, ← hw.owned l u]
      split
      · next hl =>
          rw [(hw.owned l t).mpr hl.1, Option.some.injEq]
          exact ⟨nofun, fun h => absurd h.symm hut⟩
      · rfl
  ready u := by
    simp only [World.goto, h.stages]
    by_cases hut : u = t
    · rw [hut, update_self]
      exact hnext
    · rw [update_of_ne hut]
      refine h.ready (hw.ready u) fun l hu ht => hut ?_
      have := (hw.owned l u).mpr hu
      rw [(hw.owned l t).mpr ht] at this
      exact (Option.some.inj this).symm
  exist u x hx := by
    refine Nat.lt_of_lt_of_le ?_ (h.count x.family)
    simp only [World.goto, h.stages] at hx
    by_cases hut : u = t
    · rw [hut, update_self] at hx
      exact hw.exist t x (hgo.subject x hx)
    · rw [update_of_ne hut] at hx
      exact hw.exist u x hx
  beyond := h.beyond

theorem World.Inv.acquire (hw : w.Inv)
    (h : (w.stages t).wants = some (l, next)) : (w.acquire t l next).Inv := by
  unfold World.acquire
  split
  · exact hw
  next hfree =>
  have hfree : w.owner l = none := by simpa using hfree
  refine ⟨fun k u => ?_, fun u => ?_, fun u x hx => ?_, hw.beyond⟩
  · show update w.owner l (some t) k = some u ↔ k ∈ (update w.stages t next u).holds
    by_cases hu : u = t
    · rw [hu, update_self, mem_holds_of_wants h k, ← hw.owned k t, update_apply]
      split <;> simp_all
    · rw [update_of_ne hu, ← hw.owned k u, update_apply]
      split
      · next hk =>
          rw [hk, hfree, Option.some.injEq]
          exact ⟨fun h => absurd h.symm hu, nofun⟩
      · rfl
  · show w.Ready (update w.stages t next u)
    by_cases hu : u = t
    · rw [hu, update_self]
      exact (hw.ready t).acquired h
    · rw [update_of_ne hu]
      exact hw.ready u
  · replace hx : x ∈ (update w.stages t next u).subject := hx
    by_cases hu : u = t
    · rw [hu, update_self, subject_of_wants h] at hx
      exact hw.exist t x hx
    · rw [update_of_ne hu] at hx
      exact hw.exist u x hx

theorem World.Inv.edit_self (hw : w.Inv) : w.Edit w t :=
  ⟨rfl, rfl, fun _ h => h, fun _ h => .inl h, fun _ => Nat.le_refl _, hw.beyond⟩

theorem World.Edit.bindTo (h : w.Edit w₁ t) (f : Family) (port : Nat) (owner : Option Nat) :
    w.Edit (w₁.bindTo f port owner) t :=
  ⟨h.stages, h.owner, h.keeps, h.begins, h.count, h.beyond⟩

theorem World.state_setSocket (f : Socket → Socket) (y : Ref) :
    (w.setSocket x f).state y = if y = x then (f (w.sockets x)).state else w.state y := by
  show (update w.sockets x (f (w.sockets x)) y).state = _
  rw [update_apply]
  split <;> rfl

theorem World.Edit.setSocket (h : w.Edit w₁ t) (f : Socket → Socket)
    (hx : .sock x ∈ (w.stages t).holds) (hne : w.state x ≠ .listening)
    (hlt : x.id < w₁.count x.family) : w.Edit (w₁.setSocket x f) t where
  stages := h.stages
  owner := h.owner
  keeps y hy := by
    rw [state_setSocket, if_neg (by rintro rfl; exact hne hy)]
    exact h.keeps y hy
  begins y hy := by
    rw [state_setSocket] at hy
    split at hy
    · next heq => exact .inr (heq ▸ hx)
    · exact h.begins y hy
  count := h.count
  beyond y hy := by
    rw [state_setSocket, if_neg (by rintro rfl; exact absurd hlt (Nat.not_lt.mpr hy))]
    exact h.beyond y hy

theorem World.Edit.touch (h : w.Edit w₁ t) {f : Socket → Socket}
    (hf : ∀ s, (f s).state = s.state) : w.Edit (w₁.setSocket x f) t := by
  have hsame : ∀ y, (w₁.setSocket x f).state y = w₁.state y := by
    intro y
    rw [state_setSocket, hf]
    split
    · next heq => rw [heq, state]
    · rfl
  exact ⟨h.stages, h.owner, fun y hy => (hsame y).trans (h.keeps y hy),
    fun y hy => h.begins y ((hsame y).symm.trans hy), h.count,
    fun y hy => (hsame y).trans (h.beyond y hy)⟩

theorem World.Inv.serverSide (hw : w.Inv) (f : Family) : w.Edit (w.serverSide f) t where
  stages := rfl
  owner := rfl
  keeps y hy := by
    show (update w.sockets ⟨f, w.count f⟩ _ y).state = _
    rw [update_of_ne]
    · exact hy
    · rintro rfl
      rw [hw.beyond _ (Nat.le_refl _)] at hy
      cases hy
  begins y hy := by
    replace hy : (update w.sockets ⟨f, w.count f⟩ _ y).state = _ := hy
    rw [update_apply] at hy
    split at hy
    · cases hy
    · exact .inl hy
  count g := by
    show w.count g ≤ update w.count f _ g
    rw [update_apply]
    split
    · next heq => exact heq ▸ Nat.le_succ _
    · exact Nat.le_refl _
  beyond y hy := by
    replace hy : update w.count f (w.count f + 1) y.family ≤ y.id := hy
    have hold : w.count y.family ≤ y.id ∧ y ≠ ⟨f, w.count f⟩ := by
      rw [update_apply] at hy
      split at hy
      · next heq =>
          refine ⟨heq ▸ Nat.le_of_succ_le hy, fun h => ?_⟩
          rw [h] at hy
          exact Nat.not_succ_le_self _ hy
      · next hne => exact ⟨hy, fun h => hne (h ▸ rfl)⟩
    show (update w.sockets ⟨f, w.count f⟩ _ y).state = _
    rw [update_of_ne hold.2]
    exact hw.beyond y hold.1

theorem World.Inv.join (hw : w.Inv) {l : Ref} (hx : .sock x ∈ (w.stages t).holds)
    (hne : w.state x ≠ .listening) (hlt : x.id < w.count x.family) : w.Edit (w.join x l) t :=
  have hborn := hw.serverSide (t := t) x.family
  (hborn.setSocket _ hx hne (Nat.lt_of_lt_of_le hlt (hborn.count _))).touch fun _ => rfl

def World.Works (w : World) (t : Nat) (w' : World) : Prop :=
  ∃ w₁ next, w.Edit w₁ t ∧ w' = w₁.goto t next ∧ (w.stages t).Next next ∧ w₁.Ready next

theorem World.Edit.idle (h : w.Edit w₁ t) : w.Works t (w₁.goto t .idle) :=
  ⟨w₁, .idle, h, rfl, ⟨List.nil_subset _, nofun⟩, trivial⟩

theorem World.Edit.works (h : w.Edit w₁ t) (hst : w.stages t = s)
    (hgo : s.Next next) (hr : w₁.Ready next) : w.Works t (w₁.goto t next) :=
  ⟨w₁, next, h, rfl, hst ▸ hgo, hr⟩

theorem World.Inv.autoBind (hw : w.Inv) (hst : w.stages t = s)
    (hx : .sock x ∈ s.holds) (hsub : x ∈ s.subject) (hne : w.state x ≠ .listening)
    (hgo : s.Next next) (hr : ∀ w₁ : World, w₁.state x = .bound → w₁.Ready next) :
    w.Works t (w.autoBind t x c next) := by
  unfold World.autoBind
  split
  · exact hw.edit_self.idle
  · refine (((hw.edit_self.bindTo _ _ _).setSocket _ (hst ▸ hx) hne
      (hw.exist t x (hst ▸ hsub)))).works hst hgo (hr _ ?_)
    rw [state_setSocket, if_pos rfl]

theorem World.Inv.refused (hw : w.Inv) (hst : w.stages t = s)
    (hgo : s.Next (.connectRetry x port)) : w.Works t (w.goto t (.refused x port)) := by
  unfold Stage.refused
  split
  · exact hw.edit_self.works hst hgo trivial
  · exact hw.edit_self.idle

theorem World.Inv.connectOn (hw : w.Inv) (hst : w.stages t = .connectHeld x port) :
    w.Works t (w.goto t (w.connectOn x port)) := by
  unfold World.connectOn
  dsimp only
  split
  · exact hw.edit_self.idle
  next hstate =>
  have hne : w.state x ≠ .listening := by
    intro heq
    simp [show (w.sockets x).state = .listening from heq] at hstate
  split
  · exact hw.edit_self.works hst ⟨fun _ h => h, fun _ h => h⟩ hne
  · exact hw.edit_self.works hst ⟨fun _ h => h, fun _ h => h⟩ hne

theorem World.Inv.bindHeld (hw : w.Inv) (hst : w.stages t = .bindHeld x port) :
    w.Works t (w.work t c) := by
  simp only [work, hst]
  split
  · exact hw.edit_self.idle
  next hstate =>
  have hne : w.state x ≠ .listening := by
    intro heq
    simp [show (w.sockets x).state = .listening from heq] at hstate
  split
  · split
    · exact hw.edit_self.works hst ⟨fun _ h => h, fun _ h => h⟩ hne
    · exact hw.edit_self.works hst ⟨fun _ h => h, fun _ h => h⟩ hne
  · exact hw.edit_self.works hst ⟨List.nil_subset _, fun _ h => h⟩ trivial

theorem World.Inv.bindRegisterHeld (hw : w.Inv) (hst : w.stages t = .bindRegisterHeld x port)
    (hr : w.state x ≠ .listening) :
    w.Works t (w.work t c) := by
  simp only [work, hst]
  split
  · refine ((hw.edit_self.bindTo _ _ _).touch ?_).works hst
      ⟨List.cons_subset_cons _ (List.nil_subset _), fun _ h => h⟩ ?_
    · exact fun _ => rfl
    · intro hlisten
      rw [state_setSocket, if_pos rfl] at hlisten
      exact hr hlisten
  · exact hw.edit_self.idle

theorem World.Inv.unixSetHeld {name : Nat} (hw : w.Inv) (hst : w.stages t = .unixSetHeld x name) :
    w.Works t (w.work t c) := by
  simp only [work, hst]
  split
  · exact hw.edit_self.works hst ⟨List.nil_subset _, fun _ h => h⟩ trivial
  next hstate =>
  refine (hw.edit_self.setSocket _ (by simp [hst, holds]) ?_ (hw.exist t x (hst ▸ rfl))).idle
  rw [state, not_not.mp hstate]
  decide

theorem World.Inv.listenHeld {backlog : Nat} (hw : w.Inv)
    (hst : w.stages t = .listenHeld x backlog) : w.Works t (w.work t c) := by
  simp only [work, hst]
  split
  · split
    · next hstate _ =>
        refine hw.edit_self.works hst ⟨fun _ h => h, fun _ h => h⟩ ?_
        show (w.sockets x).state ≠ _
        rw [hstate]
        decide
    · exact hw.edit_self.idle
  · next hstate =>
      split
      · refine (hw.edit_self.setSocket _ (by simp [hst, holds]) ?_ (hw.exist t x (hst ▸ rfl))).idle
        rw [state, hstate]
        decide
      · exact hw.edit_self.idle
  · exact hw.edit_self.idle

theorem World.Inv.acceptHeld (hw : w.Inv) (hst : w.stages t = .acceptHeld x) :
    w.Works t (w.work t c) := by
  simp only [work, hst]
  split
  · exact hw.edit_self.idle
  · split
    · split
      · exact hw.edit_self.works hst ⟨List.nil_subset _, fun _ h => h⟩ trivial
      · exact hw.edit_self.idle
    · refine (hw.edit_self.touch ?_).idle
      exact fun _ => rfl

/-- The work of a stage, once what `connect` finds is listening. -/
theorem World.Inv.works (hw : w.Inv) (hC : w.Allowed (.run t c))
    (hwants : (w.stages t).wants = none) (hidle : w.stages t ≠ .idle) : w.Works t (w.work t c) := by
  have hr := hw.ready t
  have hex := hw.exist t
  cases hst : w.stages t <;> rw [hst] at hr hex hwants <;>
    try exact absurd hwants (Option.some_ne_none _)
  case idle => exact absurd hst hidle
  case bindHeld x port => exact hw.bindHeld hst
  case bindAllocHeld x =>
      simp only [work, hst]
      split
      · exact hw.edit_self.idle
      · exact hw.edit_self.works hst ⟨by simp [holds], fun _ h => h⟩ hr
  case bindRegisterHeld x port => exact hw.bindRegisterHeld hst hr
  case bindFinish x port =>
      simp only [work, hst]
      split
      · exact (hw.edit_self.setSocket _ (by simp [hst, holds]) hr (hex x rfl)).idle
      · exact hw.edit_self.works hst ⟨fun _ h => h, fun _ h => h⟩ hr
  case bindUndoHeld x port =>
      simp only [work, hst]
      refine ((hw.edit_self.bindTo _ _ _).touch ?_).idle
      exact fun _ => rfl
  case unixRegisterHeld x name =>
      simp only [work, hst]
      split
      · exact (hw.edit_self.bindTo _ _ _).works hst ⟨List.nil_subset _, fun _ h => h⟩ trivial
      · exact hw.edit_self.idle
  case unixSetHeld x name => exact hw.unixSetHeld hst
  case unixUndoHeld x name =>
      simp only [work, hst]
      exact (hw.edit_self.bindTo _ _ _).idle
  case listenHeld x backlog => exact hw.listenHeld hst
  case listenBindHeld x backlog =>
      simp only [work, hst]
      exact hw.autoBind hst (.head _) rfl hr ⟨by simp [holds], fun _ h => h⟩
        fun _ _ => trivial
  case acceptHeld x => exact hw.acceptHeld hst
  case connectHeld x port =>
      simp only [work, hst]
      exact hw.connectOn hst
  case connectBindHeld x port =>
      simp only [work, hst]
      refine hw.autoBind hst (.head _) rfl hr ⟨by simp [holds], fun _ h => h⟩ ?_
      intro w₁ hbound
      rw [World.Ready, hbound]
      decide
  case connectTableHeld x port =>
      simp only [World.Allowed, hst, found] at hC
      simp only [work, hst]
      split
      · exact hw.refused hst ⟨by simp [holds], fun _ h => h⟩
      · next l hl =>
          exact hw.edit_self.works hst ⟨fun _ h => h, fun _ h => h⟩ ⟨hr, hC _ (by rw [hl]; rfl)⟩
  case connectListenerHeld x port l =>
      simp only [work, hst]
      split
      · exact hw.edit_self.works hst ⟨fun _ h => h, fun _ h => h⟩ hr
      · exact hw.refused hst ⟨by simp [holds], fun _ h => h⟩
  case connectNewHeld x l =>
      simp only [work, hst]
      split
      · exact (hw.join (by simp [hst, holds]) hr.1 (hex x rfl)).idle
      · exact hw.edit_self.idle
  case connectRetry x port =>
      simp only [work, hst]
      split
      · exact hw.edit_self.works hst ⟨List.nil_subset _, fun _ h => h⟩ trivial
      · exact hw.edit_self.idle
  case connectAwakeHeld x port =>
      simp only [work, hst]
      split
      · exact hw.edit_self.idle
      next hstate =>
      refine hw.edit_self.works hst ⟨fun _ h => h, fun _ h => h⟩ ?_
      intro heq
      simp [show (w.sockets x).state = .listening from heq] at hstate

theorem World.Inv.socket (hw : w.Inv) (f : Family) : (w.step (.socket f)).Inv where
  owned := hw.owned
  ready := hw.ready
  exist u x hx := by
    have := hw.exist u x hx
    show x.id < update w.count f (w.count f + 1) x.family
    rw [update_apply]
    split
    · next heq => rw [heq] at this; exact Nat.lt_succ_of_lt this
    · exact this
  beyond x hx := by
    replace hx : update w.count f (w.count f + 1) x.family ≤ x.id := hx
    rw [update_apply] at hx
    split at hx
    · next heq => exact hw.beyond x (heq ▸ Nat.le_of_succ_le hx)
    · exact hw.beyond x hx

theorem Call.start_holds (c : Call) : c.start.holds = [] := by
  cases c <;> rfl

theorem Call.start_subject (c : Call) : c.start.subject = some c.target := by
  cases c <;> rfl

theorem World.Inv.call (hw : w.Inv) (c : Call) : (w.step (.call t c)).Inv := by
  simp only [step]
  split
  · next hcall =>
      refine ⟨fun l u => ?_, fun u => ?_, fun u x hx => ?_, hw.beyond⟩
      · show w.owner l = some u ↔ l ∈ (update w.stages t c.start u).holds
        by_cases hu : u = t
        · rw [hw.owned l u, hu, hcall.1, update_self, Call.start_holds, holds]
        · rw [update_of_ne hu]
          exact hw.owned l u
      · show w.Ready (update w.stages t c.start u)
        by_cases hu : u = t
        · rw [hu, update_self]
          cases c <;> exact trivial
        · rw [update_of_ne hu]
          exact hw.ready u
      · replace hx : x ∈ (update w.stages t c.start u).subject := hx
        by_cases hu : u = t
        · rw [hu, update_self, Call.start_subject] at hx
          cases hx
          exact hcall.2
        · rw [update_of_ne hu] at hx
          exact hw.exist u x hx
  · exact hw

theorem World.Inv.step {op : Op} (hw : w.Inv) (hC : w.Allowed op) : (w.step op).Inv := by
  cases op with
  | socket f => exact hw.socket f
  | call t c => exact hw.call c
  | run t c =>
      simp only [World.step]
      split
      · next l next hwants => exact hw.acquire hwants
      next hwants =>
      by_cases hidle : w.stages t = .idle
      · rw [work, hidle]
        exact hw
      · obtain ⟨w₁, next, hedit, heq, hgo, hr⟩ := hw.works hC hwants hidle
        rw [heq]
        exact hw.goto hedit hgo hr

/-- No task waits for a lock of its own, and no tasks wait for each other in a
cycle, as long as every socket that `connect` finds under an address is
listening. -/
theorem connect_never_deadlocks {ops : List Op} {w : World}
    (hrun : Run.Guarded (fun w op => some (w.step op)) World.Allowed .boot ops w) (t : Nat) :
    ¬ TransGen w.WaitsFor t t :=
  (hrun.inv (I := World.Inv) (fun hw hC hf => by cases hf; exact hw.step hC) boot_inv).acyclic t

def steps (t n : Nat) : List Op := List.replicate n (.run t ⟨true, 0⟩)

def accepting : List Op :=
  [.socket .inet, .socket .inet, .call 0 (.bind ⟨.inet, 0⟩ 7)] ++ steps 0 5 ++
    [.call 0 (.listen ⟨.inet, 0⟩ 5)] ++ steps 0 2 ++
    [.call 1 (.bind ⟨.inet, 1⟩ 8)] ++ steps 1 5 ++
    [.call 1 (.connect ⟨.inet, 1⟩ 7)] ++ steps 1 4

theorem connect_never_deadlocks_accepting :
    ((accepting.foldl World.step .boot).stages 1 = .connectListener ⟨.inet, 1⟩ 7 ⟨.inet, 0⟩) ∧
      ¬ TransGen (accepting.foldl World.step .boot).WaitsFor 1 1 := by
  have hrun : Run.Guarded (fun w op => some (w.step op)) World.Allowed .boot accepting
      (accepting.foldl step .boot) := .of_foldlM rfl
  exact ⟨by decide, connect_never_deadlocks hrun 1⟩

def selfConnect : List Op :=
  [.socket .inet, .call 0 (.bind ⟨.inet, 0⟩ 7)] ++ steps 0 5 ++
    [.call 0 (.connect ⟨.inet, 0⟩ 7)] ++ steps 0 4

def crossConnect : List Op :=
  [.socket .inet, .socket .inet, .call 0 (.bind ⟨.inet, 0⟩ 7)] ++ steps 0 5 ++
    [.call 1 (.bind ⟨.inet, 1⟩ 8)] ++ steps 1 5 ++
    [.call 0 (.connect ⟨.inet, 0⟩ 8), .call 1 (.connect ⟨.inet, 1⟩ 7)] ++ steps 1 2 ++ steps 0 4

theorem bound_sockets_deadlock :
    TransGen (selfConnect.foldl World.step .boot).WaitsFor 0 0 ∧
      TransGen (crossConnect.foldl World.step .boot).WaitsFor 0 0 :=
  ⟨.single ⟨.sock ⟨.inet, 0⟩, _, rfl, rfl⟩,
    .tail (.single ⟨.sock ⟨.inet, 1⟩, _, rfl, rfl⟩) ⟨.table .inet, _, rfl, rfl⟩⟩

end F7ly.Fs.SocketLocks
