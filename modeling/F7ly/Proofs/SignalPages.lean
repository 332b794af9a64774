import F7ly.Lib.Run
import F7ly.Proc.SignalNest
import F7ly.Proofs.SignalStep

/-!
# Signal frames that leak

As long as every delivery that gets its page can also build the user's frame, each page is
in `sig_frame` or freed, and nowhere twice. No exit of `do_handle` between the two gives the
page back, so the first delivery that fails there loses it, and neither a return nor the
end of the process finds it again.
-/

namespace F7ly.Proc.Signal

open List

variable {d : Delivery} {t t' : Task} {s s' : FramePages} {e : PageEvent}

def Task.framePages (t : Task) : List Nat := t.sigFrame.map (·.page)

/-- The pages in `sig_frame` and the freed ones are all that were allocated, each once. -/
def FramePages.Kept (s : FramePages) : Prop :=
  (s.task.framePages ++ s.freed).Perm (range s.allocated)

/-- If the page can be had, so can the pages of the frame and each of its copies. -/
def PageEvent.Whole : PageEvent → Prop
  | .deliver _ act d => d.allocOk = true →
      d.prepared = true ∧ (if act.has saSiginfo then 4 else 2) ≤ d.copies
  | _ => True

theorem Task.deliver_isOk (t : Task) (signum : Nat) (act : SigAction) (halloc : d.allocOk = true) :
    (t.deliver signum act d).isOk ↔ (PageEvent.deliver signum act d).Whole := by
  have hmap : ∀ {x : Except Task Task} {f : Task → Task}, (x.map f).isOk = x.isOk := by
    intro x f
    cases x <;> rfl
  unfold deliver
  rw [hmap]
  unfold buildFrame buildSiginfoFrame buildPlainFrame require tryCopyOut PageEvent.Whole
  split_ifs <;> simp_all [bind, Except.bind, Except.isOk, Except.toBool] <;> omega

theorem Task.framePages_sigReturn (h : t.sigReturn = .ok t') :
    t.framePages = t.framePages.take 1 ++ t'.framePages := by
  have hpop : ∀ {t'}, t.popFrame = .ok t' →
      t.framePages = t.framePages.take 1 ++ t'.framePages := by
    intro t' h
    rw [popFrame] at h
    split at h <;> cases h
    next hframe => simp [framePages, hframe]
  rw [sigReturn] at h
  repeat' split at h
  all_goals first | exact hpop h | cases h | skip
  cases hp : t.popFrame with
  | error p => rw [hp] at h; cases h
  | ok t₁ =>
      rw [hp] at h
      cases h
      have hfirst := hpop hp
      exact hfirst

theorem FramePages.releaseFrames_kept : ∀ {frames : List SignalFrame} {s : FramePages},
    (frames.map (·.page) ++ s.freed).Perm (range s.allocated) → (s.releaseFrames frames).Kept
  | [], _, h => h
  | frame :: next, s, h => by
      refine releaseFrames_kept (s := { s with freed := frame.page :: s.freed }) ?_
      exact perm_middle.trans h

theorem FramePages.Kept.step (h : s.Kept) (hs : s.step e = some s') : s'.Kept ↔ e.Whole := by
  cases e with
  | deliver signum act d =>
      obtain ⟨task, hok, rfl⟩ := Option.map_eq_some_iff.mp hs
      have hok : s.task.doHandle signum (some act) { d with page := s.allocated } = .ok task := by
        cases hx : s.task.doHandle signum (some act) { d with page := s.allocated } with
        | error p => rw [hx] at hok; cases hok
        | ok t => rw [hx] at hok; cases hok; rfl
      have hframes := s.task.deliver_handled signum act { d with page := s.allocated }
      obtain ⟨halloc, rfl⟩ | ⟨halloc, hd⟩ := Task.doHandle_cases hok
      · have halloc : d.allocOk = false := halloc
        refine iff_of_true ?_ fun ha => absurd (halloc.symm.trans ha) Bool.false_ne_true
        rw [Kept, if_neg (by simp [halloc])]
        exact h
      have hwhole := s.task.deliver_isOk signum act halloc
      have halloc : d.allocOk = true := halloc
      rw [Kept, if_pos halloc]
      obtain hd | hd := hd
      · rw [hd] at hframes hwhole
        obtain ⟨f, hpage, hlink⟩ := hframes.2
        refine iff_of_true ?_ (hwhole.mp rfl)
        rw [Task.framePages, hlink, map_cons, hpage, cons_append]
        have hnew := (perm_append_singleton s.allocated (s.task.framePages ++ s.freed)).symm
        exact hnew.trans ((h.append_right _).trans (.of_eq range_succ.symm))
      · -- one page more has been allocated, and the lists are as they were
        rw [hd] at hframes hwhole
        refine iff_of_false (fun hp => ?_) (mt hwhole.mpr Bool.false_ne_true)
        rw [Task.framePages, hframes.2] at hp
        have hlong := hp.length_eq.symm.trans h.length_eq
        simp at hlong
  | sigReturn =>
      obtain ⟨task, hok, rfl⟩ := Option.map_eq_some_iff.mp hs
      refine iff_of_true (Perm.trans ?_ h) trivial
      cases hx : s.task.sigReturn with
      | error p => rw [hx] at hok; cases hok
      | ok t =>
          rw [hx] at hok
          cases hok
          rw [Task.framePages_sigReturn hx, ← append_assoc, Task.framePages, map_take]
          exact perm_append_comm.append_right _
  | exit =>
      cases hs
      exact iff_of_true (releaseFrames_kept h) trivial
  | other t =>
      cases hs
      exact iff_of_true h trivial

/-- In every run whose deliveries are whole each page is linked or freed exactly once, and
the next event leaves it so exactly if it is whole. -/
theorem frame_pages_kept {t : Task} (ht : t.sigFrame = []) {events : List PageEvent}
    {s : FramePages}
    (hr : Run.Guarded FramePages.step (fun _ e => e.Whole) { task := t } events s) :
    s.Kept ∧ ∀ e s', s.step e = some s' → (s'.Kept ↔ e.Whole) := by
  have h : s.Kept := by
    refine hr.inv (fun hs hC hstep => (hs.step hstep).mpr hC) ?_
    rw [FramePages.Kept, Task.framePages, ht]
    exact .refl _
  exact ⟨h, fun e s' hs => h.step hs⟩

/-- A handler is entered and returns, and the process ends in the next one. -/
theorem frame_pages_kept_return : ∃ s,
    Run.Guarded FramePages.step (fun _ e => e.Whole) { task := .fresh }
      [.deliver sigUsr1 someHandler plentyMemory, .sigReturn,
        .deliver sigUsr1 someHandler plentyMemory, .exit] s ∧
    s.freed = [1, 0] ∧ s.Kept := by
  have hr : Run.Guarded FramePages.step (fun _ e => e.Whole) { task := .fresh }
      [.deliver sigUsr1 someHandler plentyMemory, .sigReturn,
        .deliver sigUsr1 someHandler plentyMemory, .exit] _ :=
    .cons (fun _ => by decide) rfl (.cons trivial rfl
      (.cons (fun _ => by decide) rfl (.cons trivial rfl (.nil _))))
  exact ⟨_, hr, rfl, (frame_pages_kept rfl hr).1⟩

/-- The user's stack cannot be written, and the page is gone. -/
theorem frame_page_lost : ∃ s, FramePages.step { task := .fresh }
        (.deliver sigUsr1 someHandler { plentyMemory with prepared := false }) = some s ∧
      s.allocated = 1 ∧ s.task.framePages = [] ∧ s.freed = [] ∧ ¬s.Kept := by
  refine ⟨_, rfl, rfl, rfl, rfl, fun hp => ?_⟩
  exact absurd hp.length_eq (by decide)

end F7ly.Proc.Signal
