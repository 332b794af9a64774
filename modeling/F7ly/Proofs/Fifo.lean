import F7ly.Lib.Run
import F7ly.Lib.Tally
import F7ly.Fs.Fifo

/-!
# The life of a named pipe

A file holds a pipe from its lookup on, but counts only from its registration
on. A close that takes the last end away deletes the pipe, also under a file that
has looked it up and not registered yet. And a close that takes the last writer
away clears the flag but wakes no reader. `Calm` excludes both, and is exactly
what a step needs to leave the files with a live pipe and true flags and no one
asleep (`fifo_good_iff_calm`).
-/

namespace F7ly.Fs.Fifo

open F7ly.Tally Fifo.System List

namespace System

/-- `f` has the end registered. -/
def Holds (s : System) (e : End) (f : Nat) : Prop :=
  ∃ file, s.files.lookup f = some file ∧ e ∈ file.held

/-- Every open or opening file has a pipe that is not deleted, and its flags say
which ends are open. -/
def Good (s : System) : Prop :=
  ∀ f file, s.files.lookup f = some file → ∃ flags, s.pipes file.pipe = some flags ∧
    ∀ e, flags e = true ↔ ∃ g, s.Holds e g

/-- Nobody stays asleep when the last of the other end has closed. -/
def Woken (s s' : System) : Prop :=
  ∀ info, s.info = some info → ∀ e, (∃ g, s.Holds e g) → (¬ ∃ g, s'.Holds e g) →
    ∀ t, s'.asleep t ≠ some (info.pipe, e.other)

/-- The close of the last end finds no file that is still opening, and the close
of the last writer no sleeping reader, and the other way round. -/
def Calm (s : System) : Op → Prop
  | .close f => ∀ file e rest, s.files.lookup f = some file → file.held = e :: rest →
      ((∀ g e', s.Holds e' g → g = f ∧ e' = e) →
        ∀ g file', s.files.lookup g = some file' → file'.todo = []) ∧
      ((∀ g, s.Holds e g → g = f) → ∀ t, s.asleep t ≠ some (file.pipe, e.other))
  | _ => True

def heldBy (e : End) (file : PipeFile) : Nat := file.held.count e

/-- What the manager knows. -/
structure Tracks (s : System) (info : FifoInfo) : Prop where
  flags : ∃ flags, s.pipes info.pipe = some flags ∧ ∀ e, flags e = true ↔ 0 < info.count e
  count : ∀ e, info.count e = weight (heldBy e) s.files
  pipe : ∀ f file, s.files.lookup f = some file → file.pipe = info.pipe

structure Inv (s : System) : Prop where
  closed : s.info = none → ∀ f, s.files.lookup f = none
  tracks : ∀ info, s.info = some info → s.Tracks info
  ends : ∀ f file, s.files.lookup f = some file → (file.held ++ file.todo).Nodup ∧
    file.held ++ file.todo ≠ []

end System

variable {e : End} {f pipe : Nat} {file : PipeFile} {held : List End}

section Inv

variable {s s' : System}

theorem holds_iff : (∃ g, s.Holds e g) ↔ 0 < weight (heldBy e) s.files := by
  rw [weight_pos]
  refine exists_congr fun g => exists_congr fun file => and_congr_right fun _ => ?_
  exact count_pos_iff.symm

theorem System.Inv.good (h : s.Inv) : s.Good := by
  intro f file hf
  cases hi : s.info with
  | none =>
      rw [h.closed hi f] at hf
      cases hf
  | some info =>
      have ht := h.tracks info hi
      obtain ⟨flags, hp, hflags⟩ := ht.flags
      refine ⟨flags, by rw [ht.pipe f file hf, hp], fun e => ?_⟩
      rw [hflags, holds_iff, ht.count]
      exact Int.natCast_pos

theorem System.Inv.info_of_file (h : s.Inv)
    (hf : s.files.lookup f = some file) : ∃ info, s.info = some info := by
  cases hi : s.info with
  | none =>
      rw [h.closed hi f] at hf
      cases hf
  | some info => exact ⟨info, rfl⟩

theorem lookup_insert {g : Nat} {m : AList fun _ : Nat => PipeFile} :
    (m.insert f file).lookup g = if g = f then some file else m.lookup g := by
  split
  · next heq => rw [heq, AList.lookup_insert]
  · next hne => rw [AList.lookup_insert_ne hne]

theorem access_ends (a : Access) : a.ends.Nodup ∧ a.ends ≠ [] := by
  cases a <;> decide

theorem weight_lookup {todo : List End} (hf : f ∉ s.files) (e : End) :
    weight (heldBy e) (s.files.insert f ⟨pipe, todo, []⟩) = weight (heldBy e) s.files := by
  have := weight_insert (heldBy e) s.files f ⟨pipe, todo, []⟩
  rw [AList.lookup_eq_none.mpr hf] at this
  simpa [heldBy] using this

theorem lookup_inv (h : s.Inv) {access : Access}
    (hstep : s.step (.lookup f access) = some s') : s'.Inv := by
  rw [step] at hstep
  split at hstep
  · cases hstep
  next hf =>
  have hends := access_ends access
  cases hi : s.info with
  | none =>
      rw [getOrCreateFifo, hi] at hstep
      obtain rfl := Option.some.inj hstep
      refine ⟨nofun, fun info hinfo => ?_, fun g file hg => ?_⟩
      · obtain rfl := Option.some.inj hinfo
        refine ⟨⟨_, Function.update_self .., by simp⟩, fun e => ?_, fun g file hg => ?_⟩
        · have hzero : weight (heldBy e) s.files = 0 := by
            by_contra hne
            obtain ⟨g, file, hg, -⟩ := (weight_pos ..).mp (Nat.pos_of_ne_zero hne)
            rw [h.closed hi g] at hg
            cases hg
          rw [weight_lookup hf, hzero]
          rfl
        · rw [lookup_insert, h.closed hi g] at hg
          split at hg
          · obtain rfl := Option.some.inj hg
            rfl
          · cases hg
      · rw [lookup_insert, h.closed hi g] at hg
        split at hg
        · obtain rfl := Option.some.inj hg
          exact hends
        · cases hg
  | some info =>
      have ht := h.tracks info hi
      rw [getOrCreateFifo, hi] at hstep
      obtain rfl := Option.some.inj hstep
      refine ⟨fun hnone => ?_, fun info' hinfo => ?_, fun g file hg => ?_⟩
      · rw [hi] at hnone
        cases hnone
      · obtain rfl : info = info' := Option.some.inj (hi.symm.trans hinfo)
        refine ⟨ht.flags, fun e => ?_, fun g file hg => ?_⟩
        · rw [weight_lookup hf, ht.count]
        · rw [lookup_insert] at hg
          split at hg
          · obtain rfl := Option.some.inj hg
            rfl
          · exact ht.pipe g file hg
      · rw [lookup_insert] at hg
        split at hg
        · obtain rfl := Option.some.inj hg
          exact hends
        · exact h.ends g file hg

theorem setOpen_self {flags : Flags} (hp : s.pipes pipe = some flags) (e : End)
    (b : Bool) : s.setOpen pipe e b pipe = some (Function.update flags e b) := by
  rw [setOpen, Function.update_self, hp, Option.map_some]

theorem weight_change (hf : s.files.lookup f = some file)
    (file' : PipeFile) (e : End) : weight (heldBy e) (s.files.insert f file') + file.held.count e =
      weight (heldBy e) s.files + file'.held.count e := by
  have := weight_insert (heldBy e) s.files f file'
  rwa [hf, weightOf_some] at this

theorem register_inv (h : s.Inv) (hstep : s.step (.register f) = some s') : s'.Inv := by
  rw [step] at hstep
  split at hstep
  · next pipe e todo held hf =>
      obtain ⟨info, hi⟩ := h.info_of_file hf
      have ht := h.tracks info hi
      obtain ⟨flags, hp, hflags⟩ := ht.flags
      rw [openFifo, hi] at hstep
      obtain rfl := Option.some.inj hstep
      refine ⟨nofun, fun info' hinfo => ?_, fun g file hg => ?_⟩
      · obtain rfl := Option.some.inj hinfo
        refine ⟨⟨_, setOpen_self hp e true, fun e' => ?_⟩, fun e' => ?_, fun g file hg => ?_⟩
        · dsimp only
          rw [Function.update_apply, Function.update_apply]
          split
          · have := ht.count e
            simp only [true_iff]
            omega
          · exact hflags e'
        · have hw := weight_change hf ⟨pipe, todo, held ++ [e]⟩ e'
          have hc := ht.count e'
          dsimp only at hw ⊢
          rw [count_append, count_singleton] at hw
          rw [Function.update_apply]
          split
          · next heq =>
              subst heq
              simp at hw
              omega
          · next hne =>
              rw [if_neg (by simpa using Ne.symm hne)] at hw
              omega
        · rw [lookup_insert] at hg
          split at hg
          · obtain rfl := Option.some.inj hg
            exact ht.pipe f ⟨pipe, e :: todo, held⟩ hf
          · exact ht.pipe g file hg
      · rw [lookup_insert] at hg
        split at hg
        · obtain rfl := Option.some.inj hg
          simpa using h.ends f ⟨pipe, e :: todo, held⟩ hf
        · exact h.ends g file hg
  · cases hstep

/-- The files after the next end of `f` is closed. -/
def filesAfter (s : System) (f pipe : Nat) (held : List End) : AList fun _ : Nat => PipeFile :=
  if held = [] then s.files.erase f else s.files.insert f ⟨pipe, [], held⟩

theorem weight_filesAfter (hf : s.files.lookup f = some ⟨pipe, [], e :: held⟩) (e' : End) :
    weight (heldBy e') (filesAfter s f pipe held) + (if e' = e then 1 else 0) =
      weight (heldBy e') s.files := by
  have hcons : (e :: held).count e' = held.count e' + if e' = e then 1 else 0 := by
    by_cases heq : e' = e
    · simp [heq]
    · simp [heq, Ne.symm heq]
  unfold filesAfter
  split
  · next hnil =>
      have := weight_erase (heldBy e') s.files f
      rw [hf, weightOf_some, heldBy, hcons, hnil] at this
      simpa using this
  · have := weight_change hf ⟨pipe, [], held⟩ e'
    dsimp only at this
    omega

theorem lookup_filesAfter {g : Nat} :
    (filesAfter s f pipe held).lookup g = some file ↔ (g ≠ f ∧ s.files.lookup g = some file) ∨
        (g = f ∧ held ≠ [] ∧ file = ⟨pipe, [], held⟩) := by
  unfold filesAfter
  split
  · next hnil =>
      by_cases hg : g = f
      · subst hg
        simp [hnil]
      · simp [hg]
  next hne =>
  rw [lookup_insert]
  by_cases hg : g = f
  · simp [hg, hne, eq_comm]
  · simp [hg]

theorem close_cases (h : s.Inv) {info : FifoInfo}
    (hf : s.files.lookup f = some ⟨pipe, [], e :: held⟩) (hi : s.info = some info)
    (hstep : s.step (.close f) = some s') :
    s'.files = filesAfter s f pipe held ∧ s'.asleep = s.asleep ∧
      ((∀ e', weight (heldBy e') s'.files = 0) ∧ s'.info = none ∧ s'.pipes info.pipe = none ∨
        (∃ e', weight (heldBy e') s'.files ≠ 0) ∧ ∃ info', s'.info = some info' ∧
          info'.pipe = info.pipe ∧ (∀ e', info'.count e' = weight (heldBy e') s'.files) ∧
          ∃ flags, s'.pipes info.pipe = some flags ∧
            ∀ e', flags e' = true ↔ 0 < info'.count e') := by
  have ht := h.tracks info hi
  obtain ⟨flags, hp, hflags⟩ := ht.flags
  have hw := weight_filesAfter hf
  -- The counter is what is left, so the clamp does nothing.
  have hcount : Function.update info.count e
      (if info.count e - 1 ≤ 0 then 0 else info.count e - 1) =
        fun e' => (weight (heldBy e') (filesAfter s f pipe held) : Int) := by
    funext e'
    have hc := ht.count e'
    have hw := hw e'
    rw [Function.update_apply]
    split
    · next heq =>
        subst heq
        rw [if_pos rfl] at hw
        split <;> omega
    · next hne =>
        rw [if_neg hne] at hw
        omega
  have hpipes : ∃ flags', (if info.count e - 1 ≤ 0 then s.setOpen info.pipe e false
      else s.pipes) info.pipe = some flags' ∧ ∀ e', flags' e' = true ↔
        0 < (weight (heldBy e') (filesAfter s f pipe held) : Int) := by
    have hce := ht.count e
    have hwe := hw e
    rw [if_pos rfl] at hwe
    split
    · next hle =>
        refine ⟨_, setOpen_self hp e false, fun e' => ?_⟩
        rw [Function.update_apply]
        split
        · next heq =>
            subst heq
            simp only [Bool.false_eq_true, false_iff]
            omega
        next hne =>
        have hw := hw e'
        rw [if_neg hne] at hw
        rw [hflags, ht.count, ← hw, Nat.add_zero]
    next hle =>
    refine ⟨flags, hp, fun e' => ?_⟩
    have hw := hw e'
    rw [hflags, ht.count, ← hw]
    split
    · next heq =>
        subst heq
        omega
    · rw [Nat.add_zero]
  obtain ⟨flags', hp', hflags'⟩ := hpipes
  rw [step, hf] at hstep
  unfold closeFifo at hstep
  rw [hi] at hstep
  dsimp only at hstep
  rw [hcount] at hstep
  by_cases hzero : (weight (heldBy .reader) (filesAfter s f pipe held) : Int) = 0 ∧
      (weight (heldBy .writer) (filesAfter s f pipe held) : Int) = 0
  · rw [if_pos hzero] at hstep
    obtain rfl := Option.some.inj hstep
    refine ⟨rfl, rfl, .inl ⟨fun e' => ?_, rfl, Function.update_self ..⟩⟩
    cases e' with
    | reader => exact Int.natCast_eq_zero.mp hzero.1
    | writer => exact Int.natCast_eq_zero.mp hzero.2
  · rw [if_neg hzero] at hstep
    obtain rfl := Option.some.inj hstep
    refine ⟨rfl, rfl, .inr ⟨?_, _, rfl, rfl, fun _ => rfl, flags', hp', hflags'⟩⟩
    by_contra hall
    rw [not_exists] at hall
    exact hzero ⟨Int.natCast_eq_zero.mpr (not_not.mp (hall .reader)),
      Int.natCast_eq_zero.mpr (not_not.mp (hall .writer))⟩

theorem close_holds (h : s.Inv) (hf : s.files.lookup f = some ⟨pipe, [], e :: held⟩)
    (hfiles : s'.files = filesAfter s f pipe held) (e' : End) (g : Nat) :
    s'.Holds e' g ↔ s.Holds e' g ∧ ¬ (g = f ∧ e' = e) := by
  have hnd : (e :: held).Nodup := by simpa using (h.ends f _ hf).1
  have hnotin := (nodup_cons.mp hnd).1
  unfold System.Holds
  rw [hfiles]
  simp only [lookup_filesAfter]
  by_cases hg : g = f
  · subst hg
    simp only [hf, Option.some.injEq, exists_eq_left', ne_eq, not_true_eq_false, false_and,
      true_and, false_or, mem_cons]
    constructor
    · intro ⟨file, ⟨_, hfile⟩, hmem⟩
      subst hfile
      exact ⟨.inr hmem, fun heq => hnotin (heq ▸ hmem)⟩
    · intro ⟨hmem, hne⟩
      have hmem := hmem.resolve_left hne
      exact ⟨_, ⟨ne_nil_of_mem hmem, rfl⟩, hmem⟩
  · simp [hg]

theorem close_inv (h : s.Inv) (hcalm : s.Calm (.close f))
    (hstep : s.step (.close f) = some s') : s'.Inv := by
  have hform := hstep
  rw [step] at hform
  split at hform
  · next pipe e held hf =>
      obtain ⟨info, hi⟩ := h.info_of_file hf
      obtain ⟨hfiles, -, hcases⟩ := close_cases h hf hi hstep
      have hends : ∀ g file, s'.files.lookup g = some file →
          (file.held ++ file.todo).Nodup ∧ file.held ++ file.todo ≠ [] := by
        intro g file hg
        rw [hfiles, lookup_filesAfter] at hg
        rcases hg with ⟨-, hg⟩ | ⟨-, hne, rfl⟩
        · exact h.ends g file hg
        · have := (h.ends f _ hf).1
          rw [append_nil] at this ⊢
          exact ⟨(nodup_cons.mp this).2, hne⟩
      rcases hcases with ⟨hzero, hnone, -⟩ | ⟨-, info', hinfo, hpipe, hcount, flags, hp, hflags⟩
      · -- Nobody is opening, so a file that is left would hold an end.
        have hnone' : ∀ e' g, ¬ s'.Holds e' g := fun e' g hg => by
          have := holds_iff.mp ⟨g, hg⟩
          have := hzero e'
          omega
        have hlast : ∀ g e', s.Holds e' g → g = f ∧ e' = e := fun g e' hg => by
          by_contra hne
          exact hnone' e' g ((close_holds h hf hfiles e' g).mpr ⟨hg, hne⟩)
        have htodo := (hcalm _ e held hf rfl).1 hlast
        refine ⟨fun _ g => ?_, fun info' hinfo => ?_, hends⟩
        · cases hg : s'.files.lookup g with
          | none => rfl
          | some file =>
              have hne := (hends g file hg).2
              have htodo' : file.todo = [] := by
                rw [hfiles, lookup_filesAfter] at hg
                rcases hg with ⟨-, hg⟩ | ⟨-, -, rfl⟩
                · exact htodo g file hg
                · rfl
              rw [htodo', append_nil] at hne
              obtain ⟨e', he'⟩ := exists_mem_of_ne_nil _ hne
              exact absurd ⟨file, hg, he'⟩ (hnone' e' g)
        · rw [hnone] at hinfo
          cases hinfo
      · refine ⟨fun hnone => ?_, fun info'' hinfo' => ?_, hends⟩
        · rw [hinfo] at hnone
          cases hnone
        · obtain rfl : info' = info'' := Option.some.inj (hinfo.symm.trans hinfo')
          refine ⟨⟨flags, hpipe ▸ hp, hflags⟩, hcount, fun g file hg => ?_⟩
          rw [hfiles, lookup_filesAfter] at hg
          rw [hpipe]
          rcases hg with ⟨-, hg⟩ | ⟨-, -, rfl⟩
          · exact (h.tracks info hi).pipe g file hg
          · exact (h.tracks info hi).pipe f ⟨pipe, [], e :: held⟩ hf
  · cases hform

theorem System.Inv.setAsleep (h : s.Inv) (a : Nat → Option (Nat × End)) :
    System.Inv { s with asleep := a } :=
  ⟨h.closed, fun info hi => ⟨(h.tracks info hi).flags, (h.tracks info hi).count,
    (h.tracks info hi).pipe⟩, h.ends⟩

theorem step_inv (h : s.Inv) {op : Op} (hcalm : s.Calm op) (hstep : s.step op = some s') :
    s'.Inv := by
  cases op with
  | lookup f access => exact lookup_inv h hstep
  | register f => exact register_inv h hstep
  | close f => exact close_inv h hcalm hstep
  | sleep t f e =>
      rw [step] at hstep
      split at hstep
      · split at hstep
        · obtain rfl := Option.some.inj hstep
          exact h.setAsleep _
        · cases hstep
      · cases hstep
  | wake t =>
      obtain rfl := Option.some.inj hstep
      exact h.setAsleep _

theorem boot_inv : boot.Inv :=
  ⟨fun _ _ => rfl, nofun, nofun⟩

theorem lookup_files {access : Access} (hstep : s.step (.lookup f access) = some s') :
    f ∉ s.files ∧ ∃ pipe, s'.files = s.files.insert f ⟨pipe, access.ends, []⟩ := by
  rw [step] at hstep
  split at hstep
  · cases hstep
  next hf =>
  refine ⟨hf, ?_⟩
  cases hi : s.info <;>
    · rw [getOrCreateFifo, hi] at hstep
      obtain rfl := Option.some.inj hstep
      exact ⟨_, rfl⟩

theorem register_files (hstep : s.step (.register f) = some s') :
    ∃ pipe e todo held, s.files.lookup f = some ⟨pipe, e :: todo, held⟩ ∧
      s'.files = s.files.insert f ⟨pipe, todo, held ++ [e]⟩ := by
  rw [step] at hstep
  split at hstep
  · next pipe e todo held hf =>
      refine ⟨pipe, e, todo, held, hf, ?_⟩
      cases hi : s.info <;>
        · rw [openFifo, hi] at hstep
          obtain rfl := Option.some.inj hstep
          rfl
  · cases hstep

theorem holds_mono {op : Op} (hop : ∀ f, op ≠ .close f) (hstep : s.step op = some s')
    {g : Nat} (hg : s.Holds e g) : s'.Holds e g := by
  obtain ⟨file, hfile, he⟩ := hg
  cases op with
  | lookup f access =>
      obtain ⟨hf, pipe, hfiles⟩ := lookup_files hstep
      refine ⟨file, ?_, he⟩
      rw [hfiles, lookup_insert, if_neg, hfile]
      rintro rfl
      rw [AList.lookup_eq_none.mpr hf] at hfile
      cases hfile
  | register f =>
      obtain ⟨pipe, e', todo, held, hf, hfiles⟩ := register_files hstep
      unfold System.Holds
      rw [hfiles, lookup_insert]
      split
      · next heq =>
          subst heq
          obtain rfl := Option.some.inj (hfile.symm.trans hf)
          exact ⟨_, rfl, mem_append_left _ he⟩
      · exact ⟨file, hfile, he⟩
  | close f => exact absurd rfl (hop f)
  | sleep t f e' =>
      rw [step] at hstep
      split at hstep
      · split at hstep
        · obtain rfl := Option.some.inj hstep
          exact ⟨file, hfile, he⟩
        · cases hstep
      · cases hstep
  | wake t =>
      obtain rfl := Option.some.inj hstep
      exact ⟨file, hfile, he⟩

/-- A close that is good and wakes was calm: it deletes the pipe of every file
that is still opening, and wakes nobody. -/
theorem close_calm_iff (h : s.Inv) (hstep : s.step (.close f) = some s') :
    (s'.Good ∧ s.Woken s') ↔ s.Calm (.close f) := by
  have hform := hstep
  rw [step] at hform
  split at hform
  · next pipe e held hf =>
      obtain ⟨info, hi⟩ := h.info_of_file hf
      have hpipe := (h.tracks info hi).pipe
      obtain ⟨hfiles, hasleep, hcases⟩ := close_cases h hf hi hstep
      have hholds := close_holds h hf hfiles
      constructor
      · intro ⟨hgood, hwoken⟩ file e' rest hf' hheld
        obtain rfl : _ = file := Option.some.inj (hf.symm.trans hf')
        obtain ⟨rfl, rfl⟩ := cons.inj hheld
        refine ⟨fun hlast g file' hg => ?_, fun hlast t ht => ?_⟩
        · by_contra htodo
          have hne : g ≠ f := by
            rintro rfl
            obtain rfl := Option.some.inj (hf.symm.trans hg)
            exact htodo rfl
          have hg' : s'.files.lookup g = some file' := by
            rw [hfiles, lookup_filesAfter]
            exact .inl ⟨hne, hg⟩
          obtain ⟨flags, hp, -⟩ := hgood g file' hg'
          rw [hpipe g file' hg] at hp
          rcases hcases with ⟨-, -, hdel⟩ | ⟨⟨e', hw⟩, -⟩
          · rw [hdel] at hp
            cases hp
          · obtain ⟨g', hg'⟩ := holds_iff.mpr (Nat.pos_of_ne_zero hw)
            obtain ⟨hold, hno⟩ := (hholds e' g').mp hg'
            exact hno (hlast g' e' hold)
        · refine hwoken info hi e ⟨f, _, hf, mem_cons_self ..⟩ (fun ⟨g, hg⟩ => ?_) t ?_
          · obtain ⟨hold, hno⟩ := (hholds e g).mp hg
            exact hno ⟨hlast g hold, rfl⟩
          · rw [hasleep, ht, hpipe f _ hf]
      · intro hcalm
        refine ⟨(close_inv h hcalm hstep).good, fun info' hi' e' hex hnone t ht => ?_⟩
        obtain rfl : info = info' := Option.some.inj (hi.symm.trans hi')
        have hlast : ∀ g, s.Holds e' g → g = f ∧ e' = e := fun g hg => by
          by_contra hne
          exact hnone ⟨g, (hholds e' g).mpr ⟨hg, hne⟩⟩
        obtain ⟨g, hg⟩ := hex
        obtain ⟨-, rfl⟩ := hlast g hg
        refine (hcalm _ e' held hf rfl).2 (fun g hg => (hlast g hg).1) t ?_
        rw [← hasleep, ht, ← hpipe f _ hf]
  · cases hform

theorem step_calm_iff (h : s.Inv) {op : Op} (hstep : s.step op = some s') :
    (s'.Good ∧ s.Woken s') ↔ s.Calm op := by
  by_cases hop : ∃ f, op = .close f
  · obtain ⟨f, rfl⟩ := hop
    exact close_calm_iff h hstep
  · have hop : ∀ f, op ≠ .close f := fun f heq => hop ⟨f, heq⟩
    have hcalm : s.Calm op := by
      cases op with
      | close f => exact absurd rfl (hop f)
      | lookup | register | sleep | wake => trivial
    refine ⟨fun _ => hcalm, fun _ => ⟨(step_inv h hcalm hstep).good, ?_⟩⟩
    exact fun _ _ _ ⟨g, hg⟩ hnone => absurd ⟨g, holds_mono hop hstep hg⟩ hnone

end Inv

/-- In every run of calm steps the pipe of every file lives and its flags are
right, and the next step leaves it so and wakes whom it has to exactly if it is
calm too. -/
theorem fifo_good_iff_calm {ops : List Op} {s : System}
    (hrun : Run.Guarded System.step System.Calm .boot ops s) :
    s.Good ∧ ∀ op s', s.step op = some s' → ((s'.Good ∧ s.Woken s') ↔ s.Calm op) := by
  have h : s.Inv := hrun.inv (fun hi hc hf => step_inv hi hc hf) boot_inv
  exact ⟨h.good, fun op s' hstep => step_calm_iff h hstep⟩

def pairOps : List Op := [.lookup 1 .rdonly, .register 1, .lookup 2 .wronly, .register 2]

theorem fifo_good_iff_calm_pair : ∃ s s',
    Run.Guarded System.step System.Calm .boot pairOps s ∧ s.step (.close 2) = some s' ∧
      s'.Good ∧ s.Woken s' := by
  have hrun : Run.Guarded step System.Calm .boot pairOps _ :=
    .cons trivial rfl (.cons trivial rfl (.cons trivial rfl (.cons trivial rfl (.nil _))))
  refine ⟨_, _, hrun, rfl, ((fifo_good_iff_calm hrun).2 (.close 2) _ rfl).mpr ?_⟩
  intro file e rest _ _
  refine ⟨fun _ g file' hg => ?_, fun _ t => nofun⟩
  have hmem : _ ∈ [_, _] := AList.mem_lookup_iff.mp hg
  simp only [mem_cons, not_mem_nil, or_false] at hmem
  rcases hmem with hmem | hmem <;>
    · cases hmem
      rfl

/-- A writer has looked the pipe up when the only reader closes: its pipe is
deleted. -/
theorem pipe_deleted : ∃ s, Run.Guarded System.step (fun _ _ => True) .boot
      [.lookup 1 .rdonly, .register 1, .lookup 2 .wronly, .close 1, .register 2] s ∧
      s.files.lookup 2 = some ⟨0, [], [.writer]⟩ ∧ s.pipes 0 = none ∧ ¬ s.Good := by
  refine ⟨_, .cons trivial rfl (.cons trivial rfl (.cons trivial rfl
    (.cons trivial rfl (.cons trivial rfl (.nil _))))), rfl, rfl, fun hgood => ?_⟩
  obtain ⟨flags, hp, -⟩ := hgood 2 ⟨0, [], [.writer]⟩ rfl
  cases hp

theorem reader_not_woken : ∃ s s',
    Run.Guarded step (fun _ _ => True) .boot (pairOps ++ [.sleep 7 1 .reader]) s ∧
      s.step (.close 2) = some s' ∧ s'.pipes 0 = some (fun e => decide (e = End.reader)) ∧
      s'.asleep 7 = some (0, .reader) := by
  refine ⟨_, _, .cons trivial rfl (.cons trivial rfl (.cons trivial rfl (.cons trivial rfl
    (.cons trivial rfl (.nil _))))), rfl, ?_, rfl⟩
  refine congrArg some (funext fun e => ?_)
  cases e <;> rfl

end F7ly.Fs.Fifo
