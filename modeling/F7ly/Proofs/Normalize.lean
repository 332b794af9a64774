import Mathlib
import F7ly.Proofs.SymlinkText

/-!
# The normal form of a path

Reading the components of a path from left to right keeps a number of steps up, which
only a relative path can have, and the names below. `normalize_path` writes exactly
that: with the full pass because its stack of components is `..` so many times and then
the names, and without it because a text that needs no normalization is already written
that way. What it writes is read back as what was written, so a second call changes
nothing.
-/

namespace F7ly.Fs.Symlink

open Path List

def isAbsolute (path : Text) : Bool := path.head? = some '/'

/-- Steps up, and then names. -/
structure Reading where
  ups : Nat := 0
  names : List Text := []

def Reading.next (isAbsolute : Bool) (r : Reading) (c : Text) : Reading :=
  if c = dot then r
  else if c = dotDot then
    if r.names = [] then { r with ups := if isAbsolute then r.ups else r.ups + 1 }
    else { r with names := r.names.dropLast }
  else { r with names := r.names ++ [c] }

def Reading.of (path : Text) : Reading :=
  (components path).foldl (Reading.next (isAbsolute path)) {}

def Reading.listed (r : Reading) : List Text := replicate r.ups dotDot ++ r.names

/-- Names below, and no way up from the root. -/
structure Reading.Ok (isAbsolute : Bool) (r : Reading) : Prop where
  clean : Clean r.names
  rooted : isAbsolute = true → r.ups = 0

theorem isName_dotDot : IsName dotDot := ⟨by decide, by decide⟩

variable {a : Bool} {r : Reading} {cs : List Text}

theorem Reading.Ok.isName (h : r.Ok a) : ∀ c ∈ r.listed, IsName c := by
  intro c hc
  rcases mem_append.mp hc with hc | hc
  · rw [eq_of_mem_replicate hc]
    exact isName_dotDot
  · exact (h.clean c hc).1

theorem Reading.Ok.next (h : r.Ok a) {c : Text} (hc : IsName c) : (r.next a c).Ok a := by
  rw [Reading.next]
  split
  · exact h
  next hdot =>
  split
  · split
    · exact ⟨h.clean, fun ha => by rw [if_pos ha]; exact h.rooted ha⟩
    · exact ⟨h.clean.dropLast, h.rooted⟩
  · next hdots => exact ⟨h.clean.concat hc fun hd => hd.elim hdot hdots, h.rooted⟩

/-- The stack of `normalize_path` is what has been read. -/
theorem pushComponent_listed (h : r.Ok a) (c : Text) :
    pushComponent a r.listed c = (r.next a c).listed := by
  rw [pushComponent, Reading.next]
  split
  · rfl
  split
  · next hup =>
      by_cases hnames : r.names = []
      · have hlast : ¬(r.listed ≠ [] ∧ r.listed.getLast? ≠ some dotDot) := by
          rw [Reading.listed, hnames, append_nil]
          rintro ⟨hne, hlast⟩
          cases hups : r.ups with
          | zero => exact hne (by rw [hups]; rfl)
          | succ n =>
              rw [hups, replicate_succ', getLast?_concat] at hlast
              exact hlast rfl
        rw [if_neg hlast, if_pos hnames, hup]
        cases a with
        | true => rfl
        | false => simp [Reading.listed, hnames, replicate_succ']
      · obtain ⟨names, n, hn⟩ := (eq_nil_or_concat r.names).resolve_left hnames
        rw [concat_eq_append] at hn
        have hdots : n ≠ dotDot := fun heq =>
          (h.clean n (by rw [hn]; simp)).2 (.inr heq)
        have hlisted : r.listed = (replicate r.ups dotDot ++ names) ++ [n] := by
          rw [Reading.listed, hn, append_assoc]
        rw [if_pos ⟨by simp [hlisted], by simpa [hlisted] using hdots⟩, if_neg hnames, hlisted,
          dropLast_concat]
        simp [Reading.listed, hn]
  · simp [Reading.listed]

theorem foldl_pushComponent {comps : List Text} (h : ∀ c ∈ comps, IsName c) :
    ∀ {r : Reading}, r.Ok a →
      comps.foldl (pushComponent a) r.listed = (comps.foldl (Reading.next a) r).listed ∧
        (comps.foldl (Reading.next a) r).Ok a := by
  induction comps with
  | nil => exact fun hr => ⟨rfl, hr⟩
  | cons c comps ih =>
      intro r hr
      rw [foldl_cons, foldl_cons, pushComponent_listed hr]
      exact ih (fun d hd => h d (mem_cons_of_mem _ hd)) (hr.next (h c mem_cons_self))

theorem Reading.ok_empty (a : Bool) : Reading.Ok a {} :=
  ⟨fun _ hc => absurd hc not_mem_nil, fun _ => rfl⟩

theorem Reading.of_ok (path : Text) : (Reading.of path).Ok (isAbsolute path) :=
  (foldl_pushComponent (fun _ => isName_of_mem_components) (Reading.ok_empty _)).2

theorem fullPass_write (path : Text) :
    fullPass path = write (isAbsolute path) (Reading.of path).listed := by
  have hnames : ∀ c ∈ components path, IsName c := fun _ => isName_of_mem_components
  have hfold := foldl_pushComponent hnames (Reading.ok_empty (isAbsolute path))
  exact fullPass_eq rfl hfold.1 (Reading.of_ok path).isName

theorem foldl_next_noDots (h : ∀ c ∈ cs, ¬IsDots c) :
    ∀ r : Reading, cs.foldl (Reading.next a) r = { r with names := r.names ++ cs } := by
  induction cs with
  | nil => exact fun r => by rw [append_nil]; rfl
  | cons c cs ih =>
      intro r
      have hc := h c mem_cons_self
      rw [foldl_cons, ih fun d hd => h d (mem_cons_of_mem _ hd), Reading.next,
        if_neg fun heq => hc (.inl heq), if_neg fun heq => hc (.inr heq)]
      simp

theorem Reading.Ok.foldl_listed (h : r.Ok a) : r.listed.foldl (Reading.next a) {} = r := by
  have hups : (replicate r.ups dotDot).foldl (Reading.next a) {} = ⟨r.ups, []⟩ := by
    cases a with
    | true => rw [h.rooted rfl]; rfl
    | false =>
        generalize r.ups = n
        induction n with
        | zero => rfl
        | succ n ih => rw [replicate_succ', foldl_append, ih]; rfl
  rw [Reading.listed, foldl_append, hups, foldl_next_noDots fun c hc => (h.clean c hc).2]
  rfl

theorem head?_ne_slash {c : Text} (hc : IsName c) (rest : Text) : (c ++ rest).head? ≠ some '/' := by
  cases c with
  | nil => exact absurd rfl hc.ne_nil
  | cons x c => exact fun h => hc.noSlash (Option.some.inj h ▸ mem_cons_self)

theorem isAbsolute_write (h : ∀ c ∈ cs, IsName c) : isAbsolute (write a cs) = a := by
  cases cs with
  | nil => cases a <;> rfl
  | cons c cs =>
      cases a with
      | true => simp [isAbsolute, write, render]
      | false =>
          simpa [isAbsolute, write] using head?_ne_slash (h c mem_cons_self) (joined cs)

theorem components_write (h : ∀ c ∈ cs, IsName c)
    (hne : a = true ∨ cs ≠ []) : components (write a cs) = cs := by
  cases a with
  | true => exact components_render h
  | false =>
      cases cs with
      | nil => exact absurd rfl (hne.resolve_left (by decide))
      | cons c cs =>
          have := components_joined h
          rwa [joined_cons, components_slash] at this

theorem Reading.Ok.of_write (h : r.Ok a) : Reading.of (write a r.listed) = r := by
  rw [Reading.of, isAbsolute_write h.isName]
  by_cases hne : a = true ∨ r.listed ≠ []
  · rw [components_write h.isName hne, h.foldl_listed]
  · obtain ⟨ha, hnil⟩ := not_or.mp hne
    have hnil : r.listed = [] := Classical.not_not.mp hnil
    have hr := h.foldl_listed
    rw [hnil] at hr ⊢
    rw [← hr, eq_false_of_ne_true ha]
    rfl

theorem write_of_not_needed {path : Text} (hne : path ≠ [])
    (h : pathNeedsNormalization path = false) :
    write (isAbsolute path) (Reading.of path).listed = path := by
  have hread : ∀ {cs : List Text}, components path = cs → (∀ c ∈ cs, ¬IsDots c) →
      (Reading.of path).listed = cs := by
    intro cs hcs hnone
    rw [Reading.of, hcs, foldl_next_noDots hnone]
    rfl
  by_cases habs : path.head? = some '/'
  · obtain ⟨hr, hnone⟩ := render_components habs h
    rw [hread rfl hnone, isAbsolute, decide_eq_true habs]
    exact hr
  · obtain ⟨x, rest, rfl⟩ := exists_cons_of_ne_nil hne
    have hx : x ≠ '/' := fun heq => habs (congrArg some heq)
    rw [isAbsolute, decide_eq_false habs]
    rw [pathNeedsNormalization, if_neg hne, needsFrom, if_neg hx, nil_append] at h
    have hcomponents : components (x :: rest) = split [x] rest := by
      rw [components, split, if_neg hx]
      rfl
    cases rest with
    | nil =>
        rw [hread hcomponents fun c hc => ?_]
        · rfl
        · rw [mem_singleton.mp hc]
          exact fun hd => by simp [needsFrom, hd] at h
    | cons y rest =>
        have hsize : 1 < (x :: y :: rest).length := by simp
        obtain ⟨htext, hnone⟩ := needsFrom_false hsize (y :: rest) [x] (by simpa using h)
        have hcs : split [x] (y :: rest) ≠ [] := by
          intro hnil
          rw [hnil] at htext
          cases htext
        rw [hread hcomponents hnone, write, if_neg (by decide), if_neg hcs, ← htext]
        rfl

theorem write_ne_nil (h : ∀ c ∈ cs, IsName c) : write a cs ≠ [] := by
  intro hnil
  cases a with
  | true => cases cs <;> simp [write, render] at hnil
  | false =>
      cases cs with
      | nil => cases hnil
      | cons c cs =>
          simp only [write, joined_cons, if_false, reduceCtorEq, tail_cons,
            append_eq_nil_iff] at hnil
          exact (h c mem_cons_self).ne_nil hnil.1

theorem normalizePath_write {path : Text} (hne : path ≠ []) :
    normalizePath path = write (isAbsolute path) (Reading.of path).listed := by
  rw [normalizePath, if_neg hne]
  split
  · next h => exact (write_of_not_needed hne (by simpa using h)).symm
  · exact fullPass_write path

theorem joined_noDouble (h : ∀ c ∈ cs, IsName c) :
    ∀ before after, joined cs ≠ before ++ '/' :: '/' :: after := by
  induction cs with
  | nil => exact fun before after hj => by simp at hj
  | cons c cs ih =>
      intro before after hj
      have hc := h c mem_cons_self
      have ih := ih fun d hd => h d (mem_cons_of_mem _ hd)
      cases before with
      | nil =>
          exact head?_ne_slash hc (joined cs) (congrArg head? (cons.inj hj).2)
      | cons x before =>
          rcases append_eq_append_iff.mp (cons.inj hj).2 with
            ⟨t, rfl, ht⟩ | ⟨t, hct, ht⟩
          · exact ih t after ht
          · cases t with
            | nil => exact ih [] after ht.symm
            | cons y t =>
                refine hc.noSlash (hct ▸ mem_append_right _ ?_)
                rw [(cons.inj ht).1]
                exact mem_cons_self

theorem joined_noTrailing (h : ∀ c ∈ cs, IsName c) : (joined cs).getLast? ≠ some '/' := by
  rcases eq_nil_or_concat cs with rfl | ⟨cs, c, rfl⟩
  · decide
  · rw [concat_eq_append] at h ⊢
    rw [joined_append, joined_cons, joined_nil, append_nil, append_cons]
    exact (h c (by simp)).getLast?_append _

/-- A text without empty components and without a slash at its end, but for the root. -/
structure Tidy (path : Text) : Prop where
  noDouble : ∀ before after, path ≠ before ++ '/' :: '/' :: after
  noTrailing : path.getLast? = some '/' → path = ['/']

theorem tidy_write (h : ∀ c ∈ cs, IsName c) : Tidy (write a cs) := by
  have hshort : ∀ {x : Char} {before after : Text}, [x] ≠ before ++ '/' :: '/' :: after := by
    intro x before after heq
    have hlength := congrArg length heq
    simp only [length_append, length_cons, length_nil] at hlength
    omega
  cases cs with
  | nil =>
      cases a with
      | true => exact ⟨fun _ _ => hshort, fun _ => rfl⟩
      | false => exact ⟨fun _ _ => hshort, fun hl => absurd hl (by decide)⟩
  | cons c cs =>
      have hdouble := joined_noDouble h
      have htrailing := joined_noTrailing h
      cases a with
      | true => exact ⟨hdouble, fun hl => absurd hl htrailing⟩
      | false =>
          have hj : joined (c :: cs) = '/' :: write false (c :: cs) := by simp [write]
          rw [hj] at hdouble htrailing
          refine ⟨fun before after heq => hdouble ('/' :: before) after (by rw [heq]; rfl),
            fun hl => absurd ?_ htrailing⟩
          rw [getLast?_cons, hl]
          rfl

/-- `normalize_path` gives the normal form of what the path denotes: absolute if the path
is, tidy, with `..` only in front of a relative path and no `.` besides the path `.`
itself. A second call changes nothing, and the shortcut is taken only where the full pass
changes nothing. -/
theorem normalizePath_canonical {path : Text} (hne : path ≠ []) :
    isAbsolute (normalizePath path) = isAbsolute path ∧ Tidy (normalizePath path) ∧
      (components (normalizePath path) = (Reading.of path).listed ∨
        normalizePath path = dot ∧ (Reading.of path).listed = []) ∧
      (Reading.of path).Ok (isAbsolute path) ∧
      normalizePath (normalizePath path) = normalizePath path ∧
      (pathNeedsNormalization path = false → fullPass path = path) := by
  have hok := Reading.of_ok path
  have habs : isAbsolute (normalizePath path) = isAbsolute path := by
    rw [normalizePath_write hne, isAbsolute_write hok.isName]
  refine ⟨habs, ?_, ?_, hok, ?_, fun h => ?_⟩
  · rw [normalizePath_write hne]
    exact tidy_write hok.isName
  · rw [normalizePath_write hne]
    by_cases h : isAbsolute path = true ∨ (Reading.of path).listed ≠ []
    · exact .inl (components_write hok.isName h)
    · obtain ⟨ha, hnil⟩ := not_or.mp h
      have hnil : (Reading.of path).listed = [] := Classical.not_not.mp hnil
      rw [hnil, eq_false_of_ne_true ha]
      exact .inr ⟨rfl, rfl⟩
  · have hne' : normalizePath path ≠ [] := by
      rw [normalizePath_write hne]
      exact write_ne_nil hok.isName
    rw [normalizePath_write hne', habs, normalizePath_write hne, hok.of_write]
  · rw [fullPass_write, write_of_not_needed hne h]

/-- Up past the start of a relative path. -/
theorem normalizePath_canonical_relative :
    normalizePath ['a', '/', '.', '.', '/', '.', '.', '/', '/', 'b', '/'] = ['.', '.', '/', 'b'] ∧
      Tidy (normalizePath ['a', '/', '.', '.', '/', '.', '.', '/', '/', 'b', '/']) :=
  ⟨by decide, (normalizePath_canonical (by decide)).2.1⟩

theorem Reading.of_append {path : Text} (hne : path ≠ []) (rest : Text) :
    isAbsolute (path ++ '/' :: rest) = isAbsolute path ∧ Reading.of (path ++ '/' :: rest) =
        (components rest).foldl (Reading.next (isAbsolute path)) (Reading.of path) := by
  have habs : isAbsolute (path ++ '/' :: rest) = isAbsolute path := by
    rw [isAbsolute, isAbsolute, head?_append_of_ne_nil _ hne]
  rw [Reading.of, habs, components_append_slash, foldl_append]
  exact ⟨rfl, rfl⟩

/-- A path may be normalized before or after a further path is put behind it: the working
directory and mount points can be kept in normal form. -/
theorem normalizePath_append {path : Text} (hne : path ≠ []) (rest : Text) :
    normalizePath (normalizePath path ++ '/' :: rest) = normalizePath (path ++ '/' :: rest) := by
  have hok := Reading.of_ok path
  have hnorm := normalizePath_write hne
  have hne' : normalizePath path ≠ [] := hnorm ▸ write_ne_nil hok.isName
  have hread : Reading.of (normalizePath path) = Reading.of path := by rw [hnorm, hok.of_write]
  have habs : isAbsolute (normalizePath path) = isAbsolute path := by
    rw [hnorm, isAbsolute_write hok.isName]
  obtain ⟨ha, hr⟩ := Reading.of_append hne rest
  obtain ⟨ha', hr'⟩ := Reading.of_append hne' rest
  have hjoin : ∀ p : Text, p ++ '/' :: rest ≠ [] := by simp
  rw [normalizePath_write (hjoin path), normalizePath_write (hjoin _), ha, ha', hr, hr', habs,
    hread]

/-- Two steps up, behind a path that ends with one. -/
theorem normalizePath_append_up :
    normalizePath (normalizePath ['/', 'a', '/', 'b', '/', '.', '.'] ++ ['/', '.', '.', '/', 'c']) =
      normalizePath ['/', 'a', '/', 'b', '/', '.', '.', '/', '.', '.', '/', 'c'] :=
  normalizePath_append (by decide) ['.', '.', '/', 'c']

end F7ly.Fs.Symlink
