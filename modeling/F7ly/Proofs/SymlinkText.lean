import F7ly.Fs.Symlink

/-!
# The texts behind symbolic links

`resolve_symlinks` works on characters. This file reads its loops as operations
on components: normalization pushes them one by one, the scan is the walk to the
first link (`Tree.findLink_render`), and a splice puts the target's components
behind the directory they start from (`splice_spec`). One round of the loop is
then `Tree.resolve_step`, and no text is looked at afterwards.
-/

namespace F7ly.Fs.Symlink

open Path List

def Clean (cs : List Text) : Prop := ∀ c ∈ cs, IsName c ∧ ¬ IsDots c

variable {cs comps dir : List Text} {c path : Text} {isAbsolute : Bool} {t : Tree}

theorem Clean.names (h : Clean cs) : ∀ c ∈ cs, IsName c :=
  fun c hc => (h c hc).1

theorem Clean.append {cs' : List Text} (h : Clean cs) (h' : Clean cs') : Clean (cs ++ cs') :=
  fun c hc => (mem_append.mp hc).elim (h c) (h' c)

theorem Clean.dropLast (h : Clean cs) : Clean cs.dropLast :=
  fun c hc => h c (dropLast_subset cs hc)

theorem Clean.concat (h : Clean cs) (hc : IsName c) (hd : ¬ IsDots c) : Clean (cs ++ [c]) :=
  h.append fun d hd' => by rw [mem_singleton.mp hd']; exact ⟨hc, hd⟩

/-- Components pushed one by one, as `normalize_path` does for an absolute
path. -/
def norm (acc comps : List Text) : List Text := comps.foldl (pushComponent true) acc

theorem pushComponent_dots {acc : List Text} (hacc : Clean acc) :
    pushComponent true acc dot = acc ∧ pushComponent true acc dotDot = acc.dropLast := by
  refine ⟨if_pos rfl, ?_⟩
  have hlast : acc.getLast? ≠ some dotDot := fun h =>
    (hacc dotDot (mem_of_getLast? h)).2 (.inr rfl)
  rw [pushComponent, if_neg (by decide), if_pos rfl]
  cases acc with
  | nil => rfl
  | cons c acc => rw [if_pos ⟨cons_ne_nil c acc, hlast⟩]

theorem pushComponent_name {acc : List Text} (hc : ¬ IsDots c) :
    pushComponent true acc c = acc ++ [c] := by
  rw [pushComponent, if_neg fun h => hc (.inl h), if_neg fun h => hc (.inr h)]

theorem norm_append (acc a b : List Text) : norm acc (a ++ b) = norm (norm acc a) b :=
  foldl_append

theorem norm_of_noDots (h : ∀ c ∈ comps, ¬ IsDots c) : ∀ acc, norm acc comps = acc ++ comps := by
  induction comps with
  | nil => exact fun acc => (append_nil acc).symm
  | cons c comps ih =>
      intro acc
      rw [norm, foldl_cons, pushComponent_name (h c mem_cons_self), ← norm,
        ih fun d hd => h d (mem_cons_of_mem _ hd), append_assoc,
        singleton_append]

theorem Clean.norm (h : ∀ c ∈ comps, IsName c) : ∀ {acc}, Clean acc → Clean (norm acc comps) := by
  induction comps with
  | nil => exact fun hacc => hacc
  | cons c comps ih =>
      intro acc hacc
      refine ih (fun d hd => h d (mem_cons_of_mem _ hd)) ?_
      by_cases hc : IsDots c
      · obtain rfl | rfl := hc
        · exact hacc
        · rw [(pushComponent_dots hacc).2]
          exact hacc.dropLast
      · rw [pushComponent_name hc]
        exact hacc.concat (h c mem_cons_self) hc

theorem needsFrom_false {size : Nat} (hsize : 1 < size) (rest : Text) :
    ∀ component, needsFrom size (component = []) component rest = false →
      '/' :: (component ++ rest) = joined (split component rest) ∧
      ∀ c ∈ split component rest, ¬ IsDots c := by
  induction rest with
  | nil =>
      intro component h
      simp only [needsFrom, Bool.or_eq_false_iff, decide_eq_false_iff_not,
        Bool.and_eq_false_iff] at h
      have hne : component ≠ [] := h.2.resolve_right (not_not_intro hsize)
      rw [split, if_neg hne]
      refine ⟨by simp, fun c hc => ?_⟩
      rw [mem_singleton.mp hc]
      exact h.1
  | cons c rest ih =>
      intro component h
      rw [needsFrom] at h
      rw [split]
      split at h
      · next hc =>
          simp only [Bool.or_eq_false_iff, decide_eq_false_iff_not] at h
          obtain ⟨⟨hne, hdots⟩, hrest⟩ := h
          obtain ⟨htext, hnone⟩ := ih [] (by simpa using hrest)
          rw [if_pos hc, if_neg hne, hc, joined_cons, ← htext]
          refine ⟨rfl, fun d hd => ?_⟩
          obtain rfl | hd := mem_cons.mp hd
          · exact hdots
          · exact hnone d hd
      next hc =>
      rw [if_neg hc]
      have hnext := ih (component ++ [c]) (by simpa using h)
      rw [append_assoc, singleton_append] at hnext
      exact hnext

theorem render_components (habs : path.head? = some '/') (h : pathNeedsNormalization path = false) :
    render (components path) = path ∧ ∀ c ∈ components path, ¬ IsDots c := by
  obtain ⟨rest, rfl⟩ : ∃ rest, path = '/' :: rest := by
    cases path with
    | nil => cases habs
    | cons c rest => exact ⟨rest, by rw [Option.some.inj habs]⟩
  rw [components_slash]
  cases rest with
  | nil => exact ⟨rfl, fun c hc => absurd hc not_mem_nil⟩
  | cons c rest =>
      rw [pathNeedsNormalization, if_neg (cons_ne_nil _ _), needsFrom, if_pos rfl] at h
      simp only [Bool.or_eq_false_iff] at h
      have hsize : 1 < ('/' :: c :: rest).length := by simp
      obtain ⟨htext, hnone⟩ := needsFrom_false hsize (c :: rest) [] (by simpa using h.2)
      refine ⟨?_, hnone⟩
      rw [render_of_ne_nil, components, ← htext, nil_append]
      intro hnil
      rw [components] at hnil
      rw [hnil] at htext
      cases htext

theorem rebuild_joined (h : ∀ c ∈ comps, IsName c) :
    ∀ {result : Text}, result ≠ [] → result.getLast? ≠ some '/' →
      rebuild isAbsolute result comps = result ++ joined comps := by
  induction comps with
  | nil => exact fun _ _ => (append_nil _).symm
  | cons c comps ih =>
      intro result hne hlast
      have hc := h c mem_cons_self
      rw [rebuild, if_pos ⟨.inl hne, hlast⟩, ih (fun d hd => h d (mem_cons_of_mem _ hd)),
        joined_cons]
      · simp
      · simp [hne]
      · exact hc.getLast?_append _

def write (isAbsolute : Bool) (cs : List Text) : Text :=
  if isAbsolute then render cs else if cs = [] then dot else (joined cs).tail

theorem rebuild_write (h : ∀ c ∈ cs, IsName c) :
    (if rebuild isAbsolute (if isAbsolute then ['/'] else []) cs = [] then
      (if isAbsolute then ['/'] else dot)
    else rebuild isAbsolute (if isAbsolute then ['/'] else []) cs) = write isAbsolute cs := by
  cases cs with
  | nil => cases isAbsolute <;> rfl
  | cons c cs =>
      have hc := h c mem_cons_self
      have hrest : ∀ d ∈ cs, IsName d := fun d hd => h d (mem_cons_of_mem _ hd)
      cases isAbsolute with
      | true =>
          have hbuild : rebuild true ['/'] (c :: cs) = joined (c :: cs) := by
            rw [rebuild, if_neg (by simp), rebuild_joined hrest (by simp)
              (hc.getLast?_append _), joined_cons, singleton_append, cons_append]
          simp [hbuild, write, render]
      | false =>
          have hbuild : rebuild false [] (c :: cs) = c ++ joined cs := by
            rw [rebuild, if_neg (by simp), nil_append,
              rebuild_joined hrest hc.ne_nil (by simpa using hc.getLast?_append [])]
          simp [hbuild, hc.ne_nil, write]

/-- `normalize_path` without its shortcut. -/
def fullPass (path : Text) : Text :=
  let isAbsolute := path.head? = some '/'
  let normalized := (components path).foldl (pushComponent isAbsolute) []
  let result := rebuild isAbsolute (if isAbsolute then ['/'] else []) normalized
  if result = [] then (if isAbsolute then ['/'] else dot) else result

theorem fullPass_eq (habs : decide (path.head? = some '/') = isAbsolute)
    (hcs : (components path).foldl (pushComponent isAbsolute) [] = cs)
    (h : ∀ c ∈ cs, IsName c) : fullPass path = write isAbsolute cs := by
  subst habs hcs
  rw [← rebuild_write h]
  simp [fullPass]

theorem normalizePath_abs (habs : path.head? = some '/') :
    normalizePath path = render (norm [] (components path)) := by
  have hne : path ≠ [] := by
    rintro rfl
    cases habs
  have hnames : ∀ c ∈ components path, IsName c := fun c => isName_of_mem_components
  rw [normalizePath, if_neg hne]
  split
  · next hneeds =>
      obtain ⟨hr, hnone⟩ := render_components habs (by simpa using hneeds)
      rw [norm_of_noDots hnone, nil_append, hr]
  · have hclean : Clean (norm [] (components path)) :=
      Clean.norm hnames fun c hc => absurd hc not_mem_nil
    exact fullPass_eq (decide_eq_true habs) rfl hclean.names

theorem dropWhile_slash (hc : IsName c) (rest : Text) :
    ('/' :: (c ++ rest)).dropWhile isSlash = c ++ rest := by
  cases c with
  | nil => exact absurd rfl hc.ne_nil
  | cons x c =>
      have hx : isSlash x = false :=
        decide_eq_false fun h => hc.noSlash (h ▸ mem_cons_self)
      rw [dropWhile_cons_of_pos (by decide), cons_append, dropWhile_cons_of_neg (by simp [hx])]

theorem joined_head {x : Char} {rest : Text} (h : joined cs = x :: rest) : isSlash x := by
  cases cs with
  | nil => cases h
  | cons c cs =>
      rw [← (cons.inj h).1]
      rfl

theorem takeWhile_name (hc : '/' ∉ c) (cs : List Text) :
    (c ++ joined cs).takeWhile (!isSlash ·) = c ∧
    (c ++ joined cs).dropWhile (!isSlash ·) = joined cs := by
  induction c with
  | nil =>
      cases hj : joined cs with
      | nil => exact ⟨rfl, rfl⟩
      | cons x rest => simp [joined_head hj]
  | cons x c ih =>
      obtain ⟨hx, hc⟩ := ne_and_not_mem_of_not_mem_cons hc
      have hx : isSlash x = false := decide_eq_false (Ne.symm hx)
      obtain ⟨ht, hd⟩ := ih hc
      simp [hx, ht, hd]

theorem dropWhile_joined (h : ∀ c ∈ cs, IsName c) :
    (joined cs).dropWhile isSlash = [] ↔ cs = [] := by
  cases cs with
  | nil => simp
  | cons c cs =>
      have hc := h c mem_cons_self
      rw [joined_cons, dropWhile_slash hc]
      simp [hc.ne_nil]

theorem render_head (cs : List Text) : (render cs).head? = some '/' := by
  cases cs <;> simp [render]

theorem render_append_singleton (front : List Text) (c : Text) :
    render (front ++ [c]) = joined front ++ '/' :: c := by
  rw [render_of_ne_nil (by simp), joined_append, joined_cons, joined_nil, append_nil]

theorem render_concat {place : List Text} (h : ∀ c ∈ place, IsName c) (c : Text) :
    (if (render place).getLast? ≠ some '/' then render place ++ ['/'] else render place) ++ c =
      render (place ++ [c]) := by
  rw [render_append_singleton]
  cases hp : place.getLast? with
  | none =>
      rw [getLast?_eq_none_iff.mp hp]
      rfl
  | some d =>
      obtain ⟨front, rfl⟩ := getLast?_eq_some_iff.mp hp
      have hlast : (render (front ++ [d])).getLast? ≠ some '/' := by
        rw [render_append_singleton, ← singleton_append, ← append_assoc]
        exact (h d (by simp)).getLast?_append _
      rw [if_pos hlast, render_of_ne_nil (by simp), append_assoc, singleton_append]

/-- The scan of the components behind a directory, read off the walk. The
link's name is lost in the walk: `c` is it. -/
inductive ScanOf (t : Tree) (place cs : List Text) : Stop → Scan → Prop
  | reached : ScanOf t place cs (.reached (place ++ cs)) (.plain (render (place ++ cs)))
  | fail (e : Errno) : ScanOf t place cs (.fail e) (.fail e)
  | meets (dir rest : List Text) (c target : Text) (hdir : t.kind dir = some .dir)
      (hlink : t.kind (dir ++ [c]) = some (.link target))
      (hsplit : place ++ cs = dir ++ c :: rest) :
      ScanOf t place cs (.meets dir target rest) (.link (render (dir ++ [c])) (joined rest))

theorem ScanOf.shift {place : List Text} {st : Stop} {sc : Scan}
    (h : ScanOf t (place ++ [c]) cs st sc) : ScanOf t place (c :: cs) st sc := by
  cases h with
  | reached =>
      rw [append_assoc, singleton_append]
      exact .reached
  | fail e => exact .fail e
  | meets dir rest d target hdir hlink hsplit =>
      rw [append_assoc, singleton_append] at hsplit
      exact .meets dir rest d target hdir hlink hsplit

theorem Tree.scan_nil (t : Tree) (fuel : Nat) (current : Text) :
    t.scan fuel current [] = .plain current := by
  cases fuel <;> rfl

theorem Tree.scan_place (t : Tree) :
    ∀ (cs : List Text) (place : List Text) (fuel : Nat), Clean place → Clean cs →
      t.kind place = some .dir → (joined cs).length ≤ fuel →
      ScanOf t place cs (t.advance place cs) (t.scan fuel (render place) (joined cs)) := by
  intro cs
  induction cs with
  | nil =>
      intro place fuel _ _ _ _
      rw [Tree.advance, joined_nil, Tree.scan_nil]
      have h : ScanOf t place [] (.reached (place ++ [])) (.plain (render (place ++ []))) :=
        .reached
      rwa [append_nil] at h
  | cons c cs ih =>
      intro place fuel hplace hcs hdir hfuel
      obtain ⟨hname, hdots⟩ := hcs c mem_cons_self
      have hrest : Clean cs := fun d hd => hcs d (mem_cons_of_mem _ hd)
      have hnext : Clean (place ++ [c]) := hplace.concat hname hdots
      rw [joined_cons] at hfuel ⊢
      obtain ⟨fuel, rfl⟩ : ∃ m, fuel = m + 1 := ⟨fuel - 1, by simp at hfuel; omega⟩
      have htype : t.path2filetype (render (place ++ [c])) = t.kind (place ++ [c]) := by
        rw [Tree.path2filetype, components_render hnext.names]
      have hmore := dropWhile_joined hrest.names
      rw [Tree.advance, hdir, Tree.scan]
      simp only [dropWhile_slash hname, append_eq_nil_iff, hname.ne_nil, false_and, if_false,
        (takeWhile_name hname.noSlash cs).1, (takeWhile_name hname.noSlash cs).2,
        render_concat hplace.names, htype, ne_eq, hmore,
        if_neg fun h => hdots (.inl h), if_neg fun h => hdots (.inr h)]
      refine ScanOf.shift ?_
      have hend : ∀ fuel, cs = [] → ScanOf t (place ++ [c]) cs (t.advance (place ++ [c]) cs)
          (t.scan fuel (render (place ++ [c])) (joined cs)) := by
        rintro fuel rfl
        rw [Tree.advance, joined_nil, Tree.scan_nil]
        have h : ScanOf t (place ++ [c]) [] (.reached (place ++ [c] ++ []))
            (.plain (render (place ++ [c] ++ []))) := .reached
        rwa [append_nil] at h
      have hlen : (joined cs).length ≤ fuel := by
        simp only [length_cons, length_append] at hfuel
        omega
      cases hk : t.kind (place ++ [c]) with
      | none =>
          dsimp only
          by_cases hcs : cs = []
          · rw [if_neg fun h => h.1 hcs, if_neg fun h => h.1 hcs]
            exact hend fuel hcs
          · obtain ⟨d, ds, rfl⟩ := exists_cons_of_ne_nil hcs
            rw [if_pos ⟨hcs, rfl⟩, Tree.advance, hk]
            exact .fail _
      | some kind =>
          cases kind with
          | link target => exact .meets place cs c target hdir hk (by simp)
          | file =>
              dsimp only
              by_cases hcs : cs = []
              · rw [if_neg fun h => h.1 hcs, if_neg fun h => h.1 hcs]
                exact hend fuel hcs
              · obtain ⟨d, ds, rfl⟩ := exists_cons_of_ne_nil hcs
                rw [if_neg (by simp), if_pos ⟨hcs, nofun⟩, Tree.advance, hk]
                exact .fail _
          | dir =>
              dsimp only
              rw [if_neg (by simp), if_neg fun h => h.2 rfl]
              exact ih (place ++ [c]) fuel hnext hrest hk hlen

theorem Tree.scan_render (t : Tree) (h : Clean cs) :
    ScanOf t [] cs (t.advance [] cs) (t.scan (render cs).length ['/'] (render cs)) := by
  cases cs with
  | nil => exact .reached
  | cons c cs =>
      exact t.scan_place (c :: cs) [] _ (fun d hd => absurd hd not_mem_nil) h t.root
        (Nat.le_refl _)

theorem Tree.findLink_render {fast : FastLookup} (hfast : t.Agrees fast) (h : Clean cs) :
    ScanOf t [] cs (t.advance [] cs) (t.findLink fast (render cs)) := by
  have hscan := t.scan_render h
  unfold Tree.findLink
  cases hf : fast (render cs) with
  | none => exact hscan
  | some answer =>
      obtain ⟨_, rfl⟩ := hfast _ _ hf
      cases hs : t.scan (render cs).length ['/'] (render cs) with
      | fail e =>
          rw [hs] at hscan
          exact hscan
      | plain current =>
          rw [hs] at hscan
          generalize t.advance [] cs = st at hscan ⊢
          cases hscan with
          | reached => exact .reached
      | link current rest =>
          rw [hs] at hscan
          generalize t.advance [] cs = st at hscan ⊢
          cases hscan with
          | meets dir r c target hdir hlink hsplit =>
              -- the answer is the length of the text up to the link
              have htext : render cs = render (dir ++ [c]) ++ joined r := by
                have hcs : cs = dir ++ [c] ++ r := by
                  rw [append_assoc, singleton_append]
                  exact hsplit
                rw [hcs, render_of_ne_nil (by simp), joined_append, render_of_ne_nil (by simp)]
              obtain ⟨n, hn⟩ : ∃ n, (render (dir ++ [c])).length = n + 1 :=
                ⟨(joined dir).length + c.length, by rw [render_append_singleton]; simp; omega⟩
              simp only [hn]
              rw [htext, ← hn, take_left, drop_left]
              exact .meets dir r c target hdir hlink hsplit

theorem dirPart_render (hc : IsName c) : dirPart (render (dir ++ [c])) = joined dir ++ ['/'] := by
  have hdrop : ∀ (a b : Text), '/' ∉ a → (a ++ '/' :: b).dropWhile (!isSlash ·) = '/' :: b := by
    intro a b ha
    induction a with
    | nil => rfl
    | cons x a ih =>
        obtain ⟨hx, ha⟩ := ne_and_not_mem_of_not_mem_cons ha
        have hx : isSlash x = false := decide_eq_false (Ne.symm hx)
        rw [cons_append, dropWhile_cons_of_pos (by simp [hx]), ih ha]
  rw [dirPart, render_append_singleton, reverse_append, reverse_cons,
    append_assoc, singleton_append, hdrop _ _ (by simpa using hc.noSlash)]
  simp

theorem components_append_rest (hne : path ≠ []) {r : List Text} (hr : ∀ c ∈ r, IsName c) :
    components (if (joined r).dropWhile isSlash = [] then path
      else (if path.getLast? ≠ some '/' then path ++ ['/'] else path) ++
        (joined r).dropWhile isSlash) = components path ++ r := by
  cases r with
  | nil => simp
  | cons c r =>
      have hc := hr c mem_cons_self
      have hcomp : components (c ++ joined r) = c :: r := by
        exact components_joined hr
      rw [joined_cons, dropWhile_slash hc, if_neg (by simp [hc.ne_nil])]
      split
      · rw [append_assoc, singleton_append, components_append_slash, hcomp]
      next hlast =>
      obtain ⟨front, rfl⟩ := getLast?_eq_some_iff.mp (Classical.not_not.mp hlast)
      rw [append_assoc, singleton_append, components_append_slash, components_append_slash, hcomp]
      simp [components, split]

theorem splice_eq (hc : IsName c) (target rest : Text) :
    splice (render (dir ++ [c])) target rest =
      (let path := if target.head? = some '/' then target else joined dir ++ '/' :: target
       if rest.dropWhile isSlash = [] then path
       else (if path.getLast? ≠ some '/' then path ++ ['/'] else path) ++
         rest.dropWhile isSlash) := by
  have hpath : (if (joined dir ++ ['/']).length ≤ 1 then '/' :: target
      else joined dir ++ ['/'] ++ target) = joined dir ++ '/' :: target := by
    cases dir with
    | nil => rfl
    | cons d dir =>
        rw [if_neg (by simp), append_assoc, singleton_append]
  rw [splice, dirPart_render hc, hpath]

/-- A splice is an absolute path, and it means: the target's components behind
the directory the target starts from, and then the rest. -/
theorem splice_spec {r : List Text} (target : Text) (hdir : Clean dir)
    (hc : IsName c) (hr : ∀ d ∈ r, IsName d) :
    (splice (render (dir ++ [c])) target (joined r)).head? = some '/' ∧
    components (splice (render (dir ++ [c])) target (joined r)) =
      startOf dir target ++ components target ++ r := by
  have hpath : ∃ path, path.head? = some '/' ∧
      (if target.head? = some '/' then target else joined dir ++ '/' :: target) = path ∧
      components path = startOf dir target ++ components target := by
    unfold startOf
    split
    · next habs => exact ⟨target, habs, rfl, rfl⟩
    · refine ⟨_, ?_, rfl, ?_⟩
      · cases dir <;> simp
      · rw [components_append_slash, components_joined hdir.names]
  obtain ⟨path, habs, heq, hcomp⟩ := hpath
  have hne : path ≠ [] := by
    rintro rfl
    cases habs
  rw [splice_eq hc]
  simp only [heq]
  refine ⟨?_, ?_⟩
  · split
    · exact habs
    · split <;> simp [habs]
  · rw [← hcomp]
    exact components_append_rest hne hr

theorem Tree.meets_clean {rest : List Text} {target : Text} (hcs : Clean cs)
    (h : t.advance [] cs = .meets dir target rest) :
    Clean (startOf dir target) ∧ t.kind (startOf dir target) = some .dir ∧ Clean rest := by
  have hscan := t.scan_render hcs
  rw [h] at hscan
  generalize t.scan (render cs).length ['/'] (render cs) = sc at hscan
  cases hscan with
  | meets _ _ c _ hdir hlink hsplit =>
      rw [nil_append] at hsplit
      rw [hsplit] at hcs
      unfold startOf
      refine ⟨?_, ?_, fun d hd => hcs d (by simp [hd])⟩
      · split
        · exact fun d hd => absurd hd not_mem_nil
        · exact fun d hd => hcs d (by simp [hd])
      · split
        · exact t.root
        · exact hdir

/-- One round: to the first link, and from there on with the normalized
splice. -/
theorem Tree.resolve_step {fast : FastLookup} (hfast : t.Agrees fast)
    (hcs : Clean cs) (depth : Nat) :
    t.resolveSymlinks fast (depth + 1) (render cs) = match t.advance [] cs with
      | .reached place => .ok (render place)
      | .fail e => .error e
      | .meets dir target rest =>
          t.resolveSymlinks fast depth
            (render (norm (startOf dir target) (components target ++ rest))) := by
  have hscan := Tree.findLink_render hfast hcs
  have hmeets : ∀ dir target rest, t.advance [] cs = .meets dir target rest →
      Clean (startOf dir target) ∧ t.kind (startOf dir target) = some .dir ∧ Clean rest :=
    fun _ _ _ => Tree.meets_clean hcs
  rw [Tree.resolveSymlinks]
  generalize t.findLink fast (render cs) = sc at hscan
  generalize t.advance [] cs = st at hscan hmeets
  cases hscan with
  | reached => rfl
  | fail e => rfl
  | meets dir rest c target hdir hlink hsplit =>
      obtain ⟨hstart, _, hrest⟩ := hmeets dir target rest rfl
      rw [nil_append] at hsplit
      rw [hsplit] at hcs
      have hdirc : Clean dir := fun d hd => hcs d (by simp [hd])
      have hc := hcs c (by simp)
      obtain ⟨habs, hcomp⟩ := splice_spec target hdirc hc.1 hrest.names
      have hread : t.readSymlinkTarget (render (dir ++ [c])) = .ok target := by
        rw [Tree.readSymlinkTarget, Tree.path2filetype,
          components_render (hdirc.concat hc.1 hc.2).names, hlink]
      have hnorm : norm [] (startOf dir target ++ components target ++ rest) =
          norm (startOf dir target) (components target ++ rest) := by
        rw [append_assoc, norm_append, norm_of_noDots fun d hd => (hstart d hd).2, nil_append]
      simp only [hread]
      rw [normalizePath_abs habs, hcomp, hnorm]

end F7ly.Fs.Symlink
