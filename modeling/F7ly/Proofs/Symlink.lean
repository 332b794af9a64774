import Mathlib
import F7ly.Proofs.SymlinkText

/-!
# Where textual normalization follows the walk

The walk goes on from a link's directory over the target's own components; the
code goes on from the root over a text in which every `..` has struck out what
was written before it. So the code is itself a walk, in another tree: the one in
which each link's target has been normalized where the link stands
(`Tree.resolve_eq_lexical`). It follows the walk of a path exactly when that
change of the tree does not matter to the path (`Tree.follows_iff_harmless`).

A target does not matter if it is plain: as long as dots are still to come, each
of its components names a directory. What is struck out was then a directory
with no link on the way to it, and going up from there is what `..` means
(`Tree.harmless_of_plain`). This is a condition on the tree and the path alone. A target
that is not plain may still do no harm: where `E` is a link to a directory beside it,
`E/../x` and `x` are the same file.
-/

namespace F7ly.Fs.Symlink

open Path Symlink.Tree List

def lexicalTarget (dir : List Text) (target : Text) : Text :=
  render (norm (startOf dir target) (components target))

def lexicalKind (dir : List Text) : Kind → Kind
  | .link target => .link (lexicalTarget dir target)
  | kind => kind

/-- The tree with the target of every link normalized where the link stands. -/
def Tree.lexical (t : Tree) : Tree where
  kind place := (t.kind place).map (lexicalKind place.dropLast)
  root := by rw [t.root]; rfl
  parent := by
    intro d c h
    rw [t.parent d c (fun hnone => h (by rw [hnone]; rfl))]
    rfl

theorem Tree.lexical_kind (t : Tree) (place : List Text) :
    t.lexical.kind place = (t.kind place).map (lexicalKind place.dropLast) := rfl

theorem Tree.advance_lexical (t : Tree) :
    ∀ (comps place : List Text), t.lexical.advance place comps = match t.advance place comps with
      | .meets dir target rest => .meets dir (lexicalTarget dir target) rest
      | stop => stop := by
  intro comps
  induction comps with
  | nil => exact fun _ => rfl
  | cons c comps ih =>
      intro place
      rw [advance, advance, lexical_kind]
      cases hk : t.kind place with
      | none => rfl
      | some kind =>
          cases kind with
          | file => rfl
          | link target => rfl
          | dir =>
              simp only [Option.map_some, lexicalKind]
              split
              · exact ih place
              · split
                · exact ih place.dropLast
                · rw [lexical_kind, dropLast_concat]
                  cases hn : t.kind (place ++ [c]) with
                  | none => exact ih _
                  | some next =>
                      cases next with
                      | dir => exact ih _
                      | file => exact ih _
                      | link target => rfl

/-- What `resolve_symlinks` answers for a walk: where it ends, or `ELOOP` if it
meets too many links. -/
def answer : Option (Except Errno (List Text)) → Except Errno Text
  | some (.ok place) => .ok (render place)
  | some (.error e) => .error e
  | none => .error .eloop

variable {t : Tree} {rest place : List Text}

/-- Behind a link the walk of the normalized tree goes on with the normalized
path. -/
theorem Tree.lexical_step {cs dir : List Text} {target : Text}
    (hcs : Clean cs) (h : t.advance [] cs = .meets dir target rest) (links : Nat) :
    Clean (norm (startOf dir target) (components target ++ rest)) ∧
    t.lexical.walk (links + 1) [] cs =
      t.lexical.walk links [] (norm (startOf dir target) (components target ++ rest)) := by
  obtain ⟨hstart, _, hrest⟩ := meets_clean hcs h
  have hclean : Clean (norm (startOf dir target) (components target)) :=
    Clean.norm (fun c => isName_of_mem_components) hstart
  have hnorm : norm (startOf dir target) (components target ++ rest) =
      norm (startOf dir target) (components target) ++ rest := by
    rw [norm_append, norm_of_noDots fun c hc => (hrest c hc).2]
  have habs : startOf dir (lexicalTarget dir target) = [] := if_pos (render_head _)
  have hcomp : components (lexicalTarget dir target) =
      norm (startOf dir target) (components target) := components_render hclean.names
  rw [walk, advance_lexical, h, hnorm]
  dsimp only
  rw [habs, hcomp]
  exact ⟨hclean.append hrest, rfl⟩

theorem Tree.resolve_eq_lexical {fast : FastLookup} (hfast : t.Agrees fast) :
    ∀ (links : Nat) {cs : List Text}, Clean cs →
      t.resolveSymlinks fast (links + 1) (render cs) = answer (t.lexical.walk links [] cs) := by
  intro links
  induction links with
  | zero =>
      intro cs hcs
      rw [resolve_step hfast hcs, walk, advance_lexical]
      cases t.advance [] cs <;> rfl
  | succ links ih =>
      intro cs hcs
      rw [resolve_step hfast hcs]
      cases hadv : t.advance [] cs with
      | reached place =>
          rw [walk, advance_lexical, hadv]
          rfl
      | fail e =>
          rw [walk, advance_lexical, hadv]
          rfl
      | meets dir target rest =>
          obtain ⟨hclean, hstep⟩ := lexical_step hcs hadv links
          rw [hstep]
          exact ih hclean

/-- Places are in normal form, and `ELOOP` is no answer of a walk. -/
theorem Tree.advance_clean (t : Tree) :
    ∀ {comps place : List Text}, (∀ c ∈ comps, IsName c) → Clean place →
      match t.advance place comps with
      | .reached r => Clean r
      | .fail e => e ≠ .eloop
      | .meets dir _ rest => Clean dir ∧ ∀ c ∈ rest, IsName c := by
  intro comps
  induction comps with
  | nil => exact fun _ hplace => hplace
  | cons c comps ih =>
      intro place hnames hplace
      have hrest : ∀ d ∈ comps, IsName d := fun d hd => hnames d (mem_cons_of_mem _ hd)
      rw [advance]
      cases t.kind place with
      | none => exact fun h => by cases h
      | some kind =>
          cases kind with
          | file => exact fun h => by cases h
          | link target => exact fun h => by cases h
          | dir =>
              by_cases hc : c = dot
              · rw [if_pos hc]
                exact ih hrest hplace
              · by_cases hc' : c = dotDot
                · rw [if_neg hc, if_pos hc']
                  exact ih hrest hplace.dropLast
                · rw [if_neg hc, if_neg hc']
                  have hnext : Clean (place ++ [c]) :=
                    hplace.concat (hnames c mem_cons_self) fun h => h.elim hc hc'
                  cases t.kind (place ++ [c]) with
                  | none => exact ih hrest hnext
                  | some next =>
                      cases next with
                      | dir => exact ih hrest hnext
                      | file => exact ih hrest hnext
                      | link target => exact ⟨hplace, hrest⟩

def Proper : Except Errno (List Text) → Prop
  | .ok place => Clean place
  | .error e => e ≠ .eloop

theorem Tree.walk_proper (t : Tree) :
    ∀ (links : Nat) {comps place : List Text} {r : Except Errno (List Text)},
      (∀ c ∈ comps, IsName c) → Clean place → t.walk links place comps = some r → Proper r := by
  intro links
  induction links with
  | zero =>
      intro comps place r hnames hplace h
      have hclean := t.advance_clean hnames hplace
      rw [walk] at h
      generalize t.advance place comps = stop at h hclean
      cases stop with
      | reached p => obtain rfl := Option.some.inj h; exact hclean
      | fail e => obtain rfl := Option.some.inj h; exact hclean
      | meets dir target rest => cases h
  | succ links ih =>
      intro comps place r hnames hplace h
      have hclean := t.advance_clean hnames hplace
      rw [walk] at h
      generalize t.advance place comps = stop at h hclean
      cases stop with
      | reached p => obtain rfl := Option.some.inj h; exact hclean
      | fail e => obtain rfl := Option.some.inj h; exact hclean
      | meets dir target rest =>
          refine ih ?_ ?_ h
          · intro c hc
            exact (mem_append.mp hc).elim isName_of_mem_components (hclean.2 c)
          · unfold startOf
            split
            · exact fun c hc => absurd hc not_mem_nil
            · exact hclean.1

theorem answer_inj {a b : Option (Except Errno (List Text))} (ha : ∀ r ∈ a, Proper r)
    (hb : ∀ r ∈ b, Proper r) (h : answer a = answer b) : a = b := by
  match a, b with
  | none, none => rfl
  | none, some (.error e) => exact absurd (Except.error.inj h).symm (hb _ rfl)
  | some (.error e), none => exact absurd (Except.error.inj h) (ha _ rfl)
  | some (.error e), some (.error e') => rw [Except.error.inj h]
  | some (.ok p), some (.ok q) =>
      have hp : Clean p := ha _ rfl
      have hq : Clean q := hb _ rfl
      rw [← components_render hp.names, Except.ok.inj h, components_render hq.names]
  | none, some (.ok _) => cases h
  | some (.ok _), none => cases h
  | some (.ok _), some (.error _) => cases h
  | some (.error _), some (.ok _) => cases h

theorem Tree.kind_dropLast (t : Tree) (h : t.kind place = some .dir) :
    t.kind place.dropLast = some .dir := by
  cases hp : place.getLast? with
  | none =>
      rw [getLast?_eq_none_iff.mp hp]
      exact t.root
  | some c =>
      obtain ⟨front, rfl⟩ := getLast?_eq_some_iff.mp hp
      rw [dropLast_concat]
      exact t.parent front c (by rw [h]; nofun)

theorem Tree.advance_dir (t : Tree) {c : Text} (hplace : t.kind place = some .dir) (hc : ¬ IsDots c)
    (hnext : t.kind (place ++ [c]) = some .dir) :
    t.advance place (c :: rest) = t.advance (place ++ [c]) rest := by
  rw [advance, hplace]
  simp [if_neg fun h => hc (.inl h), if_neg fun h => hc (.inr h), hnext]

theorem Tree.advance_append (t : Tree) :
    ∀ (k : Nat) {place : List Text}, place.length = k → Clean place →
      t.kind place = some .dir → ∀ rest, t.advance [] (place ++ rest) = t.advance place rest := by
  intro k
  induction k with
  | zero =>
      intro place hk _ _ rest
      rw [eq_nil_of_length_eq_zero hk, nil_append]
  | succ k ih =>
      intro place hk hclean hdir rest
      obtain ⟨front, c, rfl⟩ := (eq_nil_or_concat place).resolve_left
        (by rintro rfl; cases hk)
      rw [concat_eq_append] at hk hclean hdir ⊢
      have hfront : Clean front := fun d hd => hclean d (mem_append_left _ hd)
      have hc : ¬ IsDots c := (hclean c (by simp)).2
      have hup : t.kind front = some .dir := t.parent front c (by rw [hdir]; nofun)
      rw [append_assoc, singleton_append,
        ih (by simpa using hk) hfront hup, t.advance_dir hup hc hdir]

/-- As long as dots are still to come, every component of a target names a
directory. -/
def Tree.Plain (t : Tree) : List Text → List Text → Prop
  | _, [] => True
  | place, c :: comps =>
      (∀ d ∈ c :: comps, ¬ IsDots d) ∨
      if c = dot then t.Plain place comps
      else if c = dotDot then t.Plain place.dropLast comps
      else t.kind (place ++ [c]) = some .dir ∧ t.Plain (place ++ [c]) comps

instance Tree.decidablePlain (t : Tree) :
    ∀ place comps : List Text, Decidable (t.Plain place comps)
  | _, [] => .isTrue trivial
  | place, c :: comps =>
      have := t.decidablePlain place comps
      have := t.decidablePlain place.dropLast comps
      have := t.decidablePlain (place ++ [c]) comps
      inferInstanceAs (Decidable (_ ∨ ite _ _ _))

theorem Tree.advance_norm (t : Tree) (hrest : Clean rest) :
    ∀ {comps place : List Text}, (∀ c ∈ comps, IsName c) → Clean place →
      t.kind place = some .dir → t.Plain place comps →
      t.advance place (comps ++ rest) = t.advance [] (norm place (comps ++ rest)) := by
  have hfree : ∀ {cs place : List Text}, Clean place → t.kind place = some .dir →
      (∀ c ∈ cs, ¬ IsDots c) → t.advance place cs = t.advance [] (norm place cs) := by
    intro cs place hclean hdir hcs
    rw [norm_of_noDots hcs, t.advance_append _ rfl hclean hdir]
  intro comps
  induction comps with
  | nil => exact fun _ hclean hdir _ => hfree hclean hdir fun c hc => (hrest c hc).2
  | cons c comps ih =>
      intro place hnames hclean hdir hplain
      have ih {place : List Text} := @ih place
        fun d hd => hnames d (mem_cons_of_mem _ hd)
      obtain hnone | hplain := hplain
      · refine hfree hclean hdir fun d hd => ?_
        exact (mem_append.mp hd).elim (hnone d) fun hd => (hrest d hd).2
      · rw [cons_append, norm, foldl_cons, ← norm]
        split at hplain
        · next hc =>
            rw [hc, (pushComponent_dots hclean).1, ← ih hclean hdir hplain, advance, hdir]
            exact if_pos rfl
        next hc =>
        split at hplain
        · next hc' =>
            rw [hc', (pushComponent_dots hclean).2,
              ← ih hclean.dropLast (t.kind_dropLast hdir) hplain, advance, hdir]
            exact if_neg (by decide)
        next hc' =>
        have hdots : ¬ IsDots c := fun h => h.elim hc hc'
        have hname := hnames c mem_cons_self
        rw [pushComponent_name hdots, ← ih (hclean.concat hname hdots) hplain.1 hplain.2,
          t.advance_dir hdir hdots hplain.1]

/-- The walk meets a link with this target in this directory. -/
inductive Tree.Meets (t : Tree) : List Text → List Text → List Text → Text → Prop
  | here {place comps dir rest : List Text} {target : Text}
      (h : t.advance place comps = .meets dir target rest) : Meets t place comps dir target
  | later {place comps dir rest dir' : List Text} {target target' : Text}
      (h : t.advance place comps = .meets dir target rest)
      (hlater : Meets t (startOf dir target) (components target ++ rest) dir' target') :
      Meets t place comps dir' target'

theorem Tree.Meets.congr {comps place' comps' dir : List Text} {target : Text}
    (heq : t.advance place comps = t.advance place' comps')
    (h : t.Meets place comps dir target) : t.Meets place' comps' dir target := by
  cases h with
  | here h => exact .here (heq.symm.trans h)
  | later h hlater => exact .later (heq.symm.trans h) hlater

theorem Tree.walk_congr {comps place' comps' : List Text}
    (heq : t.advance place comps = t.advance place' comps') (links : Nat) :
    t.walk links place comps = t.walk links place' comps' := by
  rw [walk, walk, heq]

/-- Where every link the walk meets has a plain target, the walks of the two
trees are the same. -/
theorem Tree.lexical_walk_of_plain :
    ∀ (links : Nat) {cs : List Text}, Clean cs → (∀ dir target, t.Meets [] cs dir target →
        t.Plain (startOf dir target) (components target)) →
      t.lexical.walk links [] cs = t.walk links [] cs := by
  intro links
  induction links with
  | zero =>
      intro cs _ _
      rw [walk, walk, advance_lexical]
      cases t.advance [] cs <;> rfl
  | succ links ih =>
      intro cs hcs hplain
      cases hadv : t.advance [] cs with
      | reached place => rw [walk, walk, advance_lexical, hadv]
      | fail e => rw [walk, walk, advance_lexical, hadv]
      | meets dir target rest =>
          obtain ⟨hclean, hstep⟩ := lexical_step hcs hadv links
          obtain ⟨hstart, hdir, hrest⟩ := meets_clean hcs hadv
          have hsame := t.advance_norm hrest (fun c => isName_of_mem_components) hstart hdir
            (hplain dir target (.here hadv))
          have hwalk : t.walk (links + 1) [] cs =
              t.walk links (startOf dir target) (components target ++ rest) := by
            rw [walk, hadv]
          rw [hstep, hwalk, walk_congr hsame]
          exact ih hclean fun d T h => hplain d T (.later hadv (h.congr hsame.symm))

/-- `resolve_symlinks` follows the walk on the path of these components: if the
walk meets fewer than 8 links it answers where the walk ends, and it answers
`ELOOP` if the walk never ends. -/
def Tree.Follows (t : Tree) (fast : FastLookup) (cs : List Text) : Prop :=
  (∀ r, t.walk 7 [] cs = some r → t.resolveSymlinks fast 8 (render cs) = answer (some r)) ∧
  ((∀ links, t.walk links [] cs = none) → t.resolveSymlinks fast 8 (render cs) = .error .eloop)

/-- Normalizing the targets of the links in place does not change where the path
leads: not where its walk ends, if it meets fewer than 8 links, and not that it
never ends. -/
def Tree.Harmless (t : Tree) (cs : List Text) : Prop :=
  (∀ r, t.walk 7 [] cs = some r → t.lexical.walk 7 [] cs = some r) ∧
  ((∀ links, t.walk links [] cs = none) → t.lexical.walk 7 [] cs = none)

theorem Tree.harmless_of_plain {cs : List Text} (hcs : Clean cs)
    (hplain : ∀ dir target, t.Meets [] cs dir target →
      t.Plain (startOf dir target) (components target)) : t.Harmless cs := by
  have h := lexical_walk_of_plain 7 hcs hplain
  exact ⟨fun r hr => h.trans hr, fun hloop => h.trans (hloop 7)⟩

/-- `resolve_symlinks` follows the walk of a path in normal form exactly if
normalizing the targets of the links does no harm to it. -/
theorem Tree.follows_iff_harmless {t : Tree} {fast : FastLookup} (hfast : t.Agrees fast)
    {cs : List Text} (hcs : Clean cs) : t.Follows fast cs ↔ t.Harmless cs := by
  have hcode := resolve_eq_lexical hfast 7 hcs
  have hroot : Clean [] := fun c hc => absurd hc not_mem_nil
  have hproper : ∀ r ∈ t.lexical.walk 7 [] cs, Proper r :=
    fun r hr => t.lexical.walk_proper 7 hcs.names hroot hr
  refine and_congr ⟨fun h r hr => ?_, fun h r hr => ?_⟩ ⟨fun h hloop => ?_, fun h hloop => ?_⟩
  · refine answer_inj hproper (fun r' hr' => ?_) (hcode.symm.trans (h r hr))
    obtain rfl := Option.some.inj hr'
    exact t.walk_proper 7 hcs.names hroot hr
  · rw [hcode, h r hr]
  · exact answer_inj hproper (fun r hr => by cases hr) (hcode.symm.trans (h hloop))
  · rw [hcode, h hloop]
    rfl

def Tree.ofEntries (es : List (List Text × Kind))
    (h : ∀ e ∈ es, e.1.dropLast = [] ∨ es.lookup e.1.dropLast = some .dir) : Tree where
  kind p := if p = [] then some .dir else es.lookup p
  root := if_pos rfl
  parent := by
    intro d c hne
    rw [if_neg (by simp)] at hne
    obtain ⟨k, hk⟩ := Option.ne_none_iff_exists'.mp hne
    obtain ⟨l₁, l₂, hes, _⟩ := lookup_eq_some_iff.mp hk
    have hup := h (d ++ [c], k) (by rw [hes]; simp)
    rw [dropLast_concat] at hup
    split
    · rfl
    · next hd => exact hup.resolve_left hd

def sample : Tree :=
  .ofEntries [([['b']], .dir), ([['b'], ['c']], .dir), ([['b'], ['x']], .file),
    ([['D']], .link ['/', 'b', '/', 'c']), ([['L']], .link ['D', '/', '.', '.', '/', 'x']),
    ([['M']], .link ['M', '/', '.', '.', '/', 'x']),
    ([['b'], ['l']], .link ['.', '.', '/', 'b', '/', 'c', '/', '.', '.', '/', 'x'])] (by decide)

end F7ly.Fs.Symlink
