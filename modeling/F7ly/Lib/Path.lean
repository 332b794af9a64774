import Mathlib.Init

/-!
# Paths as text and as components

A path is a list of characters; its components are the maximal runs without a
slash. `render` writes an absolute path in its shortest form, and on names the
two are inverse to each other. Joining two texts with a slash joins their
components, which is all that splicing paths needs.
-/

namespace F7ly.Path

open List

abbrev Text := List Char

/-- The components of a text, the first one continuing `current`. -/
def split (current : Text) : Text → List Text
  | [] => if current = [] then [] else [current]
  | c :: rest =>
      if c = '/' then
        if current = [] then split [] rest else current :: split [] rest
      else split (current ++ [c]) rest

def components (path : Text) : List Text := split [] path

/-- A component: not empty, without a slash. -/
structure IsName (n : Text) : Prop where
  ne_nil : n ≠ []
  noSlash : '/' ∉ n

def joined (cs : List Text) : Text := cs.flatMap fun c => '/' :: c

def render (cs : List Text) : Text := if cs = [] then ['/'] else joined cs

@[simp] theorem joined_nil : joined [] = [] := rfl

@[simp] theorem joined_cons (c : Text) (cs : List Text) :
    joined (c :: cs) = '/' :: (c ++ joined cs) := by
  simp [joined]

theorem joined_append (cs cs' : List Text) : joined (cs ++ cs') = joined cs ++ joined cs' :=
  flatMap_append

theorem render_of_ne_nil {cs : List Text} (h : cs ≠ []) : render cs = joined cs := if_neg h

theorem split_append_slash (a b : Text) :
    ∀ current, split current (a ++ '/' :: b) = split current a ++ split [] b := by
  induction a with
  | nil =>
      intro current
      by_cases h : current = [] <;> simp [split, h]
  | cons c a ih =>
      intro current
      simp only [cons_append, split]
      split
      · split
        · exact ih []
        · rw [ih [], cons_append]
      · exact ih _

theorem components_append_slash (a b : Text) :
    components (a ++ '/' :: b) = components a ++ components b :=
  split_append_slash a b []

@[simp] theorem components_slash (b : Text) : components ('/' :: b) = components b :=
  components_append_slash [] b

theorem split_noSlash {n : Text} (hn : '/' ∉ n) :
    ∀ current, split current n = if current ++ n = [] then [] else [current ++ n] := by
  induction n with
  | nil =>
      intro current
      rw [append_nil, split]
  | cons c n ih =>
      intro current
      obtain ⟨hc, hn⟩ := ne_and_not_mem_of_not_mem_cons hn
      rw [split, if_neg (Ne.symm hc), ih hn, append_assoc, singleton_append]

theorem IsName.components {n : Text} (h : IsName n) : components n = [n] := by
  rw [Path.components, split_noSlash h.noSlash, nil_append, if_neg h.ne_nil]

theorem IsName.getLast?_append {n : Text} (h : IsName n) (a : Text) :
    (a ++ n).getLast? ≠ some '/' := by
  obtain ⟨b, c, rfl⟩ := (eq_nil_or_concat n).resolve_left h.ne_nil
  rw [concat_eq_append] at h ⊢
  rw [← append_assoc, getLast?_concat]
  intro heq
  refine h.noSlash (mem_append_right _ ?_)
  rw [Option.some.inj heq]
  exact mem_singleton_self _

theorem components_joined {cs : List Text} (h : ∀ c ∈ cs, IsName c) :
    components (joined cs) = cs := by
  induction cs with
  | nil => rfl
  | cons c cs ih =>
      have hc := h c mem_cons_self
      have hrest : ∀ d ∈ cs, IsName d := fun d hd => h d (mem_cons_of_mem _ hd)
      rw [joined_cons, components_slash]
      cases cs with
      | nil => rw [joined_nil, append_nil, hc.components]
      | cons d cs =>
          rw [joined_cons, components_append_slash, hc.components, singleton_append]
          have := ih hrest
          rw [joined_cons, components_slash] at this
          rw [this]

theorem components_render {cs : List Text} (h : ∀ c ∈ cs, IsName c) :
    components (render cs) = cs := by
  unfold render
  split
  · next hnil => rw [hnil]; rfl
  · exact components_joined h

theorem isName_of_mem_split {n : Text} (path : Text) :
    ∀ current, '/' ∉ current → n ∈ split current path → IsName n := by
  induction path with
  | nil =>
      intro current hcur hn
      rw [split] at hn
      split at hn
      · cases hn
      · next hne =>
          rw [mem_singleton.mp hn]
          exact ⟨hne, hcur⟩
  | cons c path ih =>
      intro current hcur hn
      rw [split] at hn
      split at hn
      · split at hn
        · exact ih [] not_mem_nil hn
        next hne =>
        obtain rfl | hn := mem_cons.mp hn
        · exact ⟨hne, hcur⟩
        · exact ih [] not_mem_nil hn
      next hc =>
      refine ih _ ?_ hn
      rw [mem_append, mem_singleton]
      exact fun hor => hor.elim hcur fun heq => hc heq.symm

theorem isName_of_mem_components {n path : Text} (h : n ∈ components path) : IsName n :=
  isName_of_mem_split path [] not_mem_nil h

end F7ly.Path
