import F7ly.Fs.EpollGraph
import F7ly.Lib.Chain
import F7ly.Lib.Run
import F7ly.Lib.Tally

/-!
# When the epoll graph stays acyclic and shallow

A file's reference count is the number of descriptors and watches that refer
to it (`Accounts`), through every call and through the cascade of destructors
behind a last reference. So a file that is still there is held by a descriptor
or by the watch of a file that is still there, and where the graph has no long
chain the way up ends at a descriptor. That files are freed thus follows from
the shape of the graph.

The shape is where the code falls short: only an addition can lengthen a
chain, and its checks see less than the graph. Below a target whose watches the
caller sees they are exact, both of them; what is above the epoll file neither
looks at. `Files.Safe` asks for the first and makes up for the second.
-/

namespace F7ly.Fs.Epoll

open Chain Relation Files List

/-- The references a file's watches hold to `x`. -/
def OpenFile.refsTo (f : OpenFile) (x : Nat) : Nat :=
  f.epoll.watchList.countP fun w => w.target = x

def refsTo (files : List OpenFile) (x : Nat) : Nat := (files.map (·.refsTo x)).sum

/-- Every count is the number of references: those of the watches and `held`
from elsewhere. -/
structure Accounts (files : List OpenFile) (held : Nat → Nat) : Prop where
  exact : ∀ i f, files[i]? = some f → f.refcnt = held i + refsTo files i
  inRange : ∀ f ∈ files, ∀ w ∈ f.epoll.watchList, w.target < files.length
  freed : ∀ f ∈ files, f.refcnt = 0 → f.epoll.watchList = []
  onlyEpoll : ∀ f ∈ files, f.kind ≠ .epoll → f.epoll.watchList = []

variable {files : List OpenFile} {i pid fd e : Nat} {f : OpenFile} {s s' : Files}

theorem Accounts.set {held held' : Nat → Nat}
    {f' : OpenFile} (h : Accounts files held) (hf : files[i]? = some f)
    (hrange : ∀ w ∈ f'.epoll.watchList, w.target < files.length)
    (hfreed : f'.refcnt = 0 → f'.epoll.watchList = [])
    (honly : f'.kind ≠ .epoll → f'.epoll.watchList = [])
    (hexact : ∀ x, held' x + f'.refsTo x + (if x = i then f.refcnt else 0) =
      held x + f.refsTo x + (if x = i then f'.refcnt else 0)) :
    Accounts (files.set i f') held' := by
  have hlt : i < files.length := (List.getElem?_eq_some_iff.mp hf).1
  have hmem : ∀ g ∈ files.set i f', g = f' ∨ g ∈ files := fun g hg =>
    (mem_or_eq_of_mem_set hg).symm
  refine ⟨?_, ?_, ?_, ?_⟩
  · intro x g hg
    have hsum : refsTo (files.set i f') x + f.refsTo x = refsTo files x + f'.refsTo x :=
      Tally.sum_map_set hf
    have hx := hexact x
    by_cases hxi : x = i
    · subst hxi
      rw [getElem?_set_self hlt] at hg
      obtain rfl := Option.some.inj hg
      have := h.exact x f hf
      rw [if_pos rfl, if_pos rfl] at hx
      omega
    · rw [getElem?_set_ne (Ne.symm hxi)] at hg
      have := h.exact x g hg
      rw [if_neg hxi, if_neg hxi] at hx
      omega
  · intro g hg w hw
    rw [length_set]
    obtain rfl | hg := hmem g hg
    · exact hrange w hw
    · exact h.inRange g hg w hw
  · intro g hg
    obtain rfl | hg := hmem g hg
    · exact hfreed
    · exact h.freed g hg
  · intro g hg
    obtain rfl | hg := hmem g hg
    · exact honly
    · exact h.onlyEpoll g hg

theorem count_cons_eq (x i : Nat) (l : List Nat) :
    (i :: l).count x = l.count x + if x = i then 1 else 0 := by
  rw [count_cons]
  simp [@eq_comm _ i x]

def Shrunk (files files' : List OpenFile) : Prop :=
  files'.length = files.length ∧ ∀ (i : Nat) (f' : OpenFile), files'[i]? = some f' →
    ∃ f : OpenFile, files[i]? = some f ∧ f'.kind = f.kind ∧
      ∀ w ∈ f'.epoll.watchList, ∃ w' ∈ f.epoll.watchList, w'.target = w.target

theorem Shrunk.refl (files : List OpenFile) : Shrunk files files :=
  ⟨rfl, fun _ f hf => ⟨f, hf, rfl, fun w hw => ⟨w, hw, rfl⟩⟩⟩

theorem Shrunk.trans {a b c : List OpenFile} (h : Shrunk a b) (h' : Shrunk b c) : Shrunk a c := by
  refine ⟨h'.1.trans h.1, fun i f'' hf'' => ?_⟩
  obtain ⟨f', hf', hk', hw'⟩ := h'.2 i f'' hf''
  obtain ⟨f, hf, hk, hw⟩ := h.2 i f' hf'
  refine ⟨f, hf, hk'.trans hk, fun w'' hmem => ?_⟩
  obtain ⟨w', hmem', ht'⟩ := hw' w'' hmem
  obtain ⟨w, hmem, ht⟩ := hw w' hmem'
  exact ⟨w, hmem, ht.trans ht'⟩

theorem Shrunk.set {f' : OpenFile} (hf : files[i]? = some f) (hk : f'.kind = f.kind)
    (hw : ∀ w ∈ f'.epoll.watchList, ∃ w' ∈ f.epoll.watchList, w'.target = w.target) :
    Shrunk files (files.set i f') := by
  have hlt : i < files.length := (List.getElem?_eq_some_iff.mp hf).1
  refine ⟨length_set, fun j g hg => ?_⟩
  by_cases hji : j = i
  · subst hji
    rw [getElem?_set_self hlt] at hg
    obtain rfl := Option.some.inj hg
    exact ⟨f, hf, hk, hw⟩
  · rw [getElem?_set_ne (Ne.symm hji)] at hg
    exact ⟨g, hg, rfl, fun w hw => ⟨w, hw, rfl⟩⟩

theorem count_targets (f : OpenFile) (x : Nat) :
    (f.epoll.watchList.map (·.target)).count x = f.refsTo x := by
  rw [List.count, countP_map]
  exact countP_congr fun w _ => by simp

theorem OpenFile.destroyed_refsTo (f : OpenFile) (x : Nat) : f.destroyed.refsTo x = 0 :=
  rfl

theorem OpenFile.destroyed_refcnt (f : OpenFile) : f.destroyed.refcnt = 0 := rfl

theorem OpenFile.put_refsTo (f : OpenFile) (x : Nat) : f.put.refsTo x = f.refsTo x := rfl

theorem OpenFile.put_refcnt (f : OpenFile) : f.put.refcnt = f.refcnt - 1 := rfl

/-- The references in the list are given back, and the bound is enough: every
round gives one back, and a destructor adds to the list what it takes from the
watches. -/
theorem release_accounts {base : Nat → Nat} :
    ∀ (n : Nat) (pending : List Nat) (files : List OpenFile),
      Accounts files (fun x => base x + pending.count x) →
      (∀ i ∈ pending, i < files.length) → pending.length + watchRefs files ≤ n →
      Accounts (release n pending files) base ∧ Shrunk files (release n pending files) := by
  intro n
  induction n with
  | zero =>
      intro pending files h _ hn
      obtain rfl : pending = [] := eq_nil_of_length_eq_zero (by omega)
      exact ⟨h, .refl files⟩
  | succ n ih =>
      intro pending files h hlt hn
      cases pending with
      | nil => exact ⟨h, .refl files⟩
      | cons i pending =>
          have hi := hlt i mem_cons_self
          have hrest : ∀ j ∈ pending, j < files.length :=
            fun j hj => hlt j (mem_cons_of_mem _ hj)
          obtain ⟨f, hf⟩ : ∃ f, files[i]? = some f := ⟨_, getElem?_eq_getElem hi⟩
          have hmem := mem_of_getElem? hf
          have hcnt := h.exact i f hf
          simp only [count_cons_self] at hcnt
          simp only [release, hf]
          rw [length_cons] at hn
          split
          · next hone =>
              -- the last reference: the watches of the file join the list
              have hset : Accounts (files.set i f.destroyed) (fun x => base x +
                  (f.epoll.watchList.map (·.target) ++ pending).count x) := by
                refine h.set hf (fun w hw => absurd hw not_mem_nil) (fun _ => rfl)
                  (fun _ => rfl) fun x => ?_
                rw [count_append, count_targets, count_cons_eq, f.destroyed_refsTo,
                  f.destroyed_refcnt]
                split_ifs with hx
                · omega
                · omega
              have hrefs : watchRefs (files.set i f.destroyed) +
                  f.epoll.watchList.length = watchRefs files + 0 :=
                Tally.sum_map_set hf
              have hrange : ∀ j ∈ f.epoll.watchList.map (·.target) ++ pending,
                  j < (files.set i f.destroyed).length := by
                intro j hj
                rw [length_set]
                obtain hj | hj := mem_append.mp hj
                · obtain ⟨w, hw, rfl⟩ := mem_map.mp hj
                  exact h.inRange f hmem w hw
                · exact hrest j hj
              obtain ⟨hacc, hshr⟩ := ih _ _ hset hrange
                (by rw [length_append, length_map]; omega)
              have hfirst : Shrunk files (files.set i f.destroyed) :=
                .set hf rfl fun w hw => absurd hw not_mem_nil
              exact ⟨hacc, hfirst.trans hshr⟩
          next hmore =>
          have hset : Accounts (files.set i f.put) (fun x => base x + pending.count x) := by
            refine h.set hf (h.inRange f hmem) (fun h0 => ?_) (h.onlyEpoll f hmem)
              fun x => ?_
            · rw [f.put_refcnt] at h0
              omega
            · rw [f.put_refsTo, f.put_refcnt, count_cons_eq]
              split_ifs <;> omega
          have hrefs : watchRefs (files.set i f.put) + f.epoll.watchList.length =
              watchRefs files + f.epoll.watchList.length :=
            Tally.sum_map_set hf
          have hrange : ∀ j ∈ pending, j < (files.set i f.put).length := by
            rw [length_set]
            exact hrest
          obtain ⟨hacc, hshr⟩ := ih _ _ hset hrange (by omega)
          have hfirst : Shrunk files (files.set i f.put) :=
            .set hf rfl fun w hw => ⟨w, hw, rfl⟩
          exact ⟨hacc, hfirst.trans hshr⟩

/-- Epoll file `a` holds a watch on epoll file `b`. -/
def Files.Nested (s : Files) (a b : Nat) : Prop :=
  s.kindOf b = .epoll ∧ ∃ w ∈ (s.epollOf a).watchList, w.target = b

instance (s : Files) (a b : Nat) : Decidable (s.Nested a b) :=
  inferInstanceAs (Decidable (_ ∧ _))

/-- The graph has no cycle and no chain of more than 5, and an epoll file that
is not freed is within reach of a descriptor. -/
structure Files.Sound (s : Files) : Prop where
  acyclic : ∀ a, ¬ TransGen s.Nested a a
  shallow : ∀ l : List Nat, l.IsChain s.Nested → l.length ≤ 5
  freed : ∀ (i : Nat) (f : OpenFile), s.files[i]? = some f → f.kind = .epoll →
    0 < f.refcnt → ∃ d ∈ s.fds, ReflTransGen s.Nested d.file i

def Files.held (s : Files) (x : Nat) : Nat := s.fds.countP fun d => d.file = x

structure Files.Inv (s : Files) : Prop where
  accounts : Accounts s.files s.held
  inRange : ∀ d ∈ s.fds, d.file < s.files.length

theorem Files.kindOf_eq (h : s.files[i]? = some f) : s.kindOf i = f.kind := by
  rw [kindOf, h]

theorem Files.epollOf_eq (h : s.files[i]? = some f) : s.epollOf i = f.epoll := by
  rw [epollOf, h]

theorem Files.watcher {a : Nat} {w : Watch} (h : w ∈ (s.epollOf a).watchList) :
    ∃ f : OpenFile, s.files[a]? = some f ∧ w ∈ f.epoll.watchList := by
  unfold epollOf at h
  split at h
  · next f hf => exact ⟨f, hf, h⟩
  · exact absurd h not_mem_nil

theorem Files.kindOf_epoll (h : s.kindOf i = .epoll) :
    ∃ f : OpenFile, s.files[i]? = some f ∧ f.kind = .epoll := by
  unfold kindOf at h
  split at h
  · next f hf => exact ⟨f, hf, h⟩
  · cases h

theorem Files.openFile_mem (h : s.openFile pid fd = some i) : ∃ d ∈ s.fds, d.file = i := by
  obtain ⟨d, hd, hi⟩ := Option.map_eq_some_iff.mp h
  exact ⟨d, mem_of_find?_eq_some hd, hi⟩

theorem Files.openFile_held (h : s.openFile pid fd = some i) : 0 < s.held i := by
  obtain ⟨d, hd, hi⟩ := openFile_mem h
  exact countP_pos_iff.mpr ⟨d, hd, by simpa using hi⟩

theorem Files.Inv.file (hinv : s.Inv)
    (h : s.openFile pid fd = some i) : ∃ f, s.files[i]? = some f := by
  obtain ⟨d, hd, rfl⟩ := openFile_mem h
  exact ⟨_, getElem?_eq_getElem (hinv.inRange d hd)⟩

theorem Shrunk.nested (h : Shrunk s.files s'.files) {a b : Nat}
    (hab : s'.Nested a b) : s.Nested a b := by
  obtain ⟨hk, w, hw, ht⟩ := hab
  obtain ⟨fb, hfb, hkb⟩ := kindOf_epoll hk
  obtain ⟨fa, hfa, hwa⟩ := watcher hw
  obtain ⟨gb, hgb, hkb', _⟩ := h.2 b fb hfb
  obtain ⟨ga, hga, _, hsub⟩ := h.2 a fa hfa
  obtain ⟨w', hw', ht'⟩ := hsub w hwa
  refine ⟨(kindOf_eq hgb).trans (hkb'.symm.trans hkb), w', ?_, ht'.trans ht⟩
  rw [epollOf_eq hga]
  exact hw'

/-- Where the counts are right, what is not freed hangs on a descriptor as
soon as the chains are bounded. -/
theorem Files.Inv.sound_iff (hinv : s.Inv) : s.Sound ↔ Bounded s.Nested 5 := by
  refine ⟨fun h => h.shallow, fun h => ⟨h.acyclic, h, ?_⟩⟩
  let Live (i : Nat) : Prop := ∃ f, s.files[i]? = some f ∧ f.kind = .epoll ∧ 0 < f.refcnt
  have hup : ∀ i, Live i → (∃ d ∈ s.fds, d.file = i) ∨ ∃ j, Live j ∧ s.Nested j i := by
    intro i ⟨f, hf, hk, hpos⟩
    rw [hinv.accounts.exact i f hf] at hpos
    obtain hheld | hrefs := Nat.add_pos_iff_pos_or_pos.mp hpos
    · obtain ⟨d, hd, hi⟩ := countP_pos_iff.mp hheld
      exact .inl ⟨d, hd, by simpa using hi⟩
    · -- a watch of a file `g` refers to it, and a file with watches is alive
      obtain ⟨c, hc, hne⟩ := exists_mem_ne_zero_of_sum_ne_zero (Nat.pos_iff_ne_zero.mp hrefs)
      obtain ⟨g, hg, rfl⟩ := mem_map.mp hc
      obtain ⟨w, hw, ht⟩ := countP_pos_iff.mp (Nat.pos_iff_ne_zero.mpr hne)
      obtain ⟨j, hj⟩ := getElem?_of_mem hg
      have hwne : g.epoll.watchList ≠ [] := ne_nil_of_mem hw
      refine .inr ⟨j, ⟨g, hj, ?_, ?_⟩, (kindOf_eq hf).trans hk, w, ?_, by simpa using ht⟩
      · exact Classical.byContradiction fun h => hwne (hinv.accounts.onlyEpoll g hg h)
      · exact Nat.pos_of_ne_zero fun h => hwne (hinv.accounts.freed g hg h)
      · rw [epollOf_eq hj]
        exact hw
  intro i f hf hk hpos
  obtain ⟨r, ⟨d, hd, rfl⟩, hr⟩ := h.rooted hup i ⟨f, hf, hk, hpos⟩
  exact ⟨d, hd, hr⟩

theorem modify_eq_set {α : Type} {l : List α} {a : α} (g : α → α)
    (h : l[i]? = some a) : l.modify i g = l.set i (g a) := by
  rw [modify_eq_set_getElem?, h]
  rfl

theorem Files.freeFile_accounts {held : Nat → Nat}
    (h : Accounts s.files (fun x => held x + [i].count x)) (hi : i < s.files.length) :
    Accounts (s.freeFile i).files held ∧ Shrunk s.files (s.freeFile i).files :=
  release_accounts _ [i] s.files h (by simpa using hi) (by rw [length_singleton]; omega)

theorem Files.dup_accounts {held : Nat → Nat}
    (h : Accounts s.files held) (hf : s.files[i]? = some f) :
    Accounts (s.dup i).files (fun x => held x + [i].count x) ∧ Shrunk s.files (s.dup i).files := by
  have hmem := mem_of_getElem? hf
  rw [dup, modify_eq_set _ hf]
  refine ⟨h.set hf (h.inRange f hmem) (fun h0 => absurd h0 (Nat.succ_ne_zero _))
    (h.onlyEpoll f hmem) fun x => ?_, .set hf rfl fun w hw => ⟨w, hw, rfl⟩⟩
  have hsame : OpenFile.refsTo { f with refcnt := f.refcnt + 1 } x = f.refsTo x := rfl
  rw [hsame, count_cons_eq, count_nil]
  dsimp only
  split_ifs <;> omega

theorem Accounts.refsTo_eq_zero {held : Nat → Nat}
    (h : Accounts files held) {x : Nat} (hx : files.length ≤ x) : refsTo files x = 0 := by
  refine sum_eq_zero fun c hc => ?_
  obtain ⟨g, hg, rfl⟩ := mem_map.mp hc
  refine countP_eq_zero.mpr fun w hw => ?_
  have := h.inRange g hg w hw
  simp only [decide_eq_true_eq]
  omega

theorem Files.create_inv (hinv : s.Inv) (pid fd : Nat) (kind : Kind) :
    (s.create pid fd kind).Inv ∧ ∀ {a b}, (s.create pid fd kind).Nested a b → s.Nested a b := by
  unfold create
  split
  · next hfree =>
      let new : OpenFile := ⟨kind, 1, ⟨[], 0⟩⟩
      have hcases : ∀ {x : Nat} {g : OpenFile}, (s.files ++ [new])[x]? = some g →
          s.files[x]? = some g ∨ (x = s.files.length ∧ g = new) := by
        intro x g hg
        rw [getElem?_append] at hg
        split at hg
        · exact .inl hg
        next hx =>
        obtain ⟨hlt, rfl⟩ := List.getElem?_eq_some_iff.mp hg
        rw [length_singleton] at hlt
        exact .inr ⟨by omega, by simp⟩
      have hrefs : ∀ x, refsTo (s.files ++ [new]) x = refsTo s.files x := by
        intro x
        rw [refsTo, map_append, sum_append]
        rfl
      have hheld : ∀ x, held ⟨s.files ++ [new], s.fds ++ [⟨pid, fd, s.files.length⟩]⟩ x =
          s.held x + [s.files.length].count x := by
        intro x
        rw [held, countP_append]
        congr 1
      refine ⟨⟨⟨?_, ?_, ?_, ?_⟩, ?_⟩, ?_⟩
      · intro x g hg
        rw [hheld, hrefs]
        obtain hg | ⟨rfl, rfl⟩ := hcases hg
        · have hlt : x < s.files.length := (List.getElem?_eq_some_iff.mp hg).1
          have hne : x ∉ [s.files.length] := by
            rw [mem_singleton]
            omega
          rw [count_eq_zero_of_not_mem hne, hinv.accounts.exact x g hg]
          omega
        · have hnone : s.held s.files.length = 0 := by
            refine countP_eq_zero.mpr fun d hd => ?_
            have := hinv.inRange d hd
            simp only [decide_eq_true_eq]
            omega
          rw [hnone, hinv.accounts.refsTo_eq_zero (Nat.le_refl _), count_singleton_self]
      · intro g hg w hw
        rw [length_append]
        obtain hg | hg := mem_append.mp hg
        · have := hinv.accounts.inRange g hg w hw
          omega
        · rw [mem_singleton.mp hg] at hw
          exact absurd hw not_mem_nil
      · intro g hg h0
        obtain hg | hg := mem_append.mp hg
        · exact hinv.accounts.freed g hg h0
        · rw [mem_singleton.mp hg]
      · intro g hg hk
        obtain hg | hg := mem_append.mp hg
        · exact hinv.accounts.onlyEpoll g hg hk
        · rw [mem_singleton.mp hg]
      · intro d hd
        rw [length_append, length_singleton]
        obtain hd | hd := mem_append.mp hd
        · have := hinv.inRange d hd
          omega
        · rw [mem_singleton.mp hd]
          exact Nat.lt_succ_self _
      · intro a b ⟨hk, w, hw, ht⟩
        obtain ⟨fa, hfa, hwa⟩ := watcher hw
        obtain ⟨fb, hfb, hkb⟩ := kindOf_epoll hk
        obtain hfa | ⟨_, rfl⟩ := hcases hfa
        · have hlt := hinv.accounts.inRange fa (mem_of_getElem? hfa) w hwa
          obtain hfb | ⟨rfl, _⟩ := hcases hfb
          · exact ⟨(kindOf_eq hfb).trans hkb, w, by rwa [epollOf_eq hfa], ht⟩
          · omega
        · exact absurd hwa not_mem_nil
  · exact ⟨hinv, id⟩

theorem Files.share_inv (hinv : s.Inv) (pid fd pid' fd' : Nat) :
    (s.share pid fd pid' fd').Inv ∧
      ∀ {a b}, (s.share pid fd pid' fd').Nested a b → s.Nested a b := by
  unfold share
  split
  · exact ⟨hinv, id⟩
  next i hi =>
  split
  · obtain ⟨f, hf⟩ := hinv.file hi
    obtain ⟨hacc, hshr⟩ := dup_accounts hinv.accounts hf
    refine ⟨⟨?_, ?_⟩, fun hab => Shrunk.nested (s := s) hshr hab⟩
    · have hheld : held { s.dup i with fds := (s.dup i).fds ++ [⟨pid', fd', i⟩] } =
          fun x => s.held x + [i].count x := by
        funext x
        rw [held, countP_append]
        congr 1
      rw [hheld]
      exact hacc
    · intro d hd
      rw [hshr.1]
      obtain hd | hd := mem_append.mp hd
      · exact hinv.inRange d hd
      · rw [mem_singleton.mp hd]
        exact (List.getElem?_eq_some_iff.mp hf).1
  · exact ⟨hinv, id⟩

theorem countP_eraseP {p q : Descriptor → Bool} {d : Descriptor} :
    ∀ {l : List Descriptor}, l.find? p = some d →
      l.countP q = (l.eraseP p).countP q + (q d).toNat := by
  intro l
  induction l with
  | nil => exact fun h => by cases h
  | cons c l ih =>
      intro h
      rw [find?_cons] at h
      rw [eraseP_cons]
      split at h
      · next hc =>
          obtain rfl := Option.some.inj h
          rw [hc, cond_true, countP_cons]
          cases q c <;> rfl
      · next hc =>
          rw [hc, cond_false, countP_cons, countP_cons, ih h]
          omega

theorem Files.close_inv (hinv : s.Inv) (pid fd : Nat) :
    (s.close pid fd).Inv ∧ ∀ {a b}, (s.close pid fd).Nested a b → s.Nested a b := by
  unfold close
  split
  · exact ⟨hinv, id⟩
  next i hi =>
  obtain ⟨f, hf⟩ := hinv.file hi
  obtain ⟨d, hd, hdi⟩ := Option.map_eq_some_iff.mp hi
  let s₁ : Files := { s with fds := s.fds.eraseP fun d => d.pid = pid ∧ d.fd = fd }
  have hheld : s.held = fun x => s₁.held x + [i].count x := by
    funext x
    rw [held, countP_eraseP hd]
    congr 1
    rw [hdi, count_singleton]
    by_cases hx : i = x <;> simp [hx]
  have hbefore : Accounts s₁.files (fun x => s₁.held x + [i].count x) :=
    hheld ▸ hinv.accounts
  obtain ⟨hacc, hshr⟩ := freeFile_accounts hbefore
    (List.getElem?_eq_some_iff.mp hf).1
  refine ⟨⟨hacc, fun c hc => ?_⟩, fun hab => Shrunk.nested (s := s) hshr hab⟩
  rw [hshr.1]
  exact hinv.inRange c (mem_of_mem_eraseP hc)

theorem Files.setEpoll_accounts (ep : EpollFile)
    {held : Nat → Nat} (held' : Nat → Nat) (h : Accounts s.files held) (hf : s.files[e]? = some f)
    (hk : f.kind = .epoll) (hpos : 0 < held e)
    (hrange : ∀ w ∈ ep.watchList, w.target < s.files.length)
    (hexact : ∀ x, held' x + (ep.watchList.map (·.target)).count x =
      held x + (f.epoll.watchList.map (·.target)).count x) :
    Accounts (s.setEpoll e ep).files held' := by
  rw [setEpoll, modify_eq_set _ hf]
  refine h.set hf hrange (fun h0 => ?_) (fun hne => absurd hk hne) fun x => ?_
  · have := h.exact e f hf
    simp only at h0
    omega
  · have hx := hexact x
    rw [count_targets f] at hx
    have hnew : OpenFile.refsTo { f with epoll := ep } x =
        (ep.watchList.map (·.target)).count x := (count_targets _ x).symm
    simp only
    omega

theorem EpollFile.find_target {e : EpollFile} {t j : Nat} (h : e.find fd t = some j) :
    ∃ w, e.watchList[j]? = some w ∧ w.target = t := by
  obtain ⟨hlt, hp, _⟩ := findIdx?_eq_some_iff_getElem.mp h
  refine ⟨e.watchList[j], getElem?_eq_getElem hlt, ?_⟩
  simp only [decide_eq_true_eq] at hp
  exact hp.2

theorem count_eraseIdx {l : List Watch} {j : Nat} {w : Watch} (h : l[j]? = some w) (x : Nat) :
    ((l.eraseIdx j).map (·.target)).count x + [w.target].count x = (l.map (·.target)).count x := by
  obtain ⟨hlt, rfl⟩ := List.getElem?_eq_some_iff.mp h
  have hperm := (getElem_cons_eraseIdx_perm hlt).map (·.target)
  rw [← hperm.count_eq x, map_cons, count_cons, count_cons, count_nil]
  omega

theorem map_target_modify (l : List Watch) (j : Nat) (events : Events) (data : Nat) :
    (l.modify j (·.rearm events data)).map (·.target) = l.map (·.target) := by
  refine ext_getElem? fun i => ?_
  rw [getElem?_map, getElem?_map, getElem?_modify]
  cases l[i]? with
  | none => rfl
  | some w =>
      split <;> rfl

theorem Files.ctlDel_inv (hinv : s.Inv) {epfd t : Nat}
    (he : s.openFile pid epfd = some e) (ht : s.openFile pid fd = some t)
    (hk : s.kindOf e = .epoll) (h : s.ctlDel e fd t = .ok s') :
    s'.Inv ∧ ∀ {a b}, s'.Nested a b → s.Nested a b := by
  obtain ⟨f, hf⟩ := hinv.file he
  obtain ⟨g, hg⟩ := hinv.file ht
  rw [kindOf_eq hf] at hk
  unfold ctlDel EpollFile.delWatch at h
  rw [epollOf_eq hf] at h
  cases hj : f.epoll.find fd t with
  | none => simp [hj] at h
  | some j =>
      simp only [hj, Except.ok.injEq] at h
      obtain ⟨w, hw, rfl⟩ := EpollFile.find_target hj
      have hset := setEpoll_accounts
        { f.epoll with watchList := f.epoll.watchList.eraseIdx j }
        (fun x => s.held x + [w.target].count x) hinv.accounts hf hk
        (openFile_held he)
        (fun w' hw' => hinv.accounts.inRange f (mem_of_getElem? hf) w'
          (mem_of_mem_eraseIdx hw'))
        (fun x => by have := count_eraseIdx hw x; simp only; omega)
      have hlen : w.target < (s.setEpoll e
          { f.epoll with watchList := f.epoll.watchList.eraseIdx j }).files.length := by
        rw [setEpoll, length_modify]
        exact (List.getElem?_eq_some_iff.mp hg).1
      obtain ⟨hacc, hshr⟩ := freeFile_accounts hset hlen
      have hfirst : Shrunk s.files (s.setEpoll e
          { f.epoll with watchList := f.epoll.watchList.eraseIdx j }).files := by
        rw [setEpoll, modify_eq_set _ hf]
        exact .set hf rfl fun w' hw' => ⟨w', mem_of_mem_eraseIdx hw', rfl⟩
      subst h
      refine ⟨⟨hacc, fun d hd => ?_⟩, fun hab => (hfirst.trans hshr).nested (s := s) hab⟩
      rw [(hfirst.trans hshr).1]
      exact hinv.inRange d hd

theorem Files.ctlMod_inv (hinv : s.Inv) {epfd t data : Nat}
    {events : Events} (he : s.openFile pid epfd = some e)
    (hk : s.kindOf e = .epoll) (h : s.ctlMod e fd t events data = .ok s') :
    s'.Inv ∧ ∀ {a b}, s'.Nested a b → s.Nested a b := by
  obtain ⟨f, hf⟩ := hinv.file he
  rw [kindOf_eq hf] at hk
  unfold ctlMod EpollFile.modWatch at h
  rw [epollOf_eq hf] at h
  cases hj : f.epoll.find fd t with
  | none => simp [hj] at h
  | some j =>
      simp only [hj, Except.ok.injEq] at h
      have hmap := map_target_modify f.epoll.watchList j events data
      have hold : ∀ w ∈ f.epoll.watchList.modify j (·.rearm events data),
          ∃ w' ∈ f.epoll.watchList, w'.target = w.target := by
        intro w hw
        have hmem := mem_map_of_mem (f := (·.target)) hw
        rw [hmap] at hmem
        exact mem_map.mp hmem
      have hacc := setEpoll_accounts
        { f.epoll with watchList := f.epoll.watchList.modify j (·.rearm events data) }
        s.held hinv.accounts hf hk (openFile_held he)
        (by
          intro w hw
          obtain ⟨w', hw', ht⟩ := hold w hw
          rw [← ht]
          exact hinv.accounts.inRange f (mem_of_getElem? hf) w' hw')
        (fun x => by rw [hmap])
      have hshr : Shrunk s.files (s.setEpoll e { f.epoll with
          watchList := f.epoll.watchList.modify j (·.rearm events data) }).files := by
        rw [setEpoll, modify_eq_set _ hf]
        exact .set hf rfl hold
      subst h
      refine ⟨⟨hacc, fun d hd => ?_⟩, fun hab => hshr.nested (s := s) hab⟩
      rw [hshr.1]
      exact hinv.inRange d hd

theorem Files.kindOf_setEpoll (s : Files) (e : Nat) (ep : EpollFile) (x : Nat) :
    (s.setEpoll e ep).kindOf x = s.kindOf x := by
  unfold kindOf setEpoll
  rw [getElem?_modify]
  cases s.files[x]? <;> simp
  split <;> rfl

theorem Files.kindOf_dup (s : Files) (i x : Nat) : (s.dup i).kindOf x = s.kindOf x := by
  unfold kindOf dup
  rw [getElem?_modify]
  cases s.files[x]? <;> simp
  split <;> rfl

theorem Files.epollOf_dup (s : Files) (i x : Nat) : (s.dup i).epollOf x = s.epollOf x := by
  unfold epollOf dup
  rw [getElem?_modify]
  cases s.files[x]? <;> simp
  split <;> rfl

theorem Files.epollOf_setEpoll (hf : s.files[e]? = some f) (ep : EpollFile) (x : Nat) :
    (s.setEpoll e ep).epollOf x = if x = e then ep else s.epollOf x := by
  unfold epollOf setEpoll
  rw [modify_eq_set _ hf]
  by_cases hx : x = e
  · subst hx
    rw [getElem?_set_self (List.getElem?_eq_some_iff.mp hf).1, if_pos rfl]
  · rw [getElem?_set_ne (Ne.symm hx), if_neg hx]

theorem Files.ctlAdd_inv (hinv : s.Inv) {epfd t data : Nat}
    {events : Events} (he : s.openFile pid epfd = some e) (ht : s.openFile pid fd = some t)
    (hk : s.kindOf e = .epoll) (h : s.ctlAdd pid e fd t events data = .ok s') :
    s.addRefused pid e t = none ∧ s'.Inv ∧
      ∀ {a b}, s'.Nested a b ↔ s.Nested a b ∨ (s.kindOf t = .epoll ∧ a = e ∧ b = t) := by
  obtain ⟨f, hf⟩ := hinv.file he
  obtain ⟨g, hg⟩ := hinv.file ht
  have hkf : f.kind = .epoll := (kindOf_eq hf).symm.trans hk
  have hef := epollOf_eq hf
  unfold ctlAdd EpollFile.addWatch at h
  cases hr : s.addRefused pid e t with
  | some err => simp [hr] at h
  | none =>
      cases hj : (s.epollOf e).find fd t with
      | some j => simp [hr, hj] at h
      | none =>
          simp only [hr, hj, Except.ok.injEq] at h
          subst h
          rw [hef]
          generalize hep : ({ f.epoll with watchList := f.epoll.watchList ++
            [⟨fd, t, events, data, 0, false⟩] } : EpollFile) = ep
          have hwl : ep.watchList = f.epoll.watchList ++ [⟨fd, t, events, data, 0, false⟩] := by
            rw [← hep]
          have htlt : t < s.files.length := (List.getElem?_eq_some_iff.mp hg).1
          have hcount : ∀ x, [t].count x ≤ s.held x := by
            intro x
            rw [count_cons_eq, count_nil, Nat.zero_add]
            split_ifs with hx
            · exact hx ▸ openFile_held ht
            · exact Nat.zero_le _
          -- for a moment the new watch's reference stands on the descriptor's account
          have hset := setEpoll_accounts ep
            (fun x => s.held x - [t].count x) hinv.accounts hf hkf (openFile_held he)
            (by
              intro w hw
              rw [hwl] at hw
              obtain hw | hw := mem_append.mp hw
              · exact hinv.accounts.inRange f (mem_of_getElem? hf) w hw
              · rw [mem_singleton.mp hw]
                exact htlt)
            (by
              intro x
              rw [hwl, map_append, count_append]
              show s.held x - [t].count x + (_ + [t].count x) = _
              have := hcount x
              omega)
          have hlen : (s.setEpoll e ep).files.length = s.files.length :=
            length_modify _ _ _
          have htf : (s.setEpoll e ep).files[t]? = some _ :=
            getElem?_eq_getElem (hlen ▸ htlt)
          obtain ⟨hacc, hshr⟩ := dup_accounts hset htf
          rw [show (fun x => s.held x - [t].count x + [t].count x) = s.held from
            funext fun x => Nat.sub_add_cancel (hcount x)] at hacc
          refine ⟨rfl, ⟨hacc, fun d hd => ?_⟩, ?_⟩
          · rw [hshr.1, hlen]
            exact hinv.inRange d hd
          · intro a b
            unfold Files.Nested
            rw [kindOf_dup, kindOf_setEpoll, epollOf_dup, epollOf_setEpoll hf]
            by_cases ha : a = e
            · subst ha
              rw [if_pos rfl, hwl, hef]
              constructor
              · intro ⟨hkb, w, hw, hwt⟩
                obtain hw | hw := mem_append.mp hw
                · exact .inl ⟨hkb, w, hw, hwt⟩
                · rw [mem_singleton.mp hw] at hwt
                  obtain rfl : t = b := hwt
                  exact .inr ⟨hkb, rfl, rfl⟩
              · intro hor
                obtain ⟨hkb, w, hw, hwt⟩ | ⟨hkt, _, rfl⟩ := hor
                · exact ⟨hkb, w, mem_append_left _ hw, hwt⟩
                · exact ⟨hkt, _, mem_append_right _ (mem_singleton_self _), rfl⟩
            · rw [if_neg ha]
              exact ⟨.inl, fun hor => hor.elim id fun h => absurd h.2.1 ha⟩

/-- The process sees every watch at or below `x` that is on an epoll file: the
watch's descriptor number is open in it, and on the same file. -/
def Files.Visible (s : Files) (pid x : Nat) : Prop :=
  ∀ {y w}, ReflTransGen s.Nested x y → w ∈ (s.epollOf y).watchList →
    s.kindOf w.target = .epoll → s.openFile pid w.fd = some w.target

theorem Files.Visible.next {a b : Nat} (h : s.Visible pid a) (hab : s.Nested a b) :
    s.Visible pid b :=
  fun hby => h (.head hab hby)

theorem Files.epollReachesTarget_iff {levels x target : Nat} (hseen : s.Visible pid x)
    (hin : Within s.Nested x levels) :
    s.epollReachesTarget pid levels x target = true ↔ ReflTransGen s.Nested x target := by
  induction levels generalizing x with
  | zero => exact absurd (hin [] (.singleton x)) (Nat.lt_irrefl 0)
  | succ levels ih =>
      simp only [epollReachesTarget, Bool.or_eq_true, decide_eq_true_eq, any_eq_true,
        Bool.and_eq_true]
      rw [ReflTransGen.cases_head_iff]
      refine or_congr Iff.rfl ⟨?_, ?_⟩
      · rintro ⟨w, hw, ⟨_, hk⟩, hrest⟩
        have hnext : s.Nested x w.target := ⟨hk, w, hw, rfl⟩
        exact ⟨_, hnext, (ih (hseen.next hnext) (hin.next hnext)).mp hrest⟩
      · rintro ⟨y, hnext, hrest⟩
        have hreach := (ih (hseen.next hnext) (hin.next hnext)).mpr hrest
        obtain ⟨hk, w, hw, rfl⟩ := hnext
        exact ⟨w, hw, ⟨hseen .refl hw hk, hk⟩, hreach⟩

/-- The lengths of the chains from `x` down. -/
def Files.depthsFrom (s : Files) (x : Nat) : Set Nat :=
  { n | ∃ l : List Nat, (x :: l).IsChain s.Nested ∧ (x :: l).length = n }

theorem Files.epollNestingDepth_isGreatest {levels x : Nat} (hk : s.kindOf x = .epoll)
    (hseen : s.Visible pid x) (hin : Within s.Nested x levels) :
    IsGreatest (s.depthsFrom x) (s.epollNestingDepth pid levels x) := by
  induction levels generalizing x with
  | zero => exact absurd (hin [] (.singleton x)) (Nat.lt_irrefl 0)
  | succ levels ih =>
      rw [epollNestingDepth, if_pos hk]
      generalize hds : List.map _ (s.epollOf x).watchList = depths
      -- the maximum of the loop is a member of `0 :: depths` and bounds them all
      obtain ⟨hmem, hle⟩ := max?_eq_some_iff.mp
        (rfl : (0 :: depths).max? = some (depths.foldl max 0))
      generalize depths.foldl max 0 = m at hmem hle
      have hdeep : ∀ {w : Watch}, w ∈ (s.epollOf x).watchList → s.kindOf w.target = .epoll →
          s.epollNestingDepth pid levels w.target ∈ depths ∧
            IsGreatest (s.depthsFrom w.target) (s.epollNestingDepth pid levels w.target) := by
        intro w hw hkw
        have hnext : s.Nested x w.target := ⟨hkw, w, hw, rfl⟩
        refine ⟨hds ▸ mem_map.mpr ⟨w, hw, if_pos (hseen .refl hw hkw)⟩, ?_⟩
        exact ih hkw (hseen.next hnext) (hin.next hnext)
      constructor
      · obtain rfl | hm := mem_cons.mp hmem
        · exact ⟨[], .singleton x, rfl⟩
        obtain ⟨w, hw, hwm⟩ := mem_map.mp (hds ▸ hm)
        by_cases hkw : s.kindOf w.target = .epoll
        · rw [if_pos (hseen .refl hw hkw)] at hwm
          obtain ⟨l, hl, hlen⟩ := (hdeep hw hkw).2.1
          refine ⟨_ :: l, isChain_cons_cons.mpr ⟨⟨hkw, w, hw, rfl⟩, hl⟩, ?_⟩
          rw [length_cons, hlen, hwm, Nat.add_comm]
        · -- any other file counts for nothing
          have hzero : m = 0 := by
            rw [← hwm]
            cases levels <;> simp [epollNestingDepth, hkw]
          exact ⟨[], .singleton x, by rw [hzero]; rfl⟩
      · rintro n ⟨l, hl, rfl⟩
        cases l with
        | nil => exact Nat.le_add_right 1 m
        | cons y l =>
            obtain ⟨⟨hky, w, hw, rfl⟩, hl⟩ := isChain_cons_cons.mp hl
            obtain ⟨hd, hgreat⟩ := hdeep hw hky
            have hlen := hgreat.2 ⟨l, hl, rfl⟩
            have hmax := hle _ (mem_cons_of_mem _ hd)
            rw [length_cons]
            omega

/-- The caller sees the watches below the file it adds, and if the epoll file is
itself watched, and the addition closes no cycle, the depths above and below the
new edge add up to at most 5. Nothing is asked of the other calls. -/
def Files.Safe (s : Files) : FileOp → Prop
  | .epollCtl pid epfd .add fd (some _) =>
      ∀ e t, s.openFile pid epfd = some e → s.openFile pid fd = some t →
        s.kindOf e = .epoll → s.kindOf t = .epoll →
        s.Visible pid t ∧ (¬ ReflTransGen s.Nested t e →
          ∀ above below : List Nat, above.IsChain s.Nested → above.getLast? = some e →
            2 ≤ above.length → below.IsChain s.Nested → below.head? = some t →
            above.length + below.length ≤ 5)
  | _ => True

/-- The ways through `sys_epoll_ctl`. -/
theorem Files.epollCtl_ok {epfd : Nat} {op : CtlOp}
    {event : Option (Events × Nat)} (h : s.epollCtl pid epfd op fd event = .ok s') :
    ∃ e t, s.openFile pid epfd = some e ∧ s.openFile pid fd = some t ∧ s.kindOf e = .epoll ∧
      ((op = .del ∧ s.ctlDel e fd t = .ok s') ∨
        (∃ events data, op = .add ∧ event = some (events, data) ∧
          s.ctlAdd pid e fd t events data = .ok s') ∨
        ∃ events data, op = .mod ∧ s.ctlMod e fd t events data = .ok s') := by
  unfold epollCtl at h
  split at h
  · cases h
  next e he =>
  split at h
  · cases h
  next hk =>
  split at h
  · cases h
  next t ht =>
  split at h
  · cases h
  split at h
  · cases h
  refine ⟨e, t, he, ht, Classical.not_not.mp hk, ?_⟩
  split at h
  · exact .inl ⟨rfl, h⟩
  · cases h
  · exact .inr (.inl ⟨_, _, rfl, rfl, h⟩)
  · exact .inr (.inr ⟨_, _, rfl, h⟩)
  · cases h

/-- A call that adds no edge, or the one that adds an edge between epoll
files. -/
theorem Files.step_cases (hinv : s.Inv) (op : FileOp) :
    (s.step op).Inv ∧ ((∀ {a b}, (s.step op).Nested a b → s.Nested a b) ∨
      ∃ pid epfd fd event e t, op = .epollCtl pid epfd .add fd (some event) ∧
        s.openFile pid epfd = some e ∧ s.openFile pid fd = some t ∧ s.kindOf e = .epoll ∧
        s.kindOf t = .epoll ∧ s.addRefused pid e t = none ∧
        ∀ {a b}, (s.step op).Nested a b ↔ Link s.Nested e t a b) := by
  cases op with
  | epollCreate pid fd => exact (create_inv hinv pid fd .epoll).imp id .inl
  | openOther pid fd watchable => exact (create_inv hinv pid fd _).imp id .inl
  | dup pid fd fd' => exact (share_inv hinv pid fd pid fd').imp id .inl
  | pass pid fd pid' fd' => exact (share_inv hinv pid fd pid' fd').imp id .inl
  | close pid fd => exact (close_inv hinv pid fd).imp id .inl
  | epollCtl pid epfd op fd event =>
      rw [step]
      cases hres : s.epollCtl pid epfd op fd event with
      | error err => exact ⟨hinv, .inl id⟩
      | ok s' =>
          obtain ⟨e, t, he, ht, hk, hway⟩ := epollCtl_ok hres
          obtain ⟨rfl, h⟩ | ⟨events, data, rfl, rfl, h⟩ | ⟨events, data, rfl, h⟩ := hway
          · exact (ctlDel_inv hinv he ht hk h).imp id .inl
          · obtain ⟨hr, hinv', hnested⟩ := ctlAdd_inv hinv he ht hk h
            refine ⟨hinv', ?_⟩
            by_cases hkt : s.kindOf t = .epoll
            · refine .inr ⟨pid, epfd, fd, _, e, t, rfl, he, ht, hk, hkt, hr, ?_⟩
              intro a b
              rw [hnested]
              exact or_congr Iff.rfl (and_iff_right hkt)
            · exact .inl fun hab => (hnested.mp hab).resolve_right fun h => hkt h.1
          · exact (ctlMod_inv hinv he hk h).imp id .inl

/-- The checks see what is below the target, so a cycle is refused and so is a
target with 5 levels; what is above the epoll file they do not see. -/
theorem Files.bounded_step {op : FileOp} (hinv : s.Inv) (h : Bounded s.Nested 5)
    (hsafe : s.Safe op) : Bounded (s.step op).Nested 5 := by
  obtain hsub | ⟨pid, epfd, fd, event, e, t, rfl, he, ht, hk, hkt, hr, hlink⟩ :=
    (step_cases hinv op).2
  · exact h.mono hsub
  obtain ⟨hseen, hroom⟩ := hsafe e t he ht hk hkt
  have hin : Within s.Nested t 9 := h.within t (by omega)
  rw [addRefused, if_pos hkt] at hr
  split at hr
  · cases hr
  next hpath =>
  split at hr
  · cases hr
  next hdepth =>
  rw [epollReachesTarget_iff hseen hin] at hpath
  rw [show (s.step _).Nested = Link s.Nested e t from funext₂ fun _ _ => propext hlink]
  refine (bounded_link_iff h).mpr ⟨hpath, fun above below ha hlast hb hhead => ?_⟩
  by_cases hwatched : 2 ≤ above.length
  · exact hroom hpath above below ha hlast hwatched hb hhead
  · obtain ⟨l, rfl⟩ := head?_eq_some_iff.mp hhead
    have := (epollNestingDepth_isGreatest hkt hseen hin).2 ⟨l, hb, rfl⟩
    omega

def Files.boot : Files := ⟨[], []⟩

theorem Files.boot_inv : boot.Inv ∧ Bounded boot.Nested 5 := by
  refine ⟨⟨⟨?_, ?_, ?_, ?_⟩, ?_⟩, ?_⟩
  · intro i f hf
    cases hf
  · exact fun f hf => absurd hf not_mem_nil
  · exact fun f hf => absurd hf not_mem_nil
  · exact fun f hf => absurd hf not_mem_nil
  · exact fun d hd => absurd hd not_mem_nil
  · intro l hl
    match l, hl with
    | [], _ => exact Nat.zero_le 5
    | [_], _ => exact Nat.le_of_ble_eq_true rfl
    | a :: b :: l, hl =>
        have hkind : Kind.plain = .epoll := (isChain_cons_cons.mp hl).1.1
        exact absurd hkind (by decide)

/-- In a run of such calls the graph is acyclic, at most 5 deep, and every epoll
file out of reach of the descriptors is freed. And below a file whose watches the
caller sees, the two walks are exact. -/
theorem epoll_graph_sound {ops : List FileOp} {s : Files}
    (hrun : Run.Guarded (fun s op => some (Files.step s op)) Files.Safe Files.boot ops s) :
    s.Sound ∧ ∀ pid t, s.kindOf t = .epoll → s.Visible pid t →
      (∀ e, s.epollReachesTarget pid 9 t e = true ↔ ReflTransGen s.Nested t e) ∧
      IsGreatest (s.depthsFrom t) (s.epollNestingDepth pid 9 t) := by
  have hinv : s.Inv ∧ Bounded s.Nested 5 := by
    refine hrun.inv (I := fun s => s.Inv ∧ Bounded s.Nested 5) ?_ boot_inv
    intro s op s' h hsafe hs'
    obtain rfl := Option.some.inj hs'
    exact ⟨(step_cases h.1 op).1, bounded_step h.1 h.2 hsafe⟩
  refine ⟨hinv.1.sound_iff.mpr hinv.2, fun pid t hk hseen => ?_⟩
  have hin : Within s.Nested t 9 := hinv.2.within t (by omega)
  exact ⟨fun e => epollReachesTarget_iff hseen hin, epollNestingDepth_isGreatest hk hseen hin⟩

def Files.after (ops : List FileOp) : Files := ops.foldl step boot

theorem Files.visible_of_forall (h : ∀ f ∈ s.files, ∀ w ∈ f.epoll.watchList,
    s.openFile pid w.fd = some w.target) (x : Nat) : s.Visible pid x := by
  intro y w _ hw _
  obtain ⟨f, hf, hwf⟩ := watcher hw
  exact h f (mem_of_getElem? hf) w hwf

theorem Files.safe_of_unwatched {epfd : Nat} {event : Events × Nat}
    (hseen : ∀ f ∈ s.files, ∀ w ∈ f.epoll.watchList, s.openFile pid w.fd = some w.target)
    (he : s.openFile pid epfd = some e)
    (hfree : ∀ f ∈ s.files, ∀ w ∈ f.epoll.watchList, w.target ≠ e) :
    s.Safe (.epollCtl pid epfd .add fd (some event)) := by
  intro e' t he' _ _ _
  obtain rfl : e = e' := Option.some.inj (he.symm.trans he')
  refine ⟨visible_of_forall hseen t, fun _ above _ ha hlast htwo => ?_⟩
  -- the member before the last would watch the epoll file
  obtain ⟨l, rfl⟩ := getLast?_eq_some_iff.mp hlast
  obtain rfl | ⟨l, a, rfl⟩ := eq_nil_or_concat l
  · exact absurd htwo (Nat.lt_irrefl 1)
  · obtain ⟨_, w, hw, hwe⟩ := (isChain_append.mp ha).2.2 a (by simp) e rfl
    obtain ⟨f, hf, hwf⟩ := watcher hw
    exact absurd hwe (hfree f (mem_of_getElem? hf) w hwf)

/-- Three in a row, from the bottom up; the last call then closes the cycle and is
refused. -/
theorem epoll_graph_sound_nested :
    let ops : List FileOp := [.epollCreate 1 3, .epollCreate 1 4, .epollCreate 1 5,
      .epollCtl 1 4 .add 5 (some (epollIn, 0)), .epollCtl 1 3 .add 4 (some (epollIn, 0))]
    let s := Files.after ops
    Run.Guarded (fun s op => some (Files.step s op)) Files.Safe Files.boot ops s ∧
    s.Nested 0 1 ∧ s.Nested 1 2 ∧ s.Sound ∧ s.addRefused 1 2 0 = some .eloop ∧
    IsGreatest (s.depthsFrom 0) 3 := by
  intro ops s
  have hrun : Run.Guarded (fun s op => some (step s op)) Files.Safe boot ops s := by
    refine .cons trivial rfl (.cons trivial rfl (.cons trivial rfl (.cons ?_ rfl
      (.cons ?_ rfl (.nil _)))))
    · exact safe_of_unwatched (by decide) rfl (by decide)
    · exact safe_of_unwatched (by decide) rfl (by decide)
  obtain ⟨hsound, hwalks⟩ := epoll_graph_sound hrun
  have hdepth := (hwalks 1 0 rfl (visible_of_forall (by decide) 0)).2
  exact ⟨hrun, by decide, by decide, hsound, by decide, hdepth⟩

/-- A watches B through a descriptor that is closed while B stays open under
another number. The way from A to B is then invisible, B may watch A, and with
their last descriptors gone the two keep each other. -/
theorem epoll_cycle_leaks :
    let s := Files.after [.epollCreate 1 3, .epollCreate 1 4, .dup 1 4 5,
      .epollCtl 1 3 .add 4 (some (epollIn, 0)), .close 1 4,
      .epollCtl 1 5 .add 3 (some (epollIn, 0)), .close 1 3, .close 1 5]
    s.fds = [] ∧ s.Nested 0 1 ∧ s.Nested 1 0 ∧ ∀ f ∈ s.files, f.kind = .epoll ∧ f.refcnt = 1 := by
  decide

/-- Built from the top, a chain grows past the limit: each new target has
nothing below it. -/
example :
    let s := Files.after ([.epollCreate 1 0, .epollCreate 1 1, .epollCreate 1 2,
      .epollCreate 1 3, .epollCreate 1 4, .epollCreate 1 5] ++ (List.range 5).map fun i =>
        FileOp.epollCtl 1 i .add (i + 1) (some (epollIn, 0)))
    ∀ i < 5, s.Nested i (i + 1) := by
  decide

/-- After all calls, cycle or not: a count is the number of descriptors and watches of
its file, what one of them names has not been freed, and a freed file watches nothing. -/
theorem references_exact (ops : List FileOp) (i : Nat) :
    let s := Files.after ops
    (0 < s.held i + refsTo s.files i → i < s.files.length) ∧
    ∀ f, s.files[i]? = some f →
      f.refcnt = s.held i + refsTo s.files i ∧ (f.refcnt = 0 → f.epoll.watchList = []) := by
  intro s
  have hinv : s.Inv :=
    List.foldlRecOn ops step boot_inv.1 fun _ h op _ => (step_cases h op).1
  refine ⟨fun hpos => ?_, fun f hf => ⟨hinv.accounts.exact i f hf,
    hinv.accounts.freed f (mem_of_getElem? hf)⟩⟩
  by_contra hout
  rw [hinv.accounts.refsTo_eq_zero (Nat.le_of_not_lt hout), Nat.add_zero] at hpos
  obtain ⟨d, hd, heq⟩ := countP_pos_iff.mp hpos
  exact hout (of_decide_eq_true heq ▸ hinv.inRange d hd)

end F7ly.Fs.Epoll
