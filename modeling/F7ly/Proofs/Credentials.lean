import Mathlib
import F7ly.Lib.Run
import F7ly.Proc.Credentials

/-!
# Credentials never grow

Three facts about the calls that change credentials. The effective capabilities
stay among the permitted ones, and no call adds to the permitted ones. A caller
without a zero among its real, effective and saved user ids only permutes and
drops the ids it has, so it never gets a zero again. Both hold after every
sequence of calls.

The ambient capabilities are the third. They are raised only if they are
permitted and inheritable, and dropping the superuser's ids clears them with the
permitted ones, but `capset` takes capabilities out of the permitted and the
inheritable set and leaves the ambient ones alone. So the sequences considered
for them are those where `capset` keeps what is ambient.
-/

namespace F7ly.Proc.Credentials

open Cred

def CapWords.Sub (a b : CapWords) : Prop :=
  ∀ i k, (a i).getLsbD k = true → (b i).getLsbD k = true

theorem CapWords.Sub.refl (a : CapWords) : CapWords.Sub a a := fun _ _ h => h

variable {b : CapWords} {ids : Ids} {c c' : Cred} {new : Except Errno Ids} {r : BitVec 64}

theorem CapWords.Sub.trans {a c : CapWords} (h : CapWords.Sub a b) (h' : CapWords.Sub b c) :
    CapWords.Sub a c := fun i k hk => h' i k (h i k hk)

theorem CapWords.noCaps_sub (a : CapWords) : CapWords.Sub noCaps a := by
  intro i k hk
  simp [noCaps] at hk

theorem and_not_eq_zero {w : Nat} {a b : BitVec w} (h : a &&& ~~~b = 0) {k : Nat}
    (hk : a.getLsbD k = true) : b.getLsbD k = true := by
  have hbit := congrArg (·.getLsbD k) h
  have hlt := BitVec.lt_of_getLsbD hk
  simpa [hk, hlt] using hbit

structure Cred.CapsOk (c : Cred) : Prop where
  effective : CapWords.Sub c.capEffective c.capPermitted
  permitted : CapWords.Sub c.capAmbient c.capPermitted
  inheritable : CapWords.Sub c.capAmbient c.capInheritable

/-- The new ids are old ones: the real, effective and saved id come from these
three, the filesystem id from all four. -/
structure Ids.Confined (old new : Ids) : Prop where
  real : old.has new.real
  effective : old.has new.effective
  saved : old.has new.saved
  fs : old.has new.fs ∨ new.fs = old.fs

theorem Ids.has_iff {id : Id} :
    ids.has id ↔ id = ids.real ∨ id = ids.effective ∨ id = ids.saved := by
  simp [Ids.has, or_assoc]

theorem Ids.Confined.refl (ids : Ids) : ids.Confined ids :=
  ⟨has_iff.mpr (.inl rfl), has_iff.mpr (.inr (.inl rfl)), has_iff.mpr (.inr (.inr rfl)), .inr rfl⟩

theorem Ids.Confined.has {old new : Ids} (h : old.Confined new) {id : Id} (hid : new.has id) :
    old.has id := by
  rcases has_iff.mp hid with rfl | rfl | rfl
  · exact h.real
  · exact h.effective
  · exact h.saved

theorem Ids.Confined.trans {a b c : Ids} (h : a.Confined b) (h' : b.Confined c) : a.Confined c := by
  refine ⟨h.has h'.real, h.has h'.effective, h.has h'.saved, ?_⟩
  rcases h'.fs with hfs | hfs
  · exact .inl (h.has hfs)
  · rw [hfs]
    exact h.fs

theorem Ids.set_confined {new : Ids} {raw : Id} (h : ids.set false raw = .ok new) :
    ids.Confined new := by
  unfold Ids.set at h
  split at h
  · cases h
  · rw [if_neg Bool.false_ne_true] at h
    split at h
    · cases h
    next hhas =>
    cases h
    have hhas : ids.has raw = true := by simpa using hhas
    have hself := Confined.refl ids
    exact ⟨hself.real, hhas, hself.saved, .inl hhas⟩

theorem Ids.has_of_passed {raw id : Id} (hraw : raw ≠ -1)
    (h : ¬(raw ≠ -1 ∧ (!ids.has id) = true)) : ids.has id := by
  cases hhas : ids.has id with
  | true => rfl
  | false => exact absurd ⟨hraw, by rw [hhas]; rfl⟩ h

theorem Ids.has_chosen {raw old : Id} (hold : ids.has old)
    (h : ¬(raw ≠ -1 ∧ (!ids.has raw) = true)) : ids.has (if raw ≠ -1 then raw else old) := by
  split
  · next hraw => exact has_of_passed hraw h
  · exact hold

theorem Ids.setRes_confined {new : Ids} {real effective saved : Id}
    (h : ids.setRes false real effective saved = .ok new) : ids.Confined new := by
  unfold Ids.setRes at h
  split at h
  · cases h
  · split at h
    · cases h
    next hperm =>
    cases h
    simp only [Bool.not_false, true_and, not_or] at hperm
    have hself := Confined.refl ids
    refine ⟨has_chosen hself.real hperm.1, has_chosen hself.effective hperm.2.1,
      has_chosen hself.saved hperm.2.2, ?_⟩
    dsimp only
    split
    · next heff => exact .inl (has_of_passed heff hperm.2.1)
    · exact .inr rfl

theorem Ids.setFs_confined (ids : Ids) (raw : Id) : ids.Confined (ids.setFs false raw) := by
  have hself := Confined.refl ids
  unfold Ids.setFs
  split
  · exact hself
  · split
    · next hhas => exact ⟨hself.real, hself.effective, hself.saved, .inl (by simpa using hhas)⟩
    · exact hself

theorem Ids.setReuid_confined {new : Ids} {ruid euid : Id} (hpriv : ids.effective ≠ 0)
    (h : ids.setReuid ruid euid = .ok new) : ids.Confined new := by
  have hself := Confined.refl ids
  simp only [Ids.setReuid] at h
  generalize hr : (if ruid = -1 then ids.real else ruid) = newRuid at h
  generalize he : (if euid = -1 then ids.effective else euid) = newEuid at h
  split at h
  · cases h
  · split at h
    · cases h
    next hperm =>
    cases h
    have hperm := not_or.mp fun hor => hperm ⟨hpriv, hor⟩
    have hreal : ids.has newRuid := by
      by_cases hone : ruid = -1
      · rw [← hr, if_pos hone]
        exact hself.real
      · exact has_of_passed hone hperm.1
    have heff : ids.has newEuid := by
      by_cases hone : euid = -1
      · rw [← he, if_pos hone]
        exact hself.effective
      · exact has_of_passed hone hperm.2
    refine ⟨hreal, heff, ?_, .inl heff⟩
    split
    · exact heff
    · exact hself.saved

theorem Ids.setRegid_confined {new : Ids} {rgid egid : Id}
    (h : ids.setRegid false rgid egid = .ok new) : ids.Confined new := by
  have hself := Confined.refl ids
  simp only [Ids.setRegid] at h
  generalize hr : (if rgid = -1 then ids.real else rgid) = newRgid at h
  generalize he : (if egid = -1 then ids.effective else egid) = newEgid at h
  split at h
  · cases h
  · split at h
    · cases h
      exact hself
    · split at h
      · cases h
      next hperm =>
      cases h
      have hperm := not_or.mp fun hor => hperm ⟨rfl, hor⟩
      have hreal : ids.has newRgid := by
        by_cases hone : rgid = -1
        · rw [← hr, if_pos hone]
          exact hself.real
        · rw [← hr, if_neg hone, has_iff]
          by_contra hnot
          have hnot := not_or.mp hnot
          exact hperm.1 ⟨hone, hnot.1, (not_or.mp hnot.2).1⟩
      have heff : ids.has newEgid := by
        by_cases hone : egid = -1
        · rw [← he, if_pos hone]
          exact hself.effective
        · rw [← he, if_neg hone]
          exact has_of_passed hone hperm.2
      refine ⟨hreal, heff, ?_, .inl heff⟩
      split
      · exact heff
      · exact hself.saved

/-- What every call does to the credentials: the effective capabilities stay
permitted, nothing is added to the permitted ones, and a caller who is not
privileged stays among its ids. -/
structure Cred.Shrinks (c c' : Cred) : Prop where
  effective : CapWords.Sub c.capEffective c.capPermitted →
    CapWords.Sub c'.capEffective c'.capPermitted
  permitted : CapWords.Sub c'.capPermitted c.capPermitted
  user : c.user.effective ≠ 0 → c.user.Confined c'.user
  group : c.user.effective ≠ 0 → c.group.Confined c'.group

theorem Cred.Shrinks.refl (c : Cred) : c.Shrinks c :=
  ⟨fun h => h, .refl _, fun _ => .refl _, fun _ => .refl _⟩

theorem Cred.updateAfterUidChange_user (c : Cred) (old : Ids) :
    (c.updateAfterUidChange old).user = c.user := by
  unfold updateAfterUidChange
  split
  · rfl
  · split
    · rfl
    · split <;> rfl

theorem Cred.updateAfterUidChange_group (c : Cred) (old : Ids) :
    (c.updateAfterUidChange old).group = c.group := by
  unfold updateAfterUidChange
  split
  · rfl
  · split
    · rfl
    · split <;> rfl

theorem Cred.updateAfterUidChange_effective (c : Cred) (old : Ids)
    (h : CapWords.Sub c.capEffective c.capPermitted) :
    CapWords.Sub (c.updateAfterUidChange old).capEffective
      (c.updateAfterUidChange old).capPermitted := by
  unfold updateAfterUidChange
  split
  · exact .refl _
  · split
    · exact CapWords.noCaps_sub _
    · split
      · exact .refl _
      · exact h

theorem Cred.updateAfterUidChange_permitted (c : Cred) (old : Ids) :
    CapWords.Sub (c.updateAfterUidChange old).capPermitted c.capPermitted := by
  unfold updateAfterUidChange
  split
  · exact CapWords.noCaps_sub _
  · split
    · exact .refl _
    · split <;> exact .refl _

theorem Cred.updateAfterUidChange_capsOk (h : c.CapsOk) (old : Ids) :
    (c.updateAfterUidChange old).CapsOk := by
  refine ⟨c.updateAfterUidChange_effective old h.effective, ?_, ?_⟩
  all_goals
    unfold updateAfterUidChange
    split
    · exact CapWords.noCaps_sub _
    · split
      · first | exact h.permitted | exact h.inheritable
      · split <;> first | exact h.permitted | exact h.inheritable

theorem Cred.shrinks_user
    (hnew : ∀ user, new = .ok user → c.user.effective ≠ 0 → c.user.Confined user)
    (h : new.map (fun user => ((0 : BitVec 64),
      { c with user := user }.updateAfterUidChange c.user)) = .ok (r, c')) : c.Shrinks c' := by
  obtain ⟨user, huser, heq⟩ := Run.map_eq_ok.mp h
  cases heq
  refine ⟨fun heff => ?_, ?_, fun hpriv => ?_, fun _ => ?_⟩
  · exact updateAfterUidChange_effective _ _ heff
  · exact updateAfterUidChange_permitted _ _
  · rw [updateAfterUidChange_user]
    exact hnew user huser hpriv
  · rw [updateAfterUidChange_group]
    exact .refl _

theorem Cred.shrinks_group
    (hnew : ∀ group, new = .ok group → c.user.effective ≠ 0 → c.group.Confined group)
    (h : new.map (fun group => ((0 : BitVec 64), { c with group := group })) = .ok (r, c')) :
    c.Shrinks c' := by
  obtain ⟨group, hgroup, heq⟩ := Run.map_eq_ok.mp h
  cases heq
  exact ⟨fun heff => heff, .refl _, fun _ => .refl _, hnew group hgroup⟩

theorem Cred.capsetCheck_word {header : Option UserHeader}
    {data : Option (Fin 2 → UserData)} {words : Nat} {d : Fin 2 → UserData}
    (h : c.capsetCheck header data = .ok (words, d)) {i : Fin 2} (hi : i.val < words) :
    (d i).effective &&& ~~~(d i).permitted = 0 ∧ (d i).permitted &&& ~~~c.capPermitted i = 0 := by
  unfold capsetCheck at h
  split at h
  · cases h
  · dsimp only at h
    split at h
    · cases h
    · split at h
      · cases h
      · split at h
        · cases h
        · split at h
          · cases h
          next hnone =>
          cases h
          rw [List.findSome?_eq_none_iff] at hnone
          have hword := hnone i (by simpa using hi)
          simp only [capsetWord] at hword
          split at hword
          · cases hword
          next heff =>
          split at hword
          · cases hword
          · next hperm => exact ⟨not_not.mp heff, not_not.mp hperm⟩

theorem taken_sub {words : Nat} {d : Fin 2 → UserData} {f : UserData → BitVec 32}
    (h : ∀ i : Fin 2, i.val < words → f (d i) &&& ~~~b i = 0) :
    CapWords.Sub (taken words d f) b := by
  intro i k hk
  unfold taken at hk
  split at hk
  · next hi => exact and_not_eq_zero (h i hi) hk
  · simp at hk

theorem Cred.capset_shrinks {header : Option UserHeader} {data : Option (Fin 2 → UserData)}
    (h : c.capset header data = .ok (r, c')) : c.Shrinks c' := by
  obtain ⟨⟨words, d⟩, hcheck, heq⟩ := Run.map_eq_ok.mp h
  cases heq
  refine ⟨fun _ => taken_sub fun i hi => ?_, taken_sub fun i hi => ?_, fun _ => .refl _,
    fun _ => .refl _⟩
  · have htaken : (c.install words d).capPermitted i = (d i).permitted := if_pos hi
    rw [htaken]
    exact (capsetCheck_word hcheck hi).1
  · exact (capsetCheck_word hcheck hi).2

theorem getLsbD_bit {n k : Nat} (h : ((1 : BitVec 32) <<< n).getLsbD k = true) : k = n := by
  simp at h
  omega

theorem getLsbD_of_bit {a : BitVec 32} {n : Nat} (h : a &&& (1 : BitVec 32) <<< n ≠ 0) :
    a.getLsbD n = true := by
  by_contra hbit
  refine h (BitVec.eq_of_getLsbD_eq fun k hk => ?_)
  rw [BitVec.getLsbD_and]
  by_cases hb : ((1 : BitVec 32) <<< n).getLsbD k = true
  · rw [getLsbD_bit hb]
    simp [hbit]
  · rw [Bool.not_eq_true] at hb
    rw [hb, Bool.and_false]
    simp

theorem sub_raise {a : CapWords} {word : Fin 2} {n : Nat} (h : CapWords.Sub a b)
    (hbit : b word &&& (1 : BitVec 32) <<< n ≠ 0) :
    CapWords.Sub (Function.update a word (a word ||| (1 : BitVec 32) <<< n)) b := by
  intro i k hk
  by_cases hi : i = word
  · subst hi
    rw [Function.update_self, BitVec.getLsbD_or, Bool.or_eq_true] at hk
    rcases hk with hk | hk
    · exact h i k hk
    · rw [getLsbD_bit hk]
      exact getLsbD_of_bit hbit
  · rw [Function.update_of_ne hi] at hk
    exact h i k hk

theorem sub_lower {a : CapWords} {word : Fin 2} {mask : BitVec 32} (h : CapWords.Sub a b) :
    CapWords.Sub (Function.update a word (a word &&& mask)) b := by
  intro i k hk
  by_cases hi : i = word
  · subst hi
    rw [Function.update_self, BitVec.getLsbD_and, Bool.and_eq_true] at hk
    exact h i k hk.1
  · rw [Function.update_of_ne hi] at hk
    exact h i k hk

/-- `PR_CAP_AMBIENT` changes nothing but the ambient set. -/
theorem Cred.prCapAmbient_ok {arg2 arg3 arg4 arg5 : BitVec 64}
    (h : c.prCapAmbient arg2 arg3 arg4 arg5 = .ok (r, c')) :
    ∃ ambient, c' = { c with capAmbient := ambient } ∧ ∀ b, CapWords.Sub c.capAmbient b →
      (b = c.capPermitted ∨ b = c.capInheritable) → CapWords.Sub ambient b := by
  unfold prCapAmbient at h
  split at h
  · cases h
  split at h
  · split at h
    · cases h
    · cases h
      exact ⟨noCaps, rfl, fun b _ _ => CapWords.noCaps_sub b⟩
  split at h
  · cases h
  split at h
  · cases h
  dsimp only at h
  split at h
  · cases h
    exact ⟨c.capAmbient, rfl, fun b hb _ => hb⟩
  split at h
  · cases h
    exact ⟨_, rfl, fun b hb _ => sub_lower hb⟩
  split at h
  · cases h
  next hbits =>
  cases h
  refine ⟨_, rfl, fun b hb hset => sub_raise hb ?_⟩
  have hbits := not_or.mp hbits
  rcases hset with rfl | rfl
  · exact hbits.1
  · exact hbits.2

theorem Cred.step_cases (c : Cred) (call : Call) :
    c.step call = c ∨ ∃ r, c.call call = .ok (r, c.step call) := by
  unfold step
  split
  · next r c' h => exact .inr ⟨r, h⟩
  · exact .inl rfl

theorem Cred.shrinks_step (c : Cred) (call : Call) : c.Shrinks (c.step call) := by
  rcases c.step_cases call with h | ⟨r, h⟩
  · rw [h]
    exact .refl c
  · cases call with
    | setuid uid =>
        refine shrinks_user (fun user hu hpriv => ?_) h
        rw [decide_eq_false hpriv] at hu
        exact Ids.set_confined hu
    | setgid gid =>
        refine shrinks_group (fun group hg hpriv => ?_) h
        rw [decide_eq_false hpriv] at hg
        exact Ids.set_confined hg
    | setreuid ruid euid =>
        exact shrinks_user (fun user hu hpriv => Ids.setReuid_confined hpriv hu) h
    | setregid rgid egid =>
        refine shrinks_group (fun group hg hpriv => ?_) h
        rw [decide_eq_false hpriv] at hg
        exact Ids.setRegid_confined hg
    | setresuid ruid euid suid =>
        refine shrinks_user (fun user hu hpriv => ?_) h
        rw [decide_eq_false hpriv] at hu
        exact Ids.setRes_confined hu
    | setresgid rgid egid sgid =>
        refine shrinks_group (fun group hg hpriv => ?_) h
        rw [decide_eq_false hpriv] at hg
        exact Ids.setRes_confined hg
    | setfsuid fsuid =>
        refine ⟨fun heff => heff, .refl _, fun hpriv => ?_, fun _ => .refl _⟩
        change c.user.Confined (c.user.setFs (decide (c.user.effective = 0)) fsuid)
        rw [decide_eq_false hpriv]
        exact c.user.setFs_confined fsuid
    | setfsgid fsgid =>
        refine ⟨fun heff => heff, .refl _, fun _ => .refl _, fun hpriv => ?_⟩
        change c.group.Confined (c.group.setFs (decide (c.user.effective = 0)) fsgid)
        rw [decide_eq_false hpriv]
        exact c.group.setFs_confined fsgid
    | capset header data => exact capset_shrinks h
    | prCapAmbient arg2 arg3 arg4 arg5 =>
        obtain ⟨ambient, heq, -⟩ := prCapAmbient_ok h
        rw [heq]
        exact ⟨fun heff => heff, .refl _, fun _ => .refl _, fun _ => .refl _⟩

def Cred.Unprivileged (c : Cred) : Prop := ¬c.user.has 0

theorem Cred.Unprivileged.effective (h : c.Unprivileged) : c.user.effective ≠ 0 :=
  fun hzero => h (Ids.has_iff.mpr (.inr (.inl hzero.symm)))

theorem Cred.confined_run {c₀ : Cred} (h : c₀.Unprivileged) (calls : List Call) :
    c₀.user.Confined (calls.foldl step c₀).user ∧
      c₀.group.Confined (calls.foldl step c₀).group := by
  induction calls generalizing c₀ with
  | nil => exact ⟨.refl _, .refl _⟩
  | cons call calls ih =>
      have hstep := c₀.shrinks_step call
      have huser := hstep.user h.effective
      have hgroup := hstep.group h.effective
      have hnext : (c₀.step call).Unprivileged := fun hzero => h (huser.has hzero)
      have hrest := ih hnext
      exact ⟨huser.trans hrest.1, hgroup.trans hrest.2⟩

theorem Cred.caps_run (c₀ : Cred) (calls : List Call) :
    (CapWords.Sub c₀.capEffective c₀.capPermitted → CapWords.Sub (calls.foldl step c₀).capEffective
        (calls.foldl step c₀).capPermitted) ∧
      CapWords.Sub (calls.foldl step c₀).capPermitted c₀.capPermitted := by
  induction calls generalizing c₀ with
  | nil => exact ⟨fun h => h, .refl _⟩
  | cons call calls ih =>
      have hstep := c₀.shrinks_step call
      obtain ⟨heff, hperm⟩ := ih (c₀.step call)
      exact ⟨fun h => heff (hstep.effective h), hperm.trans hstep.permitted⟩

/-- A `capset` that passes its checks keeps what is ambient. -/
def Cred.KeepsAmbient (c : Cred) : Call → Prop
  | .capset header data => ∀ words d, c.capsetCheck header data = .ok (words, d) →
      CapWords.Sub c.capAmbient (taken words d (·.permitted)) ∧
        CapWords.Sub c.capAmbient (taken words d (·.inheritable))
  | _ => True

theorem Cred.CapsOk.of_user (h : c.CapsOk) (heq : new.map (fun user => ((0 : BitVec 64),
      { c with user := user }.updateAfterUidChange c.user)) = .ok (r, c')) : c'.CapsOk := by
  obtain ⟨user, -, heq⟩ := Run.map_eq_ok.mp heq
  cases heq
  have hsame : Cred.CapsOk { c with user := user } := ⟨h.effective, h.permitted, h.inheritable⟩
  exact updateAfterUidChange_capsOk hsame c.user

theorem Cred.CapsOk.of_group (h : c.CapsOk)
    (heq : new.map (fun group => ((0 : BitVec 64), { c with group := group })) = .ok (r, c')) :
    c'.CapsOk := by
  obtain ⟨group, -, heq⟩ := Run.map_eq_ok.mp heq
  cases heq
  exact ⟨h.effective, h.permitted, h.inheritable⟩

theorem Cred.CapsOk.capset_iff (h : c.CapsOk) (header : Option UserHeader)
    (data : Option (Fin 2 → UserData)) :
    (c.step (.capset header data)).CapsOk ↔ c.KeepsAmbient (.capset header data) := by
  cases hcheck : c.capsetCheck header data with
  | error e =>
      have hcall : c.call (.capset header data) = .error e := by
        rw [call, capset, hcheck]
        rfl
      rw [step, hcall, Cred.KeepsAmbient, hcheck]
      exact ⟨fun _ words d hd => (by cases hd), fun _ => h⟩
  | ok wd =>
      have hcall : c.call (.capset header data) = .ok (0, c.install wd.1 wd.2) := by
        rw [call, capset, hcheck]
        rfl
      rw [step, hcall, Cred.KeepsAmbient, hcheck]
      constructor
      · intro hok words d hd
        cases hd
        exact ⟨hok.permitted, hok.inheritable⟩
      · intro hkeep
        have heff := (capset_shrinks hcall).effective h.effective
        have hkeep := hkeep wd.1 wd.2 rfl
        exact ⟨heff, hkeep.1, hkeep.2⟩

theorem Cred.CapsOk.step_iff (h : c.CapsOk) (call : Call) :
    (c.step call).CapsOk ↔ c.KeepsAmbient call := by
  cases call with
  | capset header data => exact h.capset_iff header data
  | setfsuid fsuid => exact ⟨fun _ => trivial, fun _ => ⟨h.effective, h.permitted, h.inheritable⟩⟩
  | setfsgid fsgid => exact ⟨fun _ => trivial, fun _ => ⟨h.effective, h.permitted, h.inheritable⟩⟩
  | prCapAmbient arg2 arg3 arg4 arg5 =>
      refine ⟨fun _ => trivial, fun _ => ?_⟩
      rcases c.step_cases (.prCapAmbient arg2 arg3 arg4 arg5) with heq | ⟨r, heq⟩
      · rwa [heq]
      · obtain ⟨ambient, hc', hsub⟩ := prCapAmbient_ok heq
        rw [hc']
        exact ⟨h.effective, hsub _ h.permitted (.inl rfl), hsub _ h.inheritable (.inr rfl)⟩
  | setuid uid | setreuid ruid euid | setresuid ruid euid suid =>
      refine ⟨fun _ => trivial, fun _ => ?_⟩
      rcases c.step_cases _ with heq | ⟨r, heq⟩
      · rwa [heq]
      · exact h.of_user heq
  | setgid gid | setregid rgid egid | setresgid rgid egid sgid =>
      refine ⟨fun _ => trivial, fun _ => ?_⟩
      rcases c.step_cases _ with heq | ⟨r, heq⟩
      · rwa [heq]
      · exact h.of_group heq

theorem Ids.Confined.old {old new : Ids} (h : old.Confined new) :
    ∀ id ∈ [new.real, new.effective, new.saved, new.fs],
      id ∈ [old.real, old.effective, old.saved, old.fs] := by
  have hin {id : Id} (hid : old.has id) : id ∈ [old.real, old.effective, old.saved, old.fs] := by
    rcases has_iff.mp hid with rfl | rfl | rfl <;> simp
  intro id hid
  simp only [List.mem_cons, List.not_mem_nil, or_false] at hid
  rcases hid with rfl | rfl | rfl | rfl
  · exact hin h.real
  · exact hin h.effective
  · exact hin h.saved
  · rcases h.fs with hfs | hfs
    · exact hin hfs
    · simp [hfs]

/-- From credentials in order, the capability sets stay in order through every run
in which `capset` keeps what is ambient, and the next call keeps them in order
exactly if it does so too. Through every run whatsoever, from any start, effective
capabilities that are permitted stay so, the permitted ones never gain a
capability, and a process without a zero real, effective or saved user id keeps
to the ids it had. -/
theorem credentials_never_grow {c₀ c : Cred} {calls : List Call} (h₀ : c₀.CapsOk)
    (hrun : Run.Guarded (fun c call => some (Cred.step c call)) Cred.KeepsAmbient c₀ calls c) :
    (c.CapsOk ∧ ∀ call, (c.step call).CapsOk ↔ c.KeepsAmbient call) ∧
      ∀ (s : Cred) (calls' : List Call), let c' := calls'.foldl Cred.step s
        (CapWords.Sub s.capEffective s.capPermitted →
            CapWords.Sub c'.capEffective c'.capPermitted) ∧
          CapWords.Sub c'.capPermitted s.capPermitted ∧
          (s.Unprivileged → (∀ id ∈ [c'.user.real, c'.user.effective, c'.user.saved, c'.user.fs],
              id ∈ [s.user.real, s.user.effective, s.user.saved, s.user.fs]) ∧
            ∀ id ∈ [c'.group.real, c'.group.effective, c'.group.saved, c'.group.fs],
              id ∈ [s.group.real, s.group.effective, s.group.saved, s.group.fs]) := by
  have hok : c.CapsOk := by
    refine hrun.inv (I := Cred.CapsOk) (fun hs hC hf => ?_) h₀
    cases hf
    exact (hs.step_iff _).mpr hC
  refine ⟨⟨hok, hok.step_iff⟩, fun s calls' => ?_⟩
  have hcaps := s.caps_run calls'
  refine ⟨hcaps.1, hcaps.2, fun hpriv => ?_⟩
  have hids := confined_run hpriv calls'
  exact ⟨hids.1.old, hids.2.old⟩

theorem initRoot_capsOk (pid : Int) : (initRoot pid).CapsOk :=
  ⟨.refl _, CapWords.noCaps_sub _, CapWords.noCaps_sub _⟩

/-- `capset` with the permitted capabilities of the superuser, or without any, and
the first capability inheritable. -/
def dropCall (keep : Bool) : Call :=
  .capset (some ⟨0x20080522, 0⟩) (some fun i =>
    let all := if i.val = 0 then 0xffffffff else 0x1ff
    ⟨if keep then all else 0, if keep then all else 0, if i.val = 0 then 1 else 0⟩)

/-- A superuser who makes a capability ambient and then an ordinary user. -/
theorem credentials_never_grow_dropped :
    (([dropCall true, .prCapAmbient 2 0 0 0, .setuid 1000].foldl Cred.step
      (initRoot 7)).CapsOk) := by
  have hrun : Run.Guarded (fun c call => some (step c call)) Cred.KeepsAmbient (initRoot 7)
      [dropCall true, .prCapAmbient 2 0 0 0, .setuid 1000]
      ([dropCall true, .prCapAmbient 2 0 0 0, .setuid 1000].foldl step (initRoot 7)) := by
    refine .cons ?_ rfl (.cons trivial rfl (.cons trivial rfl (.nil _)))
    exact fun words d _ => ⟨CapWords.noCaps_sub _, CapWords.noCaps_sub _⟩
  exact (credentials_never_grow (initRoot_capsOk 7) hrun).1.1

/-- The superuser makes a capability inheritable and ambient and drops all
permitted capabilities: it stays ambient. -/
theorem ambient_outlives_permitted :
    let c := [dropCall true, .prCapAmbient 2 0 0 0, dropCall false].foldl Cred.step (initRoot 7)
    (c.capAmbient 0).getLsbD 0 = true ∧ (c.capPermitted 0).getLsbD 0 = false := by
  decide

end F7ly.Proc.Credentials
