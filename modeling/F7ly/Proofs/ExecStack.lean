import F7ly.Lib.PushDown
import F7ly.Lib.Run
import F7ly.Proc.ExecStack

/-!
# The stack a new program finds

Every push goes below the last one and none goes into the guard page: a string
is checked against the bottom before it is copied, and the pushes that are not
checked are smaller than the page below the stack, which `copy_out` cannot
write. A size that makes `sp` wrap would reach above the stack, which `copy_out`
cannot write either.

The strings are put on multiples of 16 and the arrays of words below them are
not, so whether `sp` ends on one depends on the number of words.
-/

namespace F7ly.Proc.ExecStack

open Bytes PushDown List

variable {L : Layout} {s s' : Stack} {sp n : Nat} {data : List UInt8} {str : CString}
  {ws : List (BitVec 64)} {pieces : List (Nat × List UInt8)}

def Layout.Has (L : Layout) (s : Stack) (pieces : List (Nat × List UInt8)) : Prop :=
  Pushed L.stackStart L.stackEnd s.mem s.sp pieces

theorem store_eq_ok (h : L.store s sp data = .ok s') :
    s' = ⟨sp, ByteFile.overlay s.mem sp data⟩ ∧ ∀ i < data.length, L.writable (sp + i) = true := by
  unfold Layout.store Layout.copyOut at h
  split at h
  · cases h
  next mem hmem =>
  split at hmem
  · next hall =>
      cases h
      cases hmem
      refine ⟨rfl, fun i hi => ?_⟩
      exact all_eq_true.mp hall i (mem_range.mpr hi)
  · cases hmem

theorem Layout.lt_stackEnd (L : Layout) {a : Nat} (h : L.writable a = true) : a < L.stackEnd := by
  by_contra hge
  rw [L.above a (Nat.le_of_not_lt hge)] at h
  cases h

theorem Layout.stackStart_le (L : Layout) {a : Nat} (h : L.writable a = true) (ha : L.guard ≤ a) :
    L.stackStart ≤ a := by
  by_contra hlt
  rw [L.closed a ha (Nat.lt_of_not_le hlt)] at h
  cases h

theorem Layout.stackEnd_le (L : Layout) : L.stackEnd + 4096 ≤ 2 ^ 64 := L.top

theorem sub64_of_le (h : n ≤ sp) (hsp : sp < 2 ^ 64) : sub64 sp n = sp - n := by
  unfold sub64
  omega

theorem sub64_of_lt (h : sp < n) : sub64 sp n = sp + 2 ^ 64 - n := by
  unfold sub64
  omega

theorem pushString_ok {e : Errno} (h : L.Has s pieces) (hok : L.pushString e s str = .ok s') :
    L.Has s' ((s'.sp, str.bytes ++ [0]) :: pieces) ∧ s'.sp % 16 = 0 := by
  unfold Layout.pushString at hok
  dsimp only at hok
  split at hok
  · cases hok
  next hlow =>
  obtain ⟨rfl, hwrite⟩ := store_eq_ok hok
  have hlen : (str.bytes ++ [0]).length = str.bytes.length + 1 := by simp
  have hend := L.stackEnd_le
  have hhigh := h.high
  rw [hlen] at hwrite
  have hlast := L.lt_stackEnd (hwrite str.bytes.length (Nat.lt_succ_self _))
  -- a size that wraps ends above the stack
  have hfit : str.bytes.length + 1 ≤ s.sp := by
    by_contra hwrap
    rw [sub64_of_lt (by omega)] at hlast
    omega
  rw [sub64_of_le hfit (by omega)] at hlow ⊢
  refine ⟨h.push (by omega) ?_, ?_⟩
  · omega
  · dsimp only
    omega

theorem pushWords_ok {checked : Bool} (h : L.Has s pieces) (hpos : 0 < ws.length)
    (hsmall : 8 * ws.length < 2 ^ 64) (hroom : checked ∨ 8 * ws.length ≤ pgSize)
    (hok : L.pushWords checked s ws = .ok s') :
    L.Has s' ((s'.sp, wordsBytes ws) :: pieces) ∧ s'.sp + 8 * ws.length = s.sp := by
  unfold Layout.pushWords at hok
  dsimp only at hok
  split at hok
  · cases hok
  next hlow =>
  obtain ⟨rfl, hwrite⟩ := store_eq_ok hok
  have hlen := length_wordsBytes ws
  have hend := L.stackEnd_le
  have hhigh := h.high
  have hstart := h.low
  have hlast := L.lt_stackEnd (hwrite (8 * ws.length - 1) (by omega))
  have hfit : 8 * ws.length ≤ s.sp := by
    by_contra hwrap
    rw [sub64_of_lt (by omega)] at hlast
    omega
  have hfirst := hwrite 0 (by omega)
  rw [sub64_of_le hfit (by omega)] at hlow hfirst ⊢
  have hbottom : L.stackStart ≤ s.sp - 8 * ws.length := by
    rcases hroom with hchecked | hroom
    · simpa [hchecked] using hlow
    · refine L.stackStart_le hfirst ?_
      unfold Layout.stackStart at hstart
      omega
  refine ⟨h.push hbottom ?_, ?_⟩
  · omega
  · dsimp only
    omega

def piece (ptr : Nat) (str : CString) : Nat × List UInt8 := (ptr, str.bytes ++ [0])

theorem pushStrings_ok {strs : List CString} {ptrs ptrs' : List Nat} (h : L.Has s pieces)
    (hok : L.pushStrings strs ptrs s = .ok (s', ptrs')) (hle : ptrs.length ≤ maxArg) :
    ∃ new, ptrs' = ptrs ++ new ∧ new.length = strs.length ∧ ptrs'.length ≤ maxArg ∧
      L.Has s' ((zipWith piece new strs).reverse ++ pieces) := by
  induction strs generalizing ptrs s pieces with
  | nil =>
      cases hok
      exact ⟨[], (append_nil _).symm, rfl, hle, h⟩
  | cons str strs ih =>
      rw [Layout.pushStrings] at hok
      split at hok
      · cases hok
      next hroom =>
      obtain ⟨s₁, hpush, hok⟩ := Run.bind_eq_ok.mp hok
      obtain ⟨h₁, -⟩ := pushString_ok h hpush
      obtain ⟨new, hptrs, hlen, hle', hnew⟩ :=
        ih h₁ hok (by rw [length_append, length_singleton]; omega)
      refine ⟨s₁.sp :: new, ?_, by rw [length_cons, hlen, length_cons], hle', ?_⟩
      · rw [hptrs, append_assoc]
        rfl
      · rw [zipWith_cons_cons, reverse_cons, append_assoc]
        exact hnew

def Copied (mem : Nat → UInt8) (ptr : Nat) (str : CString) : Prop :=
  readAt mem ptr (str.bytes.length + 1) = str.bytes ++ [0]

/-- The words from `sp` on. -/
def stackWords (argv envp : List Nat) (entries : List (BitVec 64 × BitVec 64)) : List (BitVec 64) :=
  [.ofNat 64 argv.length] ++ pointers argv ++ pointers envp ++ auxvWords entries

/-- Where things lie, from the bottom up: the words, the two names, the
arguments, the environment and the random bytes. -/
def regions (i : Input) (sp words : Nat) (argv envp : List Nat)
    (platform execfn random : Nat) : List (Nat × Nat) :=
  [(sp, 8 * words), (platform, i.platform.bytes.length + 1), (execfn, i.execfn.bytes.length + 1)] ++
    (zipWith (fun ptr str => (ptr, str.bytes.length + 1)) argv i.args).reverse ++
    (zipWith (fun ptr str => (ptr, str.bytes.length + 1)) envp i.envs).reverse ++
    [(random, 32)]

/-- The stack as a new program expects it, but for its alignment. -/
structure Initial (L : Layout) (i : Input) (r : Result) (argv envp : List Nat)
    (platform execfn random : Nat) (entries : List (BitVec 64 × BitVec 64)) : Prop where
  aux : entries = i.aux.entries (.ofNat 64 random) (.ofNat 64 execfn) (.ofNat 64 platform)
  /-- AT_NULL is the first of its kind. -/
  auxv : ∀ e ∈ entries, e.1 ≠ 0
  words : readAt r.mem r.sp (8 * (stackWords argv envp entries).length) =
    wordsBytes (stackWords argv envp entries)
  registers : r.argvPos = r.sp + 8 ∧ r.envpPos = r.argvPos + 8 * (argv.length + 1)
  args : List.Forall₂ (Copied r.mem) argv i.args
  envs : List.Forall₂ (Copied r.mem) envp i.envs
  names : Copied r.mem platform i.platform ∧ Copied r.mem execfn i.execfn
  randomBytes : readAt r.mem random 32 = wordsBytes randomWords
  apart : (regions i r.sp (stackWords argv envp entries).length argv envp platform execfn
    random).Pairwise fun p q => p.1 + p.2 ≤ q.1
  inside : ∀ p ∈ regions i r.sp (stackWords argv envp entries).length argv envp platform execfn
    random, L.stackStart ≤ p.1 ∧ p.1 + p.2 ≤ L.stackEnd

theorem pushRandom_ok (hok : L.pushRandom = .ok s) : L.Has s [(s.sp, wordsBytes randomWords)] := by
  unfold Layout.pushRandom at hok
  dsimp only at hok
  split at hok
  · cases hok
  · obtain ⟨rfl, -⟩ := store_eq_ok hok
    have hend := L.stackEnd_le
    have hsp : sub64 (sub64 L.stackEnd 8) 32 = L.stackEnd - 40 := by
      have : 1044480 ≤ L.stackEnd := by
        unfold Layout.stackEnd stackPgnum pgSize
        omega
      rw [show sub64 L.stackEnd 8 = L.stackEnd - 8 from sub64_of_le (by omega) (by omega),
        sub64_of_le (by omega) (by omega)]
      omega
    have hbottom : L.stackStart + 40 ≤ L.stackEnd := by
      unfold Layout.stackStart Layout.stackEnd stackPgnum pgSize
      omega
    have hempty : L.Has ⟨L.stackEnd, fun _ => 0⟩ [] :=
      ⟨Nat.le_of_add_right_le hbottom, Nat.le_refl _, .nil, nofun, nofun⟩
    have hlen : (wordsBytes randomWords).length = 32 := length_wordsBytes _
    rw [hsp]
    exact hempty.push (by omega) (show _ ≤ L.stackEnd by omega)

theorem length_auxvWords (v : AuxValues) (a b c : BitVec 64) :
    (auxvWords (v.entries a b c)).length = 76 := rfl

theorem length_pointers (ptrs : List Nat) : (pointers ptrs).length = ptrs.length + 1 := by
  simp [pointers]

theorem wordsBytes_append (ws ws' : List (BitVec 64)) :
    wordsBytes (ws ++ ws') = wordsBytes ws ++ wordsBytes ws' := by
  simp [wordsBytes]

def allPieces (i : Input) (sp : Nat) (argv envp : List Nat) (platform execfn random : Nat)
    (entries : List (BitVec 64 × BitVec 64)) : List (Nat × List UInt8) :=
  (sp, wordsBytes (stackWords argv envp entries)) :: piece platform i.platform ::
    piece execfn i.execfn :: ((zipWith piece argv i.args).reverse ++
      ((zipWith piece envp i.envs).reverse ++ [(random, wordsBytes randomWords)]))

theorem build_ok {i : Input} {r : Result} (hok : L.build i = .ok r) :
    ∃ argv envp platform execfn random, argv.length = i.args.length ∧ envp.length = i.envs.length ∧
      Pushed L.stackStart L.stackEnd r.mem r.sp (allPieces i r.sp argv envp platform execfn random
        (i.aux.entries (.ofNat 64 random) (.ofNat 64 execfn) (.ofNat 64 platform))) ∧
      r.argvPos = r.sp + 8 ∧ r.envpPos = r.argvPos + 8 * (argv.length + 1) ∧
      (r.sp + 8 * (argv.length + envp.length + 3)) % 16 = 0 := by
  obtain ⟨top, htop, hok⟩ := Run.bind_eq_ok.mp hok
  obtain ⟨⟨s₁, envp⟩, henvs, hok⟩ := Run.bind_eq_ok.mp hok
  obtain ⟨⟨s₂, argv⟩, hargs, hok⟩ := Run.bind_eq_ok.mp hok
  obtain ⟨execfn, hexecfn, hok⟩ := Run.bind_eq_ok.mp hok
  obtain ⟨platform, hplatform, hok⟩ := Run.bind_eq_ok.mp hok
  obtain ⟨aux, haux, hok⟩ := Run.bind_eq_ok.mp hok
  obtain ⟨e, he, hok⟩ := Run.bind_eq_ok.mp hok
  obtain ⟨a, ha, hok⟩ := Run.bind_eq_ok.mp hok
  obtain ⟨s, hs, hok⟩ := Run.bind_eq_ok.mp hok
  cases hok
  have h := pushRandom_ok htop
  obtain ⟨envp, rfl, henvlen, henvmax, h⟩ := pushStrings_ok h henvs (Nat.zero_le _)
  obtain ⟨argv, rfl, harglen, hargmax, h⟩ := pushStrings_ok h hargs (Nat.zero_le _)
  obtain ⟨h, -⟩ := pushString_ok h hexecfn
  obtain ⟨h, h16⟩ := pushString_ok h hplatform
  unfold maxArg at henvmax hargmax
  have hauxlen := length_auxvWords i.aux (.ofNat 64 top.sp) (.ofNat 64 execfn.sp)
    (.ofNat 64 platform.sp)
  have hplen := length_pointers envp
  have hplen' := length_pointers argv
  obtain ⟨h, hauxsp⟩ := pushWords_ok h (by omega) (by omega)
    (.inr (by unfold pgSize; omega)) haux
  obtain ⟨h, hesp⟩ := pushWords_ok h (by omega) (by omega) (.inl rfl) he
  obtain ⟨h, hasp⟩ := pushWords_ok h (by omega) (by omega) (.inl rfl) ha
  obtain ⟨h, hssp⟩ := pushWords_ok h (by simp) (by simp) (.inr (by simp [pgSize])) hs
  -- the four arrays touch
  have hjoin := ((h.join (by rw [length_wordsBytes]; omega)).join (by
    rw [length_append, length_wordsBytes, length_wordsBytes]; omega)).join (by
    rw [length_append, length_append, length_wordsBytes, length_wordsBytes, length_wordsBytes]
    omega)
  refine ⟨argv, envp, platform.sp, execfn.sp, top.sp, harglen, henvlen, ?_, ?_, ?_, ?_⟩
  · unfold allPieces stackWords
    rw [wordsBytes_append, wordsBytes_append, wordsBytes_append]
    exact hjoin
  · exact hssp.symm
  · show e.sp = a.sp + _
    omega
  · show (s.sp + _) % 16 = 0
    have : s.sp + 8 * (argv.length + envp.length + 3) + 608 = platform.sp := by
      rw [length_singleton] at hssp
      omega
    omega

theorem forall₂_of_zipWith {P : Nat → CString → Prop} {ptrs : List Nat} {strs : List CString}
    (hlen : ptrs.length = strs.length)
    (h : ∀ ptr str, piece ptr str ∈ zipWith piece ptrs strs → P ptr str) :
    List.Forall₂ P ptrs strs := by
  induction ptrs generalizing strs with
  | nil =>
      rw [eq_nil_of_length_eq_zero hlen.symm]
      exact .nil
  | cons ptr ptrs ih =>
      cases strs with
      | nil => cases hlen
      | cons str strs =>
          refine .cons (h ptr str (.head _)) (ih (Nat.succ.inj hlen) fun p q hpq => ?_)
          exact h p q (.tail _ hpq)

theorem copied_of_read {mem : Nat → UInt8} {ptr : Nat} {str : CString}
    (h : readAt mem (piece ptr str).1 (piece ptr str).2.length = (piece ptr str).2) :
    Copied mem ptr str := by
  have hlen : (piece ptr str).2.length = str.bytes.length + 1 := by simp [piece]
  rw [hlen] at h
  exact h

theorem regions_eq (i : Input) (sp : Nat) (argv envp : List Nat) (platform execfn random : Nat)
    (entries : List (BitVec 64 × BitVec 64)) :
    (allPieces i sp argv envp platform execfn random entries).map (fun p => (p.1, p.2.length)) =
      regions i sp (stackWords argv envp entries).length argv envp platform execfn random := by
  have hrandom : (wordsBytes randomWords).length = 32 := length_wordsBytes _
  simp [allPieces, regions, piece, hrandom]

theorem entries_ne_null (v : AuxValues) (a b c : BitVec 64) : ∀ e ∈ v.entries a b c, e.1 ≠ 0 := by
  simp [AuxValues.entries]

/-- The stack a successful `execve` leaves is as a program expects it, and `sp`
is a multiple of 16 exactly if the arguments and the environment together are
an odd number of strings. -/
theorem initial_stack {i : Input} {r : Result} (hok : L.build i = .ok r) :
    (∃ argv envp platform execfn random entries,
      Initial L i r argv envp platform execfn random entries) ∧
      (r.sp % 16 = 0 ↔ (i.args.length + i.envs.length) % 2 = 1) := by
  obtain ⟨argv, envp, platform, execfn, random, hargs, henvs, h, hargv, henvp, h16⟩ := build_ok hok
  generalize hentries : i.aux.entries (.ofNat 64 random) (.ofNat 64 execfn)
    (.ofNat 64 platform) = entries at h
  refine ⟨⟨argv, envp, platform, execfn, random, entries, ?_⟩, by omega⟩
  have hregions := regions_eq i r.sp argv envp platform execfn random entries
  have hread := h.read
  simp only [allPieces, mem_cons, mem_append, mem_reverse] at hread
  refine ⟨hentries.symm, hentries ▸ entries_ne_null _ _ _ _, ?_, ⟨hargv, henvp⟩, ?_, ?_, ⟨?_, ?_⟩,
    ?_, ?_, ?_⟩
  · have := hread _ (.inl rfl)
    rwa [length_wordsBytes] at this
  · exact forall₂_of_zipWith hargs fun ptr str hp =>
      copied_of_read (hread _ (.inr (.inr (.inr (.inl hp)))))
  · exact forall₂_of_zipWith henvs fun ptr str hp =>
      copied_of_read (hread _ (.inr (.inr (.inr (.inr (.inl hp))))))
  · exact copied_of_read (hread _ (.inr (.inl rfl)))
  · exact copied_of_read (hread _ (.inr (.inr (.inl rfl))))
  · exact hread (random, wordsBytes randomWords) (by simp)
  · rw [← hregions, pairwise_map]
    exact h.order
  · intro p hp
    rw [← hregions] at hp
    obtain ⟨q, hq, rfl⟩ := mem_map.mp hp
    have := h.within q hq
    exact ⟨Nat.le_trans h.low this.1, this.2⟩

/-- A stack above an image that ends at `0x20000`. -/
def lowStack : Layout where
  guard := 0x20000
  writable a := 0x21000 ≤ a && a < 0x120000
  aligned := by decide
  top := by decide
  closed a h h' := by simp [pgSize] at *; omega
  above a h := by simp [stackPgnum, pgSize] at *; omega

def letter (c : UInt8) (h : 0 ≠ c) : CString := ⟨[c], by simpa using h, by simp⟩

def callWith (args envs : List CString) : Input where
  path := letter 97 (by decide)
  shebang := none
  argv := args
  envs := envs
  execfn := letter 97 (by decide)
  platform := letter 114 (by decide)
  aux := ⟨0, 0, 0, 0, 0, 0, 0, 0, 0, 0⟩

/-- The letters from a. -/
def letters (n : Nat) : List CString :=
  [letter 97 (by decide), letter 98 (by decide), letter 99 (by decide)].take n

theorem initial_stack_several : ∃ r, lowStack.build (callWith (letters 3) (letters 2)) = .ok r ∧
    (∃ argv envp platform execfn random entries, Initial lowStack (callWith (letters 3) (letters 2))
      r argv envp platform execfn random entries) ∧ r.sp % 16 = 0 := by
  obtain ⟨r, hr, -⟩ := Run.map_eq_ok.mp (show
    (lowStack.build (callWith (letters 3) (letters 2))).map (·.sp) = .ok 0x11fcd0 by decide +kernel)
  exact ⟨r, hr, (initial_stack hr).1, (initial_stack hr).2.mpr rfl⟩

theorem misaligned_stack :
    ∃ r, lowStack.build (callWith (letters 1) (letters 1)) = .ok r ∧ r.sp % 16 = 8 := by
  obtain ⟨r, hr, h⟩ := Run.map_eq_ok.mp (show
    (lowStack.build (callWith (letters 1) (letters 1))).map (·.sp) = .ok 0x11fd18 by decide +kernel)
  exact ⟨r, hr, by rw [h]⟩

end F7ly.Proc.ExecStack
