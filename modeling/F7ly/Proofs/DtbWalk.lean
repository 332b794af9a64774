import F7ly.Devs.Dtb

/-!
# Walking a device tree

What `FdtWalker::next` returns, for any bytes. The tokens of a structure block are
read off its bytes (`TokenAt`), each at the next multiple of four, and a `Trace` is
a run of tokens with the events and depths that their nesting gives. A walker that
may read the structure and strings blocks only follows a trace and never reads
another byte. Every token is at least four bytes, so it stops.
-/

namespace F7ly.Devs

variable {mem : Nat → UInt8} {read : Nat → Option UInt8} {c : FdtCursor}

def FdtCursor.Block (c : FdtCursor) (a : Nat) : Prop :=
  c.structBase ≤ a ∧ a < c.structEnd ∨ c.stringsBase ≤ a ∧ a < c.stringsEnd

instance (a : Nat) : Decidable (c.Block a) := inferInstanceAs (Decidable (_ ∨ _))

def blocks (mem : Nat → UInt8) (c : FdtCursor) (a : Nat) : Option UInt8 :=
  if c.Block a then some (mem a) else none

/-- The blocks as `load_fdt_cursor` leaves them, in a blob that ends below `2 ^ 64`. -/
structure FdtCursor.Ok (c : FdtCursor) : Prop where
  structEnd_eq : c.structEnd = c.structBase + c.structSize
  structEnd_lt : c.structEnd < 2 ^ 64
  stringsEnd_eq : c.stringsEnd = c.stringsBase + c.stringsSize

theorem loadFdtCursor_ok {dtbAddr : Nat} (h : loadFdtCursor mem dtbAddr = .ok c)
    (hspace : dtbAddr + c.totalSize < 2 ^ 64) : c.Ok := by
  unfold loadFdtCursor at h
  dsimp only at h
  repeat' split at h
  all_goals cases h
  next hstruct _ _ =>
    rw [not_or, Bool.not_eq_true, Bool.not_eq_false', blobRangeValid, Bool.and_eq_true,
      decide_eq_true_eq, decide_eq_true_eq] at hstruct
    refine ⟨rfl, ?_, rfl⟩
    dsimp only at hspace ⊢
    omega

/-- `read` has the bytes of both blocks. -/
def Sees (read : Nat → Option UInt8) (mem : Nat → UInt8) (c : FdtCursor) : Prop :=
  ∀ a, c.Block a → read a = some (mem a)

theorem blocks_sees : Sees (blocks mem c) mem c := fun _ ha => if_pos ha

theorem readBe32_eq (p : Nat) (h : ∀ a, p ≤ a → a < p + 4 → read a = some (mem a)) :
    readBe32 read p = some (be32 mem p) := by
  rw [readBe32, h p (by omega) (by omega), h (p + 1) (by omega) (by omega),
    h (p + 2) (by omega) (by omega), h (p + 3) (by omega) (by omega)]
  rfl

theorem scanNul_eq {n p : Nat} (h : ∀ a, p ≤ a → a < p + n → read a = some (mem a)) :
    scanNul read n p = some none ∨
    ∃ e, scanNul read n p = some (some e) ∧ nameEnd read n p = some e ∧
      p ≤ e ∧ e < p + n ∧ mem e = 0 := by
  induction n generalizing p with
  | zero => exact .inl rfl
  | succ n ih =>
      rw [scanNul, nameEnd, h p (by omega) (by omega)]
      dsimp only
      by_cases hp : mem p = 0
      · exact .inr ⟨p, by rw [if_pos hp], by rw [if_neg (not_not.mpr hp)], by omega, by omega, hp⟩
      · rw [if_neg hp, if_pos hp]
        rcases ih (p := p + 1) fun a hlo hhi => h a (by omega) (by omega) with hn | ⟨e, he⟩
        · exact .inl hn
        · exact .inr ⟨e, he.1, he.2.1, by omega, by omega, he.2.2.2.2⟩

theorem boundedString_eq (start stop : Nat)
    (h : ∀ a, start ≤ a → a < stop → read a = some (mem a)) :
    boundedString read start stop = some none ∨
    ∃ e, boundedString read start stop = some (some start) ∧
      nameEnd read (stop - start) start = some e ∧ start ≤ e ∧ e < stop ∧ mem e = 0 := by
  rw [boundedString]
  by_cases hle : start ≥ stop
  · exact .inl (by rw [if_pos hle])
  · rw [if_neg hle]
    rcases scanNul_eq (n := stop - start) fun a hlo hhi => h a hlo (by omega) with
      hn | ⟨e, hscan, hend, hlo, hhi, hzero⟩
    · exact .inl (by rw [hn])
    · exact .inr ⟨e, by rw [hscan], hend, hlo, by omega, hzero⟩

inductive Tok where
  | nop
  | beginNode (name : Nat)
  | endNode
  | prop (name value length : Nat)
  | fin

/-- The token at `p` and where it ends. A node's name is terminated in the structure
block, a property's in the strings block, and its value is in the structure block. -/
inductive TokenAt (mem : Nat → UInt8) (c : FdtCursor) : Nat → Tok → Nat → Prop where
  | nop {p : Nat} : p + 4 ≤ c.structEnd → be32 mem p = fdtNop → TokenAt mem c p .nop (p + 4)
  | fin {p : Nat} : p + 4 ≤ c.structEnd → be32 mem p = fdtEnd → TokenAt mem c p .fin (p + 4)
  | endNode {p : Nat} : p + 4 ≤ c.structEnd → be32 mem p = fdtEndNode →
      TokenAt mem c p .endNode (p + 4)
  | beginNode {p e : Nat} : be32 mem p = fdtBeginNode → p + 4 ≤ e → e < c.structEnd →
      mem e = 0 → TokenAt mem c p (.beginNode (p + 4)) (e + 1)
  | prop {p z : Nat} : be32 mem p = fdtProp →
      p + 12 + align4 (be32 mem (p + 4)) ≤ c.structEnd →
      c.stringsBase + be32 mem (p + 8) ≤ z → z < c.stringsEnd → mem z = 0 →
      TokenAt mem c p (.prop (c.stringsBase + be32 mem (p + 8)) (p + 12) (be32 mem (p + 4)))
        (p + 12 + align4 (be32 mem (p + 4)))

def NextToken (mem : Nat → UInt8) (c : FdtCursor) (p : Nat) (t : Tok) (q : Nat) : Prop :=
  p ≤ align4 p ∧ TokenAt mem c (align4 p) t q

/-- Tokens from position `p` and depth `d` on, with the events that they give. -/
inductive Trace (mem : Nat → UInt8) (c : FdtCursor) :
    Nat → Nat → List Tok → List FdtEvent → Nat → Nat → Prop where
  | nil {p d : Nat} : Trace mem c p d [] [] p d
  | nop {p q d r d' : Nat} {toks : List Tok} {es : List FdtEvent} :
      NextToken mem c p .nop q → Trace mem c q d toks es r d' →
      Trace mem c p d (.nop :: toks) es r d'
  | beginNode {p q d r d' name : Nat} {toks : List Tok} {es : List FdtEvent} :
      NextToken mem c p (.beginNode name) q → Trace mem c q (d + 1) toks es r d' →
      Trace mem c p d (.beginNode name :: toks) (.beginNode d name :: es) r d'
  | endNode {p q d r d' : Nat} {toks : List Tok} {es : List FdtEvent} :
      NextToken mem c p .endNode q → Trace mem c q d toks es r d' →
      Trace mem c p (d + 1) (.endNode :: toks) (.endNode d :: es) r d'
  | prop {p q d r d' name value length : Nat} {toks : List Tok} {es : List FdtEvent} :
      NextToken mem c p (.prop name value length) q →
      Trace mem c q (d + 1) toks es r d' →
      Trace mem c p (d + 1) (.prop name value length :: toks)
        (.property d name value length :: es) r d'

theorem Trace.append {p d q d₁ r d₂ : Nat} {toks toks' : List Tok} {es es' : List FdtEvent}
    (h : Trace mem c p d toks es q d₁) (h' : Trace mem c q d₁ toks' es' r d₂) :
    Trace mem c p d (toks ++ toks') (es ++ es') r d₂ := by
  induction h with
  | nil => exact h'
  | nop ht _ ih => exact .nop ht (ih h')
  | beginNode ht _ ih => exact .beginNode ht (ih h')
  | endNode ht _ ih => exact .endNode ht (ih h')
  | prop ht _ ih => exact .prop ht (ih h')

theorem le_align4 {x : Nat} (h : x < 2 ^ 32) : x ≤ align4 x := by
  unfold align4
  omega

theorem be32_lt (mem : Nat → UInt8) (p : Nat) : be32 mem p < 2 ^ 32 := by
  have h₀ := UInt8.toNat_lt (mem p)
  have h₁ := UInt8.toNat_lt (mem (p + 1))
  have h₂ := UInt8.toNat_lt (mem (p + 2))
  have h₃ := UInt8.toNat_lt (mem (p + 3))
  unfold be32
  omega

theorem TokenAt.bounds {p q : Nat} {t : Tok} (h : TokenAt mem c p t q) :
    p + 4 ≤ q ∧ q ≤ c.structEnd := by
  cases h with
  | nop hp _ => exact ⟨Nat.le_refl _, hp⟩
  | fin hp _ => exact ⟨Nat.le_refl _, hp⟩
  | endNode hp _ => exact ⟨Nat.le_refl _, hp⟩
  | beginNode _ hlo hhi _ => omega
  | prop _ hfit _ _ _ => omega

/-- A walker that has not stopped. -/
structure FdtWalker.Live (c : FdtCursor) (w : FdtWalker) : Prop where
  valid : w.valid = true
  finished : w.finished = false
  base_le : c.structBase ≤ w.position
  le_end : w.position ≤ c.structEnd

def FdtWalker.Stopped (w : FdtWalker) : Prop := w.valid = false ∨ w.finished = true

/-- What a call that returns an event does. -/
structure Gives (mem : Nat → UInt8) (c : FdtCursor) (w : FdtWalker) (e : FdtEvent)
    (w' : FdtWalker) : Prop where
  live : w'.Live c
  moves : w.position + 4 ≤ w'.position
  trace : ∃ toks, Trace mem c w.position w.depth toks [e] w'.position w'.depth

/-- What a call that returns `false` does. -/
structure Ends (mem : Nat → UInt8) (c : FdtCursor) (w w' : FdtWalker) : Prop where
  stopped : w'.Stopped
  depth : w'.depth = w.depth
  fin : w'.ok = true → w'.depth = 0 ∧ ∃ toks p,
    Trace mem c w.position w.depth toks [] p w.depth ∧ NextToken mem c p .fin w'.position

variable {w : FdtWalker}

theorem ends_fail {r : Option (FdtWalker × Option FdtEvent)} (p : Nat)
    (hr : r = some (FdtWalker.fail { w with position := p })) :
    ∃ w', r = some (w', none) ∧ Ends mem c w w' :=
  ⟨_, hr, .inl rfl, rfl, fun hok => by simp [FdtWalker.ok] at hok⟩

/-- A walker past the token word at `align4 w.position`. -/
structure FdtWalker.Past (c : FdtCursor) (w w' : FdtWalker) : Prop where
  live : w.Live c
  same : w' = { w with position := align4 w.position + 4 }
  aligned : w.position ≤ align4 w.position
  room : align4 w.position + 4 ≤ c.structEnd

theorem nextBegin_spec (hsees : Sees read mem c) {w₁ : FdtWalker} (h : w.Past c w₁)
    (htok : be32 mem (align4 w.position) = fdtBeginNode) :
    (∃ w' e, nextBegin read c w₁ = some (w', some e) ∧ Gives mem c w e w') ∨
    ∃ w', nextBegin read c w₁ = some (w', none) ∧ Ends mem c w w' := by
  obtain ⟨hlive, rfl, haligned, hroom⟩ := h
  have hbase := hlive.base_le
  rw [nextBegin]
  rcases boundedString_eq (align4 w.position + 4) c.structEnd
    (fun a hlo hhi => hsees a (.inl ⟨by omega, hhi⟩)) with hnone | ⟨e, hstr, hend, hlo, hhi, hz⟩
  · exact .inr (ends_fail (align4 w.position + 4) (by rw [hnone]))
  · refine .inl ⟨_, _, by rw [hstr]; rw [hend], ⟨?_, ?_, ?_⟩⟩
    · exact ⟨hlive.valid, hlive.finished, by dsimp only; omega, by dsimp only; omega⟩
    · dsimp only
      omega
    · exact ⟨_, .beginNode ⟨haligned, .beginNode htok hlo hhi hz⟩ .nil⟩

theorem nextProp_spec (hsees : Sees read mem c) {w₁ : FdtWalker}
    (h : w.Past c w₁) (htok : be32 mem (align4 w.position) = fdtProp)
    (hfit : align4 w.position + 12 ≤ c.structEnd) :
    (∃ w' e, nextProp read c w₁ = some (w', some e) ∧ Gives mem c w e w') ∨
    ∃ w', nextProp read c w₁ = some (w', none) ∧ Ends mem c w w' := by
  obtain ⟨hlive, rfl, haligned, hroom⟩ := h
  have hbase := hlive.base_le
  have hlen := readBe32_eq (align4 w.position + 4)
    fun a hlo hhi => hsees a (.inl ⟨by omega, by omega⟩)
  have hoff := readBe32_eq (align4 w.position + 8)
    fun a hlo hhi => hsees a (.inl ⟨by omega, by omega⟩)
  rw [nextProp]
  rw [hlen, hoff]
  dsimp only
  by_cases hpad : align4 (be32 mem (align4 w.position + 4)) < be32 mem (align4 w.position + 4) ∨
      align4 (be32 mem (align4 w.position + 4)) > c.structEnd - (align4 w.position + 4 + 8)
  · exact .inr (ends_fail (align4 w.position + 4 + 8) (by rw [if_pos hpad]))
  · rw [if_neg hpad, propertyName]
    by_cases hname : be32 mem (align4 w.position + 8) ≥ c.stringsSize
    · exact .inr (ends_fail (align4 w.position + 4 + 8) (by rw [if_pos hname]))
    · rw [if_neg hname]
      rcases boundedString_eq (c.stringsBase + be32 mem (align4 w.position + 8))
        c.stringsEnd (fun a hlo hhi => hsees a (.inr ⟨by omega, hhi⟩)) with
        hnone | ⟨e, hstr, _, hlo, hhi, hz⟩
      · exact .inr (ends_fail (align4 w.position + 4 + 8) (by rw [hnone]))
      · rw [hstr]
        dsimp only
        by_cases hdepth : w.depth = 0
        · exact .inr (ends_fail (align4 w.position + 4 + 8) (by rw [if_pos hdepth]))
        · refine .inl ⟨_, _, by rw [if_neg hdepth], ⟨?_, ?_, ?_⟩⟩
          · exact ⟨hlive.valid, hlive.finished, by dsimp only; omega, by dsimp only; omega⟩
          · dsimp only
            omega
          · obtain ⟨d, hd⟩ : ∃ d, w.depth = d + 1 := ⟨w.depth - 1, by omega⟩
            refine ⟨[.prop (c.stringsBase + be32 mem (align4 w.position + 8))
              (align4 w.position + 12) (be32 mem (align4 w.position + 4))], ?_⟩
            rw [hd, Nat.add_sub_cancel]
            exact .prop ⟨haligned, .prop htok (by omega) hlo hhi hz⟩ .nil

theorem next_spec (hsees : Sees read mem c) {fuel : Nat}
    (hw : w.Live c) (hfuel : c.structEnd - w.position < fuel) :
    (∃ w' e, next read c fuel w = some (w', some e) ∧ Gives mem c w e w') ∨
    ∃ w', next read c fuel w = some (w', none) ∧ Ends mem c w w' := by
  induction fuel generalizing w with
  | zero => omega
  | succ fuel ih =>
      have hbase := hw.base_le
      rw [next, if_neg (by simp [hw.valid, hw.finished])]
      by_cases halign : align4 w.position < w.position ∨ align4 w.position > c.structEnd
      · exact .inr (ends_fail w.position (by rw [if_pos halign]))
      · rw [if_neg halign]
        by_cases hroom : c.structEnd - align4 w.position < 4
        · exact .inr (ends_fail (align4 w.position) (by rw [if_pos hroom]))
        · have htoken := readBe32_eq (align4 w.position)
            fun a hlo hhi => hsees a (.inl ⟨by omega, by omega⟩)
          have hpast : w.Past c { w with position := align4 w.position + 4 } :=
            ⟨hw, rfl, by omega, by omega⟩
          rw [if_neg hroom, htoken]
          dsimp only
          by_cases hnop : be32 mem (align4 w.position) = fdtNop
          · -- the next round gives the event, behind one more token
            rw [if_pos hnop]
            have htok : NextToken mem c w.position .nop (align4 w.position + 4) :=
              ⟨by omega, .nop (by omega) hnop⟩
            have hlive : FdtWalker.Live c { w with position := align4 w.position + 4 } :=
              ⟨hw.valid, hw.finished, by dsimp only; omega, by dsimp only; omega⟩
            rcases ih hlive (by dsimp only; omega) with
              ⟨w', e, hrun, hg⟩ | ⟨w', hrun, hend⟩
            · obtain ⟨toks, htrace⟩ := hg.trace
              have hmoves := hg.moves
              dsimp only at hmoves
              exact .inl ⟨w', e, hrun, hg.live, by omega, _, .nop htok htrace⟩
            · refine .inr ⟨w', hrun, hend.stopped, hend.depth, fun hok => ?_⟩
              obtain ⟨hzero, toks, p, htrace, hfin⟩ := hend.fin hok
              exact ⟨hzero, _, p, .nop htok htrace, hfin⟩
          · rw [if_neg hnop]
            by_cases hend : be32 mem (align4 w.position) = fdtEnd
            · rw [if_pos hend]
              refine .inr ⟨_, rfl, ?_, rfl, fun hok => ?_⟩
              · by_cases hzero : w.depth = 0
                · exact .inr (by simpa using hzero)
                · exact .inl (by simpa using hzero)
              · have hzero : w.depth = 0 := by simpa [FdtWalker.ok] using hok
                exact ⟨hzero, [], w.position, .nil, by omega, .fin (by omega) hend⟩
            · rw [if_neg hend]
              by_cases hbegin : be32 mem (align4 w.position) = fdtBeginNode
              · rw [if_pos hbegin]
                exact nextBegin_spec hsees hpast hbegin
              · rw [if_neg hbegin]
                by_cases hendNode : be32 mem (align4 w.position) = fdtEndNode
                · rw [if_pos hendNode]
                  by_cases hdepth : w.depth = 0
                  · exact .inr (ends_fail (align4 w.position + 4) (by rw [if_pos hdepth]))
                  · obtain ⟨d, hd⟩ : ∃ d, w.depth = d + 1 := ⟨w.depth - 1, by omega⟩
                    rw [if_neg hdepth]
                    refine .inl ⟨_, _, rfl, ⟨hw.valid, hw.finished, ?_, ?_⟩, ?_, ?_⟩
                    · dsimp only
                      omega
                    · dsimp only
                      omega
                    · dsimp only
                      omega
                    · refine ⟨[.endNode], ?_⟩
                      rw [hd, Nat.add_sub_cancel]
                      exact .endNode ⟨by omega, .endNode (by omega) hendNode⟩ .nil
                · rw [if_neg hendNode]
                  by_cases hprop : be32 mem (align4 w.position) ≠ fdtProp ∨
                      c.structEnd - (align4 w.position + 4) < 8
                  · exact .inr (ends_fail (align4 w.position + 4) (by rw [if_pos hprop]))
                  · rw [if_neg hprop]
                    rw [not_or, not_not] at hprop
                    exact nextProp_spec hsees hpast hprop.1 (by omega)

theorem next_stopped (h : w.Stopped) (fuel : Nat) : next read c (fuel + 1) w = some (w, none) := by
  rw [next, if_pos]
  rcases h with h | h
  · exact .inl (by simp [h])
  · exact .inr h

theorem calls_stopped (h : w.Stopped) (n : Nat) : calls read c n w = some ([], w) := by
  induction n with
  | zero => rfl
  | succ n ih =>
      rw [calls, next_stopped h]
      exact ih

/-- What `n` calls do. -/
structure Walked (mem : Nat → UInt8) (c : FdtCursor) (n : Nat) (w : FdtWalker)
    (events : List FdtEvent) (w' : FdtWalker) : Prop where
  few : 4 * events.length ≤ c.structEnd - w.position
  stops : c.structEnd - w.position < 4 * n → w'.Stopped
  trace : ∃ toks p, Trace mem c w.position w.depth toks events p w'.depth ∧
    (w'.ok = true → w'.depth = 0 ∧ NextToken mem c p .fin w'.position)

theorem calls_walked (hc : c.Ok) (hsees : Sees read mem c) (n : Nat) (hw : w.Live c) :
    ∃ events w', calls read c n w = some (events, w') ∧ Walked mem c n w events w' := by
  induction n generalizing w with
  | zero =>
      refine ⟨[], w, rfl, ?_, ?_, ?_⟩
      · exact Nat.zero_le _
      · intro h
        omega
      · exact ⟨[], w.position, .nil, fun hok => by simp [FdtWalker.ok, hw.finished] at hok⟩
  | succ n ih =>
      have hbase := hw.base_le
      have heq := hc.structEnd_eq
      rw [calls]
      rcases next_spec hsees hw
        (show c.structEnd - w.position < c.structSize + 1 by omega) with
        ⟨w₁, e, hrun, hg⟩ | ⟨w₁, hrun, hstop⟩
      · obtain ⟨events, w', hcalls, hwalk⟩ := ih hg.live
        obtain ⟨toks, htrace⟩ := hg.trace
        obtain ⟨toks', p, htrace', hfin⟩ := hwalk.trace
        have hmoves := hg.moves
        have hle := hg.live.le_end
        have hfew := hwalk.few
        have hstops := hwalk.stops
        refine ⟨e :: events, w', by rw [hrun]; dsimp only; rw [hcalls]; rfl, ?_, ?_, ?_⟩
        · rw [List.length_cons]
          omega
        · exact fun h => hstops (by omega)
        · exact ⟨toks ++ toks', p, htrace.append htrace', hfin⟩
      · refine ⟨[], w₁, by rw [hrun]; exact calls_stopped hstop.stopped n, Nat.zero_le _,
          fun _ => hstop.stopped, ?_⟩
        by_cases hok : w₁.ok = true
        · obtain ⟨hzero, toks, p, htrace, hfin⟩ := hstop.fin hok
          exact ⟨toks, p, hstop.depth ▸ htrace, fun _ => ⟨hzero, hfin⟩⟩
        · exact ⟨[], w.position, hstop.depth ▸ .nil, fun h => absurd h hok⟩

/-- The name of a node is terminated in the structure block. The value of a property
is in the structure block and its name is terminated in the strings block. -/
def FdtEvent.Inside (mem : Nat → UInt8) (c : FdtCursor) : FdtEvent → Prop
  | .beginNode _ name =>
      c.structBase ≤ name ∧ ∃ z, name ≤ z ∧ z < c.structEnd ∧ mem z = 0
  | .endNode _ => True
  | .property _ name value length =>
      c.structBase ≤ value ∧ value + length ≤ c.structEnd ∧ c.stringsBase ≤ name ∧
        ∃ z, name ≤ z ∧ z < c.stringsEnd ∧ mem z = 0

theorem Trace.inside {p d r d' : Nat} {toks : List Tok} {events : List FdtEvent}
    (h : Trace mem c p d toks events r d') (hp : c.structBase ≤ p) :
    ∀ e ∈ events, e.Inside mem c := by
  induction h with
  | nil => exact fun e he => (List.not_mem_nil he).elim
  | nop ht _ ih =>
      have hb := ht.2.bounds
      have hle := ht.1
      exact ih (by omega)
  | beginNode ht _ ih =>
      have hb := ht.2.bounds
      have hle := ht.1
      intro e he
      rcases List.mem_cons.mp he with rfl | he
      · cases ht.2 with
        | beginNode _ hlo hhi hz => exact ⟨by omega, _, hlo, hhi, hz⟩
      · exact ih (by omega) e he
  | endNode ht _ ih =>
      have hb := ht.2.bounds
      have hle := ht.1
      intro e he
      rcases List.mem_cons.mp he with rfl | he
      · trivial
      · exact ih (by omega) e he
  | @prop p _ _ _ _ _ _ _ _ _ ht _ ih =>
      have hb := ht.2.bounds
      have hle := ht.1
      intro e he
      rcases List.mem_cons.mp he with rfl | he
      · cases ht.2 with
        | prop _ hfit hlo hhi hz =>
            have hpad := le_align4 (be32_lt mem (align4 p + 4))
            exact ⟨by omega, by omega, by omega, _, hlo, hhi, hz⟩
      · exact ih (by omega) e he

theorem start_live (hc : c.Ok) : (FdtWalker.start c).Live c := by
  have := hc.structEnd_eq
  exact ⟨rfl, rfl, Nat.le_refl _, by dsimp only [FdtWalker.start]; omega⟩

/-- Any number of calls of `next`, with memory where only the structure and strings
blocks can be read: every call returns, the events are those of a run of tokens with
their nesting, there are at most as many as words, and their names and values are in
the blocks. When the walker is valid at the end, the tokens are balanced and the one
behind them is `FDT_END`. -/
theorem walker_stays_in_blocks {dtbAddr : Nat} (h : loadFdtCursor mem dtbAddr = .ok c)
    (hspace : dtbAddr + c.totalSize < 2 ^ 64) (n : Nat) :
    ∃ events w, calls (blocks mem c) c n (.start c) = some (events, w) ∧
      4 * events.length ≤ c.structSize ∧
      (c.structSize < 4 * n → ∀ m, calls (blocks mem c) c m w = some ([], w)) ∧
      (∀ e ∈ events, e.Inside mem c) ∧ ∃ toks p, Trace mem c c.structBase 0 toks events p w.depth ∧
        (w.ok = true → w.depth = 0 ∧ NextToken mem c p .fin w.position) := by
  have hc := loadFdtCursor_ok h hspace
  have hsize : c.structEnd - (FdtWalker.start c).position = c.structSize := by
    rw [hc.structEnd_eq]
    exact Nat.add_sub_cancel_left ..
  obtain ⟨events, w, hcalls, hwalk⟩ := calls_walked hc blocks_sees n (start_live hc)
  obtain ⟨toks, p, htrace, hfin⟩ := hwalk.trace
  refine ⟨events, w, hcalls, hsize ▸ hwalk.few, fun hn => ?_, htrace.inside (Nat.le_refl _),
    toks, p, htrace, hfin⟩
  exact calls_stopped (hwalk.stops (by omega))

/-- A root node with the property `a` of four bytes. -/
def propTree : Nat → UInt8 := fun a =>
  ([0xd0, 0x0d, 0xfe, 0xed, 0, 0, 0, 90, 0, 0, 0, 56, 0, 0, 0, 88, 0, 0, 0, 40, 0, 0, 0, 17,
    0, 0, 0, 16, 0, 0, 0, 0, 0, 0, 0, 2, 0, 0, 0, 32, 0, 0, 0, 0, 0, 0, 0, 0, 0, 0, 0, 0,
    0, 0, 0, 0, 0, 0, 0, 1, 0, 0, 0, 0, 0, 0, 0, 3, 0, 0, 0, 4, 0, 0, 0, 0, 0, 0, 0, 7,
    0, 0, 0, 2, 0, 0, 0, 9, 97, 0] : List UInt8).getD (a - 4096) 0

theorem walker_stays_in_blocks_prop :
    ∃ c events w toks p, loadFdtCursor propTree 4096 = .ok c ∧
      calls (blocks propTree c) c 9 (.start c) = some (events, w) ∧ events.length = 3 ∧
      (∀ m, calls (blocks propTree c) c m w = some ([], w)) ∧
      (∀ e ∈ events, e.Inside propTree c) ∧ Trace propTree c c.structBase 0 toks events p 0 ∧
      NextToken propTree c p .fin w.position := by
  have hload : loadFdtCursor propTree 4096 =
      .ok ⟨4096, 4186, 4152, 4184, 4184, 4186, 4136, 90, 32, 2⟩ := by decide +kernel
  obtain ⟨events, w, hcalls, -, hstop, hin, toks, p, htrace, hend⟩ :=
    walker_stays_in_blocks hload (by decide) 9
  have hrun : (some (events, w)).map (fun r => (r.1.length, r.2.ok)) = some (3, true) := by
    rw [← hcalls]
    decide +kernel
  obtain ⟨hlength, hok⟩ := Prod.mk.inj (Option.some.inj hrun)
  obtain ⟨hdepth, hfin⟩ := hend hok
  exact ⟨_, events, w, toks, p, hload, hcalls, hlength, hstop (by decide), hin, hdepth ▸ htrace,
    hfin⟩

end F7ly.Devs
