import F7ly.Fs.Transfer

/-!
# What a transfer moves

One read and the writes after it move a chunk, and a call moves chunk after
chunk. If the input is taken away by reading it, as a pipe is and a file whose
own offset is used, bytes that were read and not written are gone: the code does
not give them back. So a call is exact if it uses an offset of its own for the
input, and otherwise exactly if every write takes something, because then the
loop goes on until a chunk is written. One more way to fail is behind the loop: the
offset of the input is in user memory when the copy of the output's faults.

All this is as long as the writes do not get in the way of the reads. Between
different files or pipes they do not; inside one file they do not if the two ranges are
apart and the input does not grow by what is written behind it (`Apart`). Every round
leaves the rest of the ranges apart.
-/

namespace F7ly.Fs.Transfer

open Function Store List

def Store.data (s : Store) (f : Descriptor) (off : Option Int) : List UInt8 :=
  match f.target with
  | .file inode opened => (s.file inode).tail ((off.map Int.toNat).getD (s.offset opened))
  | .pipe id => s.pipe id

/-- The input after `n` bytes have been read from it. -/
def Store.consume (s : Store) (f : Descriptor) (explicit : Bool) (n : Nat) : Store :=
  match f.target with
  | .file _ opened =>
      if explicit then s else { s with offset := update s.offset opened (s.offset opened + n) }
  | .pipe id => { s with pipe := update s.pipe id ((s.pipe id).drop n) }

def Store.deliver (s : Store) (f : Descriptor) (off : Option Int) (data : List UInt8) : Store :=
  if data = [] then s else s.write f data (off.getD (-1)) off.isNone

def pick (explicit : Bool) (off : Int) : Option Int := if explicit then some off else none

/-- Where a file is read. -/
def Store.readPos (s : Store) (opened : Nat) (off : Option Int) : Nat :=
  (off.map Int.toNat).getD (s.offset opened)

/-- Where a file is written. -/
def Store.writePos (s : Store) (f : Descriptor) (inode opened : Nat) (off : Option Int) : Nat :=
  if f.append then (s.file inode).size else s.readPos opened off

/-- Reading and writing use different positions: two pipes are different, and one open
file, which has one offset, is written at an offset of the call's own. -/
def Separate (i o : Descriptor) (offO : Option Int) : Prop :=
  match i.target, o.target with
  | .file _ k, .file _ l => k ≠ l ∨ offO.isSome
  | .pipe p, .pipe q => p ≠ q
  | _, _ => True

/-- In one file the range that is written is in front of the range that is read, or behind
it; then the latter lies in the file, so that it is not extended by the writes. -/
def RangesApart (s : Store) (i o : Descriptor) (offI offO : Option Int) (len : Nat) : Prop :=
  match i.target, o.target with
  | .file b k, .file b' l =>
      b = b' → s.readPos k offI + len ≤ (s.file b).size ∧
            s.readPos k offI + len ≤ s.writePos o b' l offO ∨
          s.writePos o b' l offO + len ≤ s.readPos k offI
  | _, _ => True

/-- What is written does not get in the way of what is read. -/
def Apart (s : Store) (i o : Descriptor) (offI offO : Option Int) (len : Nat) : Prop :=
  Separate i o offO ∧ RangesApart s i o offI offO len

instance (i o : Descriptor) (offO : Option Int) : Decidable (Separate i o offO) := by
  unfold Separate
  split <;> infer_instance

instance (s : Store) (i o : Descriptor) (offI offO : Option Int) (len : Nat) :
    Decidable (RangesApart s i o offI offO len) := by
  unfold RangesApart
  split <;> infer_instance

instance (s : Store) (i o : Descriptor) (offI offO : Option Int) (len : Nat) :
    Decidable (Apart s i o offI offO len) := inferInstanceAs (Decidable (_ ∧ _))

variable {s : Store} {f i o : Descriptor} {off offI offO : Option Int} {explicit : Bool}
  {len : Nat}

@[simp] theorem consume_zero : s.consume f explicit 0 = s := by
  unfold consume
  split
  · split
    · rfl
    · rw [Nat.add_zero, update_eq_self]
  · rw [drop_zero, update_eq_self]

theorem consume_add (m n : Nat) :
    (s.consume f explicit m).consume f explicit n = s.consume f explicit (m + n) := by
  unfold consume
  split
  · split
    · rfl
    · simp [Nat.add_assoc]
  · simp

@[simp] theorem deliver_nil : s.deliver f off [] = s := if_pos rfl

theorem deliver_append (h : ∀ a ∈ off, 0 ≤ a) (x y : List UInt8) :
    (s.deliver f off x).deliver f (off.map (· + x.length)) y = s.deliver f off (x ++ y) := by
  by_cases hx : x = []
  · rw [hx, deliver_nil, length_nil, nil_append]
    simp
  by_cases hy : y = []
  · rw [hy, deliver_nil, append_nil]
  unfold deliver
  rw [if_neg hx, if_neg hy, if_neg (append_ne_nil_of_left_ne_nil hx y)]
  unfold write
  cases f.target with
  | pipe id => simp
  | file inode opened =>
      cases off with
      | none =>
          cases f.append
          · simp [ByteFile.write_append, Nat.add_assoc]
          · have : ((s.file inode).write (s.file inode).size x).size =
                (s.file inode).size + x.length := by
              rw [ByteFile.size_write hx]
              omega
            simp [this, ByteFile.write_append, Nat.add_assoc]
      | some a =>
          have ha := h a rfl
          have hneg : ¬ a < 0 := by omega
          have hneg' : ¬ a + (x.length : Int) < 0 := by omega
          have hnat : (a + (x.length : Int)).toNat = a.toNat + x.length := by omega
          cases f.append
          · simp [hneg, hneg', hnat, ByteFile.write_append]
          · have : ((s.file inode).write (s.file inode).size x).size =
                (s.file inode).size + x.length := by
              rw [ByteFile.size_write hx]
              omega
            simp [this, ByteFile.write_append]

theorem deliver_file {b k : Nat} (ho : o.target = .file b k) (hpos : ∀ a ∈ offO, 0 ≤ a)
    {x : List UInt8} (hx : x ≠ []) :
    s.deliver o offO x =
      { s with
        file := update s.file b ((s.file b).write (s.writePos o b k offO) x)
        offset := if offO.isNone then update s.offset k (s.writePos o b k offO + x.length)
          else s.offset } := by
  have hat : (if o.append then (s.file b).size
      else if offO.getD (-1) < 0 then s.offset k else (offO.getD (-1)).toNat) =
        s.writePos o b k offO := by
    unfold writePos readPos
    cases offO with
    | none => rfl
    | some a =>
        have := hpos a rfl
        simp only [Option.getD_some, Option.map_some, if_neg (Int.not_lt.mpr this)]
  rw [deliver, if_neg hx, write, ho]
  dsimp only
  rw [hat]

theorem deliver_offset {b k l : Nat} (ho : o.target = .file b l) (hpos : ∀ a ∈ offO, 0 ≤ a)
    (h : k ≠ l ∨ offO.isSome) (x : List UInt8) : (s.deliver o offO x).offset k = s.offset k := by
  by_cases hx : x = []
  · rw [hx, deliver_nil]
  rw [deliver_file ho hpos hx]
  dsimp only
  split
  · next hnone =>
      refine update_of_ne (h.resolve_right fun hsome => ?_) ..
      rw [Option.isNone_iff_eq_none.mp hnone] at hsome
      cases hsome
  · rfl

theorem data_deliver (h : Apart s i o offI offO len) (hpos : ∀ a ∈ offO, 0 ≤ a)
    {x : List UInt8} (hlen : x.length ≤ len) :
    ((s.deliver o offO x).data i offI).take len = (s.data i offI).take len := by
  by_cases hx : x = []
  · rw [hx, deliver_nil]
  unfold Apart Separate RangesApart at h
  cases hi : i.target with
  | file a k =>
      cases ho : o.target with
      | file b l =>
          simp only [hi, ho] at h
          simp only [data, hi, deliver_offset ho hpos h.1, ← ByteFile.read_eq_take_tail]
          rw [deliver_file ho hpos hx]
          dsimp only
          by_cases hab : a = b
          · subst hab
            rw [update_self]
            refine ByteFile.read_write_apart ((h.2 rfl).imp_right fun hle => ?_)
            exact Nat.le_trans (Nat.add_le_add_left hlen _) hle
          · rw [update_of_ne hab]
      | pipe q =>
          rw [deliver, if_neg hx, write, ho]
          simp only [data, hi]
  | pipe p =>
      cases ho : o.target with
      | file b l =>
          rw [deliver_file ho hpos hx]
          simp only [data, hi]
      | pipe q =>
          simp only [hi, ho] at h
          rw [deliver, if_neg hx, write, ho]
          simp only [data, hi, update_of_ne h.1]

theorem deliver_consume (h : Separate i o offO) (hpos : ∀ a ∈ offO, 0 ≤ a)
    (x : List UInt8) (n : Nat) : (s.deliver o offO x).consume i explicit n =
      (s.consume i explicit n).deliver o offO x := by
  by_cases hx : x = []
  · rw [hx, deliver_nil, deliver_nil]
  unfold Separate at h
  cases hi : i.target with
  | file a k =>
      cases explicit with
      | true => simp only [consume, hi, if_true]
      | false =>
          cases ho : o.target with
          | file b l =>
              simp only [hi, ho] at h
              rw [deliver_file ho hpos hx, deliver_file ho hpos hx]
              simp only [consume, hi, Bool.false_eq_true, if_false]
              cases offO with
              | some p => rfl
              | none =>
                  have hkl : k ≠ l := h.resolve_right Bool.false_ne_true
                  have hat : Store.writePos { s with
                      offset := update s.offset k (s.offset k + n) } o b l none =
                        s.writePos o b l none := by
                    simp only [writePos, readPos, Option.map_none, Option.getD_none,
                      update_of_ne hkl.symm]
                  rw [hat]
                  simp only [Option.isNone_none, if_true, update_of_ne hkl, update_comm hkl]
          | pipe q =>
              rw [deliver, if_neg hx, deliver, if_neg hx, write, write, ho]
              simp only [consume, hi, Bool.false_eq_true, if_false]
  | pipe p =>
      cases ho : o.target with
      | file b l =>
          rw [deliver_file ho hpos hx, deliver_file ho hpos hx]
          simp only [consume, hi]
          rfl
      | pipe q =>
          simp only [hi, ho] at h
          rw [deliver, if_neg hx, deliver, if_neg hx, write, write, ho]
          simp only [consume, hi, update_of_ne h, update_of_ne (Ne.symm h), update_comm h]

@[simp] theorem consume_file (n : Nat) : (s.consume i explicit n).file = s.file := by
  unfold consume
  split
  · split <;> rfl
  · rfl

theorem readPos_consume {b k : Nat} (hi : i.target = .file b k) {a : Int} (ha : explicit → 0 ≤ a)
    (n : Nat) :
    (s.consume i explicit n).readPos k (pick explicit (if explicit then a + n else a)) =
      s.readPos k (pick explicit a) + n := by
  unfold readPos pick consume
  cases explicit with
  | true =>
      have := ha rfl
      simp only [if_true, Option.map_some, Option.getD_some]
      omega
  | false => simp [hi]

theorem writePos_deliver {b l : Nat} (ho : o.target = .file b l) (hpos : ∀ a ∈ offO, 0 ≤ a)
    {x : List UInt8} (hx : x ≠ []) :
    (s.deliver o offO x).writePos o b l (offO.map (· + (x.length : Int))) =
      s.writePos o b l offO + x.length := by
  rw [deliver_file ho hpos hx]
  unfold writePos
  split
  · dsimp only
    rw [update_self, ByteFile.size_write hx]
    omega
  · cases offO with
    | none => simp [readPos]
    | some a =>
        have := hpos a rfl
        simp only [readPos, Option.map_some, Option.getD_some]
        omega

theorem writePos_consume {b k l : Nat} (hi : i.target = .file b k) (h : k ≠ l ∨ off.isSome)
    (b' n : Nat) : (s.consume i explicit n).writePos o b' l off = s.writePos o b' l off := by
  unfold writePos readPos
  rw [consume_file]
  cases off with
  | some a => rfl
  | none =>
      have hlk : l ≠ k := (h.resolve_right Bool.false_ne_true).symm
      unfold consume
      cases explicit <;> simp [hi, update_of_ne hlk]

/-- Both positions move on by what was moved. -/
theorem Apart.next {a : Int} {x : List UInt8} (h : Apart s i o (pick explicit a) offO len)
    (ha : explicit → 0 ≤ a) (hpos : ∀ b ∈ offO, 0 ≤ b) (hx : x ≠ []) (hlen : x.length ≤ len) :
    Apart ((s.consume i explicit x.length).deliver o offO x) i o
      (pick explicit (if explicit then a + x.length else a))
      (offO.map (· + (x.length : Int))) (len - x.length) := by
  rw [← deliver_consume h.1 hpos]
  unfold Apart Separate RangesApart at h ⊢
  cases hi : i.target with
  | pipe p =>
      cases ho : o.target with
      | file b l => exact ⟨trivial, trivial⟩
      | pipe q => simpa only [hi, ho] using h
  | file b k =>
      cases ho : o.target with
      | pipe q => exact ⟨trivial, trivial⟩
      | file b' l =>
          simp only [hi, ho] at h ⊢
          have hkl : k ≠ l ∨ (offO.map (· + (x.length : Int))).isSome := h.1.imp_right (by simp)
          refine ⟨hkl, fun hb => ?_⟩
          subst hb
          have hranges := h.2 rfl
          have hread : (s.deliver o offO x).readPos k (pick explicit a) =
              s.readPos k (pick explicit a) := by
            rw [readPos, deliver_offset ho hpos h.1, readPos]
          have hsize : (s.file b).size ≤ ((s.deliver o offO x).file b).size := by
            rw [deliver_file ho hpos hx]
            dsimp only
            rw [update_self, ByteFile.size_write hx]
            omega
          rw [readPos_consume hi ha, writePos_consume hi hkl, writePos_deliver ho hpos hx, hread,
            consume_file]
          omega

variable {n : Nat} {bytes : List UInt8} {r : Return}

theorem read_eq {a : Int} (h : explicit → 0 ≤ a) :
    s.read i n (if explicit then a else -1) (!explicit) = ((s.data i (pick explicit a)).take n,
        s.consume i explicit ((s.data i (pick explicit a)).take n).length) := by
  unfold Store.read Store.data Store.consume pick
  cases i.target with
  | pipe id =>
      dsimp only
      rw [length_take]
      congr 3
      rcases Nat.le_total n (s.pipe id).length with hn | hn
      · rw [Nat.min_eq_left hn]
      · rw [Nat.min_eq_right hn, drop_length, drop_eq_nil_of_le hn]
  | file inode opened =>
      cases explicit with
      | true =>
          have : ¬ a < 0 := by have := h rfl; omega
          simp [this, ByteFile.read_eq_take_tail]
      | false => simp [ByteFile.read_eq_take_tail]

def Writing.goesOn : Writing → Bool
  | .fails _ => false
  | .takes n => n > 0

theorem take_length_add (l : List UInt8) (m n : Nat) :
    l.take ((l.take m).length + n) = l.take m ++ (l.drop m).take n := by
  rcases Nat.le_total m l.length with h | h
  · rw [length_take, Nat.min_eq_left h, take_add]
  · rw [take_of_length_le h, drop_eq_nil_of_le h, take_nil, append_nil,
      take_of_length_le (by omega)]

theorem pick_add (a : Int) (n : Nat) :
    pick explicit (if explicit then a + n else a) = (pick explicit a).map (· + (n : Int)) := by
  cases explicit <;> rfl

theorem write_eq_deliver {x : List UInt8} (hx : x ≠ []) (a : Int) :
    s.write o x (if explicit then a else -1) (!explicit) = s.deliver o (pick explicit a) x := by
  unfold deliver pick
  rw [if_neg hx]
  cases explicit <;> rfl

theorem pick_nonneg {a : Int} (h : explicit → 0 ≤ a) : ∀ b ∈ pick explicit a, 0 ≤ b := by
  cases explicit with
  | false => exact nofun
  | true =>
      intro b hb
      cases hb
      exact h rfl

/-- The writes of a chunk write its beginning, and all of it exactly if every one
takes something. -/
theorem writeChunk_eq_some {ws : List Writing} {a : Int} {r : Written}
    (ha : explicit → 0 ≤ a) (hr : writeChunk o explicit ws bytes s a = some r) :
    r.count ≤ bytes.length ∧ r.store = s.deliver o (pick explicit a) (bytes.take r.count) ∧
      r.off = (if explicit then a + r.count else a) ∧
      (r.count = bytes.length ↔ ∀ w ∈ ws, w.goesOn) ∧
      (r.count = bytes.length → r.error = none) := by
  induction ws generalizing bytes s a r with
  | nil =>
      cases bytes with
      | nil =>
          cases hr
          simp
      | cons => cases hr
  | cons w ws ih =>
      cases bytes with
      | nil => cases hr
      | cons b bs =>
          match w with
          | .fails e =>
              simp only [writeChunk] at hr
              split at hr
              · cases hr
                simp [Writing.goesOn]
              · cases hr
          | .takes 0 =>
              simp only [writeChunk] at hr
              split at hr
              · cases hr
                simp [Writing.goesOn]
              · cases hr
          | .takes (n + 1) =>
              obtain ⟨r', hr', rfl⟩ := Option.map_eq_some_iff.mp hr
              generalize hbytes : b :: bs = bytes at hr' ⊢
              have hne : bytes.take (n + 1) ≠ [] := by rw [← hbytes]; simp
              rw [write_eq_deliver hne] at hr'
              obtain ⟨hle, hstore, hoff, hiff, herror⟩ := ih (by
                intro h
                have := ha h
                omega) hr'
              have hlen : (bytes.take (n + 1)).length + (bytes.drop (n + 1)).length =
                  bytes.length := by
                rw [← length_append, take_append_drop]
              dsimp only
              refine ⟨by omega, ?_, ?_, ?_, fun h => herror (by omega)⟩
              · rw [hstore, pick_add, deliver_append (pick_nonneg ha), take_length_add]
              · rw [hoff]
                split
                · omega
                · rfl
              · rw [forall_mem_cons, ← hiff]
                simp only [Writing.goesOn, Nat.zero_lt_succ, decide_true, true_and]
                omega

def Round.taken (r : Round) : Bool := r.writings.all Writing.goesOn

theorem data_consume (a : Int) (n : Nat) (h : explicit → 0 ≤ a) :
    (s.consume i explicit n).data i (pick explicit (if explicit then a + n else a)) =
      (s.data i (pick explicit a)).drop n := by
  unfold consume data pick
  cases i.target with
  | pipe id => simp
  | file inode opened =>
      cases explicit with
      | false => simp [ByteFile.tail_add]
      | true =>
          have : (a + (n : Int)).toNat = a.toNat + n := by have := h rfl; omega
          simp [this, ByteFile.tail_add]

/-- The bytes that a call may move. -/
def Setting.source (c : Setting) (s : Store) (offIn : Int) (remaining : Nat) : List UInt8 :=
  (s.data c.input (pick c.explicitIn offIn)).take remaining

/-- What the main loop does: `m` bytes are read, a beginning of them is written,
and all of them exactly if every write takes something. -/
structure Moved (c : Setting) (rounds : List Round) (remaining : Nat) (s : Store)
    (offIn offOut : Int) (p : Progress) (m : Nat) : Prop where
  le : p.total ≤ m
  available : m ≤ (c.source s offIn remaining).length
  store : p.store = (s.consume c.input c.explicitIn m).deliver c.output (pick c.explicitOut offOut)
    ((c.source s offIn remaining).take p.total)
  offIn : p.offIn = if c.explicitIn then offIn + p.total else offIn
  offOut : p.offOut = if c.explicitOut then offOut + p.total else offOut
  all : m = p.total ↔ ∀ r ∈ rounds, r.taken

variable {c : Setting} {rounds : List Round} {remaining : Nat} {offIn offOut : Int}
  {p : Progress}

theorem Moved.nothing {e : Option Errno} (h : ∀ r ∈ rounds, r.taken) :
    Moved c rounds remaining s offIn offOut ⟨0, s, offIn, offOut, e⟩ 0 := by
  refine ⟨Nat.le_refl _, Nat.zero_le _, ?_, ?_, ?_, ⟨fun _ => h, fun _ => rfl⟩⟩
  · rw [consume_zero, take_zero, deliver_nil]
  · split <;> simp
  · split <;> simp

theorem Moved.cons {r : Round} {m : Nat} {s' : Store}
    (hapart : Apart s c.input c.output (pick c.explicitIn offIn) (pick c.explicitOut offOut)
      remaining) (hin : c.explicitIn → 0 ≤ offIn) (hout : c.explicitOut → 0 ≤ offOut)
    (hbytes : bytes = (c.source s offIn remaining).take bytes.length)
    (hs' : s' = (s.consume c.input c.explicitIn bytes.length).deliver c.output
      (pick c.explicitOut offOut) bytes) (hr : r.taken)
    (h : Moved c rounds (remaining - bytes.length) s'
      (if c.explicitIn then offIn + bytes.length else offIn)
      (if c.explicitOut then offOut + bytes.length else offOut) p m) :
    Moved c (r :: rounds) remaining s offIn offOut { p with total := bytes.length + p.total }
      (bytes.length + m) := by
  have hlen : bytes.length ≤ (c.source s offIn remaining).length := by
    have := congrArg length hbytes
    rw [length_take] at this
    omega
  have hremaining : bytes.length ≤ remaining := by
    rw [Setting.source, length_take] at hlen
    omega
  have hpos := pick_nonneg hout
  have hsource : c.source s' (if c.explicitIn then offIn + bytes.length else offIn)
      (remaining - bytes.length) = (c.source s offIn remaining).drop bytes.length := by
    rw [Setting.source, Setting.source, hs', ← deliver_consume hapart.1 hpos,
      data_consume offIn _ hin, ← drop_take, data_deliver hapart hpos hremaining]
  refine ⟨Nat.add_le_add_left h.le _, ?_, ?_, ?_, ?_, ?_⟩
  · have := h.available
    rw [hsource, length_drop] at this
    omega
  · rw [h.store, hsource, hs', deliver_consume hapart.1 hpos, consume_add, pick_add,
      deliver_append hpos]
    congr 1
    rw [take_add, ← hbytes]
  · rw [h.offIn]
    split
    · push_cast
      omega
    · rfl
  · rw [h.offOut]
    split
    · push_cast
      omega
    · rfl
  · rw [forall_mem_cons, ← h.all]
    dsimp only
    constructor
    · intro heq
      exact ⟨hr, by omega⟩
    · intro heq
      rw [heq.2]

theorem Round.taken_iff {r : Round} : r.taken ↔ ∀ w ∈ r.writings, w.goesOn := by
  rw [Round.taken, all_eq_true]

theorem Moved.last {r : Round} {w : Written}
    (hbytes : bytes = (c.source s offIn remaining).take bytes.length)
    (hcount : w.count ≤ bytes.length)
    (hstore : w.store = (s.consume c.input c.explicitIn bytes.length).deliver c.output
      (pick c.explicitOut offOut) (bytes.take w.count))
    (hoff : w.off = if c.explicitOut then offOut + w.count else offOut)
    (hall : w.count = bytes.length ↔ ∀ x ∈ r.writings, x.goesOn) :
    Moved c [r] remaining s offIn offOut
      ⟨w.count, w.store, if c.explicitIn then offIn + w.count else offIn, w.off, w.error⟩
      bytes.length where
  le := hcount
  available := by
    have := congrArg length hbytes
    rw [length_take] at this
    omega
  store := by
    rw [hstore, hbytes, take_take, Nat.min_eq_left hcount]
  offIn := rfl
  offOut := hoff
  all := by
    rw [forall_mem_singleton, Round.taken_iff, ← hall]
    exact eq_comm

theorem transfer_eq_some
    (hapart : Apart s c.input c.output (pick c.explicitIn offIn) (pick c.explicitOut offOut)
      remaining) (hin : c.explicitIn → 0 ≤ offIn) (hout : c.explicitOut → 0 ≤ offOut)
    (h : transfer c rounds remaining s offIn offOut = some p) :
    ∃ m, Moved c rounds remaining s offIn offOut p m := by
  induction rounds generalizing remaining s offIn offOut p with
  | nil =>
      cases remaining with
      | zero =>
          cases h
          exact ⟨0, .nothing nofun⟩
      | succ => cases h
  | cons r rs ih =>
      cases remaining with
      | zero => cases h
      | succ remaining =>
          simp only [transfer] at h
          cases hreading : r.reading with
          | fails e =>
              simp only [hreading] at h
              split at h
              · next hend =>
                  cases h
                  rw [Bool.and_eq_true, List.isEmpty_iff, List.isEmpty_iff] at hend
                  rw [hend.2]
                  exact ⟨0, .nothing (by simp [Round.taken, hend.1])⟩
              · cases h
          | gives n =>
              simp only [hreading, read_eq hin] at h
              generalize hbytes : (s.data c.input (pick c.explicitIn offIn)).take
                (min (min (remaining + 1) ioChunkSize) n) = bytes at h
              have hself : bytes = (c.source s offIn (remaining + 1)).take bytes.length := by
                rw [Setting.source, take_take, ← hbytes, length_take, take_eq_take_iff]
                omega
              have hlen : bytes.length ≤ remaining + 1 := by
                rw [← hbytes, length_take]
                omega
              split at h
              · next hnil =>
                  split at h
                  · next hend =>
                      cases h
                      rw [Bool.and_eq_true, List.isEmpty_iff, List.isEmpty_iff] at hend
                      rw [hnil, List.length_nil, consume_zero, hend.2]
                      exact ⟨0, .nothing (by simp [Round.taken, hend.1])⟩
                  · cases h
              · next hsome =>
                  obtain ⟨w, hw, h⟩ := Option.bind_eq_some_iff.mp h
                  obtain ⟨hcount, hstore, hoff, hall, -⟩ := writeChunk_eq_some hout hw
                  split at h
                  · split at h
                    · next hend =>
                        cases h
                        rw [isEmpty_iff.mp hend]
                        exact ⟨_, .last hself hcount hstore hoff hall⟩
                    · cases h
                  next hgo =>
                  have hfull : w.count = bytes.length := by omega
                  obtain ⟨p', hp', rfl⟩ := Option.map_eq_some_iff.mp h
                  rw [hfull, take_length] at hstore
                  rw [hfull] at hoff hp' ⊢
                  rw [hoff] at hp'
                  have hnext := hapart.next hin (pick_nonneg hout) hsome hlen
                  rw [← hstore, ← pick_add] at hnext
                  obtain ⟨m, hm⟩ := ih hnext (fun h => by have := hin h; omega)
                    (fun h => by have := hout h; omega) hp'
                  exact ⟨_, .cons hapart hin hout hself hstore
                    (Round.taken_iff.mpr (hall.mp hfull)) hm⟩

/-- Where the input stands: the offset of an open file, or what is in a pipe. -/
def Store.place (s : Store) (f : Descriptor) : Nat × List UInt8 :=
  match f.target with
  | .file _ opened => (s.offset opened, [])
  | .pipe id => (0, s.pipe id)

/-- The first `n` bytes at the input position were written at the output
position, both positions are `n` further and nothing else has changed. -/
structure Exact (a : Args) (s : Store) (n : Nat) (r : Return) : Prop where
  available : n ≤ (s.data a.input a.offIn).length
  store : r.store = (s.consume a.input a.offIn.isSome n).deliver a.output a.offOut
    ((s.data a.input a.offIn).take n)
  offIn : r.offIn = a.offIn.map (· + (n : Int))
  offOut : r.offOut = a.offOut.map (· + (n : Int))

def Untouched (a : Args) (s : Store) (r : Return) : Prop :=
  r.offIn = a.offIn ∧ r.store.place a.input = s.place a.input

def Sound (a : Args) (s : Store) (r : Return) : Prop :=
  match r.value with
  | .ok n => Exact a s n r
  | .error _ => Untouched a s r

def TakesAway (f : Descriptor) (explicit : Bool) : Prop := f.target.isPipe ∨ explicit = false

theorem consume_of_not_takesAway (h : ¬ TakesAway f explicit) (n : Nat) :
    s.consume f explicit n = s := by
  unfold consume
  cases hf : f.target with
  | pipe id => exact absurd (.inl (by rw [hf]; rfl)) h
  | file inode opened =>
      cases explicit with
      | true => rfl
      | false => exact absurd (.inr rfl) h

theorem place_deliver (h : Separate i o offO) (hpos : ∀ a ∈ offO, 0 ≤ a) (x : List UInt8) :
    (s.deliver o offO x).place i = s.place i := by
  by_cases hx : x = []
  · rw [hx, deliver_nil]
  unfold Separate at h
  cases hi : i.target with
  | file a k =>
      cases ho : o.target with
      | file b l =>
          simp only [hi, ho] at h
          simp only [place, hi, deliver_offset ho hpos h]
      | pipe q =>
          rw [deliver, if_neg hx, write, ho]
          simp only [place, hi]
  | pipe p =>
      cases ho : o.target with
      | file b l =>
          rw [deliver_file ho hpos hx]
          simp only [place, hi]
      | pipe q =>
          simp only [hi, ho] at h
          rw [deliver, if_neg hx, write, ho]
          simp only [place, hi, update_of_ne h]

theorem consume_inj (h : TakesAway f explicit) {m : Nat} (hm : m ≤ (s.data f off).length)
    (hn : n ≤ (s.data f off).length)
    (heq : (s.consume f explicit m).place f = (s.consume f explicit n).place f) : m = n := by
  unfold consume place at heq
  unfold data at hm hn
  cases hf : f.target with
  | file inode opened =>
      have hexplicit : explicit = false := by
        rcases h with h | h
        · rw [hf] at h
          cases h
        · exact h
      simp only [hf, hexplicit, Bool.false_eq_true, if_false, update_self, Prod.mk.injEq] at heq
      omega
  | pipe id =>
      simp only [hf] at hm hn
      simp only [hf, update_self, Prod.mk.injEq, true_and] at heq
      have := congrArg length heq
      rw [length_drop, length_drop] at this
      omega

/-- The first read gives something and the first write takes something. -/
def startsMoving : List Round → Bool
  | ⟨.gives (_ + 1), .takes (_ + 1) :: _⟩ :: _ => true
  | _ => false

theorem writeChunk_count {ws : List Writing} {a : Int} {w : Written} (hne : bytes ≠ [])
    (h : writeChunk o explicit ws bytes s a = some w) (n : Nat) (rs : List Round) :
    w.count ≠ 0 ↔ startsMoving (⟨.gives (n + 1), ws⟩ :: rs) = true := by
  cases bytes with
  | nil => exact absurd rfl hne
  | cons b bs =>
      cases ws with
      | nil => cases h
      | cons x ws =>
          match x with
          | .fails e =>
              simp only [writeChunk] at h
              split at h
              · cases h
                simp [startsMoving]
              · cases h
          | .takes 0 =>
              simp only [writeChunk] at h
              split at h
              · cases h
                simp [startsMoving]
              · cases h
          | .takes (k + 1) =>
              obtain ⟨w', -, rfl⟩ := Option.map_eq_some_iff.mp h
              refine iff_of_true ?_ rfl
              rw [take_succ_cons, length_cons]
              dsimp only
              omega

/-- Something is moved exactly if there is something to read, the first read gives some of
it and the first write takes some of that. -/
theorem transfer_total_iff (hin : c.explicitIn → 0 ≤ offIn)
    (h : transfer c rounds remaining s offIn offOut = some p) :
    p.total ≠ 0 ↔ s.data c.input (pick c.explicitIn offIn) ≠ [] ∧ startsMoving rounds := by
  cases rounds with
  | nil =>
      cases remaining with
      | zero =>
          cases h
          simp [startsMoving]
      | succ => cases h
  | cons r rs =>
      cases remaining with
      | zero => cases h
      | succ remaining =>
          obtain ⟨reading, writings⟩ := r
          simp only [transfer] at h
          cases reading with
          | fails e =>
              dsimp only at h
              split at h
              · cases h
                simp [startsMoving]
              · cases h
          | gives n =>
              simp only [read_eq hin] at h
              generalize hbytes : (s.data c.input (pick c.explicitIn offIn)).take
                (min (min (remaining + 1) ioChunkSize) n) = bytes at h
              split at h
              · next hnil =>
                  split at h
                  · cases h
                    refine iff_of_false (by simp) fun hand => ?_
                    cases n with
                    | zero => simp [startsMoving] at hand
                    | succ n =>
                        rw [hnil, take_eq_nil_iff] at hbytes
                        refine hbytes.elim (fun hzero => ?_) hand.1
                        simp [ioChunkSize] at hzero
                  · cases h
              · next hsome =>
                  obtain ⟨w, hw, h⟩ := Option.bind_eq_some_iff.mp h
                  cases n with
                  | zero =>
                      rw [Nat.min_zero, take_zero] at hbytes
                      exact absurd hbytes.symm hsome
                  | succ n =>
                      have hdata : s.data c.input (pick c.explicitIn offIn) ≠ [] := by
                        rintro heq
                        rw [heq, take_nil] at hbytes
                        exact hsome hbytes.symm
                      rw [← writeChunk_count hsome hw, and_iff_right hdata]
                      split at h
                      · split at h
                        · cases h
                          rfl
                        · cases h
                      next hgo =>
                      have hcount : w.count ≠ 0 := by
                        have := length_pos_iff.mpr hsome
                        omega
                      obtain ⟨p', -, rfl⟩ := Option.map_eq_some_iff.mp h
                      exact iff_of_true (by dsimp only; omega) hcount

section Calls

variable {a : Args} {sc : Script} {p : Progress} {m : Nat}

theorem early_sound {v : Early} (h : a.early sc s v = some r) : Sound a s r ∧ sc.rounds = [] := by
  unfold Args.early at h
  split at h
  · next hempty =>
      cases h
      refine ⟨?_, isEmpty_iff.mp hempty⟩
      cases v with
      | zero =>
          refine ⟨Nat.zero_le _, ?_, ?_, ?_⟩
          · rw [consume_zero, take_zero, deliver_nil]
          · simp
          · simp
      | refused e => exact ⟨rfl, rfl⟩
  · cases h

/-- If bytes were moved and the offset of the input could be copied to user memory, that of
the output can be copied too. -/
def Args.CopiedOut (a : Args) (sc : Script) (s : Store) : Prop :=
  s.data a.input a.offIn ≠ [] → startsMoving sc.rounds → (a.offIn.isSome → sc.outIn) →
    a.offOut.isSome → sc.outOut

instance (a : Args) (sc : Script) (s : Store) : Decidable (a.CopiedOut sc s) := by
  unfold Args.CopiedOut
  infer_instance

theorem early_sound_iff {v : Early} {P : Prop} (h : a.early sc s v = some r) :
    Sound a s r ↔ (P → ∀ x ∈ sc.rounds, x.taken) ∧ a.CopiedOut sc s := by
  obtain ⟨hsound, hnil⟩ := early_sound h
  refine iff_of_true hsound ⟨fun _ => ?_, fun _ hmoves => ?_⟩
  · rw [hnil]
    exact nofun
  · rw [hnil] at hmoves
    cases hmoves

theorem pick_getD (off : Option Int) (a : Int) : pick off.isSome (off.getD a) = off := by
  cases off <;> rfl

theorem nonneg_of_negative (h : negative off = false) (h' : off.isSome) : 0 ≤ off.getD 0 := by
  cases off with
  | none => cases h'
  | some a => simpa [negative] using h

theorem map_off {b : Int} (h : b = if off.isSome then off.getD 0 + (n : Int) else off.getD 0) :
    (off.map fun _ => b) = off.map (· + (n : Int)) := by
  cases off with
  | none => rfl
  | some a => exact congrArg some h

theorem firstOf_eq_none {checks : List (Bool × Early)} :
    firstOf checks = none ↔ ∀ c ∈ checks, c.1 = false := by
  rw [firstOf, Option.map_eq_none_iff, find?_eq_none]
  simp [Bool.not_eq_true]

theorem checkSplice_none (h : a.checkSplice sc = none) :
    negative a.offIn = false ∧ negative a.offOut = false ∧
      (a.input.target.isPipe && a.offIn.isSome) = false := by
  rw [Args.checkSplice, firstOf_eq_none] at h
  simp only [forall_mem_cons] at h
  obtain ⟨-, hpipe, -, -, -, -, -, -, -, hin, -, hout, -⟩ := h
  exact ⟨hin, hout, hpipe⟩

theorem checkCopy_none {flags : Nat} (h : a.checkCopy flags sc = none) :
    negative a.offIn = false ∧ negative a.offOut = false ∧
      (a.input.target.isPipe || a.output.target.isPipe) = false := by
  rw [Args.checkCopy, firstOf_eq_none] at h
  simp only [forall_mem_cons] at h
  obtain ⟨-, -, -, hpipe, -, -, hin, -, hout, -, -⟩ := h
  exact ⟨hin, hout, hpipe⟩

theorem checkSend_none (h : a.checkSend sc = none) :
    (a.offIn.isSome && a.input.target.isPipe) = false := by
  rw [Args.checkSend, firstOf_eq_none] at h
  simp only [forall_mem_cons] at h
  exact h.2.1

section Apart

variable (hapart : Separate a.input a.output a.offOut) (hpos : ∀ b ∈ a.offOut, 0 ≤ b)
include hapart hpos

theorem exact_iff (hle : n ≤ m) (hm : m ≤ (s.data a.input a.offIn).length)
    (hstore : r.store = (s.consume a.input a.offIn.isSome m).deliver a.output a.offOut
      ((s.data a.input a.offIn).take n))
    (hin : r.offIn = a.offIn.map (· + (n : Int))) (hout : r.offOut = a.offOut.map (· + (n : Int))) :
    Exact a s n r ↔ (TakesAway a.input a.offIn.isSome → m = n) := by
  constructor
  · intro h htake
    have := congrArg (·.place a.input) (hstore.symm.trans h.store)
    simp only [place_deliver hapart hpos] at this
    exact consume_inj htake hm (Nat.le_trans hle hm) this
  · intro h
    refine ⟨Nat.le_trans hle hm, ?_, hin, hout⟩
    by_cases htake : TakesAway a.input a.offIn.isSome
    · rw [hstore, h htake]
    · rw [hstore, consume_of_not_takesAway htake, consume_of_not_takesAway htake]

theorem untouched_iff {x : List UInt8} (hm : m ≤ (s.data a.input a.offIn).length)
    (hstore : r.store = (s.consume a.input a.offIn.isSome m).deliver a.output a.offOut x)
    (hin : r.offIn = a.offIn) : Untouched a s r ↔ (TakesAway a.input a.offIn.isSome → m = 0) := by
  unfold Untouched
  rw [hstore, place_deliver hapart hpos]
  constructor
  · intro h htake
    refine consume_inj htake hm (Nat.zero_le _) ?_
    rw [h.2, consume_zero]
  · intro h
    refine ⟨hin, ?_⟩
    by_cases htake : TakesAway a.input a.offIn.isSome
    · rw [h htake, consume_zero]
    · rw [consume_of_not_takesAway htake]

theorem value_sound (hvalue : r.value = p.value)
    (hle : p.total ≤ m) (hm : m ≤ (s.data a.input a.offIn).length)
    (hstore : r.store = (s.consume a.input a.offIn.isSome m).deliver a.output a.offOut
      ((s.data a.input a.offIn).take p.total)) (hin : r.offIn = a.offIn.map (· + (p.total : Int)))
    (hout : r.offOut = a.offOut.map (· + (p.total : Int))) :
    Sound a s r ↔ (TakesAway a.input a.offIn.isSome → m = p.total) := by
  unfold Sound
  rw [hvalue, Progress.value]
  by_cases hmoved : p.total > 0
  · rw [if_pos hmoved]
    exact exact_iff hapart hpos hle hm hstore hin hout
  · have htotal : p.total = 0 := Nat.eq_zero_of_not_pos hmoved
    rw [htotal] at hle hstore hin hout ⊢
    cases p.error with
    | some e => exact untouched_iff hapart hpos hm hstore (by simpa using hin)
    | none => exact exact_iff hapart hpos hle hm hstore hin hout

end Apart

theorem mem_nonneg (h : negative off = false) : ∀ b ∈ off, 0 ≤ b := by
  intro b hb
  cases hb
  simpa [negative] using h

section Move

variable (hapart : Apart s a.input a.output a.offIn a.offOut a.len)
include hapart

/-- `splice` and `copy_file_range` after their checks. -/
theorem move_sound {stopShort : Bool}
    (hin : negative a.offIn = false) (hout : negative a.offOut = false)
    (hpipe : a.input.target.isPipe → a.offIn.isSome = false) (h : a.move sc s stopShort = some r) :
    Sound a s r ↔ (TakesAway a.input a.offIn.isSome → ∀ x ∈ sc.rounds, x.taken) ∧
      a.CopiedOut sc s := by
  obtain ⟨p, hp, rfl⟩ := Option.map_eq_some_iff.mp h
  have hpos := mem_nonneg hout
  obtain ⟨m, hle, hm, hstore, hoffIn, hoffOut, hall⟩ :=
    transfer_eq_some (by simpa only [pick_getD] using hapart) (nonneg_of_negative hin)
      (nonneg_of_negative hout) hp
  have htotal := transfer_total_iff (nonneg_of_negative hin) hp
  simp only [Setting.source, pick_getD, length_take] at hm hstore htotal
  rw [take_take, Nat.min_eq_left (by omega)] at hstore
  have hm : m ≤ (s.data a.input a.offIn).length := by omega
  rw [← hall]
  unfold Args.finish
  split
  · next hzero =>
      have hcopied : a.CopiedOut sc s := fun hdata hmoves =>
        absurd hzero (htotal.mpr ⟨hdata, hmoves⟩)
      rw [and_iff_left hcopied]
      exact value_sound hapart.1 hpos rfl hle hm hstore (by simp [hzero]) (by simp [hzero])
  next hmoved =>
  split
  · next hfault =>
      -- the offset in user memory stays behind, as if nothing had been read
      have hstays : ¬ TakesAway a.input a.offIn.isSome := by
        intro htake
        have hnone := htake.elim hpipe id
        rw [hnone] at hfault
        exact absurd hfault.1 (by decide)
      refine iff_of_true ?_ ⟨fun htake => absurd htake hstays, fun _ _ hcopy => ?_⟩
      · exact (untouched_iff hapart.1 hpos hm hstore rfl).mpr fun htake => absurd htake hstays
      · simp [hcopy hfault.1] at hfault
  next hcopyIn =>
  split
  · next hfault =>
      -- the input has been consumed and the call reports an error
      refine iff_of_false (fun hsound => ?_) fun hand => ?_
      · cases hoff : a.offIn with
        | some b =>
            have hsame := hsound.1
            simp only [hoff, Option.map_some, Option.isSome_some, if_true, Option.getD_some,
              Option.some.injEq] at hsame hoffIn
            omega
        | none =>
            have hzero := (untouched_iff hapart.1 hpos hm hstore (by rw [hoff]; rfl)).mp hsound
              (.inr (by rw [hoff]; rfl))
            omega
      · obtain ⟨hdata, hmoves⟩ := htotal.mp hmoved
        have hcopy := hand.2 hdata hmoves (fun hsome => by simpa [hsome] using hcopyIn) hfault.1
        simp [hcopy] at hfault
  next hcopyOut =>
  have hcopied : a.CopiedOut sc s := fun _ _ _ hsome => by simpa [hsome] using hcopyOut
  rw [and_iff_left hcopied]
  exact value_sound hapart.1 hpos rfl hle hm hstore (map_off hoffIn) (map_off hoffOut)

theorem splice_sound (h : splice a sc s = some r) :
    Sound a s r ↔ (TakesAway a.input a.offIn.isSome → ∀ x ∈ sc.rounds, x.taken) ∧
      a.CopiedOut sc s := by
  unfold splice at h
  split at h
  · exact early_sound_iff h
  · next hcheck =>
      obtain ⟨hin, hout, hpipe⟩ := checkSplice_none hcheck
      exact move_sound hapart hin hout (fun hp => by simpa [hp] using hpipe) h

theorem copyFileRange_sound {flags : Nat} (h : copyFileRange flags a sc s = some r) :
    Sound a s r ↔ (TakesAway a.input a.offIn.isSome → ∀ x ∈ sc.rounds, x.taken) ∧
      a.CopiedOut sc s := by
  unfold copyFileRange at h
  split at h
  · exact early_sound_iff h
  · next hcheck =>
      obtain ⟨hin, hout, hpipe⟩ := checkCopy_none hcheck
      exact move_sound hapart hin hout (fun hp => by simp [hp] at hpipe) h

end Move

theorem data_tell (off : Option Int) : s.data f (some (off.getD (s.tell f))) = s.data f off := by
  unfold data Store.tell
  cases f.target with
  | pipe id => rfl
  | file inode opened => cases off <;> rfl

theorem apart_tell (h : Apart s i o off offO len) :
    Apart s i o (some (off.getD (s.tell i))) offO len := by
  refine ⟨h.1, ?_⟩
  have hranges := h.2
  unfold RangesApart at hranges ⊢
  cases hi : i.target with
  | pipe p => trivial
  | file b k =>
      have hread : s.readPos k (some (off.getD (s.tell i))) = s.readPos k off := by
        rw [readPos, readPos, Store.tell, hi]
        cases off <;> rfl
      cases ho : o.target with
      | pipe q => trivial
      | file b' l => simpa only [hi, ho, hread] using hranges

theorem consume_pipe (h : f.target.isPipe) (explicit explicit' : Bool) (n : Nat) :
    s.consume f explicit n = s.consume f explicit' n := by
  unfold consume
  cases hf : f.target with
  | pipe id => rfl
  | file inode opened =>
      rw [hf] at h
      cases h

theorem seek_pipe (h : f.target.isPipe) (a : Int) : s.seek f a = s := by
  unfold seek
  cases hf : f.target with
  | pipe id => rfl
  | file inode opened =>
      rw [hf] at h
      cases h

/-- Reading at an offset of one's own and setting the file's offset afterwards is
reading from the file. -/
theorem seek_deliver (hfile : ¬ i.target.isPipe) (hapart : Separate i o none) (n : Nat)
    (x : List UInt8) :
    (s.deliver o none x).seek i (s.tell i + n : Int) = (s.consume i false n).deliver o none x := by
  rw [← deliver_consume hapart nofun]
  unfold seek consume Store.tell
  have hplace := place_deliver (s := s) hapart nofun x
  unfold place at hplace
  cases hi : i.target with
  | pipe id =>
      rw [hi] at hfile
      exact absurd rfl hfile
  | file inode opened =>
      rw [hi] at hplace
      dsimp only at hplace ⊢
      rw [if_neg Bool.false_ne_true, (Prod.mk.injEq ..).mp hplace |>.1]
      rfl

theorem finishSend_none (h : a.offIn = none) (sc : Script) (p : Progress) :
    a.finishSend sc p =
      ⟨p.value, if p.total > 0 then p.store.seek a.input p.offIn else p.store, none, a.offOut⟩ := by
  simp [Args.finishSend, h]

section Separate

variable (hapart : Separate a.input a.output a.offOut) (hnone : a.offOut = none)
include hapart hnone

theorem sendfile_pipe_sound (hpipe : a.input.target.isPipe) (hin : a.offIn = none)
    (hle : p.total ≤ m) (hm : m ≤ (s.data a.input a.offIn).length)
    (hstore : p.store = (s.consume a.input true m).deliver a.output a.offOut
      ((s.data a.input a.offIn).take p.total)) : Sound a s (a.finishSend sc p) ↔ m = p.total := by
  have htake : TakesAway a.input a.offIn.isSome := .inl hpipe
  rw [consume_pipe hpipe true a.offIn.isSome] at hstore
  rw [finishSend_none hin, seek_pipe hpipe, ite_self,
    value_sound hapart (by simp [hnone]) rfl hle hm hstore (by rw [hin]; rfl)
      (by rw [hnone]; rfl)]
  exact ⟨fun h => h htake, fun h _ => h⟩

theorem sendfile_file_sound (hfile : ¬ a.input.target.isPipe)
    (hle : p.total ≤ m) (hm : m ≤ (s.data a.input a.offIn).length)
    (hstore : p.store = (s.consume a.input true m).deliver a.output a.offOut
      ((s.data a.input a.offIn).take p.total))
    (hoff : p.offIn = a.offIn.getD (s.tell a.input) + p.total) : Sound a s (a.finishSend sc p) := by
  have hstays : ¬ TakesAway a.input true := fun h => h.elim hfile (by simp)
  have hplain : p.store = s.deliver a.output a.offOut ((s.data a.input a.offIn).take p.total) := by
    rw [hstore, consume_of_not_takesAway hstays]
  have hpos : ∀ b ∈ a.offOut, 0 ≤ b := by simp [hnone]
  cases hin : a.offIn with
  | none =>
      rw [finishSend_none hin]
      refine (value_sound hapart hpos rfl (Nat.le_refl _) (Nat.le_trans hle hm) ?_
        (by rw [hin]; rfl) (by rw [hnone]; rfl)).mpr fun _ => rfl
      rw [hoff, hplain, hnone, hin]
      split
      · exact seek_deliver hfile (hnone ▸ hapart) _ _
      · next hzero =>
          rw [Nat.eq_zero_of_not_pos hzero, consume_zero]
  | some b =>
      rw [hin] at hoff
      unfold Args.finishSend
      rw [hin, if_pos (Option.isSome_some ..)]
      split
      · refine ⟨hin.symm, ?_⟩
        rw [hplain, place_deliver hapart hpos]
      · refine (value_sound hapart hpos rfl hle hm ?_ (by rw [hin, hoff]; rfl)
          (by rw [hnone]; rfl)).mpr fun htake => ?_
        · rw [hin] at hstore ⊢
          exact hstore
        · rw [hin] at htake
          exact absurd htake hstays

end Separate

theorem sendfile_sound (hapart : Apart s a.input a.output a.offIn a.offOut a.len)
    (hoff : ∀ b ∈ a.offIn, 0 ≤ b) (hnone : a.offOut = none) (h : sendfile a sc s = some r) :
    Sound a s r ↔ (a.input.target.isPipe → ∀ x ∈ sc.rounds, x.taken) ∧ a.CopiedOut sc s := by
  unfold sendfile at h
  split at h
  · exact early_sound_iff h
  next hcheck =>
  have hspipe := checkSend_none hcheck
  obtain ⟨p, hp, rfl⟩ := Option.map_eq_some_iff.mp h
  have hpos : 0 ≤ a.offIn.getD (s.tell a.input) := by
    cases hin : a.offIn with
    | none => exact Int.natCast_nonneg _
    | some b => exact hoff b hin
  obtain ⟨m, hle, hm, hstore, hoffIn, -, hall⟩ :=
    transfer_eq_some (by rw [hnone] at hapart; exact apart_tell hapart) (fun _ => hpos)
      (fun h => by cases h) hp
  simp only [Setting.source, pick, if_true, data_tell, length_take] at hm hstore hoffIn
  rw [← hnone, take_take, Nat.min_eq_left (by omega)] at hstore
  have hm : m ≤ (s.data a.input a.offIn).length := by omega
  have hcopied : a.CopiedOut sc s := fun _ _ _ hsome => by simp [hnone] at hsome
  rw [← hall, and_iff_left hcopied]
  by_cases hpipe : a.input.target.isPipe
  · have hin : a.offIn = none := by simpa [hpipe] using hspipe
    rw [sendfile_pipe_sound hapart.1 hnone hpipe hin hle hm hstore]
    exact ⟨fun h _ => h, fun h => h hpipe⟩
  · exact iff_of_true (sendfile_file_sound hapart.1 hnone hpipe hle hm hstore hoffIn)
      fun h => absurd h hpipe

end Calls

/-- Reading takes the bytes away before they are written: a pipe is drained, and
`splice` and `copy_file_range` move the offset of a file. -/
def Consumes (c : Call) (a : Args) : Prop :=
  a.input.target.isPipe ∨ (c ≠ .sendfile ∧ a.offIn = none)

instance (c : Call) (a : Args) : Decidable (Consumes c a) := inferInstanceAs (Decidable (_ ∨ _))

def noBytes : ByteFile := ⟨0, fun _ => 0, fun _ _ => rfl⟩

/-- A file with the bytes 1, 2, 3 and an empty one, and two such pipes. -/
def twoFiles : Store where
  file i := if i = 0 then noBytes.write 0 [1, 2, 3] else noBytes
  pipe i := if i = 0 then [1, 2, 3] else []
  offset _ := 0

def fileToFile : Args where
  input := ⟨.file 0 0, true, false, false, false⟩
  output := ⟨.file 1 1, false, true, false, false⟩
  offIn := none
  offOut := some 0
  len := 8

def shortWrites : Script where
  rounds := [⟨.gives 8, [.takes 1, .takes 8]⟩, ⟨.gives 8, []⟩]
  alloc := true
  inIn := true
  inOut := true
  outIn := true
  outOut := true

/-- The three bytes of one file are copied behind its end, through one open file. -/
def withinFile : Args :=
  { fileToFile with
    input := ⟨.file 0 0, true, true, false, false⟩
    output := ⟨.file 0 0, true, true, false, false⟩
    offIn := some 0
    offOut := some 100
    len := 3 }

def oneRound : Script :=
  { shortWrites with rounds := [⟨.gives 8, [.takes 1, .takes 8]⟩] }

def pipeToFile : Args :=
  { fileToFile with input := ⟨.pipe 0, true, false, false, false⟩ }

def failingWrite : Script :=
  { shortWrites with rounds := [⟨.gives 8, [.takes 1, .fails 5]⟩] }

end F7ly.Fs.Transfer
