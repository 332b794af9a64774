import F7ly.Lib.Run
import F7ly.Proc.Pipe

/-!
# A pipe is first in, first out

Across any interleaving of calls, the bytes handed to readers followed by the
bytes still stored are the bytes taken from writers, and a call that returns
a count returns the number of bytes it moved. The ring's own invariant allows
the tail to stand at the size itself, which is where `set_pipe_size` leaves it
when the stored bytes fill the new buffer exactly: the bulk writers then move
nothing for one round and bring it back to zero. `push` does not, and it is
the one operation the law needs a condition on.
-/

namespace F7ly.Proc

open F7ly.Ring

variable {p : Pipe} {pt : Point} {out : Outside} {s : PipeSystem} {t : PipeThread}

namespace Pipe

def stored (p : Pipe) : List UInt8 := contents p.buffer p.pipeSize p.head p.count

/-- The ring is in order. -/
structure Ok (p : Pipe) : Prop where
  head : p.head < p.pipeSize
  count : p.count ≤ p.pipeSize
  tail : p.tail ≤ p.pipeSize
  next : p.tail % p.pipeSize = (p.head + p.count) % p.pipeSize

theorem writeBulk_ok (hp : p.Ok) {chunk : Nat} (src : Nat → UInt8)
    (hroom : p.tail + chunk ≤ p.pipeSize) (hfit : p.count + chunk ≤ p.pipeSize) :
    (p.writeBulk chunk src).Ok ∧ (p.writeBulk chunk src).stored = p.stored ++ cells src chunk := by
  refine ⟨⟨hp.head, hfit, ?_, ?_⟩, contents_blit hp.next hroom hfit⟩
  · have h := hp.head
    exact Nat.le_of_lt (Nat.mod_lt _ (show 0 < p.pipeSize by omega))
  · simp only [writeBulk, Nat.mod_mod]
    rw [← Nat.add_assoc]
    exact Nat.ModEq.add_right chunk hp.next

theorem push_ok (hp : p.Ok) (data : UInt8)
    (hfit : p.count < p.pipeSize) (hroom : p.tail < p.pipeSize) :
    (p.push data).Ok ∧ (p.push data).stored = p.stored ++ [data] := by
  rw [push, if_neg (by omega)]
  exact writeBulk_ok hp (fun _ => data) hroom hfit

theorem readBulk_ok (hp : p.Ok) {chunk : Nat}
    (hroom : p.head + chunk ≤ p.pipeSize) (hle : chunk ≤ p.count) :
    (p.readBulk chunk).Ok ∧ p.stored = cells (fun k => p.buffer (p.head + k)) chunk ++
        (p.readBulk chunk).stored := by
  have hpos : 0 < p.pipeSize := Nat.lt_of_le_of_lt (Nat.zero_le _) hp.head
  have hcount := hp.count
  refine ⟨⟨Nat.mod_lt _ hpos, ?_, hp.tail, ?_⟩, contents_split p.buffer hroom hle⟩
  · simp only [readBulk]
    omega
  · simp only [readBulk, Nat.mod_add_mod]
    rw [hp.next]
    congr 1
    omega

theorem writeChunk_le (hp : p.Ok) (remaining : Nat) :
    p.tail + p.writeChunk remaining ≤ p.pipeSize ∧
      p.count + p.writeChunk remaining ≤ p.pipeSize := by
  have h1 := hp.count
  have h2 := hp.tail
  simp only [writeChunk]
  constructor <;> repeat' split
  all_goals omega

theorem readChunk_le (hp : p.Ok) (remaining : Nat) :
    p.head + p.readChunk remaining ≤ p.pipeSize ∧ p.readChunk remaining ≤ p.count := by
  have h1 := hp.head
  simp only [readChunk]
  constructor <;> repeat' split
  all_goals omega

theorem relinearize_spec (hp : p.Ok) (newBuffer : Nat → UInt8) :
    ∀ n, (relinearize p newBuffer n).2 = (p.head + n) % p.pipeSize ∧
      ∀ k, k < n → (relinearize p newBuffer n).1 k = p.buffer ((p.head + k) % p.pipeSize) := by
  intro n
  induction n with
  | zero =>
      exact ⟨(Nat.mod_eq_of_lt hp.head).symm, fun k hk => absurd hk (by omega)⟩
  | succ n ih =>
      obtain ⟨ihead, icells⟩ := ih
      refine ⟨?_, fun k hk => ?_⟩
      · simp [relinearize, ihead, Nat.add_assoc]
      · simp only [relinearize, blit]
        split
        · next h =>
          obtain rfl : k = n := by omega
          rw [ihead]
        · exact icells k (by omega)

theorem setPipeSize_ok (hp : p.Ok) (newSize : Nat) (newBuffer : Option (Nat → UInt8)) :
    (p.setPipeSize newSize newBuffer).2.Ok ∧
      (p.setPipeSize newSize newBuffer).2.stored = p.stored := by
  simp only [setPipeSize]
  split
  · exact ⟨hp, rfl⟩
  next hsize =>
  have hmin : 0 < newSize := by
    have : minPipeSize ≤ newSize := by omega
    exact Nat.lt_of_lt_of_le (by decide) this
  split
  · exact ⟨hp, rfl⟩
  next hfit =>
  have hcount : p.count ≤ newSize := by omega
  split
  · exact ⟨hp, rfl⟩
  next newBuffer =>
  split
  · refine ⟨⟨hmin, hcount, hcount, by simp⟩, ?_⟩
    exact contents_linear hcount (relinearize_spec hp newBuffer p.count).2
  next hzero =>
  have hzero : p.count = 0 := by omega
  refine ⟨⟨hmin, hcount, Nat.zero_le _, by simp [hzero]⟩, ?_⟩
  simp [stored, contents, hzero]

end Pipe

def Point.moved : Point → Nat
  | .wait => 0
  | .loop i | .copy i => i

def Pc.Counts (m : Nat) : Pc → Prop
  | .start => m = 0
  | .held pt | .asleep pt => pt.moved = m
  | .checking i => i = m
  | .done ret => 0 ≤ ret → ret = m

theorem counts_partialOr {i : Nat} {err : Int} (herr : err < 0) :
    Pc.Counts i (.done (partialOr i err)) := by
  simp only [Pc.Counts, partialOr]
  split <;> omega

/-- What a round of a writer does: the bytes it took in are the last stored,
and the call counts them. -/
structure Wrote (p : Pipe) (pt : Point) (res : Pipe × List UInt8 × Pc) :
    Prop where
  ok : res.1.Ok
  stored : res.1.stored = p.stored ++ res.2.1
  counts : res.2.2.Counts (pt.moved + res.2.1.length)

/-- What a round of a reader does: the bytes it handed out were the first
stored, and the call counts them. -/
structure Handed (p : Pipe) (pt : Point) (res : Pipe × List UInt8 × Pc) :
    Prop where
  ok : res.1.Ok
  stored : p.stored = res.2.1 ++ res.1.stored
  counts : res.2.2.Counts (pt.moved + res.2.1.length)

theorem Wrote.idle {pc : Pc} (hp : p.Ok) (hc : pc.Counts pt.moved) : Wrote p pt (p, [], pc) :=
  ⟨hp, (List.append_nil _).symm, hc⟩

theorem Handed.idle {pc : Pc} (hp : p.Ok) (hc : pc.Counts pt.moved) : Handed p pt (p, [], pc) :=
  ⟨hp, rfl, hc⟩

theorem Wrote.bulk (hp : p.Ok) {i : Nat} (hi : pt.moved = i) (remaining : Nat) (src : Nat → UInt8) :
    Wrote p pt (p.writeBulk (p.writeChunk remaining) src, cells src (p.writeChunk remaining),
      .held (.loop (i + p.writeChunk remaining))) := by
  obtain ⟨hroom, hfit⟩ := Pipe.writeChunk_le hp remaining
  obtain ⟨hok, hst⟩ := Pipe.writeBulk_ok hp src hroom hfit
  refine ⟨hok, hst, ?_⟩
  rw [hi, length_cells]
  rfl

theorem Handed.bulk (hp : p.Ok) {i : Nat} (hi : pt.moved = i) (remaining : Nat) :
    Handed p pt (p.readBulk (p.readChunk remaining),
      cells (fun k => p.buffer (p.head + k)) (p.readChunk remaining),
      .held (.loop (i + p.readChunk remaining))) := by
  obtain ⟨hroom, hle⟩ := Pipe.readChunk_le hp remaining
  obtain ⟨hok, hst⟩ := Pipe.readBulk_ok hp hroom hle
  refine ⟨hok, hst, ?_⟩
  rw [hi, length_cells]
  rfl

theorem Handed.wait (hp : p.Ok) (nonblock : Bool)
    (out : Outside) : Handed p pt (readWait nonblock out p pt) := by
  have herr : ∀ {err : Int}, err < 0 → Pc.Counts pt.moved (.done err) :=
    fun h hret => absurd hret (by omega)
  rw [readWait]
  split
  · exact .idle hp (herr (by decide))
  split
  · exact .idle hp (herr (by decide))
  split
  · exact .idle hp (herr (by decide))
  · exact .idle hp rfl

/-- Every round of a writer, unless it pushes a byte with the tail at the end
of the buffer. -/
theorem writeRound_ok {call : PipeCall} {n : Int} {nonblock : Bool} (hp : p.Ok)
    (hpush : ∀ i, pt = .loop i → call = .write → (i : Int) < n →
      p.readIsOpen = true → out.killed = false → p.count < p.pipeSize →
      out.copyOk = true → p.tail < p.pipeSize) :
    Wrote p pt (writeRound call n nonblock out p pt) := by
  cases pt with
  | wait => exact .idle hp rfl
  | loop i =>
      simp only [writeRound]
      split
      · exact .idle hp fun _ => rfl
      next hn =>
      split
      · refine .idle hp fun hret => ?_
        split at hret <;> exact absurd hret (by decide)
      next hopen =>
      split
      · split
        · exact .idle hp (counts_partialOr (by decide))
        split
        · exact .idle hp (counts_partialOr (by decide))
        · exact .idle hp rfl
      next hfull =>
      cases call with
      | write =>
          dsimp only
          split
          · next hcopy =>
            simp only [Bool.or_eq_true, Bool.not_eq_true', not_or,
              Bool.not_eq_false, Bool.not_eq_true] at hopen
            obtain ⟨hok, hst⟩ := Pipe.push_ok hp (out.src i) (by omega)
              (hpush i rfl rfl (by omega) hopen.1 hopen.2 (by omega) hcopy)
            exact ⟨hok, hst, rfl⟩
          · exact .idle hp fun _ => rfl
      | writeInKernel => exact .bulk hp rfl _ _
      | writeFromUser | read | readToUser => exact .idle hp rfl
  | copy i =>
      simp only [writeRound]
      split
      · exact .idle hp rfl
      split
      · exact .bulk hp rfl _ _
      · exact .idle hp (counts_partialOr (by decide))

theorem readRound_ok {call : PipeCall} {n : Int} {nonblock : Bool} (hp : p.Ok) :
    Handed p pt (readRound call n nonblock out p pt) := by
  cases pt with
  | wait =>
      simp only [readRound]
      split
      · exact .wait hp _ _
      · exact .idle hp rfl
  | loop i =>
      cases call with
      | read =>
          simp only [readRound]
          split
          · exact .bulk hp rfl _
          · exact .idle hp fun _ => rfl
      | readToUser | write | writeInKernel | writeFromUser =>
          simp only [readRound]
          split
          · exact .idle hp fun _ => rfl
          split
          · exact .wait hp _ _
          split
          · exact .idle hp fun _ => rfl
          · exact .idle hp rfl
  | copy i =>
      simp only [readRound]
      split
      · exact .idle hp rfl
      split
      · exact .bulk hp rfl _
      · exact .idle hp (counts_partialOr (by decide))

namespace PipeSystem

/-- The law: the two streams agree up to what is stored, and a call that
returned a count moved that many bytes. -/
structure Fifo (s : PipeSystem) : Prop where
  stream : s.accepted = s.delivered ++ s.pipe.stored
  returns : ∀ tid t ret, s.threads tid = some t → t.pc = .done ret → 0 ≤ ret → ret = t.moved.length

/-- What one event preserves. -/
structure Inv (s : PipeSystem) : Prop where
  ring : s.pipe.Ok
  stream : s.accepted = s.delivered ++ s.pipe.stored
  counts : ∀ tid t, s.threads tid = some t → t.pc.Counts t.moved.length

/-- The event is a round of `write` that stores a byte. -/
def Pushes (s : PipeSystem) : PipeEvent → Prop
  | .go tid out => ∃ t i, s.threads tid = some t ∧ t.call = .write ∧
      t.pc = .held (.loop i) ∧ (i : Int) < t.n ∧ s.pipe.readIsOpen = true ∧
      out.killed = false ∧ s.pipe.count < s.pipe.pipeSize ∧ out.copyOk = true
  | _ => False

def PushInside (s : PipeSystem) (e : PipeEvent) : Prop :=
  s.Pushes e → s.pipe.tail < s.pipe.pipeSize

theorem Inv.fifo (hs : s.Inv) : s.Fifo :=
  ⟨hs.stream, fun tid t ret ht hpc => by
    have := hs.counts tid t ht
    rwa [hpc] at this⟩

/-- A thread's record may change as long as its point still counts its
bytes. -/
theorem Inv.setThread (hs : s.Inv) (tid : Nat) (ht : t.pc.Counts t.moved.length) :
    (s.setThread tid t).Inv := by
  refine ⟨hs.ring, hs.stream, fun j u hu => ?_⟩
  simp only [PipeSystem.setThread] at hu
  split at hu
  · cases hu; exact ht
  · exact hs.counts j u hu

theorem Inv.acquire {s' : PipeSystem} (hs : s.Inv) {tid : Nat} (hpt : pt.moved = t.moved.length)
    (h : s.acquire tid t pt = some s') : s'.Inv := by
  rw [PipeSystem.acquire] at h
  split at h
  · cases h
    obtain ⟨h1, h2, h3⟩ :=
      hs.setThread tid (t := { t with pc := .held pt }) hpt
    exact ⟨h1, h2, h3⟩
  · cases h

theorem Inv.round (hs : s.Inv) {tid : Nat} (ht : s.threads tid = some t)
    (hpc : t.pc = .held pt) (hC : s.PushInside (.go tid out)) : (s.round tid t pt out).Inv := by
  have hmoved : pt.moved = t.moved.length := by
    have := hs.counts tid t ht
    rwa [hpc] at this
  have hthread : ∀ {pc : Pc} {bytes : List UInt8}, pc.Counts (pt.moved + bytes.length) → ∀ j u,
      (s.setThread tid { t with pc, moved := t.moved ++ bytes }).threads j =
        some u → u.pc.Counts u.moved.length := by
    intro pc bytes hc
    refine (hs.setThread tid ?_).counts
    rwa [List.length_append, ← hmoved]
  cases hw : t.call.isWrite with
  | true =>
      obtain ⟨hok, hst, hc⟩ :
          Wrote s.pipe pt (writeRound t.call t.n t.nonblock out s.pipe pt) := by
        refine writeRound_ok hs.ring ?_
        rintro i rfl hcall hn hopen hkilled hcount hcopy
        exact hC ⟨t, i, ht, hcall, hpc, hn, hopen, hkilled, hcount, hcopy⟩
      have hstream : s.accepted ++ (writeRound t.call t.n t.nonblock out s.pipe pt).2.1 =
          s.delivered ++ (writeRound t.call t.n t.nonblock out s.pipe pt).1.stored := by
        rw [hst, ← List.append_assoc, ← hs.stream]
      simp only [PipeSystem.round, hw]
      exact ⟨hok, hstream, hthread hc⟩
  | false =>
      obtain ⟨hok, hst, hc⟩ :
          Handed s.pipe pt (readRound t.call t.n t.nonblock out s.pipe pt) :=
        readRound_ok hs.ring
      have hstream := hs.stream
      rw [hst, ← List.append_assoc] at hstream
      simp only [PipeSystem.round, hw]
      exact ⟨hok, hstream, hthread hc⟩

/-- A step that stores no byte through `push`, or stores it inside. -/
theorem Inv.step {s' : PipeSystem} {e : PipeEvent} (hs : s.Inv)
    (hC : s.PushInside e) (h : s.step e = some s') : s'.Inv := by
  cases e with
  | enter tid call n nonblock =>
      simp only [PipeSystem.step] at h
      split at h
      · cases h; exact hs.setThread tid rfl
      · cases h; exact hs.setThread tid rfl
      · cases h
  | go tid out =>
      simp only [PipeSystem.step] at h
      split at h
      · cases h
      next t ht =>
      have hcounts := hs.counts tid t ht
      split at h
      · next hpc =>
        rw [hpc] at hcounts
        refine hs.acquire ?_ h
        split <;> exact hcounts.symm
      · next pt hpc =>
        rw [hpc] at hcounts
        exact hs.acquire hcounts h
      · next i hpc =>
        rw [hpc] at hcounts
        split at h
        · exact hs.acquire
            (show (Point.copy i).moved = t.moved.length from hcounts) h
        · cases h
          refine hs.setThread tid ?_
          rw [← show i = t.moved.length from hcounts]
          exact counts_partialOr (by decide)
      · next pt hpc =>
        split at h
        · cases h
          exact hs.round ht hpc hC
        · cases h
      · cases h
  | setPipeSize newSize newBuffer =>
      simp only [PipeSystem.step] at h
      split at h
      · cases h
        obtain ⟨hok, hst⟩ := Pipe.setPipeSize_ok hs.ring newSize newBuffer
        exact ⟨hok, by rw [hst]; exact hs.stream, hs.counts⟩
      · cases h
  | close isWrite =>
      simp only [PipeSystem.step] at h
      repeat' split at h
      all_goals cases h
      all_goals exact ⟨⟨hs.ring.head, hs.ring.count, hs.ring.tail, hs.ring.next⟩,
        hs.stream, hs.counts⟩

/-- A pipe as `alloc` hands it out satisfies the invariant. -/
theorem inv_init (storage : Nat → UInt8) (privileged : Bool) (newBuffer : Option (Nat → UInt8)) :
    (init ((Pipe.new storage).alloc privileged newBuffer)).Inv := by
  have hsize : 0 < ((Pipe.new storage).alloc privileged newBuffer).pipeSize := by
    cases privileged <;> cases newBuffer <;> exact Nat.succ_pos _
  exact ⟨⟨hsize, Nat.zero_le _, Nat.zero_le _, rfl⟩, rfl, fun _ _ h => nomatch h⟩

end PipeSystem

/-- The law holds throughout every run that pushes bytes only inside the
buffer. -/
theorem pipe_run_fifo {storage : Nat → UInt8} {privileged : Bool}
    {newBuffer : Option (Nat → UInt8)} {events : List PipeEvent} {s : PipeSystem}
    (hr : Run.Guarded PipeSystem.step PipeSystem.PushInside
      (.init ((Pipe.new storage).alloc privileged newBuffer)) events s) : s.Fifo :=
  (hr.inv PipeSystem.Inv.step (PipeSystem.inv_init _ _ _)).fifo

/-- A round that finds nothing in its way and reads bytes of the given
value. -/
def quiet (byte : UInt8) : Outside :=
  { killed := false, signalPending := false, copyOk := true,
    src := fun _ => byte }

/-- One call made by thread zero and run for `rounds` rounds. -/
def wholeCall (call : PipeCall) (n : Int) (byte : UInt8) (rounds : Nat) : List PipeEvent :=
  .enter 0 call n false :: List.replicate rounds (.go 0 (quiet byte))

/-- Two bytes written, one by a bulk write and one by `write`, and read
back. -/
theorem pipe_run_fifo_two : ∃ s, s.delivered = [1, 2] ∧
    Run.Guarded PipeSystem.step PipeSystem.PushInside
      (.init ((Pipe.new fun _ => 0).alloc false none))
      (wholeCall .writeInKernel 1 1 3 ++ wholeCall .write 1 2 3 ++
        wholeCall .read 2 0 4) s ∧ s.Fifo := by
  refine ⟨?s, ?delivered, ?run, pipe_run_fifo ?run⟩
  case run =>
    repeat' first
      | exact .nil _
      | refine .cons (fun _ => by decide) rfl ?_
  case delivered => rfl

/-- A pipe with 256 bytes in it is shrunk to hold exactly those; one byte is
read, one is pushed, and the rest is read. -/
def overrun : List PipeEvent :=
  wholeCall .writeInKernel 1 1 3 ++ wholeCall .writeInKernel 255 2 3 ++
    [.setPipeSize 256 (some fun _ => 0)] ++ wholeCall .read 1 0 4 ++
    wholeCall .write 1 3 3 ++ wholeCall .read 256 0 5

/-- Streams of one length agree, for nothing is stored then. -/
theorem PipeSystem.Fifo.accepted_eq {s : PipeSystem} (h : s.Fifo)
    (hlen : s.accepted.length = s.delivered.length) : s.accepted = s.delivered := by
  have hlength := congrArg List.length h.stream
  rw [List.length_append] at hlength
  rw [h.stream, List.length_eq_zero_iff.mp (by omega : s.pipe.stored.length = 0), List.append_nil]

/-- The pushed byte lands past the end of the buffer, and the reader gets the
first byte a second time in its place. -/
theorem pipe_run_overrun :
    ∃ s, overrun.foldlM PipeSystem.step (.init ((Pipe.new fun _ => 0).alloc false none)) = some s ∧
      (s.accepted.length = 257 ∧ s.accepted.getLast? = some 3) ∧
      (s.delivered.length = 257 ∧ s.delivered.getLast? = some 1) ∧ ¬ s.Fifo :=
  ⟨_, rfl, by decide +kernel, by decide +kernel, fun h =>
    absurd (congrArg List.getLast? (h.accepted_eq (by decide +kernel))) (by decide +kernel)⟩

end F7ly.Proc
