import F7ly.Proofs.PipeFifo

/-!
# The indices of a pipe's ring

Both indices stay inside the buffer, the tail is where the head and the count put it,
and every byte the pipe touches is in the buffer, as long as no resize leaves exactly
room for the bytes that are stored. Such a resize sets the tail to the size itself:
the law is broken from that event on, whatever is stored next, so the condition is
also needed.
-/

namespace F7ly.Proc

open F7ly.Ring PipeSystem List

variable {p : Pipe} {s : PipeSystem} {e : PipeEvent}

namespace Pipe

structure InRing (p : Pipe) : Prop where
  head : p.head < p.pipeSize
  tail : p.tail < p.pipeSize
  count : p.count ≤ p.pipeSize
  next : p.tail = (p.head + p.count) % p.pipeSize

theorem Ok.inRing (hp : p.Ok) (htail : p.tail < p.pipeSize) : p.InRing :=
  ⟨hp.head, htail, hp.count, (Nat.mod_eq_of_lt htail).symm.trans hp.next⟩

/-- The resize gives the bytes that are stored a buffer they fill. -/
def Fills (p : Pipe) (newSize : Nat) (newBuffer : Option (Nat → UInt8)) : Prop :=
  newSize = p.count ∧ minPipeSize ≤ newSize ∧ newSize ≤ maxPipeSize ∧ newBuffer ≠ none

theorem minPipeSize_pos : 0 < minPipeSize := by decide

theorem setPipeSize_tail (htail : p.tail < p.pipeSize) (newSize : Nat)
    (newBuffer : Option (Nat → UInt8)) :
    (p.setPipeSize newSize newBuffer).2.tail < (p.setPipeSize newSize newBuffer).2.pipeSize ↔
      ¬p.Fills newSize newBuffer := by
  have hmin := minPipeSize_pos
  simp only [setPipeSize, Fills]
  split
  · exact iff_of_true htail (by omega)
  split
  · exact iff_of_true htail (by omega)
  cases newBuffer with
  | none => exact iff_of_true htail fun h => h.2.2.2 rfl
  | some newBuffer =>
      dsimp only
      split
      · simp only [reduceCtorEq, not_false_eq_true, and_true, ne_eq]
        omega
      · dsimp only
        omega

end Pipe

/-- The cells of the buffer, from the tail on, that a round of a writer stores to. A
copy from the user may fail after any of them. -/
def writeReach (call : PipeCall) (n : Int) (out : Outside) (p : Pipe) : Point → Nat
  | .wait => 0
  | .loop i =>
      if ¬(i : Int) < n ∨ !p.readIsOpen ∨ out.killed ∨ p.count ≥ p.pipeSize then 0
      else
        match call with
        | .write => if out.copyOk then 1 else 0
        | .writeInKernel => p.writeChunk (n - i).toNat
        | _ => 0
  | .copy i =>
      if !p.readIsOpen || out.killed || p.count ≥ p.pipeSize then 0
      else p.writeChunk (n - i).toNat

def readReach (call : PipeCall) (n : Int) (p : Pipe) : Point → Nat
  | .wait => 0
  | .loop i =>
      if call = .read ∧ (i : Int) < n ∧ p.count > 0 then p.readChunk (n - i).toNat else 0
  | .copy i => if p.count = 0 then 0 else p.readChunk (n - i).toNat

theorem writeReach_le (hp : p.Ok) (htail : p.tail < p.pipeSize)
    (call : PipeCall) (n : Int) (out : Outside) (pt : Point) :
    p.tail + writeReach call n out p pt ≤ p.pipeSize := by
  have hchunk := fun remaining => (Pipe.writeChunk_le hp remaining).1
  cases pt with
  | wait => exact hp.tail
  | loop i =>
      simp only [writeReach]
      split
      · exact hp.tail
      cases call with
      | write =>
          dsimp only
          split
          · exact htail
          · exact hp.tail
      | writeInKernel => exact hchunk _
      | writeFromUser | read | readToUser => exact hp.tail
  | copy i =>
      simp only [writeReach]
      split
      · exact hp.tail
      · exact hchunk _

theorem readReach_le (hp : p.Ok) (call : PipeCall) (n : Int) (pt : Point) :
    p.head + readReach call n p pt ≤ p.pipeSize := by
  have hchunk := fun remaining => (Pipe.readChunk_le hp remaining).1
  have hhead : p.head ≤ p.pipeSize := Nat.le_of_lt hp.head
  cases pt with
  | wait => exact hhead
  | loop i =>
      simp only [readReach]
      split
      · exact hchunk _
      · exact hhead
  | copy i =>
      simp only [readReach]
      split
      · exact hhead
      · exact hchunk _

theorem writeRound_tail {call : PipeCall} {n : Int} {nonblock : Bool} {out : Outside}
    (htail : p.tail < p.pipeSize) (pt : Point) :
    (writeRound call n nonblock out p pt).1.tail <
      (writeRound call n nonblock out p pt).1.pipeSize := by
  have hsize : 0 < p.pipeSize := Nat.zero_lt_of_lt htail
  have hbulk : ∀ (chunk : Nat) (src : Nat → UInt8),
      (p.writeBulk chunk src).tail < (p.writeBulk chunk src).pipeSize :=
    fun chunk _ => Nat.mod_lt _ hsize
  have hpush : ∀ data, (p.push data).tail < (p.push data).pipeSize := by
    intro data
    rw [Pipe.push]
    split
    · exact htail
    · exact Nat.mod_lt _ hsize
  cases pt with
  | wait => exact htail
  | loop i =>
      cases call <;> simp only [writeRound] <;> repeat' split
      all_goals first | exact htail | exact hpush _ | exact hbulk _ _
  | copy i =>
      simp only [writeRound]
      repeat' split
      all_goals first | exact htail | exact hbulk _ _

theorem readRound_tail {call : PipeCall} {n : Int} {nonblock : Bool} {out : Outside}
    (htail : p.tail < p.pipeSize) (pt : Point) :
    (readRound call n nonblock out p pt).1.tail <
      (readRound call n nonblock out p pt).1.pipeSize := by
  cases pt with
  | wait | copy =>
      simp only [readRound, readWait]
      repeat' split
      all_goals exact htail
  | loop i =>
      cases call <;> simp only [readRound, readWait] <;> repeat' split
      all_goals exact htail

namespace PipeSystem

/-- The accesses to a buffer that an event makes: the index, and the size of the buffer. -/
def accesses (s : PipeSystem) : PipeEvent → List (Nat × Nat)
  | .go tid out =>
      match s.threads tid with
      | some { call, n, pc := .held pt, .. } =>
          if call.isWrite then
            (range (writeReach call n out s.pipe pt)).map
              fun k => (s.pipe.tail + k, s.pipe.pipeSize)
          else
            (range (readReach call n s.pipe pt)).map
              fun k => (s.pipe.head + k, s.pipe.pipeSize)
      | _ => []
  | .setPipeSize newSize (some newBuffer) =>
      if newSize < minPipeSize ∨ newSize > maxPipeSize ∨ newSize < s.pipe.count then []
      else
        (range s.pipe.count).flatMap fun k =>
          [((s.pipe.relinearize newBuffer k).2, s.pipe.pipeSize), (k, newSize)]
  | _ => []

/-- What an event of a pipe does: it touches the buffer inside, leaves the indices in
the ring, and a resize leaves the bytes. -/
structure Ringed (s : PipeSystem) (e : PipeEvent) : Prop where
  inside : ∀ x ∈ s.accesses e, x.1 < x.2
  after : ∀ {s'}, s.step e = some s' → s'.pipe.InRing
  resize : ∀ {s' newSize newBuffer}, e = .setPipeSize newSize newBuffer →
    s.step e = some s' → s'.pipe.stored = s.pipe.stored

def Roomy (s : PipeSystem) : PipeEvent → Prop
  | .setPipeSize newSize newBuffer => ¬s.pipe.Fills newSize newBuffer
  | _ => True

theorem accesses_inside (hp : s.pipe.Ok) (htail : s.pipe.tail < s.pipe.pipeSize) (e : PipeEvent) :
    ∀ x ∈ s.accesses e, x.1 < x.2 := by
  intro x hx
  cases e with
  | enter | close => exact absurd hx not_mem_nil
  | go tid out =>
      simp only [accesses] at hx
      split at hx
      · next call n _ pt _ _ =>
        split at hx
        · obtain ⟨k, hk, rfl⟩ := mem_map.mp hx
          have hle := writeReach_le hp htail call n out pt
          have hk := mem_range.mp hk
          omega
        · obtain ⟨k, hk, rfl⟩ := mem_map.mp hx
          have hle := readReach_le hp call n pt
          have hk := mem_range.mp hk
          omega
      · exact absurd hx not_mem_nil
  | setPipeSize newSize newBuffer =>
      cases newBuffer with
      | none => exact absurd hx not_mem_nil
      | some newBuffer =>
          simp only [accesses] at hx
          split at hx
          · exact absurd hx not_mem_nil
          · obtain ⟨k, hk, hx⟩ := mem_flatMap.mp hx
            have hk := mem_range.mp hk
            rcases mem_pair.mp hx with rfl | rfl
            · rw [(Pipe.relinearize_spec hp newBuffer k).1]
              exact Nat.mod_lt _ (Nat.zero_lt_of_lt htail)
            · omega

theorem step_tail {s' : PipeSystem} (htail : s.pipe.tail < s.pipe.pipeSize)
    (h : s.step e = some s') : s'.pipe.tail < s'.pipe.pipeSize ↔ s.Roomy e := by
  cases e with
  | enter tid call n nonblock =>
      simp only [step] at h
      repeat' split at h
      all_goals cases h
      all_goals exact iff_of_true htail trivial
  | close isWrite =>
      simp only [step] at h
      repeat' split at h
      all_goals cases h
      all_goals exact iff_of_true htail trivial
  | go tid out =>
      refine iff_of_true ?_ trivial
      simp only [step, acquire] at h
      repeat' split at h
      all_goals cases h
      all_goals first | exact htail | skip
      next t _ _ pt _ _ =>
      simp only [round]
      split
      · exact writeRound_tail htail pt
      · exact readRound_tail htail pt
  | setPipeSize newSize newBuffer =>
      simp only [step] at h
      split at h
      · cases h
        exact Pipe.setPipeSize_tail htail newSize newBuffer
      · cases h

def Good (s : PipeSystem) : Prop := s.Inv ∧ s.pipe.tail < s.pipe.pipeSize

theorem Good.step {s' : PipeSystem} (hs : s.Good) (he : s.Roomy e)
    (h : s.step e = some s') : s'.Good :=
  ⟨hs.1.step (fun _ => hs.2) h, (step_tail hs.2 h).mpr he⟩

theorem Good.ringed (hs : s.Good) (he : s.Roomy e) : s.Ringed e := by
  refine ⟨accesses_inside hs.1.ring hs.2 e, fun h => ?_, fun {s' newSize newBuffer} heq h => ?_⟩
  · have hs' := hs.step he h
    exact hs'.1.ring.inRing hs'.2
  · subst heq
    simp only [PipeSystem.step] at h
    split at h
    · cases h
      exact (Pipe.setPipeSize_ok hs.1.ring newSize newBuffer).2
    · cases h

theorem good_init (storage : Nat → UInt8) (privileged : Bool) (newBuffer : Option (Nat → UInt8)) :
    (init ((Pipe.new storage).alloc privileged newBuffer)).Good := by
  have hinv := inv_init storage privileged newBuffer
  exact ⟨hinv, Nat.lt_of_le_of_lt (Nat.zero_le _) hinv.ring.head⟩

theorem ringed_iff_roomy {s' : PipeSystem} (hs : s.Good)
    (h : s.step e = some s') : s.Ringed e ↔ s.Roomy e :=
  ⟨fun he => (step_tail hs.2 h).mp (he.after h).tail, hs.ringed⟩

end PipeSystem

/-- A pipe starts in its ring, and the events of a run keep it there exactly where none
of them resizes the pipe to the bytes it holds. -/
theorem pipe_run_ringed_iff {storage : Nat → UInt8} {privileged : Bool}
    {newBuffer : Option (Nat → UInt8)} {events : List PipeEvent} {s : PipeSystem} :
    ((Pipe.new storage).alloc privileged newBuffer).InRing ∧
      (Run.Guarded PipeSystem.step PipeSystem.Ringed
          (.init ((Pipe.new storage).alloc privileged newBuffer)) events s ↔
        Run.Guarded PipeSystem.step PipeSystem.Roomy
          (.init ((Pipe.new storage).alloc privileged newBuffer)) events s) := by
  have hgood := good_init storage privileged newBuffer
  refine ⟨hgood.1.ring.inRing hgood.2, ?_⟩
  generalize init _ = s₀ at hgood
  constructor
  · intro hr
    induction hr with
    | nil s => exact .nil s
    | cons he hf _ ih =>
        have he := (ringed_iff_roomy hgood hf).mp he
        exact .cons he hf (ih (hgood.step he hf))
  · intro hr
    induction hr with
    | nil s => exact .nil s
    | cons he hf _ ih => exact .cons (hgood.ringed he) hf (ih (hgood.step he hf))

/-- 256 bytes are written and the pipe is shrunk to hold exactly those: the resize
succeeds and leaves the tail outside the buffer. -/
theorem pipe_run_not_ringed :
    ∃ s s', (wholeCall .writeInKernel 256 1 3).foldlM PipeSystem.step
        (.init ((Pipe.new fun _ => 0).alloc false none)) = some s ∧
      s.pipe.InRing ∧ (s.pipe.setPipeSize 256 (some fun _ => 0)).1 = 256 ∧
      s.step (.setPipeSize 256 (some fun _ => 0)) = some s' ∧
      s'.pipe.tail = s'.pipe.pipeSize ∧ ¬s'.pipe.InRing := by
  refine ⟨_, _, rfl, ⟨by decide, by decide, by decide, by decide⟩, by decide +kernel, rfl,
    by decide +kernel, fun h => ?_⟩
  exact absurd h.tail (by decide +kernel)

end F7ly.Proc
