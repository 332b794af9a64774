import Mathlib
import F7ly.Lib.Run
import F7ly.Proofs.PipeFifo

/-!
# Atomic writes to a pipe

A write of at most `PIPE_BUF` bytes should be one block of the stream. The stream is
kept here with the call that each byte is from: a `PipeLog` is the system with that
record beside it. A call that stores its first bytes while the rest does not fit has to
drop the lock before it goes on, and `write_from_user` drops it between any two chunks.
Where neither happens (`Fits`), a call keeps the lock from its first byte to its last,
and that is the invariant.
-/

namespace F7ly.Proc

open F7ly.Ring List

def pipeBuf : Nat := 4096

/-- A write call that returned the size it was asked for. -/
structure Written where
  call : Nat
  n : Int
  bytes : List UInt8
  deriving DecidableEq

/-- The pipe's system, the number of each thread's call, the stream of the bytes taken
in with the numbers of their calls, and the write calls that returned in full. -/
structure PipeLog where
  sys : PipeSystem
  serial : Nat → Nat
  calls : Nat
  stream : List (Nat × UInt8)
  written : List Written

namespace PipeLog

def init (p : Pipe) : PipeLog :=
  { sys := .init p, serial := fun _ => 0, calls := 0, stream := [], written := [] }

def tag (k : Nat) (bytes : List UInt8) : List (Nat × UInt8) := bytes.map (Prod.mk k)

def returned (k : Nat) (t : PipeThread) : List Written :=
  match t.pc with
  | .done ret => if t.call.isWrite ∧ 0 ≤ ret ∧ ret = t.n then [⟨k, t.n, t.moved⟩] else []
  | _ => []

/-- The record after thread `tid` has brought the system to `s`. -/
def after (l : PipeLog) (tid : Nat) (s : PipeSystem) : PipeLog :=
  { l with
    sys := s
    stream := l.stream ++ tag (l.serial tid) (s.accepted.drop l.sys.accepted.length)
    written := l.written ++ ((s.threads tid).map (returned (l.serial tid))).getD [] }

def step (l : PipeLog) (e : PipeEvent) : Option PipeLog :=
  match l.sys.step e with
  | none => none
  | some s =>
      match e with
      | .enter tid _ _ _ =>
          some { l with
            sys := s
            serial := fun j => if j = tid then l.calls else l.serial j
            calls := l.calls + 1 }
      | .go tid _ => some (l.after tid s)
      | _ => some { l with sys := s }

def Block (stream : List (Nat × UInt8)) (k : Nat) (bytes : List UInt8) : Prop :=
  ∃ pre post, stream = pre ++ tag k bytes ++ post ∧ ∀ x ∈ pre ++ post, x.1 ≠ k

/-- Every write of at most `PIPE_BUF` bytes that returned in full is one block. -/
def Atomic (l : PipeLog) : Prop :=
  ∀ w ∈ l.written, w.n ≤ pipeBuf → (w.bytes.length : Int) = w.n ∧ Block l.stream w.call w.bytes

end PipeLog

/-- All bytes of a call fit: into the free space, or for `write_from_user` into one
chunk, since it drops the lock behind each. -/
def Whole (call : PipeCall) (n : Int) (p : Pipe) : Prop :=
  if call = .writeFromUser then p.writeChunk n.toNat = n.toNat
  else p.count + n.toNat ≤ p.pipeSize

instance (call : PipeCall) (n : Int) (p : Pipe) : Decidable (Whole call n p) :=
  inferInstanceAs (Decidable (ite _ _ _))

/-- A round that stores the first bytes of its call has room for all of them. -/
def FitsAt (call : PipeCall) (n : Int) (nonblock : Bool) (out : Outside) (p : Pipe)
    (pt : Point) : Prop :=
  pt.moved = 0 → (writeRound call n nonblock out p pt).2.1 ≠ [] → Whole call n p

instance (call : PipeCall) (n : Int) (nonblock : Bool) (out : Outside) (p : Pipe) (pt : Point) :
    Decidable (FitsAt call n nonblock out p pt) :=
  inferInstanceAs (Decidable (_ → _ → _))

/-- With `i` bytes stored, the call is over or the rest fits. -/
def Room (call : PipeCall) (n : Int) (p : Pipe) (i : Nat) : Prop :=
  n.toNat ≤ i ∨ call ≠ .writeFromUser ∧ p.count + (n.toNat - i) ≤ p.pipeSize

/-- What a round of a small write leaves: a return, or the lock held behind the bytes
stored so far. -/
def GoesOn (call : PipeCall) (n : Int) (i : Nat) (res : Pipe × List UInt8 × Pc) : Prop :=
  (∃ ret, res.2 = ([], .done ret) ∧ (0 ≤ ret → ret = i)) ∨
  ((∀ ret, res.2.2 ≠ .done ret) ∧ res.2.2.Counts (i + res.2.1.length) ∧
    (i + res.2.1.length ≠ 0 → res.2.2 = .held (.loop (i + res.2.1.length)) ∧
      Room call n res.1 (i + res.2.1.length)))

variable {call : PipeCall} {n : Int} {p : Pipe} {out : Outside} {pt : Point} {l : PipeLog}
  {tid : Nat} {t : PipeThread} {s : PipeSystem}

theorem GoesOn.done {ret : Int} {i : Nat}
    (h : 0 ≤ ret → ret = i) : GoesOn call n i (p, [], .done ret) := .inl ⟨ret, rfl, h⟩

theorem GoesOn.idle {pc : Pc}
    (hpc : ∀ ret, pc ≠ .done ret) (hc : pc.Counts 0) : GoesOn call n 0 (p, [], pc) :=
  .inr ⟨hpc, hc, fun h => absurd rfl h⟩

theorem writeChunk_le_remaining (p : Pipe) (remaining : Nat) :
    p.writeChunk remaining ≤ remaining ∧ p.writeChunk remaining ≤ p.pipeSize - p.count := by
  simp only [Pipe.writeChunk]
  constructor <;> repeat' split
  all_goals omega

theorem GoesOn.bulk {i : Nat} {src : Nat → UInt8}
    (h : p.writeChunk (n - i).toNat = 0 ∧ i = 0 ∨ n.toNat ≤ i + p.writeChunk (n - i).toNat ∨
      call ≠ .writeFromUser ∧ p.count + (n.toNat - i) ≤ p.pipeSize) :
    GoesOn call n i (p.writeBulk (p.writeChunk (n - i).toNat) src,
      cells src (p.writeChunk (n - i).toNat), .held (.loop (i + p.writeChunk (n - i).toNat))) := by
  have hle := writeChunk_le_remaining p (n - i).toNat
  refine .inr ⟨nofun, by rw [length_cells]; rfl, fun hne => ?_⟩
  rw [length_cells] at hne ⊢
  refine ⟨rfl, ?_⟩
  rcases h with ⟨hzero, rfl⟩ | h | ⟨hcall, hfit⟩
  · rw [hzero] at hne
    exact absurd rfl hne
  · exact .inl h
  · refine .inr ⟨hcall, ?_⟩
    dsimp only [Pipe.writeBulk]
    omega

theorem writeRound_goesOn {nonblock : Bool} (hcall : call.isWrite = true)
    (hroom : pt.moved ≠ 0 → pt = .loop pt.moved ∧ Room call n p pt.moved)
    (hfits : FitsAt call n nonblock out p pt) :
    GoesOn call n pt.moved (writeRound call n nonblock out p pt) := by
  unfold FitsAt at hfits
  cases pt with
  | wait => exact .idle (by simp) rfl
  | loop i =>
      have hroom : i ≠ 0 → Room call n p i := fun h => (hroom h).2
      simp only [writeRound, Point.moved] at hfits ⊢
      split
      · exact .done fun _ => rfl
      next hn =>
      split
      · refine .done fun hret => ?_
        split at hret <;> exact absurd hret (by decide)
      next hopen =>
      split
      · next hfull =>
        -- a call that has stored bytes finds room
        have hzero : i = 0 := by
          by_contra hne
          rcases hroom hne with h | ⟨_, h⟩ <;> omega
        subst hzero
        split
        · exact .done fun hret => absurd hret (by decide)
        split
        · exact .done fun hret => absurd hret (by decide)
        · exact .idle (by simp) rfl
      next hfull =>
      rw [if_neg hn, if_neg hopen, if_neg hfull] at hfits
      have hrest : call ≠ .writeFromUser → (i = 0 → Whole call n p) →
          p.count + (n.toNat - i) ≤ p.pipeSize := by
        intro hcall hwhole
        by_cases hi : i = 0
        · have hwhole := hwhole hi
          rw [Whole, if_neg hcall] at hwhole
          omega
        · rcases hroom hi with h | ⟨_, h⟩
          · omega
          · exact h
      cases call with
      | write =>
          dsimp only at hfits ⊢
          split
          · next hcopy =>
            have hfit := hrest (by decide) fun hi => hfits hi (by simp [hcopy])
            refine .inr ⟨by simp, rfl, fun _ => ⟨rfl, .inr ⟨by decide, ?_⟩⟩⟩
            dsimp only [length_singleton]
            rw [Pipe.push, if_neg hfull]
            dsimp only
            omega
          · exact .done fun _ => rfl
      | writeInKernel =>
          by_cases hempty : p.writeChunk (n - i).toNat = 0 ∧ i = 0
          · exact .bulk (.inl hempty)
          · refine .bulk (.inr (.inr ⟨by decide, hrest (by decide) fun hi => hfits hi ?_⟩))
            exact fun h => hempty ⟨by simpa using congrArg length h, hi⟩
      | writeFromUser =>
          have hzero : i = 0 := by
            by_contra hne
            rcases hroom hne with h | ⟨h, _⟩
            · omega
            · exact h rfl
          subst hzero
          exact .idle (by simp) rfl
      | read | readToUser => exact absurd hcall (by decide)
  | copy i =>
      have hzero : i = 0 := by
        by_contra hne
        exact absurd (hroom hne).1 (by simp)
      subst hzero
      simp only [writeRound, Point.moved] at hfits ⊢
      split
      · exact .idle (by simp) rfl
      next hopen =>
      split
      · next hcopy =>
        rw [if_neg hopen, if_pos hcopy] at hfits
        by_cases hempty : p.writeChunk (n - ((0 : Nat) : Int)).toNat = 0
        · exact .bulk (.inl ⟨hempty, rfl⟩)
        · have hwhole : Whole call n p :=
            hfits trivial fun h => hempty (by simpa using congrArg length h)
          refine .bulk (.inr ?_)
          rw [Whole] at hwhole
          split at hwhole
          · left
            simp [hwhole]
          · next hcall => exact .inr ⟨hcall, by omega⟩
      · exact .done fun hret => absurd hret (by decide)

namespace PipeLog

/-- A small write does not start to store what it cannot finish under the lock. -/
def ThreadFits (p : Pipe) (out : Outside) (t : PipeThread) : Prop :=
  match t.pc with
  | .held pt => t.call.isWrite = true → t.n ≤ pipeBuf → FitsAt t.call t.n t.nonblock out p pt
  | _ => True

instance (p : Pipe) (out : Outside) (t : PipeThread) : Decidable (ThreadFits p out t) := by
  unfold ThreadFits
  exact match t.pc with
    | .held _ => inferInstanceAs (Decidable (_ → _ → _))
    | .start | .asleep _ | .checking _ | .done _ => instDecidableTrue

def Fits (l : PipeLog) : PipeEvent → Prop
  | .go tid out => ∀ t ∈ l.sys.threads tid, ThreadFits l.sys.pipe out t
  | _ => True

instance (l : PipeLog) (e : PipeEvent) : Decidable (l.Fits e) :=
  match e with
  | .go tid _ => inferInstanceAs (Decidable (∀ t ∈ l.sys.threads tid, _))
  | .enter _ _ _ _ | .setPipeSize _ _ | .close _ => instDecidableTrue

theorem Fits.fitsAt (h : l.Fits (.go tid out))
    (ht : l.sys.threads tid = some t) (hpc : t.pc = .held pt)
    (hw : t.call.isWrite = true) (hn : t.n ≤ pipeBuf) :
    FitsAt t.call t.n t.nonblock out l.sys.pipe pt := by
  have h := h t ht
  rw [ThreadFits, hpc] at h
  exact h hw hn

/-- A small write on its way: its bytes are the last of the stream, and from the first
byte on it has the lock. -/
structure Small (l : PipeLog) (tid : Nat) (t : PipeThread) : Prop where
  counts : t.pc.Counts t.moved.length
  last : ∃ pre, l.stream = pre ++ tag (l.serial tid) t.moved ∧ ∀ x ∈ pre, x.1 ≠ l.serial tid
  held : t.moved ≠ [] → l.sys.lock = some tid ∧ t.pc = .held (.loop t.moved.length) ∧
    Room t.call t.n l.sys.pipe t.moved.length

structure Inv (l : PipeLog) : Prop where
  fresh : ∀ x ∈ l.stream, x.1 < l.calls
  old : ∀ w ∈ l.written, w.call < l.calls
  serial_lt : ∀ tid t, l.sys.threads tid = some t → l.serial tid < l.calls
  serial_inj : ∀ i j t u, l.sys.threads i = some t → l.sys.threads j = some u →
    l.serial i = l.serial j → i = j
  ended : ∀ w ∈ l.written, ∀ tid t, l.sys.threads tid = some t →
    l.serial tid = w.call → ∃ ret, t.pc = .done ret
  small : ∀ tid t, l.sys.threads tid = some t → t.call.isWrite = true → t.n ≤ pipeBuf →
    (∀ ret, t.pc ≠ .done ret) → l.Small tid t
  atomic : l.Atomic

theorem tag_fst {k : Nat} {bytes : List UInt8} {x : Nat × UInt8} (h : x ∈ tag k bytes) :
    x.1 = k := by
  obtain ⟨b, _, rfl⟩ := mem_map.mp h
  rfl

theorem Block.append {stream new : List (Nat × UInt8)} {k : Nat} {bytes : List UInt8}
    (h : Block stream k bytes) (hnew : ∀ x ∈ new, x.1 ≠ k) : Block (stream ++ new) k bytes := by
  obtain ⟨pre, post, rfl, hne⟩ := h
  refine ⟨pre, post ++ new, by simp [append_assoc], fun x hx => ?_⟩
  rw [← append_assoc] at hx
  rcases mem_append.mp hx with hx | hx
  · exact hne x hx
  · exact hnew x hx

theorem Small.frame {l' : PipeLog} (h : l.Small tid t)
    {new : List (Nat × UInt8)} (hserial : l'.serial tid = l.serial tid)
    (hstream : l'.stream = l.stream ++ new) (hnew : ∀ x ∈ new, x.1 ≠ l.serial tid)
    (hquiet : t.moved = [] ∨ new = [] ∧ l'.sys.lock = l.sys.lock ∧ l'.sys.pipe = l.sys.pipe) :
    l'.Small tid t := by
  obtain ⟨pre, hpre, hne⟩ := h.last
  rcases hquiet with hmoved | ⟨hnil, hlock, hpipe⟩
  · refine ⟨h.counts, ⟨l'.stream, ?_, fun x hx => ?_⟩, fun hm => absurd hmoved hm⟩
    · rw [hmoved]
      exact (append_nil _).symm
    · rw [hserial]
      rw [hstream] at hx
      rcases mem_append.mp hx with hx | hx
      · rw [hpre, hmoved, tag, map_nil, append_nil] at hx
        exact hne x hx
      · exact hnew x hx
  · refine ⟨h.counts, ⟨pre, ?_, ?_⟩, ?_⟩
    · rw [hstream, hnil, append_nil, hserial]
      exact hpre
    · rw [hserial]
      exact hne
    · rw [hlock, hpipe]
      exact h.held

/-- An event of thread `tid` with `new` bytes taken in, after which its record is `t'`. -/
structure Turn (l l' : PipeLog) (tid : Nat) (t' : PipeThread) (new : List UInt8) : Prop where
  threads : ∀ j, l'.sys.threads j = if j = tid then some t' else l.sys.threads j
  serial : l'.serial = l.serial
  calls : l'.calls = l.calls
  stream : l'.stream = l.stream ++ tag (l.serial tid) new
  written : l'.written = l.written ++ returned (l.serial tid) t'

theorem Inv.turn {l' : PipeLog} (hl : l.Inv) {t' : PipeThread}
    {new : List UInt8} (ht : l.sys.threads tid = some t) (hpc : ∀ ret, t.pc ≠ .done ret)
    (h : Turn l l' tid t' new) (hothers : ∀ j u, j ≠ tid → l.Small j u → u.moved = [] ∨
      new = [] ∧ l'.sys.lock = l.sys.lock ∧ l'.sys.pipe = l.sys.pipe)
    (hown : t'.call.isWrite = true → t'.n ≤ pipeBuf → (∀ ret, t'.pc ≠ .done ret) → l'.Small tid t')
    (hdone : t'.n ≤ pipeBuf → ∀ w ∈ returned (l.serial tid) t',
      (w.bytes.length : Int) = w.n ∧ Block l'.stream w.call w.bytes) : l'.Inv := by
  have hsome : ∀ j u, l'.sys.threads j = some u → ∃ u', l.sys.threads j = some u' := by
    intro j u hu
    rw [h.threads] at hu
    split at hu
    · next hj => exact ⟨t, hj ▸ ht⟩
    · exact ⟨u, hu⟩
  have hreturned : ∀ w ∈ returned (l.serial tid) t', w.call = l.serial tid ∧ w.n = t'.n ∧
      ∃ ret, t'.pc = .done ret := by
    intro w hw
    rw [returned] at hw
    split at hw
    · next ret hret =>
        split at hw
        · rw [mem_singleton.mp hw]
          exact ⟨rfl, rfl, ret, hret⟩
        · exact (not_mem_nil hw).elim
    · exact (not_mem_nil hw).elim
  -- a call that has returned is not the one of this thread
  have hlive : ∀ w ∈ l.written, l.serial tid ≠ w.call := fun w hw heq => by
    obtain ⟨ret, hret⟩ := hl.ended w hw tid t ht heq
    exact hpc ret hret
  refine ⟨?_, ?_, ?_, ?_, ?_, ?_, ?_⟩
  · intro x hx
    rw [h.stream] at hx
    rw [h.calls]
    rcases mem_append.mp hx with hx | hx
    · exact hl.fresh x hx
    · rw [tag_fst hx]
      exact hl.serial_lt tid t ht
  · intro w hw
    rw [h.written] at hw
    rw [h.calls]
    rcases mem_append.mp hw with hw | hw
    · exact hl.old w hw
    · rw [(hreturned w hw).1]
      exact hl.serial_lt tid t ht
  · intro j u hu
    obtain ⟨u', hu'⟩ := hsome j u hu
    rw [h.serial, h.calls]
    exact hl.serial_lt j u' hu'
  · intro i j u v hu hv
    obtain ⟨u', hu'⟩ := hsome i u hu
    obtain ⟨v', hv'⟩ := hsome j v hv
    rw [h.serial]
    exact hl.serial_inj i j u' v' hu' hv'
  · intro w hw j u hu hserial
    rw [h.serial] at hserial
    rw [h.threads] at hu
    rw [h.written] at hw
    split at hu
    · next hj =>
        subst hj
        cases hu
        rcases mem_append.mp hw with hw | hw
        · exact absurd hserial (hlive w hw)
        · exact (hreturned w hw).2.2
    next hj =>
    rcases mem_append.mp hw with hw | hw
    · exact hl.ended w hw j u hu hserial
    · rw [(hreturned w hw).1] at hserial
      exact absurd (hl.serial_inj j tid u t hu ht hserial) hj
  · intro j u hu hwrite hn hlive'
    rw [h.threads] at hu
    split at hu
    · next hj =>
        subst hj
        cases hu
        exact hown hwrite hn hlive'
    next hj =>
    have hsmall := hl.small j u hu hwrite hn hlive'
    refine hsmall.frame (congrFun h.serial j) h.stream (fun x hx heq => ?_) ?_
    · rw [tag_fst hx] at heq
      exact hj (hl.serial_inj j tid u t hu ht heq.symm)
    · rcases hothers j u hj hsmall with hm | ⟨rfl, hlock, hpipe⟩
      · exact .inl hm
      · exact .inr ⟨rfl, hlock, hpipe⟩
  · intro w hw hn
    rw [h.written] at hw
    rcases mem_append.mp hw with hw | hw
    · obtain ⟨hlen, hblock⟩ := hl.atomic w hw hn
      refine ⟨hlen, ?_⟩
      rw [h.stream]
      exact hblock.append fun x hx => by
        rw [tag_fst hx]
        exact hlive w hw
    · exact hdone ((hreturned w hw).2.1 ▸ hn) w hw

theorem turn_after (t' : PipeThread) {new : List UInt8}
    (hthreads : ∀ j, s.threads j = if j = tid then some t' else l.sys.threads j)
    (haccepted : s.accepted = l.sys.accepted ++ new) : Turn l (l.after tid s) tid t' new := by
  refine ⟨hthreads, rfl, rfl, ?_, ?_⟩
  · rw [after, haccepted, drop_left]
  · rw [after, hthreads, if_pos rfl]
    rfl

theorem setThread_threads (s : PipeSystem) (tid : Nat) (t : PipeThread) (j : Nat) :
    (s.setThread tid t).threads j = if j = tid then some t else s.threads j := rfl

theorem Small.moved_of_free (h : l.Small tid t) (hlock : l.sys.lock = none) : t.moved = [] := by
  by_contra hm
  rw [(h.held hm).1] at hlock
  cases hlock

theorem Inv.acquire (hl : l.Inv) (ht : l.sys.threads tid = some t) (hpc : ∀ ret, t.pc ≠ .done ret)
    (hpt : ∀ m, t.pc.Counts m → pt.moved = m)
    (hs : l.sys.acquire tid t pt = some s) : (l.after tid s).Inv := by
  rw [PipeSystem.acquire] at hs
  split at hs
  · next hlock =>
      cases hs
      refine hl.turn ht hpc (turn_after { t with pc := .held pt } (fun j => rfl)
        (append_nil _).symm) ?_ ?_ ?_
      · exact fun j u _ hu => .inl (hu.moved_of_free hlock)
      · intro hwrite hn _
        have hsmall := hl.small tid t ht hwrite hn hpc
        have hm := hsmall.moved_of_free hlock
        obtain ⟨pre, hpre, hne⟩ := hsmall.last
        refine ⟨hpt _ hsmall.counts, ⟨pre, ?_, hne⟩, fun h => absurd hm h⟩
        dsimp only [after, PipeSystem.setThread]
        rw [drop_length, tag, map_nil, append_nil]
        exact hpre
      · exact fun _ w hw => (not_mem_nil hw).elim
  · cases hs

theorem Inv.refused (hl : l.Inv) {i : Nat}
    (ht : l.sys.threads tid = some t) (hpc : t.pc = .checking i) :
    (l.after tid (l.sys.setThread tid { t with pc := .done (partialOr i sysEFAULT) })).Inv := by
  have hlive : ∀ ret, t.pc ≠ .done ret := by
    intro ret h
    rw [hpc] at h
    cases h
  refine hl.turn ht hlive (turn_after _ (fun j => rfl) (append_nil _).symm) ?_ ?_ ?_
  · exact fun j u _ _ => .inr ⟨rfl, rfl, rfl⟩
  · exact fun _ _ h => absurd rfl (h _)
  · intro hn w hw
    rw [returned] at hw
    dsimp only at hw
    split at hw
    · next hret =>
        -- a small write is only checked before its first byte
        have hsmall := hl.small tid t ht hret.1 hn hlive
        have hcounts := hsmall.counts
        rw [hpc] at hcounts
        have hzero : t.moved = [] := by
          by_contra hm
          have := (hsmall.held hm).2.1
          rw [hpc] at this
          cases this
        rw [hzero] at hcounts
        have hi : i = 0 := hcounts
        subst hi
        exact absurd hret.2.1 (by decide)
    · exact (not_mem_nil hw).elim

theorem round_write (tid : Nat) {res : Pipe × List UInt8 × Pc} (hw : t.call.isWrite = true)
    (hres : writeRound t.call t.n t.nonblock out s.pipe pt = res) :
    (∀ j, (s.round tid t pt out).threads j = if j = tid then
      some { t with pc := res.2.2, moved := t.moved ++ res.2.1 } else s.threads j) ∧
    (s.round tid t pt out).accepted = s.accepted ++ res.2.1 ∧
    (s.round tid t pt out).pipe = res.1 ∧
    ∀ pt', res.2.2 = .held pt' → (s.round tid t pt out).lock = some tid := by
  simp only [PipeSystem.round, hw, if_true, hres]
  refine ⟨fun j => rfl, rfl, trivial, fun pt' hpt => ?_⟩
  rw [hpt]

theorem round_read (tid : Nat) {res : Pipe × List UInt8 × Pc} (hw : t.call.isWrite = false)
    (hres : readRound t.call t.n t.nonblock out s.pipe pt = res) :
    (∀ j, (s.round tid t pt out).threads j = if j = tid then
      some { t with pc := res.2.2, moved := t.moved ++ res.2.1 } else s.threads j) ∧
    (s.round tid t pt out).accepted = s.accepted := by
  simp only [PipeSystem.round, hw, hres]
  exact ⟨fun j => rfl, rfl⟩

theorem Inv.round (hl : l.Inv) (ht : l.sys.threads tid = some t) (hpc : t.pc = .held pt)
    (hlock : l.sys.lock = some tid) (hfits : l.Fits (.go tid out)) :
    (l.after tid (l.sys.round tid t pt out)).Inv := by
  have hlive : ∀ ret, t.pc ≠ .done ret := by
    intro ret h
    rw [hpc] at h
    cases h
  have hothers : ∀ j u, j ≠ tid → l.Small j u → u.moved = [] := by
    intro j u hj hu
    by_contra hm
    have := (hu.held hm).1
    rw [hlock] at this
    exact hj (Option.some.inj this).symm
  cases hw : t.call.isWrite with
  | false =>
      obtain ⟨hthreads, haccepted⟩ := round_read (s := l.sys) tid hw
        (Eq.refl (readRound t.call t.n t.nonblock out l.sys.pipe pt))
      refine hl.turn ht hlive
        (turn_after _ hthreads (haccepted.trans (append_nil _).symm)) ?_ ?_ ?_
      · exact fun j u hj hu => .inl (hothers j u hj hu)
      · exact fun h => absurd h (by simp [hw])
      · intro _ w hw'
        rw [returned] at hw'
        split at hw'
        · rw [if_neg (by simp [hw])] at hw'
          exact (not_mem_nil hw').elim
        · exact (not_mem_nil hw').elim
  | true =>
      generalize hres : writeRound t.call t.n t.nonblock out l.sys.pipe pt = res
      obtain ⟨hthreads, haccepted, hpipe, hheld⟩ := round_write tid hw hres
      have hturn := turn_after _ hthreads haccepted
      -- a small write behaves as `GoesOn` says, and its bytes stay the last ones
      have hgoes : t.n ≤ pipeBuf → l.Small tid t ∧ GoesOn t.call t.n t.moved.length res := by
        intro hn
        have hsmall := hl.small tid t ht hw hn hlive
        have hcounts := hsmall.counts
        rw [hpc] at hcounts
        have hcounts : pt.moved = t.moved.length := hcounts
        refine ⟨hsmall, ?_⟩
        rw [← hcounts, ← hres]
        refine writeRound_goesOn hw (fun hne => ?_) (hfits.fitsAt ht hpc hw hn)
        have hm : t.moved ≠ [] := fun h => hne (by rw [hcounts, h]; rfl)
        obtain ⟨_, hloop, hroom⟩ := hsmall.held hm
        rw [hpc] at hloop
        rw [hcounts]
        exact ⟨Pc.held.inj hloop, hroom⟩
      have hlast : t.n ≤ pipeBuf → ∃ pre, (l.after tid (l.sys.round tid t pt out)).stream =
          pre ++ tag (l.serial tid) (t.moved ++ res.2.1) ∧ ∀ x ∈ pre, x.1 ≠ l.serial tid := by
        intro hn
        obtain ⟨pre, hpre, hne⟩ := (hgoes hn).1.last
        refine ⟨pre, ?_, hne⟩
        rw [hturn.stream, hpre, tag, tag, tag, map_append, append_assoc]
      refine hl.turn ht hlive hturn ?_ ?_ ?_
      · exact fun j u hj hu => .inl (hothers j u hj hu)
      · intro _ hn hlive'
        rcases (hgoes hn).2 with ⟨ret, hret, _⟩ | ⟨_, hcounts, hroom⟩
        · exact absurd (congrArg Prod.snd hret) (hlive' ret)
        · rw [← length_append] at hcounts hroom
          refine ⟨hcounts, hlast hn, fun hne => ?_⟩
          obtain ⟨hloop, hroom⟩ := hroom fun h => hne (length_eq_zero_iff.mp h)
          refine ⟨hheld _ hloop, hloop, ?_⟩
          dsimp only [after]
          rw [hpipe]
          exact hroom
      · intro hn w hw'
        rw [returned] at hw'
        split at hw'
        · next ret hret =>
            split at hw'
            · next hfull =>
                rw [mem_singleton.mp hw']
                obtain ⟨pre, hpre, hne⟩ := hlast hn
                rcases (hgoes hn).2 with ⟨ret', hret', hcount⟩ | ⟨hnot, _⟩
                · have hbytes : res.2.1 = [] := congrArg Prod.fst hret'
                  have hpc' : res.2.2 = .done ret' := congrArg Prod.snd hret'
                  have hsame : ret = ret' := Pc.done.inj (hret.symm.trans hpc')
                  subst hsame
                  refine ⟨?_, pre, [], ?_, ?_⟩
                  · rw [hbytes, append_nil, ← hcount hfull.2.1]
                    exact hfull.2.2
                  · rw [append_nil]
                    exact hpre
                  · rw [append_nil]
                    exact hne
                · exact absurd hret (hnot ret)
            · exact (not_mem_nil hw').elim
        · exact (not_mem_nil hw').elim

theorem Inv.environment (hl : l.Inv)
    (hthreads : s.threads = l.sys.threads) (hlock : l.sys.lock = none) :
    Inv { l with sys := s } := by
  refine ⟨hl.fresh, hl.old, ?_, ?_, ?_, ?_, hl.atomic⟩
  · rw [hthreads]
    exact hl.serial_lt
  · rw [hthreads]
    exact hl.serial_inj
  · rw [hthreads]
    exact hl.ended
  · intro tid t ht hwrite hn hlive
    rw [hthreads] at ht
    have hsmall := hl.small tid t ht hwrite hn hlive
    exact hsmall.frame rfl (append_nil _).symm (fun x hx => (not_mem_nil hx).elim)
      (.inl (hsmall.moved_of_free hlock))

theorem Inv.enter (hl : l.Inv) (hpc : t.pc = .start) (hmoved : t.moved = []) :
    Inv { l with
      sys := l.sys.setThread tid t
      serial := fun j => if j = tid then l.calls else l.serial j
      calls := l.calls + 1 } := by
  have hother : ∀ j u, j ≠ tid → (l.sys.setThread tid t).threads j = some u →
      l.sys.threads j = some u := by
    intro j u hj hu
    rwa [setThread_threads, if_neg hj] at hu
  refine ⟨?_, ?_, ?_, ?_, ?_, ?_, hl.atomic⟩
  · exact fun x hx => Nat.lt_succ_of_lt (hl.fresh x hx)
  · exact fun w hw => Nat.lt_succ_of_lt (hl.old w hw)
  · intro j u hu
    dsimp only at hu ⊢
    split
    · exact Nat.lt_succ_self _
    · next hj => exact Nat.lt_succ_of_lt (hl.serial_lt j u (hother j u hj hu))
  · intro i j u v hu hv heq
    dsimp only at hu hv heq
    split at heq
    · next hi =>
        split at heq
        · next hj => exact hi.trans hj.symm
        · next hj =>
            have := hl.serial_lt j v (hother j v hj hv)
            omega
    next hi =>
    split at heq
    · next hj =>
        have := hl.serial_lt i u (hother i u hi hu)
        omega
    · next hj => exact hl.serial_inj i j u v (hother i u hi hu) (hother j v hj hv) heq
  · intro w hw j u hu heq
    dsimp only at hw hu heq
    split at heq
    · have := hl.old w hw
      omega
    · next hj => exact hl.ended w hw j u (hother j u hj hu) heq
  · intro j u hu hwrite hn hlive
    by_cases hj : j = tid
    · subst hj
      rw [setThread_threads, if_pos rfl] at hu
      cases hu
      refine ⟨?_, ⟨l.stream, ?_, fun x hx => ?_⟩, fun h => absurd hmoved h⟩
      · rw [hpc, hmoved]
        rfl
      · rw [hmoved]
        exact (append_nil _).symm
      · dsimp only
        rw [if_pos rfl]
        exact Nat.ne_of_lt (hl.fresh x hx)
    · have hsmall := hl.small j u (hother j u hj hu) hwrite hn hlive
      exact hsmall.frame (if_neg hj) (append_nil _).symm
        (fun x hx => (not_mem_nil hx).elim) (.inr ⟨rfl, rfl, rfl⟩)

theorem Inv.step {l' : PipeLog} {e : PipeEvent} (hl : l.Inv) (hfits : l.Fits e)
    (h : l.step e = some l') : l'.Inv := by
  rw [PipeLog.step] at h
  split at h
  · cases h
  next s hs =>
  cases e with
  | enter tid call n nonblock =>
      have h := Option.some.inj h
      subst h
      simp only [PipeSystem.step] at hs
      split at hs
      · cases hs
        exact hl.enter rfl rfl
      · cases hs
        exact hl.enter rfl rfl
      · cases hs
  | go tid out =>
      have h := Option.some.inj h
      subst h
      simp only [PipeSystem.step] at hs
      split at hs
      · cases hs
      next t ht =>
      split at hs
      · next hpc =>
        refine hl.acquire ht (fun ret h => by rw [hpc] at h; cases h) (fun m hm => ?_) hs
        rw [hpc] at hm
        have hm : m = 0 := hm
        subst hm
        split <;> rfl
      · next pt hpc =>
        refine hl.acquire ht (fun ret h => by rw [hpc] at h; cases h) (fun m hm => ?_) hs
        rw [hpc] at hm
        exact hm
      · next i hpc =>
        split at hs
        · refine hl.acquire ht (fun ret h => by rw [hpc] at h; cases h) (fun m hm => ?_) hs
          rw [hpc] at hm
          exact hm
        · have hs := Option.some.inj hs
          subst hs
          exact hl.refused ht hpc
      · next pt hpc =>
        split at hs
        · next hlock =>
          have hs := Option.some.inj hs
          subst hs
          exact hl.round ht hpc hlock hfits
        · cases hs
      · cases hs
  | setPipeSize newSize newBuffer =>
      have h := Option.some.inj h
      subst h
      simp only [PipeSystem.step] at hs
      split at hs
      · next hlock =>
        cases hs
        exact hl.environment rfl hlock
      · cases hs
  | close isWrite =>
      have h := Option.some.inj h
      subst h
      simp only [PipeSystem.step] at hs
      split at hs
      · cases hs
      next hlock =>
      have hlock : l.sys.lock = none := Decidable.not_not.mp hlock
      repeat' split at hs
      all_goals cases hs
      all_goals exact hl.environment rfl hlock

theorem inv_init (p : Pipe) : (init p).Inv := by
  refine ⟨?_, ?_, ?_, ?_, ?_, ?_, ?_⟩
  · exact fun x hx => (not_mem_nil hx).elim
  · exact fun w hw => (not_mem_nil hw).elim
  · exact fun tid t h => nomatch h
  · exact fun i j t u h => nomatch h
  · exact fun w hw => (not_mem_nil hw).elim
  · exact fun tid t h => nomatch h
  · exact fun w hw => (not_mem_nil hw).elim

end PipeLog

/-- In a run where no small write starts to store what it cannot finish under the lock,
every small write that returned in full is one block of the stream. -/
theorem pipe_writes_atomic {p : Pipe} {events : List PipeEvent} {l : PipeLog}
    (hr : Run.Guarded PipeLog.step PipeLog.Fits (.init p) events l) : l.Atomic :=
  (hr.inv PipeLog.Inv.step (PipeLog.inv_init p)).atomic

def callOf (tid : Nat) (call : PipeCall) (n : Int) (byte : UInt8) (rounds : Nat) : List PipeEvent :=
  .enter tid call n false :: replicate rounds (.go tid (quiet byte))

/-- An empty pipe through which 4095 bytes have gone: the next byte is the last of the
buffer. -/
def wrapped : Pipe :=
  (((Pipe.new fun _ => 0).alloc false none).writeBulk 4095 fun _ => 0).readBulk 4095

/-- A write of two bytes, the second of which goes to the start of the buffer, and a
write of one byte while the first call checks its user range. -/
def splitWrite : List PipeEvent :=
  callOf 0 .writeFromUser 2 1 5 ++ callOf 1 .writeInKernel 1 2 3 ++ replicate 3 (.go 0 (quiet 1))

theorem split_write_not_atomic :
    wrapped.stored = [] ∧ ∃ l, splitWrite.foldlM PipeLog.step (.init wrapped) = some l ∧
      l.sys.pipe.pipeSize = 4096 ∧ ¬l.Atomic := by
  refine ⟨by decide +kernel, _, rfl, rfl, fun hatomic => ?_⟩
  obtain ⟨_, pre, post, heq, hne⟩ := hatomic ⟨0, 2, [1, 1]⟩ (by decide) (by decide)
  -- nothing of the first call stands before its block, so the block comes first
  cases pre with
  | nil =>
      have hsecond := (cons.inj (cons.inj heq).2).1
      exact absurd hsecond (by decide)
  | cons x xs =>
      have hx : (0, 1) = x := (cons.inj heq).1
      exact hne x mem_cons_self (by rw [← hx])

/-- Two writes of two bytes each, one after the other. -/
theorem pipe_writes_atomic_two :
    ∃ l, Run.Guarded PipeLog.step PipeLog.Fits (.init ((Pipe.new fun _ => 0).alloc false none))
        (callOf 0 .writeInKernel 2 1 3 ++ callOf 1 .writeFromUser 2 2 5) l ∧
      l.stream = [(0, 1), (0, 1), (1, 2), (1, 2)] ∧ l.Atomic := by
  have hr : Run.Guarded PipeLog.step PipeLog.Fits (.init ((Pipe.new fun _ => 0).alloc false none))
      (callOf 0 .writeInKernel 2 1 3 ++ callOf 1 .writeFromUser 2 2 5) _ := .of_foldlM rfl
  exact ⟨_, hr, rfl, pipe_writes_atomic hr⟩

end F7ly.Proc
