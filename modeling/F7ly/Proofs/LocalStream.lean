import F7ly.Fs.LocalStream
import F7ly.Lib.Run

/-!
# No byte of a local stream is lost or doubled

For each call of `send` its bytes are in one place: with a call that still has
to queue them, which need not be the one that brought them, in the buffer for
MSG_MORE, or in the stream. `Books` says so call by call, and every section
only moves bytes along.

Three things break it. A flush copies the buffer under one lock and clears it
under the next, so a call that comes between the two sends the copy again or
has its own bytes cleared; a flush that must not block gives up the bytes it
has no room for; and `shutdown` and `close` clear the buffer, and tell the
reader of the end even if a call is still queueing. The condition rules out the
three.
-/

namespace F7ly.Fs.LocalStream

open Shuffle LocalStream.Stream Send Function List

variable {β : Type}

def Stage.copy : Stage β → Option (List (Item β))
  | .probe pending | .clear pending => some pending
  | _ => none

def Stage.sending : Stage β → Bool
  | .probe _ | .clear _ | .enqueue _ _ => true
  | _ => false

/-- No call begins between the two halves of a flush, and a flush that must not
block has room for what was waiting. -/
def Stream.allowedSend (w : Stream β) (c : Send β) : Bool :=
  match c.stage with
  | .enter => w.sends.all (·.stage.copy.isNone)
  | .enqueue pending _ =>
      !c.nonblocking || pending.isEmpty || pending.length ≤ recvBufferMaxBytes - w.recvBuffer.length
  | _ => true

def Stream.allowed (w : Stream β) : Op β → Bool
  | .runSend k => (w.sends[k]?).all w.allowedSend
  | .runEnding i =>
      (w.endings[i]?).all fun e =>
        e.2 ≠ .own || w.sendBuffer.isEmpty && w.sends.all (!·.stage.sending)
  | _ => true

def Stream.log (w : Stream β) : List (Item β) := w.received ++ w.recvBuffer

def Send.rest (k : Nat) (c : Send β) : List (Item β) :=
  match c.stage with
  | .enter | .probe _ | .clear _ => tag k c.data
  | .enqueue pending queued => (pending ++ tag k c.data).drop queued
  | .returned _ => []

def Stream.rest (w : Stream β) (k : Nat) : List (Item β) :=
  match w.sends[k]? with
  | some c => c.rest k
  | none => []

def Send.isReturned (c : Send β) : Bool :=
  match c.stage with
  | .returned _ => true
  | _ => false

def Send.accepted (c : Send β) : List β :=
  match c.stage with
  | .returned (.ok n) => c.data.take n
  | _ => []

/-- Where the bytes of call `k` are: `L` in the stream, `B` in the buffer and
`R i` with call `i`. -/
inductive Books (L B : List β) (R : Nat → List β) (k : Nat) : Option (Send β) → Prop
  | unborn (hlog : L = []) (hbuffer : B = []) (hrest : ∀ i, R i = []) : Books L B R k none
  | flying (j : Nat) {c : Send β} (hbuffer : B = []) (hdata : L ++ R j = c.data)
      (hothers : ∀ i, i ≠ j → R i = []) (hown : c.isReturned = false → j = k)
      (hresult : c.isReturned → c.accepted = c.data) : Books L B R k (some c)
  | buffered {c : Send β} (hlog : L = []) (hbuffer : B = c.data) (hrest : ∀ i, R i = [])
      (hret : c.isReturned) (hresult : c.accepted = c.data) : Books L B R k (some c)
  | ended {c : Send β} (hlog : L = c.accepted) (hbuffer : B = []) (hrest : ∀ i, R i = [])
      (hret : c.isReturned) : Books L B R k (some c)

variable {L B : List β} {R : Nat → List β} {j k : Nat} {c c' : Send β} {o : Option (Send β)}

theorem Books.own (h : Books L B R k (some c)) (hret : c.isReturned = false) :
    B = [] ∧ L ++ R k = c.data ∧ ∀ i, i ≠ k → R i = [] := by
  cases h with
  | flying j hbuffer hdata hothers hown =>
      cases hown hret
      exact ⟨hbuffer, hdata, hothers⟩
  | buffered _ _ _ h => exact absurd h (Bool.eq_false_iff.mp hret)
  | ended _ _ _ h => exact absurd h (Bool.eq_false_iff.mp hret)

theorem Books.of_own (hbuffer : B = []) (hdata : L ++ R k = c.data)
    (hothers : ∀ i, i ≠ k → R i = []) (hret : c.isReturned = false) : Books L B R k (some c) :=
  .flying k hbuffer hdata hothers (fun _ => rfl) fun h => absurd h (Bool.eq_false_iff.mp hret)

theorem update_nil (h : ∀ i, i ≠ k → R i = []) (i : Nat) : update R k [] i = [] := by
  rw [update_apply]
  split
  · rfl
  · next hi => exact h i hi

theorem update_nil_eq (h : R k = []) : update R k [] = R := by
  rw [← h, update_eq_self]

theorem Books.move {x y : List β} (h : Books L B R k o) (hj : R j = x ++ y) :
    Books (L ++ x) B (update R j y) k o := by
  have hnil : (∀ i, R i = []) → x = [] ∧ ∀ i, update R j y i = [] := by
    intro hrest
    rw [hrest j] at hj
    obtain ⟨rfl, rfl⟩ := append_eq_nil_iff.mp hj.symm
    refine ⟨rfl, fun i => ?_⟩
    rw [update_apply]
    split
    · rfl
    · exact hrest i
  cases h with
  | unborn hlog hbuffer hrest =>
      obtain ⟨rfl, hrest'⟩ := hnil hrest
      exact .unborn (by rw [hlog]; rfl) hbuffer hrest'
  | @flying i c hbuffer hdata hothers hown hresult =>
      refine .flying i hbuffer ?_ (fun i' hi' => ?_) hown hresult
      · by_cases hi : i = j
        · rw [hi, update_self, append_assoc, ← hj, ← hi, hdata]
        · have : x = [] := (append_eq_nil_iff.mp (hj ▸ hothers j (Ne.symm hi))).1
          rw [update_of_ne hi, this, append_nil, hdata]
      · rw [update_apply]
        split
        · next heq =>
            subst heq
            exact (append_eq_nil_iff.mp (hj ▸ hothers i' hi')).2
        · exact hothers i' hi'
  | buffered hlog hbuffer hrest hret hresult =>
      obtain ⟨rfl, hrest'⟩ := hnil hrest
      exact .buffered (by rw [hlog]; rfl) hbuffer hrest' hret hresult
  | ended hlog hbuffer hrest hret =>
      obtain ⟨rfl, hrest'⟩ := hnil hrest
      exact .ended (by rw [append_nil, hlog]) hbuffer hrest' hret

theorem Books.flush (h : Books L B R k o) : Books L [] (update R j (B ++ R j)) k o := by
  have hnil : B = [] → update R j (B ++ R j) = R := by
    intro hB
    rw [hB, nil_append, update_eq_self]
  cases h with
  | unborn hlog hbuffer hrest => exact .unborn hlog rfl (by rwa [hnil hbuffer])
  | flying i hbuffer hdata hothers hown hresult =>
      rw [hnil hbuffer]
      exact .flying i rfl hdata hothers hown hresult
  | @buffered c hlog hbuffer hrest hret hresult =>
      refine .flying j rfl ?_ (fun i hi => ?_) (fun h => ?_) fun _ => hresult
      · rw [update_self, hrest j, hlog, append_nil, nil_append, hbuffer]
      · rw [update_of_ne hi, hrest i]
      · exact absurd hret (Bool.eq_false_iff.mp h)
  | ended hlog hbuffer hrest hret =>
      rw [hnil hbuffer]
      exact .ended hlog rfl hrest hret

def Stream.books (w : Stream β) (k : Nat) : Option (Send β) → Prop :=
  Books (ofWriter k w.log) (ofWriter k w.sendBuffer) (fun i => ofWriter k (w.rest i)) k

structure Stream.Inv (w : Stream β) : Prop where
  receive : w.readShutdown = false
  books : ∀ k, w.books k w.sends[k]?
  /-- A flush copies the whole buffer, and only one does at a time. -/
  copied : ∀ (k : Nat) (c : Send β), w.sends[k]? = some c → ∀ p ∈ c.stage.copy, p = w.sendBuffer
  alone : ∀ (j k : Nat) (c d : Send β), w.sends[j]? = some c → w.sends[k]? = some d →
    c.stage.copy.isSome → d.stage.copy.isSome → j = k
  /-- After the end nothing waits and nobody sends. -/
  quiet : w.writeShutdown ∨ w.closed → w.sendBuffer = [] ∧ ∀ c ∈ w.sends, c.stage.sending = false
  told : (∃ e, (e, .peer) ∈ w.endings) ∨ w.peerWriteShutdown ∨ w.peerClosed →
    w.writeShutdown ∨ w.closed

theorem connected_inv : (connected : Stream β).Inv where
  receive := rfl
  books k := .unborn rfl rfl fun i => rfl
  copied k c h := nomatch h
  alone j k c d h := nomatch h
  quiet h := by simp [connected] at h
  told h := by simp [connected] at h

variable {w w₁ : Stream β} {s : Stage β}

def Send.at (c : Send β) (s : Stage β) : Send β := { c with stage := s }

theorem getElem?_setStage (hk : w.sends[k]? = some c) (i : Nat) :
    (w.setStage k s).sends[i]? = if i = k then some (c.at s) else w.sends[i]? := by
  simp only [Stream.setStage]
  by_cases hi : i = k
  · subst hi
    simp [hk, Send.at]
  · simp [hi, Ne.symm hi]

theorem rest_setStage (hk : w.sends[k]? = some c) (i : Nat) :
    (w.setStage k s).rest i = if i = k then (c.at s).rest k else w.rest i := by
  unfold Stream.rest
  rw [getElem?_setStage hk]
  by_cases hi : i = k
  · rw [if_pos hi, if_pos hi, hi]
  · rw [if_neg hi, if_neg hi]

def Stream.put (w : Stream β) (b r : List (Item β)) : Stream β :=
  { w with sendBuffer := b, recvBuffer := r }

theorem books_put (hk : w.sends[k]? = some c) {b r : List (Item β)} {l : Nat}
    (h : Books (ofWriter l (w.received ++ r)) (ofWriter l b)
      (update (fun i => ofWriter l (w.rest i)) k (ofWriter l ((c.at s).rest k))) l
      (if l = k then some (c.at s) else w.sends[l]?)) :
    ((w.put b r).setStage k s).books l ((w.put b r).setStage k s).sends[l]? := by
  have hrest : (fun i => ofWriter l (((w.put b r).setStage k s).rest i)) =
      update (fun i => ofWriter l (w.rest i)) k (ofWriter l ((c.at s).rest k)) := by
    funext i
    rw [rest_setStage (w := w.put b r) hk, update_apply]
    split <;> rfl
  rw [getElem?_setStage (w := w.put b r) hk]
  unfold books
  rw [hrest]
  exact h

def Stream.NoCopy (w : Stream β) : Prop := ∀ d ∈ w.sends, d.stage.copy = none

theorem Stream.Inv.put (hw : w.Inv) (hk : w.sends[k]? = some c) {b r : List (Item β)}
    (hbooks : ∀ l, ((w.put b r).setStage k s).books l ((w.put b r).setStage k s).sends[l]?)
    (hown : ∀ p ∈ s.copy, p = b ∧ (c.stage.copy.isSome ∨ w.NoCopy))
    (hothers : b = w.sendBuffer ∨ c.stage.copy.isSome ∨ w.NoCopy)
    (hquiet : w.writeShutdown ∨ w.closed → b = [] ∧ s.sending = false) :
    ((w.put b r).setStage k s).Inv := by
  have hget := getElem?_setStage (w := w.put b r) (s := s) hk
  have hnone : ∀ {i d}, i ≠ k → w.sends[i]? = some d → d.stage.copy.isSome →
      ¬ (c.stage.copy.isSome ∨ w.NoCopy) := by
    intro i d hi hd hcopy h
    rcases h with h | h
    · exact hi (hw.alone i k d c hd hk hcopy h)
    · rw [h d (mem_of_getElem? hd)] at hcopy
      cases hcopy
  refine ⟨hw.receive, hbooks, ?_, ?_, ?_, hw.told⟩
  · intro i d hd p hp
    rw [hget] at hd
    split at hd
    · cases hd
      exact (hown p hp).1
    next hi =>
    rcases hothers with h | h
    · exact (hw.copied i d hd p hp).trans h.symm
    · exact absurd h (hnone hi hd (Option.isSome_of_mem hp))
  · intro i i' d d' hd hd' hcopy hcopy'
    rw [hget] at hd hd'
    by_cases hi : i = k <;> by_cases hi' : i' = k
    · rw [hi, hi']
    · rw [if_pos hi] at hd
      rw [if_neg hi'] at hd'
      cases hd
      obtain ⟨p, hp⟩ := Option.isSome_iff_exists.mp hcopy
      exact absurd (hown p hp).2 (hnone hi' hd' hcopy')
    · rw [if_neg hi] at hd
      rw [if_pos hi'] at hd'
      cases hd'
      obtain ⟨p, hp⟩ := Option.isSome_iff_exists.mp hcopy'
      exact absurd (hown p hp).2 (hnone hi hd hcopy)
    · rw [if_neg hi] at hd
      rw [if_neg hi'] at hd'
      exact hw.alone i i' d d' hd hd' hcopy hcopy'
  · intro hend
    refine ⟨(hquiet hend).1, fun d hd => ?_⟩
    obtain ⟨i, hi⟩ := mem_iff_getElem?.mp hd
    rw [hget] at hi
    split at hi
    · cases hi
      exact (hquiet hend).2
    · exact (hw.quiet hend).2 d (mem_of_getElem? hi)

theorem Stream.rest_eq (hk : w.sends[k]? = some c) : w.rest k = c.rest k := by
  unfold rest
  rw [hk]

theorem Stream.Inv.own (hw : w.Inv) (hk : w.sends[k]? = some c) (hret : c.isReturned = false) :
    ofWriter k w.sendBuffer = [] ∧ ofWriter k w.log ++ ofWriter k (c.rest k) = c.data ∧
      ∀ i, i ≠ k → ofWriter k (w.rest i) = [] := by
  have h := hw.books k
  rw [hk] at h
  rw [← rest_eq hk]
  exact Books.own h hret

theorem Stream.Inv.books_at (hw : w.Inv) (hk : w.sends[k]? = some c)
    (hret : c.isReturned = false) (hret' : (c.at s).isReturned = false) (l : Nat) :
    Books (ofWriter l w.log) (ofWriter l w.sendBuffer) (fun i => ofWriter l (w.rest i)) l
      (if l = k then some (c.at s) else w.sends[l]?) := by
  by_cases hl : l = k
  · subst hl
    obtain ⟨hbuffer, hdata, hothers⟩ := hw.own hk hret
    rw [if_pos rfl]
    exact .of_own hbuffer (by rw [rest_eq hk]; exact hdata) hothers hret'
  · rw [if_neg hl]
    exact hw.books l

theorem Stream.Inv.not_ended (hw : w.Inv) (hk : w.sends[k]? = some c)
    (hsending : c.stage.sending = true) : ¬ (w.writeShutdown ∨ w.closed) := by
  intro hend
  rw [(hw.quiet hend).2 c (mem_of_getElem? hk)] at hsending
  cases hsending

theorem Stream.Inv.goOn (hw : w.Inv) (hk : w.sends[k]? = some c) (hret : c.isReturned = false)
    (hret' : (c.at s).isReturned = false) (hrest : (c.at s).rest k = c.rest k)
    (hown : ∀ p ∈ s.copy, p = w.sendBuffer ∧ (c.stage.copy.isSome ∨ w.NoCopy))
    (hquiet : ¬ (w.writeShutdown ∨ w.closed)) : (w.setStage k s).Inv := by
  refine hw.put (b := w.sendBuffer) (r := w.recvBuffer) hk (fun l => ?_) hown (.inl rfl)
    fun h => absurd h hquiet
  refine books_put hk ?_
  rw [hrest, ← rest_eq hk, update_eq_self (f := fun i => ofWriter l (w.rest i))]
  exact hw.books_at hk hret hret' l

theorem Stream.Inv.ret (hw : w.Inv) (hk : w.sends[k]? = some c) (hret : c.isReturned = false)
    {n : Nat} {result : Except Errno Nat} (hrest : c.rest k = tag k (c.data.drop n))
    (hresult : (c.at (.returned result)).accepted = c.data.take n) : (w.ret k result).Inv := by
  refine hw.put (b := w.sendBuffer) (r := w.recvBuffer) hk (fun l => ?_) nofun (.inl rfl)
    fun h => ⟨(hw.quiet h).1, rfl⟩
  refine books_put hk ?_
  by_cases hl : l = k
  · subst hl
    obtain ⟨hbuffer, hdata, hothers⟩ := hw.own hk hret
    rw [hrest, ofWriter_tag_self] at hdata
    rw [if_pos rfl]
    refine .ended ?_ hbuffer (update_nil hothers) rfl
    rw [hresult]
    exact append_cancel_right (hdata.trans (take_append_drop n c.data).symm)
  · rw [if_neg hl]
    have : ofWriter l (w.rest k) = [] := by
      rw [rest_eq hk, hrest, ofWriter_tag_ne (Ne.symm hl)]
    have hsame : update (fun i => ofWriter l (w.rest i)) k
        (ofWriter l ((c.at (.returned result)).rest k)) = fun i => ofWriter l (w.rest i) :=
      update_nil_eq this
    rw [hsame]
    exact hw.books l

theorem Stream.Inv.more (hw : w.Inv) (hk : w.sends[k]? = some c) (hstage : c.stage = .enter)
    (hcopy : w.NoCopy) (hquiet : ¬ (w.writeShutdown ∨ w.closed)) :
    ({ w with sendBuffer := w.sendBuffer ++ tag k c.data }.ret k (.ok c.data.length)).Inv := by
  have hret : c.isReturned = false := by rw [Send.isReturned, hstage]
  have hrest : c.rest k = tag k c.data := by rw [Send.rest, hstage]
  refine hw.put (b := w.sendBuffer ++ tag k c.data) (r := w.recvBuffer) hk (fun l => ?_) nofun
    (.inr (.inr hcopy)) fun h => absurd h hquiet
  refine books_put hk ?_
  show Books (ofWriter l w.log) (ofWriter l (w.sendBuffer ++ tag k c.data)) _ l _
  rw [ofWriter_append]
  by_cases hl : l = k
  · subst hl
    obtain ⟨hbuffer, hdata, hothers⟩ := hw.own hk hret
    rw [hrest, ofWriter_tag_self] at hdata
    rw [if_pos rfl, hbuffer, ofWriter_tag_self]
    exact .buffered (append_left_eq_self.mp hdata) rfl (update_nil hothers) rfl
      take_length
  · rw [if_neg hl, ofWriter_tag_ne (Ne.symm hl), append_nil]
    have : ofWriter l (w.rest k) = [] := by
      rw [rest_eq hk, hrest, ofWriter_tag_ne (Ne.symm hl)]
    have hsame : update (fun i => ofWriter l (w.rest i)) k
        (ofWriter l ((c.at (.returned (.ok c.data.length))).rest k)) =
          fun i => ofWriter l (w.rest i) :=
      update_nil_eq this
    rw [hsame]
    exact hw.books l

theorem Stream.Inv.clear (hw : w.Inv) (hk : w.sends[k]? = some c)
    {pending : List (Item β)} (hstage : c.stage = .clear pending) : (w.clear k pending).Inv := by
  have hret : c.isReturned = false := by rw [Send.isReturned, hstage]
  have hrest : c.rest k = tag k c.data := by rw [Send.rest, hstage]
  have hpending := hw.copied k c hk pending (by rw [hstage]; rfl)
  have hsome : c.stage.copy.isSome := by rw [hstage]; rfl
  refine hw.put (b := []) (r := w.recvBuffer) hk (fun l => ?_) nofun (.inr (.inl hsome)) ?_
  · refine books_put hk ?_
    have hnew : ofWriter l ((c.at (.enqueue pending 0)).rest k) =
        ofWriter l w.sendBuffer ++ ofWriter l (w.rest k) := by
      rw [rest_eq hk, hrest, ← ofWriter_append, ← hpending]
      rfl
    rw [hnew]
    exact (hw.books_at hk hret rfl l).flush
  · exact fun hend => absurd hend (hw.not_ended hk (by rw [hstage]; rfl))

theorem Stream.Inv.chunk (hw : w.Inv) (hk : w.sends[k]? = some c) {pending : List (Item β)}
    {queued : Nat} (hstage : c.stage = .enqueue pending queued) (n : Nat) :
    ((w.put w.sendBuffer
        (w.recvBuffer ++ ((pending ++ tag k c.data).drop queued).take n)).setStage k
      (.enqueue pending (queued + n))).Inv := by
  have hret : c.isReturned = false := by rw [Send.isReturned, hstage]
  have hrest : c.rest k = (pending ++ tag k c.data).drop queued := by rw [Send.rest, hstage]
  have hrest' : (c.at (.enqueue pending (queued + n))).rest k = (c.rest k).drop n := by
    rw [hrest, drop_drop]
    rfl
  refine hw.put hk (fun l => ?_) nofun (.inl rfl) ?_
  · refine books_put hk ?_
    rw [hrest', ← hrest, ← append_assoc, ofWriter_append]
    refine (hw.books_at hk hret rfl l).move ?_
    rw [rest_eq hk, ← ofWriter_append, take_append_drop]
  · exact fun hend => absurd hend (hw.not_ended hk (by rw [hstage]; rfl))

theorem setStage_setStage (s s' : Stage β) : (w.setStage k s).setStage k s' = w.setStage k s' := by
  simp only [setStage, modify_modify_eq]
  rfl

theorem accepted_sendResult {pending : List (Item β)} {queued : Nat} {r : Except Errno Nat}
    (hr : r = .ok queued ∨ (∃ e, r = .error e) ∧ queued = 0) (hle : pending.length ≤ queued) :
    (c.at (.returned (sendResult pending c.data.length r))).accepted =
      c.data.take (queued - pending.length) := by
  rcases hr with rfl | ⟨⟨e, rfl⟩, rfl⟩
  · unfold sendResult
    dsimp only
    split
    · next h => rw [h]; rfl
    · split
      · next h =>
          rw [show c.data.take (queued - pending.length) = c.data from
            take_of_length_le (by omega)]
          exact take_length
      · split
        · rfl
        · rw [show queued - pending.length = 0 by omega, take_zero]
          rfl
  · rw [Nat.zero_sub, take_zero]
    rfl

/-- The end of `enqueue_stream_data_to_peer`. -/
theorem Stream.Inv.finish (hw : w.Inv) (hk : w.sends[k]? = some c) {pending : List (Item β)}
    {queued : Nat} (hstage : c.stage = .enqueue pending queued) {r : Except Errno Nat}
    (hr : r = .ok queued ∨ (∃ e, r = .error e) ∧ queued = 0) (hle : pending.length ≤ queued) :
    (w.ret k (sendResult pending c.data.length r)).Inv := by
  refine hw.ret hk (by rw [Send.isReturned, hstage]) ?_ (accepted_sendResult hr hle)
  rw [Send.rest, hstage]
  dsimp only
  rw [drop_append, drop_eq_nil_of_le hle, nil_append, drop_tag]

theorem queuedOr_cases (queued : Nat) (e : Errno) :
    queuedOr queued e = .ok queued ∨ (∃ e', queuedOr queued e = .error e') ∧ queued = 0 := by
  unfold queuedOr
  split
  · exact .inl rfl
  · next h => exact .inr ⟨⟨e, rfl⟩, by omega⟩

theorem Stream.Inv.enqueue (hw : w.Inv) (hk : w.sends[k]? = some c) {pending : List (Item β)}
    {queued : Nat} (hstage : c.stage = .enqueue pending queued) (hC : w.allowedSend c) :
    (w.enqueue k c pending queued).Inv := by
  have hroom : c.nonblocking → pending.length ≤ recvBufferMaxBytes - w.recvBuffer.length := by
    intro hnb
    simp only [allowedSend, hstage, hnb, Bool.not_true, Bool.false_or, Bool.or_eq_true,
      List.isEmpty_iff, decide_eq_true_eq] at hC
    rcases hC with rfl | hC
    · exact Nat.zero_le _
    · exact hC
  have hopen : w.receiveOpen = true := by rw [Stream.receiveOpen, hw.receive]; rfl
  unfold Stream.enqueue
  simp only [hopen, Bool.not_true, Bool.false_eq_true, if_false]
  split
  · next hfull =>
      split
      · next hnb =>
          have := hroom hnb
          exact hw.finish hk hstage (queuedOr_cases _ _) (by omega)
      · exact hw
  next hspace =>
  generalize hn : min ((pending ++ tag k c.data).length - queued)
    (recvBufferMaxBytes - w.recvBuffer.length) = n
  rw [List.length_append, length_tag] at hn
  have hw' := hw.chunk hk hstage n
  split
  · next hdone =>
      have hk' := getElem?_setStage (w := w.put w.sendBuffer
        (w.recvBuffer ++ ((pending ++ tag k c.data).drop queued).take n))
        (s := .enqueue pending (queued + n)) hk k
      rw [if_pos rfl] at hk'
      have := hw'.finish hk' rfl (.inl rfl) (by
        rw [List.length_append, length_tag] at hdone
        rcases hdone with hnb | hdone
        · have := hroom hnb
          omega
        · omega)
      rw [Stream.ret, setStage_setStage] at this
      exact this
  · exact hw'

theorem Stream.Inv.enter (hw : w.Inv) (hk : w.sends[k]? = some c) (hstage : c.stage = .enter)
    (hC : w.allowedSend c) : (w.enter k c).Inv := by
  have hret : c.isReturned = false := by rw [Send.isReturned, hstage]
  have hrest : c.rest k = tag k c.data := by rw [Send.rest, hstage]
  have hcopy : w.NoCopy := by
    simp only [allowedSend, hstage, all_eq_true, Option.isNone_iff_eq_none] at hC
    exact hC
  have herror : ∀ e, (w.ret k (.error e)).Inv := fun e =>
    hw.ret (n := 0) hk hret hrest rfl
  unfold Stream.enter
  split
  · exact herror _
  next hclosed =>
  split
  · exact herror _
  next hshut =>
  have hquiet : ¬ (w.writeShutdown ∨ w.closed) := by simp [hclosed, hshut]
  split
  · split
    · exact herror _
    · exact hw.more hk hstage hcopy hquiet
  · split
    · have hgo : ∀ s : Stage β, s.copy = some w.sendBuffer → (c.at s).isReturned = false →
          (c.at s).rest k = tag k c.data → (w.setStage k s).Inv := by
        intro s hs hs' hrest'
        refine hw.goOn hk hret hs' (hrest'.trans hrest.symm) (fun p hp => ?_) hquiet
        rw [hs] at hp
        cases hp
        exact ⟨rfl, .inr hcopy⟩
      split
      · exact hgo _ rfl rfl rfl
      · exact hgo _ rfl rfl rfl
    · exact hw.goOn hk hret rfl hrest.symm nofun hquiet

theorem Stream.Inv.probe (hw : w.Inv) (hk : w.sends[k]? = some c) {pending : List (Item β)}
    (hstage : c.stage = .probe pending) : (w.probe k c pending).Inv := by
  have hret : c.isReturned = false := by rw [Send.isReturned, hstage]
  have hrest : c.rest k = tag k c.data := by rw [Send.rest, hstage]
  have herror : ∀ e, (w.ret k (.error e)).Inv := fun e =>
    hw.ret (n := 0) hk hret hrest rfl
  unfold Stream.probe
  split
  · exact herror _
  · split
    · refine hw.goOn hk hret rfl hrest.symm (fun p hp => ?_)
        (hw.not_ended hk (by rw [hstage]; rfl))
      cases hp
      have hcopy : c.stage.copy = some pending := by rw [hstage]; rfl
      exact ⟨hw.copied k c hk pending hcopy, .inl (by rw [hcopy]; rfl)⟩
    · exact herror _

theorem Stream.Inv.runSend (hw : w.Inv) (hk : w.sends[k]? = some c) (hC : w.allowedSend c) :
    (w.runSend k c).Inv := by
  unfold Stream.runSend
  split
  · next hstage => exact hw.enter hk hstage hC
  · next hstage => exact hw.probe hk hstage
  · next hstage => exact hw.clear hk hstage
  · next hstage => exact hw.enqueue hk hstage hC
  · exact hw

theorem Stream.Inv.frame (hw : w.Inv) (hsends : w₁.sends = w.sends)
    (hbuffer : w₁.sendBuffer = w.sendBuffer) (hlog : w₁.log = w.log)
    (hreceive : w₁.readShutdown = w.readShutdown) (hquiet : w₁.writeShutdown ∨ w₁.closed →
      w.sendBuffer = [] ∧ ∀ c ∈ w.sends, c.stage.sending = false)
    (htold : (∃ e, (e, .peer) ∈ w₁.endings) ∨ w₁.peerWriteShutdown ∨ w₁.peerClosed →
      w₁.writeShutdown ∨ w₁.closed) : w₁.Inv := by
  have hrest : w₁.rest = w.rest := by
    funext i
    unfold rest
    rw [hsends]
  refine ⟨hreceive.trans hw.receive, fun k => ?_, ?_, ?_, ?_, htold⟩
  · unfold Stream.books
    rw [hlog, hbuffer, hrest, hsends]
    exact hw.books k
  · rw [hsends, hbuffer]
    exact hw.copied
  · rw [hsends]
    exact hw.alone
  · rw [hsends, hbuffer]
    exact hquiet

theorem recv_log (len : Nat) (peek : Bool) : (w.recv len peek).log = w.log := by
  unfold recv
  split
  · rfl
  · show (w.received ++ w.recvBuffer.take len) ++ w.recvBuffer.drop len = _
    rw [append_assoc, take_append_drop]
    rfl

theorem Stream.Inv.recv (hw : w.Inv) (len : Nat) (peek : Bool) : (w.recv len peek).Inv := by
  have hlog := recv_log (w := w) len peek
  unfold Stream.recv at hlog ⊢
  split at hlog
  · next hp => rwa [if_pos hp]
  · next hp =>
      rw [if_neg hp]
      exact hw.frame rfl rfl hlog rfl hw.quiet hw.told

theorem Stream.Inv.endOwn (hw : w.Inv) (i : Nat) (e : Ending) (hbuffer : w.sendBuffer = [])
    (hsending : ∀ c ∈ w.sends, c.stage.sending = false) : (w.endOwn i e).Inv := by
  unfold Stream.endOwn
  split
  · split
    · refine hw.frame rfl rfl rfl rfl hw.quiet fun h => hw.told (h.imp_left ?_)
      intro ⟨e', he'⟩
      rcases mem_or_eq_of_mem_set he' with he' | he'
      · exact ⟨e', he'⟩
      · cases he'
    · exact hw.frame rfl hbuffer.symm rfl rfl (fun _ => ⟨hbuffer, hsending⟩) fun _ => .inl rfl
  · exact hw.frame rfl hbuffer.symm rfl rfl (fun _ => ⟨hbuffer, hsending⟩) fun _ => .inr rfl

theorem Stream.Inv.endPeer (hw : w.Inv) {i : Nat} {e : Ending}
    (hi : w.endings[i]? = some (e, .peer)) :
    (w.endPeer i e).Inv :=
  hw.frame rfl rfl rfl rfl hw.quiet fun _ => hw.told (.inl ⟨e, mem_of_getElem? hi⟩)

section New

variable {data : List β} {more nonblocking : Bool}

theorem begin_stage : (begin data more nonblocking).stage = .enter ∨
    data = [] ∧ (begin data more nonblocking).stage = .returned (.ok 0) := by
  unfold begin
  split
  · next h => exact .inr ⟨h, rfl⟩
  · exact .inl rfl

theorem begin_copy : (begin data more nonblocking).stage.copy = none := by
  rcases begin_stage with h | ⟨-, h⟩ <;> rw [h] <;> rfl

theorem begin_sending : (begin data more nonblocking).stage.sending = false := by
  rcases begin_stage with h | ⟨-, h⟩ <;> rw [h] <;> rfl

theorem begin_rest : (Send.begin data more nonblocking).rest k = tag k data := by
  unfold Send.rest
  rcases begin_stage with h | ⟨hd, h⟩
  · rw [h]
    rfl
  · rw [h, hd]
    rfl

theorem Books.begin (h : Books L B R k none) :
    Books L B (update R k data) k (some (.begin data more nonblocking)) := by
  cases h with
  | unborn hlog hbuffer hrest =>
      rcases @begin_stage β data more nonblocking with h | ⟨rfl, h⟩
      · refine .of_own hbuffer ?_ (fun i hi => ?_) (by rw [isReturned, h])
        · rw [hlog, update_self]
          rfl
        · rw [update_of_ne hi]
          exact hrest i
      · refine .ended (hlog.trans ?_) hbuffer (update_nil fun i _ => hrest i) ?_
        · rfl
        · rw [isReturned, h]

theorem getElem?_send {n : Nat} (hn : w.sends.length = n) (i : Nat) :
    (w.step (.send data more nonblocking)).sends[i]? =
      if i = n then some (.begin data more nonblocking) else w.sends[i]? := by
  show (w.sends ++ [begin data more nonblocking])[i]? = _
  by_cases hi : i = n
  · rw [if_pos hi, hi, ← hn, getElem?_concat_length]
  · rw [if_neg hi]
    rcases Nat.lt_or_gt_of_ne hi with hi | hi
    · exact getElem?_append_left (by omega)
    · rw [getElem?_eq_none (by simp; omega), getElem?_eq_none (by omega)]

theorem Stream.Inv.books_send (hw : w.Inv) (k : Nat) :
    (w.step (.send data more nonblocking)).books k
      (w.step (.send data more nonblocking)).sends[k]? := by
  generalize hn : w.sends.length = n
  have hnone : w.sends[n]? = none := getElem?_eq_none (by omega)
  have hrest : (fun i => ofWriter k ((w.step (.send data more nonblocking)).rest i)) =
      update (fun i => ofWriter k (w.rest i)) n (ofWriter k (tag n data)) := by
    funext i
    unfold rest
    rw [getElem?_send hn, update_apply]
    by_cases hi : i = n
    · rw [if_pos hi, if_pos hi, hi]
      exact congrArg (ofWriter k) begin_rest
    · rw [if_neg hi, if_neg hi]
  have hbooks := hw.books k
  rw [getElem?_send hn]
  unfold Stream.books
  rw [hrest]
  by_cases hk : k = n
  · subst hk
    rw [hnone] at hbooks
    rw [if_pos rfl, ofWriter_tag_self]
    exact hbooks.begin
  · rw [if_neg hk, ofWriter_tag_ne (Ne.symm hk), update_nil_eq (by rw [rest, hnone]; rfl)]
    exact hbooks

theorem Stream.Inv.send (hw : w.Inv) : (w.step (.send data more nonblocking)).Inv := by
  have hold : ∀ (i : Nat) (d : Send β), (w.step (.send data more nonblocking)).sends[i]? = some d →
      d.stage.copy.isSome → w.sends[i]? = some d := by
    intro i d hd hsome
    rw [getElem?_send rfl] at hd
    split at hd
    · cases hd
      rw [begin_copy] at hsome
      cases hsome
    · exact hd
  refine ⟨hw.receive, hw.books_send, ?_, ?_, ?_, hw.told⟩
  · intro i d hd p hp
    exact hw.copied i d (hold i d hd (Option.isSome_of_mem hp)) p hp
  · intro i j d d' hd hd' hs hs'
    exact hw.alone i j d d' (hold i d hd hs) (hold j d' hd' hs') hs hs'
  · intro hend
    refine ⟨(hw.quiet hend).1, fun d hd => ?_⟩
    rcases mem_append.mp hd with hd | hd
    · exact (hw.quiet hend).2 d hd
    · rw [mem_singleton.mp hd]
      exact begin_sending

end New

theorem Stream.Inv.step {op : Op β} (hw : w.Inv) (hC : w.allowed op) : (w.step op).Inv := by
  cases op with
  | send data more nonblocking => exact hw.send
  | runSend k =>
      simp only [Stream.step]
      split
      · next c hk =>
          simp only [allowed, hk] at hC
          exact hw.runSend hk hC
      · exact hw
  | recv len peek => exact hw.recv len peek
  | ending e =>
      refine hw.frame rfl rfl rfl rfl hw.quiet fun h => hw.told (h.imp_left ?_)
      intro ⟨e', he'⟩
      rcases List.mem_append.mp he' with he' | he'
      · exact ⟨e', he'⟩
      · cases List.mem_singleton.mp he'
  | runEnding i =>
      simp only [Stream.step]
      split
      · next e hi =>
          simp only [allowed, hi, Option.all_some, ne_eq, not_true_eq_false, decide_false,
            Bool.false_or, Bool.and_eq_true, List.isEmpty_iff, List.all_eq_true,
            Bool.not_eq_true'] at hC
          exact hw.endOwn i e hC.1 hC.2
      · next e hi => exact hw.endPeer hi
      · exact hw

/-- What a call may have brought: all it reported and nothing else, or what it
has queued so far. -/
def Send.Brings (c : Send β) (l : List β) : Prop :=
  if c.isReturned then l = c.accepted else l <+: c.data

/-- A serial order of the bytes that the calls reported as accepted. -/
def Stream.IsOrder (w : Stream β) (order : List (Item β)) : Prop :=
  ∀ k, match w.sends[k]? with
    | some c => c.Brings (ofWriter k order)
    | none => ofWriter k order = []

theorem Stream.Inv.log_prefix (hw : w.Inv) (hk : w.sends[k]? = some c) (hret : c.isReturned) :
    ofWriter k w.log <+: c.accepted := by
  have h := hw.books k
  rw [hk] at h
  cases h with
  | flying j _ hdata _ _ hresult => exact ⟨_, hdata.trans (hresult hret).symm⟩
  | buffered hlog => rw [hlog]; exact nil_prefix
  | ended hlog => exact hlog ▸ prefix_rfl

/-- What call `k` brings in the end, as far as it is known. -/
def Stream.share (w : Stream β) (k : Nat) : List β :=
  match w.sends[k]? with
  | some c => if c.isReturned then c.accepted else ofWriter k w.log
  | none => []

theorem Stream.Inv.exists_order (hw : w.Inv) : ∃ order, w.received <+: order ∧ w.IsOrder order := by
  have hlists : ∀ k < w.sends.length, ofWriter k w.log <+: w.share k := by
    intro k hk
    rw [share, List.getElem?_eq_getElem hk]
    dsimp only
    split
    · next hret => exact hw.log_prefix (List.getElem?_eq_getElem hk) hret
    · exact List.prefix_rfl
  obtain ⟨order, hlog, horder, hbeyond⟩ := exists_serving hlists
  refine ⟨order, (List.prefix_append _ _).trans hlog, fun k => ?_⟩
  have hbooks := hw.books k
  split
  · next c hk =>
      obtain ⟨hlt, -⟩ := List.getElem?_eq_some_iff.mp hk
      rw [horder k hlt, share, hk, Send.Brings]
      dsimp only
      split
      · rfl
      · next hret =>
          rw [hk] at hbooks
          exact ⟨_, (hbooks.own (Bool.eq_false_iff.mpr hret)).2.1⟩
  next hk =>
  rw [hk] at hbooks
  rw [hbeyond k (List.getElem?_eq_none_iff.mp hk)]
  cases hbooks with
  | unborn hlog => exact hlog

theorem Stream.Inv.ended_of_eof (hw : w.Inv) (heof : w.readEof) : w.writeShutdown ∨ w.closed := by
  refine hw.told (.inr ?_)
  simpa [readEof, hw.receive] using heof

theorem Send.rest_quiet (c : Send β) (h : c.stage.sending = false) (k : Nat) :
    c.rest k = [] ∨ c.rest k = tag k c.data ∧ c.isReturned = false := by
  unfold rest isReturned
  cases hstage : c.stage with
  | enter => exact .inr ⟨rfl, rfl⟩
  | returned => exact .inl rfl
  | _ => rw [hstage] at h; cases h

theorem Stream.Inv.complete (hw : w.Inv) (hend : w.writeShutdown ∨ w.closed)
    (hk : w.sends[k]? = some c) (hret : c.isReturned) : ofWriter k w.log = c.accepted := by
  obtain ⟨hbuffer, hsending⟩ := hw.quiet hend
  have h := hw.books k
  rw [hk] at h
  cases h with
  | flying j _ hdata _ _ hresult =>
      -- whoever is left has only its own bytes, and has not returned
      have hrest : ofWriter k (w.rest j) = [] := by
        unfold rest
        split
        · next d hj =>
            rcases d.rest_quiet (hsending d (mem_of_getElem? hj)) j with h | ⟨h, hopen⟩
            · rw [h]
              rfl
            · rw [h]
              refine ofWriter_tag_ne ?_ _
              rintro rfl
              cases hk.symm.trans hj
              rw [hret] at hopen
              cases hopen
        · rfl
      rw [hrest, append_nil] at hdata
      rw [hdata, hresult hret]
  | buffered hlog hdata _ _ hresult =>
      rw [hbuffer] at hdata
      rw [hlog, hresult, ← hdata]
      rfl
  | ended hlog => exact hlog

theorem enter_of_end (hend : w.writeShutdown ∨ w.closed) :
    ∃ e, w.enter k c = w.ret k (.error e) := by
  unfold enter
  split
  · exact ⟨_, rfl⟩
  · next hclosed =>
      rw [if_pos (hend.resolve_right hclosed)]
      exact ⟨_, rfl⟩

theorem Stream.Inv.after_end (hw : w.Inv) (hend : w.writeShutdown ∨ w.closed) (op : Op β) :
    (w.step op).log = w.log ∧ ((w.step op).writeShutdown ∨ (w.step op).closed) := by
  obtain ⟨-, hsending⟩ := hw.quiet hend
  cases op with
  | send | ending => exact ⟨rfl, hend⟩
  | recv len peek =>
      refine ⟨recv_log len peek, ?_⟩
      simp only [Stream.step, Stream.recv]
      split <;> exact hend
  | runSend k =>
      simp only [Stream.step]
      split
      · next c hk =>
          have hc := hsending c (mem_of_getElem? hk)
          unfold Stream.runSend
          cases hstage : c.stage with
          | enter =>
              obtain ⟨e, he⟩ := enter_of_end (k := k) (c := c) hend
              rw [he]
              exact ⟨rfl, hend⟩
          | returned => exact ⟨rfl, hend⟩
          | _ => rw [hstage] at hc; cases hc
      · exact ⟨rfl, hend⟩
  | runEnding i =>
      simp only [Stream.step]
      split
      · unfold Stream.endOwn
        split
        · split
          · exact ⟨rfl, hend⟩
          · exact ⟨rfl, .inl rfl⟩
        · exact ⟨rfl, .inr rfl⟩
      · exact ⟨rfl, hend⟩
      · exact ⟨rfl, hend⟩

abbrev Runs (w : Stream β) (ops : List (Op β)) (w' : Stream β) : Prop :=
  Run.Guarded (fun w op => some (w.step op)) (fun w op => w.allowed op) w ops w'

/-- As long as no call comes between the halves of a flush, a flush that must
not block has room, and the stream ends when nothing waits and nobody sends:
what is received begins a serial order of what was reported, and a reader who
has come to the end has all of it, for good. -/
theorem stream_integrity {ops : List (Op β)} (hrun : Runs .connected ops w) :
    (∃ order, w.received <+: order ∧ w.IsOrder order) ∧ (w.readEof → w.recvBuffer = [] →
        (∀ (k : Nat) (c : Send β), w.sends[k]? = some c → c.isReturned →
          ofWriter k w.received = c.accepted) ∧
        ∀ {more w'}, Runs w more w' → w'.received ++ w'.recvBuffer = w.received) := by
  have hw : w.Inv :=
    hrun.inv (I := Stream.Inv) (fun hs hC hf => by cases hf; exact hs.step hC) connected_inv
  refine ⟨hw.exists_order, fun heof hempty => ⟨fun k c hk hret => ?_, fun {more w'} hmore => ?_⟩⟩
  · rw [← hw.complete (hw.ended_of_eof heof) hk hret, log, hempty, append_nil]
  · have hlog : w.log = w.received := by rw [log, hempty, append_nil]
    rw [← hlog]
    refine (hmore.inv (I := fun w' => w'.Inv ∧ w'.log = w.log ∧ (w'.writeShutdown ∨ w'.closed))
      ?_ ⟨hw, rfl, hw.ended_of_eof heof⟩).2.1
    intro w₁ op w₂ ⟨h, heq, hend⟩ hC hf
    cases hf
    obtain ⟨hlog', hend'⟩ := h.after_end hend op
    exact ⟨h.step hC, hlog'.trans heq, hend'⟩

def corked : List (Op Nat) :=
  [.send [1, 2] true false, .runSend 0, .send [3] false false, .runSend 1, .runSend 1, .runSend 1,
    .recv 2 false, .ending .shutdown, .runEnding 0, .runEnding 0, .recv 2 false]

def afterCorked : Stream Nat := corked.foldl step .connected

theorem stream_integrity_corked :
    afterCorked.readEof ∧ ofWriter 0 afterCorked.received = [1, 2] ∧
      ofWriter 1 afterCorked.received = [3] := by
  have hrun : Runs .connected corked afterCorked := .of_foldlM rfl
  obtain ⟨hall, -⟩ := (stream_integrity hrun).2 rfl rfl
  exact ⟨rfl, hall 0 _ rfl rfl, hall 1 _ rfl rfl⟩

/-- A byte is accepted with MSG_MORE, and then the stream is shut down. -/
def dropped : Stream Nat :=
  [.send [1] true false, .runSend 0, .ending .shutdown, .runEnding 0, .runEnding 0].foldl
    step .connected

def flushedTwice : Stream Nat :=
  [.send [1] true false, .runSend 0, .send [2] false false, .send [3] false false, .runSend 1,
    .runSend 2, .runSend 1, .runSend 1, .runSend 2, .runSend 2, .recv 4 false].foldl
    step .connected

/-- At the end of the stream a byte that was reported is missing, and another
time it comes twice. -/
theorem reported_byte_lost_or_doubled :
    (dropped.readEof ∧ dropped.recvBuffer = [] ∧ dropped.received = [] ∧
      dropped.sends.map (·.accepted) = [[1]]) ∧
    (flushedTwice.received.map (·.value) = [1, 2, 1, 3] ∧
      flushedTwice.sends.map (·.accepted) = [[1], [2], [3]]) :=
  ⟨⟨rfl, rfl, rfl, rfl⟩, rfl, rfl⟩

end F7ly.Fs.LocalStream
