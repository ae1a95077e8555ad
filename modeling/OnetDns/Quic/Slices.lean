import OnetDns.Quic.Limits

/-!
# What the frames of a stream carry

The application gives a stream its bytes piece by piece. Requests wait for the window, are
cut into frames, and the frames move between queues, packets and lists of what is to be
sent again. Wherever a frame is, its bytes are those of the stream at its offset.
-/
namespace OnetDns.Quic
open List Prod StreamRanges

/-- Pieces of streams, as the application gives or gets them: the stream, the bytes and whether
they end it. -/
abbrev Pieces := List (ℕ × Bytes × Bool)

def Pieces.bytes (sends : Pieces) (id : ℕ) : Bytes := (sends.filter (·.1 = id)).flatMap (·.2.1)

/-- Whether a stream has its end. -/
def Pieces.ended (sends : Pieces) (id : ℕ) : Bool := sends.any fun s => s.1 = id && s.2.2

/-- A piece of a whole, at an offset. -/
def IsSlice (whole : Bytes) (offset : ℕ) (data : Bytes) : Prop :=
  ∃ before after, whole = before ++ (data ++ after) ∧ before.length = offset

namespace IsSlice

variable {whole data : Bytes} {offset : ℕ}

section

variable (h : IsSlice whole offset data)
include h

lemma extend (more : Bytes) : IsSlice (whole ++ more) offset data := by
  obtain ⟨before, after, rfl, hlen⟩ := h
  exact ⟨before, after ++ more, by simp only [append_assoc], hlen⟩

lemma cut (start len : ℕ) (hstart : start ≤ data.length) :
    IsSlice whole (offset + start) ((data.drop start).take len) := by
  obtain ⟨before, after, rfl, hlen⟩ := h
  refine ⟨before ++ data.take start, (data.drop start).drop len ++ after, ?_, ?_⟩
  · rw [append_assoc, ← append_assoc (take len _), take_append_drop,
      ← append_assoc (data.take start), take_append_drop]
  · rw [length_append, length_take, hlen, min_eq_left hstart]

lemma le_length : offset + data.length ≤ whole.length := by
  obtain ⟨before, after, rfl, hlen⟩ := h
  simp only [length_append]
  omega

end

lemma append (whole data : Bytes) : IsSlice (whole ++ data) whole.length data :=
  ⟨whole, [], by rw [append_nil], rfl⟩

lemma getElem? (h : IsSlice whole offset data) {i : ℕ} {b : UInt8} (hb : data[i]? = some b) :
    whole[offset + i]? = some b := by
  obtain ⟨before, after, rfl, hlen⟩ := h
  obtain ⟨hi, -⟩ := List.getElem?_eq_some_iff.1 hb
  rw [getElem?_append_right (by omega), hlen, Nat.add_sub_cancel_left, getElem?_append_left hi, hb]

end IsSlice

/-- A frame that tells the truth about the streams of its sender. Resets and requests to stop
are sent by no connection whose peer does not ask for them. -/
def Frame.Genuine (sends : Pieces) : Frame → Prop
  | .stream id offset fin data => IsSlice (sends.bytes id) offset data ∧
      (fin = true → sends.ended id = true ∧ offset + data.length = (sends.bytes id).length)
  | .resetStream _ _ _ => False
  | .stopSending _ _ => False
  | _ => True

/-- Frames without a word on what is sent. -/
def Frame.plain : Frame → Bool
  | .stream _ _ _ _ => false
  | .resetStream _ _ _ => false
  | .stopSending _ _ => false
  | _ => true

variable {f : Frame}

lemma Frame.genuine_of_plain (h : f.plain = true) (sends : Pieces) : f.Genuine sends := by
  cases f with
  | stream | resetStream | stopSending => cases h
  | _ => trivial

lemma Pieces.bytes_append (sends : Pieces) (id : ℕ) (data : Bytes) (fin : Bool) (other : ℕ) :
    Pieces.bytes (sends ++ [(id, data, fin)]) other =
      sends.bytes other ++ if id = other then data else [] := by
  simp only [bytes]
  by_cases h : id = other <;> simp [h]

lemma Pieces.ended_append (sends : Pieces) (id : ℕ) (data : Bytes) (fin : Bool) (other : ℕ) :
    Pieces.ended (sends ++ [(id, data, fin)]) other =
      (sends.ended other || (decide (id = other) && fin)) := by
  simp [ended]

/-- Streams that were not ended may be given more. -/
def Pieces.Open (sends : Pieces) (id : ℕ) : Prop := sends.ended id = false

variable {fin : Bool} {id : ℕ} {sends : Pieces} {data : Bytes}

lemma Pieces.bytes_of_ended {other : ℕ}
    (hopen : sends.Open id) (hended : sends.ended other = true) :
    Pieces.bytes (sends ++ [(id, data, fin)]) other = sends.bytes other := by
  have hne : id ≠ other := by
    rintro rfl
    rw [hopen] at hended
    cases hended
  rw [bytes_append, if_neg hne, append_nil]

lemma Frame.Genuine.mono (h : f.Genuine sends)
    (hopen : sends.Open id) : f.Genuine (sends ++ [(id, data, fin)]) := by
  cases f with
  | stream other offset last piece =>
    refine ⟨?_, fun hlast => ?_⟩
    · rw [Pieces.bytes_append]
      exact h.1.extend _
    · obtain ⟨hended, hstop⟩ := h.2 hlast
      rw [Pieces.bytes_of_ended hopen hended, Pieces.ended_append, hended]
      exact ⟨rfl, hstop⟩
  | resetStream => exact h
  | stopSending => exact h
  | _ => trivial

/-- A request that waits is a piece of its stream. -/
structure PendingStreamSend.Genuine (sends : Pieces) (p : PendingStreamSend) : Prop where
  slice : IsSlice (sends.bytes p.id) p.offset p.data
  cursor : p.cursor ≤ p.data.length
  fin : p.fin = true → sends.ended p.id = true ∧
    p.offset + p.data.length = (sends.bytes p.id).length

variable {p : PendingStreamSend}

lemma PendingStreamSend.Genuine.mono (h : p.Genuine sends) (hopen : sends.Open id) :
    p.Genuine (sends ++ [(id, data, fin)]) where
  slice := by
    rw [Pieces.bytes_append]
    exact h.slice.extend _
  cursor := h.cursor
  fin hfin := by
    obtain ⟨hended, hstop⟩ := h.fin hfin
    rw [Pieces.bytes_of_ended hopen hended, Pieces.ended_append, hended]
    exact ⟨rfl, hstop⟩

namespace Connection

/-- The sending half keeps to what it was given. -/
structure Sending (c : Connection) (sends : Pieces) : Prop where
  frames : ∀ f, c.Holds f → f.Genuine sends
  requests : ∀ p ∈ c.pendingStreamSends, p.Genuine sends
  offsets : c.closed = false → ∀ id, c.closedSendRanges.contains id = false →
    c.nextOffset id = (sends.bytes id).length
  sealed : ∀ id, sends.ended id = true → c.sealedSendRanges.contains id = true

/-- The sending half is as it was but for plain frames. -/
structure Carries (c c' : Connection) : Prop where
  pending : c'.pendingStreamSends = c.pendingStreamSends
  sendOffsets : c'.sendOffsets = c.sendOffsets
  sealed : c'.sealedSendRanges = c.sealedSendRanges
  ended : c'.closedSendRanges = c.closedSendRanges
  closed : c'.closed = c.closed
  frames : ∀ f, c'.Holds f → c.Holds f ∨ f.plain = true

namespace Carries

variable {c c' c'' : Connection}

lemma refl (c : Connection) : Carries c c := ⟨rfl, rfl, rfl, rfl, rfl, fun _ h => .inl h⟩

lemma trans (h : Carries c c') (h' : Carries c' c'') : Carries c c'' where
  pending := h'.pending.trans h.pending
  sendOffsets := h'.sendOffsets.trans h.sendOffsets
  sealed := h'.sealed.trans h.sealed
  ended := h'.ended.trans h.ended
  closed := h'.closed.trans h.closed
  frames f hf := by
    rcases h'.frames f hf with hf | hf
    · exact h.frames f hf
    · exact .inr hf

lemma foldl {α : Type*} {step : Connection → α → Connection}
    (h : ∀ c a, Carries c (step c a)) (items : List α) (c : Connection) :
    Carries c (items.foldl step c) := by
  induction items generalizing c with
  | nil => exact refl c
  | cons a rest ih => exact (h c a).trans (ih _)

end Carries

variable {c c' : Connection}

lemma Sending.carries {sends : Pieces} (h : c.Sending sends)
    (hc : Carries c c') : c'.Sending sends where
  frames f hf := (hc.frames f hf).elim (h.frames f) fun hplain => f.genuine_of_plain hplain sends
  requests p hp := h.requests p (hc.pending ▸ hp)
  offsets hclosed id hid := by
    rw [nextOffset, hc.sendOffsets]
    rw [hc.closed] at hclosed
    rw [hc.ended] at hid
    exact h.offsets hclosed id hid
  sealed id hid := by
    rw [hc.sealed]
    exact h.sealed id hid

lemma Carries.queue (h : Carries c c') (hf : f.plain = true) : Carries c (c'.queue f) :=
  h.trans
    { refl c' with
      frames := fun g hg => (holds_queue hg).imp_right fun heq => by rw [heq, hf] }

section

variable (c)

lemma carries_buildZeroRttPacket (count : ℕ) :
    Carries c (c.buildZeroRttPacket count) := by
  have hframes : ∀ f, (c.buildZeroRttPacket count).Holds f → c.Holds f ∨ f.plain = true :=
    fun f hf => .inl (holds_buildZeroRttPacket hf)
  unfold buildZeroRttPacket at hframes ⊢
  split
  · exact .refl c
  · rename_i h
    rw [if_neg h] at hframes
    exact { Carries.refl c with frames := hframes }

lemma carries_buildShortPacket (plan : PacketPlan) :
    Carries c (c.buildShortPacket plan) :=
  { Carries.refl c with frames := fun _ hf => .inl (holds_buildShortPacket hf) }

lemma carries_acked (pns : List ℕ) : Carries c (c.acked pns) :=
  { Carries.refl c with frames := fun _ hf => .inl (holds_acked hf) }

lemma carries_lost (pns : List ℕ) : Carries c (c.lost pns) :=
  { Carries.refl c with frames := fun _ hf => .inl (holds_lost hf) }

lemma carries_queueProbe (pns : List ℕ) : Carries c (c.queueProbe pns) :=
  { Carries.refl c with
    frames := fun _ hf => (holds_queueProbe hf).imp_right fun heq => by rw [heq]; rfl }

lemma carries_ensureRecvStreamCredit (id limit : ℕ) :
    Carries c (c.ensureRecvStreamCredit id limit) := by
  unfold ensureRecvStreamCredit
  split
  · exact .refl c
  simp only
  split
  · refine .queue ?_ rfl
    exact { Carries.refl c with }
  · exact { Carries.refl c with }

end

lemma Carries.replenishConnectionCredit (h : Carries c c') (consumed : ℕ) :
    Carries c (c'.replenishConnectionCredit consumed) := by
  unfold Connection.replenishConnectionCredit
  split
  · exact h
  · refine queue ?_ rfl
    exact { h with }

lemma Carries.extendRecvStreamCredit (h : Carries c c') (id consumed : ℕ) :
    Carries c (c'.extendRecvStreamCredit id consumed) := by
  unfold Connection.extendRecvStreamCredit
  split
  · exact h
  split
  · exact h
  simp only
  split
  · refine queue ?_ rfl
    exact { h with }
  · exact h

lemma Carries.replenishRecvCredit (h : Carries c c') (consumed : ℕ)
    (peer uni : Bool) : Carries c (c'.replenishRecvCredit consumed peer uni) := by
  unfold Connection.replenishRecvCredit
  have hcredit := h.replenishConnectionCredit consumed
  split
  · exact hcredit
  split
  · refine queue ?_ rfl
    exact { hcredit with }
  · refine queue ?_ rfl
    exact { hcredit with }

lemma carries_releaseRecvStream (c : Connection) (id : ℕ) : Carries c (c.releaseRecvStream id) := by
  unfold releaseRecvStream
  split
  · exact .refl c
  · refine .replenishRecvCredit ?_ _ _ _
    exact { Carries.refl c with }

lemma carries_consume (finished : List ℕ) (c : Connection) (id consumed : ℕ) :
    Carries c (c.consume finished id consumed) := by
  have hread : Carries c ((c.emptied id consumed).replenishConnectionCredit consumed) := by
    refine .replenishConnectionCredit ?_ consumed
    exact { Carries.refl c with }
  rw [consume_eq]
  split
  · exact hread
  · exact hread.extendRecvStreamCredit id consumed

lemma carries_takeReadable (c : Connection) : Carries c c.takeReadable := by
  have hstart : Carries c { c with readable := [] } := { Carries.refl c with }
  have hread := hstart.trans
    (.foldl (fun c' id => carries_consume ((c.readable.filter (·.2.2)).map fst).dedup c' id
      (eventBytes c.readable id)) (c.readable.map fst).dedup _)
  have hdone := hread.trans (.foldl carries_releaseRecvStream
    ((c.readable.filter (·.2.2)).map fst).dedup _)
  exact { hdone with }

lemma carries_publish (c : Connection) (id limit : ℕ) (newly : Bytes) (finNow : Bool)
    (whole : Option Bytes) : Carries c (c.publish id limit newly finNow whole) :=
  { carries_ensureRecvStreamCredit c id limit with }

lemma charge_inv {s s' : StreamRecv} {stop : ℕ} (h : c.charge s stop = some (c', s')) :
    (∃ total buffered, c' = { c with recvTotalHighest := total, recvBuffered := buffered }) ∧
      s' = { s with highestOffset := max s.highestOffset stop } := by
  unfold charge at h
  split at h
  · rename_i hle
    obtain ⟨rfl, rfl⟩ := Prod.mk.inj (Option.some.inj h)
    exact ⟨⟨_, _, rfl⟩, by rw [max_eq_left hle]⟩
  simp only at h
  split at h
  · cases h
  · obtain ⟨rfl, rfl⟩ := Prod.mk.inj (Option.some.inj h)
    exact ⟨⟨_, _, rfl⟩, by rw [max_eq_right (by omega)]⟩

lemma carries_settle (c : Connection) (id limit : ℕ)
    (accepted : Except QuicError (Bytes × Bool × Option Bytes) × StreamRecv) :
    Carries c (c.settle id limit accepted).2 := by
  have hstored : Carries c { c with streams := c.streams.insert id accepted.2 } :=
    { Carries.refl c with }
  unfold settle
  split
  · exact hstored
  · exact hstored.trans (carries_publish _ _ _ _ _ _)

lemma carries_onStream (c : Connection) (id offset : ℕ) (fin : Bool) (data : Bytes) :
    Carries c (c.onStream id offset fin data).2 := by
  unfold onStream
  split
  · exact .refl c
  split
  · exact .refl c
  split
  · exact .refl c
  split
  · exact .refl c
  unfold receiveData
  simp only
  have hentered : Carries c { c with
      streams := c.streams.insert id ((c.streams.lookup id).getD .default) } :=
    { Carries.refl c with }
  split
  · exact hentered
  split
  · exact hentered
  · rename_i hcharge
    obtain ⟨⟨total, buffered, rfl⟩, -⟩ := charge_inv hcharge
    refine .trans ?_ (carries_settle _ _ _ _)
    exact { hentered with }

variable {len : ℕ}

lemma sendLen_le (h : c.sendLen p = some len) : len ≤ p.data.length - p.cursor := by
  unfold sendLen at h
  simp only at h
  split at h
  · split at h
    · cases h
    · obtain rfl := Option.some.inj h
      exact Nat.zero_le _
  · split at h
    · cases h
    · obtain rfl := Option.some.inj h
      exact min_le_left _ _

/-- The connection after a cut, apart from the frame. -/
theorem holds_cut (h : (c.cut p len).1.Holds f) :
    c.Holds f ∨ f = .stream p.id (p.offset + p.cursor)
      (p.cursor + len == p.data.length && p.fin) ((p.data.drop p.cursor).take len) := by
  have hqueued :
      (queueAppFrame { c with openedSendRanges := c.openedSendRanges.mark p.id }
      (.stream p.id (p.offset + p.cursor) (p.cursor + len == p.data.length && p.fin)
        ((p.data.drop p.cursor).take len))).Holds f := by
    unfold cut at h
    simp only at h
    split at h
    · exact h
    · exact h
  rcases holds_queueAppFrame hqueued with hold | hnew
  · exact .inl hold
  · exact .inr hnew

lemma sendFields_cut (c : Connection) (p : PendingStreamSend) (len : ℕ) :
    (c.cut p len).1.pendingStreamSends = c.pendingStreamSends ∧ (c.cut p len).1.closed = c.closed ∧
      (c.cut p len).1.sealedSendRanges = c.sealedSendRanges ∧
      (∀ id, (c.cut p len).1.closedSendRanges.contains id = false →
        c.closedSendRanges.contains id = false ∧
        (c.cut p len).1.nextOffset id = c.nextOffset id) := by
  unfold cut queueAppFrame
  simp only
  split
  · split
    · refine ⟨rfl, rfl, rfl, fun id hid => ?_⟩
      simp only [contains_mark, Bool.or_eq_false_iff, decide_eq_false_iff_not] at hid
      exact ⟨hid.1, by simp [nextOffset, AList.lookup_erase_ne hid.2]⟩
    · refine ⟨rfl, rfl, rfl, fun id hid => ?_⟩
      simp only [contains_mark, Bool.or_eq_false_iff, decide_eq_false_iff_not] at hid
      exact ⟨hid.1, by simp [nextOffset, queue, AList.lookup_erase_ne hid.2]⟩
  · split
    · exact ⟨rfl, rfl, rfl, fun id hid => ⟨hid, rfl⟩⟩
    · exact ⟨rfl, rfl, rfl, fun id hid => ⟨hid, rfl⟩⟩

variable {sends : Pieces}

section

variable (h : c.Sending sends)
include h

/-- A frame that is cut from a request is genuine, and so is the rest of the request. -/
theorem Sending.cut (hp : p.Genuine sends) (hlen : len ≤ p.data.length - p.cursor) :
    (c.cut p len).1.Sending sends ∧ (c.cut p len).2.Genuine sends := by
  obtain ⟨hpending, hclosed, hsealed, hopen⟩ := sendFields_cut c p len
  have hcursor := hp.cursor
  refine ⟨⟨fun f hf => ?_, fun q hq => h.requests q (hpending ▸ hq), ?_, ?_⟩,
    ⟨hp.slice, ?_, hp.fin⟩⟩
  · rcases holds_cut hf with hf | rfl
    · exact h.frames f hf
    refine ⟨hp.slice.cut p.cursor len hcursor, fun hfin => ?_⟩
    simp only [Bool.and_eq_true, beq_iff_eq] at hfin
    obtain ⟨hended, hstop⟩ := hp.fin hfin.2
    refine ⟨hended, ?_⟩
    rw [length_take, length_drop]
    omega
  · intro hc id hid
    obtain ⟨hid, hoffset⟩ := hopen id hid
    rw [hoffset]
    exact h.offsets (hclosed ▸ hc) id hid
  · intro id hid
    rw [hsealed]
    exact h.sealed id hid
  · show p.cursor + len ≤ p.data.length
    omega

lemma Sending.scheduleOnePending (hp : p.Genuine sends) :
    (c.scheduleOnePending p).1.Sending sends ∧ (c.scheduleOnePending p).2.1.Genuine sends := by
  unfold Connection.scheduleOnePending
  split
  · exact ⟨h, hp⟩
  split
  · exact ⟨h, hp⟩
  split
  · exact ⟨h, hp⟩
  · rename_i hlen
    exact h.cut hp (sendLen_le hlen)

lemma Sending.schedulePass {requests : List PendingStreamSend}
    (hrequests : ∀ p ∈ requests, p.Genuine sends) (blocked : List ℕ) :
    (c.schedulePass requests blocked).1.Sending sends ∧
      ∀ p ∈ (c.schedulePass requests blocked).2.1, p.Genuine sends := by
  induction requests generalizing c blocked with
  | nil => exact ⟨h, nofun⟩
  | cons p rest ih =>
    rw [forall_mem_cons] at hrequests
    rw [schedulePass]
    split
    · obtain ⟨hnext, hkept⟩ := ih h hrequests.2 blocked
      exact ⟨hnext, forall_mem_cons.mpr ⟨hrequests.1, hkept⟩⟩
    have hone := h.scheduleOnePending hrequests.1
    split
    · rename_i heq
      rw [heq] at hone
      exact ih hone.1 hrequests.2 blocked
    · rename_i heq
      rw [heq] at hone
      obtain ⟨hnext, hkept⟩ := ih hone.1 hrequests.2 (_ :: blocked)
      exact ⟨hnext, forall_mem_cons.mpr ⟨hone.2, hkept⟩⟩

lemma Sending.scheduleLoop (fuel : ℕ) : (Connection.scheduleLoop fuel c).Sending sends := by
  induction fuel generalizing c with
  | zero => exact h
  | succ fuel ih =>
    obtain ⟨hnext, hkept⟩ := h.schedulePass h.requests []
    have hstored : Sending { (c.schedulePass c.pendingStreamSends []).1 with
        pendingStreamSends := (c.schedulePass c.pendingStreamSends []).2.1 } sends :=
      { hnext with requests := hkept }
    rw [scheduleLoop]
    simp only
    split
    · exact ih hstored
    · exact hstored

lemma Sending.flush (plan : FlushPlan) : (c.flush plan).Sending sends := by
  unfold Connection.flush
  split
  · exact h
  · exact (h.scheduleLoop _).carries ((Carries.foldl carries_buildZeroRttPacket _ _).trans
      (.foldl carries_buildShortPacket _ _))

lemma Sending.isOpen (hsealed : c.sealedSendRanges.contains id = false) : sends.Open id := by
  by_contra hnot
  have := h.sealed id (by simpa [Pieces.Open] using hnot)
  rw [hsealed] at this
  cases this

/-- A request that is taken becomes part of what the stream was given. -/
theorem Sending.enqueue {data : Bytes} (hclosed : c.closed = false) (hended : c.closedSendRanges.contains id = false)
    (hsealed : c.sealedSendRanges.contains id = false) :
    (c.enqueue id data fin).Sending (sends ++ [(id, data, fin)]) := by
  have hopen := h.isOpen hsealed
  have hoffset := h.offsets hclosed id hended
  refine ⟨fun f hf => (h.frames f hf).mono hopen, fun p hp => ?_, fun _ other hother => ?_,
    fun other hother => ?_⟩
  · rcases mem_append.mp hp with hp | hp
    · exact (h.requests p hp).mono hopen
    rw [mem_singleton] at hp
    subst hp
    refine ⟨?_, Nat.zero_le _, fun hfin => ?_⟩
    · simp only [Pieces.bytes_append, hoffset]
      exact .append _ _
    · simp only at hfin
      simp [Pieces.bytes_append, Pieces.ended_append, hoffset, hfin]
  · rw [Pieces.bytes_append]
    simp only [nextOffset, Connection.enqueue]
    by_cases heq : id = other
    · subst heq
      simpa [nextOffset] using hoffset
    · rw [AList.lookup_insert_ne (Ne.symm heq), if_neg heq, append_nil]
      exact h.offsets hclosed other hother
  · rw [Pieces.ended_append, Bool.or_eq_true, Bool.and_eq_true, decide_eq_true_eq] at hother
    simp only [Connection.enqueue]
    rcases hother with hother | ⟨rfl, hfin⟩
    · split
      · rw [contains_mark_iff]
        exact .inl (h.sealed other hother)
      · exact h.sealed other hother
    · rw [if_pos hfin, contains_mark_iff]
      exact .inr rfl

end

lemma carries_openWindow (c : Connection) : Carries c c.openWindow := by
  unfold openWindow
  split
  · refine .queue ?_ rfl
    exact { Carries.refl c with }
  · exact .refl c

lemma carries_completeHandshake (c : Connection) (earlyAccepted : Bool) :
    Carries c (c.completeHandshake earlyAccepted) := by
  unfold completeHandshake
  split
  · exact .refl c
  simp only
  have hdone : Carries c { c with handshakeComplete := true } := { Carries.refl c with }
  have hopened := hdone.trans (carries_openWindow _)
  set d := ({ c with handshakeComplete := true } : Connection).openWindow
  split
  · exact hopened.queue rfl
  refine hopened.trans ?_
  split
  · refine { Carries.refl d with frames := fun f hf => .inl ?_ }
    rcases hf with hf | hf | hf | hf | ⟨packet, hpacket, -⟩ | hf
    · rcases mem_append.mp hf with hf | hf
      · exact .inl hf
      · exact .inr (.inr (.inl hf))
    · cases hf
    · cases hf
    · cases hf
    · cases hpacket
    · exact .inr (.inr (.inr (.inr (.inr hf))))
  · refine { Carries.refl d with frames := fun f hf => .inl ?_ }
    rcases hf with hf | hf | hf | hf
    · rcases mem_append.mp hf with hf | hf
      · exact .inl hf
      · exact .inr (.inl hf)
    · cases hf
    · cases hf
    · exact .inr (.inr (.inr hf))

/-- Frames of a peer that resets and stops nothing. -/
theorem carries_onFrame (c : Connection)
    (hf : f.plain = true ∨ ∃ id offset fin data, f = .stream id offset fin data) :
    Carries c (c.onFrame f).2 := by
  cases f with
  | stream id offset fin data => exact carries_onStream c id offset fin data
  | resetStream | stopSending => simp [Frame.plain] at hf
  | maxData limit => exact { Carries.refl c with }
  | maxStreamData id limit =>
    simp only [onFrame, onMaxStreamData]
    split
    · exact .refl c
    split
    · exact .refl c
    split
    · exact .refl c
    · exact { Carries.refl c with }
  | maxStreams uni limit =>
    simp only [onFrame]
    split
    · exact .refl c
    split
    · exact { Carries.refl c with }
    · exact { Carries.refl c with }
  | pathChallenge data => exact (Carries.refl c).queue rfl
  | handshakeDone =>
    simp only [onFrame]
    split <;> exact .refl c
  | ping | pathResponse => exact .refl c

lemma Sending.close (h : c.Sending sends) :
    ({ c with closed := true } : Connection).Sending sends :=
  { h with offsets := fun hopen => by cases hopen }

lemma Sending.abort (h : c.Sending sends) :
    ({ c.discardSendOutput with closed := true } : Connection).Sending sends where
  frames f hf := by
    rcases hf with hf | hf | hf | hf | ⟨packet, hpacket, -⟩ | hf
    · cases hf
    · cases hf
    · cases hf
    · cases hf
    · cases hpacket
    · exact h.frames f (.inr (.inr (.inr (.inr (.inr hf)))))
  requests p hp := by cases hp
  offsets hopen := by cases hopen
  sealed := h.sealed

/-- The requests that were taken, after a call. -/
def sendsAfter (c : Connection) (sends : Pieces) : Call → Pieces
  | .sendStream id data fin plan =>
    match (c.sendStreamOwned id data fin plan).1 with
    | .ok () => sends ++ [(id, data, fin)]
    | .error _ => sends
  | _ => sends

/-- Every call but the arrival of a frame. -/
theorem Sending.exec (h : c.Sending sends) {k : Call}
    (hk : ∀ f, k ≠ .receive f) : (c.exec k).2.Sending (c.sendsAfter sends k) := by
  cases k with
  | sendStream id data fin plan =>
    simp only [Connection.exec, sendsAfter]
    rcases sendStreamOwned_cases c id data fin plan with
      ⟨e, hsame⟩ | ⟨hclosed, -, hended, hsealed, -, -, hsent⟩
    · rw [hsame]
      exact h
    · rw [hsent]
      exact (h.enqueue hclosed hended hsealed).flush plan
  | openUniStream =>
    simp only [Connection.exec, openUniStream]
    split
    · exact h
    split
    · exact h
    · exact { h with }
  | takeReadable plan =>
    simp only [Connection.exec]
    have hread := h.carries (carries_takeReadable c)
    split
    · exact hread.flush plan
    · exact hread
  | takeResets => exact { h with }
  | takeStreamRequests =>
    have hstart : Carries c { c with
        completedStreams := []
        readable := c.readable.filter (·.1 ∉ c.completedStreams.map fst) } :=
      { Carries.refl c with }
    exact h.carries (hstart.trans (.foldl carries_releaseRecvStream _ _))
  | challengePath data => exact h.carries ((Carries.refl c).queue rfl)
  | flush plan => exact h.flush plan
  | acked pns =>
    simp only [Connection.exec]
    split
    · exact h
    · exact h.carries (carries_acked c pns)
  | lost pns => exact h.carries (carries_lost c pns)
  | probe pns => exact h.carries (carries_queueProbe c pns)
  | peerParams tp =>
    simp only [Connection.exec, takePeerParams]
    split
    · exact h
    split
    · exact h
    · exact { h with }
  | handshakeComplete earlyAccepted =>
    simp only [Connection.exec]
    split
    · exact h
    · exact h.carries (carries_completeHandshake c earlyAccepted)
  | receive f => exact absurd rfl (hk f)
  | close plan => exact (h.flush plan).close
  | abort => exact h.abort

end Connection

end OnetDns.Quic
