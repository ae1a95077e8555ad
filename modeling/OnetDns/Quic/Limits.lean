import OnetDns.Quic.Calls

/-!
# Limits only grow

What a connection allows its peer is in a few fields; what the peer is told is in the
frames that wait or were sent. No call takes a limit back, and no frame tells more than
the fields allow.
-/
namespace OnetDns.Quic
open List

/-- Frames that tell the peer a limit. -/
def Frame.tellsLimit : Frame → Bool
  | .maxData _ => true
  | .maxStreamData _ _ => true
  | .maxStreams _ _ => true
  | _ => false

namespace Connection

/-- A frame that waits to be sent, or was sent. -/
def Holds (c : Connection) (f : Frame) : Prop :=
  f ∈ c.outFramesApp ∨ f ∈ c.outFramesEarly ∨ f ∈ c.earlyBackup ∨ f ∈ c.rtx ∨
    (∃ packet ∈ c.sent, f ∈ packet.frames) ∨ f ∈ c.log.wire

/-- A frame does not tell more than the connection allows. -/
def Told (c : Connection) : Frame → Prop
  | .maxData limit => limit ≤ c.localMaxData
  | .maxStreamData id limit => c.recvStreamClosed id = true ∨ limit ≤ c.recvLimit id
  | .maxStreams uni limit => limit ≤ if uni then c.localMaxStreamsUni else c.localMaxStreamsBidi
  | _ => True

/-- The limits of the connection are no lower than before, and new frames tell no more. -/
structure Grows (c c' : Connection) : Prop where
  role : c'.role = c.role
  baseTp : c'.baseTp = c.baseTp
  maxData : c.localMaxData ≤ c'.localMaxData
  bidi : c.localMaxStreamsBidi ≤ c'.localMaxStreamsBidi
  uni : c.localMaxStreamsUni ≤ c'.localMaxStreamsUni
  closed : ∀ id, c.recvStreamClosed id = true → c'.recvStreamClosed id = true
  limit : ∀ id, c'.recvStreamClosed id = true ∨ c.recvLimit id ≤ c'.recvLimit id
  opened : ∀ id, c.openedSendRanges.contains id = true → c'.openedSendRanges.contains id = true
  frames : ∀ f, c'.Holds f → c.Holds f ∨ c'.Told f

variable {f : Frame}

namespace Grows

variable {c c' c'' : Connection}

lemma refl (c : Connection) : Grows c c :=
  ⟨rfl, rfl, le_rfl, le_rfl, le_rfl, fun _ h => h, fun _ => .inr le_rfl, fun _ h => h,
    fun _ h => .inl h⟩

lemma told (h : Grows c c') (hf : c.Told f) : c'.Told f := by
  cases f with
  | maxData limit => exact le_trans hf h.maxData
  | maxStreamData id limit =>
    rcases hf with hclosed | hlimit
    · exact .inl (h.closed id hclosed)
    · exact (h.limit id).imp_right (le_trans hlimit)
  | maxStreams uni limit =>
    cases uni with
    | false => exact le_trans hf h.bidi
    | true => exact le_trans hf h.uni
  | _ => trivial

lemma trans (h : Grows c c') (h' : Grows c' c'') : Grows c c'' where
  role := h'.role.trans h.role
  baseTp := h'.baseTp.trans h.baseTp
  maxData := h.maxData.trans h'.maxData
  bidi := h.bidi.trans h'.bidi
  uni := h.uni.trans h'.uni
  closed id hid := h'.closed id (h.closed id hid)
  limit id := by
    rcases h.limit id with hclosed | hle
    · exact .inl (h'.closed id hclosed)
    · exact (h'.limit id).imp_right hle.trans
  opened id hid := h'.opened id (h.opened id hid)
  frames f hf := by
    rcases h'.frames f hf with hf | hf
    · exact (h.frames f hf).imp_right h'.told
    · exact .inr hf

lemma mayReceive (h : Grows c c') {id : ℕ} (hid : c.mayReceive id = true) :
    c'.mayReceive id = true := by
  unfold Connection.mayReceive at hid ⊢
  rw [h.role]
  split at hid
  · rename_i hpeer
    rw [if_pos hpeer]
    simp only [decide_eq_true_eq] at hid ⊢
    refine hid.trans_le ?_
    split
    · exact h.uni
    · exact h.bidi
  · rename_i hpeer
    rw [if_neg hpeer]
    rw [Bool.and_eq_true] at hid ⊢
    exact ⟨hid.1, h.opened id hid.2⟩

end Grows

variable {c : Connection}

lemma holds_queue {g : Frame} (h : (c.queue f).Holds g) : c.Holds g ∨ g = f := by
  rcases h with h | h
  · rw [queue, mem_append, mem_singleton] at h
    exact h.imp_left .inl
  · exact .inl (.inr h)

lemma Grows.queue {c' : Connection} (h : Grows c c') (hf : c'.Told f) : Grows c (c'.queue f) :=
  h.trans
    { refl c' with
      frames := fun g hg => by
        rcases holds_queue hg with hg | rfl
        · exact .inl hg
        · exact .inr hf }

/-- The receiving half is as it was, and no new frame tells a limit. -/
structure Quiet (c c' : Connection) : Prop where
  role : c'.role = c.role
  baseTp : c'.baseTp = c.baseTp
  streams : c'.streams = c.streams
  closedRecvRanges : c'.closedRecvRanges = c.closedRecvRanges
  recvTotalHighest : c'.recvTotalHighest = c.recvTotalHighest
  recvBuffered : c'.recvBuffered = c.recvBuffered
  localMaxData : c'.localMaxData = c.localMaxData
  localStreamMax : c'.localStreamMax = c.localStreamMax
  localMaxStreamsBidi : c'.localMaxStreamsBidi = c.localMaxStreamsBidi
  localMaxStreamsUni : c'.localMaxStreamsUni = c.localMaxStreamsUni
  readable : c'.readable = c.readable
  opened : ∀ id, c.openedSendRanges.contains id = true → c'.openedSendRanges.contains id = true
  frames : ∀ f, c'.Holds f → c.Holds f ∨ f.tellsLimit = false

namespace Quiet

variable {c c' c'' : Connection}

lemma refl (c : Connection) : Quiet c c :=
  ⟨rfl, rfl, rfl, rfl, rfl, rfl, rfl, rfl, rfl, rfl, rfl, fun _ h => h, fun _ h => .inl h⟩

lemma trans (h : Quiet c c') (h' : Quiet c' c'') : Quiet c c'' where
  role := h'.role.trans h.role
  baseTp := h'.baseTp.trans h.baseTp
  streams := h'.streams.trans h.streams
  closedRecvRanges := h'.closedRecvRanges.trans h.closedRecvRanges
  recvTotalHighest := h'.recvTotalHighest.trans h.recvTotalHighest
  recvBuffered := h'.recvBuffered.trans h.recvBuffered
  localMaxData := h'.localMaxData.trans h.localMaxData
  localStreamMax := h'.localStreamMax.trans h.localStreamMax
  localMaxStreamsBidi := h'.localMaxStreamsBidi.trans h.localMaxStreamsBidi
  localMaxStreamsUni := h'.localMaxStreamsUni.trans h.localMaxStreamsUni
  readable := h'.readable.trans h.readable
  opened id hid := h'.opened id (h.opened id hid)
  frames f hf := by
    rcases h'.frames f hf with hf | hf
    · exact h.frames f hf
    · exact .inr hf

lemma foldl {α : Type*} {step : Connection → α → Connection} (h : ∀ c a, Quiet c (step c a))
    (items : List α) (c : Connection) : Quiet c (items.foldl step c) := by
  induction items generalizing c with
  | nil => exact refl c
  | cons a rest ih => exact (h c a).trans (ih _)

lemma recvStreamClosed (h : Quiet c c') (id : ℕ) :
    c'.recvStreamClosed id = c.recvStreamClosed id := by
  rw [Connection.recvStreamClosed, h.closedRecvRanges, Connection.recvStreamClosed]

lemma recvLimit (h : Quiet c c') (id : ℕ) : c'.recvLimit id = c.recvLimit id := by
  simp only [Connection.recvLimit, initialRecvLimit, h.localStreamMax, h.baseTp, h.role]

lemma grows (h : Quiet c c') : Grows c c' where
  __ := h
  maxData := h.localMaxData.ge
  bidi := h.localMaxStreamsBidi.ge
  uni := h.localMaxStreamsUni.ge
  closed id hid := by rwa [h.recvStreamClosed]
  limit id := .inr (h.recvLimit id).ge
  frames f hf := by
    refine (h.frames f hf).imp_right fun hlimit => ?_
    cases f with
    | maxData | maxStreamData | maxStreams => cases hlimit
    | _ => trivial

end Quiet

lemma quiet_queue (c : Connection) (h : f.tellsLimit = false) : Quiet c (c.queue f) :=
  { Quiet.refl c with
    frames := fun g hg => (holds_queue hg).imp_right fun heq => by rw [heq, h] }

lemma holds_queueAppFrame {g : Frame} (h : (c.queueAppFrame f).Holds g) : c.Holds g ∨ g = f := by
  unfold queueAppFrame at h
  simp only at h
  split at h
  · simp only [Holds, mem_append, mem_singleton] at h ⊢
    rcases h with h | (h | rfl) | (h | rfl) | h
    · exact .inl (.inl h)
    · exact .inl (.inr (.inl h))
    · exact .inr rfl
    · exact .inl (.inr (.inr (.inl h)))
    · exact .inr rfl
    · exact .inl (.inr (.inr (.inr h)))
  · exact holds_queue h

lemma quiet_queueAppFrame (c : Connection) (h : f.tellsLimit = false) :
    Quiet c (c.queueAppFrame f) := by
  have hframes : ∀ g, (c.queueAppFrame f).Holds g → c.Holds g ∨ g.tellsLimit = false :=
    fun g hg => (holds_queueAppFrame hg).imp_right fun heq => by rw [heq, h]
  unfold queueAppFrame at hframes ⊢
  simp only at hframes ⊢
  split
  · rename_i hearly
    rw [if_pos hearly] at hframes
    exact { Quiet.refl c with frames := hframes }
  · rename_i hlate
    rw [if_neg hlate] at hframes
    exact { Quiet.refl c with frames := hframes }

lemma quiet_cut (c : Connection) (p : PendingStreamSend) (len : ℕ) : Quiet c (c.cut p len).1 := by
  have hmark : Quiet c { c with openedSendRanges := c.openedSendRanges.mark p.id } :=
    { Quiet.refl c with
      opened := fun id hid => by
        rw [StreamRanges.contains_mark_iff]
        exact .inl hid }
  have hframe := hmark.trans (quiet_queueAppFrame _ (f := .stream p.id (p.offset + p.cursor)
    (p.cursor + len == p.data.length && p.fin) ((p.data.drop p.cursor).take len)) rfl)
  unfold cut
  simp only
  split
  · exact { hframe with }
  · exact { hframe with }

lemma quiet_scheduleOnePending (c : Connection) (p : PendingStreamSend) :
    Quiet c (c.scheduleOnePending p).1 := by
  unfold scheduleOnePending
  split
  · exact .refl c
  split
  · exact .refl c
  · split
    · exact .refl c
    · exact quiet_cut c p _

lemma quiet_schedulePass (c : Connection) (queue : List PendingStreamSend) (blocked : List ℕ) :
    Quiet c (c.schedulePass queue blocked).1 := by
  induction queue generalizing c blocked with
  | nil => exact .refl c
  | cons p rest ih =>
    rw [schedulePass]
    split
    · exact ih c blocked
    have hone := quiet_scheduleOnePending c p
    split
    · rename_i heq
      rw [heq] at hone
      exact hone.trans (ih _ _)
    · rename_i heq
      rw [heq] at hone
      exact hone.trans (ih _ _)

lemma quiet_scheduleLoop (fuel : ℕ) (c : Connection) : Quiet c (scheduleLoop fuel c) := by
  induction fuel generalizing c with
  | zero => exact .refl c
  | succ fuel ih =>
    have hpass := quiet_schedulePass c c.pendingStreamSends []
    have hkept : Quiet c { (c.schedulePass c.pendingStreamSends []).1 with
        pendingStreamSends := (c.schedulePass c.pendingStreamSends []).2.1 } := { hpass with }
    rw [scheduleLoop]
    simp only
    split
    · exact hkept.trans (ih _)
    · exact hkept

lemma holds_trackSent {frames : List Frame}
    (h : (c.trackSent frames).Holds f) : c.Holds f ∨ f ∈ frames := by
  simp only [trackSent, Holds, mem_append] at h ⊢
  rcases h with h | h | h | h | ⟨packet, hpacket, h⟩ | h | h
  · exact .inl (.inl h)
  · exact .inl (.inr (.inl h))
  · exact .inl (.inr (.inr (.inl h)))
  · exact .inl (.inr (.inr (.inr (.inl h))))
  · split at hpacket
    · exact .inl (.inr (.inr (.inr (.inr (.inl ⟨packet, hpacket, h⟩)))))
    · rw [mem_append, mem_singleton] at hpacket
      rcases hpacket with hpacket | rfl
      · exact .inl (.inr (.inr (.inr (.inr (.inl ⟨packet, hpacket, h⟩)))))
      · exact .inr (mem_of_mem_filter h)
  · exact .inl (.inr (.inr (.inr (.inr (.inr h)))))
  · exact .inr h

lemma holds_buildZeroRttPacket {count : ℕ}
    (h : (c.buildZeroRttPacket count).Holds f) : c.Holds f := by
  unfold buildZeroRttPacket at h
  split at h
  · exact h
  · rcases holds_trackSent h with h | h
    · exact h.imp_right fun h => h.imp_left mem_of_mem_drop
    · exact .inr (.inl (mem_of_mem_take h))

lemma holds_buildShortPacket {plan : PacketPlan}
    (h : (c.buildShortPacket plan).Holds f) : c.Holds f := by
  rcases holds_trackSent h with (h | h | h | h | h) | h
  · exact .inl (mem_of_mem_drop h)
  · exact .inr (.inl h)
  · exact .inr (.inr (.inl h))
  · exact .inr (.inr (.inr (.inl (mem_of_mem_drop h))))
  · exact .inr (.inr (.inr (.inr h)))
  · rcases mem_append.mp h with h | h
    · exact .inr (.inr (.inr (.inl (mem_of_mem_take h))))
    · exact .inl (mem_of_mem_take h)

lemma quiet_buildZeroRttPacket (c : Connection) (count : ℕ) :
    Quiet c (c.buildZeroRttPacket count) := by
  have hframes : ∀ f, (c.buildZeroRttPacket count).Holds f → c.Holds f ∨ f.tellsLimit = false :=
    fun f hf => .inl (holds_buildZeroRttPacket hf)
  unfold buildZeroRttPacket at hframes ⊢
  split
  · exact .refl c
  · rename_i h
    rw [if_neg h] at hframes
    exact { Quiet.refl c with frames := hframes }

lemma quiet_buildShortPacket (c : Connection) (plan : PacketPlan) :
    Quiet c (c.buildShortPacket plan) :=
  { Quiet.refl c with frames := fun _ hf => .inl (holds_buildShortPacket hf) }

lemma quiet_flush (c : Connection) (plan : FlushPlan) : Quiet c (c.flush plan) := by
  unfold flush
  split
  · exact .refl c
  · exact (quiet_scheduleLoop _ c).trans
      ((Quiet.foldl quiet_buildZeroRttPacket _ _).trans (.foldl quiet_buildShortPacket _ _))

variable {pns : List ℕ}

lemma holds_acked (h : (c.acked pns).Holds f) : c.Holds f := by
  rcases h with h | h | h | h | ⟨packet, hpacket, h⟩ | h
  · exact .inl h
  · exact .inr (.inl h)
  · exact .inr (.inr (.inl h))
  · exact .inr (.inr (.inr (.inl h)))
  · exact .inr (.inr (.inr (.inr (.inl ⟨packet, mem_of_mem_filter hpacket, h⟩))))
  · exact .inr (.inr (.inr (.inr (.inr h))))

lemma quiet_acked (c : Connection) (pns : List ℕ) : Quiet c (c.acked pns) :=
  { Quiet.refl c with frames := fun _ hf => .inl (holds_acked hf) }

lemma holds_of_sent
    (h : f ∈ c.rtx ++ (c.sent.filter (·.pn ∈ pns)).flatMap SentPacket.frames) : c.Holds f := by
  rcases mem_append.mp h with h | h
  · exact .inr (.inr (.inr (.inl h)))
  · obtain ⟨packet, hpacket, hf⟩ := mem_flatMap.mp h
    exact .inr (.inr (.inr (.inr (.inl ⟨packet, mem_of_mem_filter hpacket, hf⟩))))

lemma holds_lost (h : (c.lost pns).Holds f) : c.Holds f := by
  rcases h with h | h | h | h | ⟨packet, hpacket, h⟩ | h
  · exact .inl h
  · exact .inr (.inl h)
  · exact .inr (.inr (.inl h))
  · exact holds_of_sent h
  · exact .inr (.inr (.inr (.inr (.inl ⟨packet, mem_of_mem_filter hpacket, h⟩))))
  · exact .inr (.inr (.inr (.inr (.inr h))))

lemma quiet_lost (c : Connection) (pns : List ℕ) : Quiet c (c.lost pns) :=
  { Quiet.refl c with frames := fun _ hf => .inl (holds_lost hf) }

lemma holds_queueProbe (h : (c.queueProbe pns).Holds f) : c.Holds f ∨ f = .ping := by
  rcases h with h | h | h | h | ⟨packet, hpacket, h⟩ | h
  · exact .inl (.inl h)
  · exact .inl (.inr (.inl h))
  · exact .inl (.inr (.inr (.inl h)))
  · simp only [queueProbe] at h
    split at h
    · exact .inr (mem_singleton.mp h)
    · exact .inl (holds_of_sent h)
  · obtain ⟨old, hold, rfl⟩ := mem_map.mp hpacket
    split at h
    · cases h
    · exact .inl (.inr (.inr (.inr (.inr (.inl ⟨old, hold, h⟩)))))
  · exact .inl (.inr (.inr (.inr (.inr (.inr h)))))

section

variable (c pns)

lemma quiet_queueProbe : Quiet c (c.queueProbe pns) :=
  { Quiet.refl c with
    frames := fun _ hf => (holds_queueProbe hf).imp_right fun heq => by rw [heq]; rfl }

lemma sendStreamOwned_cases (id : ℕ) (data : Bytes) (fin : Bool)
    (plan : FlushPlan) : (∃ e, c.sendStreamOwned id data fin plan = (.error e, c)) ∨
      c.closed = false ∧ c.stoppedSendRanges.contains id = false ∧
      c.closedSendRanges.contains id = false ∧ c.sealedSendRanges.contains id = false ∧
      c.nextOffset id + data.length ≤ u64Max ∧ c.sendStreamProperties id = .ok () ∧
      c.sendStreamOwned id data fin plan = (.ok (), (c.enqueue id data fin).flush plan) := by
  unfold sendStreamOwned
  split
  · exact .inl ⟨_, rfl⟩
  split
  · exact .inl ⟨_, rfl⟩
  split
  · exact .inl ⟨_, rfl⟩
  split
  · exact .inl ⟨_, rfl⟩
  split
  · exact .inl ⟨_, rfl⟩
  split
  · exact .inl ⟨_, rfl⟩
  · rename_i hopen _ hranges _ hroom _ hprops
    simp only [Bool.or_eq_true, not_or, Bool.not_eq_true] at hranges hopen
    exact .inr ⟨hopen, hranges.1.1, hranges.1.2, hranges.2, by omega, hprops, rfl⟩

lemma quiet_sendStreamOwned (id : ℕ) (data : Bytes) (fin : Bool)
    (plan : FlushPlan) : Quiet c (c.sendStreamOwned id data fin plan).2 := by
  rcases sendStreamOwned_cases c id data fin plan with ⟨e, hsame⟩ | ⟨-, -, -, -, -, -, hsent⟩
  · rw [hsame]
    exact .refl c
  · rw [hsent]
    have henqueue : Quiet c (c.enqueue id data fin) := { Quiet.refl c with }
    exact henqueue.trans (quiet_flush _ plan)

lemma onStopSending_cases (id errorCode : ℕ) :
    (c.onStopSending id errorCode).2 = c ∨
      c.stoppedSendRanges.contains id = false ∧ c.closedSendRanges.contains id = false ∧
      (isUni id = true → c.role.opens id = true) ∧ c.knowsSend id = true ∧
      (c.onStopSending id errorCode).2 = c.stopStream id errorCode := by
  unfold onStopSending
  split
  · exact .inl rfl
  split
  · exact .inl rfl
  split
  · exact .inl rfl
  · rename_i hkind hranges hknown
    simp only [Bool.or_eq_true, not_or, Bool.not_eq_true] at hranges
    exact .inr ⟨hranges.1, hranges.2, by simpa using hkind, by simpa using hknown, rfl⟩

end

/-- The frames after a stream was stopped. -/
theorem holds_stopStream {id errorCode : ℕ} (h : (c.stopStream id errorCode).Holds f) :
    c.Holds f ∨ f = .resetStream id errorCode (c.nextOffset id) := by
  rcases h with h | h | h | h | ⟨packet, hpacket, h⟩ | h
  · rw [stopStream, mem_append, mem_singleton] at h
    exact h.imp_left fun h => .inl (mem_of_mem_filter h)
  · exact .inl (.inr (.inl (mem_of_mem_filter h)))
  · exact .inl (.inr (.inr (.inl (mem_of_mem_filter h))))
  · exact .inl (.inr (.inr (.inr (.inl (mem_of_mem_filter h)))))
  · obtain ⟨old, hold, rfl⟩ := mem_map.mp hpacket
    exact .inl (.inr (.inr (.inr (.inr (.inl ⟨old, hold, mem_of_mem_filter h⟩)))))
  · exact .inl (.inr (.inr (.inr (.inr (.inr h)))))

lemma quiet_onStopSending (c : Connection) (id errorCode : ℕ) :
    Quiet c (c.onStopSending id errorCode).2 := by
  rcases onStopSending_cases c id errorCode with hsame | ⟨-, -, -, -, hstop⟩
  · rw [hsame]
    exact .refl c
  · rw [hstop]
    refine { Quiet.refl c with frames := fun f hf => ?_ }
    exact (holds_stopStream hf).imp_right fun heq => by rw [heq]; rfl

lemma quiet_onMaxStreamData (c : Connection) (id limit : ℕ) :
    Quiet c (c.onMaxStreamData id limit).2 := by
  unfold onMaxStreamData
  split
  · exact .refl c
  split
  · exact .refl c
  split
  · exact .refl c
  · exact { Quiet.refl c with }

end Connection

end OnetDns.Quic
