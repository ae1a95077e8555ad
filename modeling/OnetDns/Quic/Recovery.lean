import OnetDns.Quic.Nonce

/-!
# Nothing is lost in recovery

Frames move between queues, packets and lists of what is to be sent again, on
acknowledgement, loss, probes, rejection of early data and Retry. Whatever happens to an
open connection, its bytes in flight are those of the packets it tracks, and every frame
and every byte of handshake data is still waiting, in flight, or acknowledged. One step
forgets data: a Retry that comes after the client has given more than its first flight.
-/
namespace OnetDns.Quic.Transport
open List Function Nat Transport.SentPacket

/-- Every frame that is sent again when it is lost is there at least as often. -/
def Keeps (l l' : List Queued) : Prop := ∀ f, f.isRetransmittable = true → l.count f ≤ l'.count f

lemma Keeps.refl (l : List Queued) : Keeps l l := fun _ _ => le_rfl

variable {l : List Queued} {l' : List Queued}

lemma Keeps.mem (h : Keeps l l') {f : Queued}
    (hf : f.isRetransmittable = true) (hmem : f ∈ l) : f ∈ l' := by
  have hcount := h f hf
  have hpos := count_pos_iff.mpr hmem
  exact count_pos_iff.mp (by omega)

def tracked (s : SpaceState) : List Queued := s.rtx ++ s.sent.flatMap SentPacket.frames

/-- A byte of handshake data is in one of the frames. -/
def Covers (frames : List Queued) (i : ℕ) (b : UInt8) : Prop :=
  ∃ offset data, .crypto offset data ∈ frames ∧ offset ≤ i ∧ data[i - offset]? = some b

lemma Covers.keeps {i : ℕ} {b : UInt8} (h : Covers l i b)
    (hkeeps : Keeps l l') : Covers l' i b := by
  obtain ⟨offset, data, hmem, hi⟩ := h
  exact ⟨offset, data, hkeeps.mem rfl hmem, hi⟩

/-- The handshake data of a space: the first part is in frames, the rest waits. -/
structure CryptoKept (crypto : Bytes) (s : SpaceState) (frames : List Queued) : Prop where
  le : s.sendCryptoOffset ≤ crypto.length
  waiting : s.outCrypto = crypto.drop s.sendCryptoOffset
  sent : ∀ i < s.sendCryptoOffset, ∀ b, crypto[i]? = some b → Covers frames i b

variable {s : SpaceState} {crypto : Bytes} {s' : SpaceState}

lemma CryptoKept.keeps
    (h : CryptoKept crypto s l) (hoffset : s'.sendCryptoOffset = s.sendCryptoOffset)
    (hout : s'.outCrypto = s.outCrypto) (hkeeps : Keeps l l') : CryptoKept crypto s' l' where
  le := hoffset ▸ h.le
  waiting := by rw [hout, hoffset, h.waiting]
  sent i hi b hb := (h.sent i (hoffset ▸ hi) b hb).keeps hkeeps

lemma CryptoKept.append (h : CryptoKept crypto s l) (more : Bytes) :
    CryptoKept (crypto ++ more) { s with outCrypto := s.outCrypto ++ more } l where
  le := by
    rw [length_append]
    exact h.le.trans (le_add_right _ _)
  waiting := by
    rw [drop_append_of_le_length h.le, ← h.waiting]
  sent i hi b hb := by
    rw [getElem?_append_left (hi.trans_le h.le)] at hb
    exact h.sent i hi b hb

/-- A filter that lets handshake data through. -/
theorem CryptoKept.filter {acked : List Queued} {keep : Queued → Bool}
    (h : CryptoKept crypto s (l ++ acked)) (hoffset : s'.sendCryptoOffset = s.sendCryptoOffset)
    (hout : s'.outCrypto = s.outCrypto) (hkeep : ∀ offset data, keep (.crypto offset data) = true) :
    CryptoKept crypto s' (l.filter keep ++ acked) where
  le := hoffset ▸ h.le
  waiting := by rw [hout, hoffset, h.waiting]
  sent i hi b hb := by
    obtain ⟨offset, data, hmem, hcovers⟩ := h.sent i (hoffset ▸ hi) b hb
    refine ⟨offset, data, ?_, hcovers⟩
    rcases mem_append.mp hmem with hl | hacked
    · exact mem_append.mpr (.inl (mem_filter.mpr ⟨hl, hkeep offset data⟩))
    · exact mem_append.mpr (.inr hacked)

/-- A packet with frames asks for an acknowledgement, and is not empty. -/
structure Packing.Sound (p : Packing) : Prop where
  asks : p.frames ≠ [] → p.ackEliciting = true
  payload : p.frames ≠ [] → p.payload ≠ []

lemma Packing.sound_empty (payload : Bytes) : Packing.Sound { payload } :=
  ⟨fun h => absurd rfl h, fun h => absurd rfl h⟩

variable {packing : Packing}

lemma appendFrames_spec (queue : List Queued) (h : packing.Sound) :
    (appendFrames queue packing).2.Sound ∧
      Keeps packing.frames (appendFrames queue packing).2.frames ∧ ∀ f, f.isRetransmittable = true →
        (appendFrames queue packing).1.count f + (appendFrames queue packing).2.frames.count f =
          queue.count f + packing.frames.count f := by
  induction queue generalizing packing with
  | nil => exact ⟨h, .refl _, fun _ _ => rfl⟩
  | cons g rest ih =>
    rw [appendFrames]
    split
    · exact ⟨h, .refl _, fun _ _ => rfl⟩
    have hnext : Packing.Sound
        { payload := packing.payload ++ g.encode
          frames := if g.isRetransmittable then packing.frames ++ [g] else packing.frames
          ackEliciting := true } :=
      ⟨fun _ => rfl, fun _ => by simp [Queued.encode_ne_nil]⟩
    obtain ⟨hsound, hkeeps, hcount⟩ := ih hnext
    refine ⟨hsound, fun f hf => le_trans ?_ (hkeeps f hf), fun f hf => ?_⟩
    · split
      · rw [count_append]
        exact le_add_right _ _
      · exact le_rfl
    rw [hcount f hf]
    split
    · simp only [count_append, count_cons, count_nil]
      omega
    rename_i hg
    have hne : g ≠ f := by
      rintro rfl
      exact hg hf
    rw [count_cons_of_ne hne]

lemma appendQueuedFrames_spec (queue : List Queued) (h : packing.Sound) :
    (appendQueuedFrames queue packing).2.Sound ∧
      Keeps packing.frames (appendQueuedFrames queue packing).2.frames ∧
      ∀ f, f.isRetransmittable = true →
        (appendQueuedFrames queue packing).1.count f +
            (appendQueuedFrames queue packing).2.frames.count f =
          queue.count f + packing.frames.count f := by
  unfold appendQueuedFrames
  split
  · exact ⟨h, .refl _, fun _ _ => rfl⟩
  · exact appendFrames_spec queue h

lemma fitCrypto_le (offset : ℕ) (outCrypto : Bytes) (used n : ℕ) :
    fitCrypto offset outCrypto used n ≤ n := by
  induction n with
  | zero => exact le_rfl
  | succ n ih =>
    rw [fitCrypto]
    split
    · exact le_rfl
    · exact ih.trans (le_succ n)

/-- The next chunk of handshake data goes into a frame. -/
theorem CryptoKept.chunk (h : CryptoKept crypto s l) {n : ℕ} (hn : n ≤ s.outCrypto.length) :
    CryptoKept crypto
      { s with
        outCrypto := s.outCrypto.drop n
        sendCryptoOffset := s.sendCryptoOffset + n }
      (l ++ [.crypto s.sendCryptoOffset (s.outCrypto.take n)]) := by
  have hle := h.le
  rw [h.waiting, length_drop] at hn
  refine ⟨by simp only; omega, by simp only [h.waiting, drop_drop], fun i hi b hb => ?_⟩
  by_cases hold : i < s.sendCryptoOffset
  · refine (h.sent i hold b hb).keeps fun f _ => ?_
    rw [count_append]
    exact Nat.le_add_right _ _
  have hi : i < s.sendCryptoOffset + n := hi
  refine ⟨s.sendCryptoOffset, _, mem_append_right _ (mem_singleton.mpr rfl), by omega, ?_⟩
  rw [getElem?_take_of_lt (by omega), h.waiting, getElem?_drop, Nat.add_sub_cancel' (by omega), hb]

/-- A chunk of handshake data leaves the space for the packet. -/
theorem appendCryptoChunk_spec (s : SpaceState) (h : packing.Sound) :
    (appendCryptoChunk s packing).2.Sound ∧ (appendCryptoChunk s packing).1.rtx = s.rtx ∧
      (appendCryptoChunk s packing).1.sent = s.sent ∧
      Keeps packing.frames (appendCryptoChunk s packing).2.frames ∧
      ∀ crypto before, CryptoKept crypto s (before ++ packing.frames) →
        CryptoKept crypto (appendCryptoChunk s packing).1
          (before ++ (appendCryptoChunk s packing).2.frames) := by
  have hsame : packing.Sound ∧ s.rtx = s.rtx ∧ s.sent = s.sent ∧
      Keeps packing.frames packing.frames ∧ ∀ crypto before,
        CryptoKept crypto s (before ++ packing.frames) →
          CryptoKept crypto s (before ++ packing.frames) :=
    ⟨h, rfl, rfl, .refl _, fun _ _ hkept => hkept⟩
  unfold appendCryptoChunk
  split
  · exact hsame
  simp only
  split
  · exact hsame
  set n := fitCrypto s.sendCryptoOffset s.outCrypto packing.payload.length
    (min (min s.outCrypto.length cryptoChunk) (maxPacketPayload - packing.payload.length))
  refine ⟨⟨fun _ => rfl, fun _ => ?_⟩, rfl, rfl, fun f _ => ?_, fun crypto before hkept => ?_⟩
  · simp [Queued.encode_ne_nil]
  · rw [count_append]
    exact le_add_right _ _
  · have hn : n ≤ s.outCrypto.length :=
      (fitCrypto_le _ _ _ _).trans ((min_le_left _ _).trans (min_le_left _ _))
    rw [← append_assoc]
    exact hkept.chunk hn

namespace Connection

lemma takeAck_spec (s : SpaceState) : (takeAck s).1.rtx = s.rtx ∧ (takeAck s).1.sent = s.sent ∧
      (takeAck s).1.sendCryptoOffset = s.sendCryptoOffset ∧
      (takeAck s).1.outCrypto = s.outCrypto := by
  unfold takeAck
  split <;> exact ⟨rfl, rfl, rfl, rfl⟩

/-- A packet is filled from a space: what leaves the space is in the packet. -/
theorem fill_spec (c : Connection) (x : Space) (probe : ℕ) (along : Bytes) :
    (c.fill x probe along).2.Sound ∧ (c.fill x probe along).1.sent = (c.spaces x).sent ∧
      Keeps (c.spaces x).rtx ((c.fill x probe along).1.rtx ++ (c.fill x probe along).2.frames) ∧
      ∀ crypto before, CryptoKept crypto (c.spaces x) ((c.spaces x).rtx ++ before) →
        CryptoKept crypto (c.fill x probe along).1
          ((c.fill x probe along).1.rtx ++ before ++ (c.fill x probe along).2.frames) := by
  obtain ⟨hrtx, hsent, hoffset, hout⟩ := takeAck_spec (c.spaces x)
  unfold fill
  simp only
  split
  · obtain ⟨hsound, -, hcount⟩ := appendQueuedFrames_spec (takeAck (c.spaces x)).1.rtx
      (Packing.sound_empty ((takeAck (c.spaces x)).2 ++ along))
    set rest := (appendQueuedFrames (takeAck (c.spaces x)).1.rtx
      { payload := (takeAck (c.spaces x)).2 ++ along }).1
    set packing := (appendQueuedFrames (takeAck (c.spaces x)).1.rtx
      { payload := (takeAck (c.spaces x)).2 ++ along }).2
    set filled : SpaceState := { (takeAck (c.spaces x)).1 with rtx := rest } with hfilled
    obtain ⟨hsound', hrtx', hsent', hkeeps, hkept⟩ := appendCryptoChunk_spec filled hsound
    have hrtx' : (appendCryptoChunk filled packing).1.rtx = rest := hrtx'
    have hmoved : ∀ f, f.isRetransmittable = true →
        rest.count f + packing.frames.count f = (c.spaces x).rtx.count f := by
      intro f hf
      have := hcount f hf
      rw [hrtx] at this
      exact this
    refine ⟨hsound', hsent'.trans hsent, fun f hf => ?_, fun crypto before hbefore => ?_⟩
    · have := hmoved f hf
      have := hkeeps f hf
      rw [hrtx', count_append]
      omega
    rw [hrtx']
    refine hkept crypto _ (hbefore.keeps hoffset hout fun f hf => ?_)
    have := hmoved f hf
    simp only [count_append]
    omega
  · refine ⟨Packing.sound_empty _, hsent, ?_, fun crypto before hbefore => ?_⟩
    · rw [hrtx, append_nil]
      exact .refl _
    · rw [hrtx, append_nil]
      exact hbefore.keeps hoffset hout (.refl _)

/-- The bytes of all packets that are tracked. -/
def flight (c : Connection) : ℕ :=
  inFlight (c.spaces .initial) + inFlight (c.spaces .handshake) + inFlight (c.spaces .app)

/-- Frames that are on their way from one list of a space to another. -/
def lentAt (x : Space) (lent : List Queued) (y : Space) : List Queued := if y = x then lent else []

/-- The frames that a space knows about. -/
def known (c : Connection) (x : Space) (lent : List Queued) (y : Space) : List Queued :=
  tracked (c.spaces y) ++ c.trace.acked y ++ lentAt x lent y

/-- Nothing is lost. `owed` bytes are still to be taken off those in flight, and the frames in `lent`
are on their way within the space `x`. -/
structure Books (r : Role) (owed : ℕ) (x : Space) (lent : List Queued) (c : Connection) : Prop where
  role : c.role = r
  cids : c.closed = false →
    c.localCid.length ≤ 20 ∧ c.remoteCid.length ≤ 20 ∧ c.retryToken.length ≤ 256
  flight : c.bytesInFlight = c.flight + owed
  sizes : ∀ y, ∀ sp ∈ (c.spaces y).sent, 0 < sp.size
  crypto : c.closed = false → ∀ y, (c.spaces y).discarded = false →
    CryptoKept (c.trace.crypto y) (c.spaces y) (c.known x lent y)
  queued : c.closed = false → ∀ f : Frame, f.isRetransmittable = true →
    (∀ id ∈ c.trace.stopped, f.isStreamOf id = false) →
    c.trace.queued.count f ≤
      (c.outFramesApp ++ c.outFramesEarly ++ c.known x lent .app).count (.app f)
  early : r = .client → c.handshakeComplete = false →
    Keeps (c.outFramesEarly ++ tracked (c.spaces .app) ++ lentAt x lent .app) c.earlyBackup
  plain : ∀ f ∈ c.earlyBackup, ∃ g, f = .app g
  hello : c.closed = false → c.initialCrypto <+: c.trace.crypto .initial

/-- An open client has no keys for application data before the handshake is complete. -/
structure Lending (r : Role) (owed : ℕ) (x : Space) (lent : List Queued) (c : Connection) :
    Prop extends Books r owed x lent c where
  keys : c.closed = false → r = .client → c.handshakeComplete = false →
    (c.spaces .app).sendKeys = none

/-- Nothing is owed or lent. -/
abbrev Balanced (r : Role) : Connection → Prop := Lending r 0 .app []

variable {r : Role} {owed owed' : ℕ} {x : Space} {lent lent' : List Queued} {c : Connection}

lemma lentAt_self (x : Space) (lent : List Queued) : lentAt x lent x = lent := if_pos rfl

lemma lentAt_nil (x y : Space) : lentAt x [] y = [] := ite_self _

lemma known_nil (c : Connection) (x y z : Space) : c.known x [] z = c.known y [] z := by
  rw [known, known, lentAt_nil, lentAt_nil]

lemma Books.anywhere (h : Books r owed x [] c) (y : Space) : Books r owed y [] c where
  __ := h
  crypto hopen z hz := known_nil c x y z ▸ h.crypto hopen z hz
  queued hopen f hf hstop := known_nil c x y .app ▸ h.queued hopen f hf hstop
  early hr hc := by
    have := h.early hr hc
    rwa [lentAt_nil] at this ⊢

lemma Lending.anywhere (h : Lending r owed x [] c) (y : Space) : Lending r owed y [] c :=
  { h.toBooks.anywhere y with keys := h.keys }

lemma flight_setSpace (c : Connection) (x : Space) (s : SpaceState) :
    (c.setSpace x s).flight + inFlight (c.spaces x) = c.flight + inFlight s := by
  cases x <;> simp [flight, setSpace] <;> omega

/-- What a change of one space has to keep. -/
structure Moves (r : Role) (complete : Bool) (x : Space) (s s' : SpaceState)
    (lent lent' : List Queued) : Prop where
  sizes : ∀ sp ∈ s'.sent, 0 < sp.size
  discarded : s'.discarded = false → s.discarded = false
  crypto : s'.discarded = false → ∀ crypto acked, CryptoKept crypto s (tracked s ++ acked ++ lent) →
    CryptoKept crypto s' (tracked s' ++ acked ++ lent')
  keeps : x = .app → Keeps (tracked s ++ lent) (tracked s' ++ lent')
  early : x = .app → r = .client → complete = false →
    Keeps (tracked s' ++ lent') (tracked s ++ lent)

lemma Books.setSpace (h : Books r owed x lent c)
    (hmoves : Moves r c.handshakeComplete x (c.spaces x) s lent lent')
    (hflight : inFlight s + owed' = inFlight (c.spaces x) + owed) :
    Books r owed' x lent' (c.setSpace x s) where
  __ := h
  flight := by
    have hsum := flight_setSpace c x s
    have hbytes := h.flight
    simp only [Connection.setSpace] at hsum ⊢
    omega
  sizes y := by
    rcases eq_or_ne y x with rfl | hne
    · rw [setSpace_self]
      exact hmoves.sizes
    · rw [setSpace_of_ne c s hne]
      exact h.sizes y
  crypto hopen y hy := by
    rcases eq_or_ne y x with rfl | hne
    · rw [setSpace_self] at hy
      have hold := h.crypto hopen y (hmoves.discarded hy)
      simp only [known, lentAt_self, setSpace_self] at hold ⊢
      exact hmoves.crypto hy _ _ hold
    · rw [setSpace_of_ne c s hne] at hy
      have hold := h.crypto hopen y hy
      simp only [known, lentAt, if_neg hne, setSpace_of_ne c s hne] at hold ⊢
      exact hold
  queued hopen f hf hstop := by
    have hold := h.queued hopen f hf hstop
    refine hold.trans ?_
    by_cases hx : x = .app
    · subst hx
      have hkeeps := hmoves.keeps rfl (.app f) hf
      simp only [known, lentAt_self, setSpace_self, count_append] at hkeeps ⊢
      simp only [setSpace]
      omega
    · have hne : .app ≠ x := fun heq => hx heq.symm
      simp only [known, lentAt, if_neg hne, setSpace_of_ne c s hne]
      exact le_rfl
  early hr hc := by
    have hold := h.early hr hc
    by_cases hx : x = .app
    · subst hx
      intro f hf
      have hkeeps := hmoves.early rfl hr hc f hf
      have hbound := hold f hf
      simp only [lentAt_self, setSpace_self, count_append] at hkeeps hbound ⊢
      simp only [setSpace]
      omega
    · have hne : .app ≠ x := fun heq => hx heq.symm
      simp only [lentAt, if_neg hne, setSpace_of_ne c s hne] at hold ⊢
      exact hold

lemma Lending.setSpace (h : Lending r owed x lent c)
    (hmoves : Moves r c.handshakeComplete x (c.spaces x) s lent lent')
    (hflight : inFlight s + owed' = inFlight (c.spaces x) + owed)
    (hkeys : s.sendKeys = (c.spaces x).sendKeys) : Lending r owed' x lent' (c.setSpace x s) := by
  refine { h.toBooks.setSpace hmoves hflight with keys := fun hopen hr hc => ?_ }
  rcases eq_or_ne .app x with rfl | hne
  · rw [setSpace_self, hkeys]
    exact h.keys hopen hr hc
  · rw [setSpace_of_ne c s hne]
    exact h.keys hopen hr hc

/-- The handshake data stays where it is. -/
structure SameCrypto (s s' : SpaceState) : Prop where
  discarded : s'.discarded = s.discarded
  offset : s'.sendCryptoOffset = s.sendCryptoOffset
  out : s'.outCrypto = s.outCrypto

lemma moves_of_same {complete : Bool} (hsizes : ∀ sp ∈ s'.sent, 0 < sp.size)
    (hcrypto : SameCrypto s s')
    (hsame : ∀ f, f.isRetransmittable = true → (tracked s ++ lent).count f = (tracked s' ++
      lent').count f) :
    Moves r complete x s s' lent lent' where
  sizes := hsizes
  discarded h := hcrypto.discarded ▸ h
  crypto _ crypto acked h := by
    refine h.keeps hcrypto.offset hcrypto.out fun f hf => ?_
    have := hsame f hf
    simp only [count_append] at this ⊢
    omega
  keeps _ f hf := (hsame f hf).le
  early _ _ _ f hf := (hsame f hf).ge

variable {pkt : Packet}

lemma len_pos (hdcid : pkt.dcid.length ≤ 20) (hscid : pkt.scid.length ≤ 20)
    (htoken : pkt.token.length ≤ 256) : 0 < pkt.len := by
  unfold Packet.len
  split
  · rw [if_neg (by omega)]
    omega
  · rw [if_neg (by omega)]
    simp only
    omega

lemma padded_len_pos (hdcid : pkt.dcid.length ≤ 20)
    (hscid : pkt.scid.length ≤ 20) (htoken : pkt.token.length ≤ 256) (padTo : ℕ) :
    0 < (pkt.padded padTo).len := by
  unfold Packet.padded
  split
  · exact len_pos hdcid hscid htoken
  · exact len_pos hdcid hscid htoken

lemma inFlight_append (s : SpaceState) (sp : SentPacket) (ms : ℕ) :
    inFlight { s with lastAckElicitingMs := ms, sent := s.sent ++ [sp] } = inFlight s + sp.size := by
  simp [inFlight]

/-- The frames of the packet are tracked from now on. -/
theorem Lending.trackSent (h : Lending r 0 x lent c) {ackEliciting : Bool}
    (hasks : lent ≠ [] → ackEliciting = true) {size : ℕ} (hsize : 0 < size) (pn : ℕ) :
    Lending r 0 x [] (c.trackSent x pn ackEliciting size lent) := by
  unfold Connection.trackSent
  split
  · rename_i hquiet
    have hnil : lent = [] := by
      by_contra hne
      rw [hasks hne] at hquiet
      cases hquiet
    rw [hnil] at h
    exact h
  have hcharged : Lending r size x lent { c with bytesInFlight := c.bytesInFlight + size } :=
    { h with flight := congrArg (· + size) h.flight }
  have htracked : Lending r 0 x []
      (.setSpace { c with bytesInFlight := c.bytesInFlight + size } x { c.spaces x with
        lastAckElicitingMs := c.nowMs
        sent := (c.spaces x).sent ++ [⟨pn, c.nowMs, ackEliciting, size, lent⟩] }) := by
    refine hcharged.setSpace (moves_of_same (fun sp hsp => ?_) ⟨rfl, rfl, rfl⟩ fun f hf => ?_)
      (inFlight_append (c.spaces x) _ c.nowMs) rfl
    · rcases mem_append.mp hsp with hsp | hsp
      · exact h.sizes x sp hsp
      · rw [mem_singleton.mp hsp]
        exact hsize
    · simp only [tracked, count_append, flatMap_append, flatMap_singleton, count_nil]
      omega
  exact { htracked with }

lemma setSpace_setSpace (c : Connection) (x : Space) (s s' : SpaceState) :
    (c.setSpace x s).setSpace x s' = c.setSpace x s' := by
  simp [setSpace]

lemma closed_trackSent (c : Connection) (x : Space) (pn : ℕ) (ackEliciting : Bool) (size : ℕ)
    (frames : List Queued) : (c.trackSent x pn ackEliciting size frames).closed = c.closed := by
  unfold trackSent
  split <;> rfl

/-- A packet that was filled leaves. -/
theorem Lending.emit (h : Lending r 0 x packing.frames (c.setSpace x s)) (hsound : packing.Sound)
    (hlen : 0 < pkt.len) (probe : ℕ) : Lending r 0 x [] (c.emit x s packing pkt probe).1 := by
  have hnumbered : Lending r 0 x packing.frames
      ((c.setSpace x s).setSpace x { s with nextPn := s.nextPn + 1 }) := by
    refine h.setSpace (moves_of_same ?_ (by rw [setSpace_self]; exact ⟨rfl, rfl, rfl⟩) ?_) ?_ ?_
    · intro sp hsp
      refine h.sizes x sp ?_
      rwa [setSpace_self]
    all_goals rw [setSpace_self]
    · intro f _
      rfl
    · rfl
  rw [setSpace_setSpace] at hnumbered
  exact hnumbered.trackSent hsound.asks hlen pkt.pn

/-- A packet is filled from a space that has keys. -/
theorem Lending.fill (h : Lending r 0 x [] c) (hopen : c.closed = false) {key : SealKey}
    (hkey : (c.spaces x).sendKeys = some key) (probe : ℕ) (along : Bytes) :
    Lending r 0 x (c.fill x probe along).2.frames (c.setSpace x (c.fill x probe along).1) := by
  obtain ⟨-, hsent, hkeeps, hkept⟩ := fill_spec c x probe along
  obtain ⟨hsame, -⟩ := fill_keys c x probe along
  refine h.setSpace ⟨?_, ?_, ?_, ?_, ?_⟩ ?_ (congrArg SpaceKeys.send hsame)
  · rw [hsent]
    exact h.sizes x
  · intro hdiscarded
    rw [← hdiscarded]
    exact (congrArg SpaceKeys.discarded hsame).symm
  · intro _ crypto acked hold
    have hnew := hkept crypto ((c.spaces x).sent.flatMap frames ++ acked)
      (by simpa [tracked] using hold)
    simpa [tracked, hsent] using hnew
  · intro _ f hf
    have := hkeeps f hf
    simp only [tracked, hsent, count_append, count_nil] at this ⊢
    omega
  · rintro rfl hr hc
    rw [h.keys hopen hr hc] at hkey
    cases hkey
  · simp only [inFlight, hsent]

lemma Lending.buildLongPacket (h : Lending r 0 x [] c) (hopen : c.closed = false) (padTo : ℕ)
    (probe : ℕ) : Lending r 0 x [] (buildLongPacket x padTo (c, probe)).2.1 ∧
      (buildLongPacket x padTo (c, probe)).2.1.closed = false := by
  obtain ⟨hlocal, hremote, htoken⟩ := h.cids hopen
  unfold Connection.buildLongPacket
  simp only
  split
  · exact ⟨h, hopen⟩
  rename_i key hkey
  have hfilled := h.fill hopen hkey probe []
  have hsound := (fill_spec c x probe []).1
  split
  · rename_i hempty
    have hnil : (c.fill x probe []).2.frames = [] := by
      by_contra hne
      exact hsound.payload hne hempty
    rw [hnil] at hfilled
    exact ⟨hfilled, hopen⟩
  · refine ⟨hfilled.emit hsound (padded_len_pos hremote hlocal ?_ padTo) probe,
      (closed_trackSent _ _ _ _ _ _).trans hopen⟩
    split
    · exact htoken
    · exact zero_le _

/-- Frames of the queue for application data go into a packet. -/
theorem Lending.takeApp (h : Lending r owed .app lent c) {rest : List Queued}
    (hkeeps : Keeps lent lent')
    (hmoved : ∀ f, f.isRetransmittable = true → rest.count f + lent'.count f = c.outFramesApp.count
      f + lent.count f) (hkeyed : r = .client → c.handshakeComplete = false → False) :
    Lending r owed .app lent' { c with outFramesApp := rest, closeFrame := none } where
  __ := h
  crypto hopen y hy := by
    refine (h.crypto hopen y hy).keeps rfl rfl fun f hf => ?_
    have := hkeeps f hf
    simp only [known, count_append, lentAt]
    split <;> omega
  queued hopen f hf hstop := by
    have hold := h.queued hopen f hf hstop
    have := hmoved (.app f) hf
    simp only [known, lentAt_self, count_append] at hold ⊢
    omega
  early hr hc := (hkeyed hr hc).elim

/-- Frames of the queue for early data go into a packet. -/
theorem Lending.takeEarly (h : Lending r owed .app [] c) {rest : List Queued}
    (hmoved : ∀ f, f.isRetransmittable = true → rest.count f + lent.count f = c.outFramesEarly.count
      f) :
    Lending r owed .app lent { c with outFramesEarly := rest, earlySent := true } where
  __ := h
  crypto hopen y hy := by
    refine (h.crypto hopen y hy).keeps rfl rfl fun f hf => ?_
    simp only [known, lentAt_nil, count_append]
    exact le_add_right _ _
  queued hopen f hf hstop := by
    have hold := h.queued hopen f hf hstop
    have := hmoved (.app f) hf
    simp only [known, lentAt_self, count_append, count_nil] at hold ⊢
    omega
  early hr hc f hf := by
    have hold := h.early hr hc f hf
    have := hmoved f hf
    simp only [lentAt_self, count_append] at hold ⊢
    omega

lemma Lending.buildZeroRttPacket (h : Balanced r c) (hopen : c.closed = false)
    (probe : ℕ) : Balanced r (buildZeroRttPacket (c, probe)).2.1 ∧
      (buildZeroRttPacket (c, probe)).2.1.closed = false := by
  obtain ⟨hlocal, hremote, -⟩ := h.cids hopen
  unfold Connection.buildZeroRttPacket
  simp only
  split
  · exact ⟨h, hopen⟩
  split
  · exact ⟨h, hopen⟩
  obtain ⟨hsound, -, hcount⟩ := appendQueuedFrames_spec c.outFramesEarly (Packing.sound_empty [])
  have hmoved : ∀ f, f.isRetransmittable = true →
      (appendQueuedFrames c.outFramesEarly {}).1.count f +
        (appendQueuedFrames c.outFramesEarly {}).2.frames.count f =
          c.outFramesEarly.count f := hcount
  split
  · rename_i hempty
    have hnil : (appendQueuedFrames c.outFramesEarly {}).2.frames = [] := by
      by_contra hne
      exact hsound.payload hne hempty
    rw [hnil] at hmoved
    have htaken := h.takeEarly hmoved
    exact ⟨{ htaken with }, hopen⟩
  have htaken := h.takeEarly hmoved
  have hself : ∀ d : Connection, d.setSpace .app (d.spaces .app) = d := by
    simp [Connection.setSpace]
  refine ⟨emit ?_ hsound (len_pos hremote hlocal (zero_le _)) probe,
    (closed_trackSent _ _ _ _ _ _).trans hopen⟩
  rw [hself]
  exact htaken

lemma Lending.buildShortPacket (h : Balanced r c) (hopen : c.closed = false) (probe : ℕ) :
    Balanced r (buildShortPacket (c, probe)).2.1 ∧
      (buildShortPacket (c, probe)).2.1.closed = false := by
  obtain ⟨-, hremote, -⟩ := h.cids hopen
  unfold Connection.buildShortPacket
  simp only
  split
  · exact ⟨h, hopen⟩
  rename_i key hkey
  have hkeyed : r = .client → c.handshakeComplete = false → False := by
    intro hr hc
    rw [h.keys hopen hr hc] at hkey
    cases hkey
  have hfilled := h.fill hopen hkey probe (c.closeFrame.getD [])
  have hsound := (fill_spec c .app probe (c.closeFrame.getD [])).1
  set packing := (c.fill .app probe (c.closeFrame.getD [])).2
  obtain ⟨rest, packing', hqueue, hsound', hkeeps, hcount⟩ : ∃ rest packing',
      (if c.canSendNew || 0 < probe then appendQueuedFrames c.outFramesApp packing
        else (c.outFramesApp, packing)) = (rest, packing') ∧ packing'.Sound ∧
      Keeps packing.frames packing'.frames ∧ ∀ f, f.isRetransmittable = true →
        rest.count f + packing'.frames.count f =
          c.outFramesApp.count f + packing.frames.count f := by
    split
    · obtain ⟨hsound', hkeeps, hcount⟩ := appendQueuedFrames_spec c.outFramesApp hsound
      exact ⟨_, _, rfl, hsound', hkeeps, hcount⟩
    · exact ⟨_, _, rfl, hsound, .refl _, fun _ _ => rfl⟩
  rw [hqueue]
  have htaken := hfilled.takeApp hkeeps hcount hkeyed
  split
  · rename_i hempty
    have hnil : packing'.frames = [] := by
      by_contra hne
      exact hsound'.payload hne hempty
    rw [hnil] at htaken
    exact ⟨htaken, hopen⟩
  · exact ⟨emit htaken hsound' (len_pos hremote (zero_le _) (zero_le _)) probe,
      (closed_trackSent _ _ _ _ _ _).trans hopen⟩

lemma drain_induct {P : Sending → Prop} {build : Sending → Option Packet × Sending}
    (h : ∀ sending, P sending → P (build sending).2) (fuel : ℕ) {sending : Sending}
    (hstart : P sending) : P (drain build fuel sending).2 := by
  induction fuel generalizing sending with
  | zero => exact hstart
  | succ fuel ih =>
    have hnext := h sending hstart
    rw [drain]
    split
    · rename_i heq
      rw [heq] at hnext
      exact hnext
    · rename_i heq
      rw [heq] at hnext
      exact ih hnext

lemma Lending.settle (h : Lending r owed x lent c) :
    Lending r 0 x lent { c with bytesInFlight := c.bytesInFlight - owed } :=
  { h with
    flight := by
      have := h.flight
      simp only [flight] at this ⊢
      omega }

lemma Lending.discardSpace (h : Lending r 0 x [] c) (hx : x ≠ .app) :
    Lending r 0 x [] (c.discardSpace x) := by
  have hgone : Lending r (inFlight (c.spaces x)) x [] (c.setSpace x { discarded := true }) := by
    have hmoves : Moves r c.handshakeComplete x (c.spaces x) { discarded := true } [] [] :=
      ⟨fun sp hsp => absurd hsp not_mem_nil, fun hkept => absurd hkept (by decide),
        fun hkept => absurd hkept (by decide), fun heq => absurd heq hx,
        fun heq => absurd heq hx⟩
    refine { h.toBooks.setSpace hmoves ?_ with keys := fun hopen hr hc => ?_ }
    · simp [inFlight]
    · rw [setSpace_of_ne c _ (Ne.symm hx)]
      exact h.keys hopen hr hc
  have hsettled := hgone.settle
  exact { hsettled with }

section

variable (h : Balanced r c)
include h

lemma Lending.discardOnce (hx : x ≠ .app) : Balanced r (c.discardOnce x) := by
  unfold Connection.discardOnce
  split
  · exact h
  · exact ((h.anywhere x).discardSpace hx).anywhere .app

lemma Lending.discardFinishedSpaces : Balanced r c.discardFinishedSpaces := by
  unfold Connection.discardFinishedSpaces
  simp only
  set d := if c.role = .server ∧ (c.spaces .handshake).received.largest.isSome then
    c.discardOnce .initial else c with hd
  have hfirst : Balanced r d := by
    rw [hd]
    split
    · exact h.discardOnce (by decide)
    · exact h
  split
  · exact (hfirst.discardOnce (by decide)).discardOnce (by decide)
  · exact hfirst

lemma Lending.flushPackets (probe : ℕ) : Balanced r (c.flushPackets probe) := by
  unfold Connection.flushPackets
  split
  · exact h
  rename_i hclosed
  have hopen : c.closed = false := by simpa using hclosed
  set Fine : Sending → Prop := fun sending =>
    Balanced r sending.1 ∧ sending.1.closed = false
  have hlong : ∀ x padTo sending, Fine sending →
      Fine (Connection.buildLongPacket x padTo sending).2 := by
    intro x padTo sending hfine
    obtain ⟨hbuilt, hclosed⟩ := (hfine.1.anywhere x).buildLongPacket hfine.2 padTo sending.2
    exact ⟨hbuilt.anywhere .app, hclosed⟩
  set pad := if c.role = .client ∧ (c.spaces .initial).nextPn = 0 then minInitialDatagram else 0
  have hinitial : Fine (Connection.buildLongPacket .initial pad (c, probe)).2 :=
    hlong _ _ _ ⟨h, hopen⟩
  set afterInitial := (Connection.buildLongPacket .initial pad (c, probe)).2
  have hearly := drain_induct
    (fun sending (hfine : Fine sending) => hfine.1.buildZeroRttPacket hfine.2 sending.2)
    (afterInitial.1.backlog + 1) hinitial
  set afterEarly := (drain Connection.buildZeroRttPacket (afterInitial.1.backlog + 1)
    afterInitial).2
  have hhandshake := drain_induct (hlong .handshake 0) (afterEarly.1.backlog + 1) hearly
  set handshake := drain (Connection.buildLongPacket .handshake 0) (afterEarly.1.backlog + 1)
    afterEarly
  set left : Sending := if handshake.1 ≠ [] ∧ c.role = .client ∧
      (handshake.2.1.spaces .initial).discarded = false then
    (handshake.2.1.discardSpace .initial, handshake.2.2) else handshake.2 with hleft
  have hdropped : Fine left := by
    rw [hleft]
    split
    · exact ⟨((hhandshake.1.anywhere .initial).discardSpace (by decide)).anywhere .app,
        hhandshake.2⟩
    · exact hhandshake
  have hshort := drain_induct
    (fun sending (hfine : Fine sending) => hfine.1.buildShortPacket hfine.2 sending.2)
    (left.1.backlog + 1) hdropped
  exact { hshort.1 with }

end

variable (sent : List SentPacket)

lemma count_partition (gone : SentPacket → Bool) (f : Queued) :
    ((sent.filter fun sp => !gone sp).flatMap frames).count f +
        ((sent.filter gone).flatMap frames).count f =
      (sent.flatMap frames).count f := by
  have hperm := (filter_append_perm gone sent).flatMap_right frames
  rw [← hperm.count_eq, flatMap_append, count_append, add_comm]

lemma sizes_partition (gone : SentPacket → Bool) :
    ((sent.filter fun sp => !gone sp).map SentPacket.size).sum +
      ((sent.filter gone).map SentPacket.size).sum = (sent.map SentPacket.size).sum := by
  have hperm := (filter_append_perm gone sent).map SentPacket.size
  rw [← hperm.sum_eq, map_append, List.sum_append_nat, add_comm]

/-- Packets are taken out of a space: their bytes are owed, and their frames on their way. -/
theorem Lending.takeOut (h : Lending r 0 x [] c) (gone : SentPacket → Bool)
    (hsent : s.sent = (c.spaces x).sent.filter fun sp => !gone sp)
    (hrtx : s.rtx = (c.spaces x).rtx) (hcrypto : SameCrypto (c.spaces x) s) (hkeys : s.sendKeys = (c.spaces x).sendKeys) :
    Lending r (((c.spaces x).sent.filter gone).map SentPacket.size).sum x
      (((c.spaces x).sent.filter gone).flatMap frames) (c.setSpace x s) := by
  refine h.setSpace (moves_of_same (fun sp hsp => ?_) hcrypto fun f _ => ?_) ?_ hkeys
  · rw [hsent] at hsp
    exact h.sizes x sp (mem_of_mem_filter hsp)
  · have := count_partition (c.spaces x).sent gone f
    simp only [tracked, hrtx, hsent, count_append, count_nil]
    omega
  · rw [inFlight, hsent, sizes_partition]
    rfl

/-- The frames on their way are acknowledged. -/
theorem Lending.acknowledge (h : Lending r owed x lent c) :
    Lending r owed x [] { c with trace := c.trace.addAcked x lent } where
  __ := h
  crypto hopen y hy := by
    refine (h.crypto hopen y hy).keeps rfl rfl fun f _ => ?_
    simp only [known, Trace.addAcked, lentAt, update_apply, count_append]
    split
    · rename_i heq
      subst heq
      rw [count_append]
      omega
    · exact le_rfl
  queued hopen f hf hstop := by
    refine (h.queued hopen f hf hstop).trans ?_
    simp only [known, Trace.addAcked, lentAt, update_apply, count_append]
    split
    · rename_i heq
      subst heq
      rw [count_append]
      omega
    · exact le_rfl
  early hr hc f hf := by
    refine le_trans ?_ (h.early hr hc f hf)
    simp only [lentAt_nil, append_nil, count_append]
    omega

lemma Lending.putBack (h : Lending r owed x lent c) :
    Lending r owed x [] (c.setSpace x { c.spaces x with rtx := (c.spaces x).rtx ++ lent }) := by
  refine h.setSpace (moves_of_same (h.sizes x) ⟨rfl, rfl, rfl⟩ fun f _ => ?_) rfl rfl
  simp only [tracked, count_append, count_nil]
  omega

lemma Lending.requeueLost {lost : List SentPacket}
    (h : Lending r (lost.map SentPacket.size).sum x (lost.flatMap SentPacket.frames) c) :
    Lending r 0 x [] (c.requeueLost x lost) := by
  have hsettled := h.putBack.settle
  unfold Connection.requeueLost
  simp only
  split
  · exact { hsettled with }
  · exact { hsettled with }

lemma Lending.detectLost (h : Lending r 0 x [] c) : Lending r 0 x [] (c.detectLost x) := by
  unfold Connection.detectLost
  split
  · exact h
  rename_i largestAcked _
  have hkept : Lending r _ x _ (c.keepUnlost x largestAcked) :=
    h.takeOut (c.isLost largestAcked) rfl rfl ⟨rfl, rfl, rfl⟩ rfl
  simp only
  split
  · -- a packet that is tracked has bytes, so none was lost
    have hempty : (c.spaces x).sent.filter (c.isLost largestAcked) = [] := by
      rw [eq_nil_iff_forall_not_mem]
      intro sp hsp
      have hpos := h.sizes x sp (mem_of_mem_filter hsp)
      have hle : sp.size ≤ _ := single_le_sum (fun _ _ => zero_le _) _
        (mem_map_of_mem (f := SentPacket.size) hsp)
      omega
    rw [hempty] at hkept
    exact hkept
  · exact hkept.requeueLost

lemma Lending.measure (h : Lending r owed x lent c) (y : Space) (delay : ℕ)
    (newest : Option ℕ) : Lending r owed x lent (c.measure y delay newest) := by
  cases newest with
  | none => exact h
  | some sentMs =>
    simp only [Connection.measure, updateRtt]
    split <;> exact { h with }

lemma Lending.afterAck {gone : List SentPacket} (h : Lending r (gone.map SentPacket.size).sum x [] c)
    (delay : ℕ) (newest : Option ℕ) : Lending r 0 x [] (c.afterAck x delay gone newest) := by
  have hmeasured := h.settle.measure x delay newest
  refine detectLost ?_
  split
  · unfold onCcAck
    split <;> exact { hmeasured with }
  · exact { hmeasured with }

lemma Lending.onAck (h : Lending r 0 x [] c) {c' : Connection} {largest delay firstRange : ℕ}
    {ranges : List (ℕ × ℕ)} (hack : c.onAck x largest delay firstRange ranges = some c') :
    Lending r 0 x [] c' := by
  unfold Connection.onAck at hack
  simp only at hack
  split at hack
  · cases hack
  obtain ⟨acked, -, rfl⟩ := Option.map_eq_some_iff.mp hack
  have htaken : Lending r
      (((c.spaces x).sent.filter fun sp => isAcked acked sp.pn).map SentPacket.size).sum x []
      (c.takeAcked x largest acked) :=
    (h.takeOut (s := { c.spaces x with
        sent := (c.spaces x).sent.filter fun sp => !isAcked acked sp.pn
        largestAcked := some (max ((c.spaces x).largestAcked.getD largest) largest) })
      (fun sp => isAcked acked sp.pn) rfl rfl ⟨rfl, rfl, rfl⟩ rfl).acknowledge
  split
  · rename_i hnone
    rw [hnone.1] at htaken
    exact htaken
  · exact htaken.afterAck delay _

/-- `queue_probe` moves frames, and leaves the packets in flight. -/
theorem requeue_spec (budget : ℕ) (requeued : Bool) :
    (requeue sent budget requeued).1.map SentPacket.size = sent.map SentPacket.size ∧
      ∀ f, ((requeue sent budget requeued).1.flatMap SentPacket.frames).count f +
          (requeue sent budget requeued).2.count f = (sent.flatMap SentPacket.frames).count f := by
  induction sent generalizing budget requeued with
  | nil => exact ⟨rfl, fun _ => rfl⟩
  | cons sp rest ih =>
    rw [requeue]
    split
    · obtain ⟨hsizes, hcount⟩ := ih budget requeued
      refine ⟨by simp only [map_cons, hsizes], fun f => ?_⟩
      have := hcount f
      simp only [flatMap_cons, count_append]
      omega
    split
    · exact ⟨rfl, fun f => rfl⟩
    obtain ⟨hsizes, hcount⟩ := ih (budget - sp.size) true
    refine ⟨by simp only [map_cons, hsizes], fun f => ?_⟩
    have := hcount f
    simp only [flatMap_cons, count_append, count_nil]
    omega

lemma Lending.queueProbe (h : Lending r 0 x [] c) : Lending r 0 x [] (c.queueProbe x) := by
  obtain ⟨hsizes, hcount⟩ := requeue_spec (c.spaces x).sent (probePackets * maxPacketPayload) false
  refine h.setSpace (moves_of_same (fun sp hsp => ?_) ⟨rfl, rfl, rfl⟩ fun f hf => ?_) ?_ rfl
  · have hmem := mem_map_of_mem (f := SentPacket.size) hsp
    rw [hsizes] at hmem
    obtain ⟨old, hold, hsize⟩ := mem_map.mp hmem
    rw [← hsize]
    exact h.sizes x old hold
  · have := hcount f
    simp only [tracked]
    split
    · rename_i hempty
      have hping : .app .ping ≠ f := by
        rintro rfl
        cases hf
      have hnone := congrArg (count f) hempty
      simp only [count_append, count_cons_of_ne hping] at hnone ⊢
      omega
    · simp only [count_append]
      omega
  · simp only [inFlight, hsizes]

lemma Lending.foldl {α : Type} {step : Connection → α → Connection} (h : Balanced r c)
    (hstep : ∀ c a, Balanced r c → Balanced r (step c a)) (items : List α) :
    Balanced r (items.foldl step c) := by
  induction items generalizing c with
  | nil => exact h
  | cons a rest ih => exact ih (hstep c a h)

lemma Books.discardSendOutput (h : Books r 0 .app [] c) :
    Balanced r ({ c with closed := true } : Connection).discardSendOutput where
  role := h.role
  cids := nofun
  flight := rfl
  sizes _ sp hsp := absurd hsp not_mem_nil
  crypto := nofun
  queued := nofun
  early _ _ f _ := by simp [Connection.discardSendOutput, tracked, lentAt]
  plain f hf := absurd hf not_mem_nil
  hello := nofun
  keys := nofun

lemma Lending.onTimeout (h : Balanced r c) (nowMs : ℕ) :
    Balanced r (c.onTimeout nowMs) := by
  have hnow : Balanced r { c with nowMs } := { h with }
  have hlost : ∀ d x, Balanced r d → Balanced r (d.detectLost x) :=
    fun d x hd => ((hd.anywhere x).detectLost).anywhere .app
  have hprobe : ∀ d x, Balanced r d → Balanced r (d.queueProbe x) :=
    fun d x hd => ((hd.anywhere x).queueProbe).anywhere .app
  unfold Connection.onTimeout
  simp only
  split
  · exact hnow.toBooks.discardSendOutput
  split
  · exact (hnow.foldl hlost _).flushPackets 0
  split
  · exact hnow
  split
  · exact hnow
  · have hprobed := hnow.foldl hprobe
      ([.initial, .handshake, .app].filter ({ c with nowMs } : Connection).ptoArmed)
    refine flushPackets ?_ probePackets
    exact { hprobed with }

/-- A space that differs in its keys, or in what it has received. -/
theorem Books.touch (h : Books r 0 .app [] c) (x : Space) (hsent : s.sent = (c.spaces x).sent)
    (hrtx : s.rtx = (c.spaces x).rtx) (hcrypto : SameCrypto (c.spaces x) s) : Books r 0 .app [] (c.setSpace x s) := by
  refine ((h.anywhere x).setSpace (moves_of_same (fun sp hsp => ?_) hcrypto
    fun f _ => ?_) ?_).anywhere .app
  · rw [hsent] at hsp
    exact h.sizes x sp hsp
  · simp only [tracked, hrtx, hsent]
  · simp only [inFlight, hsent]

lemma Lending.touch (h : Balanced r c) (x : Space) (hsent : s.sent = (c.spaces x).sent)
    (hrtx : s.rtx = (c.spaces x).rtx) (hcrypto : SameCrypto (c.spaces x) s)
    (hkeys : x = .app → (c.spaces x).sendKeys = none → s.sendKeys = none) :
    Balanced r (c.setSpace x s) := by
  refine { h.toBooks.touch x hsent hrtx hcrypto with keys := fun hopen hr hc => ?_ }
  rcases eq_or_ne .app x with rfl | hne
  · exact hkeys rfl (h.keys hopen hr hc)
  · rw [setSpace_of_ne c s hne]
    exact h.keys hopen hr hc

lemma Lending.installInitialKeys (h : Balanced r c) (cid : Bytes) :
    Balanced r (c.installInitialKeys cid) :=
  h.touch .initial rfl rfl ⟨rfl, rfl, rfl⟩ nofun

lemma Books.installSecrets (h : Books r 0 .app [] c) (secret : LevelSecret) :
    Books r 0 .app [] (c.installSecrets secret) := by
  cases secret with
  | handshake secret =>
    simp only [Connection.installSecrets]
    split
    · exact h
    · exact h.touch .handshake rfl rfl ⟨rfl, rfl, rfl⟩
  | app secret =>
    simp only [Connection.installSecrets]
    split
    · exact h
    · have htouched := h.touch .app (s := (c.spaces .app).withKeys (.oneRtt secret 0))
        rfl rfl ⟨rfl, rfl, rfl⟩
      exact { htouched with }

lemma Lending.updateSendKeys (h : Balanced r c) :
    Balanced r c.updateSendKeys := by
  unfold Connection.updateSendKeys
  split
  · rename_i secret generation key _ hkey
    have htouched := h.touch .app (s := { c.spaces .app with
      sendKeys := some (.oneRtt secret (generation + 1)) }) rfl rfl ⟨rfl, rfl, rfl⟩
      (fun _ hnone => by rw [hnone] at hkey; cases hkey)
    exact { htouched with }
  · exact h

lemma Lending.commitKeyUpdate (h : Balanced r c) :
    Balanced r c.commitKeyUpdate := by
  unfold Connection.commitKeyUpdate
  simp only
  set d := if (c.spaces .app).recvKeys then { c with recvKeyPhase := !c.recvKeyPhase } else c
    with hd
  have hphase : Balanced r d := by
    rw [hd]
    split
    · exact { h with }
    · exact h
  split
  · exact hphase.updateSendKeys
  · exact hphase

lemma count_app (f g : Frame) : [Queued.app g].count (.app f) = [g].count f := by
  simp [count_singleton]

lemma Books.pushApp (h : Books r owed x lent c) (g : Frame) : Books r owed x lent (c.pushApp g) :=
  { h with
    queued := fun hopen f hf hstop => by
      have hold := h.queued hopen f hf hstop
      simp only [Connection.pushApp, known, count_append, count_app] at hold ⊢
      omega }

lemma Lending.pushApp (h : Lending r owed x lent c) (g : Frame) :
    Lending r owed x lent (c.pushApp g) :=
  { h.toBooks.pushApp g with keys := h.keys }

lemma Lending.queueAppFrame (h : Lending r owed x lent c) (g : Frame) :
    Lending r owed x lent (c.queueAppFrame g) := by
  unfold Connection.queueAppFrame
  split
  · refine { h with queued := ?_, early := ?_, plain := ?_ }
    · intro hopen f hf hstop
      have hold := h.queued hopen f hf hstop
      simp only [known, count_append, count_app] at hold ⊢
      omega
    · intro hr hc f hf
      have hold := h.early hr hc f hf
      simp only [count_append] at hold ⊢
      omega
    · intro f hf
      rcases mem_append.mp hf with hold | hnew
      · exact h.plain f hold
      · exact ⟨g, mem_singleton.mp hnew⟩
  · exact h.pushApp g

lemma tracked_filter (s : SpaceState) (keep : Queued → Bool) :
    tracked { s with
      rtx := s.rtx.filter keep
      sent := s.sent.map fun sp : SentPacket => { sp with frames := sp.frames.filter keep } } =
      (tracked s).filter keep := by
  simp [tracked, flatMap_map, filter_flatMap]

lemma inFlight_filter (s : SpaceState) (keep : Queued → Bool) :
    inFlight { s with
      rtx := s.rtx.filter keep
      sent := s.sent.map fun sp : SentPacket => { sp with frames := sp.frames.filter keep } } =
      inFlight s := by
  simp only [inFlight, map_map]
  rfl

/-- The frames of a stream that the peer stopped leave all queues. -/
theorem Lending.stopStream (h : Balanced r c) (id errorCode finalSize : ℕ) :
    Balanced r (c.stopStream id errorCode finalSize) := by
  apply pushApp
  refine { h with
    flight := ?_, sizes := ?_, crypto := ?_, queued := ?_, early := ?_, plain := ?_ }
  · have hold := h.flight
    simp only [flight, inFlight_filter] at hold ⊢
    exact hold
  · intro y sp hsp
    obtain ⟨old, hold, rfl⟩ := mem_map.mp hsp
    exact h.sizes y old hold
  · intro hopen y hy
    have hold := h.crypto hopen y hy
    simp only [known, lentAt_nil, append_nil, tracked_filter] at hold ⊢
    exact hold.filter rfl rfl fun _ _ => rfl
  · intro hopen f hf hstop
    have hother : isStreamOf id (.app f) = false := hstop id (by simp)
    have hold := h.queued hopen f hf fun i hi => hstop i (mem_append.mpr (.inl hi))
    simp only [known, tracked_filter, count_append] at hold ⊢
    rw [count_filter (by rw [hother]; rfl), count_filter (by rw [hother]; rfl),
      count_filter (by rw [hother]; rfl)]
    exact hold
  · intro hr hc f hf
    have hold := h.early hr hc f hf
    simp only [lentAt_nil, tracked_filter, append_nil, ← filter_append] at hold ⊢
    cases hstream : isStreamOf id f with
    | false =>
      rw [count_filter (by rw [hstream]; rfl), count_filter (by rw [hstream]; rfl)]
      exact hold
    | true =>
      have hgone : f ∉ (c.outFramesEarly ++ tracked (c.spaces .app)).filter
          fun f => !isStreamOf id f := by
        simp [hstream]
      rw [count_eq_zero_of_not_mem hgone]
      exact zero_le _
  · exact fun f hf => h.plain f (mem_filter.mp hf).1

lemma Lending.apply (h : Balanced r c) (effect : StreamEffect) :
    Balanced r (c.apply effect) := by
  cases effect with
  | push f => exact h.pushApp f
  | queue f => exact h.queueAppFrame f
  | stop id errorCode finalSize => exact h.stopStream id errorCode finalSize

section

variable (h : Books r 0 .app [] c)
include h

lemma Books.addCrypto (given : Space × Bytes) : Books r 0 .app [] (c.addCrypto given) := by
  unfold Connection.addCrypto
  simp only
  split
  · exact h
  set s : SpaceState := { c.spaces given.1 with
    outCrypto := (c.spaces given.1).outCrypto ++ given.2 } with hs
  have hother : ∀ y, y ≠ given.1 → (c.setSpace given.1 s).spaces y = c.spaces y :=
    fun y hne => setSpace_of_ne c s hne
  have htracked : ∀ y, tracked ((c.setSpace given.1 s).spaces y) = tracked (c.spaces y) := by
    intro y
    rcases eq_or_ne y given.1 with rfl | hne
    · rw [setSpace_self]
      rfl
    · rw [hother y hne]
  refine { h with flight := ?_, sizes := ?_, crypto := ?_, queued := ?_, early := ?_, hello := ?_ }
  · have hsum := flight_setSpace c given.1 s
    have hbytes := h.flight
    have hsame : inFlight s = inFlight (c.spaces given.1) := rfl
    simp only [Connection.setSpace, Connection.flight] at hsum hbytes ⊢
    omega
  · intro y sp hsp
    refine h.sizes y sp ?_
    rcases eq_or_ne y given.1 with rfl | hne
    · rwa [setSpace_self] at hsp
    · rwa [hother y hne] at hsp
  · intro hopen y hy
    simp only [known, Trace.addCrypto] at hy ⊢
    rcases eq_or_ne y given.1 with rfl | hne
    · rw [setSpace_self] at hy ⊢
      rw [update_self]
      exact (h.crypto hopen given.1 hy).append given.2
    · rw [hother y hne] at hy ⊢
      rw [update_of_ne hne]
      exact h.crypto hopen y hy
  · intro hopen f hf hstop
    simp only [known, htracked]
    exact h.queued hopen f hf hstop
  · intro hr hc
    simp only [htracked]
    exact h.early hr hc
  · intro hopen
    simp only [Trace.addCrypto]
    rcases eq_or_ne .initial given.1 with heq | hne
    · rw [← heq]
      exact (h.hello hopen).trans (prefix_append _ _)
    · rw [update_of_ne hne]
      exact h.hello hopen

lemma Books.established (out : TlsOutput) : Books r 0 .app [] (c.established out) := by
  have hdone : Books r 0 .app [] { c with handshakeComplete := true, keyUpdateAllowed := true } :=
    { h with early := nofun }
  unfold Connection.established
  split
  · exact hdone.pushApp _
  · exact hdone

/-- Early data that was refused is queued again; what was accepted stays tracked. -/
theorem Books.settleEarly (hdone : c.handshakeComplete = true)
    (hearly : Keeps (c.outFramesEarly ++ tracked (c.spaces .app)) c.earlyBackup)
    (accepted : Bool) : Books r 0 .app [] (c.settleEarly accepted) := by
  have hnot : c.handshakeComplete = false → False := fun hc => by simp [hdone] at hc
  unfold Connection.settleEarly
  simp only
  split
  · set s : SpaceState := { c.spaces .app with sent := [], rtx := [] } with hs
    have hother : ∀ y, y ≠ .app → (c.setSpace .app s).spaces y = c.spaces y :=
      fun y hne => setSpace_of_ne c s hne
    refine ⟨h.role, h.cids, ?_, ?_, ?_, ?_, fun _ hc => (hnot hc).elim,
      fun f hf => absurd hf not_mem_nil, h.hello⟩
    · have hsum := flight_setSpace c .app s
      have hbytes := h.flight
      have hnone : inFlight s = 0 := rfl
      simp only [Connection.flight] at hsum hbytes ⊢
      omega
    · intro y sp hsp
      rcases eq_or_ne y .app with rfl | hne
      · exact absurd hsp not_mem_nil
      · rw [hother y hne] at hsp
        exact h.sizes y sp hsp
    · intro hopen y hy
      rcases eq_or_ne y .app with rfl | hne
      · have hold := h.crypto hopen .app hy
        simp only [known, lentAt_nil, append_nil] at hold ⊢
        refine ⟨hold.le, hold.waiting, fun i hi b hb => ?_⟩
        obtain ⟨offset, data, hmem, hcovers⟩ := hold.sent i hi b hb
        refine ⟨offset, data, mem_append.mpr (.inr ?_), hcovers⟩
        rcases mem_append.mp hmem with htracked | hacked
        · -- early packets carry no handshake data
          obtain ⟨g, hg⟩ := h.plain _ (hearly.mem rfl (mem_append.mpr (.inr htracked)))
          cases hg
        · exact hacked
      · rw [hother y hne] at hy
        have hold := h.crypto hopen y hy
        simp only [known, hother y hne] at hold ⊢
        exact hold
    · intro hopen f hf hstop
      have hold := h.queued hopen f hf hstop
      have hback := hearly (.app f) hf
      simp only [known, count_append] at hold hback ⊢
      simp only [Connection.setSpace]
      omega
  · refine { h with queued := ?_, early := fun _ hc => (hnot hc).elim, plain := ?_ }
    · intro hopen f hf hstop
      have hold := h.queued hopen f hf hstop
      simp only [known, count_append] at hold ⊢
      omega
    · exact fun f hf => absurd hf not_mem_nil

lemma Books.complete (out : TlsOutput) : Books r 0 .app [] (c.complete out) := by
  unfold Connection.complete
  split
  · rename_i hnow
    have hestablished := h.established out
    split
    · have hconfirmed : Books r 0 .app [] { c.established out with handshakeConfirmed := true } :=
        { hestablished with }
      exact hconfirmed.pushApp _
    rename_i hrole
    have hearly := h.early (h.role.symm.trans hrole) hnow.2
    refine hestablished.settleEarly ?_ ?_ out.earlyAccepted
    · unfold Connection.established
      split <;> rfl
    · rw [lentAt_nil, append_nil] at hearly
      unfold Connection.established
      split <;> exact hearly
  · exact h

end

/-- The TLS of a client gives the secrets of the application only when it is done. -/
def TlsOutput.Sound (r : Role) (out : TlsOutput) : Prop :=
  r = .client → (∃ secret, LevelSecret.app secret ∈ out.secrets) → out.complete = true

/-- What holds while the output of TLS is taken. -/
structure Pumping (r : Role) (done : Bool) (c : Connection) : Prop
    extends Books r 0 .app [] c where
  keys : c.closed = false → r = .client → c.handshakeComplete = false → done = false →
    (c.spaces .app).sendKeys = none

variable {done : Bool}

lemma Pumping.installSecrets (h : Pumping r done c) {secret : LevelSecret}
    (hsound : r = .client → (∃ s, secret = .app s) → done = true) :
    Pumping r done (c.installSecrets secret) := by
  refine { h.toBooks.installSecrets secret with keys := ?_ }
  cases secret with
  | handshake secret =>
    simp only [Connection.installSecrets]
    split
    · exact h.keys
    · exact h.keys
  | app secret =>
    intro _ hr _ hdone
    rw [hsound hr ⟨secret, rfl⟩] at hdone
    cases hdone

lemma Pumping.addCrypto (h : Pumping r done c) (given : Space × Bytes) :
    Pumping r done (c.addCrypto given) := by
  refine { h.toBooks.addCrypto given with keys := fun hopen hr hc hdone => ?_ }
  have hsame := (sends_addCrypto c given).same
  have hclosed : (c.addCrypto given).closed = c.closed := by
    unfold Connection.addCrypto
    simp only
    split <;> rfl
  rw [same_sendKeys hsame]
  exact h.keys (hclosed.symm.trans hopen) hr ((congrArg KeyView.complete hsame).symm.trans hc) hdone

lemma Pumping.complete {out : TlsOutput} (h : Pumping r out.complete c) :
    Balanced r (c.complete out) := by
  refine { h.toBooks.complete out with keys := fun hopen hr hc => ?_ }
  unfold Connection.complete at hopen hc ⊢
  split at hc
  · have hdone : (c.established out).handshakeComplete = true := by
      unfold established
      split <;> rfl
    split at hc
    · exact absurd (hdone.symm.trans hc) (by decide)
    · refine absurd (.trans (Eq.symm ?_) hc) (show ¬true = false by decide)
      unfold settleEarly
      split <;> exact hdone
  · rename_i hnow
    rw [if_neg hnow] at hopen ⊢
    refine h.keys hopen hr hc ?_
    by_contra hdone
    exact hnow ⟨by simpa using hdone, hc⟩

lemma Lending.pumpTls (h : Balanced r c) {out : TlsOutput} (hsound : out.Sound r) :
    Balanced r (c.pumpTls out) :=
  pumpTls_rule (P := Pumping r out.complete) out h
    (fun _ => { h with keys := fun hopen hr hc _ => h.keys hopen hr hc })
    (fun _ hc _ hgiven => hc.installSecrets fun hr ⟨s, hs⟩ => hsound hr ⟨s, hs ▸ hgiven⟩)
    (fun _ _ hc => { hc with }) (fun _ hc given _ => hc.addCrypto given) (fun _ _ hc => { hc with })
    (fun _ hc => hc.toBooks.discardSendOutput) fun _ hc => hc.complete

/-- TLS keeps to its order in all that arrives. -/
def RecvFrame.Sound (r : Role) : RecvFrame → Prop
  | .crypto (some out) => out.Sound r
  | _ => True

section

variable (h : Balanced r c)
include h

lemma Lending.processFrame (x : Space) (kind : PacketKind) {f : RecvFrame} (hsound : f.Sound r) :
    Balanced r (c.processFrame x kind f).conn :=
  processFrame_rule h (fun hack => ((h.anywhere x).onAck hack).anywhere .app)
    (fun out heq => h.pumpTls (by rwa [heq] at hsound))
    (fun effects => h.foldl (fun c effect hc => hc.apply effect) effects)
    (fun _ => { h with }) h.toBooks.discardSendOutput fun _ => h.pushApp _

lemma Lending.processPacketKind (x : Space) (pn : ℕ)
    {frames : List RecvFrame} (hsound : ∀ f ∈ frames, f.Sound r) (kind : PacketKind) :
    Balanced r (c.processPacketKind x pn frames kind).1 := by
  refine processPacketKind_rule (P := Balanced r)
    (fun received => h.touch x rfl rfl ⟨rfl, rfl, rfl⟩ fun _ hnone => hnone)
    (fun c hc f hf => hc.processFrame x kind (hsound f hf)) fun c recvPns ackPending hc => ?_
  have hnoted := hc.touch x (s := { c.spaces x with recvPns, ackPending }) rfl rfl ⟨rfl, rfl, rfl⟩
    fun _ hnone => hnone
  exact { hnoted with }

lemma Lending.acceptFirst (x : Space) (dcid : Bytes) :
    Balanced r (c.acceptFirst x dcid) := by
  unfold Connection.acceptFirst
  split
  · have hnamed : Balanced r { c with initialDcid := dcid } := { h with }
    have hinstalled := hnamed.installInitialKeys dcid
    exact { hinstalled with }
  · exact h

end

/-- The client has given no handshake data in Initial packets but its first flight. -/
def OnlyHello (c : Connection) : Prop :=
  (c.spaces .initial).sendCryptoOffset + (c.spaces .initial).outCrypto.length =
    c.initialCrypto.length

/-- A Retry that comes before anything else sends all handshake data again. -/
theorem Lending.restarted (h : Balanced r c) {scid token : Bytes}
    (haccepts : c.acceptsRetry scid token) (honly : c.OnlyHello) :
    Balanced r (c.restarted scid token) := by
  obtain ⟨-, -, -, hkept, -, htoken, -, hscid⟩ := haccepts
  have hother : ∀ y, y ≠ .initial → (c.restarted scid token).spaces y = c.spaces y := by
    intro y hne
    simp only [Connection.restarted, Connection.installInitialKeys, setSpace_of_ne _ _ hne]
  refine ⟨⟨h.role, ?_, ?_, ?_, ?_, ?_, ?_, h.plain, h.hello⟩, ?_⟩
  · exact fun hopen => ⟨(h.cids hopen).1, hscid, htoken⟩
  · have hbytes := h.flight
    simp only [flight] at hbytes ⊢
    show c.bytesInFlight - inFlight (c.spaces .initial) =
      0 + inFlight (c.spaces .handshake) + inFlight (c.spaces .app) + 0
    omega
  · intro y sp hsp
    rcases eq_or_ne y .initial with rfl | hne
    · exact absurd hsp not_mem_nil
    · rw [hother y hne] at hsp
      exact h.sizes y sp hsp
  · intro hopen y hy
    rcases eq_or_ne y .initial with rfl | hne
    · have hold := h.crypto hopen .initial hkept
      have hlen : (c.spaces .initial).outCrypto.length =
          (c.trace.crypto .initial).length - (c.spaces .initial).sendCryptoOffset := by
        rw [hold.waiting, length_drop]
      have hle := hold.le
      have hsame : c.initialCrypto = c.trace.crypto .initial := by
        refine (h.hello hopen).eq_of_length ?_
        unfold OnlyHello at honly
        omega
      exact ⟨zero_le _, hsame, fun i hi => absurd hi (not_lt_zero i)⟩
    · rw [hother y hne] at hy
      have hold := h.crypto hopen y hy
      simp only [known, hother y hne] at hold ⊢
      exact hold
  · intro hopen f hf hstop
    have hold := h.queued hopen f hf hstop
    exact hold
  · intro hr hc
    have hold := h.early hr hc
    exact hold
  · intro hopen hr hc
    exact h.keys hopen hr hc

/-- A Retry that is taken comes before any other handshake data in Initial packets. -/
def RetryFirst (c : Connection) : Incoming → Prop
  | .retry scid token => c.acceptsRetry scid token → c.OnlyHello
  | _ => True

def Incoming.Sound (r : Role) : Incoming → Prop
  | .short _ _ frames => ∀ f ∈ frames, f.Sound r
  | .long _ _ _ (some (_, frames)) => ∀ f ∈ frames, f.Sound r
  | _ => True

lemma Lending.recvPacket (h : Balanced r c) {p : Incoming} (hsound : p.Sound r)
    (hfirst : c.RetryFirst p) : Balanced r (c.recvPacket p).1 := by
  cases p with
  | short phaseChanged pn frames =>
    unfold Connection.recvPacket
    dsimp only
    split
    · exact h
    · refine processPacketKind ?_ .app pn hsound .oneRtt
      split
      · exact h.commitKeyUpdate
      · exact h
  | retry scid token =>
    rcases handleRetry_cases c scid token with hsame | ⟨haccepts, hnext⟩
    · rw [Connection.recvPacket, hsame]
      exact h
    · rw [Connection.recvPacket, hnext]
      exact (h.restarted haccepts (hfirst haccepts)).flushPackets 0
  | long kind dcid scid opened =>
    unfold Connection.recvPacket
    dsimp only
    split
    · exact h
    rename_i x hx
    have haccepted := h.acceptFirst x dcid
    split
    · exact haccepted
    rename_i pn frames
    split
    · exact haccepted
    rename_i hcond
    rw [not_or] at hcond
    refine processPacketKind ?_ x pn hsound kind
    split
    · refine { haccepted with cids := fun hopen => ?_ }
      obtain ⟨hlocal, -, htoken⟩ := haccepted.cids hopen
      exact ⟨hlocal, not_lt.mp hcond.2, htoken⟩
    · exact haccepted

/-- Every Retry of a datagram that is taken comes first. -/
def RetriesFirst : List Incoming → Connection → Prop
  | [], _ => True
  | p :: rest, c =>
    c.RetryFirst p ∧ ((c.recvPacket p).2.1 = true → RetriesFirst rest (c.recvPacket p).1)

lemma Lending.recvPackets (h : Balanced r c) {packets : List Incoming}
    (hsound : ∀ p ∈ packets, p.Sound r) (hfirst : RetriesFirst packets c) :
    Balanced r (recvPackets packets c).1 := by
  induction packets generalizing c with
  | nil => exact h
  | cons p rest ih =>
    have hone := h.recvPacket (hsound p mem_cons_self) hfirst.1
    rw [recvPackets]
    dsimp only
    split
    · rename_i hgoesOn
      exact ih hone (fun q hq => hsound q (mem_cons_of_mem _ hq)) (hfirst.2 hgoesOn)
    · exact hone

def Call.Sound (r : Role) : Call → Prop
  | .datagram packets _ => ∀ p ∈ packets, p.Sound r
  | _ => True

/-- The call brings no Retry after other handshake data. -/
def CallFirst (c : Connection) : Call → Prop
  | .datagram packets isReset => c.closed = false → isReset = false → RetriesFirst packets c
  | _ => True

section

variable (h : Balanced r c)
include h

lemma Lending.recvDatagram {packets : List Incoming} {isReset : Bool}
    (hsound : ∀ p ∈ packets, p.Sound r) (hfirst : c.CallFirst (.datagram packets isReset)) :
    Balanced r (c.recvDatagram packets isReset) := by
  unfold Connection.recvDatagram
  split
  · exact h
  rename_i hopen
  split
  · exact h.toBooks.discardSendOutput
  rename_i hreset
  have hpackets := h.recvPackets hsound (hfirst (by simpa using hopen) (by simpa using hreset))
  dsimp only
  split
  · exact hpackets.discardFinishedSpaces.flushPackets 0
  · exact hpackets

lemma Lending.close : Balanced r { c with closed := true } :=
  { h with cids := nofun, crypto := nofun, queued := nofun, hello := nofun, keys := nofun }

/-- One call loses nothing. -/
theorem Lending.exec {call : Call} (hsound : call.Sound r)
    (hfirst : c.CallFirst call) : Balanced r (c.exec call) := by
  cases call with
  | streams effects => exact h.foldl (fun c effect hc => hc.apply effect) effects
  | flush => exact h.flushPackets 0
  | datagram packets isReset => exact h.recvDatagram hsound hfirst
  | timeout nowMs => exact h.onTimeout nowMs
  | setNow nowMs => exact { h with }
  | initiateKeyUpdate =>
    unfold Connection.exec initiateKeyUpdate
    dsimp only
    split
    · exact h.updateSendKeys
    · exact h
  | pathValidation data =>
    unfold Connection.exec
    dsimp only
    split
    · exact (h.pushApp _).flushPackets 0
    · exact h
  | close frame =>
    unfold Connection.exec
    dsimp only
    split
    · exact h
    have hframe : Balanced r { c with closeFrame := some frame } := { h with }
    apply close
    split
    · exact hframe.flushPackets 0
    · exact h
  | nextDatagram => exact { h with }

end

/-- No call of the run brings such a Retry. -/
def RunFirst : List Call → Connection → Prop
  | [], _ => True
  | call :: rest, c => c.CallFirst call ∧ RunFirst rest (c.exec call)

lemma Lending.run (h : Balanced r c) {calls : List Call}
    (hsound : ∀ call ∈ calls, call.Sound r) (hfirst : RunFirst calls c) :
    Balanced r (c.run calls) := by
  induction calls generalizing c with
  | nil => exact h
  | cons call rest ih =>
    exact ih (h.exec (hsound call mem_cons_self) hfirst.1)
      (fun call hcall => hsound call (mem_cons_of_mem _ hcall)) hfirst.2

lemma lending_newServer (localCid : Bytes) (maxIdleTimeout : ℕ) :
    Lending .server 0 .app [] (newServer localCid maxIdleTimeout) where
  role := rfl
  cids hopen := by
    simp only [newServer, Bool.not_eq_false', Bool.and_eq_true, decide_eq_true_eq] at hopen
    exact ⟨hopen.2, zero_le _, zero_le _⟩
  flight := rfl
  sizes _ _ hsp := absurd hsp not_mem_nil
  crypto _ _ _ := ⟨le_rfl, rfl, fun i hi => absurd hi (not_lt_zero i)⟩
  queued _ _ _ _ := zero_le _
  early := nofun
  plain _ hf := absurd hf not_mem_nil
  hello _ := prefix_rfl
  keys := nofun

lemma lending_blankClient {dcid scid : Bytes} (hdcid : dcid.length ≤ 20)
    (hscid : scid.length ≤ 20) (maxIdleTimeout : ℕ) :
    Lending .client 0 .app [] (blankClient dcid scid maxIdleTimeout) where
  role := rfl
  cids _ := ⟨hscid, hdcid, zero_le _⟩
  flight := rfl
  sizes _ _ hsp := absurd hsp not_mem_nil
  crypto _ _ _ := ⟨le_rfl, rfl, fun i hi => absurd hi (not_lt_zero i)⟩
  queued _ _ _ _ := zero_le _
  early _ _ := .refl _
  plain _ hf := absurd hf not_mem_nil
  hello _ := prefix_rfl
  keys _ _ _ := rfl

/-- How far a space has come with its handshake data. -/
def progress (s : SpaceState) : ℕ × Bool := (s.sendCryptoOffset, s.discarded)

section

variable (c)

lemma progress_setSpace (x : Space) (s : SpaceState)
    (h : progress s = progress (c.spaces x)) (y : Space) :
    progress ((c.setSpace x s).spaces y) = progress (c.spaces y) := by
  rcases eq_or_ne y x with rfl | hne
  · rw [setSpace_self, h]
  · rw [setSpace_of_ne c s hne]

lemma progress_installSecrets (secret : LevelSecret) (y : Space) :
    progress ((c.installSecrets secret).spaces y) = progress (c.spaces y) := by
  cases secret with
  | handshake secret =>
    simp only [installSecrets]
    split
    · rfl
    · exact progress_setSpace c .handshake _ (by rfl) y
  | app secret =>
    simp only [installSecrets]
    split
    · rfl
    · exact progress_setSpace c .app _ (by rfl) y

lemma progress_addCrypto (given : Space × Bytes) (y : Space) :
    progress ((c.addCrypto given).spaces y) = progress (c.spaces y) := by
  simp only [addCrypto]
  split
  · rfl
  · exact progress_setSpace c given.1 _ (by rfl) y

lemma progress_complete (out : TlsOutput) (y : Space) :
    progress ((c.complete out).spaces y) = progress (c.spaces y) := by
  have hestablished : (c.established out).spaces = c.spaces := by
    unfold established
    split <;> rfl
  have hsettled : ∀ (c : Connection) (accepted : Bool),
      progress ((c.settleEarly accepted).spaces y) = progress (c.spaces y) := by
    intro c accepted
    simp only [settleEarly]
    split
    · exact progress_setSpace c .app _ (by rfl) y
    · rfl
  unfold complete
  split
  · split
    · exact congrArg (fun spaces => progress (spaces y)) hestablished
    · exact (hsettled _ _).trans (congrArg (fun spaces => progress (spaces y)) hestablished)
  · rfl

lemma progress_pumpTls (out : TlsOutput) (y : Space) :
    progress ((c.pumpTls out).spaces y) = progress (c.spaces y) :=
  pumpTls_rule (P := fun c' => progress (c'.spaces y) = progress (c.spaces y))
    (Q := fun c' => progress (c'.spaces y) = progress (c.spaces y)) out rfl
    (fun _ => rfl) (fun c' h given _ => (progress_installSecrets c' given y).trans h)
    (fun _ _ h => h) (fun c' h given _ => (progress_addCrypto c' given y).trans h)
    (fun _ _ h => h) (fun _ h => h) fun c' h => (progress_complete c' out y).trans h

end

/-- What `new_client` keeps for a Retry is all that TLS gave. -/
theorem lending_newClient {dcid scid : Bytes} {maxIdleTimeout : ℕ} {hello : TlsOutput}
    (hsound : hello.Sound .client) (hc : newClient dcid scid maxIdleTimeout hello = some c) :
    Lending .client 0 .app [] c := by
  unfold newClient at hc
  split at hc
  · cases hc
  rename_i hcids
  simp only [not_or, not_lt] at hcids
  rw [Option.some.injEq] at hc
  rw [← hc]
  set d := (blankClient dcid scid maxIdleTimeout).installInitialKeys dcid
  have hblank : Lending .client 0 .app [] d :=
    (lending_blankClient hcids.2.1 hcids.2.2 maxIdleTimeout).installInitialKeys dcid
  have hpumped := hblank.pumpTls hsound
  have hprogress : progress ((d.pumpTls hello).spaces .initial) = (0, false) := by
    rw [progress_pumpTls]
    rfl
  obtain ⟨hoffset, hkept⟩ := Prod.mk.inj hprogress
  apply Lending.flushPackets
  refine { hpumped with hello := fun hopen => ?_ }
  have hcrypto := hpumped.crypto hopen .initial hkept
  rw [hcrypto.waiting, hoffset, drop_zero]

/-- A connection as it is first made, with a TLS that keeps to its order. -/
inductive Begins : Role → Connection → Prop
  | server (localCid : Bytes) (maxIdleTimeout : ℕ) :
      Begins .server (newServer localCid maxIdleTimeout)
  | client {dcid scid : Bytes} {maxIdleTimeout : ℕ} {hello : TlsOutput} {c : Connection}
      (hsound : hello.Sound .client) (hc : newClient dcid scid maxIdleTimeout hello = some c) :
      Begins .client c

lemma Begins.lending (h : Begins r c) : Balanced r c := by
  cases h with
  | server localCid maxIdleTimeout => exact lending_newServer localCid maxIdleTimeout
  | client hsound hc => exact lending_newClient hsound hc

/-- No frame and no byte is lost. A frame that was queued more than once counts as often. -/
structure Recovered (c : Connection) : Prop where
  /-- The bytes in flight are those of the tracked packets. -/
  flight : c.bytesInFlight = c.flight
  /-- Frames of the application space wait, are to be sent again, are in flight, or were
  acknowledged; those of stopped streams may be gone. -/
  frames : ∀ f : Frame, f.isRetransmittable = true →
    (∀ id ∈ c.trace.stopped, f.isStreamOf id = false) →
    c.trace.queued.count f ≤
      (c.outFramesApp ++ c.outFramesEarly ++ (c.spaces .app).rtx ++
        (c.spaces .app).sent.flatMap SentPacket.frames ++ c.trace.acked .app).count (.app f)
  /-- So does every byte of handshake data of a space that is not discarded. -/
  crypto : ∀ x, (c.spaces x).discarded = false → ∀ i b, (c.trace.crypto x)[i]? = some b →
    (c.spaces x).outCrypto[i - (c.spaces x).sendCryptoOffset]? = some b ∧
        (c.spaces x).sendCryptoOffset ≤ i ∨
      Covers ((c.spaces x).rtx ++ (c.spaces x).sent.flatMap SentPacket.frames ++
        c.trace.acked x) i b

lemma Lending.recovered (h : Balanced r c) (hopen : c.closed = false) : Recovered c where
  flight := h.flight
  frames f hf hstop := by
    have hold := h.queued hopen f hf hstop
    simp only [known, tracked, lentAt_nil, append_nil, ← append_assoc] at hold
    exact hold
  crypto y hy i b hb := by
    have hold := h.crypto hopen y hy
    simp only [known, lentAt_nil, append_nil] at hold
    by_cases hi : i < (c.spaces y).sendCryptoOffset
    · exact .inr (hold.sent i hi b hb)
    · refine .inl ⟨?_, not_lt.mp hi⟩
      rw [hold.waiting, getElem?_drop, Nat.add_sub_cancel' (not_lt.mp hi)]
      exact hb

/-- In a run in which no Retry is taken after the client gave more Initial handshake data
than its first flight, every state that is open has lost nothing. -/
theorem nothing_lost {r : Role} {c : Connection} (hbegin : Begins r c) {calls : List Call}
    (hsound : ∀ call ∈ calls, call.Sound r) (hfirst : RunFirst calls c)
    (hopen : (c.run calls).closed = false) : Recovered (c.run calls) :=
  (hbegin.lending.run hsound hfirst).recovered hopen

lemma begins_greeting : Begins .client greeting := by
  have hc : newClient [1, 2, 3, 4, 5, 6, 7, 8] [9] 30000
      { crypto := [(.initial, [1, 0, 0, 1, 3])] } = some greeting := rfl
  refine .client (fun _ hsecret => ?_) hc
  obtain ⟨secret, hmem⟩ := hsecret
  exact absurd hmem not_mem_nil

/-- The first flight is lost, then the server asks for another one, which is lost as well. -/
def retriedRun : List Call :=
  [.timeout 1000, .datagram [.retry [8, 7, 6, 5, 4, 3, 2, 1] [7]] false, .timeout 3000]

theorem nothing_lost_greeting :
    (greeting.run retriedRun).closed = false ∧ Recovered (greeting.run retriedRun) := by
  have hopen : (greeting.run retriedRun).closed = false := by decide +kernel
  refine ⟨hopen, nothing_lost begins_greeting ?_ ?_ hopen⟩
  · intro call hcall
    simp only [retriedRun, mem_cons, not_mem_nil, or_false] at hcall
    rcases hcall with rfl | rfl | rfl
    · trivial
    · intro p hp
      rw [mem_singleton.mp hp]
      trivial
    · trivial
  · refine ⟨trivial, fun _ _ => ⟨fun _ => ?_, fun _ => trivial⟩, trivial, trivial⟩
    unfold OnlyHello
    decide +kernel

/-- The server asks for another first message, which the client gives, and then sends a
Retry. -/
def askedAgainRun : List Call :=
  [.datagram [.long .initial [9] [5] (some (0,
      [.crypto (some { crypto := [(.initial, [1, 0, 0, 1, 4])] })]))] false,
    .datagram [.retry [8, 7, 6, 5, 4, 3, 2, 1] [7]] false]

/-- `handle_retry` takes the Retry as long as there are no Handshake keys, and puts back the
first flight only: the second message is neither waiting nor in flight. -/
theorem retry_forgets_hello :
    ¬∀ (r : Role) (c : Connection) (calls : List Call), Begins r c →
      (∀ call ∈ calls, call.Sound r) → (c.run calls).closed = false →
      Recovered (c.run calls) := by
  intro h
  have hsound : ∀ call ∈ askedAgainRun, call.Sound .client := by
    intro call hcall
    simp only [askedAgainRun, mem_cons, not_mem_nil, or_false] at hcall
    rcases hcall with rfl | rfl
    · intro p hp
      rw [mem_singleton.mp hp]
      intro f hf
      rw [mem_singleton.mp hf]
      exact fun _ h => h.elim fun _ hmem => absurd hmem not_mem_nil
    · intro p hp
      rw [mem_singleton.mp hp]
      trivial
  have hlost := (h .client greeting askedAgainRun begins_greeting hsound
    (by decide +kernel)).crypto .initial (by decide +kernel) 9 4 (by decide +kernel)
  rcases hlost with ⟨hwaits, -⟩ | ⟨offset, data, hmem, hle, hbyte⟩
  · revert hwaits
    decide +kernel
  have hframes : ((greeting.run askedAgainRun).spaces .initial).rtx ++
      ((greeting.run askedAgainRun).spaces .initial).sent.flatMap SentPacket.frames ++
      (greeting.run askedAgainRun).trace.acked .initial = [.crypto 0 [1, 0, 0, 1, 3]] := by
    decide +kernel
  rw [hframes, mem_singleton] at hmem
  obtain ⟨rfl, rfl⟩ := Queued.crypto.inj hmem
  exact absurd hbyte (by decide)

end Connection

end OnetDns.Quic.Transport
