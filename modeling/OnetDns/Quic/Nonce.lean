import OnetDns.Quic.Transport

/-!
# Packet numbers under a key

No two packets are sealed with the same key and the same packet number. A space numbers
its packets upwards and starts again only when its keys are gone for good, with one
exception: a Retry starts the Initial space again under keys that the packet chooses.
-/
namespace OnetDns.Quic.Transport
open List Option SealKey

namespace Connection

variable {c c' c'' : Connection} {ps qs hist : List Packet}

/-- What a space says about keys. -/
structure SpaceKeys where
  send : Option SealKey
  recv : Bool
  received : Received
  discarded : Bool

/-- What a connection says about keys, but for the packet numbers. -/
structure KeyView where
  role : Role
  awaiting : Bool
  dcid : Bytes
  scid : Option Bytes
  retry : Bool
  complete : Bool
  confirmed : Bool
  early : Option SealKey
  spaces : Space → SpaceKeys

def spaceKeys (s : SpaceState) : SpaceKeys := ⟨s.sendKeys, s.recvKeys, s.received, s.discarded⟩

def keyView (c : Connection) : KeyView :=
  ⟨c.role, c.awaitingInitial, c.initialDcid, c.retryScid, c.retryDone, c.handshakeComplete,
    c.handshakeConfirmed, c.earlySendKeys, fun x => spaceKeys (c.spaces x)⟩

/-- From one state to the other these packets are made, and nothing else about keys
happens. -/
structure Sends (c : Connection) (ps : List Packet) (c' : Connection) : Prop where
  same : c'.keyView = c.keyView
  emitted : c'.trace.emitted = c.trace.emitted
  grows : ∀ x, (c.spaces x).nextPn ≤ (c'.spaces x).nextPn
  keyed : ∀ p ∈ ps, (c.spaces p.key.space).sendKeys = some p.key ∨ c.earlySendKeys = some p.key
  range : ∀ p ∈ ps, (c.spaces p.key.space).nextPn ≤ p.pn ∧ p.pn < (c'.spaces p.key.space).nextPn
  distinct : ps.Pairwise fun p q => p.key.space = q.key.space → p.pn < q.pn

section Same

variable (h : c'.keyView = c.keyView)
include h

variable (x : Space)

lemma same_spaceKeys : spaceKeys (c'.spaces x) = spaceKeys (c.spaces x) :=
  congrFun (congrArg KeyView.spaces h) x

lemma same_sendKeys : (c'.spaces x).sendKeys = (c.spaces x).sendKeys :=
  congrArg SpaceKeys.send (same_spaceKeys h x)

lemma same_recvKeys : (c'.spaces x).recvKeys = (c.spaces x).recvKeys :=
  congrArg SpaceKeys.recv (same_spaceKeys h x)

lemma same_received : (c'.spaces x).received = (c.spaces x).received :=
  congrArg SpaceKeys.received (same_spaceKeys h x)

lemma same_discarded : (c'.spaces x).discarded = (c.spaces x).discarded :=
  congrArg SpaceKeys.discarded (same_spaceKeys h x)

lemma same_early : c'.earlySendKeys = c.earlySendKeys := congrArg KeyView.early h

lemma same_scid : c'.retryScid = c.retryScid := congrArg KeyView.scid h

lemma same_dcid : c'.initialDcid = c.initialDcid := congrArg KeyView.dcid h

end Same

lemma Sends.refl (c : Connection) : Sends c [] c where
  same := rfl
  emitted := rfl
  grows := fun _ => le_rfl
  keyed := fun _ h => absurd h not_mem_nil
  range := fun _ h => absurd h not_mem_nil
  distinct := Pairwise.nil

lemma Sends.trans (h : Sends c ps c') (h' : Sends c' qs c'') : Sends c (ps ++ qs) c'' where
  same := h'.same.trans h.same
  emitted := h'.emitted.trans h.emitted
  grows := fun x => (h.grows x).trans (h'.grows x)
  keyed := by
    intro p hp
    rcases mem_append.mp hp with hp | hp
    · exact h.keyed p hp
    · rw [← same_sendKeys h.same, ← same_early h.same]
      exact h'.keyed p hp
  range := by
    intro p hp
    rcases mem_append.mp hp with hp | hp
    · exact ⟨(h.range p hp).1, (h.range p hp).2.trans_le (h'.grows _)⟩
    · exact ⟨(h.grows _).trans (h'.range p hp).1, (h'.range p hp).2⟩
  distinct := by
    refine pairwise_append.mpr ⟨h.distinct, h'.distinct, ?_⟩
    intro p hp q hq hspace
    have hlow := (h'.range q hq).1
    have hhigh := (h.range p hp).2
    rw [hspace] at hhigh
    omega

lemma Sends.to (h : Sends c ps c') (hview : c''.keyView = c'.keyView)
    (hnext : ∀ x, (c''.spaces x).nextPn = (c'.spaces x).nextPn)
    (hemitted : c''.trace.emitted = c'.trace.emitted) : Sends c ps c'' where
  same := hview.trans h.same
  emitted := hemitted.trans h.emitted
  grows := fun x => (h.grows x).trans_eq (hnext x).symm
  __ := h
  range := fun p hp => ⟨(h.range p hp).1, (h.range p hp).2.trans_eq (hnext _).symm⟩

lemma Sends.still (h : (c'.keyView, fun x => (c'.spaces x).nextPn, c'.trace.emitted) =
    (c.keyView, fun x => (c.spaces x).nextPn, c.trace.emitted)) : Sends c [] c' := by
  simp only [Prod.mk.injEq] at h
  exact (Sends.refl c).to h.1 (congrFun h.2.1) h.2.2

lemma Sends.then_quiet (h : Sends c ps c') (h' : Sends c' [] c'') : Sends c ps c'' := by
  have htrans := h.trans h'
  rwa [append_nil] at htrans

lemma Sends.after_quiet (h : Sends c [] c') (h' : Sends c' ps c'') : Sends c ps c'' := h.trans h'

lemma Sends.foldl {α : Type} {f : Connection → α → Connection}
    (hf : ∀ c a, Sends c [] (f c a)) (l : List α) (c : Connection) : Sends c [] (l.foldl f c) := by
  induction l generalizing c with
  | nil => exact refl c
  | cons a l ih => exact (hf c a).then_quiet (ih (f c a))

variable {x : Space} {s : SpaceState}

lemma Sends.setSpace (hkeys : spaceKeys s = spaceKeys (c.spaces x))
    (hnext : (c.spaces x).nextPn ≤ s.nextPn) : Sends c [] (c.setSpace x s) where
  same := by
    have hspaces : (fun y => spaceKeys ((c.setSpace x s).spaces y)) =
        fun y => spaceKeys (c.spaces y) := by
      funext y
      rcases eq_or_ne y x with rfl | hne
      · rw [setSpace_self, hkeys]
      · rw [setSpace_of_ne c s hne]
    exact congrArg (KeyView.mk c.role c.awaitingInitial c.initialDcid c.retryScid c.retryDone
      c.handshakeComplete c.handshakeConfirmed c.earlySendKeys) hspaces
  emitted := rfl
  grows := by
    intro y
    rcases eq_or_ne y x with rfl | hne
    · rw [setSpace_self]
      exact hnext
    · rw [setSpace_of_ne c s hne]
  keyed := fun _ h => absurd h not_mem_nil
  range := fun _ h => absurd h not_mem_nil
  distinct := Pairwise.nil

section

variable (c x)

lemma sends_trackSent (pn : ℕ) (ackEliciting : Bool) (size : ℕ)
    (frames : List Queued) : Sends c [] (c.trackSent x pn ackEliciting size frames) := by
  unfold trackSent
  split
  · exact .refl c
  · refine .to (.setSpace (c := c) (x := x) (s := { c.spaces x with
      lastAckElicitingMs := c.nowMs
      sent := (c.spaces x).sent ++ [⟨pn, c.nowMs, ackEliciting, size, frames⟩] }) rfl le_rfl)
      rfl (fun _ => rfl) rfl

lemma sends_discardSendOutput : Sends c [] c.discardSendOutput := .still rfl

lemma sends_updateRtt (sampleMs ackDelayMs : ℕ) :
    Sends c [] (c.updateRtt sampleMs ackDelayMs) := by
  unfold updateRtt
  dsimp only
  split <;> exact .still rfl

lemma sends_onCcAck (acked : ℕ) : Sends c [] (c.onCcAck acked) := by
  unfold onCcAck
  split <;> exact .still rfl

lemma sends_requeueLost (lost : List SentPacket) :
    Sends c [] (c.requeueLost x lost) := by
  have hspace : Sends c [] (c.setSpace x { c.spaces x with
      rtx := (c.spaces x).rtx ++ lost.flatMap SentPacket.frames }) := .setSpace rfl le_rfl
  unfold requeueLost
  dsimp only
  split
  · exact hspace.to rfl (fun _ => rfl) rfl
  · exact hspace.to rfl (fun _ => rfl) rfl

lemma sends_detectLost : Sends c [] (c.detectLost x) := by
  unfold detectLost
  split
  · exact .refl c
  rename_i largestAcked _
  have hkeep : Sends c [] (c.keepUnlost x largestAcked) := .setSpace rfl le_rfl
  dsimp only
  split
  · exact hkeep
  · exact hkeep.then_quiet (sends_requeueLost _ _ _)

lemma sends_measure (delay : ℕ) (newest : Option ℕ) :
    Sends c [] (c.measure x delay newest) := by
  cases newest with
  | none => exact .refl c
  | some sentMs => exact sends_updateRtt c _ _

lemma sends_afterAck (delay : ℕ) (gone : List SentPacket)
    (newest : Option ℕ) : Sends c [] (c.afterAck x delay gone newest) := by
  set c₁ : Connection := { c with
    bytesInFlight := c.bytesInFlight - (gone.map SentPacket.size).sum }
  have hbytes : Sends c [] c₁ := .still rfl
  have hmeasure := hbytes.then_quiet (sends_measure c₁ x delay newest)
  refine .then_quiet ?_ (sends_detectLost _ x)
  split
  · refine .then_quiet ?_ (sends_onCcAck _ _)
    exact hmeasure.to rfl (fun _ => rfl) rfl
  · exact hmeasure.to rfl (fun _ => rfl) rfl

end

lemma sends_onAck {largest delay firstRange : ℕ} {ranges : List (ℕ × ℕ)}
    (h : c.onAck x largest delay firstRange ranges = some c') : Sends c [] c' := by
  unfold onAck at h
  dsimp only at h
  split at h
  · exact absurd h (by simp)
  obtain ⟨acked, -, rfl⟩ := map_eq_some_iff.mp h
  have htake : Sends c [] (c.takeAcked x largest acked) :=
    (Sends.setSpace (c := c) (x := x) (s := { c.spaces x with
      sent := (c.spaces x).sent.filter fun sp => !isAcked acked sp.pn
      largestAcked := some (max ((c.spaces x).largestAcked.getD largest) largest) })
      rfl le_rfl).to rfl (fun _ => rfl) rfl
  split
  · exact htake
  · exact htake.then_quiet (sends_afterAck _ _ _ _ _)

lemma sends_queueProbe (c : Connection) (x : Space) : Sends c [] (c.queueProbe x) :=
  .setSpace rfl le_rfl

lemma sends_pushApp (c : Connection) (f : Frame) : Sends c [] (c.pushApp f) := .still rfl

lemma sends_apply (c : Connection) (effect : StreamEffect) : Sends c [] (c.apply effect) := by
  cases effect with
  | push f => exact sends_pushApp c f
  | queue f =>
    unfold apply queueAppFrame
    dsimp only
    split
    · exact .still rfl
    · exact sends_pushApp c f
  | stop id errorCode finalSize => exact .still rfl

lemma sends_addCrypto (c : Connection) (given : Space × Bytes) :
    Sends c [] (c.addCrypto given) := by
  unfold addCrypto
  dsimp only
  split
  · exact .refl c
  · exact (Sends.setSpace (c := c) (x := given.1) (s := { c.spaces given.1 with
      outCrypto := (c.spaces given.1).outCrypto ++ given.2 }) rfl le_rfl).to rfl (fun _ => rfl) rfl

/-- Every key is in its own space. -/
structure Home (c : Connection) : Prop where
  send : ∀ x k, (c.spaces x).sendKeys = some k → k.space = x
  early : ∀ k, c.earlySendKeys = some k → k.space = .app

lemma Home.same (h : Home c) (hsame : c'.keyView = c.keyView) : Home c' where
  send := fun x k hk => h.send x k ((same_sendKeys hsame x).symm.trans hk)
  early := fun k hk => h.early k ((same_early hsame).symm.trans hk)

lemma Sends.one {p : Packet} (hkeys : spaceKeys s = spaceKeys (c.spaces x))
    (hnext : s.nextPn = (c.spaces x).nextPn + 1) (hspace : p.key.space = x)
    (hpn : p.pn = (c.spaces x).nextPn)
    (hkey : (c.spaces x).sendKeys = some p.key ∨ c.earlySendKeys = some p.key) :
    Sends c [p] (c.setSpace x s) := by
  have hquiet : Sends c [] (c.setSpace x s) := setSpace hkeys (by omega)
  refine { hquiet with keyed := ?_, range := ?_, distinct := pairwise_singleton _ _ }
  · intro q hq
    rw [mem_singleton.mp hq, hspace]
    exact hkey
  · intro q hq
    rw [mem_singleton.mp hq, hspace, setSpace_self, hpn, hnext]
    exact ⟨le_rfl, Nat.lt_succ_self _⟩

lemma takeAck_keys (s : SpaceState) :
    spaceKeys (takeAck s).1 = spaceKeys s ∧ (takeAck s).1.nextPn = s.nextPn := by
  unfold takeAck
  split <;> exact ⟨rfl, rfl⟩

lemma appendCryptoChunk_keys (s : SpaceState) (packing : Packing) :
    spaceKeys (appendCryptoChunk s packing).1 = spaceKeys s ∧
      (appendCryptoChunk s packing).1.nextPn = s.nextPn := by
  unfold appendCryptoChunk
  split
  · exact ⟨rfl, rfl⟩
  · dsimp only
    split <;> exact ⟨rfl, rfl⟩

lemma fill_keys (c : Connection) (x : Space) (probe : ℕ) (along : Bytes) :
    spaceKeys (c.fill x probe along).1 = spaceKeys (c.spaces x) ∧
      (c.fill x probe along).1.nextPn = (c.spaces x).nextPn := by
  have hack := takeAck_keys (c.spaces x)
  unfold fill
  dsimp only
  split
  · have hcrypto := appendCryptoChunk_keys { (takeAck (c.spaces x)).1 with
      rtx := (appendQueuedFrames (takeAck (c.spaces x)).1.rtx
        { payload := (takeAck (c.spaces x)).2 ++ along }).1 }
      (appendQueuedFrames (takeAck (c.spaces x)).1.rtx
        { payload := (takeAck (c.spaces x)).2 ++ along }).2
    exact ⟨hcrypto.1.trans hack.1, hcrypto.2.trans hack.2⟩
  · exact hack

/-- The packet that `emit` sends has the number of its space. -/
theorem sends_emit {packing : Packing} {pkt : Packet} {probe : ℕ}
    (hkeys : spaceKeys s = spaceKeys (c.spaces x)) (hnext : s.nextPn = (c.spaces x).nextPn)
    (hspace : pkt.key.space = x) (hpn : pkt.pn = s.nextPn)
    (hkey : (c.spaces x).sendKeys = some pkt.key ∨ c.earlySendKeys = some pkt.key) :
    Sends c [pkt] (c.emit x s packing pkt probe).1 := by
  have hone : Sends c [pkt] (c.setSpace x { s with nextPn := s.nextPn + 1 }) := by
    refine .one hkeys ?_ hspace (hpn.trans hnext) hkey
    rw [hnext]
  exact hone.then_quiet (sends_trackSent _ _ _ _ _ _)

lemma padded_key (pkt : Packet) (padTo : ℕ) :
    (Packet.padded pkt padTo).key = pkt.key ∧ (Packet.padded pkt padTo).pn = pkt.pn := by
  unfold Packet.padded
  split <;> exact ⟨rfl, rfl⟩

lemma sends_buildLongPacket (x : Space) (padTo : ℕ) (sending : Sending) (h : Home sending.1) :
    Sends sending.1 (buildLongPacket x padTo sending).1.toList
      (buildLongPacket x padTo sending).2.1 := by
  obtain ⟨c, probe⟩ := sending
  have hfill := fill_keys c x probe []
  unfold buildLongPacket
  dsimp only
  split
  · exact .refl c
  rename_i key hkey
  split
  · exact .setSpace hfill.1 hfill.2.ge
  have hpad := padded_key ⟨if x = .initial then .initial else .handshake, key,
    (c.fill x probe []).1.nextPn, c.remoteCid, c.localCid,
    if x = .initial then c.retryToken else [], false, (c.fill x probe []).2.payload⟩ padTo
  refine sends_emit hfill.1 hfill.2 ?_ hpad.2 ?_
  · rw [hpad.1]
    exact h.send x key hkey
  · rw [hpad.1]
    exact .inl hkey

lemma sends_buildZeroRttPacket (sending : Sending) (h : Home sending.1) :
    Sends sending.1 (buildZeroRttPacket sending).1.toList (buildZeroRttPacket sending).2.1 := by
  obtain ⟨c, probe⟩ := sending
  unfold buildZeroRttPacket
  dsimp only
  split
  · exact Sends.refl c
  split
  · exact Sends.refl c
  rename_i key hkey
  have hrest : Sends c []
      { c with outFramesEarly := (appendQueuedFrames c.outFramesEarly {}).1 } :=
    .still rfl
  split
  · exact hrest
  have hsent : Sends c [] { c with
      outFramesEarly := (appendQueuedFrames c.outFramesEarly {}).1
      earlySent := true } := hrest.to rfl (fun _ => rfl) rfl
  apply hsent.after_quiet
  exact sends_emit rfl rfl (h.early key hkey) rfl (.inr hkey)

lemma sends_buildShortPacket (sending : Sending) (h : Home sending.1) :
    Sends sending.1 (buildShortPacket sending).1.toList (buildShortPacket sending).2.1 := by
  obtain ⟨c, probe⟩ := sending
  have hfill := fill_keys c .app probe (c.closeFrame.getD [])
  unfold buildShortPacket
  dsimp only
  split
  · exact Sends.refl c
  rename_i key hkey
  set queue := if (c.canSendNew || decide (0 < probe)) = true then
    appendQueuedFrames c.outFramesApp (c.fill .app probe (c.closeFrame.getD [])).2
    else (c.outFramesApp, (c.fill .app probe (c.closeFrame.getD [])).2)
  have hqueue : Sends c [] { c with outFramesApp := queue.1, closeFrame := none } := .still rfl
  split
  · exact hqueue.then_quiet (.setSpace hfill.1 hfill.2.ge)
  · exact .after_quiet hqueue (sends_emit hfill.1 hfill.2 (h.send .app key hkey) rfl (.inl hkey))

lemma sends_drain {build : Sending → Option Packet × Sending}
    (hbuild : ∀ sending, Home sending.1 → Sends sending.1 (build sending).1.toList
      (build sending).2.1) (fuel : ℕ) (sending : Sending) (h : Home sending.1) :
    Sends sending.1 (drain build fuel sending).1 (drain build fuel sending).2.1 := by
  induction fuel generalizing sending with
  | zero => exact .refl sending.1
  | succ fuel ih =>
    have hone := hbuild sending h
    rw [drain]
    cases hresult : build sending with
    | mk made next =>
      rw [hresult] at hone
      cases made with
      | none => exact hone
      | some pkt => exact hone.trans (ih next (h.same hone.same))

/-- No packet will be sealed with this key again. -/
def Retired (c : Connection) (key : SealKey) : Prop :=
  (c.spaces key.space).discarded = true ∨
    ∃ cid scid, key = .initial cid ∧ c.retryScid = some scid ∧ scid ≠ cid

/-- The number of the packet is used up. -/
def Spent (c : Connection) (p : Packet) : Prop :=
  p.pn < (c.spaces p.key.space).nextPn ∨ c.Retired p.key

/-- A server that has seen no packet. -/
structure Waiting (c : Connection) : Prop where
  server : c.role = .server
  complete : c.handshakeComplete = false
  confirmed : c.handshakeConfirmed = false
  initial : (c.spaces .initial).discarded = false
  keys : ∀ x, (c.spaces x).sendKeys = none
  recv : ∀ x, (c.spaces x).recvKeys = false
  early : c.earlySendKeys = none
  scid : c.retryScid = none
  handshake : (c.spaces .handshake).received.largest = none

/-- The packets of the history have different nonces, and none can come again. -/
structure Nonces (c : Connection) (hist : List Packet) : Prop where
  unique : hist.Pairwise fun p q => p.key = q.key → p.pn ≠ q.pn
  spent : ∀ p ∈ hist, c.Spent p
  home : Home c
  live : ∀ x k, (c.spaces x).sendKeys = some k → ¬c.Retired k
  app : (c.spaces .app).discarded = false
  origin : c.retryScid = none → ∀ cid,
    (∀ p ∈ hist, p.key = .initial cid → cid = c.initialDcid) ∧
      ((c.spaces .initial).sendKeys = some (.initial cid) → cid = c.initialDcid)
  fresh : c.retryDone = false → c.retryScid = none
  waiting : c.awaitingInitial = true → Waiting c ∧ hist = []

lemma Retired.same (hsame : c'.keyView = c.keyView) {key : SealKey} :
    c'.Retired key ↔ c.Retired key := by
  unfold Retired
  rw [same_discarded hsame, same_scid hsame]

lemma Waiting.same (h : Waiting c) (hsame : c'.keyView = c.keyView) : Waiting c' where
  server := (congrArg KeyView.role hsame).trans h.server
  complete := (congrArg KeyView.complete hsame).trans h.complete
  confirmed := (congrArg KeyView.confirmed hsame).trans h.confirmed
  initial := (same_discarded hsame _).trans h.initial
  keys := fun x => (same_sendKeys hsame x).trans (h.keys x)
  recv := fun x => (same_recvKeys hsame x).trans (h.recv x)
  early := (same_early hsame).trans h.early
  scid := (same_scid hsame).trans h.scid
  handshake := by
    rw [same_received hsame]
    exact h.handshake

lemma Waiting.sends (h : Waiting c) (hsends : Sends c ps c') : ps = [] := by
  cases ps with
  | nil => rfl
  | cons p rest =>
    have hkeyed := hsends.keyed p mem_cons_self
    rw [h.keys, h.early] at hkeyed
    simp at hkeyed

section

variable (h : Nonces c hist)
include h

lemma Nonces.sends (hsends : Sends c ps c') : Nonces c' (hist ++ ps) := by
  have hhome := h.home.same hsends.same
  have hspent : ∀ p, c.Spent p → c'.Spent p := by
    intro p hp
    rcases hp with hlt | hretired
    · exact .inl (hlt.trans_le (hsends.grows _))
    · exact .inr ((Retired.same hsends.same).mpr hretired)
  have hnotRetired : ∀ p ∈ ps, ¬c.Retired p.key := by
    intro p hp
    rcases hsends.keyed p hp with hkey | hkey
    · exact h.live _ _ hkey
    rintro (hdiscarded | ⟨cid, -, heq, -⟩)
    · rw [h.home.early _ hkey, h.app] at hdiscarded
      exact absurd hdiscarded (by decide)
    · have hspace := h.home.early _ hkey
      rw [heq] at hspace
      exact absurd hspace (by simp [space])
  refine ⟨?_, ?_, hhome, ?_, ?_, ?_, ?_, ?_⟩
  · refine pairwise_append.mpr ⟨h.unique, ?_, ?_⟩
    · refine hsends.distinct.imp ?_
      intro p q hlt hkey
      exact (hlt (congrArg space hkey)).ne
    intro p hp q hq hkey
    rcases h.spent p hp with hlt | hretired
    · have hlow := (hsends.range q hq).1
      rw [hkey] at hlt
      omega
    · rw [hkey] at hretired
      exact absurd hretired (hnotRetired q hq)
  · intro p hp
    rcases mem_append.mp hp with hp | hp
    · exact hspent p (h.spent p hp)
    · exact .inl (hsends.range p hp).2
  · intro x k hk
    rw [Retired.same hsends.same]
    exact h.live x k ((same_sendKeys hsends.same x).symm.trans hk)
  · exact (same_discarded hsends.same _).trans h.app
  · intro hnone cid
    rw [same_scid hsends.same] at hnone
    rw [same_dcid hsends.same, same_sendKeys hsends.same]
    refine ⟨?_, (h.origin hnone cid).2⟩
    intro p hp hkey
    rcases mem_append.mp hp with hp | hp
    · exact (h.origin hnone cid).1 p hp hkey
    rcases hsends.keyed p hp with hsend | hearly
    · rw [hkey] at hsend
      exact (h.origin hnone cid).2 hsend
    · have hspace := h.home.early _ hearly
      rw [hkey] at hspace
      exact absurd hspace (by simp [space])
  · intro hdone
    rw [same_scid hsends.same]
    exact h.fresh ((congrArg KeyView.retry hsends.same).symm.trans hdone)
  · intro hawaiting
    have hold := h.waiting ((congrArg KeyView.awaiting hsends.same).symm.trans hawaiting)
    refine ⟨hold.1.same hsends.same, ?_⟩
    rw [hold.2, hold.1.sends hsends]
    rfl

lemma Nonces.quiet (hsends : Sends c [] c') : Nonces c' hist := by
  have hnext := h.sends hsends
  rwa [append_nil] at hnext

/-- Sending keys stay, other keys may come. -/
theorem Nonces.keep (hsend : ∀ x, (c'.spaces x).sendKeys = (c.spaces x).sendKeys)
    (hdiscarded : ∀ x, (c'.spaces x).discarded = (c.spaces x).discarded)
    (hnext : ∀ x, (c'.spaces x).nextPn = (c.spaces x).nextPn) (hscid : c'.retryScid = c.retryScid)
    (hdcid : c'.initialDcid = c.initialDcid) (hretry : c'.retryDone = c.retryDone)
    (hearly : ∀ k, c'.earlySendKeys = some k → k.space = .app)
    (hwaiting : c'.awaitingInitial = true → c.awaitingInitial = true ∧ (Waiting c → Waiting c')) :
    Nonces c' hist := by
  have hretired : ∀ k, c'.Retired k ↔ c.Retired k := by
    intro k
    unfold Retired
    rw [hdiscarded, hscid]
  refine ⟨h.unique, ?_, ⟨?_, hearly⟩, ?_, ?_, ?_, ?_, ?_⟩
  · intro p hp
    unfold Spent
    rw [hretired, hnext]
    exact h.spent p hp
  · intro x k hk
    exact h.home.send x k ((hsend x).symm.trans hk)
  · intro x k hk
    rw [hretired]
    exact h.live x k ((hsend x).symm.trans hk)
  · exact (hdiscarded .app).trans h.app
  · rw [hscid, hdcid, hsend]
    exact h.origin
  · rw [hretry, hscid]
    exact h.fresh
  · intro hawaiting
    obtain ⟨hold, hstay⟩ := hwaiting hawaiting
    exact ⟨hstay (h.waiting hold).1, (h.waiting hold).2⟩

lemma Nonces.install (hwait : c.awaitingInitial = false) {k : SealKey} (hx : x ≠ .initial) (hk : k.space = x)
    (hsend : s.sendKeys = some k) (hnext : s.nextPn = (c.spaces x).nextPn)
    (hold : (c.spaces x).discarded = false) (hdiscarded : s.discarded = false) :
    Nonces (c.setSpace x s) hist := by
  have hnexts : ∀ y, ((c.setSpace x s).spaces y).nextPn = (c.spaces y).nextPn := by
    intro y
    rcases eq_or_ne y x with rfl | hne
    · rw [setSpace_self, hnext]
    · rw [setSpace_of_ne c s hne]
  have hdiscards : ∀ y, ((c.setSpace x s).spaces y).discarded = (c.spaces y).discarded := by
    intro y
    rcases eq_or_ne y x with rfl | hne
    · rw [setSpace_self, hdiscarded, hold]
    · rw [setSpace_of_ne c s hne]
  have hretired : ∀ key, (c.setSpace x s).Retired key ↔ c.Retired key := by
    intro key
    unfold Retired
    rw [hdiscards]
    rfl
  refine ⟨h.unique, ?_, ⟨?_, h.home.early⟩, ?_, (hdiscards .app).trans h.app, ?_, h.fresh, ?_⟩
  · intro p hp
    unfold Spent
    rw [hretired, hnexts]
    exact h.spent p hp
  · intro y key hkey
    rcases eq_or_ne y x with rfl | hne
    · rw [setSpace_self, hsend, some.injEq] at hkey
      rw [← hkey, hk]
    · rw [setSpace_of_ne c s hne] at hkey
      exact h.home.send y key hkey
  · intro y key hkey
    rw [hretired]
    rcases eq_or_ne y x with rfl | hne
    · rw [setSpace_self, hsend, some.injEq] at hkey
      subst hkey
      rintro (hgone | ⟨cid, -, rfl, -⟩)
      · rw [hk, hold] at hgone
        exact absurd hgone (by decide)
      · exact hx hk.symm
    · rw [setSpace_of_ne c s hne] at hkey
      exact h.live y key hkey
  · rw [setSpace_of_ne c s hx.symm]
    exact h.origin
  · intro hawaiting
    exact absurd (hwait.symm.trans hawaiting) (by decide)

lemma Nonces.discardSpace (hwait : c.awaitingInitial = false)
    (hx : x ≠ .app) : Nonces (c.discardSpace x) hist := by
  have hself : (c.discardSpace x).spaces x = { discarded := true } := setSpace_self c x _
  have hother : ∀ y, y ≠ x → (c.discardSpace x).spaces y = c.spaces y :=
    fun y hne => setSpace_of_ne c _ hne
  have hretired : ∀ key, c.Retired key → (c.discardSpace x).Retired key := by
    rintro key (hgone | hscid)
    · left
      rcases eq_or_ne key.space x with heq | hne
      · rw [heq, hself]
      · rw [hother _ hne]
        exact hgone
    · exact .inr hscid
  have hback : ∀ key, key.space ≠ x → (c.discardSpace x).Retired key → c.Retired key := by
    rintro key hne (hgone | hscid)
    · rw [hother _ hne] at hgone
      exact .inl hgone
    · exact .inr hscid
  refine ⟨h.unique, ?_, ⟨?_, h.home.early⟩, ?_, ?_, ?_, h.fresh, ?_⟩
  · intro p hp
    rcases eq_or_ne p.key.space x with heq | hne
    · refine .inr (.inl ?_)
      rw [heq, hself]
    rcases h.spent p hp with hlt | hold
    · refine .inl ?_
      rw [hother _ hne]
      exact hlt
    · exact .inr (hretired _ hold)
  · intro y key hkey
    rcases eq_or_ne y x with rfl | hne
    · rw [hself] at hkey
      exact absurd hkey (by simp)
    · rw [hother y hne] at hkey
      exact h.home.send y key hkey
  · intro y key hkey
    rcases eq_or_ne y x with rfl | hne
    · rw [hself] at hkey
      exact absurd hkey (by simp)
    · rw [hother y hne] at hkey
      have hspace := h.home.send y key hkey
      exact fun hgone => h.live y key hkey (hback key (by rw [hspace]; exact hne) hgone)
  · rw [hother _ hx.symm]
    exact h.app
  · intro hnone cid
    refine ⟨(h.origin hnone cid).1, ?_⟩
    intro hkey
    rcases eq_or_ne .initial x with rfl | hne
    · rw [hself] at hkey
      exact absurd hkey (by simp)
    · rw [hother _ hne] at hkey
      exact (h.origin hnone cid).2 hkey
  · intro hawaiting
    exact absurd (hwait.symm.trans hawaiting) (by decide)

lemma Nonces.not_waiting (hnot : ¬Waiting c) : c.awaitingInitial = false := by
  cases hawaiting : c.awaitingInitial with
  | false => rfl
  | true => exact absurd (h.waiting hawaiting).1 hnot

lemma Nonces.client (hrole : c.role = .client) : c.awaitingInitial = false :=
  h.not_waiting fun hwait => absurd (hwait.server.symm.trans hrole) (by decide)

lemma Nonces.discardOnce (hwait : c.awaitingInitial = false) (hx : x ≠ .app) :
    Nonces (c.discardOnce x) hist ∧ (c.discardOnce x).awaitingInitial = false := by
  unfold Connection.discardOnce
  split
  · exact ⟨h, hwait⟩
  · exact ⟨h.discardSpace hwait hx, hwait⟩

lemma Nonces.discardFinishedSpaces : Nonces c.discardFinishedSpaces hist := by
  unfold Connection.discardFinishedSpaces
  set c₁ := if c.role = .server ∧ (c.spaces .handshake).received.largest.isSome then
    c.discardOnce .initial else c with hc₁
  have hfirst : Nonces c₁ hist := by
    rw [hc₁]
    split
    · rename_i hcond
      refine (h.discardOnce (h.not_waiting ?_) (by decide)).1
      intro hwait
      rw [hwait.handshake] at hcond
      exact absurd hcond.2 (by simp)
    · exact h
  dsimp only
  split
  · rename_i hconfirmed
    have hwait : c₁.awaitingInitial = false := hfirst.not_waiting fun hw =>
      absurd (hw.confirmed.symm.trans hconfirmed) (by decide)
    obtain ⟨hsecond, hwait'⟩ := hfirst.discardOnce (x := .initial) hwait (by decide)
    exact (hsecond.discardOnce hwait' (by decide)).1
  · exact hfirst

end

lemma Nonces.flushPackets (h : Nonces c c.trace.emitted) (probe : ℕ) :
    Nonces (c.flushPackets probe) (c.flushPackets probe).trace.emitted := by
  unfold Connection.flushPackets
  split
  · exact h
  dsimp only
  set pad := if c.role = .client ∧ (c.spaces .initial).nextPn = 0 then minInitialDatagram else 0
  set one := buildLongPacket .initial pad (c, probe)
  have hone : Sends c one.1.toList one.2.1 := sends_buildLongPacket .initial pad (c, probe) h.home
  have hafter := h.sends hone
  set early := drain buildZeroRttPacket (one.2.1.backlog + 1) one.2
  have hearly : Sends one.2.1 early.1 early.2.1 :=
    sends_drain sends_buildZeroRttPacket _ _ hafter.home
  have hafter' := hafter.sends hearly
  set shake := drain (buildLongPacket .handshake 0) (early.2.1.backlog + 1) early.2
  have hshake : Sends early.2.1 shake.1 shake.2.1 :=
    sends_drain (sends_buildLongPacket .handshake 0) _ _ hafter'.home
  have hafter'' := hafter'.sends hshake
  have hrole : shake.2.1.role = c.role :=
    (congrArg KeyView.role hshake.same).trans
      ((congrArg KeyView.role hearly.same).trans (congrArg KeyView.role hone.same))
  have hemitted : shake.2.1.trace.emitted = c.trace.emitted :=
    hshake.emitted.trans (hearly.emitted.trans hone.emitted)
  set kept : Sending := if shake.1 ≠ [] ∧ c.role = .client ∧
      (shake.2.1.spaces .initial).discarded = false then
    (shake.2.1.discardSpace .initial, shake.2.2) else shake.2 with hkept
  have hnow : Nonces kept.1 (c.trace.emitted ++ one.1.toList ++ early.1 ++ shake.1) ∧
      kept.1.trace.emitted = c.trace.emitted := by
    rw [hkept]
    split
    · rename_i hcond
      exact ⟨hafter''.discardSpace (hafter''.client (hrole.trans hcond.2.1)) (by decide), hemitted⟩
    · exact ⟨hafter'', hemitted⟩
  have hshort := sends_drain sends_buildShortPacket (kept.1.backlog + 1) kept hnow.1.home
  set short := drain buildShortPacket (kept.1.backlog + 1) kept
  have hlast := hnow.1.sends hshort
  have hhist : short.2.1.trace.emitted ++ (one.1.toList ++ early.1 ++ shake.1 ++ short.1) =
      c.trace.emitted ++ one.1.toList ++ early.1 ++ shake.1 ++ short.1 := by
    rw [hshort.emitted, hnow.2]
    simp only [append_assoc]
  rw [hhist]
  exact hlast.keep (fun _ => rfl) (fun _ => rfl) (fun _ => rfl) rfl rfl rfl hlast.home.early
    (fun hawaiting => ⟨hawaiting, fun hwait => hwait.same rfl⟩)

section

variable (h : Nonces c hist)
include h

lemma Nonces.installSecrets (hwait : c.awaitingInitial = false) (given : LevelSecret) :
    Nonces (c.installSecrets given) hist ∧ (c.installSecrets given).awaitingInitial = false := by
  cases given with
  | handshake secret =>
    unfold Connection.installSecrets
    dsimp only
    split
    · exact ⟨h, hwait⟩
    · rename_i hdiscarded
      rw [Bool.not_eq_true] at hdiscarded
      exact ⟨h.install hwait (by decide) rfl rfl rfl hdiscarded hdiscarded, hwait⟩
  | app secret =>
    have hinstall := h.install (x := .app) (s := (c.spaces .app).withKeys (.oneRtt secret 0)) hwait
      (by decide) rfl rfl rfl h.app h.app
    unfold Connection.installSecrets
    dsimp only
    split
    · exact ⟨h, hwait⟩
    · refine ⟨hinstall.keep (fun _ => rfl) (fun _ => rfl) (fun _ => rfl) rfl rfl rfl
        hinstall.home.early ?_, hwait⟩
      exact fun hawaiting => absurd (hwait.symm.trans hawaiting) (by decide)

lemma Nonces.updateSendKeys : Nonces c.updateSendKeys hist := by
  unfold Connection.updateSendKeys
  split
  · rename_i secret generation _ hsecret hkey
    have hwait : c.awaitingInitial = false := h.not_waiting fun hw =>
      absurd ((hw.keys .app).symm.trans hkey) (by simp)
    have hinstall := h.install (x := .app) (s := { c.spaces .app with
      sendKeys := some (.oneRtt secret (generation + 1)) }) hwait (by decide) rfl rfl rfl h.app h.app
    refine hinstall.keep (fun _ => rfl) (fun _ => rfl) (fun _ => rfl) rfl rfl rfl
      hinstall.home.early ?_
    exact fun hawaiting => absurd (hwait.symm.trans hawaiting) (by decide)
  · exact h

lemma Nonces.commitKeyUpdate : Nonces c.commitKeyUpdate hist := by
  unfold Connection.commitKeyUpdate
  set c₁ := if (c.spaces .app).recvKeys then { c with recvKeyPhase := !c.recvKeyPhase } else c
    with hc₁
  have hfirst : Nonces c₁ hist := by
    rw [hc₁]
    split
    · exact h.quiet (.still rfl)
    · exact h
  dsimp only
  split
  · exact hfirst.updateSendKeys
  · exact hfirst

section

variable (hwait : c.awaitingInitial = false)
include hwait

/-- Once a connection has seen a packet, the state of its handshake and its early keys are
free to change. -/
theorem Nonces.settled (hspaces : ∀ x, spaceKeys (c'.spaces x) = spaceKeys (c.spaces x))
    (hnext : ∀ x, (c'.spaces x).nextPn = (c.spaces x).nextPn) (hscid : c'.retryScid = c.retryScid)
    (hdcid : c'.initialDcid = c.initialDcid) (hretry : c'.retryDone = c.retryDone)
    (hearly : ∀ k, c'.earlySendKeys = some k → k.space = .app)
    (hawait : c'.awaitingInitial = c.awaitingInitial) : Nonces c' hist := by
  refine h.keep (fun x => congrArg SpaceKeys.send (hspaces x))
    (fun x => congrArg SpaceKeys.discarded (hspaces x)) hnext hscid hdcid hretry hearly ?_
  intro hawaiting
  exact absurd (hwait.symm.trans (hawait.symm.trans hawaiting)) (by decide)

lemma Nonces.settleEarly (accepted : Bool) : Nonces (c.settleEarly accepted) hist := by
  have hsettle : Sends c [] (c.setSpace .app { c.spaces .app with sent := [], rtx := [] }) :=
    .setSpace rfl le_rfl
  unfold Connection.settleEarly
  split
  · exact (h.quiet hsettle).settled hwait (fun _ => rfl) (fun _ => rfl) rfl rfl rfl
      (fun k hk => absurd hk (by simp)) rfl
  · exact h.settled hwait (fun _ => rfl) (fun _ => rfl) rfl rfl rfl
      (fun k hk => absurd hk (by simp)) rfl

lemma Nonces.established (out : TlsOutput) : Nonces (c.established out) hist ∧
      (c.established out).awaitingInitial = false := by
  have hfirst : Nonces { c with handshakeComplete := true, keyUpdateAllowed := true } hist :=
    h.settled hwait (fun _ => rfl) (fun _ => rfl) rfl rfl rfl h.home.early rfl
  unfold Connection.established
  split
  · exact ⟨hfirst.quiet (sends_pushApp _ _), hwait⟩
  · exact ⟨hfirst, hwait⟩

lemma Nonces.complete (out : TlsOutput) : Nonces (c.complete out) hist := by
  obtain ⟨hopen, hwait'⟩ := h.established hwait out
  unfold Connection.complete
  split
  · split
    · exact hopen.settled hwait' (fun _ => rfl) (fun _ => rfl) rfl rfl rfl hopen.home.early rfl
    · exact hopen.settleEarly hwait' _
  · exact h

end

lemma Nonces.pumpTls (out : TlsOutput) : Nonces (c.pumpTls out) hist := by
  refine pumpTls_rule (P := fun c => Nonces c hist ∧ c.awaitingInitial = false)
    (Q := fun c => Nonces c hist) out h
    (fun hguard => ⟨h, ?_⟩) (fun c hc given _ => hc.1.installSecrets hc.2 given)
    (fun c secret hc => ⟨hc.1.settled hc.2 (fun _ => rfl) (fun _ => rfl) rfl rfl rfl ?_ rfl, hc.2⟩)
    (fun c hc given _ => ?_) (fun c tp hc => ⟨hc.1.quiet (.still rfl),
      hc.2⟩) (fun c hc => ?_) fun c hc => hc.1.complete hc.2 out
  · cases hawaiting : c.awaitingInitial with
    | false => rfl
    | true => exact absurd ⟨(h.waiting hawaiting).1.server, .inl hawaiting⟩ hguard
  · intro k hk
    rw [some.injEq] at hk
    rw [← hk]
    rfl
  · have hsends := sends_addCrypto c given
    exact ⟨hc.1.quiet hsends, (congrArg KeyView.awaiting hsends.same).trans hc.2⟩
  · have hclosed : Sends c [] { c with closed := true } :=
      .still rfl
    exact hc.1.quiet (hclosed.then_quiet (sends_discardSendOutput _))

end

lemma SealKey.eq_initial {k : SealKey} (h : k.space = .initial) : ∃ cid, k = .initial cid := by
  cases k with
  | initial cid => exact ⟨cid, rfl⟩
  | handshake secret => exact absurd h (by simp [space])
  | zeroRtt secret => exact absurd h (by simp [space])
  | oneRtt secret generation => exact absurd h (by simp [space])

/-- The first packet gives a waiting server its keys. -/
theorem Nonces.acceptFirst (h : Nonces c hist) (x : Space) (dcid : Bytes) :
    Nonces (c.acceptFirst x dcid) hist := by
  unfold Connection.acceptFirst
  split
  · rename_i hcond
    obtain ⟨hwait, rfl⟩ := h.waiting hcond.2.2
    set c₁ : Connection := { ({ c with initialDcid := dcid }).installInitialKeys dcid with
      awaitingInitial := false } with hc₁
    have hother : ∀ y, y ≠ .initial → c₁.spaces y = c.spaces y := by
      intro y hne
      rw [hc₁]
      simp only [installInitialKeys, setSpace_of_ne _ _ hne]
    have hkeys : ∀ y k, (c₁.spaces y).sendKeys = some k → y = .initial ∧ k = .initial dcid := by
      intro y k hk
      rcases eq_or_ne y .initial with rfl | hne
      · exact ⟨rfl, (some.inj hk).symm⟩
      · rw [hother y hne, hwait.keys] at hk
        exact absurd hk (by simp)
    refine ⟨Pairwise.nil, fun p hp => absurd hp not_mem_nil, ⟨?_, h.home.early⟩, ?_, ?_,
      ?_, h.fresh, fun hawaiting => absurd hawaiting (by simp [hc₁])⟩
    · intro y k hk
      obtain ⟨rfl, rfl⟩ := hkeys y k hk
      rfl
    · intro y k hk
      obtain ⟨rfl, rfl⟩ := hkeys y k hk
      rintro (hgone | ⟨cid, scid, -, hscid, -⟩)
      · have hdiscarded : (c₁.spaces .initial).discarded = false := by
          exact hwait.initial
        exact absurd (hdiscarded.symm.trans hgone) (by decide)
      · exact absurd (hwait.scid.symm.trans hscid) (by simp)
    · exact h.app
    · intro _ cid
      refine ⟨fun p hp => absurd hp not_mem_nil, ?_⟩
      intro hk
      exact initial.inj (hkeys _ _ hk).2
  · exact h

/-- A Retry that chooses other keys leaves the old Initial packets behind. -/
theorem Nonces.restarted (h : Nonces c hist) (hrole : c.role = .client)
    (hretry : c.retryDone = false) {scid : Bytes} (hscid : scid ≠ c.initialDcid) (token : Bytes) :
    Nonces (c.restarted scid token) hist := by
  set c₁ := c.restarted scid token with hc₁
  have hself : c₁.spaces .initial =
      { ({} : SpaceState).withKeys (.initial scid) with outCrypto := c.initialCrypto } := by
    rw [hc₁]
    simp only [Connection.restarted, installInitialKeys, setSpace_self]
  have hother : ∀ y, y ≠ .initial → c₁.spaces y = c.spaces y := by
    intro y hne
    rw [hc₁]
    simp only [Connection.restarted, installInitialKeys, setSpace_of_ne _ _ hne]
  have hnone := h.fresh hretry
  have hold : ∀ p ∈ hist, p.key.space = .initial → c₁.Retired p.key := by
    intro p hp hspace
    obtain ⟨cid, hcid⟩ := SealKey.eq_initial hspace
    refine .inr ⟨cid, scid, hcid, rfl, ?_⟩
    rw [(h.origin hnone cid).1 p hp hcid]
    exact hscid
  have hback : ∀ k : SealKey, k.space ≠ .initial → c₁.Retired k → c.Retired k := by
    rintro k hne (hgone | ⟨cid, -, rfl, -⟩)
    · rw [hother _ hne] at hgone
      exact .inl hgone
    · exact absurd rfl hne
  have hkey : ∀ k, (c₁.spaces .initial).sendKeys = some k → k = .initial scid := by
    intro k hk
    exact (some.inj hk).symm
  refine ⟨h.unique, ?_, ⟨?_, h.home.early⟩, ?_, ?_, ?_, ?_, ?_⟩
  · intro p hp
    rcases eq_or_ne p.key.space .initial with heq | hne
    · exact .inr (hold p hp heq)
    rcases h.spent p hp with hlt | hgone | ⟨cid, -, hcid, -⟩
    · left
      rw [hother _ hne]
      exact hlt
    · refine .inr (.inl ?_)
      rw [hother _ hne]
      exact hgone
    · exact absurd (congrArg SealKey.space hcid) hne
  · intro y k hk
    rcases eq_or_ne y .initial with rfl | hne
    · rw [hkey k hk]
      rfl
    · rw [hother y hne] at hk
      exact h.home.send y k hk
  · intro y k hk
    rcases eq_or_ne y .initial with rfl | hne
    · rw [hkey k hk]
      rintro (hgone | ⟨cid, scid', hcid, hsome, hdiff⟩)
      · rw [SealKey.space, hself] at hgone
        exact absurd hgone (by simp [SpaceState.withKeys])
      · apply hdiff
        rw [← some.inj hsome, SealKey.initial.inj hcid]
    · rw [hother y hne] at hk
      have hspace := h.home.send y k hk
      exact fun hgone => h.live y k hk (hback k (by rw [hspace]; exact hne) hgone)
  · exact h.app
  · intro hscids
    have hsome : c₁.retryScid = some scid := rfl
    exact absurd (hsome.symm.trans hscids) (by simp)
  · intro hdone
    have htrue : c₁.retryDone = true := rfl
    exact absurd (htrue.symm.trans hdone) (by decide)
  · intro hawaiting
    exact absurd ((h.client hrole).symm.trans hawaiting) (by decide)

/-- Nothing is sent, and the connection keeps its role and its first destination. -/
structure Stays (c c' : Connection) : Prop where
  emitted : c'.trace.emitted = c.trace.emitted
  role : c'.role = c.role
  dcid : c'.initialDcid = c.initialDcid

lemma Stays.trans (h : Stays c c') (h' : Stays c' c'') : Stays c c'' :=
  ⟨h'.emitted.trans h.emitted, h'.role.trans h.role, h'.dcid.trans h.dcid⟩

lemma Sends.stays (h : Sends c [] c') : Stays c c' :=
  ⟨h.emitted, congrArg KeyView.role h.same, congrArg KeyView.dcid h.same⟩

lemma stays_installSecrets (c : Connection) (given : LevelSecret) :
    Stays c (c.installSecrets given) := by
  cases given <;> unfold installSecrets <;> dsimp only <;> split <;>
    exact ⟨rfl, rfl, rfl⟩

lemma stays_established (c : Connection) (out : TlsOutput) : Stays c (c.established out) := by
  unfold established
  split <;> exact ⟨rfl, rfl, rfl⟩

lemma stays_complete (c : Connection) (out : TlsOutput) : Stays c (c.complete out) := by
  have hopen := stays_established c out
  unfold complete
  split
  · split
    · exact hopen.trans ⟨rfl, rfl, rfl⟩
    · refine hopen.trans ?_
      unfold settleEarly
      split <;> exact ⟨rfl, rfl, rfl⟩
  · exact ⟨rfl, rfl, rfl⟩

lemma stays_pumpTls (c : Connection) (out : TlsOutput) : Stays c (c.pumpTls out) :=
  pumpTls_rule (P := Stays c) out ⟨rfl, rfl, rfl⟩ (fun _ => ⟨rfl, rfl, rfl⟩)
    (fun c' h given _ => h.trans (stays_installSecrets c' given))
    (fun _ _ h => h.trans ⟨rfl, rfl, rfl⟩)
    (fun c' h given _ => h.trans (sends_addCrypto c' given).stays)
    (fun _ _ h => h.trans ⟨rfl, rfl, rfl⟩) (fun _ h => h.trans ⟨rfl, rfl, rfl⟩)
    fun c' h => h.trans (stays_complete c' out)

section

variable (h : Nonces c hist)
include h

lemma quiet_stays (hsends : Sends c [] c') : Nonces c' hist ∧ Stays c c' :=
  ⟨h.quiet hsends, hsends.stays⟩

/-- A frame sends nothing, and its nonces stay apart from those to come. -/
theorem Nonces.processFrame (x : Space) (kind : PacketKind) (f : RecvFrame) :
    Nonces (c.processFrame x kind f).conn hist ∧ Stays c (c.processFrame x kind f).conn :=
  processFrame_rule (P := fun c' => Nonces c' hist ∧ Stays c c') (quiet_stays h (Sends.refl c))
    (fun hack => quiet_stays h (sends_onAck hack)) (fun out _ => ⟨h.pumpTls out, stays_pumpTls c out⟩)
    (fun effects => quiet_stays h (.foldl sends_apply effects c))
    (fun hclient => ⟨h.settled (h.client hclient) (fun _ => rfl) (fun _ => rfl) rfl rfl rfl
      h.home.early rfl, ⟨rfl, rfl, rfl⟩⟩)
    (quiet_stays h (.still rfl))
    fun _ => quiet_stays h (sends_pushApp c _)

section

variable (hx : x = .handshake → (c.spaces x).recvKeys = true)
include hx

/-- A packet number is noted. A waiting server notes none of the Handshake space. -/
theorem Nonces.receive (received : Received) :
    Nonces (c.setSpace x { c.spaces x with received := received }) hist := by
  have hspace : ∀ y, spaceKeys ((c.setSpace x { c.spaces x with received := received }).spaces y) =
      { spaceKeys (c.spaces y) with
        received := if y = x then received else (c.spaces y).received } := by
    intro y
    rcases eq_or_ne y x with rfl | hne
    · rw [setSpace_self, if_pos rfl]
      rfl
    · rw [setSpace_of_ne c _ hne, if_neg hne]
      rfl
  have hnext : ∀ y, ((c.setSpace x { c.spaces x with received := received }).spaces y).nextPn =
      (c.spaces y).nextPn := by
    intro y
    rcases eq_or_ne y x with rfl | hne
    · rw [setSpace_self]
    · rw [setSpace_of_ne c _ hne]
  refine h.keep (fun y => congrArg SpaceKeys.send (hspace y))
    (fun y => congrArg SpaceKeys.discarded (hspace y)) hnext rfl rfl rfl h.home.early ?_
  intro hawaiting
  refine ⟨hawaiting, ?_⟩
  intro hwait
  refine { hwait with initial := ?_, keys := ?_, recv := ?_, handshake := ?_ }
  · exact (congrArg SpaceKeys.discarded (hspace .initial)).trans hwait.initial
  · exact fun y => (congrArg SpaceKeys.send (hspace y)).trans (hwait.keys y)
  · exact fun y => (congrArg SpaceKeys.recv (hspace y)).trans (hwait.recv y)
  have hne : .handshake ≠ x := by
    intro heq
    have hrecv := hx heq.symm
    rw [hwait.recv] at hrecv
    exact absurd hrecv (by decide)
  rw [setSpace_of_ne c _ hne]
  exact hwait.handshake

lemma Nonces.processPacketKind (pn : ℕ) (frames : List RecvFrame) (kind : PacketKind) :
    Nonces (c.processPacketKind x pn frames kind).1 hist ∧
      Stays c (c.processPacketKind x pn frames kind).1 := by
  refine processPacketKind_rule (P := fun c' => Nonces c' hist ∧ Stays c c')
    (fun received => ⟨h.receive hx received, ⟨rfl, rfl, rfl⟩⟩) (fun c' hc f _ => ?_)
    fun c' recvPns ackPending hc => ?_
  · obtain ⟨hnonces, hstay⟩ := hc.1.processFrame x kind f
    exact ⟨hnonces, hc.2.trans hstay⟩
  · have hnote : Sends c' [] (c'.setSpace x { c'.spaces x with recvPns, ackPending }) :=
      .setSpace rfl le_rfl
    exact ⟨hc.1.quiet (hnote.to rfl (fun _ => rfl) rfl), hc.2.trans ⟨rfl, rfl, rfl⟩⟩

end

end

/-- Whether `handle_retry` takes the packet. -/
def acceptsRetry (c : Connection) (scid token : Bytes) : Prop :=
  c.role = .client ∧ c.retryDone = false ∧ (c.spaces .handshake).recvKeys = false ∧
    (c.spaces .initial).discarded = false ∧ token ≠ [] ∧ token.length ≤ maxRetryToken ∧
    scid ≠ [] ∧ scid.length ≤ 20

lemma handleRetry_cases (c : Connection) (scid token : Bytes) :
    c.handleRetry scid token = c ∨ c.acceptsRetry scid token ∧
        c.handleRetry scid token = (c.restarted scid token).flush := by
  unfold handleRetry
  split
  · exact .inl rfl
  rename_i hrole
  split
  · exact .inl rfl
  rename_i hkeys
  split
  · exact .inl rfl
  · rename_i hform
    simp only [not_or, not_not, not_lt, Bool.not_eq_true] at hrole hkeys hform
    obtain ⟨htoken, hlong, hscid, hcid⟩ := hform
    exact .inr ⟨⟨hrole.1, hrole.2, hkeys.1, hkeys.2, htoken, hlong, hscid, hcid⟩, rfl⟩

/-- What holds between two calls. -/
def Apart (c : Connection) : Prop := Nonces c c.trace.emitted

lemma Apart.after (h : Nonces c' c.trace.emitted)
    (hemitted : c'.trace.emitted = c.trace.emitted) : Apart c' := by
  unfold Apart
  rw [hemitted]
  exact h

lemma Apart.quiet (h : Apart c) (hsends : Sends c [] c') : Apart c' :=
  after (.quiet h hsends) hsends.emitted

lemma Apart.acceptFirst (h : Apart c) (x : Space) (dcid : Bytes) :
    Apart (c.acceptFirst x dcid) := by
  refine after (.acceptFirst h x dcid) ?_
  unfold Connection.acceptFirst
  split <;> rfl

lemma Apart.processPacketKind (h : Apart c)
    (hx : x = .handshake → (c.spaces x).recvKeys = true) (pn : ℕ) (frames : List RecvFrame)
    (kind : PacketKind) : Apart (c.processPacketKind x pn frames kind).1 := by
  obtain ⟨hnonces, hstay⟩ := Nonces.processPacketKind h hx pn frames kind
  exact after hnonces hstay.emitted

lemma emitted_updateSendKeys (c : Connection) :
    c.updateSendKeys.trace.emitted = c.trace.emitted := by
  unfold updateSendKeys
  split <;> rfl

lemma Apart.updateSendKeys (h : Apart c) : Apart c.updateSendKeys :=
  after (.updateSendKeys h) (emitted_updateSendKeys c)

lemma emitted_ite {P : Prop} [Decidable P] {sent : List Packet}
    (h : c.trace.emitted = sent) (h' : c'.trace.emitted = sent) :
    (if P then c else c').trace.emitted = sent := by
  split
  · exact h
  · exact h'

lemma Apart.commitKeyUpdate (h : Apart c) : Apart c.commitKeyUpdate := by
  refine after (.commitKeyUpdate h) ?_
  have hphase : (if (c.spaces .app).recvKeys then { c with recvKeyPhase := !c.recvKeyPhase }
      else c).trace.emitted = c.trace.emitted := emitted_ite rfl rfl
  exact emitted_ite ((emitted_updateSendKeys _).trans hphase) hphase

lemma Apart.discardFinishedSpaces (h : Apart c) : Apart c.discardFinishedSpaces := by
  have honce : ∀ (c : Connection) (x : Space),
      (c.discardOnce x).trace.emitted = c.trace.emitted := fun c x => emitted_ite rfl rfl
  refine after (.discardFinishedSpaces h) ?_
  have hfirst : (if c.role = .server ∧ (c.spaces .handshake).received.largest.isSome then
      c.discardOnce .initial else c).trace.emitted = c.trace.emitted :=
    emitted_ite (honce c .initial) rfl
  exact emitted_ite (((honce _ _).trans (honce _ _)).trans hfirst) hfirst

/-- A Retry that is taken names another connection ID than the first one. -/
def RetryMoves (c : Connection) : Incoming → Prop
  | .retry scid token => c.acceptsRetry scid token → scid ≠ c.initialDcid
  | _ => True

lemma Apart.handleRetry (h : Apart c) {scid token : Bytes}
    (hmoves : c.RetryMoves (.retry scid token)) : Apart (c.handleRetry scid token) := by
  rcases handleRetry_cases c scid token with hsame | ⟨haccepts, hnext⟩
  · rw [hsame]
    exact h
  · rw [hnext]
    apply Nonces.flushPackets
    exact .restarted h haccepts.1 haccepts.2.1 (hmoves haccepts) token

lemma longSpace_zeroRtt {role : Role} (h : longSpace role .zeroRtt = some .handshake) : False := by
  cases role with
  | client => exact absurd h (by decide)
  | server => exact absurd h (by decide)

lemma Apart.recvPacket (h : Apart c) {p : Incoming} (hmoves : c.RetryMoves p) :
    Apart (c.recvPacket p).1 := by
  cases p with
  | short phaseChanged pn frames =>
    unfold Connection.recvPacket
    dsimp only
    split
    · exact h
    · refine processPacketKind ?_ (fun hx => absurd hx (by decide)) pn frames .oneRtt
      split
      · exact h.commitKeyUpdate
      · exact h
  | retry scid token => exact h.handleRetry hmoves
  | long kind dcid scid opened =>
    unfold Connection.recvPacket
    dsimp only
    split
    · exact h
    rename_i x hx
    have hfirst := h.acceptFirst x dcid
    split
    · exact hfirst
    rename_i pn frames
    split
    · exact hfirst
    rename_i hcond
    simp only [not_or, not_and, Bool.not_eq_false] at hcond
    have hremote : Apart (if x = .initial then
        { c.acceptFirst x dcid with remoteCid := scid } else c.acceptFirst x dcid) := by
      split
      · exact hfirst.quiet ((Sends.refl _).to rfl (fun _ => rfl) rfl)
      · exact hfirst
    refine hremote.processPacketKind ?_ pn frames kind
    rintro rfl
    refine hcond.1 ?_
    rintro rfl
    exact longSpace_zeroRtt hx

/-- Every Retry of a datagram that is taken names another connection ID than the first
one. -/
def RetriesMove : List Incoming → Connection → Prop
  | [], _ => True
  | p :: rest, c =>
    c.RetryMoves p ∧ ((c.recvPacket p).2.1 = true → RetriesMove rest (c.recvPacket p).1)

lemma Apart.recvPackets (h : Apart c) {packets : List Incoming}
    (hmove : RetriesMove packets c) : Apart (Connection.recvPackets packets c).1 := by
  induction packets generalizing c with
  | nil => exact h
  | cons p rest ih =>
    have hone := h.recvPacket hmove.1
    rw [recvPackets]
    dsimp only
    split
    · rename_i hgoesOn
      exact ih hone (hmove.2 hgoesOn)
    · exact hone

/-- The call brings no Retry that would start the Initial packets again under the same
keys. -/
def CallMoves (c : Connection) : Call → Prop
  | .datagram packets isReset => c.closed = false → isReset = false → RetriesMove packets c
  | _ => True

lemma Apart.recvDatagram (h : Apart c) {packets : List Incoming} {isReset : Bool}
    (hmove : c.CallMoves (.datagram packets isReset)) : Apart (c.recvDatagram packets isReset) := by
  unfold Connection.recvDatagram
  split
  · exact h
  rename_i hopen
  split
  · exact h.quiet (.still rfl)
  rename_i hreset
  have hpackets := h.recvPackets (hmove (by simpa using hopen) (by simpa using hreset))
  dsimp only
  split
  · exact .flushPackets hpackets.discardFinishedSpaces 0
  · exact hpackets

lemma Apart.onTimeout (h : Apart c) (nowMs : ℕ) : Apart (c.onTimeout nowMs) := by
  have hnow : Apart { c with nowMs } := h.quiet (.still rfl)
  unfold Connection.onTimeout
  dsimp only
  split
  · exact hnow.quiet ((Sends.refl _).to rfl (fun _ => rfl) rfl)
  split
  · refine .flushPackets ?_ 0
    exact hnow.quiet (Sends.foldl sends_detectLost _ _)
  split
  · exact hnow
  split
  · exact hnow
  · refine .flushPackets ?_ probePackets
    have hprobe := Sends.foldl sends_queueProbe
      ([.initial, .handshake, .app].filter ({ c with nowMs }).ptoArmed) { c with nowMs }
    exact (hnow.quiet hprobe).quiet ((Sends.refl _).to rfl (fun _ => rfl) rfl)

lemma Apart.exec (h : Apart c) {call : Call} (hmove : c.CallMoves call) :
    Apart (c.exec call) := by
  cases call with
  | streams effects => exact h.quiet (.foldl sends_apply effects c)
  | flush => exact .flushPackets h 0
  | datagram packets isReset => exact h.recvDatagram hmove
  | timeout nowMs => exact h.onTimeout nowMs
  | setNow nowMs => exact h.quiet (.still rfl)
  | initiateKeyUpdate =>
    unfold Connection.exec initiateKeyUpdate
    dsimp only
    split
    · exact h.updateSendKeys
    · exact h
  | pathValidation data =>
    unfold Connection.exec
    dsimp only
    split
    · exact .flushPackets (h.quiet (sends_pushApp c _)) 0
    · exact h
  | close frame =>
    unfold Connection.exec
    dsimp only
    split
    · exact h
    have hclose : ∀ c, Apart c → Apart { c with closed := true } := fun c h => h.quiet (.still rfl)
    apply hclose
    split
    · refine .flushPackets ?_ 0
      exact h.quiet (.still rfl)
    · exact h
  | nextDatagram => exact h.quiet (.still rfl)

/-- No call of the run brings such a Retry. -/
def RunMoves : List Call → Connection → Prop
  | [], _ => True
  | call :: rest, c => c.CallMoves call ∧ RunMoves rest (c.exec call)

lemma Apart.run (h : Apart c) {calls : List Call} (hmoves : RunMoves calls c) :
    Apart (c.run calls) := by
  induction calls generalizing c with
  | nil => exact h
  | cons call rest ih => exact ih (h.exec hmoves.1) hmoves.2

lemma apart_newServer (localCid : Bytes) (maxIdleTimeout : ℕ) :
    Apart (newServer localCid maxIdleTimeout) where
  unique := Pairwise.nil
  spent := fun p hp => absurd hp not_mem_nil
  home := ⟨fun x k hk => absurd hk (by simp [newServer]),
    fun k hk => absurd hk (by simp [newServer])⟩
  live := fun x k hk => absurd hk (by simp [newServer])
  app := rfl
  origin := fun _ cid => ⟨fun p hp => absurd hp not_mem_nil,
    fun hk => absurd hk (by simp [newServer])⟩
  fresh := fun _ => rfl
  waiting := fun _ => ⟨⟨rfl, rfl, rfl, rfl, fun _ => rfl, fun _ => rfl, rfl, rfl, rfl⟩, rfl⟩

lemma nonces_client (dcid scid : Bytes) (maxIdleTimeout : ℕ) :
    Nonces ((blankClient dcid scid maxIdleTimeout).installInitialKeys dcid) [] := by
  set c := (blankClient dcid scid maxIdleTimeout).installInitialKeys dcid
  have hkeys : ∀ x k, (c.spaces x).sendKeys = some k → x = .initial ∧ k = .initial dcid := by
    intro x k hk
    cases x with
    | initial => exact ⟨rfl, (some.inj hk).symm⟩
    | handshake => exact absurd (show none = some k from hk) (by simp)
    | app => exact absurd (show none = some k from hk) (by simp)
  refine ⟨Pairwise.nil, fun p hp => absurd hp not_mem_nil, ⟨?_, ?_⟩, ?_, rfl, ?_, fun _ => rfl, ?_⟩
  · intro x k hk
    obtain ⟨rfl, rfl⟩ := hkeys x k hk
    rfl
  · intro k hk
    exact absurd (show none = some k from hk) (by simp)
  · intro x k hk
    obtain ⟨rfl, rfl⟩ := hkeys x k hk
    rintro (hgone | ⟨cid, scid, -, hsome, -⟩)
    · exact absurd (show false = true from hgone) (by decide)
    · exact absurd (show none = some scid from hsome) (by simp)
  · intro _ cid
    refine ⟨fun p hp => absurd hp not_mem_nil, ?_⟩
    intro hk
    exact initial.inj (hkeys _ _ hk).2
  · intro hawaiting
    exact absurd (show false = true from hawaiting) (by decide)

lemma apart_newClient {dcid scid : Bytes} {maxIdleTimeout : ℕ} {hello : TlsOutput}
    (hc : newClient dcid scid maxIdleTimeout hello = some c) : Apart c := by
  unfold newClient at hc
  split at hc
  · exact absurd hc (by simp)
  rw [some.injEq] at hc
  rw [← hc]
  have hfirst := nonces_client dcid scid maxIdleTimeout
  have hpump : Apart (((blankClient dcid scid maxIdleTimeout).installInitialKeys dcid).pumpTls
      hello) := .after (hfirst.pumpTls hello) (stays_pumpTls _ hello).emitted
  refine .flushPackets ?_ 0
  exact hpump.quiet ((Sends.refl _).to rfl (fun _ => rfl) rfl)

/-- A connection as it is first made. -/
inductive Starts : Connection → Prop
  | server (localCid : Bytes) (maxIdleTimeout : ℕ) : Starts (newServer localCid maxIdleTimeout)
  | client {dcid scid : Bytes} {maxIdleTimeout : ℕ} {hello : TlsOutput} {c : Connection}
      (hc : newClient dcid scid maxIdleTimeout hello = some c) : Starts c

/-- Nonces are used once: as long as no Retry sends the client back to its first connection
ID, no two packets of a run are sealed with one key and one number. -/
theorem nonces_unique {c : Connection} (hstart : Starts c) {calls : List Call}
    (hmoves : RunMoves calls c) :
    (c.run calls).trace.emitted.Pairwise fun p q => p.key = q.key → p.pn ≠ q.pn := by
  have happart : Apart c := by
    cases hstart with
    | server localCid maxIdleTimeout => exact apart_newServer localCid maxIdleTimeout
    | client hc => exact apart_newClient hc
  exact Nonces.unique (happart.run hmoves)

/-- A client that has sent its first packet. -/
def greeting : Connection :=
  ((newClient [1, 2, 3, 4, 5, 6, 7, 8] [9] 30000
    { crypto := [(.initial, [1, 0, 0, 1, 3])] }).getD (newServer [] 0))

lemma starts_greeting : Starts greeting :=
  .client (show newClient [1, 2, 3, 4, 5, 6, 7, 8] [9] 30000
    { crypto := [(.initial, [1, 0, 0, 1, 3])] } = some greeting from rfl)

theorem nonces_unique_greeting :
    RunMoves [.datagram [.retry [8, 7, 6, 5, 4, 3, 2, 1] [7]] false, .timeout 1000] greeting ∧
      (greeting.run [.datagram [.retry [8, 7, 6, 5, 4, 3, 2, 1] [7]] false,
        .timeout 1000]).trace.emitted.Pairwise fun p q => p.key = q.key → p.pn ≠ q.pn := by
  have hmoves : RunMoves [.datagram [.retry [8, 7, 6, 5, 4, 3, 2, 1] [7]] false, .timeout 1000]
      greeting := by
    refine ⟨fun _ _ => ⟨fun _ => ?_, fun _ => trivial⟩, trivial, trivial⟩
    decide +kernel
  exact ⟨hmoves, nonces_unique starts_greeting hmoves⟩

/-- A Retry may name the connection ID that the client chose. The Initial keys are then the
same as before, and the packets are numbered from zero again. -/
theorem retry_repeats_nonce :
    ¬∀ (c : Connection) (calls : List Call), Starts c →
      (c.run calls).trace.emitted.Pairwise fun p q => p ≠ q → p.key = q.key → p.pn ≠ q.pn := by
  intro h
  have hrun := h greeting [.datagram [.retry [1, 2, 3, 4, 5, 6, 7, 8] [7]] false] starts_greeting
  revert hrun
  decide +kernel

end Connection
end OnetDns.Quic.Transport
