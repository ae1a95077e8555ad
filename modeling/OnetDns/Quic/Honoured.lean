import OnetDns.Quic.Receive

/-!
# The credit that is given is honoured

A connection and a peer that stays within the limits it was told. The frames of the
peer arrive in any order, any number of times or never. Whatever arrives, the buffers
are counted exactly and stay within their bound, and the peer is refused only where a
bound of its own decides: too many open streams, too many fragments, too many resets.
-/
namespace OnetDns.Quic
open List

/-- The stream of a frame with stream data, and how far it takes it. -/
def Frame.extent : Frame → Option (ℕ × ℕ)
  | .stream id offset _ data => some (id, offset + data.length)
  | .resetStream id _ finalSize => some (id, finalSize)
  | _ => none

variable {f : Frame} (role : Role) (tp : TransportParams)

namespace Connection

/-- A call keeps the accounts and takes no limit back. -/
def Keeps (c c' : Connection) (seen : ℕ →₀ ℕ) : Prop :=
  Grows c c' ∧ Accounts c' (eventBytes c'.readable) 0 seen

variable {c c' : Connection} {seen : ℕ →₀ ℕ}

lemma Keeps.quiet {c'' : Connection} (h : Keeps c c' seen) (hquiet : Quiet c' c'') :
    Keeps c c'' seen :=
  ⟨h.1.trans hquiet.grows, h.2.quiet hquiet⟩

lemma quiet_onFrame (hf : f.extent = none) : Quiet c (c.onFrame f).2 := by
  cases f with
  | stream | resetStream => cases hf
  | stopSending id errorCode => exact quiet_onStopSending c id errorCode
  | maxData limit => exact { Quiet.refl c with }
  | maxStreamData id limit => exact quiet_onMaxStreamData c id limit
  | maxStreams uni limit =>
    simp only [onFrame]
    split
    · exact .refl c
    split
    · exact { Quiet.refl c with }
    · exact { Quiet.refl c with }
  | pathChallenge data => exact quiet_queue c rfl
  | handshakeDone =>
    simp only [onFrame]
    split <;> exact .refl c
  | ping | pathResponse => exact .refl c

lemma Accounts.completeHandshake (h : Accounts c (eventBytes c.readable) 0 seen)
    (earlyAccepted : Bool) : Keeps c (c.completeHandshake earlyAccepted) seen := by
  rcases quiet_completeHandshake c earlyAccepted with ⟨-, hsame⟩ | hquiet
  · rw [hsame]
    exact ⟨.refl c, h⟩
  · have hdone : Quiet c { c with handshakeComplete := true } := { Quiet.refl c with }
    have hopened := (h.quiet hdone).openWindow
    exact .quiet ⟨hdone.grows.trans hopened.1, hopened.2⟩ hquiet

lemma quiet_discardSendOutput (c : Connection) : Quiet c c.discardSendOutput := by
  refine { Quiet.refl c with frames := fun f hf => .inl ?_ }
  rcases hf with hf | hf | hf | hf | ⟨packet, hpacket, -⟩ | hf
  · cases hf
  · cases hf
  · cases hf
  · cases hf
  · cases hpacket
  · exact .inr (.inr (.inr (.inr (.inr hf))))

/-- Every call but the arrival of stream data. -/
theorem Accounts.exec (h : Accounts c (eventBytes c.readable) 0 seen) {k : Call}
    (hk : ∀ f, k = .receive f → f.extent = none) : Keeps c (c.exec k).2 seen := by
  have hsame : Keeps c c seen := ⟨.refl c, h⟩
  cases k with
  | sendStream id data fin plan => exact hsame.quiet (quiet_sendStreamOwned c id data fin plan)
  | openUniStream =>
    simp only [Connection.exec, openUniStream]
    split
    · exact hsame
    split
    · exact hsame
    · exact hsame.quiet { Quiet.refl c with }
  | takeReadable plan =>
    simp only [Connection.exec]
    split
    · exact .quiet h.takeReadable (quiet_flush _ plan)
    · exact h.takeReadable
  | takeResets => exact hsame.quiet { Quiet.refl c with }
  | takeStreamRequests => exact h.takeStreamRequests
  | challengePath data => exact hsame.quiet (quiet_queue c rfl)
  | flush plan => exact hsame.quiet (quiet_flush c plan)
  | acked pns =>
    simp only [Connection.exec]
    split
    · exact hsame
    · exact hsame.quiet (quiet_acked c pns)
  | lost pns => exact hsame.quiet (quiet_lost c pns)
  | probe pns => exact hsame.quiet (quiet_queueProbe c pns)
  | peerParams tp =>
    simp only [Connection.exec, takePeerParams]
    split
    · exact hsame
    split
    · exact hsame
    · exact hsame.quiet { Quiet.refl c with }
  | handshakeComplete earlyAccepted =>
    simp only [Connection.exec]
    split
    · exact hsame
    · exact h.completeHandshake earlyAccepted
  | receive f =>
    simp only [Connection.exec]
    split
    · exact hsame
    · exact hsame.quiet (quiet_onFrame (hk f rfl))
  | close plan => exact hsame.quiet { quiet_flush c plan with }
  | abort => exact hsame.quiet { quiet_discardSendOutput c with }

lemma accounts_start (remembered : Option TransportParams) (earlySendKeys : Bool) :
    Accounts (start role tp remembered earlySendKeys)
      (eventBytes (start role tp remembered earlySendKeys).readable) 0 0 where
  streams := nofun
  idle _ _ := rfl
  seenOpen := nofun
  seenNew _ _ _ := rfl
  total := by simp [start]
  buffered := rfl
  totalLe := Nat.zero_le _
  credit := by
    have hlow : (start role tp remembered earlySendKeys).localMaxData ≤ maxConnectionReassembly :=
      min_le_right _ _
    simpa [start] using hlow
  held := le_rfl
  maxData := (min_le_right _ _).trans (Nat.pow_le_pow_right (by norm_num) (by norm_num))
  bidi := (min_le_right _ _).trans (by norm_num [maxStreamsHard, maxFlowControl])
  uni := (min_le_right _ _).trans (by norm_num [maxStreamsHard, maxFlowControl])
  tpBidiLocal := min_le_right _ _
  tpBidiRemote := min_le_right _ _
  tpUni := min_le_right _ _

/-- The most that the peer was told it may send. -/
def advertisedData (c : Connection) : ℕ :=
  c.log.wire.foldr (fun f limit => match f with
    | .maxData n => max n limit
    | _ => limit) c.baseTp.initialMaxData

/-- The most that the peer was told it may send on a stream. -/
def advertisedStreamData (c : Connection) (id : ℕ) : ℕ :=
  c.log.wire.foldr (fun f limit => match f with
    | .maxStreamData other n => if other = id then max n limit else limit
    | _ => limit)
    (if isUni id then c.baseTp.initialMaxStreamDataUni
      else if c.role.peer.opens id then c.baseTp.initialMaxStreamDataBidiRemote
      else c.baseTp.initialMaxStreamDataBidiLocal)

/-- The number of streams that the peer was told it may open. -/
def advertisedStreams (c : Connection) (uni : Bool) : ℕ :=
  c.log.wire.foldr (fun f limit => match f with
    | .maxStreams kind n => if kind = uni then max n limit else limit
    | _ => limit)
    (if uni then c.baseTp.initialMaxStreamsUni else c.baseTp.initialMaxStreamsBidi)

/-- The limits of the connection are no lower than its parameters, and no frame tells more. -/
structure Honest (c : Connection) : Prop where
  told : ∀ f, c.Holds f → c.Told f
  maxData : c.baseTp.initialMaxData ≤ c.localMaxData
  bidi : c.baseTp.initialMaxStreamsBidi ≤ c.localMaxStreamsBidi
  uni : c.baseTp.initialMaxStreamsUni ≤ c.localMaxStreamsUni

lemma Honest.grows (h : Honest c) (hgrows : Grows c c') : Honest c' where
  told f hf := (hgrows.frames f hf).elim (fun hf => hgrows.told (h.told f hf)) id
  maxData := by
    rw [hgrows.baseTp]
    exact h.maxData.trans hgrows.maxData
  bidi := by
    rw [hgrows.baseTp]
    exact h.bidi.trans hgrows.bidi
  uni := by
    rw [hgrows.baseTp]
    exact h.uni.trans hgrows.uni

lemma Honest.told_wire (h : Honest c) (hf : f ∈ c.log.wire) : c.Told f :=
  h.told f (.inr (.inr (.inr (.inr (.inr hf)))))

lemma foldr_le {α : Type*} {step : α → ℕ → ℕ} {bound : ℕ} {items : List α} {init : ℕ}
    (hinit : init ≤ bound) (hstep : ∀ a ∈ items, ∀ n ≤ bound, step a n ≤ bound) :
    items.foldr step init ≤ bound := by
  induction items with
  | nil => exact hinit
  | cons a rest ih =>
    rw [forall_mem_cons] at hstep
    exact hstep.1 _ (ih hstep.2)

lemma Honest.advertisedData_le (h : Honest c) : c.advertisedData ≤ c.localMaxData := by
  refine foldr_le h.maxData fun f hf n hn => ?_
  have htold := h.told_wire hf
  cases f with
  | maxData limit => exact max_le htold hn
  | _ => exact hn

lemma Honest.advertisedStreams_le (h : Honest c) (uni : Bool) :
    c.advertisedStreams uni ≤ if uni then c.localMaxStreamsUni else c.localMaxStreamsBidi := by
  refine foldr_le ?_ fun f hf n hn => ?_
  · cases uni with
    | false => exact h.bidi
    | true => exact h.uni
  have htold := h.told_wire hf
  cases f with
  | maxStreams kind limit =>
    simp only
    split
    · rename_i hkind
      subst hkind
      exact max_le htold hn
    · exact hn
  | _ => exact hn

lemma Honest.advertisedStreamData_le (h : Honest c) {due : ℕ → ℕ} {owed : ℕ}
    (haccounts : Accounts c due owed seen) (id : ℕ) :
    c.recvStreamClosed id = true ∨ c.advertisedStreamData id ≤ c.recvLimit id := by
  by_cases hopen : c.recvStreamClosed id = true
  · exact .inl hopen
  right
  refine foldr_le ?_ fun f hf n hn => ?_
  · refine le_trans ?_ (le_max_right _ _)
    refine le_min le_rfl ?_
    split
    · exact haccounts.tpUni
    split
    · exact haccounts.tpBidiRemote
    · exact haccounts.tpBidiLocal
  have htold := h.told_wire hf
  cases f with
  | maxStreamData other limit =>
    simp only
    split
    · rename_i hother
      subst hother
      exact max_le (htold.resolve_left hopen) hn
    · exact hn
  | _ => exact hn

lemma honest_start (remembered : Option TransportParams)
    (earlySendKeys : Bool) : Honest (start role tp remembered earlySendKeys) := by
  refine ⟨fun f hf => ?_, le_rfl, le_rfl, le_rfl⟩
  rcases hf with hf | hf | hf | hf | ⟨packet, hpacket, -⟩ | hf
  · cases hf
  · cases hf
  · cases hf
  · cases hf
  · cases hpacket
  · cases hf

end Connection

variable (frames : List Frame)

/-- How far frames take a stream. -/
def reach (id : ℕ) : ℕ :=
  (frames.filterMap Frame.extent).foldl (fun far extent =>
    if extent.1 = id then max far extent.2 else far) 0

/-- The streams of frames, each once. -/
def reached : List ℕ := ((frames.filterMap Frame.extent).map Prod.fst).dedup

/-- How far frames take all streams together. -/
def reachTotal : ℕ := ((reached frames).map (reach frames)).sum

variable {id stop : ℕ}

lemma reach_append (frames : List Frame) (hf : f.extent = some (id, stop)) (other : ℕ) :
    reach (frames ++ [f]) other =
      if id = other then max (reach frames other) stop else reach frames other := by
  have hlast : [f].filterMap Frame.extent = [(id, stop)] := by simp [hf]
  simp [reach, hlast]

lemma reach_le_append (frames : List Frame) (hf : f.extent = some (id, stop)) (other : ℕ) :
    reach frames other ≤ reach (frames ++ [f]) other := by
  rw [reach_append frames hf]
  split
  · exact le_max_left _ _
  · exact le_rfl

lemma reach_of_notMem {frames : List Frame} {id : ℕ} (h : id ∉ reached frames) :
    reach frames id = 0 := by
  rw [reached, mem_dedup] at h
  unfold reach
  generalize frames.filterMap Frame.extent = extents at h
  induction extents with
  | nil => rfl
  | cons extent rest ih =>
    rw [map_cons, mem_cons, not_or] at h
    rw [foldl_cons, if_neg (Ne.symm h.1)]
    exact ih h.2

lemma degree_le_reachTotal {far : ℕ →₀ ℕ} {frames : List Frame}
    (h : ∀ id, far id ≤ reach frames id) : far.degree ≤ reachTotal frames := by
  have hnodup : (reached frames).Nodup := nodup_dedup _
  rw [reachTotal, ← sum_toFinset (reach frames) hnodup]
  refine Ledger.degree_le_sum h fun id hid => ?_
  rw [mem_toFinset] at hid
  exact Nat.eq_zero_of_le_zero (reach_of_notMem hid ▸ h id)

/-- A connection, and the frames that its peer has sent so far. -/
structure Link where
  conn : Connection
  sent : List Frame

namespace Link
open Connection

inductive Event where
  | call (k : Call)
  /-- The peer sends a frame with stream data. -/
  | send (f : Frame)
  /-- A frame of the peer arrives, maybe not for the first time. -/
  | arrive (place : ℕ)

def exec (l : Link) : Event → Link
  | .call k => { l with conn := (l.conn.exec k).2 }
  | .send f => { l with sent := l.sent ++ [f] }
  | .arrive place => match l.sent[place]? with
    | some f => { l with conn := (l.conn.exec (.receive f)).2 }
    | none => l

def run (l : Link) (events : List Event) : Link := events.foldl exec l

/-- A frame that takes a stream this far is within what the peer was told so far: on the stream,
in all, and on a stream that it may open or that this side has opened. -/
def Allowed (l : Link) (f : Frame) (id stop : ℕ) : Prop :=
  stop ≤ l.conn.advertisedStreamData id ∧ reachTotal (l.sent ++ [f]) ≤ l.conn.advertisedData ∧
    if l.conn.role.peer.opens id then streamNumber id < l.conn.advertisedStreams (isUni id)
    else isUni id = false ∧ l.conn.openedSendRanges.contains id = true

/-- The peer sends what it is allowed to, and stream data arrives only if it was sent. -/
def Fair (l : Link) : Event → Prop
  | .call (.receive f) => f.extent = none
  | .call _ => True
  | .send f => f.extent.elim False fun extent => l.Allowed f extent.1 extent.2
  | .arrive _ => True

def FairRun (l : Link) : List Event → Prop
  | [] => True
  | event :: rest => l.Fair event ∧ (l.exec event).FairRun rest

instance (l : Link) (f : Frame) (id stop : ℕ) : Decidable (l.Allowed f id stop) :=
  inferInstanceAs (Decidable (_ ∧ _ ∧ ite _ _ _))

instance (l : Link) (event : Event) : Decidable (l.Fair event) :=
  match event with
  | .call k => match k with
    | .receive f => inferInstanceAs (Decidable (f.extent = none))
    | .sendStream .. | .openUniStream | .takeReadable _ | .takeResets | .takeStreamRequests
    | .challengePath _ | .flush _ | .acked _ | .lost _ | .probe _ | .peerParams _
    | .handshakeComplete _ | .close _ | .abort => isTrue trivial
  | .send f => match hf : f.extent with
    | some extent => decidable_of_iff (l.Allowed f extent.1 extent.2) (by simp [Fair, hf])
    | none => isFalse (by simp [Fair, hf])
  | .arrive _ => isTrue trivial

instance decidableFairRun (l : Link) : (events : List Event) → Decidable (l.FairRun events)
  | [] => isTrue trivial
  | event :: rest =>
    have := decidableFairRun (l.exec event) rest
    inferInstanceAs (Decidable (_ ∧ _))

/-- What holds after every step of a fair run. -/
structure Inv (l : Link) (seen : ℕ →₀ ℕ) : Prop where
  accounts : Accounts l.conn (eventBytes l.conn.readable) 0 seen
  honest : Honest l.conn
  seen_le : ∀ id, seen id ≤ reach l.sent id
  reach_le : reachTotal l.sent ≤ l.conn.localMaxData
  sent : ∀ f ∈ l.sent, ∀ id stop, f.extent = some (id, stop) →
    l.conn.mayReceive id = true ∧ stop ≤ reach l.sent id ∧
      (l.conn.recvStreamClosed id = true ∨ stop ≤ l.conn.recvLimit id)

variable {l : Link} {seen : ℕ →₀ ℕ}

section

variable (h : l.Inv seen)
include h

lemma Inv.grows {c : Connection} {seen' : ℕ →₀ ℕ} (hgrows : Grows l.conn c)
    (haccounts : Accounts c (eventBytes c.readable) 0 seen')
    (hseen : ∀ id, seen' id ≤ reach l.sent id) : Inv { l with conn := c } seen' := by
  refine ⟨haccounts, h.honest.grows hgrows, hseen, h.reach_le.trans hgrows.maxData, ?_⟩
  intro f hf id stop hextent
  obtain ⟨hmay, hreach, hlimit⟩ := h.sent f hf id stop hextent
  refine ⟨hgrows.mayReceive hmay, hreach, ?_⟩
  rcases hlimit with hclosed | hlimit
  · exact .inl (hgrows.closed id hclosed)
  · exact (hgrows.limit id).imp_right hlimit.trans

/-- A frame that was sent is within the limits when it arrives, unless its stream is closed. -/
theorem Inv.within (hf : f ∈ l.sent)
    (hextent : f.extent = some (id, stop)) (hopen : l.conn.recvStreamClosed id = false) :
    Within l.conn id stop := by
  obtain ⟨hmay, hreach, hlimit⟩ := h.sent f hf id stop hextent
  refine ⟨hmay, hlimit.resolve_left (by simp [hopen]), ?_⟩
  set far := seen.update id (max (seen id) stop)
  have hle : far.degree ≤ reachTotal l.sent := by
    refine degree_le_reachTotal fun other => ?_
    rw [Finsupp.update_apply]
    split
    · rename_i hother
      rw [hother]
      exact max_le (h.seen_le id) hreach
    · exact h.seen_le other
  have hdegree : far.degree + seen id = seen.degree + max (seen id) stop :=
    Ledger.degree_update seen id (max (seen id) stop)
  have hbound := h.reach_le
  rw [h.accounts.total, ← h.accounts.seen_streamAt hopen]
  omega

lemma Inv.send (hfair : l.Fair (.send f)) : (l.exec (.send f)).Inv seen := by
  cases hextent : f.extent with
  | none =>
    rw [Fair, hextent] at hfair
    cases hfair
  | some extent =>
  obtain ⟨id, stop⟩ := extent
  rw [Fair, hextent] at hfair
  obtain ⟨hstream, htotal, hstreams⟩ := hfair
  have hmay : l.conn.mayReceive id = true := by
    unfold mayReceive
    split at hstreams
    · rename_i hpeer
      rw [if_pos hpeer, decide_eq_true_eq]
      exact hstreams.trans_le (h.honest.advertisedStreams_le (isUni id))
    · rename_i hpeer
      rw [if_neg hpeer, hstreams.1, hstreams.2]
      rfl
  refine ⟨h.accounts, h.honest, fun other => (h.seen_le other).trans (reach_le_append _ hextent _),
    htotal.trans h.honest.advertisedData_le, ?_⟩
  intro g hg other far hother
  rcases mem_append.mp hg with hold | hnew
  · obtain ⟨hold, hreach, hlimit⟩ := h.sent g hold other far hother
    exact ⟨hold, hreach.trans (reach_le_append _ hextent _), hlimit⟩
  rw [mem_singleton.mp hnew, hextent] at hother
  obtain ⟨rfl, rfl⟩ := Prod.mk.inj (Option.some.inj hother)
  refine ⟨hmay, ?_, (h.honest.advertisedStreamData_le h.accounts id).imp_right hstream.trans⟩
  change stop ≤ reach (l.sent ++ [f]) id
  rw [reach_append l.sent hextent, if_pos rfl]
  exact le_max_right _ _

lemma Inv.arrive (place : ℕ) : ∃ seen', (l.exec (.arrive place)).Inv seen' := by
  unfold exec
  simp only
  split
  · rename_i f hplace
    have hf := mem_of_getElem? hplace
    simp only [Connection.exec]
    split
    · exact ⟨seen, h⟩
    have hmoved : ∀ id stop, f.extent = some (id, stop) →
        Moved l.conn (l.conn.onFrame f).2 seen id stop →
        ∃ seen', Inv { l with conn := (l.conn.onFrame f).2 } seen' := by
      rintro id stop hextent ⟨hgrows, seen', haccounts, hseen⟩
      refine ⟨seen', h.grows hgrows haccounts fun other => ?_⟩
      rcases hseen other with hsame | ⟨rfl, hstop⟩
      · rw [hsame]
        exact h.seen_le other
      · rw [hstop]
        exact (h.sent f hf other stop hextent).2.1
    cases f with
    | stream id offset fin data =>
      exact hmoved _ _ rfl (h.accounts.onStream id offset fin data).1
    | resetStream id errorCode finalSize =>
      exact hmoved _ _ rfl (h.accounts.onResetStream id errorCode finalSize)
    | _ => exact ⟨seen, h.grows (quiet_onFrame rfl).grows (h.accounts.quiet (quiet_onFrame rfl))
        h.seen_le⟩
  · exact ⟨seen, h⟩

lemma Inv.exec {event : Event} (hfair : l.Fair event) : ∃ seen', (l.exec event).Inv seen' := by
  cases event with
  | call k =>
    have hplain : ∀ f, k = .receive f → f.extent = none := by
      rintro f rfl
      exact hfair
    obtain ⟨hgrows, haccounts⟩ := h.accounts.exec hplain
    exact ⟨seen, h.grows hgrows haccounts h.seen_le⟩
  | send f => exact ⟨seen, h.send hfair⟩
  | arrive place => exact h.arrive place

lemma Inv.run {events : List Event} (hfair : l.FairRun events) :
    ∃ seen', (l.run events).Inv seen' := by
  induction events generalizing l seen with
  | nil => exact ⟨seen, h⟩
  | cons event rest ih =>
    obtain ⟨seen', hnext⟩ := h.exec hfair.1
    exact ih hnext hfair.2

end

lemma inv_start (remembered : Option TransportParams)
    (earlySendKeys : Bool) : Inv ⟨start role tp remembered earlySendKeys, []⟩ 0 where
  accounts := accounts_start role tp remembered earlySendKeys
  honest := honest_start role tp remembered earlySendKeys
  seen_le _ := Nat.zero_le _
  reach_le := Nat.zero_le _
  sent := nofun

/-- A peer that keeps to the limits it was told is not refused for them, in whatever order its
frames arrive: only a stream on top of 256 that are open, a fragment apart from 256 that wait, and
a reset on top of 256 that were not read are refused. The buffered bytes are those that open streams
have received and the application has not read, and stay within their bound. -/
theorem credit_honoured (role : Role) (tp : TransportParams) (remembered : Option TransportParams)
    (earlySendKeys : Bool) (events : List Event)
    (hfair : FairRun ⟨start role tp remembered earlySendKeys, []⟩ events) :
    let l := run ⟨start role tp remembered earlySendKeys, []⟩ events
    (l.conn.recvBuffered = (l.conn.streams.entries.map fun entry =>
        entry.2.highestOffset - entry.2.appConsumed).sum ∧
      l.conn.recvBuffered ≤ maxConnectionReassembly) ∧
    (∀ id offset fin data, .stream id offset fin data ∈ l.sent →
      ((l.conn.onStream id offset fin data).1 = .error .flowControl →
        (l.conn.streamAt id).asm.crowded offset (offset + data.length) = true) ∧
      ((l.conn.onStream id offset fin data).1 = .error .streamLimit →
        id ∉ l.conn.streams ∧ maxStreamsHard ≤ l.conn.streams.keys.length)) ∧
    ∀ id errorCode finalSize, .resetStream id errorCode finalSize ∈ l.sent →
      (l.conn.onResetStream id errorCode finalSize).1 ≠ .error .flowControl ∧
      ((l.conn.onResetStream id errorCode finalSize).1 = .error .streamLimit →
        maxStreamsHard ≤ l.conn.resetStreams.length) := by
  intro l
  obtain ⟨seen, h⟩ : ∃ seen, l.Inv seen := (inv_start role tp remembered earlySendKeys).run hfair
  refine ⟨⟨h.accounts.buffered, h.accounts.buffered_le⟩, ?_, ?_⟩
  · intro id offset fin data hf
    cases hopen : l.conn.recvStreamClosed id with
    | true =>
      rw [onStream, if_pos hopen]
      exact ⟨nofun, nofun⟩
    | false =>
      have hrefusal := (h.accounts.onStream id offset fin data).2 (h.within hf rfl hopen)
      exact ⟨hrefusal.flowControl, hrefusal.streamLimit⟩
  · intro id errorCode finalSize hf
    cases hopen : l.conn.recvStreamClosed id with
    | true =>
      rw [onResetStream, if_pos hopen]
      exact ⟨nofun, nofun⟩
    | false => exact onResetStream_refusal (h.within hf rfl hopen) errorCode

def smallWindow : Link := ⟨start .server ⟨1000, 1000, 1000, 1000, 300, 300⟩ none false, []⟩

variable (count : ℕ)

/-- Every second byte of a stream but the first. -/
def scattered : List Event :=
  (List.range count).flatMap fun i => [.send (.stream 0 (2 * i + 2) false [7]), .arrive i]

/-- Three bytes, and the first of them once more: the last one is the seventh of the stream. -/
theorem credit_honoured_scattered :
    smallWindow.FairRun (scattered 3 ++ [.arrive 0]) ∧
      (smallWindow.run (scattered 3 ++ [.arrive 0])).conn.recvBuffered = 7 ∧
      (smallWindow.run (scattered 3 ++ [.arrive 0])).conn.recvBuffered ≤
        maxConnectionReassembly := by
  have hfair : smallWindow.FairRun (scattered 3 ++ [.arrive 0]) := by decide +kernel
  have hbuffered : (smallWindow.run (scattered 3 ++ [.arrive 0])).conn.recvBuffered = 7 := by
    decide +kernel
  have hhonoured := credit_honoured .server ⟨1000, 1000, 1000, 1000, 300, 300⟩ none false _ hfair
  exact ⟨hfair, hbuffered, hhonoured.1.2⟩

/-- The fragments of `scattered`. -/
def waiting : List Fragment := (List.range count).map fun i => ⟨2 * i + 2, [7]⟩

/-- What `scattered` leaves behind. -/
def afterScattered : Link where
  conn := { smallWindow.conn with
    outFramesApp := [.maxStreamData 0 maxStreamReassembly]
    streams := AList.singleton 0 ⟨⟨0, waiting count, count⟩, [], none, false, 2 * count + 1, 0⟩
    recvTotalHighest := 2 * count + 1
    recvBuffered := 2 * count + 1
    localStreamMax := AList.singleton 0 maxStreamReassembly }
  sent := (List.range count).map fun i => .stream 0 (2 * i + 2) false [7]

lemma waiting_wf : Reasm.Wf ⟨0, waiting count, count⟩ where
  gapped := by
    rw [Reasm.Gapped, waiting, pairwise_map]
    refine pairwise_lt_range.imp fun {i j} hij => ?_
    simp only [Reasm.stop_eq, length_singleton]
    omega
  behind := by simp [waiting]
  bytes := by
    have hone : (waiting count).map (fun f => f.data.length) = replicate count 1 := by
      rw [waiting, eq_replicate_iff]
      simp
    simp [hone]

lemma sent_succ : (afterScattered (count + 1)).sent =
    (afterScattered count).sent ++ [.stream 0 (2 * count + 2) false [7]] := by
  simp [afterScattered, range_succ]

variable {count : ℕ}

section

variable (hroom : count < maxPendingFragments)
include hroom

lemma push_waiting :
    Reasm.push ⟨0, waiting count, count⟩ (2 * count + 2) [7] maxStreamReassembly =
      .ok ([], ⟨0, waiting (count + 1), count + 1⟩) := by
  have hsucc : waiting (count + 1) = waiting count ++ [⟨2 * count + 2, [7]⟩] := by
    simp [waiting, range_succ]
  have hlast : ∀ f ∈ waiting count, f.stop < 2 * count + 2 := by
    simp only [waiting, mem_map, mem_range]
    rintro f ⟨i, hi, rfl⟩
    simp only [Reasm.stop_eq, length_singleton]
    omega
  have hlimit : 2 * count + 3 ≤ maxStreamReassembly := by
    simp only [maxPendingFragments, maxStreamReassembly] at hroom ⊢
    omega
  have hlength : (waiting count).length = count := by simp [waiting]
  rw [hsucc]
  exact Reasm.push_apart (waiting_wf count) (by simp) hlast hlimit
    (by simp only [length_singleton]; omega) (hlength.symm ▸ hroom)

lemma charge_waiting {c : Connection} (htotal : c.recvTotalHighest = 2 * count + 1)
    (hbuffered : c.recvBuffered = 2 * count + 1) (hmax : c.localMaxData = 1000) :
    c.charge ⟨⟨0, waiting count, count⟩, [], none, false, 2 * count + 1, 0⟩ (2 * count + 3) =
      some ({ c with recvTotalHighest := 2 * count + 3, recvBuffered := 2 * count + 3 },
        ⟨⟨0, waiting count, count⟩, [], none, false, 2 * count + 3, 0⟩) := by
  have hdelta : 2 * count + 3 - (2 * count + 1) = 2 := by omega
  simp only [maxPendingFragments] at hroom
  rw [charge, if_neg (by simp), hdelta, htotal, hbuffered, if_neg]
  simp only [maxConnectionReassembly]
  omega

lemma onStream_waiting :
    ((afterScattered count).conn.onStream 0 (2 * count + 2) false [7]).2 =
      (afterScattered (count + 1)).conn := by
  have hprops : (afterScattered count).conn.recvStreamProperties 0 =
      .ok (true, false, maxStreamReassembly) := rfl
  have hlookup : (afterScattered count).conn.streams.lookup 0 =
      some ⟨⟨0, waiting count, count⟩, [], none, false, 2 * count + 1, 0⟩ := rfl
  have haccept : StreamRecv.accept ⟨⟨0, waiting count, count⟩, [], none, false, 2 * count + 3, 0⟩
      (2 * count + 2) false [7] maxStreamReassembly =
        (.ok ([], false, none),
          ⟨⟨0, waiting (count + 1), count + 1⟩, [], none, false, 2 * count + 3, 0⟩) := by
    rw [StreamRecv.accept, push_waiting hroom]
    rfl
  have hlimit : ¬ maxStreamReassembly < 2 * count + 2 + 1 := by
    simp only [maxPendingFragments, maxStreamReassembly] at hroom ⊢
    omega
  rw [onStream, hprops]
  simp only [length_singleton]
  rw [if_neg hlimit, receiveData, hlookup]
  simp only [Option.getD_some, length_singleton]
  rw [charge_waiting hroom rfl rfl rfl]
  simp only [haccept]
  rfl

lemma exec_arrive :
    ((afterScattered count).exec (.send (.stream 0 (2 * count + 2) false [7]))).exec
      (.arrive count) = afterScattered (count + 1) := by
  have hplace : (afterScattered (count + 1)).sent[count]? =
      some (.stream 0 (2 * count + 2) false [7]) := by
    simp [afterScattered]
  simp only [exec, ← sent_succ, hplace]
  exact congrArg (mk · (afterScattered (count + 1)).sent) (onStream_waiting hroom)

end

lemma fairRun_append {l : Link} {first rest : List Event} :
    l.FairRun (first ++ rest) ↔ l.FairRun first ∧ (l.run first).FairRun rest := by
  induction first generalizing l with
  | nil => exact (iff_of_eq (true_and _)).symm
  | cons event first ih => exact (and_congr_right fun _ => ih).trans and_assoc.symm

lemma run_append (l : Link) (first rest : List Event) :
    l.run (first ++ rest) = (l.run first).run rest := foldl_append

lemma reach_scattered (count : ℕ) : reach (afterScattered (count + 1)).sent 0 = 2 * count + 3 := by
  induction count with
  | zero => rfl
  | succ count ih =>
    rw [sent_succ, reach_append _ rfl, if_pos rfl]
    simp only [length_singleton]
    omega

lemma reachTotal_scattered (count : ℕ) :
    reachTotal (afterScattered (count + 1)).sent = 2 * count + 3 := by
  have hextents : ((afterScattered (count + 1)).sent.filterMap Frame.extent).map Prod.fst =
      replicate (count + 1) 0 := by
    simp [afterScattered, Frame.extent, Function.comp_def]
  rw [reachTotal, reached, hextents, replicate_dedup (by omega), map_singleton,
    sum_singleton, reach_scattered]

lemma allowed_next (count : ℕ) (hroom : count ≤ maxPendingFragments) :
    (afterScattered count).Allowed (.stream 0 (2 * count + 2) false [7]) 0 (2 * count + 3) := by
  simp only [maxPendingFragments] at hroom
  have hstream : (afterScattered count).conn.advertisedStreamData 0 = 1000 := rfl
  have hdata : (afterScattered count).conn.advertisedData = 1000 := rfl
  have hstreams : (afterScattered count).conn.advertisedStreams (isUni 0) = 256 := rfl
  refine ⟨?_, ?_, ?_⟩
  · omega
  · rw [← sent_succ, reachTotal_scattered]
    omega
  · have hopens : (afterScattered count).conn.role.peer.opens 0 = true := rfl
    rw [if_pos hopens, hstreams]
    decide

/-- Up to the bound on them, the pieces wait. -/
theorem run_scattered (hpos : 0 < count) (hroom : count ≤ maxPendingFragments) :
    smallWindow.FairRun (scattered count) ∧
      smallWindow.run (scattered count) = afterScattered count := by
  induction count, hpos using Nat.le_induction with
  | base => exact ⟨by decide, rfl⟩
  | succ count hpos ih =>
    obtain ⟨hfair, hrun⟩ := ih (by omega)
    have hsucc : scattered (count + 1) = scattered count ++
        [.send (.stream 0 (2 * count + 2) false [7]), .arrive count] := by
      simp [scattered, range_succ]
    rw [hsucc, fairRun_append, hrun]
    refine ⟨⟨hfair, allowed_next count (by omega), trivial, trivial⟩, ?_⟩
    rw [run_append, hrun]
    exact exec_arrive hroom

lemma reach_empty {frames : List Frame} (h : ∀ f ∈ frames, ∃ id, f.extent = some (id, 0)) (id : ℕ) :
    reach frames id = 0 := by
  induction frames using reverseRecOn with
  | nil => rfl
  | append_singleton frames f ih =>
    obtain ⟨other, hf⟩ := h f (mem_append_right _ (mem_singleton_self f))
    rw [reach_append frames hf, ih fun g hg => h g (mem_append_left _ hg)]
    exact ite_self 0

/-- Frames without data are within the credit, on streams that the peer may open. -/
theorem fairRun_empty {frames sent : List Frame} (places : List ℕ)
    (hsent : ∀ f ∈ sent, ∃ id, f.extent = some (id, 0))
    (hframes : ∀ f ∈ frames, ∃ id, f.extent = some (id, 0) ∧ Role.client.opens id = true ∧
      streamNumber id < 256) :
    FairRun ⟨smallWindow.conn, sent⟩ (frames.map .send ++ places.map .arrive) := by
  induction frames generalizing sent with
  | nil =>
    rw [map_nil, nil_append]
    generalize (⟨smallWindow.conn, sent⟩ : Link) = l
    induction places generalizing l with
    | nil => trivial
    | cons place rest ih => exact ⟨trivial, ih _⟩
  | cons f rest ih =>
    rw [forall_mem_cons] at hframes
    obtain ⟨⟨id, hextent, hopens, hid⟩, hrest⟩ := hframes
    have hmore : ∀ g ∈ sent ++ [f], ∃ id, g.extent = some (id, 0) :=
      forall_mem_append.mpr ⟨hsent, forall_mem_singleton.mpr ⟨id, hextent⟩⟩
    have hzero : reachTotal (sent ++ [f]) = 0 := sum_eq_zero fun far hfar => by
      obtain ⟨other, -, rfl⟩ := mem_map.mp hfar
      exact reach_empty hmore other
    refine ⟨?_, ih hmore hrest⟩
    rw [Fair, hextent]
    refine ⟨Nat.zero_le _, hzero ▸ Nat.zero_le _, ?_⟩
    rw [if_pos (by exact hopens)]
    cases isUni id <;> exact hid

/-- A frame for each of 256 streams of the peer arrives, and one for another is on its way. -/
def crowd (frame : ℕ → Frame) : List Event :=
  ((List.range 256).map (fun i => frame (4 * i)) ++ [frame 2]).map .send ++
    (List.range 256).map .arrive

lemma fairRun_crowd {frame : ℕ → Frame} (hframe : ∀ id, (frame id).extent = some (id, 0)) :
    smallWindow.FairRun (crowd frame) := by
  refine fairRun_empty _ nofun (forall_mem_append.mpr ⟨forall_mem_map.mpr fun i hi => ?_,
    forall_mem_singleton.mpr ⟨2, hframe 2, rfl, by decide⟩⟩)
  refine ⟨4 * i, hframe _, decide_eq_true (show 4 * i % 2 = 0 by omega), ?_⟩
  rw [streamNumber, Nat.mul_div_cancel_left i four_pos]
  exact mem_range.mp hi

def opening : List Event := crowd fun id => .stream id 0 false []

def resetting : List Event := crowd fun id => .resetStream id 0 0

set_option maxRecDepth 100000 in
/-- 256 bytes wait for the ones between them, 256 streams are open, or 256 resets wait: one more is
refused. -/
theorem fragment_refused :
    (smallWindow.FairRun (scattered 256 ++ [.send (.stream 0 514 false [7])]) ∧
      ((smallWindow.run (scattered 256 ++ [.send (.stream 0 514 false [7])])).conn.onStream 0 514
        false [7]).1 = .error .flowControl) ∧
    (smallWindow.FairRun opening ∧
      ((smallWindow.run opening).conn.onStream 2 0 false []).1 = .error .streamLimit) ∧
    smallWindow.FairRun resetting ∧
      ((smallWindow.run resetting).conn.onResetStream 2 0 0).1 = .error .streamLimit := by
  obtain ⟨hfair, hrun⟩ := run_scattered (by decide : 0 < 256) le_rfl
  refine ⟨⟨fairRun_append.mpr ⟨hfair, ?_⟩, ?_⟩, ⟨fairRun_crowd fun _ => rfl, ?_⟩,
    fairRun_crowd fun _ => rfl, ?_⟩
  · rw [hrun]
    exact ⟨allowed_next 256 le_rfl, trivial⟩
  · rw [run_append, hrun]
    decide +kernel
  · decide +kernel
  · decide +kernel

end Link

end OnetDns.Quic
