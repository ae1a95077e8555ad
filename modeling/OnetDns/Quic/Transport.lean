import OnetDns.Quic.Packets

/-!
# Sending, acknowledgement and loss of packets

The part of `Connection` in `onetdns-quic/src/conn.rs` that deals with keys, packets and
timers. What TLS hands over, the frames that the streams queue, and the packets that open
are inputs of the steps. In `Trace` a connection keeps what has happened to it, which the
source does not.
-/
namespace OnetDns.Quic.Transport

/-- The timers among the peer's transport parameters. -/
structure PeerTimers where
  maxIdleTimeout : ℕ
  ackDelayExponent : ℕ
  maxAckDelay : ℕ
  deriving DecidableEq

/-- What has happened to a connection. -/
structure Trace where
  /-- Packets put into a datagram. -/
  emitted : List Packet := []
  /-- Frames queued for the application space. -/
  queued : List Frame := []
  /-- Handshake data that TLS gave for a space. -/
  crypto : Space → Bytes := fun _ => []
  /-- Frames of packets that were acknowledged, by space. -/
  acked : Space → List Queued := fun _ => []
  /-- Streams that the peer stopped. -/
  stopped : List ℕ := []

def Trace.addAcked (trace : Trace) (x : Space) (frames : List Queued) : Trace :=
  { trace with acked := Function.update trace.acked x (trace.acked x ++ frames) }

def Trace.addCrypto (trace : Trace) (x : Space) (data : Bytes) : Trace :=
  { trace with crypto := Function.update trace.crypto x (trace.crypto x ++ data) }

structure Connection where
  role : Role
  /-- Whether the server still waits for the first packet. -/
  awaitingInitial : Bool
  spaces : Space → SpaceState
  localCid : Bytes
  remoteCid : Bytes
  initialDcid : Bytes
  handshakeComplete : Bool := false
  handshakeConfirmed : Bool := false
  closed : Bool := false
  maxIdleTimeout : ℕ
  peerTp : Option PeerTimers := none
  /-- Zero bytes that fill up a datagram are left out. -/
  outDatagrams : List (List Packet) := []
  outFramesApp : List Queued := []
  closeFrame : Option Bytes := none
  retryToken : Bytes := []
  retryDone : Bool := false
  retryScid : Option Bytes := none
  initialCrypto : Bytes := []
  nowMs : ℕ := 0
  lastActivityMs : ℕ := 0
  srttMs : ℕ := 333
  rttvarMs : ℕ := 166
  haveRtt : Bool := false
  minRttMs : ℕ := u64Max
  latestRttMs : ℕ := 0
  ptoCount : ℕ := 0
  cwnd : ℕ := 10 * maxDatagram
  ssthresh : ℕ := u64Max
  bytesInFlight : ℕ := 0
  recoveryStartMs : Option ℕ := none
  /-- The secret of the handshake and how often it was updated. -/
  appSendSecret : Option (Bytes × ℕ) := none
  sendKeyPhase : Bool := false
  recvKeyPhase : Bool := false
  keyUpdateAllowed : Bool := false
  earlySendKeys : Option SealKey := none
  outFramesEarly : List Queued := []
  earlyBackup : List Queued := []
  earlySent : Bool := false
  trace : Trace := {}

namespace Connection

variable (c : Connection)

variable (x : Space)

def setSpace (s : SpaceState) : Connection := { c with spaces := Function.update c.spaces x s }

@[simp] lemma setSpace_self (s : SpaceState) :
    (c.setSpace x s).spaces x = s := Function.update_self _ _ _

lemma setSpace_of_ne {x y : Space} (s : SpaceState) (h : y ≠ x) :
    (c.setSpace x s).spaces y = c.spaces y := Function.update_of_ne h _ _

def canSendNew : Bool := c.bytesInFlight < c.cwnd

def trackSent (pn : ℕ) (ackEliciting : Bool) (size : ℕ)
    (frames : List Queued) : Connection :=
  if !ackEliciting then c
  else
    let s := c.spaces x
    { c.setSpace x { s with
        lastAckElicitingMs := c.nowMs
        sent := s.sent ++ [⟨pn, c.nowMs, ackEliciting, size, frames⟩] } with
      bytesInFlight := c.bytesInFlight + size
      lastActivityMs := c.nowMs }

/-- The acknowledgement at the start of a packet. -/
def takeAck (s : SpaceState) : SpaceState × Bytes :=
  if s.ackPending then
    ({ s with recvPns := [], ackPending := false }, (buildAck s.recvPns).getD [])
  else (s, [])

/-- Fill a packet from a space: an acknowledgement and what goes along with it, and, if the
window or a probe allows it, frames to send again and handshake data. -/
def fill (probe : ℕ) (along : Bytes) : SpaceState × Packing :=
  let (s, ack) := takeAck (c.spaces x)
  let packing : Packing := { payload := ack ++ along }
  if c.canSendNew || 0 < probe then
    let (rtx, packing) := appendQueuedFrames s.rtx packing
    appendCryptoChunk { s with rtx } packing
  else (s, packing)

/-- A connection together with the packets that a probe may send beyond the window. -/
abbrev Sending := Connection × ℕ

/-- A packet leaves: its number is used up and it is tracked. -/
def emit (s : SpaceState) (packing : Packing) (pkt : Packet)
    (probe : ℕ) : Sending :=
  let numbered := c.setSpace x { s with nextPn := s.nextPn + 1 }
  (numbered.trackSent x pkt.pn packing.ackEliciting pkt.len packing.frames,
    if packing.ackEliciting && !c.canSendNew then probe - 1 else probe)

def buildLongPacket (padTo : ℕ) (sending : Sending) : Option Packet × Sending :=
  let (c, probe) := sending
  match (c.spaces x).sendKeys with
  | none => (none, sending)
  | some key =>
    let (s, packing) := c.fill x probe []
    if packing.payload = [] then (none, c.setSpace x s, probe)
    else
      let kind := if x = .initial then PacketKind.initial else PacketKind.handshake
      let token := if x = .initial then c.retryToken else []
      let pkt : Packet :=
        ⟨kind, key, s.nextPn, c.remoteCid, c.localCid, token, false, packing.payload⟩
      let pkt := pkt.padded padTo
      (some pkt, c.emit x s packing pkt probe)

def buildZeroRttPacket (sending : Sending) : Option Packet × Sending :=
  let (c, probe) := sending
  if c.outFramesEarly = [] ∨ c.canSendNew = false then (none, sending)
  else
    match c.earlySendKeys with
    | none => (none, sending)
    | some key =>
      let (rest, packing) := appendQueuedFrames c.outFramesEarly {}
      let c := { c with outFramesEarly := rest }
      if packing.payload = [] then (none, c, probe)
      else
        let s := c.spaces .app
        let pkt : Packet :=
          ⟨.zeroRtt, key, s.nextPn, c.remoteCid, c.localCid, [], false, packing.payload⟩
        (some pkt, ({ c with earlySent := true }).emit .app s packing pkt probe)

def buildShortPacket (sending : Sending) : Option Packet × Sending :=
  let (c, probe) := sending
  match (c.spaces .app).sendKeys with
  | none => (none, sending)
  | some key =>
    let (s, packing) := c.fill .app probe (c.closeFrame.getD [])
    let (rest, packing) :=
      if c.canSendNew || 0 < probe then appendQueuedFrames c.outFramesApp packing
      else (c.outFramesApp, packing)
    let c := { c with outFramesApp := rest, closeFrame := none }
    if packing.payload = [] then (none, c.setSpace .app s, probe)
    else
      let pkt : Packet :=
        ⟨.oneRtt, key, s.nextPn, c.remoteCid, [], [], c.sendKeyPhase, packing.payload⟩
      (some pkt, c.emit .app s packing pkt probe)

/-- Make packets until there is none to make. -/
def drain (build : Sending → Option Packet × Sending) : ℕ → Sending → List Packet × Sending
  | 0, sending => ([], sending)
  | fuel + 1, sending =>
    match build sending with
    | (none, sending) => ([], sending)
    | (some pkt, sending) =>
      let (rest, sending) := drain build fuel sending
      (pkt :: rest, sending)

/-- What waits to be sent in a space. -/
def spaceBacklog (s : SpaceState) : ℕ := s.recvPns.length + s.outCrypto.length + s.rtx.length

/-- What waits to be sent; every packet takes some of it. -/
def backlog : ℕ :=
  spaceBacklog (c.spaces .initial) + spaceBacklog (c.spaces .handshake) +
    spaceBacklog (c.spaces .app) +
    c.outFramesApp.length + c.outFramesEarly.length + (c.closeFrame.getD []).length

/-- Packets share a datagram until it is full; a short header ends it. -/
def groupDatagrams : List Packet → List Packet → List (List Packet)
  | dg, [] => if dg = [] then [] else [dg]
  | dg, p :: rest =>
    let full := dg ≠ [] ∧ maxDatagram < (dg.map Packet.len).sum + p.len
    let done := if full then [dg] else []
    let dg := if full then [p] else dg ++ [p]
    if p.kind = .oneRtt then done ++ dg :: groupDatagrams [] rest
    else done ++ groupDatagrams dg rest

def inFlight (s : SpaceState) : ℕ := (s.sent.map SentPacket.size).sum

def discardSpace : Connection :=
  { c.setSpace x { discarded := true } with
    bytesInFlight := c.bytesInFlight - inFlight (c.spaces x)
    ptoCount := 0 }

/-- A space that is gone is not discarded again. -/
def discardOnce : Connection :=
  if (c.spaces x).discarded then c else c.discardSpace x

def discardFinishedSpaces : Connection :=
  let c :=
    if c.role = .server ∧ (c.spaces .handshake).received.largest.isSome then
      c.discardOnce .initial
    else c
  if c.handshakeConfirmed then (c.discardOnce .initial).discardOnce .handshake else c

/-- `discard_send_output`. The queues of the streams are not part of this model. -/
def discardSendOutput : Connection :=
  { c with
    outDatagrams := []
    outFramesApp := []
    outFramesEarly := []
    earlyBackup := []
    spaces := fun x => { c.spaces x with rtx := [], sent := [] }
    bytesInFlight := 0 }

def flushPackets (probe : ℕ) (c : Connection) : Connection :=
  if c.closed then c
  else
    let pad :=
      if c.role = .client ∧ (c.spaces .initial).nextPn = 0 then minInitialDatagram else 0
    let (first, sending) := buildLongPacket .initial pad (c, probe)
    let (early, sending) := drain buildZeroRttPacket (sending.1.backlog + 1) sending
    let (handshake, sending) := drain (buildLongPacket .handshake 0) (sending.1.backlog + 1) sending
    let sending :=
      if handshake ≠ [] ∧ c.role = .client ∧ (sending.1.spaces .initial).discarded = false then
        (sending.1.discardSpace .initial, sending.2)
      else sending
    let (short, sending) := drain buildShortPacket (sending.1.backlog + 1) sending
    let packets := first.toList ++ early ++ handshake ++ short
    let c := sending.1
    { c with
      outDatagrams := c.outDatagrams ++ groupDatagrams [] packets
      trace := { c.trace with emitted := c.trace.emitted ++ packets } }

def flush : Connection := c.flushPackets 0

def updateRtt (sampleMs ackDelayMs : ℕ) : Connection :=
  let sample := max sampleMs 1
  let minRtt := min c.minRttMs sample
  let adjusted := if min (minRtt + ackDelayMs) u64Max < sample then sample - ackDelayMs else sample
  let c := { c with latestRttMs := sample, minRttMs := minRtt }
  if !c.haveRtt then { c with srttMs := adjusted, rttvarMs := adjusted / 2, haveRtt := true }
  else
    let varSample := max (c.srttMs - adjusted) (adjusted - c.srttMs)
    { c with
      rttvarMs := (3 * c.rttvarMs + varSample) / 4
      srttMs := (7 * c.srttMs + adjusted) / 8 }

def onCcAck (acked : ℕ) : Connection :=
  if c.cwnd < c.ssthresh then { c with cwnd := c.cwnd + acked }
  else { c with cwnd := c.cwnd + max (maxDatagram * acked / c.cwnd) 1 }

def onCcLoss : Connection :=
  let ssthresh := max (c.cwnd / 2) (2 * maxDatagram)
  { c with ssthresh, cwnd := ssthresh }

/-- Numbers below the last range of an acknowledgement. -/
def moreRanges : ℕ → List (ℕ × ℕ) → Option (List (ℕ × ℕ))
  | _, [] => some []
  | cur, (gap, len) :: rest =>
    if cur < gap + 2 then none
    else
      let nextHi := cur - (gap + 2)
      if nextHi < len then none
      else (moreRanges (nextHi - len) rest).map ((nextHi - len, nextHi) :: ·)

def ackRanges (largest firstRange : ℕ) (ranges : List (ℕ × ℕ)) : Option (List (ℕ × ℕ)) :=
  if largest < firstRange then none
  else (moreRanges (largest - firstRange) ranges).map ((largest - firstRange, largest) :: ·)

/-- Whether a number is acknowledged: the first range that starts no later holds it. -/
def isAcked (acked : List (ℕ × ℕ)) (pn : ℕ) : Bool :=
  (acked.find? fun range => range.1 ≤ pn).any fun range => range.1 ≤ pn && pn ≤ range.2

/-- How long `detect_lost` waits for an acknowledgement. -/
def lossDelay : ℕ := max (max c.srttMs c.latestRttMs * 9 / 8) 1

/-- Whether `detect_lost` takes a packet as lost. -/
def isLost (largestAcked : ℕ) (sp : SentPacket) : Bool :=
  sp.pn ≤ largestAcked && (sp.pn + 3 ≤ largestAcked || c.lossDelay ≤ c.nowMs - sp.timeMs)

/-- The packets that stay when these are taken as lost, and when the next one is. -/
def keepUnlost (largestAcked : ℕ) : Connection :=
  let s := c.spaces x
  let remaining := s.sent.filter fun sp => !c.isLost largestAcked sp
  let due := (remaining.filter fun sp => sp.pn ≤ largestAcked).map
    fun sp => min (sp.timeMs + c.lossDelay) u64Max
  c.setSpace x { s with sent := remaining, lossTimeMs := due.min? }

/-- The frames of lost packets go out again, and the window shrinks. -/
def requeueLost (lost : List SentPacket) : Connection :=
  let s := c.spaces x
  let c := { c.setSpace x { s with rtx := s.rtx ++ lost.flatMap SentPacket.frames } with
    bytesInFlight := c.bytesInFlight - (lost.map SentPacket.size).sum }
  let newest := (lost.map SentPacket.timeMs).max?
  if newest.any fun t => c.recoveryStartMs.all (· < t) then
    { c.onCcLoss with recoveryStartMs := some c.nowMs }
  else c

def detectLost : Connection :=
  match (c.spaces x).largestAcked with
  | none => c
  | some largestAcked =>
    let lost := (c.spaces x).sent.filter (c.isLost largestAcked)
    let c := c.keepUnlost x largestAcked
    if (lost.map SentPacket.size).sum = 0 then c else c.requeueLost x lost

/-- The acknowledgement delay that counts for the round trip. -/
def ackDelayMs (delay : ℕ) : ℕ :=
  if x = .app then
    match c.peerTp with
    | none => 0
    | some tp =>
      let micros := if tp.ackDelayExponent < 64 then delay * 2 ^ tp.ackDelayExponent % 2 ^ 64
        else u64Max
      min (min (micros + 999) u64Max / 1000) tp.maxAckDelay
  else 0

/-- The packets that an acknowledgement leaves. -/
def takeAcked (largest : ℕ) (acked : List (ℕ × ℕ)) : Connection :=
  let s := c.spaces x
  { c.setSpace x { s with
      sent := s.sent.filter fun sp => !isAcked acked sp.pn
      largestAcked := some (max (s.largestAcked.getD largest) largest) } with
    trace := c.trace.addAcked x
      ((s.sent.filter fun sp => isAcked acked sp.pn).flatMap SentPacket.frames) }

/-- The round trip of the newest packet that was acknowledged. -/
def measure (delay : ℕ) : Option ℕ → Connection
  | none => c
  | some sentMs => c.updateRtt (c.nowMs - sentMs) (c.ackDelayMs x delay)

/-- What follows when something new was acknowledged. -/
def afterAck (delay : ℕ) (gone : List SentPacket)
    (newest : Option ℕ) : Connection :=
  let congestion := ((gone.filter fun sp =>
    c.recoveryStartMs.all (· < sp.timeMs)).map SentPacket.size).sum
  let c := { c with bytesInFlight := c.bytesInFlight - (gone.map SentPacket.size).sum }
  let c := { c.measure x delay newest with ptoCount := 0 }
  let c := if 0 < congestion then c.onCcAck congestion else c
  c.detectLost x

/-- `on_ack`; `none` is an error. -/
def onAck (largest delay firstRange : ℕ) (ranges : List (ℕ × ℕ)) :
    Option Connection :=
  let s := c.spaces x
  if s.nextPn ≤ largest then none
  else
    (ackRanges largest firstRange ranges).map fun acked =>
      let gone := s.sent.filter fun sp => isAcked acked sp.pn
      let newest := (gone.filter fun sp => sp.pn == largest && sp.ackEliciting).map
        SentPacket.timeMs
      let advanced := s.largestAcked.all (· < largest)
      let c := c.takeAcked x largest acked
      if (gone.map SentPacket.size).sum = 0 ∧ advanced = false then c
      else c.afterAck x delay gone newest.getLast?

def ptoArmed : Bool := !(c.spaces x).sent.isEmpty && (x != .app || c.handshakeConfirmed)

def ptoMs : ℕ := min ((c.srttMs + max (4 * c.rttvarMs) 1 + 25) * 2 ^ min c.ptoCount 6) u64Max

def ptoDeadline : Option ℕ :=
  (([.initial, .handshake, .app].filter c.ptoArmed).map fun x =>
    min ((c.spaces x).lastAckElicitingMs + c.ptoMs) u64Max).min?

/-- The loop of `queue_probe`: the frames of old packets go out again, within the budget. -/
def requeue : List SentPacket → ℕ → Bool → List SentPacket × List Queued
  | [], _, _ => ([], [])
  | sp :: rest, budget, requeued =>
    if sp.frames = [] then
      let (sent, frames) := requeue rest budget requeued
      (sp :: sent, frames)
    else if requeued = true ∧ budget < sp.size then (sp :: rest, [])
    else
      let (sent, frames) := requeue rest (budget - sp.size) true
      ({ sp with frames := [] } :: sent, sp.frames ++ frames)

def queueProbe : Connection :=
  let s := c.spaces x
  let (sent, frames) := requeue s.sent (probePackets * maxPacketPayload) false
  let rtx := s.rtx ++ frames
  c.setSpace x { s with sent, rtx := if rtx = [] then [.app .ping] else rtx }

/-- The idle timeout that both sides agreed on; 0 is none. -/
def idleTimeout : ℕ :=
  let peer := (c.peerTp.map PeerTimers.maxIdleTimeout).getD 0
  if c.maxIdleTimeout = 0 then peer
  else if peer = 0 then c.maxIdleTimeout
  else min c.maxIdleTimeout peer

def onTimeout (nowMs : ℕ) : Connection :=
  let c := { c with nowMs }
  if 0 < c.idleTimeout ∧ c.idleTimeout ≤ nowMs - c.lastActivityMs then
    ({ c with closed := true }).discardSendOutput
  else
    let due := [Space.initial, .handshake, .app].filter fun x =>
      (c.spaces x).lossTimeMs.any (· ≤ nowMs)
    if due ≠ [] then (due.foldl detectLost c).flush
    else
      match c.ptoDeadline with
      | none => c
      | some deadline =>
        if nowMs < deadline then c
        else
          let c := ([Space.initial, .handshake, .app].filter c.ptoArmed).foldl queueProbe c
          ({ c with ptoCount := min (c.ptoCount + 1) 8 }).flushPackets probePackets

def installInitialKeys (cid : Bytes) : Connection :=
  c.setSpace .initial ((c.spaces .initial).withKeys (.initial cid))

/-- A secret of TLS for the handshake or the application. -/
inductive LevelSecret where
  | handshake (secret : Bytes)
  | app (secret : Bytes)

def installSecrets : LevelSecret → Connection
  | .handshake secret =>
    let s := c.spaces .handshake
    if s.discarded then c
    else c.setSpace .handshake (s.withKeys (.handshake secret))
  | .app secret =>
    let s := c.spaces .app
    if s.discarded then c
    else
      { c.setSpace .app (s.withKeys (.oneRtt secret 0)) with
        appSendSecret := some (secret, 0) }

def updateSendKeys : Connection :=
  match c.appSendSecret, (c.spaces .app).sendKeys with
  | some (secret, generation), some _ =>
    { c.setSpace .app { c.spaces .app with
        sendKeys := some (.oneRtt secret (generation + 1)) } with
      appSendSecret := some (secret, generation + 1)
      sendKeyPhase := !c.sendKeyPhase }
  | _, _ => c

def initiateKeyUpdate : Connection :=
  if c.keyUpdateAllowed then c.updateSendKeys else c

def commitKeyUpdate : Connection :=
  let c :=
    if (c.spaces .app).recvKeys then { c with recvKeyPhase := !c.recvKeyPhase } else c
  if c.sendKeyPhase != c.recvKeyPhase then c.updateSendKeys else c

/-- The state in which `handle_retry` starts again, before it sends. -/
def restarted (scid token : Bytes) : Connection :=
  let c₁ := { c.setSpace .initial {} with
    remoteCid := scid
    retryScid := some scid
    retryToken := token
    bytesInFlight := c.bytesInFlight - inFlight (c.spaces .initial) }
  let c₂ := c₁.installInitialKeys scid
  { c₂.setSpace .initial { c₂.spaces .initial with outCrypto := c.initialCrypto } with
    retryDone := true }

/-- `handle_retry`, for a packet whose integrity tag is right. -/
def handleRetry (scid token : Bytes) : Connection :=
  if c.role ≠ .client ∨ c.retryDone then c
  else if (c.spaces .handshake).recvKeys ∨ (c.spaces .initial).discarded then c
  else if token = [] ∨ maxRetryToken < token.length ∨ scid = [] ∨ 20 < scid.length then c
  else (c.restarted scid token).flush

/-- A frame pushed to `out_frames_app`. -/
def pushApp (f : Frame) : Connection :=
  { c with
    outFramesApp := c.outFramesApp ++ [.app f]
    trace := { c.trace with queued := c.trace.queued ++ [f] } }

def queueAppFrame (f : Frame) : Connection :=
  if c.handshakeComplete = false ∧ c.earlySendKeys.isSome then
    { c with
      earlyBackup := c.earlyBackup ++ [.app f]
      outFramesEarly := c.outFramesEarly ++ [.app f]
      trace := { c.trace with queued := c.trace.queued ++ [f] } }
  else c.pushApp f

/-- Whether a queued frame carries data of the stream. -/
def isStreamOf (id : ℕ) : Queued → Bool
  | .app f => f.isStreamOf id
  | .crypto _ _ => false

/-- What `on_stop_sending` does to the queues of a stream that it stops. -/
def stopStream (id errorCode finalSize : ℕ) : Connection :=
  let keep := fun f => !isStreamOf id f
  let c := { c with
    outFramesApp := c.outFramesApp.filter keep
    outFramesEarly := c.outFramesEarly.filter keep
    earlyBackup := c.earlyBackup.filter keep
    spaces := fun x =>
      { c.spaces x with
        rtx := (c.spaces x).rtx.filter keep
        sent := (c.spaces x).sent.map fun sp : SentPacket =>
          { sp with frames := sp.frames.filter keep } }
    trace := { c.trace with stopped := c.trace.stopped ++ [id] } }
  c.pushApp (.resetStream id errorCode finalSize)

/-- What the streams do to the queues. -/
inductive StreamEffect where
  | push (frame : Frame)
  | queue (frame : Frame)
  | stop (id errorCode finalSize : ℕ)

def apply : StreamEffect → Connection
  | .push f => c.pushApp f
  | .queue f => c.queueAppFrame f
  | .stop id errorCode finalSize => c.stopStream id errorCode finalSize

/-- What `pump_tls` takes from TLS. -/
structure TlsOutput where
  secrets : List LevelSecret := []
  earlySecret : Option Bytes := none
  crypto : List (Space × Bytes) := []
  complete : Bool := false
  earlyAccepted : Bool := false
  /-- The peer's parameters, or that they are refused. -/
  peerTp : Option (Option PeerTimers) := none
  /-- Whether the window of the connection is raised when the handshake completes. -/
  raiseWindow : Bool := false

/-- Handshake data for a space. -/
def addCrypto (c : Connection) (given : Space × Bytes) : Connection :=
  let s := c.spaces given.1
  if s.discarded then c
  else
    { c.setSpace given.1 { s with outCrypto := s.outCrypto ++ given.2 } with
      trace := c.trace.addCrypto given.1 given.2 }

/-- What the client does with early data when the handshake completes. -/
def settleEarly (accepted : Bool) : Connection :=
  let c :=
    if c.earlySent = true ∧ accepted = false then
      let s := c.spaces .app
      { c.setSpace .app { s with sent := [], rtx := [] } with
        bytesInFlight := c.bytesInFlight - inFlight s
        outFramesEarly := []
        earlyBackup := []
        outFramesApp := c.outFramesApp ++ c.earlyBackup }
    else
      { c with
        outFramesEarly := []
        earlyBackup := []
        outFramesApp := c.outFramesApp ++ c.outFramesEarly }
  { c with earlySendKeys := none }

/-- The handshake is complete; the window of the connection may be raised. -/
def established (out : TlsOutput) : Connection :=
  let c := { c with handshakeComplete := true, keyUpdateAllowed := true }
  if out.raiseWindow then c.pushApp (.maxData maxConnectionReassembly) else c

/-- The end of `pump_tls`. -/
def complete (c : Connection) (out : TlsOutput) : Connection :=
  if out.complete ∧ c.handshakeComplete = false then
    match c.role with
    | .server => ({ c.established out with handshakeConfirmed := true }).pushApp .handshakeDone
    | .client => (c.established out).settleEarly out.earlyAccepted
  else c

/-- `pump_tls`. A server has no TLS before the first packet and none after the handshake. -/
def pumpTls (out : TlsOutput) : Connection :=
  if c.role = .server ∧ (c.awaitingInitial ∨ c.handshakeComplete) then c
  else
    let c := out.secrets.foldl installSecrets c
    let c := match out.earlySecret, c.role with
      | some secret, .client => { c with earlySendKeys := some (.zeroRtt secret) }
      | _, _ => c
    let c := out.crypto.foldl addCrypto c
    match c.peerTp, out.peerTp with
    | none, some none => ({ c with closed := true }).discardSendOutput
    | none, some (some tp) => ({ c with peerTp := some tp }).complete out
    | _, _ => c.complete out

/-- What every step of `pump_tls` keeps holds up to the end of it. -/
theorem pumpTls_rule {P Q : Connection → Prop} {c : Connection} (out : TlsOutput) (hskip : Q c)
    (hstart : ¬(c.role = .server ∧ (c.awaitingInitial ∨ c.handshakeComplete)) → P c)
    (hsecret : ∀ c, P c → ∀ given ∈ out.secrets, P (c.installSecrets given))
    (hearly : ∀ c secret, P c → P { c with earlySendKeys := some (.zeroRtt secret) })
    (hcrypto : ∀ c, P c → ∀ given ∈ out.crypto, P (c.addCrypto given))
    (hpeer : ∀ c tp, P c → P { c with peerTp := some tp })
    (hclose : ∀ c, P c → Q ({ c with closed := true }).discardSendOutput)
    (hcomplete : ∀ c, P c → Q (c.complete out)) : Q
    (c.pumpTls out) := by
  unfold pumpTls
  split
  · exact hskip
  rename_i hguard
  have hsecrets := List.foldlRecOn out.secrets _ (hstart hguard) hsecret
  set c₁ := out.secrets.foldl installSecrets c
  set c₂ := match out.earlySecret, c₁.role with
    | some secret, .client => { c₁ with earlySendKeys := some (.zeroRtt secret) }
    | _, _ => c₁ with hc₂
  have hsecond : P c₂ := by
    rw [hc₂]
    split
    · exact hearly _ _ hsecrets
    · exact hsecrets
  have hthird := List.foldlRecOn out.crypto _ hsecond hcrypto
  dsimp only
  split
  · exact hclose _ hthird
  · exact hcomplete _ (hpeer _ _ hthird)
  · exact hcomplete _ hthird

/-- A frame of a packet that arrived, with what TLS and the streams make of it. -/
inductive RecvFrame where
  | padding
  | ping
  | ack (largest delay firstRange : ℕ) (ranges : List (ℕ × ℕ))
  /-- Handshake data; nothing when TLS has to wait for more. -/
  | crypto (out : Option TlsOutput)
  /-- A frame about streams or limits. -/
  | streams (effects : List StreamEffect)
  | handshakeDone
  | connectionClose
  | pathChallenge (data : Bytes)
  | pathResponse (data : Bytes)
  | other (oneRttOnly : Bool)
  /-- A frame that is refused. -/
  | invalid

/-- What `process_packet_kind` does with a frame: an error, the end of the packet, or the
connection and whether the frame asks for an acknowledgement. -/
inductive FrameResult where
  | error (c : Connection)
  | stop (c : Connection)
  | next (c : Connection) (ackEliciting : Bool)

def FrameResult.conn : FrameResult → Connection
  | .error c => c
  | .stop c => c
  | .next c _ => c

def processFrame (kind : PacketKind) : RecvFrame → FrameResult
  | .padding => .next c false
  | .ping => .next c true
  | .ack largest delay firstRange ranges =>
    if kind = .zeroRtt then .error c
    else match c.onAck x largest delay firstRange ranges with
      | none => .error c
      | some c => .next c false
  | .crypto out =>
    if kind = .zeroRtt then .error c
    else if c.handshakeComplete ∧ x = .app ∧ c.role = .server then .next c true
    else match out with
      | none => .next c true
      | some out => .next (c.pumpTls out) true
  | .streams effects =>
    if kind = .initial ∨ kind = .handshake then .error c
    else .next (effects.foldl apply c) true
  | .handshakeDone =>
    if kind ≠ .oneRtt ∨ c.role ≠ .client then .error c
    else .next { c with handshakeConfirmed := true } true
  | .connectionClose => .stop ({ c with closed := true }).discardSendOutput
  | .pathChallenge data =>
    if kind ≠ .oneRtt then .error c else .next (c.pushApp (.pathResponse data)) true
  | .pathResponse _ => if kind ≠ .oneRtt then .error c else .next c true
  | .other oneRttOnly =>
    if (oneRttOnly ∧ kind ≠ .oneRtt) ∨ kind = .initial ∨ kind = .handshake then .error c
    else .next c true
  | .invalid => .error c

/-- The frames of a packet: the connection, whether an acknowledgement is asked for, and
whether all went well. -/
def processFrames (x : Space) (kind : PacketKind) :
    List RecvFrame → Connection → Bool → Connection × Bool × Bool
  | [], c, ackEliciting => (c, ackEliciting, true)
  | f :: rest, c, ackEliciting =>
    match c.processFrame x kind f with
    | .error c => (c, ackEliciting, false)
    | .stop c => (c, ackEliciting, true)
    | .next c asks => processFrames x kind rest c (ackEliciting || asks)

/-- Only so many numbers are kept for the next acknowledgement: the smallest goes. -/
def notePn (recvPns : List ℕ) (pn : ℕ) : List ℕ :=
  let pns := recvPns ++ [pn]
  if maxRecvPacketHistory < pns.length then pns.erase (pns.min?.getD 0) else pns

/-- `process_packet_kind`: the connection, and whether all went well. -/
def processPacketKind (pn : ℕ) (frames : List RecvFrame)
    (kind : PacketKind) : Connection × Bool :=
  let s := c.spaces x
  let (received, fresh) := s.received.accept pn
  let c := c.setSpace x { s with received }
  if !fresh then (c, true)
  else
    let (c, ackEliciting, ok) := processFrames x kind frames c false
    if !ok then (c, false)
    else
      let s := c.spaces x
      ({ c.setSpace x { s with
          recvPns := notePn s.recvPns pn
          ackPending := s.ackPending || ackEliciting } with lastActivityMs := c.nowMs }, true)

section Rules

variable {P : Connection → Prop} {c : Connection} {x : Space} {kind : PacketKind}

lemma processFrame_rule {f : RecvFrame} (hsame : P c)
    (hack : ∀ {largest delay firstRange ranges c'}, c.onAck x largest delay firstRange ranges = some
      c' → P c') (hpump : ∀ out, f = .crypto (some out) → P (c.pumpTls out))
    (hstreams : ∀ effects : List StreamEffect, P (effects.foldl apply c))
    (hdone : c.role = .client → P { c with handshakeConfirmed := true })
    (hclose : P ({ c with closed := true }).discardSendOutput)
    (hpath : ∀ data, P (c.pushApp (.pathResponse data))) :
    P (c.processFrame x kind f).conn := by
  cases f with
  | padding | ping | invalid => exact hsame
  | ack largest delay firstRange ranges =>
    unfold processFrame
    dsimp only
    split
    · exact hsame
    · split
      · exact hsame
      · rename_i hsome
        exact hack hsome
  | crypto out =>
    unfold processFrame
    dsimp only
    split
    · exact hsame
    split
    · exact hsame
    · cases out with
      | none => exact hsame
      | some out => exact hpump out rfl
  | streams effects =>
    unfold processFrame
    dsimp only
    split
    · exact hsame
    · exact hstreams effects
  | handshakeDone =>
    unfold processFrame
    dsimp only
    split
    · exact hsame
    · rename_i hcond
      simp only [not_or, not_not] at hcond
      exact hdone hcond.2
  | connectionClose => exact hclose
  | pathChallenge data =>
    unfold processFrame
    dsimp only
    split
    · exact hsame
    · exact hpath data
  | pathResponse | other =>
    unfold processFrame
    dsimp only
    split <;> exact hsame

lemma processFrames_rule {frames : List RecvFrame} (hsame : P c)
    (hframe : ∀ c, P c → ∀ f ∈ frames, P (c.processFrame x kind f).conn) (asked : Bool) :
    P (processFrames x kind frames c asked).1 := by
  induction frames generalizing c asked with
  | nil => exact hsame
  | cons f rest ih =>
    have hone := hframe c hsame f List.mem_cons_self
    rw [processFrames]
    cases hresult : c.processFrame x kind f with
    | error c' | stop c' =>
      rw [hresult] at hone
      exact hone
    | next c' asks =>
      rw [hresult] at hone
      exact ih hone (fun c hc g hg => hframe c hc g (List.mem_cons_of_mem f hg)) _

/-- What every frame keeps, and the notes of a packet, is kept by the packet. -/
theorem processPacketKind_rule {pn : ℕ} {frames : List RecvFrame}
    (hreceive : ∀ received, P (c.setSpace x { c.spaces x with received }))
    (hframe : ∀ c, P c → ∀ f ∈ frames, P (c.processFrame x kind f).conn)
    (hnote : ∀ c recvPns ackPending, P c → P { c.setSpace x { c.spaces x with recvPns, ackPending }
      with lastActivityMs := c.nowMs }) :
    P (c.processPacketKind x pn frames kind).1 := by
  have hframes := fun received => processFrames_rule (hreceive received) hframe false
  unfold processPacketKind
  dsimp only
  split
  · exact hreceive _
  · split
    · exact hframes _
    · exact hnote _ _ _ (hframes _)

end Rules

/-- A packet of a datagram. -/
inductive Incoming where
  /-- A 1-RTT packet that opens. -/
  | short (phaseChanged : Bool) (pn : ℕ) (frames : List RecvFrame)
  /-- A long header packet. What it holds is known only if it opens. -/
  | long (kind : PacketKind) (dcid scid : Bytes) (opened : Option (ℕ × List RecvFrame))
  /-- A Retry packet whose integrity tag is right. -/
  | retry (scid token : Bytes)

def longSpace (role : Role) : PacketKind → Option Space
  | .initial => some .initial
  | .handshake => some .handshake
  | .zeroRtt => if role = .server then some .app else none
  | .oneRtt => none

/-- The server takes its first keys from the first packet. -/
def acceptFirst (dcid : Bytes) : Connection :=
  if c.role = .server ∧ x = .initial ∧ c.awaitingInitial then
    { ({ c with initialDcid := dcid }).installInitialKeys dcid with awaitingInitial := false }
  else c

/-- One round of the loop of `recv_datagram`: the connection, and whether it goes on. An
error leaves the loop without the work at its end. -/
def recvPacket : Incoming → Connection × Bool × Bool
  | .short phaseChanged pn frames =>
    if (c.role = .server ∧ c.handshakeComplete = false) ∨ (c.spaces .app).recvKeys = false then
      (c, false, true)
    else
      let c := if phaseChanged ∧ c.keyUpdateAllowed then c.commitKeyUpdate else c
      let (c, ok) := c.processPacketKind .app pn frames .oneRtt
      (c, false, ok)
  | .retry scid token => (c.handleRetry scid token, false, true)
  | .long kind dcid scid opened =>
    match longSpace c.role kind with
    | none => (c, true, true)
    | some x =>
      let c := c.acceptFirst x dcid
      match opened with
      | none => (c, true, true)
      | some (pn, frames) =>
        if (kind ≠ .zeroRtt ∧ (c.spaces x).recvKeys = false) ∨ 20 < scid.length then
          (c, true, true)
        else
          let c := if x = .initial then { c with remoteCid := scid } else c
          let (c, ok) := c.processPacketKind x pn frames kind
          (c, ok, ok)

def recvPackets : List Incoming → Connection → Connection × Bool
  | [], c => (c, true)
  | p :: rest, c =>
    match c.recvPacket p with
    | (c, goesOn, ok) => if goesOn then recvPackets rest c else (c, ok)

/-- `recv_datagram`; whether it ends with the peer's reset token. -/
def recvDatagram (packets : List Incoming) (isReset : Bool) : Connection :=
  if c.closed then c
  else if isReset then ({ c with closed := true }).discardSendOutput
  else
    let (c, ok) := recvPackets packets c
    if ok then c.discardFinishedSpaces.flush else c

inductive Call where
  /-- The streams queue frames. -/
  | streams (effects : List StreamEffect)
  | flush
  | datagram (packets : List Incoming) (isReset : Bool)
  | timeout (nowMs : ℕ)
  | setNow (nowMs : ℕ)
  | initiateKeyUpdate
  | pathValidation (data : Bytes)
  | close (frame : Bytes)
  | nextDatagram

def exec : Call → Connection
  | .streams effects => effects.foldl apply c
  | .flush => c.flush
  | .datagram packets isReset => c.recvDatagram packets isReset
  | .timeout nowMs => c.onTimeout nowMs
  | .setNow nowMs => { c with nowMs }
  | .initiateKeyUpdate => c.initiateKeyUpdate
  | .pathValidation data =>
    if c.handshakeComplete then (c.pushApp (.pathChallenge data)).flush else c
  | .close frame =>
    if c.closed then c
    else
      let c := if (c.spaces .app).sendKeys.isSome then ({ c with closeFrame := some frame }).flush
        else c
      { c with closed := true }
  | .nextDatagram => { c with outDatagrams := c.outDatagrams.drop 1 }

def run (calls : List Call) : Connection := calls.foldl exec c

def newServer (localCid : Bytes) (maxIdleTimeout : ℕ) : Connection where
  role := .server
  awaitingInitial := true
  spaces := fun _ => {}
  localCid := localCid
  remoteCid := []
  initialDcid := []
  closed := !(1 ≤ localCid.length && localCid.length ≤ 20)
  maxIdleTimeout := maxIdleTimeout

/-- A client before its first packet. -/
def blankClient (dcid scid : Bytes) (maxIdleTimeout : ℕ) : Connection where
  role := .client
  awaitingInitial := false
  spaces := fun _ => {}
  localCid := scid
  remoteCid := dcid
  initialDcid := dcid
  maxIdleTimeout := maxIdleTimeout

/-- `new_client`; `hello` is what TLS starts with. -/
def newClient (dcid scid : Bytes) (maxIdleTimeout : ℕ) (hello : TlsOutput) : Option Connection :=
  if dcid = [] ∨ 20 < dcid.length ∨ 20 < scid.length then none
  else
    let c := ((blankClient dcid scid maxIdleTimeout).installInitialKeys dcid).pumpTls hello
    some ({ c with initialCrypto := (c.spaces .initial).outCrypto }).flush

end Connection
end OnetDns.Quic.Transport
