import OnetDns.Quic.Connection

/-!
# Sending, and runs of a connection

The sending half of `Connection`, the queues that frames go through, and the calls that
a run of a connection is made of. Sizes of packets, the congestion window and the timers
are not modelled: a call says how many frames each packet takes and which packets count
as acknowledged or lost, so every choice of the source is among the runs.
-/
namespace OnetDns.Quic
namespace Connection

variable (c : Connection)

variable (id : ℕ)

/-- What may be sent on a stream before the peer allows more. -/
def initialSendLimit : ℕ :=
  match c.peerTp <|> c.earlyPeerTp with
  | none => 0
  | some tp =>
    if isUni id then tp.initialMaxStreamDataUni
    else if c.role.opens id then tp.initialMaxStreamDataBidiRemote
    else tp.initialMaxStreamDataBidiLocal

/-- What may be sent on a stream. -/
def sendLimit : ℕ :=
  max ((c.peerStreamMax.lookup id).getD (c.initialSendLimit id)) (c.initialSendLimit id)

/-- The streams that this side opens for the peer to answer or read. -/
def maySend : Bool :=
  !c.role.opens id || streamNumber id <
    if isUni id then c.peerMaxStreamsUni else c.peerMaxStreamsBidi

/-- The checks of `send_stream_properties`; its values are in `Role.opens`, `isUni` and
`initialSendLimit`. -/
def sendStreamProperties : Except QuicError Unit :=
  if 2 ^ 62 ≤ id then .error .frame
  else if isUni id && !c.role.opens id then .error .frame
  else if !c.role.opens id && id ∉ c.streams && !c.recvStreamClosed id then .error .streamLimit
  else .ok ()

/-- `queue_app_frame`, for a STREAM frame. -/
def queueAppFrame (f : Frame) : Connection :=
  let c := { c with log := { c.log with made := c.log.made ++ [f] } }
  if !c.handshakeComplete && c.earlySendKeys then
    { c with earlyBackup := c.earlyBackup ++ [f], outFramesEarly := c.outFramesEarly ++ [f] }
  else c.queue f

variable (p : PendingStreamSend)

/-- The bytes that go into the next frame, or `none` if the window is closed. -/
def sendLen : Option ℕ :=
  let offset := p.offset + p.cursor
  let remaining := p.data.length - p.cursor
  if remaining = 0 then
    if c.sendLimit p.id < offset then none else some 0
  else
    let available := min (min (c.sendLimit p.id - offset) (c.peerMaxData - c.sendTotal))
      streamFrameChunk
    if available = 0 then none else some (min remaining available)

/-- The frame that `schedule_one_pending` makes, with the bookkeeping for it. -/
def cut (len : ℕ) : Connection × PendingStreamSend :=
  let done := p.cursor + len == p.data.length
  let c := { c with openedSendRanges := c.openedSendRanges.mark p.id }
  let c := c.queueAppFrame
    (.stream p.id (p.offset + p.cursor) (done && p.fin) ((p.data.drop p.cursor).take len))
  let c := { c with sendTotal := min (c.sendTotal + len) u64Max }
  let c := if done && p.fin then
      { c with
        sendOffsets := c.sendOffsets.erase p.id
        peerStreamMax := c.peerStreamMax.erase p.id
        closedSendRanges := c.closedSendRanges.mark p.id }
    else c
  (c, { p with cursor := p.cursor + len })

/-- `schedule_one_pending`: whether a frame was made, and whether the request is done. -/
def scheduleOnePending :
    Connection × PendingStreamSend × Bool × Bool :=
  match c.sendStreamProperties p.id with
  | .error _ => (c, p, false, true)
  | .ok () =>
    if c.maySend p.id = false then (c, p, false, false)
    else
      match c.sendLen p with
      | none => (c, p, false, false)
      | some len =>
        let (c, p) := c.cut p len
        (c, p, true, p.cursor == p.data.length)

/-- One round over the requests: what stays in the queue, and whether there was progress. A stream
that is blocked keeps its later requests back. -/
def schedulePass (c : Connection) : List PendingStreamSend → (blocked : List ℕ) →
    Connection × List PendingStreamSend × Bool
  | [], _ => (c, [], false)
  | p :: rest, blocked =>
    if p.id ∈ blocked then
      let (c, kept, progressed) := schedulePass c rest blocked
      (c, p :: kept, progressed)
    else
      match c.scheduleOnePending p with
      | (c, _, made, true) =>
        let (c, kept, progressed) := schedulePass c rest blocked
        (c, kept, made || progressed)
      | (c, p, made, false) =>
        let (c, kept, progressed) := schedulePass c rest (p.id :: blocked)
        (c, p :: kept, made || progressed)

/-- The loop of `schedule_pending_stream_sends`. -/
def scheduleLoop : (fuel : ℕ) → Connection → Connection
  | 0, c => c
  | fuel + 1, c =>
    let (next, kept, progressed) := c.schedulePass c.pendingStreamSends []
    let next := { next with pendingStreamSends := kept }
    if progressed then scheduleLoop fuel next else next

/-- `schedule_pending_stream_sends`. A round with progress sends a byte or finishes a request, so
there are at most as many of them as there are bytes and requests. -/
def schedulePendingStreamSends : Connection :=
  scheduleLoop ((c.pendingStreamSends.map fun p => p.data.length - p.cursor + 1).sum + 1) c

def bufferedStreamSendBytes : ℕ :=
  ((c.outFramesApp ++ c.outFramesEarly ++ c.earlyBackup ++ c.rtx ++
    c.sent.flatMap SentPacket.frames).map Frame.bytes).sum +
  (c.pendingStreamSends.map fun p => (p.data.length - p.cursor) * p.copies).sum

/-- How many frames a packet takes from the frames to send again and from the queue. -/
structure PacketPlan where
  rtx : ℕ
  app : ℕ

/-- The packets of a `flush`: of early data, and of application data. -/
structure FlushPlan where
  early : List ℕ
  short : List PacketPlan

/-- `track_sent` with what the log keeps of a packet. -/
def trackSent (frames : List Frame) : Connection :=
  { c with
    nextPn := c.nextPn + 1
    sent := if frames.isEmpty then c.sent
      else c.sent ++ [⟨c.nextPn, frames.filter Frame.isRetransmittable⟩]
    log := { c.log with wire := c.log.wire ++ frames } }

def buildZeroRttPacket (count : ℕ) : Connection :=
  if c.earlySendKeys = false ∨ c.outFramesEarly.take count = [] then c
  else
    { c with outFramesEarly := c.outFramesEarly.drop count, earlySent := true }.trackSent
      (c.outFramesEarly.take count)

def buildShortPacket (plan : PacketPlan) : Connection :=
  { c with rtx := c.rtx.drop plan.rtx, outFramesApp := c.outFramesApp.drop plan.app }.trackSent
    (c.rtx.take plan.rtx ++ c.outFramesApp.take plan.app)

def flush (plan : FlushPlan) : Connection :=
  if c.closed then c
  else
    let c := c.schedulePendingStreamSends
    let c := plan.early.foldl buildZeroRttPacket c
    plan.short.foldl buildShortPacket c

/-- The packets that `on_ack` finds acknowledged. -/
def acked (pns : List ℕ) : Connection := { c with sent := c.sent.filter (·.pn ∉ pns) }

/-- The packets that `detect_lost` finds lost. -/
def lost (pns : List ℕ) : Connection :=
  { c with
    sent := c.sent.filter (·.pn ∉ pns)
    rtx := c.rtx ++ (c.sent.filter (·.pn ∈ pns)).flatMap SentPacket.frames }

/-- `queue_probe`, for the packets that fit in the probes. -/
def queueProbe (pns : List ℕ) : Connection :=
  let rtx := c.rtx ++ (c.sent.filter (·.pn ∈ pns)).flatMap SentPacket.frames
  { c with
    sent := c.sent.map fun packet => if packet.pn ∈ pns then { packet with frames := [] } else packet
    rtx := if rtx.isEmpty then [.ping] else rtx }

/-- The frames that a request is kept in: early data may have to be sent again. -/
def copies : ℕ := if !c.handshakeComplete && c.earlySendKeys then 2 else 1

/-- Where the next request on a stream starts. -/
def nextOffset : ℕ := (c.sendOffsets.lookup id).getD 0

/-- The request of `send_stream_owned`. -/
def enqueue (data : Bytes) (fin : Bool) : Connection :=
  { c with
    sendOffsets := c.sendOffsets.insert id (c.nextOffset id + data.length)
    sealedSendRanges := if fin then c.sealedSendRanges.mark id else c.sealedSendRanges
    pendingStreamSends := c.pendingStreamSends ++ [⟨id, c.nextOffset id, data, 0, fin, c.copies⟩] }

def sendStreamOwned (data : Bytes) (fin : Bool) (plan : FlushPlan) :
    Except QuicError Unit × Connection :=
  if c.closed then (.error .closed, c)
  else if maxStreamReassembly < data.length then (.error .flowControl, c)
  else if c.stoppedSendRanges.contains id || c.closedSendRanges.contains id ||
      c.sealedSendRanges.contains id then (.error .closed, c)
  else if maxPendingSendOps ≤ c.pendingStreamSends.length ∨
      maxConnectionSendBuffer < c.bufferedStreamSendBytes + data.length * c.copies then
    (.error .flowControl, c)
  else if u64Max < c.nextOffset id + data.length then (.error .flowControl, c)
  else
    match c.sendStreamProperties id with
    | .error e => (.error e, c)
    | .ok () => (.ok (), (c.enqueue id data fin).flush plan)

/-- `open_uni_stream`; the stream number it returns is free for `sendStreamOwned`. -/
def openUniStream : Except QuicError ℕ × Connection :=
  if c.closed then (.error .closed, c)
  else if 2 ^ 60 ≤ c.nextUni then (.error .streamLimit, c)
  else
    (.ok (c.nextUni * 4 + if c.role = .client then 2 else 3), { c with nextUni := c.nextUni + 1 })

def discardSendOutput : Connection :=
  { c with
    outFramesApp := []
    outFramesEarly := []
    earlyBackup := []
    pendingStreamSends := []
    sendOffsets := ∅
    peerStreamMax := ∅
    rtx := []
    sent := [] }

/-- Whether the peer may speak about what this side sends on a stream. -/
def knowsSend : Bool :=
  if c.role.opens id then c.openedSendRanges.contains id
  else id ∈ c.streams || c.recvStreamClosed id

/-- The end of a stream that the peer does not want: what waits on it is dropped, and RESET_STREAM
tells how long it was. -/
def stopStream (id errorCode : ℕ) : Connection :=
  let others (frames : List Frame) : List Frame := frames.filter fun f => !f.isStreamOf id
  { c with
    sendOffsets := c.sendOffsets.erase id
    pendingStreamSends := c.pendingStreamSends.filter (·.id ≠ id)
    outFramesApp := others c.outFramesApp ++ [.resetStream id errorCode (c.nextOffset id)]
    outFramesEarly := others c.outFramesEarly
    earlyBackup := others c.earlyBackup
    rtx := others c.rtx
    sent := c.sent.map fun packet => { packet with frames := others packet.frames }
    peerStreamMax := c.peerStreamMax.erase id
    stoppedSendRanges := c.stoppedSendRanges.mark id }

def onStopSending (id errorCode : ℕ) : Except QuicError Unit × Connection :=
  if isUni id && !c.role.opens id then (.error .streamLimit, c)
  else if c.stoppedSendRanges.contains id || c.closedSendRanges.contains id then (.ok (), c)
  else if c.knowsSend id = false then (.error .frame, c)
  else (.ok (), c.stopStream id errorCode)

def onMaxStreamData (id limit : ℕ) : Except QuicError Unit × Connection :=
  if (c.knowsSend id && !(isUni id && !c.role.opens id)) = false then (.error .frame, c)
  else if c.closedSendRanges.contains id || c.stoppedSendRanges.contains id then (.ok (), c)
  else if id ∉ c.peerStreamMax ∧ maxStreamsHard ≤ c.peerStreamMax.keys.length then
    (.error .streamLimit, c)
  else
    let next := ((c.peerStreamMax.lookup id).map (max · limit)).getD limit
    (.ok (), { c with peerStreamMax := c.peerStreamMax.insert id next })

/-- A frame of `process_packet_kind`. -/
def onFrame : Frame → Except QuicError Unit × Connection
  | .stream id offset fin data => c.onStream id offset fin data
  | .resetStream id errorCode finalSize => c.onResetStream id errorCode finalSize
  | .stopSending id errorCode => c.onStopSending id errorCode
  | .maxData limit => (.ok (), { c with peerMaxData := max c.peerMaxData limit })
  | .maxStreamData id limit => c.onMaxStreamData id limit
  | .maxStreams uni limit =>
    if 2 ^ 60 < limit then (.error .flowControl, c)
    else if uni then (.ok (), { c with peerMaxStreamsUni := max c.peerMaxStreamsUni limit })
    else (.ok (), { c with peerMaxStreamsBidi := max c.peerMaxStreamsBidi limit })
  | .pathChallenge data => (.ok (), c.queue (.pathResponse data))
  | .handshakeDone => if c.role = .client then (.ok (), c) else (.error .frame, c)
  | .ping => (.ok (), c)
  | .pathResponse _ => (.ok (), c)

/-- The peer's parameters, as `pump_tls` takes them over. -/
def takePeerParams (tp : TransportParams) : Connection :=
  if c.peerTp.isSome then c
  else
    { c with
      peerMaxData := tp.initialMaxData
      peerMaxStreamsBidi := tp.initialMaxStreamsBidi
      peerMaxStreamsUni := tp.initialMaxStreamsUni
      peerTp := some tp }

/-- The limit of the connection at the end of the handshake. -/
def openWindow : Connection :=
  if c.localMaxData < maxConnectionReassembly then
    { c with localMaxData := maxConnectionReassembly }.queue (.maxData maxConnectionReassembly)
  else c

/-- The end of the handshake in `pump_tls`. -/
def completeHandshake (earlyAccepted : Bool) : Connection :=
  if c.handshakeComplete then c
  else
    let c := { c with handshakeComplete := true }.openWindow
    match c.role with
    | .server => c.queue .handshakeDone
    | .client =>
      let c := if c.earlySent && !earlyAccepted then
          { c with
            sent := []
            rtx := []
            outFramesEarly := []
            outFramesApp := c.outFramesApp ++ c.earlyBackup
            earlyBackup := [] }
        else
          { c with
            outFramesApp := c.outFramesApp ++ c.outFramesEarly
            outFramesEarly := []
            earlyBackup := [] }
      { c with earlySendKeys := false }

inductive Call where
  | sendStream (id : ℕ) (data : Bytes) (fin : Bool) (plan : FlushPlan)
  | openUniStream
  | takeReadable (plan : FlushPlan)
  | takeResets
  | takeStreamRequests
  | challengePath (data : Bytes)
  | flush (plan : FlushPlan)
  | acked (pns : List ℕ)
  | lost (pns : List ℕ)
  | probe (pns : List ℕ)
  | peerParams (tp : TransportParams)
  | handshakeComplete (earlyAccepted : Bool)
  | receive (f : Frame)
  | close (plan : FlushPlan)
  | abort

/-- What a call answers, and the connection after it. A closed connection takes nothing in. -/
def exec : Call → Except QuicError Unit × Connection
  | .sendStream id data fin plan => c.sendStreamOwned id data fin plan
  | .openUniStream => (c.openUniStream.1.map fun _ => (), c.openUniStream.2)
  | .takeReadable plan =>
    let finished := c.readable.any (·.2.2)
    let c := c.takeReadable
    (.ok (), if finished then c.flush plan else c)
  | .takeResets => (.ok (), c.takeResets)
  | .takeStreamRequests => (.ok (), c.takeStreamRequests)
  | .challengePath data => (.ok (), c.queue (.pathChallenge data))
  | .flush plan => (.ok (), c.flush plan)
  | .acked pns => (.ok (), if c.closed then c else c.acked pns)
  | .lost pns => (.ok (), c.lost pns)
  | .probe pns => (.ok (), c.queueProbe pns)
  | .peerParams tp => (.ok (), if c.closed then c else c.takePeerParams tp)
  | .handshakeComplete earlyAccepted =>
    (.ok (), if c.closed then c else c.completeHandshake earlyAccepted)
  | .receive f => if c.closed then (.ok (), c) else c.onFrame f
  | .close plan => (.ok (), { c.flush plan with closed := true })
  | .abort => (.ok (), { c.discardSendOutput with closed := true })

end Connection

end OnetDns.Quic
