import OnetDns.Quic.Reasm

/-!
# Streams of a QUIC connection

The part of `Connection` in `onetdns-quic/src/conn.rs` that deals with streams: what the
peer may send, what was received and is not read yet, what may be sent to the peer, and
the queues of frames. TLS, packet protection, acknowledgements and timers enter as calls
that say what they decided: how many frames a packet takes, which packets are taken as
acknowledged or lost, when the handshake ends. In `Log` a connection keeps what it has
sent, which the source does not.
-/
namespace OnetDns.Quic

structure StreamRecv where
  asm : Reasm
  buf : Bytes
  finOffset : Option ℕ
  done : Bool
  highestOffset : ℕ
  appConsumed : ℕ

def StreamRecv.default : StreamRecv := ⟨.empty, [], none, false, 0, 0⟩

namespace StreamRecv

variable (stream : StreamRecv)

/-- The end of a stream, as `on_stream` notes it. -/
def close (stop : ℕ) : Except QuicError StreamRecv :=
  if stop < stream.highestOffset ∨ stop < stream.asm.recvOffset then .error .frame
  else if stream.finOffset.any (· ≠ stop) then .error .frame
  else .ok { stream with finOffset := some stop }

def deliver (newly : Bytes) (asm : Reasm) : StreamRecv :=
  { stream with asm, buf := stream.buf ++ newly }

/-- The stream when the bytes are there: whether it has ended, and its whole data if that is
new. -/
def finish (newly : Bytes) (fin : Bool) (stop : ℕ) :
    Except QuicError (Bytes × Bool × Option Bytes) × StreamRecv :=
  match if fin then stream.close stop else .ok stream with
  | .error e => (.error e, stream)
  | .ok stream =>
    let finNow := stream.finOffset == some stream.asm.recvOffset
    if finNow && !stream.done then
      (.ok (newly, finNow, some stream.buf), { stream with done := true, buf := [] })
    else (.ok (newly, finNow, none), stream)

/-- What `on_stream` does to the stream. -/
def accept (offset : ℕ) (fin : Bool) (data : Bytes) (limit : ℕ) :
    Except QuicError (Bytes × Bool × Option Bytes) × StreamRecv :=
  match stream.asm.push offset data limit with
  | .error e => (.error e, stream)
  | .ok (newly, asm) =>
    if limit < stream.buf.length + newly.length then (.error .flowControl, { stream with asm })
    else (stream.deliver newly asm).finish newly fin (offset + data.length)

end StreamRecv

/-- A request to send that waits for the window. -/
structure PendingStreamSend where
  id : ℕ
  offset : ℕ
  data : Bytes
  cursor : ℕ
  fin : Bool
  copies : ℕ

structure SentPacket where
  pn : ℕ
  frames : List Frame

/-- STREAM frames that were made, and frames that were put into a packet. -/
structure Log where
  made : List Frame
  wire : List Frame

structure Connection where
  role : Role
  baseTp : TransportParams
  handshakeComplete : Bool
  closed : Bool
  peerTp : Option TransportParams
  outFramesApp : List Frame
  streams : Map StreamRecv
  closedRecvRanges : StreamRanges
  resetStreams : List (ℕ × ℕ)
  completedStreams : List (ℕ × Bytes)
  recvTotalHighest : ℕ
  recvBuffered : ℕ
  localMaxData : ℕ
  localStreamMax : Map ℕ
  localMaxStreamsBidi : ℕ
  localMaxStreamsUni : ℕ
  readable : List (ℕ × Bytes × Bool)
  sendOffsets : Map ℕ
  pendingStreamSends : List PendingStreamSend
  sealedSendRanges : StreamRanges
  openedSendRanges : StreamRanges
  closedSendRanges : StreamRanges
  stoppedSendRanges : StreamRanges
  sendTotal : ℕ
  peerMaxData : ℕ
  peerStreamMax : Map ℕ
  peerMaxStreamsBidi : ℕ
  peerMaxStreamsUni : ℕ
  earlyPeerTp : Option TransportParams
  nextUni : ℕ
  /-- Whether there are keys for early data. -/
  earlySendKeys : Bool
  outFramesEarly : List Frame
  earlyBackup : List Frame
  earlySent : Bool
  nextPn : ℕ
  sent : List SentPacket
  rtx : List Frame
  log : Log

namespace Connection

/-- The state that `new_server` and `new_client` start with. A client may know the parameters of
an earlier connection to its peer. -/
def start (role : Role) (tp : TransportParams) (remembered : Option TransportParams)
    (earlySendKeys : Bool) : Connection :=
  let tp := normalizeLocalTransportParams tp
  { role
    baseTp := tp
    handshakeComplete := false
    closed := false
    peerTp := none
    outFramesApp := []
    streams := ∅
    closedRecvRanges := .empty
    resetStreams := []
    completedStreams := []
    recvTotalHighest := 0
    recvBuffered := 0
    localMaxData := tp.initialMaxData
    localStreamMax := ∅
    localMaxStreamsBidi := tp.initialMaxStreamsBidi
    localMaxStreamsUni := tp.initialMaxStreamsUni
    readable := []
    sendOffsets := ∅
    pendingStreamSends := []
    sealedSendRanges := .empty
    openedSendRanges := .empty
    closedSendRanges := .empty
    stoppedSendRanges := .empty
    sendTotal := 0
    peerMaxData := (remembered.map TransportParams.initialMaxData).getD 0
    peerStreamMax := ∅
    peerMaxStreamsBidi := (remembered.map TransportParams.initialMaxStreamsBidi).getD 0
    peerMaxStreamsUni := (remembered.map TransportParams.initialMaxStreamsUni).getD 0
    earlyPeerTp := remembered
    nextUni := 0
    earlySendKeys
    outFramesEarly := []
    earlyBackup := []
    earlySent := false
    nextPn := 0
    sent := []
    rtx := []
    log := ⟨[], []⟩ }

def newServer (tp : TransportParams) : Connection := start .server tp none false

def newClient (tp : TransportParams) (remembered : Option TransportParams)
    (earlySendKeys : Bool) : Connection :=
  start .client tp remembered earlySendKeys

variable (c : Connection)

def queue (f : Frame) : Connection := { c with outFramesApp := c.outFramesApp ++ [f] }

variable (id : ℕ)

def recvStreamClosed : Bool := c.closedRecvRanges.contains id

/-- What the peer may send on a stream before it is told more. -/
def initialRecvLimit : ℕ :=
  min (if isUni id then c.baseTp.initialMaxStreamDataUni
    else if c.role.peer.opens id then c.baseTp.initialMaxStreamDataBidiRemote
    else c.baseTp.initialMaxStreamDataBidiLocal) maxStreamReassembly

/-- What the peer may send on a stream. -/
def recvLimit : ℕ :=
  max ((c.localStreamMax.lookup id).getD (c.initialRecvLimit id)) (c.initialRecvLimit id)

/-- Whether the peer may send on a stream. -/
def mayReceive : Bool :=
  if c.role.peer.opens id then
    streamNumber id < if isUni id then c.localMaxStreamsUni else c.localMaxStreamsBidi
  else !isUni id && c.openedSendRanges.contains id

/-- `recv_stream_properties`: who opened the stream, its direction and its limit. -/
def recvStreamProperties : Except QuicError (Bool × Bool × ℕ) :=
  if c.mayReceive id then .ok (c.role.peer.opens id, isUni id, c.recvLimit id)
  else .error .streamLimit

def ensureRecvStreamCredit (id initialLimit : ℕ) : Connection :=
  if id ∈ c.localStreamMax then c
  else
    let target := max initialLimit maxStreamReassembly
    let c := { c with localStreamMax := c.localStreamMax.insert id target }
    if initialLimit < target then c.queue (.maxStreamData id target) else c

def replenishConnectionCredit (consumed : ℕ) : Connection :=
  if consumed = 0 then c
  else
    let limit := min (c.localMaxData + consumed) maxFlowControl
    { c with localMaxData := limit }.queue (.maxData limit)

def extendRecvStreamCredit (id consumed : ℕ) : Connection :=
  if consumed = 0 ∨ c.recvStreamClosed id then c
  else
    match c.localStreamMax.lookup id with
    | none => c
    | some current =>
      let next := min (current + consumed) maxFlowControl
      if current < next then
        { c with localStreamMax := c.localStreamMax.insert id next }.queue (.maxStreamData id next)
      else c

def replenishRecvCredit (consumed : ℕ) (initiatedByPeer unidirectional : Bool) :
    Connection :=
  let c := c.replenishConnectionCredit consumed
  if initiatedByPeer = false then c
  else if unidirectional then
    let limit := min (c.localMaxStreamsUni + 1) maxFlowControl
    { c with localMaxStreamsUni := limit }.queue (.maxStreams true limit)
  else
    let limit := min (c.localMaxStreamsBidi + 1) maxFlowControl
    { c with localMaxStreamsBidi := limit }.queue (.maxStreams false limit)

/-- Takes a stream out and gives its credit back: what `on_reset_stream` and
`release_recv_stream` end with. -/
def dropStream (id unread credit : ℕ) : Connection :=
  { c with
    recvBuffered := c.recvBuffered - unread
    streams := c.streams.erase id
    localStreamMax := c.localStreamMax.erase id
    closedRecvRanges := c.closedRecvRanges.mark id }.replenishRecvCredit
    credit (c.role.peer.opens id) (isUni id)

/-- A stream that the peer reset: its final size counts, and its data is dropped. -/
def resetStream (id errorCode finalSize : ℕ) : Connection :=
  let stream := (c.streams.lookup id).getD .default
  let c := { c with
    recvTotalHighest := c.recvTotalHighest + (finalSize - stream.highestOffset)
    readable := c.readable.filter (·.1 ≠ id)
    completedStreams := c.completedStreams.filter (·.1 ≠ id)
    resetStreams := c.resetStreams ++ [(id, errorCode)] }
  c.dropStream id (stream.highestOffset - stream.appConsumed) (finalSize - stream.appConsumed)

def onResetStream (id errorCode finalSize : ℕ) :
    Except QuicError Unit × Connection :=
  if c.recvStreamClosed id then (.ok (), c)
  else
    match c.recvStreamProperties id with
    | .error e => (.error e, c)
    | .ok (_, _, limit) =>
      let stream := (c.streams.lookup id).getD .default
      if limit < finalSize then (.error .flowControl, c)
      else if maxStreamsHard ≤ c.resetStreams.length then (.error .streamLimit, c)
      else if stream.finOffset.any (· ≠ finalSize) ∨ finalSize < stream.highestOffset then
        (.error .frame, c)
      else if c.localMaxData < c.recvTotalHighest + (finalSize - stream.highestOffset) then
        (.error .flowControl, c)
      else (.ok (), c.resetStream id errorCode finalSize)

/-- The accounting of `on_stream`: how far the stream got and how much is buffered. -/
def charge (stream : StreamRecv) (stop : ℕ) : Option (Connection × StreamRecv) :=
  if stop ≤ stream.highestOffset then some (c, stream)
  else
    let delta := stop - stream.highestOffset
    if c.localMaxData < c.recvTotalHighest + delta ∨
        maxConnectionReassembly < c.recvBuffered + delta then none
    else some ({ c with
      recvTotalHighest := c.recvTotalHighest + delta
      recvBuffered := c.recvBuffered + delta }, { stream with highestOffset := stop })

/-- The bytes that `on_stream` got become readable, and the peer may send more on the stream. -/
def publish (id limit : ℕ) (newly : Bytes) (finNow : Bool)
    (whole : Option Bytes) : Connection :=
  let c := c.ensureRecvStreamCredit id limit
  { c with
    readable := c.readable ++ if newly.isEmpty && !finNow then [] else [(id, newly, finNow)]
    completedStreams := c.completedStreams ++ (whole.map (id, ·)).toList }

/-- The stream goes back into the connection. -/
def settle (id limit : ℕ)
    (accepted : Except QuicError (Bytes × Bool × Option Bytes) × StreamRecv) :
    Except QuicError Unit × Connection :=
  let c := { c with streams := c.streams.insert id accepted.2 }
  match accepted.1 with
  | .error e => (.error e, c)
  | .ok (newly, finNow, whole) => (.ok (), c.publish id limit newly finNow whole)

/-- `on_stream`, after the checks of the limits. -/
def receiveData (id offset : ℕ) (fin : Bool) (data : Bytes) (limit : ℕ) :
    Except QuicError Unit × Connection :=
  let stream := (c.streams.lookup id).getD .default
  let c := { c with streams := c.streams.insert id stream }
  if stream.finOffset.any (· < offset + data.length) then (.error .frame, c)
  else
    match c.charge stream (offset + data.length) with
    | none => (.error .flowControl, c)
    | some (c, stream) => c.settle id limit (stream.accept offset fin data limit)

def onStream (id offset : ℕ) (fin : Bool) (data : Bytes) :
    Except QuicError Unit × Connection :=
  if c.recvStreamClosed id then (.ok (), c)
  else
    match c.recvStreamProperties id with
    | .error e => (.error e, c)
    | .ok (_, _, limit) =>
      if limit < offset + data.length then (.error .flowControl, c)
      else if id ∉ c.streams ∧ maxStreamsHard ≤ c.streams.keys.length then (.error .streamLimit, c)
      else c.receiveData id offset fin data limit

def releaseRecvStream : Connection :=
  match c.streams.lookup id with
  | none => c
  | some stream =>
    let remaining := stream.highestOffset - stream.appConsumed
    c.dropStream id remaining remaining

/-- One stream of `take_readable`: its bytes are read. -/
def consume (finished : List ℕ) (c : Connection) (id consumed : ℕ) : Connection :=
  let streams := match c.streams.lookup id with
    | none => c.streams
    | some stream => c.streams.insert id { stream with
        buf := []
        appConsumed := min (stream.appConsumed + consumed) stream.highestOffset }
  let c := { c with streams, recvBuffered := c.recvBuffered - consumed }
  let c := c.replenishConnectionCredit consumed
  if id ∈ finished then c else c.extendRecvStreamCredit id consumed

/-- What `consume` changes before it gives credit. -/
def emptied (id consumed : ℕ) : Connection :=
  { c with
    streams := match c.streams.lookup id with
      | none => c.streams
      | some stream => c.streams.insert id { stream with
          buf := []
          appConsumed := min (stream.appConsumed + consumed) stream.highestOffset }
    recvBuffered := c.recvBuffered - consumed }

lemma consume_eq (finished : List ℕ) (c : Connection) (id consumed : ℕ) :
    c.consume finished id consumed =
      if id ∈ finished then (c.emptied id consumed).replenishConnectionCredit consumed
      else ((c.emptied id consumed).replenishConnectionCredit consumed).extendRecvStreamCredit id
        consumed := rfl

def eventBytes (events : List (ℕ × Bytes × Bool)) (id : ℕ) : ℕ :=
  ((events.filter (·.1 = id)).map fun event => event.2.1.length).sum

/-- `take_readable`, without the `flush` at its end. The order in which streams are visited is
that of a hash table in the source. -/
def takeReadable : Connection :=
  let events := c.readable
  let finished := ((events.filter (·.2.2)).map Prod.fst).dedup
  let c := { c with readable := [] }
  let c := (events.map Prod.fst).dedup.foldl
    (fun c id => c.consume finished id (eventBytes events id)) c
  let c := finished.foldl releaseRecvStream c
  { c with completedStreams := c.completedStreams.filter (·.1 ∉ finished) }

def takeResets : Connection := { c with resetStreams := [] }

/-- `take_stream_requests`; which of the messages are well formed does not matter here. -/
def takeStreamRequests : Connection :=
  let ids := c.completedStreams.map Prod.fst
  let c := { c with completedStreams := [], readable := c.readable.filter (·.1 ∉ ids) }
  ids.foldl releaseRecvStream c

end Connection

end OnetDns.Quic
