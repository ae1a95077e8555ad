import OnetDns.Quic.Protect

/-!
# Packets and number spaces

What `onetdns-quic` puts into a packet: the encoding of frames, the filling of a packet
from the queues of a number space, and the record of the packets that wait for an
acknowledgement. A key is named by what it is derived from, so that keys with different
names are taken to be different keys.
-/
namespace OnetDns.Quic.Transport

inductive Space where
  | initial
  | handshake
  | app
  deriving DecidableEq

def maxDatagram : ℕ := 1350
def minInitialDatagram : ℕ := 1200
def maxPacketPayload : ℕ := 1000
def maxRetryToken : ℕ := 256
def cryptoChunk : ℕ := 900
def maxAckRanges : ℕ := 32
def maxRecvPacketHistory : ℕ := 128
def probePackets : ℕ := 2

/-- A key for packets that this side sends. -/
inductive SealKey where
  | initial (cid : Bytes)
  | handshake (secret : Bytes)
  | zeroRtt (secret : Bytes)
  | oneRtt (secret : Bytes) (generation : ℕ)
  deriving DecidableEq

def SealKey.space : SealKey → Space
  | .initial _ => .initial
  | .handshake _ => .handshake
  | .zeroRtt _ => .app
  | .oneRtt _ _ => .app

/-- A frame in a queue for sending: handshake data or a frame of the application space. -/
inductive Queued where
  | crypto (offset : ℕ) (data : Bytes)
  | app (frame : Frame)
  deriving DecidableEq

def Queued.isRetransmittable : Queued → Bool
  | .crypto _ _ => true
  | .app frame => frame.isRetransmittable

/-- `varint::write`. -/
def writeVarint (v : ℕ) : Bytes :=
  if v < 2 ^ 6 then BigEndian.encode 1 v
  else if v < 2 ^ 14 then BigEndian.encode 2 (v ||| 0x4000)
  else if v < 2 ^ 30 then BigEndian.encode 4 (v ||| 0x80000000)
  else BigEndian.encode 8 (v ||| 0xc000000000000000)

lemma writeVarint_ne_nil (v : ℕ) : writeVarint v ≠ [] := by
  unfold writeVarint
  intro h
  have hlen := congrArg List.length h
  revert hlen
  split_ifs <;> simp

/-- `frame::encode` on the frames of the application space. -/
def encodeFrame : Frame → Bytes
  | .ping => writeVarint 0x01
  | .stream id offset fin data =>
    let t := 0x0a + (if offset ≠ 0 then 0x04 else 0) + (if fin then 0x01 else 0)
    writeVarint t ++ writeVarint id ++ (if offset ≠ 0 then writeVarint offset else []) ++
      writeVarint data.length ++ data
  | .resetStream id errorCode finalSize =>
    writeVarint 0x04 ++ writeVarint id ++ writeVarint errorCode ++ writeVarint finalSize
  | .stopSending id errorCode => writeVarint 0x05 ++ writeVarint id ++ writeVarint errorCode
  | .maxData max => writeVarint 0x10 ++ writeVarint max
  | .maxStreamData id max => writeVarint 0x11 ++ writeVarint id ++ writeVarint max
  | .maxStreams uni max => writeVarint (if uni then 0x13 else 0x12) ++ writeVarint max
  | .handshakeDone => writeVarint 0x1e
  | .pathChallenge data => writeVarint 0x1a ++ data
  | .pathResponse data => writeVarint 0x1b ++ data

def Queued.encode : Queued → Bytes
  | .crypto offset data =>
    writeVarint 0x06 ++ writeVarint offset ++ writeVarint data.length ++ data
  | .app frame => encodeFrame frame

lemma Queued.encode_ne_nil (f : Queued) : f.encode ≠ [] := by
  cases f with
  | crypto offset data => simp [encode, writeVarint_ne_nil]
  | app frame => cases frame <;> simp [encode, encodeFrame, writeVarint_ne_nil]

/-- The runs of successive numbers of a descending list, as `(low, high)`. -/
def runs : List ℕ → List (ℕ × ℕ)
  | [] => []
  | n :: rest =>
    match runs rest with
    | [] => [(n, n)]
    | (low, high) :: others =>
      if high + 1 = n then (low, n) :: others else (n, n) :: (low, high) :: others

/-- The gaps and lengths that an acknowledgement gives after its first run. -/
def gaps : ℕ → List (ℕ × ℕ) → List (ℕ × ℕ)
  | _, [] => []
  | previousLow, (low, high) :: rest => (previousLow - high - 2, high - low) :: gaps low rest

/-- `build_ack`, encoded; the numbers received since the last one are used up. -/
def buildAck (recvPns : List ℕ) : Option Bytes :=
  match runs ((recvPns.mergeSort (fun a b => b ≤ a)).dedup) with
  | [] => none
  | (low, high) :: rest =>
    let ranges := (gaps low rest).take maxAckRanges
    some (writeVarint 0x02 ++ writeVarint high ++ writeVarint 0 ++ writeVarint ranges.length ++
      writeVarint (high - low) ++
      (ranges.flatMap fun (gap, len) => writeVarint gap ++ writeVarint len))

structure SentPacket where
  pn : ℕ
  timeMs : ℕ
  ackEliciting : Bool
  size : ℕ
  frames : List Queued
  deriving DecidableEq

/-- A number space. What has been read of the peer's handshake data is the business of
TLS. -/
structure SpaceState where
  sendKeys : Option SealKey := none
  /-- Whether there are keys for receiving. -/
  recvKeys : Bool := false
  nextPn : ℕ := 0
  received : Received := ⟨none, 0⟩
  recvPns : List ℕ := []
  ackPending : Bool := false
  sendCryptoOffset : ℕ := 0
  outCrypto : Bytes := []
  sent : List SentPacket := []
  rtx : List Queued := []
  largestAcked : Option ℕ := none
  lastAckElicitingMs : ℕ := 0
  lossTimeMs : Option ℕ := none
  discarded : Bool := false

def SpaceState.withKeys (s : SpaceState) (key : SealKey) : SpaceState :=
  { s with sendKeys := some key, recvKeys := true }

/-- A packet that is being filled. -/
structure Packing where
  payload : Bytes := []
  frames : List Queued := []
  ackEliciting : Bool := false

/-- The loop of `append_queued_frames`. -/
def appendFrames : List Queued → Packing → List Queued × Packing
  | [], packing => ([], packing)
  | f :: rest, packing =>
    if maxPacketPayload < f.encode.length ∨
        maxPacketPayload < packing.payload.length + f.encode.length then (f :: rest, packing)
    else
      appendFrames rest
        { payload := packing.payload ++ f.encode
          frames := if f.isRetransmittable then packing.frames ++ [f] else packing.frames
          ackEliciting := true }

/-- `append_queued_frames`: what stays in the queue, and the packet. -/
def appendQueuedFrames (queue : List Queued) (packing : Packing) : List Queued × Packing :=
  if maxPacketPayload ≤ packing.payload.length then (queue, packing)
  else appendFrames queue packing

/-- The longest piece of at most `n` bytes whose frame fits. -/
def fitCrypto (offset : ℕ) (outCrypto : Bytes) (used : ℕ) : ℕ → ℕ
  | 0 => 0
  | n + 1 =>
    if used + (Queued.crypto offset (outCrypto.take (n + 1))).encode.length ≤ maxPacketPayload
    then n + 1
    else fitCrypto offset outCrypto used n

def appendCryptoChunk (space : SpaceState) (packing : Packing) : SpaceState × Packing :=
  if space.outCrypto = [] ∨ maxPacketPayload ≤ packing.payload.length then (space, packing)
  else
    let available := maxPacketPayload - packing.payload.length
    let n := fitCrypto space.sendCryptoOffset space.outCrypto packing.payload.length
      (min (min space.outCrypto.length cryptoChunk) available)
    if n = 0 then (space, packing)
    else
      let frame := Queued.crypto space.sendCryptoOffset (space.outCrypto.take n)
      ({ space with
          outCrypto := space.outCrypto.drop n
          sendCryptoOffset := space.sendCryptoOffset + n },
        { payload := packing.payload ++ frame.encode
          frames := packing.frames ++ [frame]
          ackEliciting := true })

inductive PacketKind where
  | initial
  | zeroRtt
  | handshake
  | oneRtt
  deriving DecidableEq

/-- A packet before its key seals it. -/
structure Packet where
  kind : PacketKind
  key : SealKey
  pn : ℕ
  dcid : Bytes
  scid : Bytes
  token : Bytes
  keyPhase : Bool
  payload : Bytes
  deriving DecidableEq

/-- The length that `protect_long` and `protect_short` give it. -/
def Packet.len (p : Packet) : ℕ :=
  match p.kind with
  | .oneRtt => if 20 < p.dcid.length then 0 else 1 + p.dcid.length + 4 + p.payload.length + 16
  | kind =>
    if 20 < p.dcid.length ∨ 20 < p.scid.length ∨ 256 < p.token.length then 0
    else
      let token :=
        if kind = .initial then (writeVarint p.token.length).length + p.token.length else 0
      1 + 4 + (1 + p.dcid.length) + (1 + p.scid.length) + token +
        (writeVarint (4 + p.payload.length + 16)).length + 4 + p.payload.length + 16

/-- Zero bytes fill a packet up to a length. -/
def Packet.padded (pkt : Packet) (padTo : ℕ) : Packet :=
  if 0 < padTo ∧ pkt.len < padTo then
    { pkt with payload := pkt.payload ++ List.replicate (padTo - pkt.len) 0 }
  else pkt

end OnetDns.Quic.Transport
