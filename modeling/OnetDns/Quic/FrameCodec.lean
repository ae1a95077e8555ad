import OnetDns.Quic.Varint

/-!
# Frames on the wire

`frame::parse` and `frame::encode` of `onetdns-quic`. A cursor is the bytes that are left, and a
`usize` holds every `u64`.
-/
namespace OnetDns.Quic.Codec
open PrefixCode Transport List Bool Nat

def maxParsedFrames : ℕ := 1024
def maxParsedAckRanges : ℕ := 256

namespace FrameType

def padding : ℕ := 0x00
def ping : ℕ := 0x01
def ack : ℕ := 0x02
def ackEcn : ℕ := 0x03
def resetStream : ℕ := 0x04
def stopSending : ℕ := 0x05
def crypto : ℕ := 0x06
def newToken : ℕ := 0x07
def stream : ℕ := 0x08
def maxData : ℕ := 0x10
def maxStreamData : ℕ := 0x11
def maxStreamsBidi : ℕ := 0x12
def maxStreamsUni : ℕ := 0x13
def dataBlocked : ℕ := 0x14
def streamDataBlocked : ℕ := 0x15
def streamsBlockedBidi : ℕ := 0x16
def streamsBlockedUni : ℕ := 0x17
def newConnectionId : ℕ := 0x18
def retireConnectionId : ℕ := 0x19
def pathChallenge : ℕ := 0x1a
def pathResponse : ℕ := 0x1b
def connectionClose : ℕ := 0x1c
def connectionCloseApp : ℕ := 0x1d
def handshakeDone : ℕ := 0x1e

end FrameType

/-- `[u8; n]`. -/
structure Octets (n : ℕ) where
  bytes : Bytes
  length_eq : bytes.length = n
  deriving DecidableEq

inductive Frame where
  | padding (n : ℕ)
  | ping
  | ack (largest delay firstRange : ℕ) (ranges : List (ℕ × ℕ))
  | crypto (offset : ℕ) (data : Bytes)
  | stream (id offset : ℕ) (fin : Bool) (data : Bytes)
  | resetStream (id errorCode finalSize : ℕ)
  | stopSending (id errorCode : ℕ)
  | maxData (max : ℕ)
  | maxStreamData (id max : ℕ)
  | maxStreams (uni : Bool) (max : ℕ)
  | connectionClose (errorCode : ℕ) (frameType : Option ℕ) (reason : Bytes)
  | handshakeDone
  | pathChallenge (data : Octets 8)
  | pathResponse (data : Octets 8)
  | other (t : ℕ)

abbrev Cursor := Parser UInt8

/-- The zeros behind a first one. -/
def parsePadding : Cursor Frame := fun bytes =>
  some (.padding (1 + (bytes.takeWhile (· == 0)).length), bytes.dropWhile (· == 0))

def parseRange : Cursor (ℕ × ℕ) := do
  let gap ← vi
  let len ← vi
  return (gap, len)

variable (t : ℕ)

def parseAck : Cursor Frame := do
  let largest ← vi
  let delay ← vi
  let number ← vi
  PrefixCode.guard (number ≤ maxParsedAckRanges)
  let firstRange ← vi
  let ranges ← count number parseRange
  if t = FrameType.ackEcn then do
    let _ ← vi
    let _ ← vi
    let _ ← vi
    return .ack largest delay firstRange ranges
  else return .ack largest delay firstRange ranges

/-- A length and as many bytes. -/
def parseData : Cursor Bytes := do
  let len ← vi
  take len

def parseCrypto : Cursor Frame := do
  let offset ← vi
  let data ← parseData
  return .crypto offset data

def parseStream : Cursor Frame := do
  let id ← vi
  let offset ← (if t &&& 0x04 ≠ 0 then vi else pure 0)
  let data ← (if t &&& 0x02 ≠ 0 then parseData else rest)
  return .stream id offset (t &&& 0x01 != 0) data

def parseMaxStreamData : Cursor Frame := do
  let id ← vi
  let max ← vi
  return .maxStreamData id max

def parseFrameType : Cursor (Option ℕ) :=
  if t = FrameType.connectionClose then do return some (← vi) else return none

def parseConnectionClose : Cursor Frame := do
  let errorCode ← vi
  let frameType ← parseFrameType t
  let reason ← parseData
  return .connectionClose errorCode frameType reason

def parseResetStream : Cursor Frame := do
  let id ← vi
  let errorCode ← vi
  let finalSize ← vi
  return .resetStream id errorCode finalSize

def parseStopSending : Cursor Frame := do
  let id ← vi
  let errorCode ← vi
  return .stopSending id errorCode

def parseNewToken : Cursor Frame := do
  let len ← vi
  PrefixCode.guard (len ≠ 0)
  let _ ← take len
  return .other FrameType.newToken

def parseNewConnectionId : Cursor Frame := do
  let sequence ← vi
  let retirePriorTo ← vi
  PrefixCode.guard (retirePriorTo ≤ sequence)
  let cidLen ← item
  PrefixCode.guard (1 ≤ cidLen.toNat ∧ cidLen.toNat ≤ 20)
  let _ ← take cidLen.toNat
  let _ ← take 16
  return .other FrameType.newConnectionId

/-- A frame of a kind that is not handled, with one number. -/
def parseOther : Cursor Frame := do
  let _ ← vi
  return .other t

def parseStreamDataBlocked : Cursor Frame := do
  let _ ← vi
  let _ ← vi
  return .other FrameType.streamDataBlocked

/-- `c.take(8)?.try_into()`. -/
def parseOctets (n : ℕ) : Cursor (Octets n) := fun bytes =>
  if h : n ≤ bytes.length then
    some (⟨bytes.take n, by rw [List.length_take, Nat.min_eq_left h]⟩, bytes.drop n)
  else none

/-- The frame behind its type. -/
def parseBody : Cursor Frame :=
  if t = FrameType.padding then parsePadding
  else if t = FrameType.ping then return .ping
  else if t = FrameType.ack ∨ t = FrameType.ackEcn then parseAck t
  else if t = FrameType.crypto then parseCrypto
  else if FrameType.stream ≤ t ∧ t ≤ FrameType.stream + 7 then parseStream t
  else if t = FrameType.maxData then do return .maxData (← vi)
  else if t = FrameType.maxStreamData then parseMaxStreamData
  else if t = FrameType.maxStreamsBidi then do return .maxStreams false (← vi)
  else if t = FrameType.maxStreamsUni then do return .maxStreams true (← vi)
  else if t = FrameType.connectionClose ∨ t = FrameType.connectionCloseApp then
    parseConnectionClose t
  else if t = FrameType.handshakeDone then return .handshakeDone
  else if t = FrameType.resetStream then parseResetStream
  else if t = FrameType.stopSending then parseStopSending
  else if t = FrameType.newToken then parseNewToken
  else if t = FrameType.dataBlocked then parseOther t
  else if t = FrameType.streamDataBlocked then parseStreamDataBlocked
  else if t = FrameType.streamsBlockedBidi ∨ t = FrameType.streamsBlockedUni then parseOther t
  else if t = FrameType.newConnectionId then parseNewConnectionId
  else if t = FrameType.retireConnectionId then parseOther t
  else if t = FrameType.pathChallenge then do return .pathChallenge (← parseOctets 8)
  else if t = FrameType.pathResponse then do return .pathResponse (← parseOctets 8)
  else fail

def parseFrame : Cursor Frame := do
  let t ← vi
  parseBody t

/-- The loop of `parse`, with the number of frames that may still come. -/
def parseFrames : ℕ → Bytes → Option (List Frame)
  | _, [] => some []
  | 0, _ :: _ => none
  | n + 1, b :: bytes => do
    let (frame, bytes) ← parseFrame (b :: bytes)
    let frames ← parseFrames n bytes
    return frame :: frames

def parse (buf : Bytes) : Option (List Frame) := parseFrames maxParsedFrames buf

def encodeRange (range : ℕ × ℕ) : Bytes := writeVarint range.1 ++ writeVarint range.2

def encodeData (data : Bytes) : Bytes := writeVarint data.length ++ data

/-- What `encode` appends. -/
def encode : Frame → Bytes
  | .padding n => List.replicate n 0
  | .ping => writeVarint FrameType.ping
  | .handshakeDone => writeVarint FrameType.handshakeDone
  | .crypto offset data => writeVarint FrameType.crypto ++ (writeVarint offset ++ encodeData data)
  | .stream id offset fin data =>
    let t := FrameType.stream ||| 0x02
    let t := if offset ≠ 0 then t ||| 0x04 else t
    let t := if fin then t ||| 0x01 else t
    writeVarint t ++ (writeVarint id ++
      ((if offset ≠ 0 then writeVarint offset else []) ++ encodeData data))
  | .resetStream id errorCode finalSize => writeVarint FrameType.resetStream ++
    (writeVarint id ++ (writeVarint errorCode ++ writeVarint finalSize))
  | .stopSending id errorCode =>
    writeVarint FrameType.stopSending ++ (writeVarint id ++ writeVarint errorCode)
  | .ack largest delay firstRange ranges => writeVarint FrameType.ack ++ (writeVarint largest ++
    (writeVarint delay ++ (writeVarint ranges.length ++
      (writeVarint firstRange ++ ranges.flatMap encodeRange))))
  | .maxData max => writeVarint FrameType.maxData ++ writeVarint max
  | .maxStreamData id max =>
    writeVarint FrameType.maxStreamData ++ (writeVarint id ++ writeVarint max)
  | .maxStreams uni max =>
    writeVarint (if uni then FrameType.maxStreamsUni else FrameType.maxStreamsBidi) ++
      writeVarint max
  | .connectionClose errorCode frameType reason =>
    writeVarint (if frameType.isSome then FrameType.connectionClose
      else FrameType.connectionCloseApp) ++
      (writeVarint errorCode ++ (frameType.elim [] writeVarint ++ encodeData reason))
  | .pathChallenge data => writeVarint FrameType.pathChallenge ++ data.bytes
  | .pathResponse data => writeVarint FrameType.pathResponse ++ data.bytes
  | .other _ => []

def encodeAll (frames : List Frame) : Bytes := frames.flatMap encode

/-- The numbers of the frame are below `2 ^ 62`, there are not too many ranges, and it is of a kind
that is handled. -/
def Frame.Fits : Frame → Prop
  | .padding _ => True
  | .ping => True
  | .ack largest delay firstRange ranges => largest < varintLimit ∧ delay < varintLimit ∧
    firstRange < varintLimit ∧ ranges.length ≤ maxParsedAckRanges ∧
    ∀ range ∈ ranges, range.1 < varintLimit ∧ range.2 < varintLimit
  | .crypto offset data => offset < varintLimit ∧ data.length < varintLimit
  | .stream id offset _ data =>
    id < varintLimit ∧ offset < varintLimit ∧ data.length < varintLimit
  | .resetStream id errorCode finalSize =>
    id < varintLimit ∧ errorCode < varintLimit ∧ finalSize < varintLimit
  | .stopSending id errorCode => id < varintLimit ∧ errorCode < varintLimit
  | .maxData max => max < varintLimit
  | .maxStreamData id max => id < varintLimit ∧ max < varintLimit
  | .maxStreams _ max => max < varintLimit
  | .connectionClose errorCode frameType reason => errorCode < varintLimit ∧
    (∀ t ∈ frameType, t < varintLimit) ∧ reason.length < varintLimit
  | .handshakeDone => True
  | .pathChallenge _ => True
  | .pathResponse _ => True
  | .other _ => False

def Frame.isPadding : Frame → Bool
  | .padding _ => true
  | _ => false

variable {n : ℕ}

lemma reads_octets (data : Octets n) : Reads (parseOctets n) data.bytes data := by
  intro rest
  have hlen := data.length_eq
  rw [parseOctets, dif_pos (by rw [length_append]; omega)]
  obtain ⟨bytes, hbytes⟩ := data
  subst hbytes
  simp only [take_left, drop_left]

lemma reads_data {data : Bytes} (h : data.length < varintLimit) :
    Reads parseData (encodeData data) data := (reads_vi h).bind (reads_take rfl)

lemma reads_range {range : ℕ × ℕ} (h : range.1 < varintLimit ∧ range.2 < varintLimit) :
    Reads parseRange (encodeRange range) range := (reads_vi h.1).bind ((reads_vi h.2).last rfl)

variable {f : Frame}

lemma reads_typed {t : ℕ} {p : Cursor Frame} {bytes : Bytes} (ht : t < 64)
    (hp : parseBody t = p) (h : Reads p bytes f) : Reads parseFrame (writeVarint t ++ bytes) f := by
  have hlimit : t < varintLimit := lt_trans ht (by decide)
  exact (reads_vi hlimit).bind (hp ▸ h)

lemma reads_ack {largest delay firstRange : ℕ} {ranges : List (ℕ × ℕ)}
    (h : (Frame.ack largest delay firstRange ranges).Fits) :
    Reads (parseAck FrameType.ack) (writeVarint largest ++ (writeVarint delay ++
      (writeVarint ranges.length ++ (writeVarint firstRange ++ ranges.flatMap encodeRange))))
      (.ack largest delay firstRange ranges) := by
  obtain ⟨hlargest, hdelay, hfirst, hcount, hranges⟩ := h
  have hlen : ranges.length < varintLimit := lt_of_le_of_lt hcount (by decide)
  refine (reads_vi hlargest).bind ((reads_vi hdelay).bind ((reads_vi hlen).bind ?_))
  refine (reads_guard hcount).bind ?_
  refine (reads_vi hfirst).bind (.last (reads_count fun range hrange => ?_) rfl)
  exact reads_range (hranges range hrange)

def streamType (offset : ℕ) (fin : Bool) : ℕ :=
  let t := FrameType.stream ||| 0x02
  let t := if offset ≠ 0 then t ||| 0x04 else t
  if fin then t ||| 0x01 else t

lemma streamType_bits (offset : ℕ) (fin : Bool) :
    streamType offset fin < 64 ∧ parseBody (streamType offset fin) =
      parseStream (streamType offset fin) ∧ (streamType offset fin &&& 0x04 ≠ 0 ↔ offset ≠ 0) ∧
    streamType offset fin &&& 0x02 ≠ 0 ∧ (streamType offset fin &&& 0x01 != 0) = fin := by
  unfold streamType
  dsimp only
  by_cases hoffset : offset ≠ 0
  · rw [if_pos hoffset]
    cases fin with
    | false => exact ⟨by decide, rfl, iff_of_true (by decide) hoffset, by decide, rfl⟩
    | true => exact ⟨by decide, rfl, iff_of_true (by decide) hoffset, by decide, rfl⟩
  · rw [if_neg hoffset]
    cases fin with
    | false => exact ⟨by decide, rfl, iff_of_false (by decide) hoffset, by decide, rfl⟩
    | true => exact ⟨by decide, rfl, iff_of_false (by decide) hoffset, by decide, rfl⟩

lemma reads_stream {id offset : ℕ} {fin : Bool} {data : Bytes}
    (h : (Frame.stream id offset fin data).Fits) :
    Reads parseFrame (encode (.stream id offset fin data)) (.stream id offset fin data) := by
  obtain ⟨hid, hoffset, hdata⟩ := h
  obtain ⟨htype, hbody, hbit, hlen, hfin⟩ := streamType_bits offset fin
  refine reads_typed htype hbody ((reads_vi hid).bind ?_)
  refine .bind (v := offset) ?_ ?_
  · by_cases hzero : offset ≠ 0
    · rw [if_pos (hbit.mpr hzero), if_pos hzero]
      exact reads_vi hoffset
    · rw [if_neg (fun h => hzero (hbit.mp h)), not_not.mp hzero]
      exact reads_pure 0
  · rw [if_pos hlen]
    exact (reads_data hdata).last (by rw [hfin])

lemma reads_frameType {t : ℕ} {frameType : Option ℕ}
    (ht : t = if frameType.isSome then FrameType.connectionClose else FrameType.connectionCloseApp)
    (h : ∀ t ∈ frameType, t < varintLimit) :
    Reads (parseFrameType t) (frameType.elim [] writeVarint) frameType := by
  subst ht
  cases frameType with
  | none => exact reads_pure none
  | some kind => exact (reads_vi (h kind rfl)).last rfl

lemma reads_connectionClose {errorCode : ℕ} {frameType : Option ℕ} {reason : Bytes}
    (h : (Frame.connectionClose errorCode frameType reason).Fits) :
    Reads parseFrame (encode (.connectionClose errorCode frameType reason))
      (.connectionClose errorCode frameType reason) := by
  obtain ⟨hcode, htype, hreason⟩ := h
  have hrest : Reads (parseConnectionClose (if frameType.isSome then FrameType.connectionClose
      else FrameType.connectionCloseApp)) (writeVarint errorCode ++
        (frameType.elim [] writeVarint ++ encodeData reason))
      (.connectionClose errorCode frameType reason) :=
    (reads_vi hcode).bind ((reads_frameType rfl htype).bind ((reads_data hreason).last rfl))
  refine reads_typed ?_ ?_ hrest
  · split <;> decide
  · split <;> rfl

lemma reads_maxStreams {uni : Bool} {max : ℕ} (h : max < varintLimit) :
    Reads parseFrame (encode (.maxStreams uni max)) (.maxStreams uni max) := by
  cases uni with
  | false => exact reads_typed (by decide) rfl ((reads_vi h).last rfl)
  | true => exact reads_typed (by decide) rfl ((reads_vi h).last rfl)

lemma reads_frame (h : f.Fits) (hpad : f.isPadding = false) : Reads parseFrame (encode f) f := by
  cases f with
  | padding n => cases hpad
  | ping =>
    have hread := reads_typed (t := FrameType.ping) (by decide) rfl (reads_pure Frame.ping)
    rwa [append_nil] at hread
  | handshakeDone =>
    have hread := reads_typed (t := FrameType.handshakeDone) (by decide) rfl
      (reads_pure Frame.handshakeDone)
    rwa [append_nil] at hread
  | ack largest delay firstRange ranges => exact reads_typed (by decide) rfl (reads_ack h)
  | crypto offset data =>
    exact reads_typed (by decide) rfl ((reads_vi h.1).bind ((reads_data h.2).last rfl))
  | stream id offset fin data => exact reads_stream h
  | resetStream id errorCode finalSize =>
    exact reads_typed (by decide) rfl
      ((reads_vi h.1).bind ((reads_vi h.2.1).bind ((reads_vi h.2.2).last rfl)))
  | stopSending id errorCode =>
    exact reads_typed (by decide) rfl ((reads_vi h.1).bind ((reads_vi h.2).last rfl))
  | maxData max => exact reads_typed (by decide) rfl ((reads_vi h).last rfl)
  | maxStreamData id max =>
    exact reads_typed (by decide) rfl ((reads_vi h.1).bind ((reads_vi h.2).last rfl))
  | maxStreams uni max => exact reads_maxStreams h
  | connectionClose errorCode frameType reason => exact reads_connectionClose h
  | pathChallenge data => exact reads_typed (by decide) rfl ((reads_octets data).last rfl)
  | pathResponse data => exact reads_typed (by decide) rfl ((reads_octets data).last rfl)
  | other t => exact absurd h not_false

lemma writeVarint_small {t : ℕ} (h : t < 64) : writeVarint t = [UInt8.ofNat t] := by
  rw [writeVarint, if_pos (show t < 2 ^ 6 from h), BigEndian.encode, BigEndian.encode, pow_zero, Nat.div_one]

/-- Only padding begins with a zero. -/
theorem encode_head (h : f.Fits) (hpad : f.isPadding = false) :
    ∃ b bytes, encode f = b :: bytes ∧ b ≠ 0 := by
  have hsmall : ∀ {t : ℕ} (bytes : Bytes), 0 < t → t < 64 →
      ∃ b rest, writeVarint t ++ bytes = b :: rest ∧ b ≠ 0 := by
    intro t bytes hpos hlt
    refine ⟨.ofNat t, bytes, by rw [writeVarint_small hlt]; rfl, fun hzero => ?_⟩
    have hnat := congrArg UInt8.toNat hzero
    rw [UInt8.toNat_ofNat'] at hnat
    have hmod : t % 2 ^ 8 = t := mod_eq_of_lt (by omega)
    rw [hmod] at hnat
    exact hpos.ne' hnat
  cases f with
  | padding n => cases hpad
  | ping => exact ⟨1, [], by decide, by decide⟩
  | handshakeDone => exact ⟨0x1e, [], by decide, by decide⟩
  | ack largest delay firstRange ranges => exact hsmall _ (by decide) (by decide)
  | crypto offset data => exact hsmall _ (by decide) (by decide)
  | stream id offset fin data =>
    refine hsmall (t := streamType offset fin) _ (pos_of_ne_zero fun hzero => ?_)
      (streamType_bits offset fin).1
    have hbit := (streamType_bits offset fin).2.2.2.1
    rw [hzero] at hbit
    exact hbit rfl
  | resetStream id errorCode finalSize => exact hsmall _ (by decide) (by decide)
  | stopSending id errorCode => exact hsmall _ (by decide) (by decide)
  | maxData max => exact hsmall _ (by decide) (by decide)
  | maxStreamData id max => exact hsmall _ (by decide) (by decide)
  | maxStreams uni max =>
    refine hsmall _ ?_ ?_ <;> cases uni <;> decide
  | connectionClose errorCode frameType reason =>
    refine hsmall _ ?_ ?_ <;> split <;> decide
  | pathChallenge data => exact hsmall _ (by decide) (by decide)
  | pathResponse data => exact hsmall _ (by decide) (by decide)
  | other t => exact absurd h not_false

/-- Puts padding in front of frames, and with the padding that stands there already. -/
def pad (n : ℕ) : List Frame → List Frame
  | .padding m :: frames => .padding (n + m) :: frames
  | frames => if n = 0 then frames else .padding n :: frames

/-- Adjacent padding is one frame, and padding of no bytes is none. -/
def normalise : List Frame → List Frame
  | [] => []
  | .padding n :: frames => pad n (normalise frames)
  | frame :: frames => frame :: normalise frames

/-- No padding of no bytes and no two that are adjacent. -/
def Normal : List Frame → Prop
  | [] => True
  | .padding n :: frames =>
    n ≠ 0 ∧ (∀ frame ∈ frames.head?, frame.isPadding = false) ∧ Normal frames
  | _ :: frames => Normal frames

variable {frames : List Frame} {frame : Frame}

lemma Frame.eq_padding (h : frame.isPadding = true) : ∃ n, frame = .padding n := by
  cases frame with
  | padding n => exact ⟨n, rfl⟩
  | _ => cases h

lemma normalise_cons (h : frame.isPadding = false) (frames : List Frame) :
    normalise (frame :: frames) = frame :: normalise frames := by
  cases frame with
  | padding n => cases h
  | _ => rfl

lemma normal_cons (h : frame.isPadding = false) : Normal (frame :: frames) ↔ Normal frames := by
  cases frame with
  | padding n => cases h
  | _ => exact Iff.rfl

lemma pad_nil (n : ℕ) : pad n [] = if n = 0 then [] else [.padding n] := rfl

lemma pad_cons (h : frame.isPadding = false) (n : ℕ) (frames : List Frame) :
    pad n (frame :: frames) = if n = 0 then frame :: frames else .padding n :: frame :: frames := by
  cases frame with
  | padding m => cases h
  | _ => rfl

lemma encodeAll_cons (frame : Frame) (frames : List Frame) :
    encodeAll (frame :: frames) = encode frame ++ encodeAll frames := flatMap_cons

lemma encodeAll_pad (n : ℕ) (frames : List Frame) :
    encodeAll (pad n frames) = List.replicate n 0 ++ encodeAll frames := by
  have hfront : ∀ frames, encodeAll (if n = 0 then frames else .padding n :: frames) =
      replicate n 0 ++ encodeAll frames := by
    intro frames
    split_ifs with hn
    · rw [hn]
      rfl
    · rfl
  cases frames with
  | nil => exact hfront []
  | cons frame frames =>
    by_cases hpad : frame.isPadding = true
    · obtain ⟨m, rfl⟩ := Frame.eq_padding hpad
      rw [pad, encodeAll_cons, encodeAll_cons, encode, encode, replicate_add, append_assoc]
    · rw [pad_cons (eq_false_iff.mpr hpad)]
      exact hfront _

lemma normal_pad (h : Normal frames) : Normal (pad n frames) := by
  cases frames with
  | nil =>
    rw [pad_nil]
    split_ifs with hn
    · trivial
    · exact ⟨hn, fun _ h => (Option.not_mem_none _ h).elim, trivial⟩
  | cons frame frames =>
    by_cases hpad : frame.isPadding = true
    · obtain ⟨m, rfl⟩ := Frame.eq_padding hpad
      exact ⟨by have := h.1; omega, h.2⟩
    have hframe := eq_false_iff.mpr hpad
    rw [pad_cons hframe]
    split_ifs with hn
    · exact h
    · refine ⟨hn, fun other hother => ?_, h⟩
      cases hother
      exact hframe

lemma pad_length (n : ℕ) (frames : List Frame) : (pad n frames).length ≤ frames.length + 1 := by
  cases frames with
  | nil =>
    rw [pad_nil]
    split_ifs <;> simp
  | cons frame frames =>
    by_cases hpad : frame.isPadding = true
    · obtain ⟨m, rfl⟩ := Frame.eq_padding hpad
      exact le_succ _
    · rw [pad_cons (eq_false_iff.mpr hpad)]
      split_ifs <;> simp

lemma fits_pad (h : ∀ f ∈ frames, f.Fits) : ∀ f ∈ pad n frames, f.Fits := by
  have hfront : ∀ f ∈ (if n = 0 then frames else .padding n :: frames), f.Fits := by
    split_ifs
    · exact h
    · intro f hf
      rcases mem_cons.mp hf with rfl | hf
      · trivial
      · exact h f hf
  cases frames with
  | nil => exact hfront
  | cons frame frames =>
    by_cases hpad : frame.isPadding = true
    · obtain ⟨m, rfl⟩ := Frame.eq_padding hpad
      intro f hf
      rcases mem_cons.mp hf with rfl | hf
      · trivial
      · exact h f (mem_cons_of_mem _ hf)
    · rw [pad_cons (eq_false_iff.mpr hpad)]
      exact hfront

/-- The frames that are left are written as the same bytes. -/
theorem normalise_spec (h : ∀ f ∈ frames, f.Fits) :
    encodeAll (normalise frames) = encodeAll frames ∧ Normal (normalise frames) ∧
      (normalise frames).length ≤ frames.length ∧ ∀ f ∈ normalise frames, f.Fits := by
  induction frames with
  | nil => exact ⟨rfl, trivial, le_rfl, h⟩
  | cons frame frames ih =>
    obtain ⟨hbytes, hnormal, hlen, hfits⟩ := ih fun f hf => h f (mem_cons_of_mem _ hf)
    by_cases hpad : frame.isPadding = true
    · obtain ⟨n, rfl⟩ := Frame.eq_padding hpad
      refine ⟨?_, normal_pad hnormal, (pad_length n _).trans (succ_le_succ hlen), fits_pad hfits⟩
      rw [normalise, encodeAll_pad, hbytes]
      rfl
    have hframe := eq_false_iff.mpr hpad
    rw [normalise_cons hframe]
    refine ⟨?_, (normal_cons hframe).mpr hnormal, succ_le_succ hlen, fun f hf => ?_⟩
    · rw [encodeAll_cons, encodeAll_cons, hbytes]
    · rcases mem_cons.mp hf with rfl | hf
      · exact h _ mem_cons_self
      · exact hfits f hf

lemma parseFrame_padding {bytes : Bytes} (hn : n ≠ 0) (h : ∀ b ∈ bytes.head?, b ≠ 0) :
    parseFrame (List.replicate n 0 ++ bytes) = some (.padding n, bytes) := by
  obtain ⟨k, rfl⟩ := exists_eq_succ_of_ne_zero hn
  have hstop : bytes.takeWhile (· == 0) = [] ∧ bytes.dropWhile (· == 0) = bytes := by
    cases bytes with
    | nil => exact ⟨rfl, rfl⟩
    | cons b bytes =>
      have hb : (b == 0) = false := beq_eq_false_iff_ne.mpr (h b rfl)
      rw [takeWhile_cons_of_neg (by rw [hb]; exact false_ne_true),
        dropWhile_cons_of_neg (by rw [hb]; exact false_ne_true)]
      exact ⟨rfl, rfl⟩
  have hall : ∀ b ∈ replicate k (0 : UInt8), (b == 0) = true := by
    intro b hb
    rw [(mem_replicate.mp hb).2]
    rfl
  have hbody : parsePadding (replicate k 0 ++ bytes) = some (.padding (k + 1), bytes) := by
    rw [parsePadding, takeWhile_append_of_pos hall, dropWhile_append_of_pos hall, hstop.1,
      hstop.2, append_nil, length_replicate, add_comm]
  exact hbody

/-- Frames without adjacent padding are read one by one. -/
theorem parseFrames_encodeAll {budget : ℕ} (hnormal : Normal frames) (hfits : ∀ f ∈ frames, f.Fits)
    (hlen : frames.length ≤ budget) : parseFrames budget (encodeAll frames) = some frames := by
  induction frames generalizing budget with
  | nil => cases budget <;> rfl
  | cons frame frames ih =>
    obtain ⟨budget, rfl⟩ : ∃ k, budget = k + 1 := ⟨budget - 1, by simp at hlen; omega⟩
    have hframe := hfits frame mem_cons_self
    have hrest : ∀ f ∈ frames, f.Fits := fun f hf => hfits f (mem_cons_of_mem _ hf)
    have hread : ∃ b bytes, encodeAll (frame :: frames) = b :: bytes ∧
        parseFrame (b :: bytes) = some (frame, encodeAll frames) := by
      rw [encodeAll_cons]
      by_cases hpad : frame.isPadding = true
      · obtain ⟨n, rfl⟩ := Frame.eq_padding hpad
        obtain ⟨hn, hnext, -⟩ := hnormal
        obtain ⟨k, rfl⟩ := exists_eq_succ_of_ne_zero hn
        refine ⟨0, replicate k 0 ++ encodeAll frames, rfl, ?_⟩
        refine parseFrame_padding hn fun b hb => ?_
        cases frames with
        | nil => cases hb
        | cons next frames =>
          obtain ⟨c, bytes, hbytes, hc⟩ := encode_head (hrest next mem_cons_self) (hnext next rfl)
          rw [encodeAll_cons, hbytes] at hb
          cases hb
          exact hc
      · have hother := eq_false_iff.mpr hpad
        obtain ⟨b, bytes, hbytes, -⟩ := encode_head hframe hother
        refine ⟨b, bytes ++ encodeAll frames, by rw [hbytes]; rfl, ?_⟩
        have hread := reads_frame hframe hother (encodeAll frames)
        rwa [hbytes] at hread
    have htail : Normal frames := by
      by_cases hpad : frame.isPadding = true
      · obtain ⟨n, rfl⟩ := Frame.eq_padding hpad
        exact hnormal.2.2
      · exact (normal_cons (eq_false_iff.mpr hpad)).mp hnormal
    obtain ⟨b, bytes, hbytes, hparse⟩ := hread
    rw [hbytes, parseFrames, hparse]
    simp only [Option.bind_eq_bind, Option.bind_some]
    rw [ih htail hrest (le_of_succ_le_succ hlen)]
    rfl

lemma parse_encodeAll (hlen : frames.length ≤ maxParsedFrames) (hfits : ∀ f ∈ frames, f.Fits) :
    parse (encodeAll frames) = some (normalise frames) := by
  obtain ⟨hbytes, hnormal, hle, hkept⟩ := normalise_spec hfits
  rw [← hbytes]
  exact parseFrames_encodeAll hnormal hkept (hle.trans hlen)

end OnetDns.Quic.Codec
