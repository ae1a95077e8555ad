import OnetDns.Dns.RData

/-!
# Messages

`Header`, `Message` and `Edns` of `onetdns-proto/src/message.rs`. The response
code has 12 bits: four stand in the header and eight in the TTL of the OPT record,
which is an additional record like the others once a message is parsed.
-/
namespace OnetDns.Dns

/-- `if condition { return Err(..) }`. -/
def refuseIf {m : Type → Type} [Monad m] [MonadExcept ProtoError m] (condition : Prop)
    [Decidable condition] (text : String) : m Unit :=
  if condition then throw (.message text) else pure ()

structure Header where
  id : UInt16
  response : Bool
  opcode : UInt8
  authoritative : Bool
  truncated : Bool
  recursionDesired : Bool
  recursionAvailable : Bool
  authenticData : Bool
  checkingDisabled : Bool
  rcode : UInt16
  deriving DecidableEq

namespace Header

/-- `mask` where the flag is set. -/
def bit (flag : Bool) (mask : UInt16) : UInt16 := if flag then mask else 0

/-- The flag word. The Z bit is always clear. -/
def flags (h : Header) : UInt16 :=
  bit h.response 0x8000 ||| ((h.opcode.toUInt16 &&& 0xF) <<< 11) ||| bit h.authoritative 0x0400 |||
    bit h.truncated 0x0200 ||| bit h.recursionDesired 0x0100 ||| bit h.recursionAvailable 0x0080 |||
    bit h.authenticData 0x0020 ||| bit h.checkingDisabled 0x0010 ||| (h.rcode &&& 0xF)

/-- The header of a flag word, with the four bits of the response code that it holds. -/
def fromFlags (id f : UInt16) : Header where
  id
  response := f &&& 0x8000 != 0
  opcode := ((f >>> 11) &&& 0xF).toUInt8
  authoritative := f &&& 0x0400 != 0
  truncated := f &&& 0x0200 != 0
  recursionDesired := f &&& 0x0100 != 0
  recursionAvailable := f &&& 0x0080 != 0
  authenticData := f &&& 0x0020 != 0
  checkingDisabled := f &&& 0x0010 != 0
  rcode := f &&& 0xF

def isUpdate (h : Header) : Bool := h.opcode == 5 && !h.response

def answerSection (h : Header) : Record.UpdateSection :=
  if h.isUpdate then .prerequisite else .none

def authoritySection (h : Header) : Record.UpdateSection :=
  if h.isUpdate then .update else .none

end Header

structure Question where
  name : Name
  qtype : RecordType
  qclass : DnsClass
  deriving DecidableEq

structure Message where
  header : Header
  questions : List Question
  answers : List Record
  authorities : List Record
  additionals : List Record
  deriving DecidableEq

structure Edns where
  udpPayload : UInt16
  extendedRcode : UInt8
  version : UInt8
  dnssecOk : Bool
  options : List (UInt16 × Bytes)

namespace Edns

def default : Edns := ⟨1232, 0, 0, false, []⟩

/-- The TTL and the raw options of an OPT record. -/
def recordParts (rec : Record) : Except ProtoError (UInt32 × Bytes) :=
  if rec.rtype ≠ .OPT then .error (.message "OPT가 아닌 레코드")
  else if rec.name.isRoot = false then .error (.message "OPT owner는 root여야 함")
  else
    match rec.rdata with
    | .unknown _ raw => .ok (rec.ttl, raw)
    | _ => .error (.message "잘못된 OPT RDATA")

/-- The options in order. Each takes four bytes or more, so the length of the
data is enough fuel. -/
def visitOptions : (fuel : ℕ) → Bytes → Except ProtoError (List (UInt16 × Bytes))
  | _, [] => .ok []
  | 0, _ => .ok []
  | fuel + 1, c₀ :: c₁ :: l₀ :: l₁ :: rest => do
    let len := (ofBe16 [l₀, l₁]).toNat
    refuseIf (rest.length < len) "잘린 EDNS option data"
    let options ← visitOptions fuel (rest.drop len)
    return (ofBe16 [c₀, c₁], rest.take len) :: options
  | _ + 1, _ => .error (.message "EDNS 옵션 헤더가 중간에서 끊겼습니다")

/-- Checks an OPT record and takes out the upper part of the response code. -/
def validateRecord (rec : Record) : Except ProtoError UInt8 := do
  let (ttl, raw) ← recordParts rec
  let _ ← visitOptions raw.length raw
  return (ttl >>> 24).toUInt8

def tryFromRecord (rec : Record) : Except ProtoError Edns := do
  let (ttl, raw) ← recordParts rec
  let options ← visitOptions raw.length raw
  return ⟨rec.class', (ttl >>> 24).toUInt8, (ttl >>> 16).toUInt8, ttl &&& 0x8000 != 0, options⟩

/-- The raw options, `size` bytes of which are written already. -/
def rawOptions (size : ℕ) : List (UInt16 × Bytes) → Except ProtoError Bytes
  | [] => .ok []
  | (code, data) :: rest => do
    refuseIf (65535 < data.length) s!"EDNS 옵션 {code.toNat}의 크기가 65,535바이트를 넘었습니다"
    let next := size + 4 + data.length
    refuseIf (65535 < next) "EDNS 옵션 전체 크기가 65,535바이트를 넘었습니다"
    let raw ← rawOptions next rest
    return be16 code ++ be16 (UInt16.ofNat data.length) ++ data ++ raw

def tryToRecord (edns : Edns) : Except ProtoError Record := do
  let raw ← rawOptions 0 edns.options
  let ttl := (edns.extendedRcode.toUInt32 <<< 24) ||| (edns.version.toUInt32 <<< 16) |||
    (if edns.dnssecOk then 0x8000 else 0)
  return ⟨Name.root, .OPT, edns.udpPayload, ttl, .unknown .OPT raw⟩

end Edns

namespace Message

def maxSectionItems : ℕ := 4096

def parseQuestion : ReadM Question := do
  let name ← Name.parse
  let qtype ← Reader.u16
  let qclass ← Reader.u16
  return ⟨name, qtype, qclass⟩

/-- The counted loops of `parse`. -/
def readN {α : Type} (item : ReadM α) : ℕ → ReadM (List α)
  | 0 => return []
  | n + 1 => do
    let first ← item
    let rest ← readN item n
    return first :: rest

/-- Counts that the rest of the message cannot hold. -/
def countsImpossible (qd an ns ar remaining : ℕ) : Bool :=
  maxSectionItems < qd || maxSectionItems < an || maxSectionItems < ns || maxSectionItems < ar ||
    remaining < qd * 5 || remaining < (an + ns + ar) * 11

def isOpt (record : Record) : Bool := record.rtype = .OPT

/-- The response code with the part that the OPT record holds. -/
def withExtendedRcode (header : Header) (additionals : List Record) : Except ProtoError Header :=
  match additionals.filter isOpt with
  | [] => .ok header
  | [opt] => do
    let extended ← Edns.validateRecord opt
    return { header with rcode := header.rcode ||| (extended.toUInt16 <<< 4) }
  | _ => .error (.message "DNS 메시지에는 OPT 레코드를 하나만 넣을 수 있습니다")

def parseBody : ReadM Message := do
  let id ← Reader.u16
  let flags ← Reader.u16
  let qd ← Reader.u16
  let an ← Reader.u16
  let ns ← Reader.u16
  let ar ← Reader.u16
  let header := Header.fromFlags id flags
  let remaining := (← get).remaining
  refuseIf (countsImpossible qd.toNat an.toNat ns.toNat ar.toNat remaining = true)
    "불가능하거나 과도한 DNS section count"
  let questions ← readN parseQuestion qd.toNat
  let answers ← readN (Record.parse header.answerSection) an.toNat
  let authorities ← readN (Record.parse header.authoritySection) ns.toNat
  refuseIf ((answers ++ authorities).any isOpt = true)
    "OPT 레코드는 Additional 섹션에만 올 수 있습니다"
  let additionals ← readN (Record.parse .none) ar.toNat
  refuseIf ((← get).remaining ≠ 0) "DNS 메시지 뒤에 해석되지 않은 바이트가 남음"
  let header ← liftM (withExtendedRcode header additionals)
  return ⟨header, questions, answers, authorities, additionals⟩

def parse (buf : Bytes) : Except ProtoError Message :=
  if maxDnsWireLen < buf.length then
    .error (.message "DNS 메시지가 최대 wire 크기인 65,535바이트를 넘었습니다")
  else parseBody.run' (Reader.new buf)

def stopOnWriterError (w : Writer) : Except ProtoError Writer :=
  match w.error with
  | some error => .error error
  | none => .ok w

def encodeQuestion (q : Question) (w : Writer) : Writer :=
  ((q.name.encode w).pushU16 q.qtype).pushU16 q.qclass

/-- The loops of `encode_checked_into`, which stop at the first error. -/
def encodeEach {α : Type} (item : α → Writer → Writer) : List α → Writer → Except ProtoError Writer
  | [], w => .ok w
  | x :: rest, w => do
    let w ← stopOnWriterError (item x w)
    encodeEach item rest w

variable (m : Message)

def upperRcode : UInt8 := ((m.header.rcode >>> 4) &&& 0xff).toUInt8

/-- The TTL an additional record is written with: that of the OPT record holds the
upper bits of the response code. -/
def additionalTtl (record : Record) : UInt32 :=
  if record.rtype = .OPT then (record.ttl &&& (0x00ffffff : UInt32)) ||| (m.upperRcode.toUInt32 <<< 24)
  else record.ttl

/-- Whether the response code needs an OPT record that the message does not have. -/
def needsSyntheticOpt : Bool := 0x0f < m.header.rcode && (m.additionals.filter isOpt).length == 0

/-- `u16::try_from` with the error of the caller. -/
def tryCount (n : ℕ) (text : String) : Except ProtoError UInt16 :=
  if 65535 < n then .error (.message text) else .ok (UInt16.ofNat n)

/-- TYPE and data have to agree, and SVCB parameters have to be valid. -/
def checkRecord (record : Record) : Except ProtoError Unit :=
  if record.rtype ≠ record.rdata.recordType then
    let rdataType := record.rdata.recordType.toNat
    .error (.message s!"DNS 레코드 TYPE {record.rtype.toNat}와 RDATA TYPE {rdataType}가 일치하지 않습니다")
  else record.rdata.validate

def checkOpt (additionals : List Record) : Except ProtoError Unit :=
  match additionals.find? isOpt with
  | none => .ok ()
  | some opt => do
    refuseIf (opt.name.isRoot = false) "OPT owner는 root여야 함"
    let _ ← Edns.tryFromRecord opt

/-- The checks of `encode_checked_into` before anything is written; the counts of the sections. -/
def checkedCounts : Except ProtoError (UInt16 × UInt16 × UInt16 × UInt16) := do
  refuseIf (0x0f < m.header.opcode) "DNS opcode가 4비트 범위를 넘었습니다"
  refuseIf (0x0fff < m.header.rcode) "DNS 응답 코드가 12비트 범위를 넘었습니다"
  let qd ← tryCount m.questions.length "DNS 질문 수가 65,535개를 넘었습니다"
  let an ← tryCount m.answers.length "DNS 응답 레코드 수가 65,535개를 넘었습니다"
  let ns ← tryCount m.authorities.length "DNS 권한 레코드 수가 65,535개를 넘었습니다"
  refuseIf (1 < (m.additionals.filter isOpt).length)
    "DNS 메시지에는 OPT 레코드를 하나만 넣을 수 있습니다"
  refuseIf ((m.answers ++ m.authorities).any isOpt = true)
    "OPT 레코드는 Additional 섹션에만 올 수 있습니다"
  (m.answers ++ m.authorities ++ m.additionals).forM checkRecord
  checkOpt m.additionals
  let ar ← tryCount (m.additionals.length + m.needsSyntheticOpt.toNat)
    "DNS 부가 레코드 수가 65,535개를 넘었습니다"
  return (qd, an, ns, ar)

def encodeCheckedInto (w : Writer) : Except ProtoError Writer := do
  let (qd, an, ns, ar) ← m.checkedCounts
  let w := (((((w.pushU16 m.header.id).pushU16 m.header.flags).pushU16 qd).pushU16 an).pushU16
    ns).pushU16 ar
  let w ← stopOnWriterError w
  let w ← encodeEach encodeQuestion m.questions w
  let w ← encodeEach Record.encode m.answers w
  let w ← encodeEach Record.encode m.authorities w
  let w ← encodeEach (fun record => record.encodeWithTtl (m.additionalTtl record)) m.additionals w
  if m.needsSyntheticOpt then
    let opt ← Edns.tryToRecord { Edns.default with extendedRcode := m.upperRcode }
    stopOnWriterError (opt.encode w)
  else return w

def tryEncode (hashBuilder : Bytes → UInt64) (m : Message) : Except ProtoError Bytes := do
  let w ← m.encodeCheckedInto (Writer.new hashBuilder)
  w.finish

end Message

end OnetDns.Dns
