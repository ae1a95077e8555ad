import OnetDns.Dns.Name

/-!
# Records and their data

`RData` and `Record` of `onetdns-proto/src/rdata.rs`: reading by type, the checks
on SVCB parameters, and writing. Types the server does not know are kept as raw
bytes, except old ones whose data may hold compressed names.
-/
namespace OnetDns.Dns

abbrev RecordType := UInt16
abbrev DnsClass := UInt16

namespace RecordType

abbrev A : RecordType := 1
abbrev NS : RecordType := 2
abbrev CNAME : RecordType := 5
abbrev SOA : RecordType := 6
abbrev PTR : RecordType := 12
abbrev MX : RecordType := 15
abbrev TXT : RecordType := 16
abbrev AAAA : RecordType := 28
abbrev SRV : RecordType := 33
abbrev NAPTR : RecordType := 35
abbrev DNAME : RecordType := 39
abbrev OPT : RecordType := 41
abbrev SSHFP : RecordType := 44
abbrev TLSA : RecordType := 52
abbrev SVCB : RecordType := 64
abbrev HTTPS : RecordType := 65
abbrev URI : RecordType := 256
abbrev CAA : RecordType := 257

end RecordType

def ProtoError.toString : ProtoError → String
  | .eof => "메시지가 끝난 뒤의 데이터를 읽으려 했습니다"
  | .name text => s!"이름 파싱 오류: {text}"
  | .message text => s!"DNS 메시지 오류: {text}"

/-- An address of `n` bytes. -/
structure Octets (n : ℕ) where
  bytes : Bytes
  length_eq : bytes.length = n
  deriving DecidableEq

abbrev Ipv4Addr := Octets 4
abbrev Ipv6Addr := Octets 16

/-- `bytes(n)`, whose result has `n` bytes. -/
def Reader.octets (n : ℕ) : ReadM (Octets n) := fun r =>
  if r.limit < r.pos + n then .error .eof
  else if h : r.buf.length < r.pos + n then .error .eof
  else .ok (⟨(r.buf.drop r.pos).take n, by simp; omega⟩, { r with pos := r.pos + n })

structure Soa where
  mname : Name
  rname : Name
  serial : UInt32
  refresh : UInt32
  retry : UInt32
  expire : UInt32
  minimum : UInt32
  deriving DecidableEq

structure Naptr where
  order : UInt16
  preference : UInt16
  flags : Bytes
  services : Bytes
  regexp : Bytes
  replacement : Name
  deriving DecidableEq

/-- What SVCB and HTTPS records hold. -/
structure Svcb where
  priority : UInt16
  target : Name
  params : List (UInt16 × Bytes)
  deriving DecidableEq

inductive RData where
  | a (address : Ipv4Addr)
  | aaaa (address : Ipv6Addr)
  | ns (name : Name)
  | cname (name : Name)
  | dname (name : Name)
  | ptr (name : Name)
  | mx (preference : UInt16) (exchange : Name)
  | txt (chunks : List Bytes)
  | soa (soa : Soa)
  | srv (priority weight port : UInt16) (target : Name)
  | caa (flags : UInt8) (tag value : Bytes)
  | tlsa (usage selector matching : UInt8) (data : Bytes)
  | sshfp (algorithm fpType : UInt8) (fingerprint : Bytes)
  | naptr (naptr : Naptr)
  | uri (priority weight : UInt16) (target : Bytes)
  | svcb (svcb : Svcb)
  | https (svcb : Svcb)
  | unknown (rtype : RecordType) (bytes : Bytes)
  deriving DecidableEq

def readCharString : ReadM Bytes := do
  let n ← Reader.u8
  Reader.bytes n.toNat

def writeCharString (w : Writer) (s : Bytes) : Writer :=
  if 255 < s.length then w.fail "DNS 문자 문자열이 255바이트를 넘었습니다"
  else (w.pushU8 (UInt8.ofNat s.length)).pushBytes s

/-- The chunk loop of TXT. Every round moves the cursor, so the length of the
data is enough fuel. -/
def readChunks (stop : ℕ) : (fuel : ℕ) → ReadM (List Bytes)
  | 0 => return []
  | fuel + 1 => do
    if (← get).pos < stop then
      let chunk ← readCharString
      let chunks ← readChunks stop fuel
      return chunk :: chunks
    else return []

def writeChunks (w : Writer) : List Bytes → Writer
  | [] => w
  | chunk :: rest =>
    if 255 < chunk.length then w.fail "TXT 문자열 조각이 255바이트를 넘었습니다"
    else writeChunks ((w.pushU8 (UInt8.ofNat chunk.length)).pushBytes chunk) rest

/-- The keys listed under `mandatory`, in strict order, all of them present. -/
def mandatoryOk (has : UInt16 → Bool) : (previous : Option UInt16) → Bytes → Bool
  | previous, hi :: lo :: rest =>
    let listed := ofBe16 [hi, lo]
    if listed = 0 ∨ previous.any (listed ≤ ·) ∨ has listed = false then false
    else mandatoryOk has (some listed) rest
  | _, _ => true

/-- The length bytes of an `alpn` list add up. -/
def alpnOk : (fuel : ℕ) → Bytes → Bool
  | _, [] => true
  | 0, _ => false
  | fuel + 1, len :: rest =>
    if len = 0 ∨ rest.length < len.toNat then false else alpnOk fuel (rest.drop len.toNat)

/-- One parameter in service mode. -/
def validateSvcbParam (has : UInt16 → Bool) (key : UInt16) (value : Bytes) :
    Except ProtoError Unit :=
  if key = 0 then
    if value = [] ∨ value.length % 2 ≠ 0 then
      .error (.message "SVCB mandatory 값은 비어 있지 않은 u16 key 목록이어야 함")
    else if mandatoryOk has none value then .ok ()
    else .error (.message "SVCB mandatory key 목록이 자기일관적이지 않음")
  else if key = 1 then
    if alpnOk value.length value = false then
      .error (.message "SVCB alpn 값의 길이 표기가 올바르지 않습니다")
    else if value = [] then .error (.message "SVCB alpn 값이 비어 있습니다")
    else .ok ()
  else if key = 2 ∧ (value ≠ [] ∨ has 1 = false) then
    .error (.message "SVCB no-default-alpn 값은 비어 있어야 하며 alpn 항목이 함께 있어야 합니다")
  else if key = 3 ∧ value.length ≠ 2 then
    .error (.message "SVCB port 값은 정확히 2바이트여야 함")
  else if key = 4 ∧ (value = [] ∨ value.length % 4 ≠ 0) then
    .error (.message "SVCB ipv4hint 값의 길이가 올바르지 않습니다")
  else if key = 6 ∧ (value = [] ∨ value.length % 16 ≠ 0) then
    .error (.message "SVCB ipv6hint 값의 길이가 올바르지 않습니다")
  else .ok ()

/-- The keys are in strict order when `has` is used, so the binary search of the
source finds exactly the keys of the list. -/
def validateSvcbParams (priority : UInt16) (params : List (UInt16 × Bytes)) :
    Except ProtoError Unit :=
  if (params.zip params.tail).any fun pair => pair.2.1 ≤ pair.1.1 then
    .error (.message "SVCB parameter key가 엄격한 오름차순이 아닙니다")
  else if params.getLast?.any fun param => param.1 = 65535 then
    .error (.message "SVCB 매개변수 키 65535는 사용할 수 없습니다")
  else if priority = 0 then .ok ()
  else params.forM fun param =>
    validateSvcbParam (fun key => params.any (·.1 = key)) param.1 param.2

def readParams (stop : ℕ) : (fuel : ℕ) → ReadM (List (UInt16 × Bytes))
  | 0 => return []
  | fuel + 1 => do
    if (← get).pos < stop then
      let key ← Reader.u16
      let plen ← Reader.u16
      let value ← Reader.bytes plen.toNat
      let params ← readParams stop fuel
      return (key, value) :: params
    else return []

def writeParams (w : Writer) : List (UInt16 × Bytes) → Writer
  | [] => w
  | (key, value) :: rest =>
    let w := w.pushU16 key
    if 65535 < value.length then w.fail "SVCB 매개변수가 65,535바이트를 넘었습니다"
    else writeParams ((w.pushU16 (UInt16.ofNat value.length)).pushBytes value) rest

namespace RData

def recordType : RData → RecordType
  | .a _ => .A
  | .aaaa _ => .AAAA
  | .ns _ => .NS
  | .cname _ => .CNAME
  | .dname _ => .DNAME
  | .ptr _ => .PTR
  | .mx .. => .MX
  | .txt _ => .TXT
  | .soa _ => .SOA
  | .srv .. => .SRV
  | .caa .. => .CAA
  | .tlsa .. => .TLSA
  | .sshfp .. => .SSHFP
  | .naptr _ => .NAPTR
  | .uri .. => .URI
  | .svcb _ => .SVCB
  | .https _ => .HTTPS
  | .unknown rtype _ => rtype

/-- Old types whose data may hold compressed names. -/
def isUnsupportedNameBearing (rtype : RecordType) : Bool :=
  [3, 4, 7, 8, 9, 14, 17, 18, 21, 23, 26, 30, 36].contains rtype

/-- The check before writing. -/
def validate : RData → Except ProtoError Unit
  | .svcb s | .https s => validateSvcbParams s.priority s.params
  | _ => .ok ()

def parseSoa : ReadM Soa := do
  let mname ← Name.parse
  let rname ← Name.parse
  let serial ← Reader.u32
  let refresh ← Reader.u32
  let retry ← Reader.u32
  let expire ← Reader.u32
  let minimum ← Reader.u32
  return ⟨mname, rname, serial, refresh, retry, expire, minimum⟩

def parseNaptr : ReadM Naptr := do
  let order ← Reader.u16
  let preference ← Reader.u16
  let flags ← readCharString
  let services ← readCharString
  let regexp ← readCharString
  let replacement ← Name.parse
  return ⟨order, preference, flags, services, regexp, replacement⟩

def parseSvcb (rdlen : ℕ) : ReadM Svcb := do
  let stop := (← get).pos + rdlen
  let priority ← Reader.u16
  let target ← Name.parseUncompressed
  let params ← readParams stop rdlen
  liftM (validateSvcbParams priority params)
  return ⟨priority, target, params⟩

/-- `rdlen.checked_sub(used)`, then that many bytes. -/
def parseRest (rdlen used : ℕ) : ReadM Bytes :=
  if rdlen < used then throw .eof else Reader.bytes (rdlen - used)

/-- Reads the data of a record. The caller has set the limit of the cursor to its end. -/
def parse (rtype : RecordType) (rdlen : ℕ) : ReadM RData := do
  if rtype = .A then return .a (← Reader.octets 4)
  else if rtype = .AAAA then return .aaaa (← Reader.octets 16)
  else if rtype = .NS then return .ns (← Name.parse)
  else if rtype = .CNAME then return .cname (← Name.parse)
  else if rtype = .DNAME then return .dname (← Name.parse)
  else if rtype = .PTR then return .ptr (← Name.parse)
  else if rtype = .MX then
    let preference ← Reader.u16
    let exchange ← Name.parse
    return .mx preference exchange
  else if rtype = .TXT then
    let stop := (← get).pos + rdlen
    return .txt (← readChunks stop rdlen)
  else if rtype = .SOA then return .soa (← parseSoa)
  else if rtype = .SRV then
    let priority ← Reader.u16
    let weight ← Reader.u16
    let port ← Reader.u16
    let target ← Name.parse
    return .srv priority weight port target
  else if rtype = .CAA then
    let flags ← Reader.u8
    let tagLen ← Reader.u8
    let tag ← Reader.bytes tagLen.toNat
    let value ← parseRest rdlen (2 + tagLen.toNat)
    return .caa flags tag value
  else if rtype = .TLSA then
    let usage ← Reader.u8
    let selector ← Reader.u8
    let matching ← Reader.u8
    let data ← parseRest rdlen 3
    return .tlsa usage selector matching data
  else if rtype = .SSHFP then
    let algorithm ← Reader.u8
    let fpType ← Reader.u8
    let fingerprint ← parseRest rdlen 2
    return .sshfp algorithm fpType fingerprint
  else if rtype = .NAPTR then return .naptr (← parseNaptr)
  else if rtype = .URI then
    let priority ← Reader.u16
    let weight ← Reader.u16
    let target ← parseRest rdlen 4
    return .uri priority weight target
  else if rtype = .SVCB then return .svcb (← parseSvcb rdlen)
  else if rtype = .HTTPS then return .https (← parseSvcb rdlen)
  else if isUnsupportedNameBearing rtype then
    throw (.message s!"압축 이름을 포함할 수 있는 지원하지 않는 RDATA 유형 {rtype.toNat}")
  else return .unknown rtype (← Reader.bytes rdlen)

def encodeSoa (s : Soa) (w : Writer) : Writer :=
  let w := s.rname.encode (s.mname.encode w)
  ((((w.pushU32 s.serial).pushU32 s.refresh).pushU32 s.retry).pushU32 s.expire).pushU32 s.minimum

def encodeNaptr (n : Naptr) (w : Writer) : Writer :=
  let w := (w.pushU16 n.order).pushU16 n.preference
  let w := writeCharString (writeCharString (writeCharString w n.flags) n.services) n.regexp
  n.replacement.encodeUncompressed w

def encodeSvcb (s : Svcb) (w : Writer) : Writer :=
  match validateSvcbParams s.priority s.params with
  | .error error => w.fail error.toString
  | .ok () => writeParams (s.target.encodeUncompressed (w.pushU16 s.priority)) s.params

def encodeCaa (flags : UInt8) (tag value : Bytes) (w : Writer) : Writer :=
  let w := w.pushU8 flags
  if 255 < tag.length then w.fail "CAA 태그가 255바이트를 넘었습니다"
  else ((w.pushU8 (UInt8.ofNat tag.length)).pushBytes tag).pushBytes value

/-- Writes the data. Only names in the types of RFC 1035 are compressed. -/
def encode (rdata : RData) (w : Writer) : Writer :=
  match rdata with
  | .a ip => w.pushBytes ip.bytes
  | .aaaa ip => w.pushBytes ip.bytes
  | .ns n | .cname n | .ptr n => n.encode w
  | .dname n => n.encodeUncompressed w
  | .mx preference exchange => exchange.encode (w.pushU16 preference)
  | .txt chunks => writeChunks w chunks
  | .soa s => encodeSoa s w
  | .srv priority weight port target =>
    target.encodeUncompressed (((w.pushU16 priority).pushU16 weight).pushU16 port)
  | .caa flags tag value => encodeCaa flags tag value w
  | .tlsa usage selector matching data =>
    (((w.pushU8 usage).pushU8 selector).pushU8 matching).pushBytes data
  | .sshfp algorithm fpType fingerprint =>
    ((w.pushU8 algorithm).pushU8 fpType).pushBytes fingerprint
  | .naptr n => encodeNaptr n w
  | .uri priority weight target => ((w.pushU16 priority).pushU16 weight).pushBytes target
  | .svcb s | .https s => encodeSvcb s w
  | .unknown _ bytes => w.pushBytes bytes

end RData

structure Record where
  name : Name
  rtype : RecordType
  class' : DnsClass
  ttl : UInt32
  rdata : RData
  deriving DecidableEq

namespace Record

/-- The section of an UPDATE message a record stands in. -/
inductive UpdateSection where
  | none
  | prerequisite
  | update

/-- The classes whose records may have no data there. -/
def UpdateSection.emptyClasses : UpdateSection → List DnsClass
  | .none => []
  | .prerequisite => [254, 255]
  | .update => [255]

/-- The data of a record. The limit of the cursor is the declared end while it is
read, and the cursor has to stop exactly there. -/
def parseData (updateSection : UpdateSection) (rtype : RecordType) (class' : DnsClass)
    (rdlen : ℕ) : ReadM RData := fun r =>
  let stop := r.pos + rdlen
  let data : ReadM RData :=
    if rdlen = 0 ∧ class' ∈ updateSection.emptyClasses then pure (.unknown rtype [])
    else RData.parse rtype rdlen
  if r.limit < stop then .error .eof
  else
    match data { r with limit := stop } with
    | .error error => .error error
    | .ok (rdata, r') =>
      if r'.pos ≠ stop then .error (.name "RDATA 길이가 일치하지 않습니다")
      else .ok (rdata, { r' with limit := r.limit })

/-- `parse_inner`. -/
def parse (updateSection : UpdateSection) : ReadM Record := do
  let name ← Name.parse
  let rtype ← Reader.u16
  let class' ← Reader.u16
  let ttl ← Reader.u32
  let rdlen ← Reader.u16
  let rdata ← parseData updateSection rtype class' rdlen.toNat
  return ⟨name, rtype, class', ttl, rdata⟩

/-- The part of a record in front of its data, with a placeholder for the length. -/
def encodeHead (record : Record) (ttl : UInt32) (w : Writer) : ℕ × Writer :=
  ((((record.name.encode w).pushU16 record.rtype).pushU16 record.class').pushU32 ttl).placeholderU16

def encodeWithTtl (record : Record) (ttl : UInt32) (w : Writer) : Writer :=
  let (at', w) := record.encodeHead ttl w
  (record.rdata.encode w).backpatchLen at'

def encode (record : Record) (w : Writer) : Writer := record.encodeWithTtl record.ttl w

end Record

end OnetDns.Dns
