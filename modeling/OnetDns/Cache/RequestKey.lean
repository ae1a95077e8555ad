import OnetDns.Dns.Message

/-!
# Keys of cached requests

`NormalizedRequestKey::from_request` of `onetdns-bin/src/cache.rs` builds the key
of a parsed request; `scan_query` of `onetdns-bin/src/wirecache.rs` builds it from
the packet without parsing it. Both leave out what does not change the answer: the
identifier, the case of the name and padding.
-/
namespace OnetDns.Cache
open Dns

def ednsPadding : UInt16 := 12

/-- The flags that the answer depends on. -/
def semanticFlags (rd ad cd : Bool) : UInt16 :=
  (rd.toUInt16 <<< 8) ||| (ad.toUInt16 <<< 5) ||| (cd.toUInt16 <<< 4)

def maxCachedRequestWire : ℕ := 4096

/-- The first loop over the raw options: how many of them matter, and their size. The length of
the data is enough fuel. -/
def countOptions : (fuel : ℕ) → Bytes → (count : UInt16) → (size : ℕ) → Option (UInt16 × ℕ)
  | _, [], count, size => some (count, size)
  | 0, _, _, _ => none
  | fuel + 1, c₀ :: c₁ :: l₀ :: l₁ :: rest, count, size =>
    let len := (ofBe16 [l₀, l₁]).toNat
    if rest.length < len then none
    else if ofBe16 [c₀, c₁] = ednsPadding then countOptions fuel (rest.drop len) count size
    else if count = 65535 then none
    else countOptions fuel (rest.drop len) (count + 1) (size + (4 + len))
  | _ + 1, _, _, _ => none

/-- The second loop, which copies the options that matter. -/
def copyOptions : (fuel : ℕ) → Bytes → Bytes
  | fuel + 1, c₀ :: c₁ :: l₀ :: l₁ :: rest =>
    let len := (ofBe16 [l₀, l₁]).toNat
    if ofBe16 [c₀, c₁] = ednsPadding then copyOptions fuel (rest.drop len)
    else be16 (ofBe16 [c₀, c₁]) ++ be16 (UInt16.ofNat len) ++ rest.take len ++
      copyOptions fuel (rest.drop len)
  | _, _ => []

/-- What the key takes from the OPT record. -/
structure KeyEdns where
  raw : Bytes
  udpPayload : UInt16
  version : UInt8
  dnssecOk : Bool
  optionCount : UInt16
  semanticOptionBytes : ℕ

namespace KeyEdns

def ofRecord (record : Record) : Option KeyEdns :=
  if record.name.isRoot = false then none
  else
    match record.rdata with
    | .unknown _ raw => do
      let (count, size) ← countOptions raw.length raw 0 0
      return ⟨raw, record.class', ((record.ttl >>> 16) &&& 0xff).toUInt8,
        record.ttl &&& 0x8000 != 0, count, size⟩
    | _ => none

def bytes (edns : KeyEdns) : Bytes :=
  be16 edns.udpPayload ++ [edns.version] ++ [edns.dnssecOk.toUInt8] ++ be16 edns.optionCount ++
    copyOptions edns.raw.length edns.raw

end KeyEdns

/-- Requests that are never answered from the cache. -/
def refused (request : Message) : Bool :=
  request.header.response || request.header.opcode != 0 || request.header.authoritative ||
    request.header.truncated || request.header.recursionAvailable || request.header.rcode != 0 ||
    request.questions.length != 1 || !request.answers.isEmpty || !request.authorities.isEmpty ||
    1 < request.additionals.length ||
    request.additionals.any fun record => record.rtype != .OPT

def keyBytes (header : Header) (question : Question) (name : Bytes) (edns : Option KeyEdns) :
    Bytes :=
  [1] ++ be16 (semanticFlags header.recursionDesired header.authenticData header.checkingDisabled)
    ++ name ++ be16 question.qtype ++ be16 question.qclass ++ [edns.isSome.toUInt8] ++
    (edns.map KeyEdns.bytes).getD []

def fromRequest (request : Message) : Option Bytes :=
  if refused request then none
  else do
    let question ← request.questions.head?
    let name ← question.name.canonicalKeyInto 255
    let edns ← request.additionals.head?.mapM KeyEdns.ofRecord
    let keyLen := 1 + 2 + name.length + 4 + 1 +
      (edns.map fun edns => 6 + edns.semanticOptionBytes).getD 0
    if maxCachedRequestWire < keyLen then none
    else return keyBytes request.header question name edns

/-- The room for a key on the fast path. -/
def inlineKeyCapacity : ℕ := 64

structure ScannedEdns where
  udpPayload : UInt16
  dnssecOk : Bool
  hasOptions : Bool
  deriving DecidableEq

structure ScannedQuery where
  id : UInt8 × UInt8
  qname : Bytes
  qtype : UInt16
  edns : Option ScannedEdns
  key : Bytes
  deriving DecidableEq

/-- `if condition { return None }`. -/
def rejectIf (condition : Prop) [Decidable condition] : Option Unit :=
  if condition then none else some ()

variable (packet : Bytes)

def u16At (pos : ℕ) : Option UInt16 := do
  let hi ← packet[pos]?
  let lo ← packet[pos + 1]?
  return ofBe16 [hi, lo]

/-- `packet.get(start..stop)`. -/
def slice (start stop : ℕ) : Option Bytes :=
  if start ≤ stop ∧ stop ≤ packet.length then some ((packet.drop start).take (stop - start))
  else none

/-- The label loop: the name goes into the key in lower case, with room kept for what follows.
Every round adds a byte or more, so the capacity of the key is enough fuel. -/
def scanName (packet : Bytes) (nameStart suffixLen : ℕ) :
    (fuel pos : ℕ) → (key : Bytes) → Option (ℕ × Bytes)
  | 0, _, _ => none
  | fuel + 1, pos, key => do
    let len ← packet[pos]?
    if len = 0 then
      rejectIf (inlineKeyCapacity < key.length + 1 + suffixLen)
      return (pos + 1, key ++ [0])
    else
      rejectIf (len &&& 0xC0 ≠ 0)
      let label ← slice packet (pos + 1) (pos + 1 + len.toNat)
      rejectIf (255 < key.length - nameStart + len.toNat + 2)
      rejectIf (inlineKeyCapacity < key.length + 1 + len.toNat + 1 + suffixLen)
      scanName packet nameStart suffixLen fuel (pos + 1 + len.toNat)
        (key ++ len :: label.map asciiLower)

/-- The option loop: only padding is let through. -/
def scanOptions : (fuel : ℕ) → Bytes → (hasOptions : Bool) → Option Bool
  | _, [], hasOptions => some hasOptions
  | 0, _, _ => none
  | fuel + 1, c₀ :: c₁ :: l₀ :: l₁ :: rest, _ =>
    let len := (ofBe16 [l₀, l₁]).toNat
    if rest.length < len then none
    else if ofBe16 [c₀, c₁] ≠ ednsPadding then none
    else scanOptions fuel (rest.drop len) true
  | _ + 1, _, _ => none

/-- The OPT record at `pos`, and where it ends. -/
def scanOpt (pos : ℕ) : Option (ScannedEdns × ℕ) := do
  let owner ← packet[pos]?
  rejectIf (owner ≠ 0)
  let rtype ← u16At packet (pos + 1)
  rejectIf (rtype ≠ RecordType.OPT)
  let udpPayload ← u16At packet (pos + 3)
  let ext ← slice packet (pos + 5) (pos + 9)
  rejectIf (ext[1]? ≠ some 0)
  let flags ← ext[2]?
  let rdlen ← u16At packet (pos + 9)
  let rdata ← slice packet (pos + 11) (pos + 11 + rdlen.toNat)
  let hasOptions ← scanOptions rdata.length rdata false
  return (⟨udpPayload, flags &&& 0x80 != 0, hasOptions⟩, pos + 11 + rdlen.toNat)

def scanAdditional (arcount : UInt16) (pos : ℕ) :
    Option (Option ScannedEdns × ℕ) :=
  if arcount = 1 then (scanOpt packet pos).map fun (edns, stop) => (some edns, stop)
  else some (none, pos)

/-- Types that the fast path leaves to the structured one. -/
def specialTypes : List UInt16 := [0, 41, 250, 251, 252, 253, 254, 255]

/-- The end of the key, with no options in it. -/
def scannedEdnsBytes : Option ScannedEdns → Bytes
  | some edns => [1] ++ be16 edns.udpPayload ++ [0] ++ [edns.dnssecOk.toUInt8] ++ be16 0
  | none => [0]

/-- What follows the header. -/
def scanBody (flags2 flags3 : UInt8) (arcount : UInt16) : Option ScannedQuery := do
  let flags := semanticFlags (flags2 &&& 0x01 != 0) (flags3 &&& 0x20 != 0) (flags3 &&& 0x10 != 0)
  let key := [1] ++ be16 flags
  let suffixLen := if arcount = 1 then 11 else 5
  let (pos, key) ← scanName packet key.length suffixLen inlineKeyCapacity 12 key
  let qtype ← u16At packet pos
  let qclass ← u16At packet (pos + 2)
  rejectIf (qclass ≠ 1 ∨ qtype ∈ specialTypes)
  let (edns, stop) ← scanAdditional packet arcount (pos + 4)
  rejectIf (stop ≠ packet.length)
  let id ← packet[0]?
  let id' ← packet[1]?
  return {
    id := (id, id')
    qname := (packet.drop 12).take (pos - 12)
    qtype
    edns
    key := key ++ be16 qtype ++ be16 qclass ++ scannedEdnsBytes edns }

def scanQuery : Option ScannedQuery := do
  rejectIf (packet.length < 12 + 1 + 4)
  let flags2 : UInt8 ← packet[2]?
  let flags3 : UInt8 ← packet[3]?
  rejectIf (flags2 &&& 0x80 ≠ 0 ∨ (flags2 >>> 3) &&& 0x0F ≠ 0 ∨ flags2 &&& 0x06 ≠ 0)
  rejectIf (flags3 &&& 0x0F ≠ 0 ∨ flags3 &&& 0x40 ≠ 0)
  let qdcount ← u16At packet 4
  let ancount ← u16At packet 6
  let nscount ← u16At packet 8
  let arcount ← u16At packet 10
  rejectIf (qdcount ≠ 1 ∨ ancount ≠ 0 ∨ nscount ≠ 0 ∨ 1 < arcount)
  scanBody packet flags2 flags3 arcount

end OnetDns.Cache
