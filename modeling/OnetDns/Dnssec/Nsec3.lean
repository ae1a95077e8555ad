import OnetDns.Dnssec.Nsec

/-!
# Denial of existence with NSEC3

The checks of `onetdns-dnssec/src/lib.rs` over hashed names. A set of records is parsed
once and must agree on zone, salt and iterations; every hash is charged to a budget, and
a check whose budget runs out fails. SHA-1 is a parameter.
-/
namespace OnetDns.Dnssec
open Dns

def maxNsec3Iterations : ℕ := 150
def maxNsec3HashRounds : ℕ := 8192

/-- `Nsec3Ref`: the fields of a record, with the bitmap as it is. -/
structure Nsec3Ref where
  hashAlg : UInt8
  flags : UInt8
  iterations : UInt16
  salt : Bytes
  nextHashed : Bytes
  typeBitmap : Bytes

namespace Nsec3Ref

/-- The fields before the bitmap. -/
def readHead : ReadM (UInt8 × UInt8 × UInt16 × Bytes × Bytes) := do
  let hashAlg ← Reader.u8
  let flags ← Reader.u8
  let iterations ← Reader.u16
  let saltLen ← Reader.u8
  let salt ← Reader.bytes saltLen.toNat
  let hashLen ← Reader.u8
  let nextHashed ← Reader.bytes hashLen.toNat
  return (hashAlg, flags, iterations, salt, nextHashed)

def parse (raw : Bytes) : Option Nsec3Ref :=
  match readHead (Reader.new raw) with
  | .error _ => none
  | .ok ((hashAlg, flags, iterations, salt, nextHashed), r) =>
    if raw.length < r.pos then none
    else if typeBitmapsValid (raw.drop r.pos) then
      some ⟨hashAlg, flags, iterations, salt, nextHashed, raw.drop r.pos⟩
    else none

def fromRecord (record : Record) : Option Nsec3Ref :=
  match record.rdata with
  | .unknown _ raw => parse raw
  | _ => none

def hasType (parsed : Nsec3Ref) (t : RecordType) : Bool := typeBitmapHas parsed.typeBitmap t

/-- The interval of the record may hold delegations without a record of their own. -/
def optOut (parsed : Nsec3Ref) : Bool := parsed.flags &&& 1 != 0

end Nsec3Ref

def base32hexValue (c : UInt8) : Option UInt8 :=
  if 48 ≤ c ∧ c ≤ 57 then some (c - 48)
  else if 97 ≤ c ∧ c ≤ 118 then some (c - 97 + 10)
  else if 65 ≤ c ∧ c ≤ 86 then some (c - 65 + 10)
  else none

/-- The loop of `nsec3_owner_hash_fixed`, with the bits that are left over. -/
def decodeOwner : Bytes → (acc nbits : ℕ) → (owner : Bytes) → Option (Bytes × ℕ)
  | [], _, nbits, owner => some (owner, nbits)
  | c :: rest, acc, nbits, owner =>
    match base32hexValue c with
    | none => none
    | some v =>
      let acc := (acc * 32 + v.toNat) % 2 ^ 32
      if 8 ≤ nbits + 5 then
        decodeOwner rest acc (nbits + 5 - 8)
          (owner ++ [UInt8.ofNat (acc / 2 ^ (nbits + 5 - 8) % 256)])
      else decodeOwner rest acc (nbits + 5) owner

/-- `nsec3_owner_hash_fixed`: the hash in the first label. -/
def nsec3OwnerHashFixed (record : Record) : Option Bytes :=
  match record.name.labels with
  | [] => none
  | label :: _ =>
    if label.length ≠ 32 then none
    else
      match decodeOwner label 0 0 [] with
      | none => none
      | some (owner, nbits) => if owner.length = 20 ∧ nbits = 0 then some owner else none

def hashCovers (owner next q : Bytes) : Bool :=
  if owner < next then decide (owner < q) && decide (q < next)
  else decide (owner < q) || decide (q < next)

def nsec3Hash (sha1 : Bytes → Bytes) (name : Name) (salt : Bytes) (iterations : UInt16) : Bytes :=
  (fun hash => sha1 (hash ++ salt))^[iterations.toNat] (sha1 (name.canonicalKey ++ salt))

structure ValidatedNsec3Record where
  source : Record
  parsed : Nsec3Ref
  owner : Bytes

/-- `ValidatedNsec3Set`, which is never empty. -/
structure ValidatedNsec3Set where
  first : ValidatedNsec3Record
  rest : List ValidatedNsec3Record

namespace ValidatedNsec3Set

def records (set : ValidatedNsec3Set) : List ValidatedNsec3Record := set.first :: set.rest

/-- What all records of a set must share: iterations, salt and zone. -/
abbrev Expected := UInt16 × Bytes × Name

/-- What `new` asks of a single record. -/
def formOk (record : Record) (parsed : Nsec3Ref) : Bool :=
  parsed.hashAlg == 1 && parsed.flags &&& ~~~1 == 0 &&
    parsed.iterations.toNat ≤ maxNsec3Iterations && parsed.nextHashed.length == 20 &&
    record.name.numLabels != 0

/-- Whether a record fits to those before it; the first one says what to expect. -/
def agree (qname : Name) (record : Record) (parsed : Nsec3Ref) : Option Expected → Option Expected
  | some (iterations, salt, zone) =>
    if iterations = parsed.iterations ∧ salt = parsed.salt ∧
        record.name.numLabels = zone.numLabels + 1 ∧ record.name.endsWithIgnoreCase zone then
      some (iterations, salt, zone)
    else none
  | none =>
    let zone := record.name.suffix (record.name.numLabels - 1)
    if qname.endsWithIgnoreCase zone then some (parsed.iterations, parsed.salt, zone) else none

/-- The loop of `new`. -/
def prepare (qname : Name) : List Record → Option Expected → Option (List ValidatedNsec3Record)
  | [], _ => some []
  | record :: rest, expected =>
    if record.rtype ≠ .NSEC3 then prepare qname rest expected
    else do
      let parsed ← Nsec3Ref.fromRecord record
      let owner ← nsec3OwnerHashFixed record
      if formOk record parsed then
        let expected ← agree qname record parsed expected
        let prepared ← prepare qname rest (some expected)
        return ⟨record, parsed, owner⟩ :: prepared
      else none

def new (records : List Record) (qname : Name) : Option ValidatedNsec3Set :=
  match prepare qname records none with
  | some (first :: rest) => some ⟨first, rest⟩
  | _ => none

variable (sha1 : Bytes → Bytes) (set : ValidatedNsec3Set)

variable (name : Name)

def nameHash : Bytes := nsec3Hash sha1 name set.first.parsed.salt set.first.parsed.iterations

/-- `query_hash`, followed by a search with the hash. `used` is the budget spent. -/
def hashed {α : Type} (name : Name) (search : Bytes → Option α) (used : ℕ) : Option α × ℕ :=
  let rounds := set.first.parsed.iterations.toNat + 1
  if maxNsec3HashRounds < used + rounds then (none, used)
  else (search (set.nameHash sha1 name), used + rounds)

def sourceOf (found : Option ValidatedNsec3Record) : Option Record :=
  found.map ValidatedNsec3Record.source

def ValidatedNsec3Record.covers (record : ValidatedNsec3Record) (hash : Bytes) : Bool :=
  hashCovers record.owner record.parsed.nextHashed hash

def recordLackingType (qtype : RecordType) : ℕ → Option Record × ℕ :=
  set.hashed sha1 name fun hash =>
    sourceOf (set.records.find? fun record =>
      record.owner == hash && !record.parsed.hasType qtype && !record.parsed.hasType .CNAME)

def matchingRecord : ℕ → Option Record × ℕ :=
  set.hashed sha1 name fun hash => sourceOf (set.records.find? fun record => record.owner == hash)

def coveringRecord : ℕ → Option Record × ℕ :=
  set.hashed sha1 name fun hash =>
    sourceOf (set.records.find? fun record =>
      ValidatedNsec3Record.covers record hash)

/-- `covering_record_with_opt_out_status`: the first record that covers the name, and
whether all that do have opt-out. -/
def coveringRecordWithOptOutStatus : ℕ → Option (Record × Bool) × ℕ :=
  set.hashed sha1 name fun hash =>
    let covering := set.records.filter (ValidatedNsec3Record.covers · hash)
    covering.head?.map fun record => (record.source, covering.all (·.parsed.optOut))

/-- The loop of `covering_record_unless_matched`. -/
def unlessMatched (hash : Bytes) : List ValidatedNsec3Record → Option Record → Option Record
  | [], covering => covering
  | record :: rest, covering =>
    if record.owner = hash then none
    else if covering.isNone && ValidatedNsec3Record.covers record hash then
      unlessMatched hash rest (some record.source)
    else unlessMatched hash rest covering

def coveringRecordUnlessMatched : ℕ → Option Record × ℕ :=
  set.hashed sha1 name fun hash => unlessMatched hash set.records none

/-- The loop of `closest_encloser_record`, down from the longest name above `qname`. -/
def closestEncloserFrom (qname : Name) : (labels : ℕ) → ℕ → Option (Name × Record) × ℕ
  | 0, used => (none, used)
  | labels + 1, used =>
    match set.matchingRecord sha1 (qname.suffix labels) used with
    | (some record, used) => (some (qname.suffix labels, record), used)
    | (none, used) => closestEncloserFrom qname labels used

def closestEncloserRecord (qname : Name) (used : ℕ) : Option (Name × Record) × ℕ :=
  set.closestEncloserFrom sha1 qname qname.numLabels used

end ValidatedNsec3Set

section Checks

variable (sha1 : Bytes → Bytes)

/-- `nsec3_nodata_selection`: the one record, or the three, that the proof needs. -/
def nsec3NodataSelection (prepared : ValidatedNsec3Set) (qname : Name) (qtype : RecordType)
    (used : ℕ) : Option (List Record) :=
  match prepared.recordLackingType sha1 qname qtype used with
  | (some exact, _) => some [exact]
  | (none, used) =>
    match prepared.closestEncloserRecord sha1 qname used with
    | (none, _) => none
    | (some (ce, ceRecord), used) =>
      match prepared.coveringRecord sha1 (qname.suffix (ce.numLabels + 1)) used with
      | (none, _) => none
      | (some nextRecord, used) =>
        match wildcardName ce with
        | none => none
        | some wildcard =>
          match prepared.recordLackingType sha1 wildcard qtype used with
          | (none, _) => none
          | (some wildcardRecord, _) => some [ceRecord, nextRecord, wildcardRecord]

def proveNodataNsec3 (records : List Record) (qname : Name) (qtype : RecordType) : Bool :=
  match ValidatedNsec3Set.new records qname with
  | none => false
  | some prepared => (nsec3NodataSelection sha1 prepared qname qtype 0).isSome

/-- `nsec3_name_nonexistent_selection`: the three records, and whether the denial of the
next closer name relies on opt-out. -/
def nsec3NameNonexistentSelection (prepared : ValidatedNsec3Set) (qname : Name) (used : ℕ) :
    Option (List Record × Bool) :=
  match prepared.closestEncloserRecord sha1 qname used with
  | (none, _) => none
  | (some (ce, ceRecord), used) =>
    match prepared.coveringRecordWithOptOutStatus sha1 (qname.suffix (ce.numLabels + 1)) used with
    | (none, _) => none
    | (some (nextRecord, reliesOnOptOut), used) =>
      match wildcardName ce with
      | none => none
      | some wildcard =>
        match prepared.coveringRecordUnlessMatched sha1 wildcard used with
        | (none, _) => none
        | (some wildcardRecord, _) => some ([ceRecord, nextRecord, wildcardRecord], reliesOnOptOut)

def nsec3NameNonexistentProofStatus (records : List Record) (qname : Name) :
    Option (List Record × Bool) :=
  match ValidatedNsec3Set.new records qname with
  | none => none
  | some prepared =>
    (nsec3NameNonexistentSelection sha1 prepared qname 0).map fun (records, reliesOnOptOut) =>
      (uniqueRecords records, reliesOnOptOut)

inductive DsAbsence where
  | insecureDelegation
  | notACut
  | unproven
  deriving DecidableEq

/-- What a bitmap says about a name without DS. -/
def DsAbsence.ofBitmap (ns ds soa : Bool) : DsAbsence :=
  if ds || soa then .unproven else if ns then .insecureDelegation else .notACut

variable (verify : Record → Bool)

/-- `denial_proof_valid`. `verify` tells whether the signatures of a single record hold;
no record is asked about twice, so it also stands for the budget of verifications. -/
def denialProofValid (proof : List Record) (rtype : RecordType) : Bool :=
  !proof.isEmpty && proof.all fun record => record.rtype == rtype && verify record

/-- The part of `classify_ds_absence` that looks at NSEC records. -/
def classifyNsec (nsec : List Record) (child : Name) : Option DsAbsence :=
  match nsec.find? fun record =>
      record.rtype == .NSEC && record.name.eqIgnoreCase child with
  | some record =>
    match Nsec.fromRecord record with
    | some parsed =>
      if denialProofValid verify [record] .NSEC then
        some (.ofBitmap (parsed.hasType .NS) (parsed.hasType .DS) (parsed.hasType .SOA))
      else none
    | none => none
  | none =>
    match nsecCoveringRecord nsec child with
    | some record =>
      if denialProofValid verify [record] .NSEC then some .notACut else none
    | none => none

/-- The part of `classify_ds_absence` that looks at NSEC3 records. -/
def classifyNsec3 (nsec3 : List Record) (child : Name) : DsAbsence :=
  match ValidatedNsec3Set.new nsec3 child with
  | none => .unproven
  | some prepared =>
    match prepared.matchingRecord sha1 child 0 with
    | (some record, _) =>
      match Nsec3Ref.fromRecord record with
      | none => .unproven
      | some parsed =>
        if denialProofValid verify [record] .NSEC3 then
          .ofBitmap (parsed.hasType .NS) (parsed.hasType .DS) (parsed.hasType .SOA)
        else .unproven
    | (none, used) =>
      match prepared.closestEncloserRecord sha1 child used with
      | (none, _) => .unproven
      | (some (encloser, encloserRecord), used) =>
        match prepared.coveringRecordWithOptOutStatus sha1
            (child.suffix (encloser.numLabels + 1)) used with
        | (none, _) => .unproven
        | (some (covering, optOut), _) =>
          if !denialProofValid verify (uniqueRecords [encloserRecord, covering])
              .NSEC3 then .unproven
          else if optOut then .insecureDelegation else .notACut

def classifyDsAbsence (nsec nsec3 : List Record) (child : Name) :
    DsAbsence :=
  (classifyNsec verify nsec child).getD (classifyNsec3 sha1 verify nsec3 child)

end Checks

end OnetDns.Dnssec
