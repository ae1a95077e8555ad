import OnetDns.Dnssec.Nsec
import OnetDns.Lib.OrderedMap

/-!
# Zones of the authority

`Zone` of `onetdns-authority/src/lib.rs`: how a list of records is loaded. The source packs
the records into arenas and finds those of an owner through a hash index; here an index is
the list of its entries, and a stored record carries what it points to.
-/
namespace OnetDns.Dns

namespace Name

/-- The loop of `from_uncompressed_wire`. -/
def wireLabels : (fuel : ℕ) → Bytes → Option (List Bytes)
  | 0, _ | _ + 1, [] => none
  | fuel + 1, len :: rest =>
    if len = 0 then if rest = [] then some [] else none
    else if len &&& 0xC0 ≠ 0 ∨ rest.length < len.toNat then none
    else (wireLabels fuel (rest.drop len.toNat)).map (rest.take len.toNat :: ·)

def fromUncompressedWire (bytes : Bytes) : Option Name :=
  if maxNameLen < bytes.length then none
  else (wireLabels bytes.length bytes).bind fun labels => (fromLabels labels).toOption

end Name

def maxTtl : UInt32 := 0x7FFFFFFF

def ttlFieldIsNotALifetime (rtype : RecordType) : Bool := [41, 249, 250].contains rtype

/-- `rrset_key`: signatures of different types are different sets. -/
def rrsetKey (record : Record) : Bytes × RecordType × DnsClass × UInt16 :=
  let covered : UInt16 :=
    if record.rtype = .RRSIG then
      match record.rdata with
      | .unknown _ (hi :: lo :: _) => ofBe16 [hi, lo]
      | _ => 0
    else 0
  (record.name.canonicalKey, record.rtype, record.class', covered)

def lowestTtl (records : List Record) (record : Record) : UInt32 :=
  (records.filter fun other => !ttlFieldIsNotALifetime other.rtype &&
    rrsetKey other == rrsetKey record).foldl (fun ttl other => min ttl other.ttl) record.ttl

/-- `normalize_ttls`: no lifetime is above the bound, and those of a set are the same. -/
def normalizeTtls (records : List Record) : List Record :=
  let capped := records.map fun record =>
    if !ttlFieldIsNotALifetime record.rtype && maxTtl < record.ttl then { record with ttl := 0 }
    else record
  capped.map fun record =>
    if ttlFieldIsNotALifetime record.rtype then record
    else { record with ttl := lowestTtl capped record }

end OnetDns.Dns

namespace OnetDns.Authority
open Dns Dnssec

def maxZoneRecords : ℕ := 1000000
def maxOwnerRecords : ℕ := 4096

def nameExists : UInt8 := 1
def nameHasWildcard : UInt8 := 2
def nameHasDname : UInt8 := 4

/-- `parent_canonical_key`: the key without its first label. -/
def parentCanonicalKey : Bytes → Option Bytes
  | [] => none
  | len :: rest => if len = 0 ∨ rest.length < len.toNat then none else some (rest.drop len.toNat)

def isSubdomainOrEq (name zone : Name) : Bool := name.endsWithIgnoreCase zone

/-- `dnssec_name_cmp`: the labels from the right, in lower case. -/
def dnssecNameCmp (left right : Name) : Ordering := canonicalNameCmp left right

def storedTtlMax : UInt32 := 0x3FFFFFFF

/-- `StoredRecord`: addresses are packed without their owner, the rest is kept whole in an
arena, at the place `payload`. -/
inductive StoredRecord where
  | a (ttl : UInt32) (address : Ipv4Addr)
  | aaaa (ttl : UInt32) (address : Ipv6Addr)
  | other (payload : ℕ) (record : Record)

namespace StoredRecord

/-- `from_record`, with the number of records that are in the arena. -/
def fromRecord (others : ℕ) (record : Record) : StoredRecord :=
  match record.rdata with
  | .a address => .a (min record.ttl storedTtlMax) address
  | .aaaa address => .aaaa (min record.ttl storedTtlMax) address
  | _ => .other others record

def rtype : StoredRecord → RecordType
  | .a _ _ => .A
  | .aaaa _ _ => .AAAA
  | .other _ record => record.rtype

/-- `full`: the record as it was loaded, if it is not packed. -/
def full : StoredRecord → Option Record
  | .other _ record => some record
  | _ => none

/-- `materialize`: a packed record gets the owner, any other keeps its own. -/
def materialize (owner : Name) : StoredRecord → Record
  | .a ttl address => .new owner ttl (.a address)
  | .aaaa ttl address => .new owner ttl (.aaaa address)
  | .other _ record => record

end StoredRecord

/-- `stored_rrset`: the run of one type in records that stand in the order of types. -/
def storedRrset (records : List StoredRecord) (rtype : RecordType) : List StoredRecord :=
  match records with
  | [] => []
  | first :: rest =>
    if first.rtype = rtype ∧ (rest = [] ∨ ((first :: rest).getLast?.map (·.rtype)) = some rtype)
    then first :: rest
    else ((first :: rest).dropWhile fun r => r.rtype < rtype).takeWhile fun r => r.rtype = rtype

inductive LoadError where
  | tooManyRecords
  | tooManyOwnerRecords
  | outOfZone
  | noApexNs
  | notClassIn
  | cnameTargets (owner : Name)
  | cnameWithData (owner : Name)
  | manyDnames (owner : Name)
  | dnameWithNs (owner : Name)
  | nsec3Data (owner : Name)
  | nsec3Algorithm (algorithm : UInt8) (owner : Name)
  | nsec3Flags (owner : Name)
  | nsec3Iterations (owner : Name)
  | nsec3Owner (owner : Name)
  | nsec3Parameters
  | belowDname (owner : Name)
  | cnameLoop (key : Bytes)
  | wildcardWithoutParent
  deriving DecidableEq

def failIf (condition : Bool) (error : LoadError) : Except LoadError Unit :=
  if condition then .error error else .ok ()

/-- The records of each owner, by its key. -/
abbrev OwnerIndex (α : Type) := List (Bytes × List α)

variable (records : List Record)

def hasType (rtype : RecordType) : Bool := records.any fun record => record.rtype = rtype

/-- `valid_type_bitmaps`: windows ascend, and no block ends with an empty octet. -/
def validTypeBitmaps : (fuel : ℕ) → Bytes → (previous : Option UInt8) → Bool
  | _, [], _ => true
  | 0, _ :: _, _ | _ + 1, [_], _ => false
  | fuel + 1, window :: len :: rest, previous =>
    if len.toNat < 1 ∨ 32 < len.toNat ∨ rest.length < len.toNat ∨
        previous.any (fun p => window ≤ p) = true ∨ (rest.take len.toNat).getLast? = some 0 then
      false
    else validTypeBitmaps fuel (rest.drop len.toNat) (some window)

structure Nsec3Metadata where
  hashAlgorithm : UInt8
  flags : UInt8
  iterations : UInt16
  salt : Bytes

def parseNsec3Metadata (record : Record) : Except LoadError Nsec3Metadata :=
  match record.rdata with
  | .unknown 50 (algorithm :: flags :: hi :: lo :: saltLen :: rest) =>
    match rest.drop saltLen.toNat with
    | [] => .error (.nsec3Data record.name)
    | hashLen :: tail =>
      if hashLen ≠ 20 ∨ tail.length < 20 ∨
          validTypeBitmaps tail.length (tail.drop 20) none = false then
        .error (.nsec3Data record.name)
      else .ok ⟨algorithm, flags, ofBe16 [hi, lo], rest.take saltLen.toNat⟩
  | _ => .error (.nsec3Data record.name)

def isSha1Nsec3Owner (label : Bytes) : Bool :=
  label.length = 32 && label.all fun b =>
    (48 ≤ b && b ≤ 57) || (97 ≤ asciiLower b && asciiLower b ≤ 118)

variable (origin : Name)

/-- The check of one NSEC3 record against the parameters of those before it. -/
def checkNsec3 (expected : Option (UInt8 × UInt16 × Bytes)) (record : Record) :
    Except LoadError (Option (UInt8 × UInt16 × Bytes)) := do
  let metadata ← parseNsec3Metadata record
  failIf (metadata.hashAlgorithm ≠ 1) (.nsec3Algorithm metadata.hashAlgorithm record.name)
  failIf (metadata.flags &&& 0xFE ≠ 0) (.nsec3Flags record.name)
  failIf (metadata.iterations ≠ 0) (.nsec3Iterations record.name)
  failIf (record.name.numLabels ≠ origin.numLabels + 1 ||
    !(record.name.suffix origin.numLabels).eqIgnoreCase origin ||
    !record.name.labels.head?.any isSha1Nsec3Owner) (.nsec3Owner record.name)
  let parameters := (metadata.hashAlgorithm, metadata.iterations, metadata.salt)
  failIf (expected.any fun e => e ≠ parameters) .nsec3Parameters
  return some (expected.getD parameters)

/-- The CNAME records of an owner are one record and stand alone. -/
def checkCnames : Except LoadError Unit :=
  match records.filter fun record => record.rtype = .CNAME with
  | [] => .ok ()
  | first :: rest => do
    failIf ((first :: rest).any fun record => record.rdata ≠ first.rdata || record.ttl ≠ first.ttl)
      (.cnameTargets first.name)
    failIf (records.any fun record =>
        !([.CNAME, .RRSIG, .NSEC] : List RecordType).contains record.rtype)
      (.cnameWithData first.name)

/-- A DNAME is alone of its type, and not with a delegation. -/
def checkDnames (records : List Record) : Except LoadError Unit :=
  match records.filter fun record => record.rtype = .DNAME with
  | [] => .ok ()
  | first :: rest => do
    failIf (rest ≠ []) (.manyDnames first.name)
    failIf (!first.name.eqIgnoreCase origin && hasType records .NS) (.dnameWithNs first.name)

/-- The first loop of `validate_zone_records`, at one owner. -/
def checkOwner (expected : Option (UInt8 × UInt16 × Bytes))
    (records : List Record) : Except LoadError (Option (UInt8 × UInt16 × Bytes)) := do
  failIf (records.any fun record => record.class' ≠ DnsClass.IN) .notClassIn
  checkCnames records
  checkDnames origin records
  (records.filter fun record => record.rtype = .NSEC3).foldlM (checkNsec3 origin) expected

variable (index : OwnerIndex Record)

/-- Whether a proper ancestor of the owner, down from the origin, holds a DNAME. -/
def belowDname (owner : Name) : Bool :=
  (List.range (owner.numLabels - origin.numLabels)).any fun k =>
    (index.lookup (owner.suffix (origin.numLabels + k)).canonicalKey).any (hasType · .DNAME)

/-- The second loop of `validate_zone_records`. -/
def checkBelowDnames : Except LoadError Unit :=
  index.forM fun entry =>
    match entry.2 with
    | [] => .ok ()
    | first :: _ => failIf (belowDname origin index first.name) (.belowDname first.name)

def cnameTarget : Option Name :=
  match (records.find? fun record => record.rtype = .CNAME).map Record.rdata with
  | some (.cname target) => some target
  | _ => none

/-- A walk along CNAME records; keys on it are marked 1. The fuel is above the number of
owners, and each round marks another one. -/
def walkCnames (index : OwnerIndex Record) :
    (fuel : ℕ) → (states : List (Bytes × UInt8)) → (current : Bytes) → (path : List Bytes) →
      Except LoadError (List (Bytes × UInt8) × List Bytes)
  | 0, states, _, path => .ok (states, path)
  | fuel + 1, states, current, path =>
    match states.lookup current with
    | some 1 => .error (.cnameLoop current)
    | some 2 => .ok (states, path)
    | _ =>
      match (index.lookup current).bind cnameTarget with
      | none => .ok ((current, 1) :: states, path ++ [current])
      | some next => walkCnames index fuel ((current, 1) :: states) next.canonicalKey
          (path ++ [current])

/-- The third loop of `validate_zone_records`: no CNAME leads back to itself. -/
def checkCnameLoops : Except LoadError (List (Bytes × UInt8)) :=
  index.foldlM (fun states entry =>
    if !hasType entry.2 .CNAME || states.lookup entry.1 == some 2 then .ok states
    else do
      let (states, path) ← walkCnames index (index.length + 2) states entry.1 []
      return path.map (·, 2) ++ states) []

def validateZoneRecords : Except LoadError Unit := do
  discard <| index.foldlM (fun expected entry => checkOwner origin expected entry.2) none
  checkBelowDnames origin index
  discard <| checkCnameLoops index

/-- The order in which records are sorted: by owner, then by type. -/
def recordLe (left right : Record) : Prop :=
  dnssecNameCmp left.name right.name = .lt ∨
    dnssecNameCmp left.name right.name = .eq ∧ left.rtype ≤ right.rtype

instance : DecidableRel recordLe := fun left right => by
  unfold recordLe
  infer_instance

/-- An entry of a hash map is changed, from a default if there was none. -/
def upsert {ν : Type} (m : List (Bytes × ν)) (key : Bytes) (fresh : ν) (change : ν → ν) :
    List (Bytes × ν) :=
  OrderedMap.upsert (fun _ _ => False) m key fresh change

/-- The records by owner. The source finds the end of each run in the sorted list. -/
def ownerGroups : OwnerIndex Record :=
  OrderedMap.group (fun _ _ => False) (fun record => record.name.canonicalKey) records

/-- `drop_duplicate_records`, at one owner. A record whose data cannot be written is kept. -/
def dropDuplicateRecords : List Record → (seen : List (RecordType × DnsClass × Bytes)) → List Record
  | [], _ => []
  | record :: rest, seen =>
    let w := record.rdata.encode (Writer.new fun _ => 0)
    let key := (record.rtype, record.class', w.buf)
    if w.error.isSome then record :: dropDuplicateRecords rest seen
    else if seen.contains key then dropDuplicateRecords rest seen
    else record :: dropDuplicateRecords rest (key :: seen)

/-- The mark of names that are there only because of a name below them. -/
def markExists (flags : List (Bytes × UInt8))
    (owner : Name) : List (Bytes × UInt8) :=
  (List.range' origin.numLabels (owner.numLabels + 1 - origin.numLabels)).foldl (fun flags labels =>
    let key := (owner.suffix labels).canonicalKey
    if (index.lookup key).isSome then flags else upsert flags key 0 (· ||| nameExists)) flags

/-- The marks of wildcards and of DNAMEs, at one owner. -/
def markSpecial (flags : List (Bytes × UInt8)) (entry : Bytes × List Record) :
    Except LoadError (List (Bytes × UInt8)) := do
  let flags ←
    if [1, 42].isPrefixOf entry.1 then
      match parentCanonicalKey entry.1 with
      | none => .error .wildcardWithoutParent
      | some parent => .ok (upsert flags parent 0 (· ||| nameHasWildcard))
    else .ok flags
  return if hasType entry.2 .DNAME then upsert flags entry.1 0 (· ||| nameHasDname) else flags

def storeRecords : List Record → (others : ℕ) → List StoredRecord × ℕ
  | [], others => ([], others)
  | record :: rest, others =>
    let stored := StoredRecord.fromRecord others record
    let (tail, total) := storeRecords rest (if stored.full.isSome then others + 1 else others)
    (stored :: tail, total)

def storeOwners : OwnerIndex Record → (others : ℕ) → OwnerIndex StoredRecord
  | [], _ => []
  | (key, records) :: rest, others =>
    let (stored, total) := storeRecords records others
    (key, stored) :: storeOwners rest total

structure Zone where
  origin : Name
  soa : Soa
  soaTtl : UInt32
  records : OwnerIndex StoredRecord
  nameFlags : List (Bytes × UInt8)
  hasDelegations : Bool
  simpleNxdomain : Bool

namespace Zone

/-- The records of the zone as `from_flat_records` leaves them, by owner. -/
def prepare : OwnerIndex Record :=
  (ownerGroups (records.insertionSort recordLe)).map fun entry =>
    (entry.1, dropDuplicateRecords (normalizeTtls entry.2) [])

/-- `from_flat_records`. The order that the source's sort leaves among the records of one
type at one owner is not specified. -/
def fromFlatRecords (soa : Soa) (soaTtl : UInt32) (records : List Record) :
    Except LoadError Zone := do
  failIf (maxZoneRecords < records.length) .tooManyRecords
  failIf (records.any fun record => !isSubdomainOrEq record.name origin) .outOfZone
  let index := prepare records
  failIf (index.any fun entry => maxOwnerRecords < entry.2.length) .tooManyOwnerRecords
  failIf (!(index.lookup origin.canonicalKey).any (hasType · .NS)) .noApexNs
  validateZoneRecords origin index
  let owners := index.filterMap fun entry => entry.2.head?.map (·.name)
  let flags := owners.foldl (markExists origin index) []
  let hasDelegations := index.any fun entry =>
    entry.1 ≠ origin.canonicalKey && hasType entry.2 .NS
  let flags ← index.foldlM markSpecial flags
  return {
    origin, soa
    soaTtl := if maxTtl < soaTtl then 0 else soaTtl
    records := storeOwners index 0
    nameFlags := flags
    hasDelegations
    simpleNxdomain := !hasDelegations && flags.isEmpty }

variable (zone : Zone)

def recordsForKey (key : Bytes) : Option (List StoredRecord) := zone.records.lookup key

def owner (name : Name) : Option (List StoredRecord) := zone.recordsForKey name.canonicalKey

def ofType (records : List StoredRecord) (qtype : RecordType) (owner : Name) : List Record :=
  (storedRrset records qtype).map (·.materialize owner)

def flagSet (key : Bytes) (flag : UInt8) : Bool :=
  (zone.nameFlags.lookup key).any fun flags => flags &&& flag ≠ 0

/-- Whether a key is one of a name in the zone; empty names are. -/
def keyExists (key : Bytes) : Bool := (zone.recordsForKey key).isSome || zone.flagSet key nameExists

def nodeExists (name : Name) : Bool := zone.keyExists name.canonicalKey

def contains (name : Name) : Bool := isSubdomainOrEq name zone.origin

def allRecords : List Record :=
  zone.records.flatMap fun entry =>
    match Name.fromUncompressedWire entry.1 with
    | none => []
    | some owner => entry.2.map (·.materialize owner)

def negativeSoaRecord : Record := .new zone.origin (min zone.soaTtl zone.soa.minimum) (.soa zone.soa)

/-- The loop of `delegation_for`, with the labels that are left below the origin. -/
def delegationLoop : (left : ℕ) → (key : Bytes) → (found : Option ℕ) → Option ℕ
  | 0, _, found => found
  | left + 1, key, found =>
    let found :=
      if (zone.recordsForKey key).any (·.any fun r => r.rtype = .NS) then
        some (zone.origin.numLabels + left + 1)
      else found
    match parentCanonicalKey key with
    | none => none
    | some key => delegationLoop left key found

/-- `delegation_for`: the last cut on the way up is the highest. -/
def delegationFor (qname : Name) : Option Name :=
  if zone.hasDelegations then
    (zone.delegationLoop (qname.numLabels - zone.origin.numLabels) qname.canonicalKey none).map
      qname.suffix
  else none

/-- `closest_encloser`, with the number of labels that are looked at. -/
def encloserLoop : (labels : ℕ) → (key : Bytes) → Option ℕ
  | labels, key =>
    if zone.keyExists key then some labels
    else if labels = zone.origin.numLabels then none
    else
      match labels, parentCanonicalKey key with
      | labels + 1, some key => encloserLoop labels key
      | _, _ => none

def closestEncloser (qname : Name) : Option Name :=
  (zone.encloserLoop qname.numLabels qname.canonicalKey).map qname.suffix

/-- The DNAME of an owner and its target, if its data is read as one. -/
def dnameOf (records : List StoredRecord) : Option (Record × Name) :=
  match records.findSome? fun r => if r.rtype = .DNAME then r.full else none with
  | some record =>
    match record.rdata with
    | .dname target => some (record, target)
    | _ => none
  | none => none

/-- The loop of `dname`: the nearest DNAME above the name, with the labels of its owner. -/
def dnameLoop : (left : ℕ) → (key : Bytes) → Option (Record × Name × ℕ)
  | 0, _ => none
  | left + 1, key =>
    match parentCanonicalKey key with
    | none => none
    | some key =>
      match (zone.recordsForKey key).bind dnameOf with
      | some (record, target) => some (record, target, zone.origin.numLabels + left)
      | none => dnameLoop left key

end Zone

/-- `prepend_wildcard`. No name is below a parent that leaves no room for the label. -/
def prependWildcard (parent : Name) : Option Name :=
  (Name.fromLabels ([42] :: parent.labels)).toOption

end OnetDns.Authority
