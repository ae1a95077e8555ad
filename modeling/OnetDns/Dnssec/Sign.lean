import OnetDns.Dns.Reading
import OnetDns.Dnssec.Forward
import OnetDns.Lib.OrderedMap

/-!
# Signing a zone

`ZoneSigner` and `sign_zone_with` of `onetdns-dnssec/src/sign.rs`. Signatures of an earlier
run are not taken over: the list of them is empty here. The signing operation of a key is a
function of the data.
-/
namespace OnetDns.Dns.RecordType

abbrev CDS : RecordType := 59
abbrev CDNSKEY : RecordType := 60

end OnetDns.Dns.RecordType

namespace OnetDns.Dnssec
open Dns List Forward Name

inductive SignAlgorithm where
  | ecdsaP256
  | ed25519

def SignAlgorithm.number : SignAlgorithm → UInt8
  | .ecdsaP256 => 13
  | .ed25519 => 15

structure SignKey where
  algorithm : SignAlgorithm
  publicKey : Bytes
  sign : Bytes → Bytes

def dnskeyOf (key : SignKey) (flags : UInt16) : Dnskey :=
  ⟨flags, 3, key.algorithm.number, key.publicKey⟩

structure ZoneSigner where
  key : SignKey
  ksk : Option SignKey
  owner : Name
  publishedExtra : List Dnskey

def inceptionSkew : ℕ := 3600
def validity : ℕ := 14 * 86400

namespace ZoneSigner

variable (signer : ZoneSigner)

def dnskey : Dnskey := dnskeyOf signer.key (if signer.ksk.isSome then 256 else 257)

def kskDnskey : Option Dnskey := signer.ksk.map fun key => dnskeyOf key 257

def dnskeys : List Dnskey := signer.dnskey :: (signer.kskDnskey.toList ++ signer.publishedExtra)

def apexRecord (rtype : RecordType) (ttl : UInt32) (raw : Bytes) : Record :=
  ⟨signer.owner, rtype, 1, ttl, .unknown rtype raw⟩

def dnskeyRecords (ttl : UInt32) : List Record :=
  signer.dnskeys.map fun key => signer.apexRecord .DNSKEY ttl key.rdataBytes

/-- The key that stands for the zone in its parent. -/
def sepKey : Dnskey := signer.kskDnskey.getD signer.dnskey

/-- `ds`, in its data: the digest of type 2 never fails. -/
def dsBytes (digest : UInt8 → Bytes → Bytes) : Bytes :=
  be16 signer.sepKey.keyTag ++ signer.sepKey.algorithm :: 2 ::
    digest 2 (dsDigestInput signer.sepKey signer.owner)

def cdsCdnskeyRecords (digest : UInt8 → Bytes → Bytes) (ttl : UInt32) : List Record :=
  [signer.apexRecord .CDS ttl (signer.dsBytes digest),
    signer.apexRecord .CDNSKEY ttl signer.sepKey.rdataBytes]

/-- The key for a set of the type, with its record. -/
def signingKey (rtype : RecordType) : SignKey × Dnskey :=
  match signer.ksk with
  | some ksk => if rtype = .DNSKEY then (ksk, dnskeyOf ksk 257)
      else (signer.key, signer.dnskey)
  | none => (signer.key, signer.dnskey)

/-- The label count of a signature: asterisks are left out wherever they stand. -/
def signedLabels (owner : Name) : ℕ := (owner.labels.filter fun label => label ≠ [42]).length

def signatureFields (first : Record) (now : ℕ) : Rrsig where
  typeCovered := first.rtype
  algorithm := (signer.signingKey first.rtype).1.algorithm.number
  labels := UInt8.ofNat (signedLabels first.name)
  originalTtl := first.ttl
  expiration := UInt32.ofNat (now + validity)
  inception := UInt32.ofNat (now - inceptionSkew)
  keyTag := (signer.signingKey first.rtype).2.keyTag
  signer := signer.owner
  signature := []

def signatureOf (first : Record) (rrset : List Record) (now : ℕ) : Rrsig :=
  let fields := signer.signatureFields first now
  { fields with
    signature := (signer.signingKey first.rtype).1.sign (signedData fields rrset) }

def signRrset (rrset : List Record) (now : ℕ) : Option Record :=
  match rrset with
  | [] => none
  | first :: _ =>
    some ⟨first.name, .RRSIG, 1, first.ttl,
      .unknown .RRSIG (signer.signatureOf first rrset now).rdataBytes⟩

end ZoneSigner

/-- `canonical_key`: the labels from the right, in lower case. -/
def orderKey (name : Name) : List Bytes := (lowerLabels name.labels).reverse

variable (originLabels : ℕ)

/-- Some name between the apex and this one is among the keys. -/
def belowKeys (keys : List (List Bytes)) (name : Name) : Bool :=
  (List.range' (originLabels + 1) (name.numLabels - (originLabels + 1))).any fun labels =>
    keys.contains (orderKey (name.suffix labels))

def collectDelegations (originLabels : ℕ) : List Name → List (List Bytes) → List (List Bytes)
  | [], keys => keys
  | name :: rest, keys =>
    if belowKeys originLabels keys name then collectDelegations originLabels rest keys
    else collectDelegations originLabels rest (orderKey name :: keys)

variable (origin : Name)

/-- The owners of NS records below the apex. -/
def delegationNames (records : List Record) : List Name :=
  (records.filter fun r => r.rtype == .NS && !r.name.eqIgnoreCase origin).map Record.name

def delegationKeys (records : List Record) : List (List Bytes) :=
  collectDelegations origin.numLabels
    ((delegationNames origin records).insertionSort fun a b => a.numLabels ≤ b.numLabels) []

/-- The answers of `delegation_scope`. -/
inductive Scope where
  | own
  | cut
  | beneath
  deriving DecidableEq

def delegationScope (keys : List (List Bytes)) (name : Name) : Scope :=
  if keys.contains (orderKey name) then .cut
  else if belowKeys originLabels keys name then .beneath
  else .own

structure Nsec3Params where
  iterations : UInt16
  salt : Bytes

inductive DenialMode where
  | nsec
  | nsec3 (params : Nsec3Params)

abbrev OwnerTypes := Name × List RecordType

/-- The order of the keys of a `BTreeMap` over labels. -/
def keyLe (a b : List Bytes) : Prop := ¬b < a

instance : DecidableRel keyLe := fun a b => inferInstanceAs (Decidable (¬b < a))

def addOwner (scope : Name → Scope) (table : List (List Bytes × OwnerTypes)) (r : Record) :
    List (List Bytes × OwnerTypes) :=
  if scope r.name = .beneath ∨ (scope r.name = .cut ∧ ¬(r.rtype = .NS ∨ r.rtype = .DS)) then table
  else
    OrderedMap.upsert keyLe table (orderKey r.name) (r.name, [])
      fun entry => if entry.2.contains r.rtype then entry else (entry.1, entry.2 ++ [r.rtype])

/-- The names between the apex and an owner enter the table. -/
def addAncestors (table : List (List Bytes × OwnerTypes)) (name : Name) :
    List (List Bytes × OwnerTypes) :=
  if name.endsWithIgnoreCase origin then
    (List.range' origin.numLabels (name.numLabels - origin.numLabels)).foldl (fun table labels =>
      OrderedMap.upsert keyLe table (orderKey (name.suffix labels)) (name.suffix labels, []) id)
      table
  else table

def ownerTable (scope : Name → Scope) (records : List Record) : List OwnerTypes :=
  let table := records.foldl (addOwner scope) []
  ((table.map fun entry => entry.2.1).foldl (addAncestors origin) table).map Prod.snd

/-- One record of `build_nsec_chain`. -/
def nsecLink (ttl : UInt32) (entry next : OwnerTypes) : Record :=
  ⟨entry.1, .NSEC, 1, ttl, .unknown .NSEC (canonicalName next.1 ++
    typeBitmap (entry.2 ++ [.RRSIG, .NSEC]))⟩

def buildNsecChain (ordered : List OwnerTypes) (ttl : UInt32) : List Record :=
  List.zipWith (nsecLink ttl) ordered (ordered.rotate 1)

/-- The parameters as they stand in NSEC3 and NSEC3PARAM. -/
def nsec3Head (params : Nsec3Params) : Bytes :=
  1 :: 0 :: (be16 params.iterations ++ UInt8.ofNat params.salt.length :: params.salt)

def nsec3paramRecord (apex : Name) (params : Nsec3Params) (ttl : UInt32) : Record :=
  ⟨apex, .NSEC3PARAM, 1, ttl, .unknown .NSEC3PARAM (nsec3Head params)⟩

/-- The digits of `BASE32HEX`. -/
def base32hexDigit (n : ℕ) : UInt8 := if n < 10 then UInt8.ofNat (48 + n) else UInt8.ofNat (87 + n)

/-- The digits that the bits at hand give, with what is left of them. -/
def base32hexDrain (acc : ℕ) : (fuel nbits : ℕ) → Bytes × ℕ
  | 0, nbits => ([], nbits)
  | fuel + 1, nbits =>
    if nbits < 5 then ([], nbits)
    else
      let (digits, left) := base32hexDrain acc fuel (nbits - 5)
      (base32hexDigit (acc / 2 ^ (nbits - 5) % 32) :: digits, left)

/-- `base32hex_encode`, the loop over the bytes. At most two digits come out of one byte. -/
def base32hexEncode : Bytes → (acc nbits : ℕ) → Bytes
  | [], acc, nbits => if 0 < nbits then [base32hexDigit (acc * 2 ^ (5 - nbits) % 32)] else []
  | b :: rest, acc, nbits =>
    let acc := (acc * 256 + b.toNat) % 2 ^ 64
    let (digits, left) := base32hexDrain acc 2 (nbits + 8)
    digits ++ base32hexEncode rest acc left

/-- `dedup_by` on the hash. -/
def dedupHashes (previous : Option Bytes) :
    List (Bytes × List RecordType) → List (Bytes × List RecordType)
  | [] => []
  | node :: rest =>
    if previous = some node.1 then dedupHashes previous rest
    else node :: dedupHashes (some node.1) rest

/-- One record of `build_nsec3_chain`; none where the name of the owner is too long. -/
def nsec3Link (apex : Name) (params : Nsec3Params) (ttl : UInt32)
    (node next : Bytes × List RecordType) : Option Record :=
  match Name.fromLabels (base32hexEncode node.1 0 0 :: apex.labels) with
  | .error _ => none
  | .ok owner =>
    some ⟨owner, .NSEC3, 1, ttl, .unknown .NSEC3 (nsec3Head params ++
      UInt8.ofNat next.1.length :: (next.1 ++ typeBitmap node.2))⟩

def nsec3Nodes (sha1 : Bytes → Bytes) (apex : Name) (ordered : List OwnerTypes)
    (params : Nsec3Params) : List (Bytes × List RecordType) :=
  let nodes := ordered.map fun entry =>
    (nsec3Hash sha1 entry.1 params.salt params.iterations,
      entry.2 ++ .RRSIG :: (if entry.1.eqIgnoreCase apex then [.NSEC3PARAM] else []))
  dedupHashes none (nodes.insertionSort fun a b => bytesLe a.1 b.1 = true)

def buildNsec3Chain (sha1 : Bytes → Bytes) (apex : Name) (ordered : List OwnerTypes)
    (params : Nsec3Params) (ttl : UInt32) : List Record :=
  let nodes := nsec3Nodes sha1 apex ordered params
  (List.zipWith (nsec3Link apex params ttl) nodes (nodes.rotate 1)).filterMap id

def remadeTypes : List RecordType := [.RRSIG, .NSEC, .DNSKEY, .NSEC3, .NSEC3PARAM, .CDS, .CDNSKEY]

/-- The TTL of the records of denial. -/
def soaMinimum (records : List Record) : UInt32 :=
  (records.findSome? fun r => match r.rdata with
    | .soa s => some s.minimum
    | _ => none).getD 300

section SignZone

variable (digest : UInt8 → Bytes → Bytes) (sha1 : Bytes → Bytes) (records : List Record)
  (signer : ZoneSigner) (mode : DenialMode)

/-- The records of the zone with its keys. -/
def keyedRecords : List Record :=
  records.filter (fun r => !remadeTypes.contains r.rtype) ++
    (signer.dnskeyRecords 3600 ++ signer.cdsCdnskeyRecords digest 3600)

/-- `delegation_scope` for this zone. -/
def zoneScope (name : Name) : Scope :=
  delegationScope signer.owner.numLabels
    (delegationKeys signer.owner (keyedRecords digest records signer)) name

def denialRecords : List Record :=
  let ordered := ownerTable signer.owner (zoneScope digest records signer)
    (keyedRecords digest records signer)
  match mode with
  | .nsec => buildNsecChain ordered (soaMinimum records)
  | .nsec3 params =>
    nsec3paramRecord signer.owner params (soaMinimum records) ::
      buildNsec3Chain sha1 signer.owner ordered params (soaMinimum records)

/-- All that is to be signed, with what is not. -/
def unsignedRecords : List Record :=
  keyedRecords digest records signer ++ denialRecords digest sha1 records signer mode

/-- Whether a set is signed, by the scope of its owner. -/
def isSignable (first : Record) : Bool :=
  match zoneScope digest records signer first.name with
  | .own => true
  | .cut => first.rtype == .DS || first.rtype == .NSEC
  | .beneath => false

/-- The order of the sets. -/
def setLe (a b : List Bytes × RecordType) : Prop := a.1 < b.1 ∨ (a.1 = b.1 ∧ a.2 ≤ b.2)

instance : DecidableRel setLe := fun a b =>
  inferInstanceAs (Decidable (a.1 < b.1 ∨ (a.1 = b.1 ∧ a.2 ≤ b.2)))

def rrsets : List ((List Bytes × RecordType) × List Record) :=
  OrderedMap.group setLe (fun r : Record => (orderKey r.name, r.rtype))
    (unsignedRecords digest sha1 records signer mode)

def signZoneWith (now : ℕ) : List Record :=
  unsignedRecords digest sha1 records signer mode ++
    (((rrsets digest sha1 records signer mode).map Prod.snd).filter fun rrset =>
      rrset.head?.any (isSignable digest records signer)).filterMap fun rrset =>
        signer.signRrset rrset now

end SignZone

lemma orderKey_eq {a b : Name} : orderKey a = orderKey b ↔ a.path = b.path := by
  rw [orderKey, orderKey, reverse_inj, ← eqIgnoreCase_iff, eqIgnoreCase_path]

/-- A name of the list stands between the apex and the path. -/
def Overhung (names : List Name) (p : Path) : Prop :=
  ∃ k, originLabels < k ∧ k < p.length ∧ ∃ d ∈ names, d.path = p.take k

/-- The keys are those of the highest names of the list. -/
def Highest (names : List Name) (keys : List (List Bytes)) : Prop :=
  ∀ n : Name, orderKey n ∈ keys ↔
    (∃ d ∈ names, d.path = n.path) ∧ ¬Overhung originLabels names n.path

variable {names : List Name} {originLabels : ℕ}

/-- Where a name is overhung, one of the highest names is above it. -/
theorem Overhung.highest {p : Path} (h : Overhung originLabels names p) :
    ∃ k, originLabels < k ∧ k < p.length ∧ (∃ d ∈ names, d.path = p.take k) ∧
      ¬Overhung originLabels names (p.take k) := by
  obtain ⟨hk, hlen, hd⟩ := Nat.find_spec h
  refine ⟨.find h, hk, hlen, hd, ?_⟩
  rintro ⟨j, hj, hjlen, hmem⟩
  have hlt : j < .find h := by
    rw [length_take] at hjlen
    omega
  refine Nat.find_min h hlt ⟨hj, hlt.trans hlen, ?_⟩
  rwa [take_take, min_eq_left hlt.le] at hmem

lemma belowKeys_iff {keys : List (List Bytes)}
    (hkeys : Highest originLabels names keys) (n : Name) :
    belowKeys originLabels keys n = true ↔ Overhung originLabels names n.path := by
  simp only [belowKeys, any_eq_true, mem_range'_1, contains_iff_mem]
  constructor
  · rintro ⟨k, ⟨hlow, hhigh⟩, hmem⟩
    have hd := ((hkeys _).mp hmem).1
    rw [suffix_path] at hd
    exact ⟨k, hlow, by rw [path_length]; omega, hd⟩
  intro h
  obtain ⟨k, hk, hlen, hd, hnot⟩ := h.highest
  rw [path_length] at hlen
  refine ⟨k, ⟨hk, by omega⟩, (hkeys _).mpr ?_⟩
  rw [suffix_path]
  exact ⟨hd, hnot⟩

lemma overhung_snoc {name : Name} {p : Path} (hlen : p.length ≤ name.numLabels) :
    Overhung originLabels (names ++ [name]) p ↔ Overhung originLabels names p := by
  constructor
  · rintro ⟨k, hk, hklen, d, hd, hpath⟩
    refine ⟨k, hk, hklen, ?_⟩
    rcases mem_append.mp hd with hd | hd
    · exact ⟨d, hd, hpath⟩
    · rw [mem_singleton.mp hd] at hpath
      have := congrArg length hpath
      rw [length_take, path_length] at this
      omega
  · rintro ⟨k, hk, hklen, d, hd, hpath⟩
    exact ⟨k, hk, hklen, d, mem_append_left _ hd, hpath⟩

/-- The loop keeps the highest of the names that it has seen, as long as the names come with
more and more labels. -/
theorem collectDelegations_highest {rest seen : List Name} {keys : List (List Bytes)}
    (hkeys : Highest originLabels seen keys)
    (hsorted : rest.Pairwise fun a b => a.numLabels ≤ b.numLabels)
    (hseen : ∀ a ∈ seen, ∀ b ∈ rest, a.numLabels ≤ b.numLabels) :
    Highest originLabels (seen ++ rest) (collectDelegations originLabels rest keys) := by
  induction rest generalizing seen keys with
  | nil => simpa [collectDelegations] using hkeys
  | cons name rest ih =>
    obtain ⟨hfirst, hrest⟩ := pairwise_cons.mp hsorted
    have hnext : ∀ {keys}, Highest originLabels (seen ++ [name]) keys →
        Highest originLabels (seen ++ name :: rest) (collectDelegations originLabels rest keys) := by
      intro keys hk
      have hall := ih hk hrest (by
        intro a ha b hb
        rcases mem_append.mp ha with ha | ha
        · exact hseen a ha b (mem_cons_of_mem _ hb)
        · rw [mem_singleton.mp ha]
          exact hfirst b hb)
      rwa [append_assoc] at hall
    have hshort : ∀ n : Name, (∃ d ∈ seen ++ [name], d.path = n.path) →
        n.path.length ≤ name.numLabels := by
      rintro n ⟨d, hd, hpath⟩
      rw [← hpath, path_length]
      rcases mem_append.mp hd with hd | hd
      · exact hseen d hd name mem_cons_self
      · rw [mem_singleton.mp hd]
    have hmem : ∀ n : Name, (∃ d ∈ seen ++ [name], d.path = n.path) ↔
        (∃ d ∈ seen, d.path = n.path) ∨ name.path = n.path := by
      simp
    unfold collectDelegations
    split
    · rename_i hbelow
      rw [belowKeys_iff hkeys] at hbelow
      refine hnext fun n => ?_
      rw [hkeys n]
      constructor
      · rintro ⟨hd, hnot⟩
        have hd' := (hmem n).mpr (.inl hd)
        exact ⟨hd', fun hover => hnot ((overhung_snoc (hshort n hd')).mp hover)⟩
      rintro ⟨hd, hnot⟩
      rw [overhung_snoc (hshort n hd)] at hnot
      rcases (hmem n).mp hd with hd | hpath
      · exact ⟨hd, hnot⟩
      · rw [← hpath] at hnot
        exact absurd hbelow hnot
    rename_i hbelow
    rw [Bool.not_eq_true, Bool.eq_false_iff, ne_eq, belowKeys_iff hkeys] at hbelow
    refine hnext fun n => ?_
    rw [mem_cons, hkeys n, orderKey_eq]
    constructor
    · rintro (hpath | ⟨hd, hnot⟩)
      · have hd' := (hmem n).mpr (.inr hpath.symm)
        refine ⟨hd', ?_⟩
        rw [overhung_snoc (hshort n hd'), hpath]
        exact hbelow
      · have hd' := (hmem n).mpr (.inl hd)
        exact ⟨hd', fun hover => hnot ((overhung_snoc (hshort n hd')).mp hover)⟩
    · rintro ⟨hd, hnot⟩
      rw [overhung_snoc (hshort n hd)] at hnot
      rcases (hmem n).mp hd with hd | hpath
      · exact .inr ⟨hd, hnot⟩
      · exact .inl hpath.symm

lemma delegationKeys_highest (origin : Name) (records : List Record) :
    Highest origin.numLabels (delegationNames origin records) (delegationKeys origin records) := by
  have hsort := pairwise_insertionSort (fun a b : Name => a.numLabels ≤ b.numLabels)
    (delegationNames origin records)
  have hempty : Highest origin.numLabels [] [] := by
    intro n
    simp
  have hall := collectDelegations_highest hempty hsort (fun a ha => absurd ha not_mem_nil)
  intro n
  rw [delegationKeys, hall n]
  simp [Overhung]

/-- What holds of the records of a zone that was loaded. -/
structure ZoneRecords (origin : Name) (records : List Record) : Prop where
  within : ∀ r ∈ records, origin.path <+: r.name.path
  apex_soa : ∃ r ∈ records, r.rtype = .SOA ∧ r.name.path = origin.path
  class_in : ∀ r ∈ records, r.class' = 1

def zoneOf {origin : Name} {records : List Record} (h : ZoneRecords origin records) : Zone where
  apex := origin.path
  holds := fun x t => ∃ r ∈ records, r.rtype = t ∧ r.name.path = x
  within := by
    rintro x t ⟨r, hr, -, rfl⟩
    exact h.within r hr
  apex_soa := h.apex_soa

variable {r : Record} {ttl : UInt32}

section Cuts

variable {digest : UInt8 → Bytes → Bytes} {sha1 : Bytes → Bytes} {records : List Record}
  {signer : ZoneSigner} {mode : DenialMode} {now : ℕ}

lemma mem_keyedRecords : r ∈ keyedRecords digest records signer ↔
    (r ∈ records ∧ r.rtype ∉ remadeTypes) ∨ r ∈ signer.dnskeyRecords 3600 ∨
      r ∈ signer.cdsCdnskeyRecords digest 3600 := by
  simp [keyedRecords]

lemma mem_dnskeyRecords (h : r ∈ signer.dnskeyRecords ttl) :
    r.rtype = .DNSKEY ∧ r.class' = 1 := by
  obtain ⟨key, -, rfl⟩ := mem_map.mp h
  exact ⟨rfl, rfl⟩

lemma mem_cdsCdnskeyRecords (h : r ∈ signer.cdsCdnskeyRecords digest ttl) :
    (r.rtype = .CDS ∨ r.rtype = .CDNSKEY) ∧ r.class' = 1 := by
  simp only [ZoneSigner.cdsCdnskeyRecords, mem_cons, not_mem_nil, or_false] at h
  rcases h with rfl | rfl
  · exact ⟨.inl rfl, rfl⟩
  · exact ⟨.inr rfl, rfl⟩

variable (hzone : ZoneRecords signer.owner records)
include hzone

lemma mem_delegationNames (p : Path) :
    (∃ d ∈ delegationNames signer.owner (keyedRecords digest records signer), d.path = p) ↔
      (zoneOf hzone).IsCut p := by
  simp only [delegationNames, mem_map, mem_filter, Bool.and_eq_true, beq_iff_eq,
    Bool.not_eq_true', Bool.eq_false_iff, ne_eq, eqIgnoreCase_path]
  constructor
  · rintro ⟨d, ⟨r, ⟨hr, hns, hne⟩, rfl⟩, rfl⟩
    refine ⟨hne, r, ?_, hns, rfl⟩
    rcases mem_keyedRecords.mp hr with ⟨hr, -⟩ | hr | hr
    · exact hr
    · exact absurd ((mem_dnskeyRecords hr).1.symm.trans hns) (by decide)
    · rcases (mem_cdsCdnskeyRecords hr).1 with htype | htype <;>
        exact absurd (htype.symm.trans hns) (by decide)
  · rintro ⟨hne, r, hr, hns, rfl⟩
    refine ⟨r.name, ⟨r, ⟨mem_keyedRecords.mpr (.inl ⟨hr, ?_⟩), hns, hne⟩, rfl⟩, rfl⟩
    rw [hns]
    decide

lemma overhung_iff_belowCut (p : Path) :
    Overhung signer.owner.numLabels
        (delegationNames signer.owner (keyedRecords digest records signer)) p ↔
      (zoneOf hzone).BelowCut p := by
  constructor
  · rintro ⟨k, hk, hlen, hd⟩
    refine ⟨p.take k, (mem_delegationNames hzone _).mp hd, List.take_prefix k p, fun heq => ?_⟩
    have := congrArg length heq
    rw [length_take] at this
    omega
  rintro ⟨d, hcut, hpre, hne⟩
  have htake : d = p.take d.length := prefix_iff_eq_take.mp hpre
  have hwithin := (zoneOf hzone).within hcut.2
  have hlonger : signer.owner.path.length < d.length := by
    refine lt_of_le_of_ne hwithin.length_le fun heq => ?_
    exact hcut.1 (hwithin.eq_of_length heq).symm
  have hshorter : d.length < p.length := by
    refine lt_of_le_of_ne hpre.length_le fun heq => ?_
    exact hne (hpre.eq_of_length heq)
  refine ⟨d.length, by rwa [← path_length], hshorter, ?_⟩
  rw [← htake]
  exact (mem_delegationNames hzone _).mpr hcut

lemma zoneScope_eq (n : Name) :
    (zoneScope digest records signer n = .beneath ↔ (zoneOf hzone).BelowCut n.path) ∧
      (zoneScope digest records signer n = .cut ↔
        (zoneOf hzone).IsCut n.path ∧ ¬(zoneOf hzone).BelowCut n.path) := by
  have hkeys := delegationKeys_highest signer.owner (keyedRecords digest records signer)
  have hcut := hkeys n
  have hbelow := belowKeys_iff hkeys n
  rw [mem_delegationNames hzone, overhung_iff_belowCut hzone] at hcut
  rw [overhung_iff_belowCut hzone] at hbelow
  rw [← contains_iff_mem] at hcut
  unfold zoneScope delegationScope
  split
  · rename_i hmem
    have hc := hcut.mp hmem
    simp [hc]
  rename_i hmem
  have hnot := mt hcut.mpr hmem
  split
  · rename_i hb
    have hb' := hbelow.mp hb
    simp [hb']
  · rename_i hb
    have hb' := mt hbelow.mpr hb
    simp only [reduceCtorEq, false_iff]
    exact ⟨hb', hnot⟩

end Cuts

/-- A signature as it is read back: the name of the signer is in lower case. -/
def Rrsig.lower (sig : Rrsig) : Rrsig := { sig with signer := lowerName sig.signer }

lemma Rrsig.parse_rdataBytes (sig : Rrsig) : Rrsig.parse sig.rdataBytes = some sig.lower := by
  set raw := sig.rdataBytes with hraw
  have hlen : raw.length = 18 + wireLen sig.signer.labels + sig.signature.length := by
    simp only [hraw, rdataBytes, length_append, length_cons, be16_length,
      be32_length, canonicalName, wireOf_length, wireLen_lower]
    omega
  have hall : Holds raw 0 (be16 sig.typeCovered ++ ([sig.algorithm] ++ ([sig.labels] ++
      (be32 sig.originalTtl ++ (be32 sig.expiration ++ (be32 sig.inception ++
        (be16 sig.keyTag ++ (canonicalName sig.signer ++ sig.signature)))))))) := by
    refine ⟨[], [], ?_, rfl⟩
    simp [hraw, rdataBytes]
  have h₁ := hall.right
  have h₂ := h₁.right
  have h₃ := h₂.right
  have h₄ := h₃.right
  have h₅ := h₄.right
  have h₆ := h₅.right
  have h₇ := h₆.right
  simp only [be16_length, be32_length, length_singleton] at h₁ h₂ h₃ h₄ h₅ h₆ h₇
  have hhead : readHead (Reader.new raw) =
      .ok ({ sig.lower with signature := [] }, ⟨raw, 18 + wireLen sig.signer.labels, raw.length⟩) := by
    have hname : Name.parse ⟨raw, 18, raw.length⟩ =
        .ok (lowerName sig.signer, ⟨raw, 18 + wireLen sig.signer.labels, raw.length⟩) := by
      have hname : (lowerName sig.signer).wire.length = wireLen sig.signer.labels := by
        rw [Name.wire, wireOf_length, lowerName, wireLen_lower]
      have hwire := Name.parse_restores (lowerName sig.signer) h₇.left
        (show 18 + (lowerName sig.signer).wire.length ≤ raw.length by omega)
      rwa [hname] at hwire
    rw [readHead, Reader.new, u16_at hall (by omega), u8_at h₁ (by omega), u8_at h₂ (by omega),
      u32_at h₃ (by omega), u32_at h₄ (by omega),
      u32_at h₅ (by omega), u16_at h₆ (by omega),
      bind_ok hname]
    rfl
  rw [parse, hhead]
  have hdrop : raw.drop (18 + wireLen sig.signer.labels) = sig.signature := by
    have hlast := h₇.right
    rw [canonicalName, wireOf_length, wireLen_lower] at hlast
    obtain ⟨after, hafter⟩ := hlast.drop_eq
    have hlength := congrArg length hafter
    rw [length_drop, length_append] at hlength
    rw [hafter, eq_nil_of_length_eq_zero (show after.length = 0 by omega), append_nil]
  simp only [if_neg (show ¬raw.length < 18 + wireLen sig.signer.labels by omega), hdrop]
  rfl

section Output

variable {digest : UInt8 → Bytes → Bytes} {sha1 : Bytes → Bytes} {records : List Record}
  {signer : ZoneSigner} {mode : DenialMode} {now : ℕ}

/-- The names of a table are in the zone. -/
def TableWithin (origin : Name) (table : List (List Bytes × OwnerTypes)) : Prop :=
  ∀ key entry, (key, entry) ∈ table → origin.path <+: entry.1.path

variable {table : List (List Bytes × OwnerTypes)} {origin : Name}

section

variable (h : TableWithin origin table)
include h

lemma TableWithin.upsert {key : List Bytes} {name : Name} (hname : origin.path <+: name.path)
    {change : OwnerTypes → OwnerTypes} (hchange : ∀ entry, (change entry).1 = entry.1) :
    TableWithin origin (OrderedMap.upsert keyLe table key (name, []) change) := by
  intro k entry hentry
  rcases OrderedMap.mem_upsert.mp hentry with ⟨-, hmem⟩ | ⟨-, ⟨old, hmem, rfl⟩ | ⟨-, rfl⟩⟩
  · exact h k entry hmem
  · rw [hchange]
    exact h key old hmem
  · rw [hchange]
    exact hname

lemma TableWithin.addOwner (hr : origin.path <+: r.name.path)
    (scope : Name → Scope) : TableWithin origin (addOwner scope table r) := by
  unfold Dnssec.addOwner
  split
  · exact h
  · refine h.upsert hr fun entry => ?_
    split <;> rfl

lemma TableWithin.addAncestors (name : Name) :
    TableWithin origin (addAncestors origin table name) := by
  unfold Dnssec.addAncestors
  split
  · rename_i hbelow
    rw [endsWithIgnoreCase_path] at hbelow
    have hlabels : ∀ labels ∈ range' origin.numLabels (name.numLabels - origin.numLabels),
        origin.numLabels ≤ labels := fun labels hmem => (mem_range'_1.mp hmem).1
    generalize range' origin.numLabels (name.numLabels - origin.numLabels) = steps at hlabels
    induction steps generalizing table with
    | nil => exact h
    | cons labels steps ih =>
      refine ih (h.upsert ?_ fun _ => rfl) fun l hl => hlabels l (mem_cons_of_mem _ hl)
      rw [suffix_path, prefix_take_iff, path_length]
      exact ⟨hbelow, hlabels labels mem_cons_self⟩
  · exact h

end

lemma mem_ownerTable {scope : Name → Scope} {l : List Record}
    (hl : ∀ r ∈ l, origin.path <+: r.name.path) {entry : OwnerTypes}
    (h : entry ∈ ownerTable origin scope l) : origin.path <+: entry.1.path := by
  have howners : ∀ (l : List Record) (table : List (List Bytes × OwnerTypes)),
      (∀ r ∈ l, origin.path <+: r.name.path) → TableWithin origin table →
      TableWithin origin (l.foldl (addOwner scope) table) := by
    intro l
    induction l with
    | nil => exact fun table _ htable => htable
    | cons r l ih =>
      intro table hl htable
      exact ih _ (fun r hr => hl r (mem_cons_of_mem _ hr))
        (htable.addOwner (hl r mem_cons_self) scope)
  have hall : ∀ (names : List Name) (table : List (List Bytes × OwnerTypes)),
      TableWithin origin table → TableWithin origin (names.foldl (addAncestors origin) table) := by
    intro names
    induction names with
    | nil => exact fun table htable => htable
    | cons name names ih => exact fun table htable => ih _ (htable.addAncestors name)
  obtain ⟨⟨key, entry⟩, hmem, rfl⟩ := mem_map.mp h
  exact hall _ _ (howners l [] hl fun key entry hentry => absurd hentry not_mem_nil) key entry hmem

lemma labels_of_fromLabels {labels : List Bytes} {n : Name} (h : fromLabels labels = .ok n) :
    n.labels = labels := by
  unfold fromLabels at h
  split at h
  · split at h
    · obtain rfl := Except.ok.inj h
      rfl
    · cases h
  · cases h

lemma mem_buildNsec3Chain {apex : Name} {ordered : List OwnerTypes} {params : Nsec3Params} (h : r ∈ buildNsec3Chain sha1 apex ordered params ttl) :
    r.rtype = .NSEC3 ∧ r.class' = 1 ∧ apex.path <+: r.name.path := by
  simp only [buildNsec3Chain, mem_filterMap, id_eq, exists_eq_right] at h
  obtain ⟨i, hi, hlink⟩ := mem_iff_getElem.mp h
  rw [getElem_zipWith] at hlink
  unfold nsec3Link at hlink
  split at hlink
  · cases hlink
  rename_i owner howner
  obtain rfl := Option.some.inj hlink
  refine ⟨rfl, rfl, ?_⟩
  have hlabels : owner.labels = _ :: apex.labels := labels_of_fromLabels howner
  simp only [Name.path, hlabels, map_cons, reverse_cons]
  exact prefix_append _ _

lemma mem_buildNsecChain {ordered : List OwnerTypes} (h : r ∈ buildNsecChain ordered ttl) :
    r.rtype = .NSEC ∧ r.class' = 1 ∧ ∃ entry ∈ ordered, r.name = entry.1 := by
  obtain ⟨i, hi, rfl⟩ := mem_iff_getElem.mp h
  simp only [buildNsecChain, getElem_zipWith]
  exact ⟨rfl, rfl, _, getElem_mem _, rfl⟩

lemma denialRecords_rtype (h : r ∈ denialRecords digest sha1 records signer mode) :
    r.rtype ∈ [.NSEC, .NSEC3, .NSEC3PARAM] ∧ r.class' = 1 := by
  cases mode with
  | nsec =>
    obtain ⟨hrtype, hclass, -⟩ := mem_buildNsecChain h
    exact ⟨by rw [hrtype]; decide, hclass⟩
  | nsec3 params =>
    rcases mem_cons.mp h with rfl | h
    · exact ⟨by simp [nsec3paramRecord], rfl⟩
    · obtain ⟨hrtype, hclass, -⟩ := mem_buildNsec3Chain h
      exact ⟨by rw [hrtype]; decide, hclass⟩

section

variable (hzone : ZoneRecords signer.owner records)
include hzone

lemma keyedRecords_within
    (h : r ∈ keyedRecords digest records signer) : signer.owner.path <+: r.name.path := by
  rcases mem_keyedRecords.mp h with ⟨hr, -⟩ | h | h
  · exact hzone.within r hr
  · obtain ⟨key, -, rfl⟩ := mem_map.mp h
    exact prefix_refl _
  · simp only [ZoneSigner.cdsCdnskeyRecords, mem_cons, not_mem_nil, or_false] at h
    rcases h with rfl | rfl <;> exact prefix_refl _

lemma denialRecords_within (h : r ∈ denialRecords digest sha1 records signer mode) :
    signer.owner.path <+: r.name.path := by
  cases mode with
  | nsec =>
    obtain ⟨-, -, entry, hentry, hname⟩ := mem_buildNsecChain h
    rw [hname]
    exact mem_ownerTable (fun r hr => keyedRecords_within hzone hr) hentry
  | nsec3 params =>
    rcases mem_cons.mp h with rfl | h
    · exact prefix_refl _
    · exact (mem_buildNsec3Chain h).2.2

/-- Before it is signed, the zone has no signatures; its records are of one class, and all in
the zone. -/
theorem mem_unsignedRecords (h : r ∈ unsignedRecords digest sha1 records signer mode) :
    r.rtype ≠ .RRSIG ∧ r.class' = 1 ∧ signer.owner.path <+: r.name.path := by
  rcases mem_append.mp h with h | h
  · have hwithin := keyedRecords_within hzone h
    rcases mem_keyedRecords.mp h with ⟨hr, hnot⟩ | h | h
    · refine ⟨fun heq => hnot ?_, hzone.class_in r hr, hwithin⟩
      rw [heq]
      decide
    · obtain ⟨hrtype, hclass⟩ := mem_dnskeyRecords h
      exact ⟨by rw [hrtype]; decide, hclass, hwithin⟩
    · obtain ⟨hrtype, hclass⟩ := mem_cdsCdnskeyRecords h
      refine ⟨?_, hclass, hwithin⟩
      rcases hrtype with hrtype | hrtype <;> rw [hrtype] <;> decide
  · obtain ⟨hrtype, hclass⟩ := denialRecords_rtype h
    refine ⟨fun heq => ?_, hclass, denialRecords_within hzone h⟩
    rw [heq] at hrtype
    exact absurd hrtype (by decide)

end

lemma mem_rrsets {k : List Bytes × RecordType} {rrset : List Record} :
    (k, rrset) ∈ rrsets digest sha1 records signer mode ↔
      rrset = (unsignedRecords digest sha1 records signer mode).filter
        (fun r => (orderKey r.name, r.rtype) = k) ∧ rrset ≠ [] :=
  OrderedMap.mem_group

lemma filter_key_eq (l : List Record) (owner : Name) (rtype : RecordType) :
    l.filter (fun r => (orderKey r.name, r.rtype) = (orderKey owner, rtype)) =
      sectionRecords l owner rtype := by
  refine filter_congr fun r _ => ?_
  rw [Bool.eq_iff_iff, decide_eq_true_eq, Prod.mk.injEq, orderKey_eq, Bool.and_eq_true, beq_iff_eq,
    eqIgnoreCase_path, and_comm]

/-- A signature of the output, with the set that it is for. -/
theorem mem_signatures (hzone : ZoneRecords signer.owner records) :
    r ∈ signZoneWith digest sha1 records signer mode now ∧ r.rtype = .RRSIG ↔
      ∃ first rest, first :: rest = sectionRecords
          (unsignedRecords digest sha1 records signer mode) first.name first.rtype ∧
        isSignable digest records signer first = true ∧
        signer.signRrset (first :: rest) now = some r := by
  have hkey : ∀ {first : Record} {rest : List Record} {k},
      first :: rest = (unsignedRecords digest sha1 records signer mode).filter
        (fun r => (orderKey r.name, r.rtype) = k) → k = (orderKey first.name, first.rtype) := by
    intro first rest k heq
    have hmem := mem_filter.mp (heq ▸ mem_cons_self (a := first) (l := rest))
    exact (of_decide_eq_true hmem.2).symm
  constructor
  · rintro ⟨hr, hrtype⟩
    rcases mem_append.mp hr with hr | hr
    · exact absurd hrtype (mem_unsignedRecords hzone hr).1
    simp only [mem_filterMap, mem_filter, mem_map, Prod.exists, exists_eq_right] at hr
    obtain ⟨rrset, ⟨⟨key, rtype, hset⟩, hsignable⟩, hsign⟩ := hr
    obtain ⟨heq, hne⟩ := mem_rrsets.mp hset
    obtain ⟨first, rest, rfl⟩ := exists_cons_of_ne_nil hne
    refine ⟨first, rest, ?_, hsignable, hsign⟩
    rw [← filter_key_eq, ← hkey heq]
    exact heq
  · rintro ⟨first, rest, heq, hsignable, hsign⟩
    refine ⟨mem_append_right _ ?_, ?_⟩
    · simp only [mem_filterMap, mem_filter, mem_map, Prod.exists, exists_eq_right]
      refine ⟨first :: rest, ⟨⟨orderKey first.name, first.rtype, mem_rrsets.mpr ⟨?_, by simp⟩⟩,
        hsignable⟩, hsign⟩
      rw [filter_key_eq]
      exact heq
    · obtain rfl := Option.some.inj hsign
      rfl

variable {rtype : RecordType}

/-- The signatures for a set of the output: one, if its owner is in scope. -/
theorem mem_coveringRrsigs (hzone : ZoneRecords signer.owner records) {owner : Name} {sig : Rrsig} :
    sig ∈ coveringRrsigs (signZoneWith digest sha1 records signer mode now) owner rtype ↔
      ∃ first rest, first :: rest = sectionRecords
          (unsignedRecords digest sha1 records signer mode) owner rtype ∧
        isSignable digest records signer first = true ∧
        sig = (signer.signatureOf first (first :: rest) now).lower := by
  simp only [coveringRrsigs, mem_filter, mem_filterMap, beq_iff_eq]
  constructor
  · rintro ⟨⟨r, hr, hparse⟩, hcovered⟩
    obtain ⟨hmem, hrtype, hpath⟩ := mem_sectionRecords.mp hr
    obtain ⟨first, rest, heq, hsignable, hsign⟩ := (mem_signatures hzone).mp ⟨hmem, hrtype⟩
    obtain rfl := Option.some.inj hsign
    have hsig : sig = (signer.signatureOf first (first :: rest) now).lower :=
      Option.some.inj (hparse.symm.trans (Rrsig.parse_rdataBytes _))
    rw [hsig] at hcovered
    have htype : first.rtype = rtype := hcovered
    refine ⟨first, rest, ?_, hsignable, hsig⟩
    rw [heq, sectionRecords_congr hpath, htype]
  · rintro ⟨first, rest, heq, hsignable, rfl⟩
    obtain ⟨-, hrtype, hpath⟩ :=
      mem_sectionRecords.mp (heq ▸ mem_cons_self (a := first) (l := rest))
    have hself : first :: rest = sectionRecords
        (unsignedRecords digest sha1 records signer mode) first.name first.rtype := by
      rw [heq, sectionRecords_congr hpath, hrtype]
    obtain ⟨hmem, -⟩ := (mem_signatures hzone).mpr ⟨first, rest, hself, hsignable, rfl⟩
    refine ⟨⟨_, mem_sectionRecords.mpr ⟨hmem, rfl, hpath⟩, Rrsig.parse_rdataBytes _⟩, ?_⟩
    exact hrtype

lemma sectionRecords_eq_nil {l : List Record} {owner : Name}
    (h : ∀ r ∈ l, r.rtype ≠ rtype) : sectionRecords l owner rtype = [] := by
  refine filter_eq_nil_iff.mpr fun r hr => ?_
  simp [h r hr]

lemma sectionRecords_append (a b : List Record) (owner : Name) (rtype : RecordType) :
    sectionRecords (a ++ b) owner rtype =
      sectionRecords a owner rtype ++ sectionRecords b owner rtype :=
  filter_append _ _

lemma sectionRecords_signZoneWith (owner : Name) (h : rtype ≠ .RRSIG) :
    sectionRecords (signZoneWith digest sha1 records signer mode now) owner rtype =
      sectionRecords (unsignedRecords digest sha1 records signer mode) owner rtype := by
  rw [signZoneWith, sectionRecords_append]
  refine (congrArg _ (sectionRecords_eq_nil fun r hr => ?_)).trans (append_nil _)
  obtain ⟨rrset, -, hsign⟩ := mem_filterMap.mp hr
  unfold ZoneSigner.signRrset at hsign
  split at hsign
  · cases hsign
  · obtain rfl := Option.some.inj hsign
    exact Ne.symm h

lemma dnskey_parse_rdataBytes (k : Dnskey) : Dnskey.parse k.rdataBytes = some k := by
  obtain ⟨hi, lo, hflags⟩ := length_eq_two.mp (be16_length k.flags)
  have hback : ofBe16 [hi, lo] = k.flags := by rw [← hflags, ofBe16_be16]
  rw [Dnskey.rdataBytes, hflags]
  simp [Dnskey.parse, hback]

lemma outputKeys :
    (sectionRecords (signZoneWith digest sha1 records signer mode now) signer.owner
      .DNSKEY).filterMap Dnskey.fromRecord = signer.dnskeys := by
  have hkept : sectionRecords (records.filter fun r => !remadeTypes.contains r.rtype)
      signer.owner .DNSKEY = [] := by
    refine sectionRecords_eq_nil fun r hr hrtype => ?_
    have hnot := (mem_filter.mp hr).2
    rw [hrtype] at hnot
    exact absurd hnot (by decide)
  have hcds : sectionRecords (signer.cdsCdnskeyRecords digest 3600) signer.owner
      .DNSKEY = [] := by
    refine sectionRecords_eq_nil fun r hr hrtype => ?_
    rcases (mem_cdsCdnskeyRecords hr).1 with h | h <;> exact absurd (h.symm.trans hrtype) (by decide)
  have hdenial : sectionRecords (denialRecords digest sha1 records signer mode)
      signer.owner .DNSKEY = [] := by
    refine sectionRecords_eq_nil fun r hr hrtype => ?_
    have hmem := (denialRecords_rtype hr).1
    rw [hrtype] at hmem
    exact absurd hmem (by decide)
  have hkeys : sectionRecords (signer.dnskeyRecords 3600) signer.owner .DNSKEY =
      signer.dnskeyRecords 3600 := by
    refine filter_eq_self.mpr fun r hr => ?_
    obtain ⟨key, -, rfl⟩ := mem_map.mp hr
    simp [ZoneSigner.apexRecord, eqIgnoreCase_path]
  rw [sectionRecords_signZoneWith _ (by decide), unsignedRecords, keyedRecords,
    sectionRecords_append, sectionRecords_append, sectionRecords_append, hkept, hcds, hdenial, hkeys,
    nil_append, append_nil, append_nil, ZoneSigner.dnskeyRecords,
    filterMap_map]
  have hparse : (Dnskey.fromRecord ∘ fun key : Dnskey =>
      signer.apexRecord .DNSKEY 3600 key.rdataBytes) = some :=
    funext fun key => dnskey_parse_rdataBytes key
  rw [hparse, filterMap_some]

end Output

end OnetDns.Dnssec
