import OnetDns.Dnssec.Nsec

/-!
# Keys and signatures

`Dnskey`, `Ds`, `Rrsig` and the validation of record sets in `onetdns-dnssec/src/lib.rs`.
The public-key operations and the digests are parameters: nothing here depends on how they
compute.
-/
namespace OnetDns.Dnssec
open Dns

/-- What validation takes from outside: the check of a signature by algorithm, public key
and data, the digests by their type, and the setting that lets expired signatures pass. -/
structure Env where
  verify : (algorithm : UInt8) → (publicKey data signature : Bytes) → Bool
  digest : (digestType : UInt8) → Bytes → Bytes
  acceptExpired : Bool

inductive DnssecError where
  | unsupported (number : UInt8)
  | badKey
  | badSignature
  | badDigest
  | invalid

structure Dnskey where
  flags : UInt16
  protocol : UInt8
  algorithm : UInt8
  publicKey : Bytes
  deriving DecidableEq

namespace Dnskey

def parse (raw : Bytes) : Option Dnskey :=
  match raw with
  | f₁ :: f₂ :: protocol :: algorithm :: publicKey =>
    some ⟨ofBe16 [f₁, f₂], protocol, algorithm, publicKey⟩
  | _ => none

/-- `from_record`: the data is kept raw. -/
def fromRecord (rec : Record) : Option Dnskey :=
  match rec.rdata with
  | .unknown _ raw => parse raw
  | _ => none

variable (k : Dnskey)

def rdataBytes : Bytes := be16 k.flags ++ k.protocol :: k.algorithm :: k.publicKey

/-- The bytes of the key in pairs, the last one padded with zero. -/
def sumPairs : Bytes → ℕ
  | [] => 0
  | [hi] => hi.toNat * 256
  | hi :: lo :: rest => hi.toNat * 256 + lo.toNat + sumPairs rest

/-- `key_tag`: the ones' complement sum of the data. -/
def keyTag : UInt16 :=
  let ac := k.flags.toNat + (k.protocol.toNat * 256 + k.algorithm.toNat) + sumPairs k.publicKey
  UInt16.ofNat (ac + ac / 65536 % 65536)

def isZoneKey : Bool := k.flags &&& 0x0100 != 0
def isSep : Bool := k.flags &&& 0x0001 != 0
def isRevoked : Bool := k.flags &&& 0x0080 != 0

end Dnskey

structure Ds where
  keyTag : UInt16
  algorithm : UInt8
  digestType : UInt8
  digest : Bytes

namespace Ds

def parse (raw : Bytes) : Option Ds :=
  match raw with
  | t₁ :: t₂ :: algorithm :: digestType :: digest =>
    some ⟨ofBe16 [t₁, t₂], algorithm, digestType, digest⟩
  | _ => none

def fromRecord (rec : Record) : Option Ds :=
  match rec.rdata with
  | .unknown _ raw => parse raw
  | _ => none

end Ds

structure Rrsig where
  typeCovered : RecordType
  algorithm : UInt8
  labels : UInt8
  originalTtl : UInt32
  expiration : UInt32
  inception : UInt32
  keyTag : UInt16
  signer : Name
  signature : Bytes

/-- `canonical_name_into`: a name without compression, in lower case. -/
def canonicalName (n : Name) : Bytes := wireOf (lowerLabels n.labels)

namespace Rrsig

/-- The fields before the signature, with an empty one in its place. -/
def readHead : ReadM Rrsig := do
  let typeCovered ← Reader.u16
  let algorithm ← Reader.u8
  let labels ← Reader.u8
  let originalTtl ← Reader.u32
  let expiration ← Reader.u32
  let inception ← Reader.u32
  let keyTag ← Reader.u16
  let signer ← Name.parse
  return ⟨typeCovered, algorithm, labels, originalTtl, expiration, inception, keyTag, signer, []⟩

def parse (raw : Bytes) : Option Rrsig :=
  match readHead (Reader.new raw) with
  | .error _ => none
  | .ok (head, r) =>
    if raw.length < r.pos then none else some { head with signature := raw.drop r.pos }

def fromRecord (rec : Record) : Option Rrsig :=
  match rec.rdata with
  | .unknown _ raw => parse raw
  | _ => none

def rdataBytes (sig : Rrsig) : Bytes :=
  be16 sig.typeCovered ++ sig.algorithm :: sig.labels ::
    (be32 sig.originalTtl ++ be32 sig.expiration ++ be32 sig.inception ++ be16 sig.keyTag ++
      canonicalName sig.signer ++ sig.signature)

end Rrsig

/-- `owner_for_signing`: the wildcard that an answer was expanded from. -/
def ownerForSigning (name : Name) (labels : UInt8) : Name :=
  if labels.toNat < name.numLabels then
    match Name.fromLabels ([42] :: (name.suffix labels.toNat).labels) with
    | .ok owner => owner
    | .error _ => name
  else name

def charString (s : Bytes) : Bytes := UInt8.ofNat s.length :: s

def canonicalRdata : RData → Bytes
  | .a ip => ip.bytes
  | .aaaa ip => ip.bytes
  | .ns n => canonicalName n
  | .cname n => canonicalName n
  | .dname n => canonicalName n
  | .ptr n => canonicalName n
  | .mx preference exchange => be16 preference ++ canonicalName exchange
  | .txt chunks => chunks.flatMap charString
  | .soa s =>
    canonicalName s.mname ++ canonicalName s.rname ++ be32 s.serial ++ be32 s.refresh ++
      be32 s.retry ++ be32 s.expire ++ be32 s.minimum
  | .srv priority weight port target =>
    be16 priority ++ be16 weight ++ be16 port ++ canonicalName target
  | .caa flags tag value => flags :: charString tag ++ value
  | .tlsa usage selector matching data => usage :: selector :: matching :: data
  | .sshfp algorithm fpType fingerprint => algorithm :: fpType :: fingerprint
  | .naptr n =>
    be16 n.order ++ be16 n.preference ++ charString n.flags ++ charString n.services ++
      charString n.regexp ++ canonicalName n.replacement
  | .uri priority weight target => be16 priority ++ be16 weight ++ target
  | .svcb s => svcbData s
  | .https s => svcbData s
  | .unknown _ raw => raw
where
  /-- The target of SVCB and HTTPS keeps its case. -/
  svcbData (s : Svcb) : Bytes :=
    be16 s.priority ++ wireOf s.target.labels ++
      s.params.flatMap fun (key, val) => be16 key ++ be16 (UInt16.ofNat val.length) ++ val

/-- The order of byte strings. -/
def bytesLe : Bytes → Bytes → Bool
  | [], _ => true
  | _ :: _, [] => false
  | x :: a, y :: b => x < y || (x == y && bytesLe a b)

/-- `signed_data`: the octets that a signature covers. -/
def signedData (rrsig : Rrsig) (rrset : List Record) : Bytes :=
  let header := be16 rrsig.typeCovered ++ rrsig.algorithm :: rrsig.labels ::
    (be32 rrsig.originalTtl ++ be32 rrsig.expiration ++ be32 rrsig.inception ++
      be16 rrsig.keyTag ++ canonicalName rrsig.signer)
  let items := rrset.map fun record => (canonicalRdata record.rdata, record)
  let sorted := items.insertionSort fun a b => bytesLe a.1 b.1 = true
  header ++ sorted.flatMap fun (crdata, record) =>
    canonicalName (ownerForSigning record.name rrsig.labels) ++ be16 rrsig.typeCovered ++
      be16 record.class' ++ be32 rrsig.originalTtl ++ be16 (UInt16.ofNat crdata.length) ++ crdata

def signatureAlgorithmSupported (algorithm : UInt8) : Bool := [8, 10, 13, 14, 15].contains algorithm

def rrsigAppliesToRrset (rrsig : Rrsig) (first : Record) : Bool :=
  rrsig.typeCovered == first.rtype && rrsig.labels.toNat ≤ first.name.numLabels &&
    first.name.endsWithIgnoreCase rrsig.signer

/-- `validate_rrset_shape`: one owner, class and type; the first record. -/
def validateRrsetShape (rrset : List Record) : Option Record :=
  match rrset with
  | [] => none
  | first :: rest =>
    if (first :: rest).any fun record =>
      record.rtype != first.rtype || record.class' != first.class' ||
        !record.name.eqIgnoreCase first.name
    then none
    else some first

variable (env : Env)

def verifyRrsigCrypto (rrset : List Record) (rrsig : Rrsig) (key : Dnskey) : Bool :=
  signatureAlgorithmSupported key.algorithm &&
    env.verify key.algorithm key.publicKey (signedData rrsig rrset) rrsig.signature

def verifyRrsig (rrset : List Record) (rrsig : Rrsig) (key : Dnskey) : Bool :=
  match validateRrsetShape rrset with
  | none => false
  | some first =>
    rrsig.algorithm == key.algorithm && rrsigAppliesToRrset rrsig first &&
      verifyRrsigCrypto env rrset rrsig key

def serialLe (a b : UInt32) : Bool := b - a < 0x80000000

def rrsigTimeValidAccepting (rrsig : Rrsig) (now : UInt32) (acceptExpired : Bool) : Bool :=
  serialLe rrsig.inception now && (acceptExpired || serialLe now rrsig.expiration)

def maxSignatureVerifications : ℕ := 8

/-- Whether a key is tried for a signature. -/
def isCandidate (sig : Rrsig) (k : Dnskey) : Bool :=
  sig.keyTag == k.keyTag && sig.algorithm == k.algorithm && k.protocol == 3 && k.isZoneKey &&
    !k.isRevoked

/-- Whether a signature is tried at all. -/
def isUsable (expectedSigner : Option Name) (now : UInt32) (first : Record)
    (sig : Rrsig) : Bool :=
  expectedSigner.all sig.signer.eqIgnoreCase && rrsigAppliesToRrset sig first &&
    signatureAlgorithmSupported sig.algorithm &&
    rrsigTimeValidAccepting sig now env.acceptExpired

section Validate

variable (env : Env) (rrset : List Record) (predicate : Rrsig → ℕ → Bool × ℕ)

/-- The keys for one signature, with the attempts made so far. -/
def tryKeys (sig : Rrsig) : List Dnskey → ℕ → Except DnssecError Bool × ℕ
  | [], attempts => (.ok false, attempts)
  | k :: rest, attempts =>
    if !isCandidate sig k then tryKeys sig rest attempts
    else if maxSignatureVerifications ≤ attempts then (.error .badSignature, attempts)
    else if verifyRrsigCrypto env rrset sig k then
      match predicate sig (attempts + 1) with
      | (true, attempts) => (.ok true, attempts)
      | (false, attempts) => tryKeys sig rest attempts
    else tryKeys sig rest (attempts + 1)

/-- The signatures one after the other. -/
def tryRrsigs (expectedSigner : Option Name) (now : UInt32) (keys : List Dnskey)
    (first : Record) : List Rrsig → ℕ → Except DnssecError Unit × ℕ
  | [], attempts => (.error .badSignature, attempts)
  | sig :: rest, attempts =>
    if !isUsable env expectedSigner now first sig then
      tryRrsigs expectedSigner now keys first rest attempts
    else
      match tryKeys env rrset predicate sig keys attempts with
      | (.error e, attempts) => (.error e, attempts)
      | (.ok true, attempts) => (.ok (), attempts)
      | (.ok false, attempts) => tryRrsigs expectedSigner now keys first rest attempts

/-- `validate_rrset_for_signer`; the attempts are counted over a whole response. -/
def validateRrsetForSigner (rrsigs : List Rrsig) (keys : List Dnskey) (now : UInt32)
    (expectedSigner : Option Name) (attempts : ℕ) : Except DnssecError Unit × ℕ :=
  match validateRrsetShape rrset with
  | none => (.error .invalid, attempts)
  | some first => tryRrsigs env rrset predicate expectedSigner now keys first rrsigs attempts

end Validate

def validateRrsetInZoneWithBudget (rrset : List Record) (rrsigs : List Rrsig)
    (keys : List Dnskey) (zone : Name) (now : UInt32) (attempts : ℕ) :
    Except DnssecError Unit × ℕ :=
  validateRrsetForSigner env rrset (fun _ attempts => (true, attempts)) rrsigs keys now
    (some zone) attempts

def validateRrsetInZone (rrset : List Record) (rrsigs : List Rrsig)
    (keys : List Dnskey) (zone : Name) (now : UInt32) : Except DnssecError Unit :=
  (validateRrsetInZoneWithBudget env rrset rrsigs keys zone now 0).1

/-- A record set carries a signature of the zone that a key verifies. -/
structure SignedBy (env : Env) (rrset : List Record) (zone : Name) (sig : Rrsig) (k : Dnskey) :
    Prop where
  shape : ∃ first, validateRrsetShape rrset = some first ∧ rrsigAppliesToRrset sig first = true
  signer : sig.signer.path = zone.path
  candidate : isCandidate sig k = true
  verified : verifyRrsigCrypto env rrset sig k = true

section Sound

variable {env : Env} {rrset : List Record} {predicate : Rrsig → ℕ → Bool × ℕ}

variable {keys : List Dnskey} {attempts : ℕ}

lemma tryKeys_sound {sig : Rrsig}
    (h : (tryKeys env rrset predicate sig keys attempts).1 = .ok true) :
    ∃ k ∈ keys, isCandidate sig k = true ∧ verifyRrsigCrypto env rrset sig k = true ∧
      ∃ tried, (predicate sig tried).1 = true := by
  induction keys generalizing attempts with
  | nil => cases h
  | cons k rest ih =>
    have hlater : ∀ {attempts}, (tryKeys env rrset predicate sig rest attempts).1 = .ok true →
        ∃ k' ∈ k :: rest, isCandidate sig k' = true ∧ verifyRrsigCrypto env rrset sig k' = true ∧
          ∃ tried, (predicate sig tried).1 = true := by
      intro attempts hrest
      obtain ⟨k', hmem, hk'⟩ := ih hrest
      exact ⟨k', List.mem_cons_of_mem _ hmem, hk'⟩
    unfold tryKeys at h
    split at h
    · exact hlater h
    rename_i hcandidate
    split at h
    · cases h
    split at h
    · rename_i hverified
      split at h
      · rename_i hpredicate
        refine ⟨k, List.mem_cons_self, by simpa using hcandidate, hverified, attempts + 1, ?_⟩
        rw [hpredicate]
      · exact hlater h
    · exact hlater h

variable {rrsigs : List Rrsig} {now : UInt32}

lemma tryRrsigs_sound {expectedSigner : Option Name} {first : Record}
    (h : (tryRrsigs env rrset predicate expectedSigner now keys first rrsigs attempts).1 = .ok ()) :
    ∃ sig ∈ rrsigs, isUsable env expectedSigner now first sig = true ∧
      ∃ k ∈ keys, isCandidate sig k = true ∧ verifyRrsigCrypto env rrset sig k = true ∧
        ∃ tried, (predicate sig tried).1 = true := by
  induction rrsigs generalizing attempts with
  | nil => cases h
  | cons sig rest ih =>
    have hlater : ∀ {attempts},
        (tryRrsigs env rrset predicate expectedSigner now keys first rest attempts).1 = .ok () →
        ∃ sig' ∈ sig :: rest, isUsable env expectedSigner now first sig' = true ∧
          ∃ k ∈ keys, isCandidate sig' k = true ∧ verifyRrsigCrypto env rrset sig' k = true ∧
            ∃ tried, (predicate sig' tried).1 = true := by
      intro attempts hrest
      obtain ⟨sig', hmem, hsig'⟩ := ih hrest
      exact ⟨sig', List.mem_cons_of_mem _ hmem, hsig'⟩
    unfold tryRrsigs at h
    split at h
    · exact hlater h
    rename_i husable
    split at h
    · cases h
    · rename_i hkeys
      exact ⟨sig, List.mem_cons_self, by simpa using husable, tryKeys_sound (by rw [hkeys])⟩
    · exact hlater h

/-- A record set that validates carries a signature of one of the keys. -/
theorem validateRrsetForSigner_sound {zone : Name}
    (h : (validateRrsetForSigner env rrset predicate rrsigs keys now (some zone) attempts).1 = .ok
      ()) : ∃ sig ∈ rrsigs, ∃ k ∈ keys, SignedBy env rrset zone sig k ∧
      rrsigTimeValidAccepting sig now env.acceptExpired = true ∧
      ∃ tried, (predicate sig tried).1 = true := by
  unfold validateRrsetForSigner at h
  split at h
  · cases h
  rename_i first hshape
  obtain ⟨sig, hmem, husable, k, hk, hcandidate, hverified, hpredicate⟩ := tryRrsigs_sound h
  simp only [isUsable, Bool.and_eq_true] at husable
  obtain ⟨⟨⟨hsigner, happlies⟩, -⟩, htime⟩ := husable
  exact ⟨sig, hmem, k, hk, ⟨⟨first, hshape, happlies⟩, (Name.eqIgnoreCase_path _ _).mp hsigner,
    hcandidate, hverified⟩, htime, hpredicate⟩

lemma validateRrsetInZone_sound {zone : Name} (h : validateRrsetInZone env rrset rrsigs keys zone now = .ok ()) :
    ∃ sig ∈ rrsigs, ∃ k ∈ keys, SignedBy env rrset zone sig k := by
  obtain ⟨sig, hsig, k, hk, hsigned, -⟩ := validateRrsetForSigner_sound h
  exact ⟨sig, hsig, k, hk, hsigned⟩

end Sound

end OnetDns.Dnssec
