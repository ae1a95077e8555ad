import OnetDns.Dnssec.Signature
import OnetDns.Dnssec.Denial3

/-!
# The chain of trust

`validate_dnskey_set`, `classify_ds_absence` with its signatures, and the walk along a chain
of zones in `onetdns-dnssec/src/lib.rs`.
-/
namespace OnetDns.Dnssec
open Dns List Option Name ValidatedNsec3Set

def maxDsDigestComputations : ℕ := 32

def dsDigestInput (key : Dnskey) (owner : Name) : Bytes := canonicalName owner ++ key.rdataBytes

def digestLength (digestType : UInt8) : Option ℕ :=
  if digestType = 2 then some 32 else if digestType = 4 then some 48 else none

/-- The digests to compare with, for a tag, an algorithm and a digest type. -/
def trustedDigests (trustedDs : List Ds) (tag : UInt16) (algorithm digestType : UInt8) :
    List Bytes :=
  (trustedDs.filter fun ds =>
    digestLength ds.digestType == some ds.digest.length && ds.keyTag == tag &&
      ds.algorithm == algorithm && ds.digestType == digestType).map Ds.digest

/-- The loop of `trusted_ds_matches_key` over the digest types. -/
def matchDigests (env : Env) (key : Dnskey) (zone : Name) (trustedDs : List Ds) :
    List UInt8 → ℕ → Except DnssecError Bool × ℕ
  | [], used => (.ok false, used)
  | digestType :: rest, used =>
    let candidates := trustedDigests trustedDs key.keyTag key.algorithm digestType
    if candidates = [] then matchDigests env key zone trustedDs rest used
    else if maxDsDigestComputations ≤ used then (.error .badSignature, used)
    else if candidates.contains (env.digest digestType (dsDigestInput key zone)) then
      (.ok true, used + 1)
    else matchDigests env key zone trustedDs rest (used + 1)

variable (env : Env)

def trustedDsMatchesKey (key : Dnskey) (zone : Name) (trustedDs : List Ds) (used : ℕ) :
    Except DnssecError Bool × ℕ :=
  matchDigests env key zone trustedDs [2, 4] used

def candidateKsks (env : Env) (zone : Name) (trustedDs : List Ds) :
    List Dnskey → ℕ → Except DnssecError (List Dnskey)
  | [], _ => .ok []
  | key :: rest, used =>
    if key.protocol ≠ 3 ∨ key.isZoneKey = false ∨ key.isRevoked then
      candidateKsks env zone trustedDs rest used
    else
      match trustedDsMatchesKey env key zone trustedDs used with
      | (.error e, _) => .error e
      | (.ok true, used) => (candidateKsks env zone trustedDs rest used).map (key :: ·)
      | (.ok false, used) => candidateKsks env zone trustedDs rest used

/-- `validate_dnskey_set`. The loop over signatures and keys is that of
`validate_rrset_for_signer`; the candidates have passed its checks of protocol and flags. -/
def validateDnskeySet (dnskeys : List Record) (rrsigs : List Rrsig)
    (trustedDs : List Ds) (zone : Name) (now : UInt32) : Except DnssecError (List Dnskey) :=
  match dnskeys with
  | [] => .error .invalid
  | first :: _ =>
    if dnskeys.any fun record =>
      record.rtype != .DNSKEY || !record.name.eqIgnoreCase zone
    then .error .invalid
    else
      let keys := dnskeys.filterMap Dnskey.fromRecord
      if keys = [] then .error .invalid
      else
        match candidateKsks env zone trustedDs keys 0 with
        | .error e => .error e
        | .ok [] => .error .invalid
        | .ok candidates =>
          match (tryRrsigs env dnskeys (fun _ attempts => (true, attempts)) (some zone) now
            candidates first rrsigs 0).1 with
          | .error e => .error e
          | .ok () => .ok keys

/-- What came along with an answer without DS. -/
structure DenialEvidence where
  nsec : List Record
  nsecRrsigs : List Rrsig
  nsec3 : List Record
  nsec3Rrsigs : List Rrsig

section Classify

variable (env : Env) (sha1 : Bytes → Bytes) (keys : List Dnskey) (zone : Name) (now : UInt32)

/-- The loop of `denial_proof_valid`, with the attempts made so far. -/
def recordsSigned (sigs : List Rrsig) (rtype : RecordType) : List Record → ℕ → Bool × ℕ
  | [], attempts => (true, attempts)
  | record :: rest, attempts =>
    if record.rtype ≠ rtype then (false, attempts)
    else
      match validateRrsetInZoneWithBudget env [record] sigs keys zone now attempts with
      | (.ok (), attempts) => recordsSigned sigs rtype rest attempts
      | (.error _, attempts) => (false, attempts)

def dsNsecSelection (nsec : List Record) (child : Name) : Option (Record × DsAbsence) :=
  match nsec.find? fun record =>
      record.rtype == .NSEC && record.name.eqIgnoreCase child with
  | some record =>
    (Nsec.fromRecord record).map fun parsed =>
      (record, .ofBitmap (parsed.hasType .NS) (parsed.hasType .DS) (parsed.hasType .SOA))
  | none => (nsecCoveringRecord nsec child).map fun record => (record, .notACut)

/-- The NSEC3 records that tell about a child, and what they tell. -/
def dsNsec3Selection (nsec3 : List Record) (child : Name) : Option (List Record × DsAbsence) :=
  match ValidatedNsec3Set.new nsec3 child with
  | none => none
  | some prepared =>
    match prepared.matchingRecord sha1 child 0 with
    | (some record, _) =>
      (Nsec3Ref.fromRecord record).map fun parsed =>
        ([record], .ofBitmap (parsed.hasType .NS) (parsed.hasType .DS) (parsed.hasType .SOA))
    | (none, used) =>
      match prepared.closestEncloserRecord sha1 child used with
      | (none, _) => none
      | (some (encloser, encloserRecord), used) =>
        match prepared.coveringRecordWithOptOutStatus sha1
            (child.suffix (encloser.numLabels + 1)) used with
        | (none, _) => none
        | (some (covering, optOut), _) =>
          some (uniqueRecords [encloserRecord, covering],
            if optOut then .insecureDelegation else .notACut)

/-- `classify_ds_absence` with the signatures of the evidence: the records that tell about
the child are chosen first, then their signatures are checked. -/
def classifySigned (evidence : DenialEvidence) (child : Name) : DsAbsence :=
  let (verdict, attempts) :=
    match dsNsecSelection evidence.nsec child with
    | none => (none, 0)
    | some (record, verdict) =>
      match recordsSigned env keys zone now evidence.nsecRrsigs .NSEC [record] 0 with
      | (true, attempts) => (some verdict, attempts)
      | (false, attempts) => (none, attempts)
  match verdict with
  | some verdict => verdict
  | none =>
    match dsNsec3Selection sha1 evidence.nsec3 child with
    | none => .unproven
    | some (proof, verdict) =>
      if (recordsSigned env keys zone now evidence.nsec3Rrsigs .NSEC3 proof attempts).1
      then verdict else .unproven

end Classify

structure ChainLink where
  zone : Name
  dnskeys : List Record
  dnskeyRrsigs : List Rrsig
  dsRecords : List Record
  dsRrsigs : List Rrsig
  evidence : DenialEvidence
  ds : List Ds

inductive ChainStatus where
  | secure (keys : List Dnskey)
  | insecure
  | bogus
  deriving DecidableEq

def dsIsSupported (ds : Ds) : Bool :=
  [8, 10, 13, 14, 15].contains ds.algorithm && [2, 4].contains ds.digestType

variable (sha1 : Bytes → Bytes)

def dsAbsenceProven (link : ChainLink) (childZone : Name)
    (parentKeys : List Dnskey) (now : UInt32) : Bool :=
  classifySigned env sha1 parentKeys link.zone now link.evidence childZone == .insecureDelegation

section Walk

variable (env : Env) (sha1 : Bytes → Bytes) (now : UInt32) (requireDsAbsenceProof : Bool)

/-- The loop of `validate_chain_status_with_options`. -/
def walkChain : List ChainLink → (trustedDs : List Ds) → (keys : List Dnskey) → ChainStatus
  | [], _, keys => .secure keys
  | link :: rest, trustedDs, _ =>
    match validateDnskeySet env link.dnskeys link.dnskeyRrsigs trustedDs link.zone now with
    | .error _ => .bogus
    | .ok keys =>
      if link.dsRecords = [] then
        match rest with
        | [] => .secure keys
        | next :: _ =>
          if requireDsAbsenceProof && !dsAbsenceProven env sha1 link next.zone keys now then .bogus
          else .insecure
      else
        match validateRrsetInZone env link.dsRecords link.dsRrsigs keys link.zone now with
        | .error _ => .bogus
        | .ok () =>
          let supportedDs := link.ds.filter dsIsSupported
          if supportedDs = [] ∧ rest ≠ [] then .insecure
          else walkChain rest supportedDs keys

def validateChainStatusWithOptions (rootAnchors : List Ds) (links : List ChainLink) : ChainStatus :=
  walkChain env sha1 now requireDsAbsenceProof links rootAnchors []

end Walk

/-- What the owners of keys have signed, by algorithm, public key and data. -/
abbrev Signed := UInt8 → Bytes → Bytes → Prop

/-- Signatures verify only for data that the owner of the key has signed. -/
def Unforgeable (signed : Signed) : Prop :=
  ∀ algorithm publicKey data signature,
    env.verify algorithm publicKey data signature = true → signed algorithm publicKey data

/-- The signature is over the set under the owner it stands at, and not over a wildcard that it
was expanded from. -/
def InPlace (sig : Rrsig) (rrset : List Record) : Prop :=
  ∀ first, rrset.head? = some first → (ownerForSigning first.name sig.labels).path = first.name.path

/-- No signature of a wildcard verifies for the set. -/
def Unexpanded (sigs : List Rrsig) (rrset : List Record) : Prop :=
  ∀ sig ∈ sigs, ∀ k, verifyRrsigCrypto env rrset sig k = true → InPlace sig rrset

def DenialEvidence.Unexpanded (env : Env) (evidence : DenialEvidence) : Prop :=
  (∀ r ∈ evidence.nsec, Dnssec.Unexpanded env evidence.nsecRrsigs [r]) ∧
    ∀ r ∈ evidence.nsec3, Dnssec.Unexpanded env evidence.nsec3Rrsigs [r]

structure ChainLink.Unexpanded (env : Env) (link : ChainLink) : Prop where
  dnskeys : Dnssec.Unexpanded env link.dnskeyRrsigs link.dnskeys
  ds : Dnssec.Unexpanded env link.dsRrsigs link.dsRecords
  evidence : link.evidence.Unexpanded env

/-- One of the keys of the zone has signed the record set, for the owner it stands at. -/
def SignedSet (signed : Signed) (keys : List Dnskey) (zone : Name) (rrset : List Record) : Prop :=
  ∃ k ∈ keys, ∃ sig : Rrsig, sig.signer.path = zone.path ∧ InPlace sig rrset ∧
    (∃ first, rrset.head? = some first ∧ rrsigAppliesToRrset sig first = true) ∧
    signed k.algorithm k.publicKey (signedData sig rrset)

/-- The DS stands for the key of the zone, and for no other key or zone. -/
structure StandsFor (env : Env) (ds : Ds) (key : Dnskey) (zone : Name) : Prop where
  tag : ds.keyTag = key.keyTag
  algorithm : ds.algorithm = key.algorithm
  digest : ds.digest = env.digest ds.digestType (dsDigestInput key zone)
  only : ∀ key' zone', ds.digest = env.digest ds.digestType (dsDigestInput key' zone') →
    key' = key ∧ zone'.path = zone.path

/-- Digests of the types that are used do not collide. -/
def DigestsInjective : Prop :=
  ∀ digestType, digestLength digestType ≠ none → Function.Injective (env.digest digestType)

lemma rdataBytes_injective {a b : Dnskey} (h : a.rdataBytes = b.rdataBytes) : a = b := by
  have hlen : (be16 a.flags).length = (be16 b.flags).length := by rw [be16_length, be16_length]
  obtain ⟨hflags, hrest⟩ := append_inj h hlen
  have hsame : a.flags = b.flags := by
    rw [← ofBe16_be16 a.flags, hflags, ofBe16_be16]
  cases a
  simp_all

lemma dsDigestInput_injective {key key' : Dnskey} {zone zone' : Name}
    (h : dsDigestInput key zone = dsDigestInput key' zone') :
    key = key' ∧ zone.path = zone'.path := by
  obtain ⟨hlabels, hkey⟩ := wireOf_append_inj (lower_label_len zone.label_len)
    (lower_label_len zone'.label_len) h
  exact ⟨rdataBytes_injective hkey, (eqIgnoreCase_path _ _).mp ((eqIgnoreCase_iff _ _).mpr hlabels)⟩

section Keys

variable {env : Env} {signed : Signed} {zone : Name} {now : UInt32}

lemma inPlace_of_labels {sig : Rrsig} {rrset : List Record}
    (h : ∀ r ∈ rrset, r.name.numLabels ≤ sig.labels.toNat) : InPlace sig rrset := by
  intro first hfirst
  rw [ownerForSigning, if_neg (not_lt.mpr (h first (mem_of_head? hfirst)))]

lemma unexpanded_of_labels {sigs : List Rrsig} {rrset : List Record}
    (h : ∀ sig ∈ sigs, ∀ r ∈ rrset, r.name.numLabels ≤ sig.labels.toNat) :
    Unexpanded env sigs rrset := fun sig hsig _ _ => inPlace_of_labels (h sig hsig)

lemma signedSet_of_signedBy (hunforgeable : Unforgeable env signed) {rrset : List Record}
    {sigs : List Rrsig} (hplace : Unexpanded env sigs rrset) {sig : Rrsig} (hsig : sig ∈ sigs)
    {k : Dnskey} {keys : List Dnskey} (h : SignedBy env rrset zone sig k) (hk : k ∈ keys) :
    SignedSet signed keys zone rrset := by
  obtain ⟨first, hshape, happlies⟩ := h.shape
  refine ⟨k, hk, sig, h.signer, hplace sig hsig k h.verified, ⟨first, ?_, happlies⟩, ?_⟩
  · unfold validateRrsetShape at hshape
    split at hshape
    · cases hshape
    · split at hshape
      · cases hshape
      · exact hshape
  · have hverified := h.verified
    rw [verifyRrsigCrypto, Bool.and_eq_true] at hverified
    exact hunforgeable _ _ _ _ hverified.2

lemma matchDigests_sound {key : Dnskey} {trustedDs : List Ds} {types : List UInt8} {used : ℕ}
    (h : (matchDigests env key zone trustedDs types used).1 = .ok true) :
    ∃ ds ∈ trustedDs, digestLength ds.digestType ≠ none ∧ ds.keyTag = key.keyTag ∧
      ds.algorithm = key.algorithm ∧
      ds.digest = env.digest ds.digestType (dsDigestInput key zone) := by
  induction types generalizing used with
  | nil => cases h
  | cons digestType rest ih =>
    unfold matchDigests at h
    simp only at h
    split at h
    · exact ih h
    split at h
    · cases h
    split at h
    · rename_i hcontains
      rw [contains_iff_mem] at hcontains
      obtain ⟨ds, hds, hdigest⟩ := mem_map.mp hcontains
      obtain ⟨hmem, hds⟩ := mem_filter.mp hds
      simp only [Bool.and_eq_true, beq_iff_eq] at hds
      obtain ⟨⟨⟨hlength, htag⟩, halgorithm⟩, rfl⟩ := hds
      exact ⟨ds, hmem, by rw [hlength]; simp, htag, halgorithm, hdigest⟩
    · exact ih h

lemma candidateKsks_sound (hinjective : DigestsInjective env) {trustedDs : List Ds}
    {keys candidates : List Dnskey} {used : ℕ}
    (h : candidateKsks env zone trustedDs keys used = .ok candidates) :
    ∀ k ∈ candidates, k ∈ keys ∧ ∃ ds ∈ trustedDs, StandsFor env ds k zone := by
  induction keys generalizing used candidates with
  | nil =>
    cases h
    exact fun k hk => absurd hk not_mem_nil
  | cons key rest ih =>
    have hlater : ∀ {used candidates}, candidateKsks env zone trustedDs rest used = .ok candidates →
        ∀ k ∈ candidates, k ∈ key :: rest ∧ ∃ ds ∈ trustedDs, StandsFor env ds k zone :=
      fun hrest k hk => (ih hrest k hk).imp_left (mem_cons_of_mem _)
    unfold candidateKsks at h
    split at h
    · exact hlater h
    split at h
    · cases h
    · rename_i used' hmatch
      cases hrest : candidateKsks env zone trustedDs rest used' with
      | error e =>
        rw [hrest] at h
        cases h
      | ok more =>
        rw [hrest] at h
        cases h
        intro k hk
        rcases mem_cons.mp hk with rfl | hk
        · obtain ⟨ds, hds, htype, htag, halgorithm, hdigest⟩ := matchDigests_sound
            (show (matchDigests env k zone trustedDs [2, 4] used).1 = .ok true by
              rw [← trustedDsMatchesKey, hmatch])
          refine ⟨mem_cons_self, ds, hds, htag, halgorithm, hdigest, ?_⟩
          intro key' zone' hdigest'
          obtain ⟨hkey, hzone⟩ := dsDigestInput_injective
            (hinjective _ htype (hdigest.symm.trans hdigest'))
          exact ⟨hkey.symm, hzone.symm⟩
        · exact hlater hrest k hk
    · exact hlater h

/-- The keys of a zone, in a set that it signed with a key that a trusted DS stands for. -/
structure KeySet (env : Env) (signed : Signed) (trusted : List Ds) (zone : Name)
    (dnskeys : List Record) (keys : List Dnskey) : Prop where
  parsed : keys = dnskeys.filterMap Dnskey.fromRecord
  owned : ∀ r ∈ dnskeys, r.rtype = .DNSKEY ∧ r.name.path = zone.path
  anchored : ∃ k ∈ keys, (∃ ds ∈ trusted, StandsFor env ds k zone) ∧
    SignedSet signed [k] zone dnskeys

lemma validateDnskeySet_sound (hunforgeable : Unforgeable env signed)
    (hinjective : DigestsInjective env) {dnskeys : List Record} {rrsigs : List Rrsig}
    {trusted : List Ds} {keys : List Dnskey} (hplace : Unexpanded env rrsigs dnskeys)
    (h : validateDnskeySet env dnskeys rrsigs trusted zone now = .ok keys) :
    KeySet env signed trusted zone dnskeys keys := by
  unfold validateDnskeySet at h
  split at h
  · cases h
  rename_i first rest
  split at h
  · cases h
  rename_i howned
  simp only at h
  split at h
  · cases h
  split at h
  · cases h
  · cases h
  rename_i candidates hne hcandidates
  split at h
  · cases h
  rename_i hsigned
  cases h
  obtain ⟨sig, hsig, husable, k, hk, hcandidate, hverified, -⟩ := tryRrsigs_sound hsigned
  have hinPlace := hplace sig hsig k hverified
  obtain ⟨hmem, hds⟩ := candidateKsks_sound hinjective hcandidates k hk
  simp only [isUsable, Bool.and_eq_true] at husable
  obtain ⟨⟨⟨hsigner, happlies⟩, -⟩, -⟩ := husable
  rw [verifyRrsigCrypto, Bool.and_eq_true] at hverified
  have hall : ∀ r ∈ first :: rest, r.rtype = .DNSKEY ∧
      r.name.eqIgnoreCase zone = true := by
    simpa using howned
  refine ⟨rfl, fun r hr => ?_, k, hmem, hds, k, mem_singleton_self k, sig,
    (eqIgnoreCase_path _ _).mp hsigner, hinPlace, ⟨first, rfl, happlies⟩,
    hunforgeable _ _ _ _ hverified.2⟩
  exact ⟨(hall r hr).1, (eqIgnoreCase_path _ _).mp (hall r hr).2⟩

end Keys

/-- The bitmap of a delegation without DS. -/
def BareDelegation (hasType : RecordType → Bool) : Prop :=
  hasType .NS = true ∧ hasType .DS = false ∧ hasType .SOA = false

lemma bareDelegation_of_ofBitmap {hasType : RecordType → Bool}
    (h : DsAbsence.ofBitmap (hasType .NS) (hasType .DS) (hasType .SOA)
      = .insecureDelegation) : BareDelegation hasType := by
  unfold DsAbsence.ofBitmap at h
  split at h
  · cases h
  rename_i hclear
  split at h
  · rename_i hns
    simp only [Bool.or_eq_true, not_or, Bool.not_eq_true] at hclear
    exact ⟨hns, hclear⟩
  · cases h

/-- The name has the hash that a record carries as its owner. -/
def HashOwner (name : Name) (r : Record) (parsed : Nsec3Ref) : Prop :=
  Nsec3Ref.fromRecord r = some parsed ∧
    nsec3OwnerHashFixed r = some (nsec3Hash sha1 name parsed.salt parsed.iterations)

def HashCovered (name : Name) (r : Record) (parsed : Nsec3Ref) : Prop :=
  Nsec3Ref.fromRecord r = some parsed ∧ ∃ owner, nsec3OwnerHashFixed r = some owner ∧
    hashCovers owner parsed.nextHashed (nsec3Hash sha1 name parsed.salt parsed.iterations) = true

/-- A proof that the child is a delegation without DS, out of records that were vouched for:
its NSEC or NSEC3 record, or an interval with opt-out next to a name above it. -/
inductive NoDsProof (sha1 : Bytes → Bytes) (vouched : Record → Prop) (evidence : DenialEvidence)
    (child : Name) : Prop
  | nsec (r : Record) (parsed : Nsec) (hr : r ∈ evidence.nsec) (hrtype : r.rtype = .NSEC)
      (howner : r.name.path = child.path) (hparsed : Nsec.fromRecord r = some parsed)
      (hbare : BareDelegation parsed.hasType) (hvouched : vouched r)
  | nsec3 (r : Record) (parsed : Nsec3Ref) (hr : r ∈ evidence.nsec3)
      (hrtype : r.rtype = .NSEC3) (howner : HashOwner sha1 child r parsed)
      (hbare : BareDelegation parsed.hasType) (hvouched : vouched r)
  | optOut (k : ℕ) (hk : k < child.numLabels) (encloser covering : Record)
      (parsed parsed' : Nsec3Ref) (hencloser : encloser ∈ evidence.nsec3)
      (hcovering : covering ∈ evidence.nsec3) (hrtype : encloser.rtype = .NSEC3)
      (howner : HashOwner sha1 (child.suffix k) encloser parsed)
      (hcovered : HashCovered sha1 (child.suffix (k + 1)) covering parsed')
      (hopt : parsed'.optOut = true) (hvouched : vouched encloser) (hvouched' : vouched covering)

section Absence

variable {env : Env} {sha1 : Bytes → Bytes} {signed : Signed} {keys : List Dnskey} {zone : Name}
  {now : UInt32} {evidence : DenialEvidence} {child : Name}

variable {records : List Record}

lemma recordsSigned_sound (hunforgeable : Unforgeable env signed) {sigs : List Rrsig}
    {rtype : RecordType} {attempts : ℕ} (hplace : ∀ r ∈ records, Unexpanded env sigs [r])
    (h : (recordsSigned env keys zone now sigs rtype records attempts).1 = true) :
    ∀ r ∈ records, r.rtype = rtype ∧ SignedSet signed keys zone [r] := by
  induction records generalizing attempts with
  | nil => exact fun r hr => absurd hr not_mem_nil
  | cons record rest ih =>
    rw [forall_mem_cons] at hplace
    unfold recordsSigned at h
    split at h
    · cases h
    rename_i hrtype
    split at h
    · rename_i attempts' hvalid
      intro r hr
      rcases mem_cons.mp hr with rfl | hr
      · obtain ⟨sig, hsig, k, hk, hsigned, -⟩ := validateRrsetForSigner_sound
          (show (validateRrsetInZoneWithBudget env [r] sigs keys zone now attempts).1 = .ok () by
            rw [hvalid])
        exact ⟨not_not.mp hrtype, signedSet_of_signedBy hunforgeable hplace.1 hsig hsigned hk⟩
      · exact ih hplace.2 h r hr
    · cases h

variable {qname : Name}

lemma agree_params {record : Record} {parsed : Nsec3Ref} {before : Option Expected} {e : Expected}
    (h : agree qname record parsed before = some e) :
    (parsed.iterations = e.1 ∧ parsed.salt = e.2.1) ∧ ∀ e', before = some e' → e = e' := by
  unfold agree at h
  split at h
  · split at h
    · rename_i hsame
      obtain rfl := some.inj h
      exact ⟨⟨hsame.1.symm, hsame.2.1.symm⟩, fun e' he => some.inj he⟩
    · cases h
  · dsimp only at h
    split at h
    · obtain rfl := some.inj h
      exact ⟨⟨rfl, rfl⟩, nofun⟩
    · cases h

lemma prepare_params {e : Expected} {prepared : List ValidatedNsec3Record}
    (h : prepare qname records (some e) = some prepared) :
    ∀ vr ∈ prepared, vr.parsed.iterations = e.1 ∧ vr.parsed.salt = e.2.1 := by
  induction records generalizing prepared with
  | nil =>
    obtain rfl := some.inj h
    exact fun vr hvr => absurd hvr not_mem_nil
  | cons record rest ih =>
    rcases prepare_cons h with ⟨-, h⟩ | ⟨parsed, owner, e', more, -, -, hagree, hmore, rfl⟩
    · exact ih h
    obtain ⟨hparams, hsame⟩ := agree_params hagree
    obtain rfl := hsame e rfl
    exact forall_mem_cons.mpr ⟨hparams, ih hmore⟩

lemma prepare_first {first : ValidatedNsec3Record} {rest : List ValidatedNsec3Record}
    (h : prepare qname records none = some (first :: rest)) :
    ∀ vr ∈ first :: rest, vr.parsed.iterations = first.parsed.iterations ∧
      vr.parsed.salt = first.parsed.salt := by
  induction records with
  | nil => cases h
  | cons record more ih =>
    rcases prepare_cons h with ⟨-, h⟩ | ⟨parsed, owner, e, prepared, -, -, hagree, hprepared, heq⟩
    · exact ih h
    obtain ⟨rfl, rfl⟩ := cons.inj heq
    obtain ⟨⟨hiterations, hsalt⟩, -⟩ := agree_params hagree
    dsimp only
    rw [hiterations, hsalt]
    exact forall_mem_cons.mpr ⟨⟨hiterations, hsalt⟩, prepare_params hprepared⟩

lemma nameHash_of_mem {set : ValidatedNsec3Set}
    (h : ValidatedNsec3Set.new records qname = some set) {vr : ValidatedNsec3Record}
    (hvr : vr ∈ set.records) (name : Name) :
    set.nameHash sha1 name = nsec3Hash sha1 name vr.parsed.salt vr.parsed.iterations := by
  unfold ValidatedNsec3Set.new at h
  split at h
  · rename_i first rest hprepare
    obtain rfl := some.inj h
    obtain ⟨hiterations, hsalt⟩ := prepare_first hprepare vr hvr
    rw [nameHash, hiterations, hsalt]
  · cases h

lemma mem_uniqueRecords_pair {a b : Record} :
    (∀ r ∈ uniqueRecords [a, b], r = a ∨ r = b) ∧ a ∈ uniqueRecords [a, b] ∧
      (b ∈ uniqueRecords [a, b] ∨ sameRecord a b = true) := by
  have hfirst : uniqueRecords [a, b] = if sameRecord a b then [a] else [a, b] := by
    simp [uniqueRecords]
  rw [hfirst]
  split
  · rename_i hsame
    exact ⟨fun r hr => .inl (mem_singleton.mp hr), mem_singleton_self a, .inr hsame⟩
  · simp

/-- Case does not matter for what is signed. -/
theorem canonicalName_ownerForSigning {a b : Name} (h : a.eqIgnoreCase b = true) (labels : UInt8) :
    canonicalName (ownerForSigning a labels) = canonicalName (ownerForSigning b labels) := by
  have hlower := (eqIgnoreCase_iff a b).mp h
  have hcount : a.numLabels = b.numLabels := by
    have := congrArg length hlower
    simpa [lowerLabels, Name.numLabels] using this
  have hsuffix : lowerLabels ([42] :: (a.suffix labels.toNat).labels) =
      lowerLabels ([42] :: (b.suffix labels.toNat).labels) := by
    simp only [lowerLabels, Name.suffix, map_cons, map_drop] at hlower ⊢
    rw [hcount, hlower]
  unfold ownerForSigning
  rw [hcount]
  split
  · have hwire : wireLen ([42] :: (a.suffix labels.toNat).labels) =
        wireLen ([42] :: (b.suffix labels.toNat).labels) := by
      rw [← suffixKey_length, ← suffixKey_length, suffixKey, suffixKey, hsuffix]
    have hshort : ∀ n : Name, ∀ l ∈ [42] :: (n.suffix labels.toNat).labels,
        1 ≤ l.length ∧ l.length ≤ 63 := by
      intro n l hl
      rcases mem_cons.mp hl with rfl | hl
      · decide
      · exact (n.suffix labels.toNat).label_len l hl
    by_cases hfit : wireLen ([42] :: (b.suffix labels.toNat).labels) ≤ maxNameLen
    · simp only [Name.fromLabels, dif_pos (hshort a), dif_pos (hshort b), hwire, dif_pos hfit]
      exact congrArg wireOf hsuffix
    · simp only [Name.fromLabels, dif_pos (hshort a), dif_pos (hshort b), hwire, dif_neg hfit]
      exact congrArg wireOf hlower
  · exact congrArg wireOf hlower

lemma path_of_canonicalName {a b : Name} (h : canonicalName a = canonicalName b) :
    a.path = b.path := by
  have hlabels := wireOf_append_inj (lower_label_len a.label_len) (lower_label_len b.label_len)
    (congrArg (· ++ []) h)
  exact (eqIgnoreCase_path _ _).mp ((eqIgnoreCase_iff _ _).mpr hlabels.1)

lemma SignedSet.same {a b : Record} (h : SignedSet signed keys zone [a])
    (hsame : sameRecord a b = true) : SignedSet signed keys zone [b] := by
  simp only [sameRecord, Bool.and_eq_true, beq_iff_eq] at hsame
  obtain ⟨⟨⟨hclass, hrtype⟩, hname⟩, hrdata⟩ := hsame
  have hpath := (eqIgnoreCase_path _ _).mp hname
  obtain ⟨k, hk, sig, hsigner, hplace, ⟨first, hfirst, happlies⟩, hsigned⟩ := h
  obtain rfl := some.inj hfirst
  refine ⟨k, hk, sig, hsigner, fun r hr => ?_, ⟨b, rfl, ?_⟩, ?_⟩
  · obtain rfl := some.inj hr
    rw [← path_of_canonicalName (canonicalName_ownerForSigning hname _), hplace a rfl, hpath]
  · simp only [rrsigAppliesToRrset, Bool.and_eq_true, endsWithIgnoreCase_path,
      ← path_length, hrtype, hpath] at happlies ⊢
    exact happlies
  · have hdata : signedData sig [a] = signedData sig [b] := by
      simp [signedData, canonicalName_ownerForSigning hname, hclass, hrdata]
    rw [← hdata]
    exact hsigned

lemma dsNsecSelection_sound {record : Record}
    (hselect : dsNsecSelection evidence.nsec child = some (record, .insecureDelegation))
    (hsigned : record ∈ evidence.nsec → SignedSet signed keys zone [record]) :
    NoDsProof sha1 (fun r => SignedSet signed keys zone [r]) evidence child := by
  unfold dsNsecSelection at hselect
  split at hselect
  · rename_i found hfind
    have hfound := find?_some hfind
    simp only [Bool.and_eq_true, beq_iff_eq, eqIgnoreCase_path] at hfound
    obtain ⟨parsed, hparsed, hverdict⟩ := map_eq_some_iff.mp hselect
    obtain ⟨rfl, hbits⟩ := Prod.mk.inj hverdict
    have hmem := mem_of_find?_eq_some hfind
    exact .nsec found parsed hmem hfound.1 hfound.2 hparsed
      (bareDelegation_of_ofBitmap hbits) (hsigned hmem)
  · obtain ⟨found, -, hverdict⟩ := map_eq_some_iff.mp hselect
    cases (Prod.mk.inj hverdict).2

/-- What chosen NSEC3 records prove. -/
theorem dsNsec3Selection_sound {proof : List Record}
    (hselect : dsNsec3Selection sha1 evidence.nsec3 child = some (proof, .insecureDelegation))
    (hsigned : proof ⊆ evidence.nsec3 →
      ∀ r ∈ proof, r.rtype = .NSEC3 ∧ SignedSet signed keys zone [r]) :
    NoDsProof sha1 (fun r => SignedSet signed keys zone [r]) evidence child := by
  unfold dsNsec3Selection at hselect
  split at hselect
  · cases hselect
  rename_i set hnew
  split at hselect
  · rename_i record used hmatch
    obtain ⟨vr, hvr, rfl, howner⟩ := matchingRecord_some
      (show (set.matchingRecord sha1 child 0).1 = some record by rw [hmatch])
    obtain ⟨hmem, hparsed, hhash⟩ := mem_new hnew hvr
    rw [hparsed] at hselect
    obtain ⟨rfl, hverdict⟩ := Prod.mk.inj (some.inj hselect)
    obtain ⟨hrtype, hvouched⟩ := hsigned (by simpa using hmem) vr.source (mem_singleton_self _)
    refine .nsec3 vr.source vr.parsed hmem hrtype ⟨hparsed, ?_⟩
      (bareDelegation_of_ofBitmap hverdict) hvouched
    rw [hhash, howner, nameHash_of_mem hnew hvr]
  rename_i used hmatch
  split at hselect
  · cases hselect
  rename_i encloser encloserRecord used' hce
  split at hselect
  · cases hselect
  rename_i covering optOut used'' hcovering
  obtain ⟨hproof, hverdict⟩ := Prod.mk.inj (some.inj hselect)
  have hopt : optOut = true := by
    by_contra hnot
    rw [if_neg hnot] at hverdict
    cases hverdict
  obtain ⟨k, hk, rfl, vr, hvr, rfl, howner⟩ := closestEncloserFrom_some
    (show (set.closestEncloserFrom sha1 child child.numLabels used).1 =
      some (encloser, encloserRecord) by
        rw [← closestEncloserRecord, hce])
  have hlabels : (child.suffix k).numLabels = k := by
    rw [suffix_numLabels]
    omega
  rw [hlabels] at hcovering
  obtain ⟨⟨vr', hvr', rfl, hcovers⟩, hall⟩ :=
    coveringRecordWithOptOutStatus_some
      (show (set.coveringRecordWithOptOutStatus sha1 (child.suffix (k + 1)) used').1 =
        some (covering, optOut) by rw [hcovering])
  obtain ⟨hmem, hparsed, hhash⟩ := mem_new hnew hvr
  obtain ⟨hmem', hparsed', hhash'⟩ := mem_new hnew hvr'
  subst hproof
  obtain ⟨hpair, hfirst, hsecond⟩ := mem_uniqueRecords_pair (a := vr.source) (b := vr'.source)
  replace hsigned := hsigned fun r hr => (hpair r hr).elim (· ▸ hmem) (· ▸ hmem')
  obtain ⟨hrtype, hvouched⟩ := hsigned vr.source hfirst
  refine .optOut k hk vr.source vr'.source vr.parsed vr'.parsed hmem hmem' hrtype ⟨hparsed, ?_⟩
    ⟨hparsed', vr'.owner, hhash', ?_⟩ (hall.mp hopt vr' hvr' hcovers) hvouched ?_
  · rw [hhash, howner, nameHash_of_mem hnew hvr]
  · rw [← nameHash_of_mem hnew hvr']
    exact hcovers
  · rcases hsecond with hmem | hsame
    · exact (hsigned vr'.source hmem).2
    · exact hvouched.same hsame

/-- A verdict of an unsigned delegation rests on a proof that the keys have signed. -/
theorem classifySigned_sound (hunforgeable : Unforgeable env signed)
    (hplace : evidence.Unexpanded env)
    (h : classifySigned env sha1 keys zone now evidence child = .insecureDelegation) :
    NoDsProof sha1 (fun r => SignedSet signed keys zone [r]) evidence child := by
  have hnsec3 : ∀ attempts, (match dsNsec3Selection sha1 evidence.nsec3 child with
      | none => DsAbsence.unproven
      | some (proof, verdict) =>
        if (recordsSigned env keys zone now evidence.nsec3Rrsigs .NSEC3 proof attempts).1
        then verdict else .unproven) = .insecureDelegation →
      NoDsProof sha1 (fun r => SignedSet signed keys zone [r]) evidence child := by
    intro attempts hverdict
    split at hverdict
    · cases hverdict
    rename_i proof verdict hselect
    split at hverdict
    · rename_i hrecords
      rw [hverdict] at hselect
      exact dsNsec3Selection_sound hselect fun hsub =>
        recordsSigned_sound hunforgeable (fun r hr => hplace.2 r (hsub hr)) hrecords
    · cases hverdict
  unfold classifySigned at h
  cases hselect : dsNsecSelection evidence.nsec child with
  | none =>
    rw [hselect] at h
    exact hnsec3 0 h
  | some found =>
    obtain ⟨record, verdict⟩ := found
    rw [hselect] at h
    cases hrecords : recordsSigned env keys zone now evidence.nsecRrsigs .NSEC [record] 0 with
    | mk ok attempts =>
      cases ok with
      | false =>
        simp only [hrecords] at h
        exact hnsec3 attempts h
      | true =>
        simp only [hrecords] at h
        rw [h] at hselect
        have htrue : (recordsSigned env keys zone now evidence.nsecRrsigs .NSEC [record] 0).1 =
            true := by rw [hrecords]
        refine dsNsecSelection_sound hselect fun hmem => ?_
        have hsigned := recordsSigned_sound hunforgeable
          (forall_mem_singleton.mpr (hplace.1 record hmem)) htrue
        exact (hsigned record (mem_singleton_self _)).2

end Absence

/-- The DS set that a zone signed for another. -/
structure DsSet (signed : Signed) (keys : List Dnskey) (zone : Name) (dsRecords : List Record)
    (child : Name) : Prop where
  owned : ∀ r ∈ dsRecords, r.rtype = .DS ∧ r.name.path = child.path
  signed : SignedSet signed keys zone dsRecords

/-- Every zone on the way has signed its keys with one that a trusted DS stands for. -/
inductive TrustedPath (env : Env) (signed : Signed) : List Ds → List ChainLink → List Dnskey → Prop
  | last {trusted : List Ds} {link : ChainLink} {keys : List Dnskey}
      (hkeys : KeySet env signed trusted link.zone link.dnskeys keys) :
      TrustedPath env signed trusted [link] keys
  | step {trusted : List Ds} {link next : ChainLink} {rest : List ChainLink}
      {keys keys' : List Dnskey} (hkeys : KeySet env signed trusted link.zone link.dnskeys keys)
      (hds : DsSet signed keys link.zone link.dsRecords next.zone)
      (hrest : TrustedPath env signed (link.dsRecords.filterMap Ds.fromRecord) (next :: rest)
        keys') :
      TrustedPath env signed trusted (link :: next :: rest) keys'

/-- A zone on the way has signed that the next one has no DS of a supported kind. -/
inductive UnsignedBelow (env : Env) (sha1 : Bytes → Bytes) (signed : Signed) :
    List Ds → List ChainLink → Prop
  | absent {trusted : List Ds} {link next : ChainLink} {rest : List ChainLink}
      {keys : List Dnskey} (hkeys : KeySet env signed trusted link.zone link.dnskeys keys)
      (hproof : NoDsProof sha1 (fun r => SignedSet signed keys link.zone [r]) link.evidence
        next.zone) :
      UnsignedBelow env sha1 signed trusted (link :: next :: rest)
  | unsupported {trusted : List Ds} {link next : ChainLink} {rest : List ChainLink}
      {keys : List Dnskey} (hkeys : KeySet env signed trusted link.zone link.dnskeys keys)
      (hds : DsSet signed keys link.zone link.dsRecords next.zone)
      (hnone : ∀ ds ∈ link.dsRecords.filterMap Ds.fromRecord, dsIsSupported ds = false) :
      UnsignedBelow env sha1 signed trusted (link :: next :: rest)
  | further {trusted : List Ds} {link next : ChainLink} {rest : List ChainLink}
      {keys : List Dnskey} (hkeys : KeySet env signed trusted link.zone link.dnskeys keys)
      (hds : DsSet signed keys link.zone link.dsRecords next.zone)
      (hrest : UnsignedBelow env sha1 signed (link.dsRecords.filterMap Ds.fromRecord)
        (next :: rest)) :
      UnsignedBelow env sha1 signed trusted (link :: next :: rest)

/-- The DS records of a link are those of the next zone, as `extract_ds` gives them. -/
def DsOfNext : List ChainLink → Prop
  | link :: next :: rest =>
    (∀ r ∈ link.dsRecords, r.rtype = .DS ∧ r.name.path = next.zone.path) ∧ DsOfNext (next :: rest)
  | _ => True

/-- What a status says about a chain. -/
def ChainStatus.Justified (signed : Signed)
    (trusted : List Ds) (links : List ChainLink) : ChainStatus → Prop
  | .secure keys => TrustedPath env signed trusted links keys
  | .insecure => UnsignedBelow env sha1 signed trusted links
  | .bogus => True

section Walk

variable {env : Env} {sha1 : Bytes → Bytes} {signed : Signed} {now : UInt32}

lemma KeySet.mono {trusted trusted' : List Ds} {zone : Name} {dnskeys : List Record}
    {keys : List Dnskey} (h : KeySet env signed trusted zone dnskeys keys)
    (hsub : trusted ⊆ trusted') : KeySet env signed trusted' zone dnskeys keys := by
  obtain ⟨k, hk, ⟨ds, hds, hstands⟩, hsigned⟩ := h.anchored
  exact ⟨h.parsed, h.owned, k, hk, ⟨ds, hsub hds, hstands⟩, hsigned⟩

/-- The status of a chain with at least one link is justified by what was signed. -/
theorem walkChain_sound (hunforgeable : Unforgeable env signed) (hinjective : DigestsInjective env)
    {links : List ChainLink} {trusted trusted' : List Ds} (hsub : trusted ⊆ trusted')
    (hne : links ≠ []) (hds : DsOfNext links)
    (hparsed : ∀ link ∈ links, link.ds = link.dsRecords.filterMap Ds.fromRecord)
    (hplace : ∀ link ∈ links, link.Unexpanded env) (keys : List Dnskey) :
    (walkChain env sha1 now true links trusted keys).Justified env sha1 signed trusted' links := by
  induction links generalizing trusted trusted' keys with
  | nil => exact absurd rfl hne
  | cons link rest ih =>
    have hhere := hplace link mem_cons_self
    unfold walkChain
    split
    · trivial
    rename_i linkKeys hkeys
    have hset : KeySet env signed trusted' link.zone link.dnskeys linkKeys :=
      (validateDnskeySet_sound hunforgeable hinjective hhere.dnskeys hkeys).mono hsub
    split
    · cases rest with
      | nil => exact .last hset
      | cons next rest =>
        simp only [Bool.true_and]
        split
        · trivial
        · rename_i hproven
          simp only [Bool.not_eq_true', Bool.not_eq_false, dsAbsenceProven, beq_iff_eq] at hproven
          exact .absent hset (classifySigned_sound hunforgeable hhere.evidence hproven)
    split
    · trivial
    rename_i hvalid
    obtain ⟨sig, hsig, k, hk, hsigned⟩ := validateRrsetInZone_sound hvalid
    have hvouched := signedSet_of_signedBy hunforgeable hhere.ds hsig hsigned hk
    have hlink := hparsed link mem_cons_self
    cases rest with
    | nil =>
      simp only [ne_eq, not_true_eq_false, and_false]
      exact .last hset
    | cons next rest =>
      have hdsSet : DsSet signed linkKeys link.zone link.dsRecords next.zone := ⟨hds.1, hvouched⟩
      simp only
      split
      · rename_i hnone
        refine .unsupported hset hdsSet fun ds hmem => ?_
        rw [hlink, filter_eq_nil_iff] at hnone
        simpa using hnone.1 ds hmem
      have hsupported : link.ds.filter dsIsSupported ⊆
          link.dsRecords.filterMap Ds.fromRecord :=
        fun ds hmem => hlink ▸ (mem_filter.mp hmem).1
      have hrest := ih hsupported (by simp) hds.2
        (fun l hl => hparsed l (mem_cons_of_mem _ hl))
        (fun l hl => hplace l (mem_cons_of_mem _ hl)) linkKeys
      cases hstatus : walkChain env sha1 now true (next :: rest) (link.ds.filter dsIsSupported)
          linkKeys with
      | secure keys' =>
        rw [hstatus] at hrest
        exact .step hset hdsSet hrest
      | insecure =>
        rw [hstatus] at hrest
        exact .further hset hdsSet hrest
      | bogus => trivial

end Walk

def padDigest (data : Bytes) : Bytes := data ++ 1 :: List.replicate (31 - data.length) 0

lemma padDigest_injective : Function.Injective padDigest := by
  have hpad : ∀ (n m : ℕ) (a b : Bytes),
      replicate n 0 ++ 1 :: a = replicate m 0 ++ 1 :: b → a = b := by
    intro n
    induction n with
    | zero =>
      intro m a b h
      cases m with
      | zero => exact (cons.inj h).2
      | succ m => exact absurd (cons.inj h).1 (by decide)
    | succ n ih =>
      intro m a b h
      cases m with
      | zero => exact absurd (cons.inj h).1 (by decide)
      | succ m => exact ih m a b (cons.inj h).2
  intro a b h
  have hreverse := congrArg reverse h
  simp only [padDigest, reverse_append, reverse_cons, reverse_replicate, append_assoc] at hreverse
  exact reverse_injective (hpad _ _ _ _ hreverse)

variable (log : List (Bytes × Bytes))

/-- Signatures verify for what is in a list of keys and data. -/
def loggedEnv : Env where
  verify := fun _ publicKey data signature =>
    signature == publicKey ++ data && log.contains (publicKey, data)
  digest := fun _ data => padDigest data
  acceptExpired := false

def logged : Signed := fun _ publicKey data => (publicKey, data) ∈ log

lemma loggedEnv_unforgeable :
    Unforgeable (loggedEnv log) (logged log) := by
  intro algorithm publicKey data signature h
  simp only [loggedEnv, Bool.and_eq_true, contains_iff_mem] at h
  exact h.2

lemma loggedEnv_injective : DigestsInjective (loggedEnv log) := fun _ _ => padDigest_injective

/-- The names `a.` and `b.`. -/
def childName : Name := ⟨[[97]], by decide, by decide⟩
def siblingName : Name := ⟨[[98]], by decide, by decide⟩

def rootKey : Dnskey := ⟨257, 3, 15, [1]⟩
def childKey : Dnskey := ⟨257, 3, 15, [2]⟩

def keyRecord (zone : Name) (k : Dnskey) : Record :=
  ⟨zone, .DNSKEY, 1, 3600, .unknown .DNSKEY k.rdataBytes⟩

def dsOf (k : Dnskey) (zone : Name) (algorithm : UInt8) : Ds :=
  ⟨k.keyTag, algorithm, 2, padDigest (dsDigestInput k zone)⟩

def dsRecord (owner : Name) (ds : Ds) : Record :=
  ⟨owner, .DS, 1, 3600, .unknown .DS (be16 ds.keyTag ++ ds.algorithm :: ds.digestType :: ds.digest)⟩

/-- A signature of the key over a set, with the data that it covers. -/
def signSet (zone : Name) (k : Dnskey) (owner : Name) (rtype : RecordType)
    (rrset : List Record) : Rrsig × (Bytes × Bytes) :=
  let sig : Rrsig := ⟨rtype, 15, UInt8.ofNat owner.numLabels, 3600, 1000, 0, k.keyTag, zone, []⟩
  ({ sig with signature := k.publicKey ++ signedData sig rrset },
    (k.publicKey, signedData sig rrset))

def rootLink (ds : Record) : ChainLink where
  zone := Name.root
  dnskeys := [keyRecord Name.root rootKey]
  dnskeyRrsigs := [(signSet Name.root rootKey Name.root .DNSKEY [keyRecord Name.root rootKey]).1]
  dsRecords := [ds]
  dsRrsigs := [(signSet Name.root rootKey ds.name .DS [ds]).1]
  evidence := ⟨[], [], [], []⟩
  ds := [ds].filterMap Ds.fromRecord

def childLink : ChainLink where
  zone := childName
  dnskeys := [keyRecord childName childKey]
  dnskeyRrsigs := [(signSet childName childKey childName .DNSKEY [keyRecord childName childKey]).1]
  dsRecords := []
  dsRrsigs := []
  evidence := ⟨[], [], [], []⟩
  ds := []

/-- All that the two zones sign. -/
def signedLog (ds : Record) : List (Bytes × Bytes) :=
  [(signSet Name.root rootKey Name.root .DNSKEY [keyRecord Name.root rootKey]).2,
    (signSet Name.root rootKey ds.name .DS [ds]).2,
    (signSet childName childKey childName .DNSKEY [keyRecord childName childKey]).2]

def rootAnchor : Ds := dsOf rootKey Name.root 15

/-- The DS of the child, and one of a sibling with an algorithm that is not supported. -/
def childDs : Record := dsRecord childName (dsOf childKey childName 15)
def siblingDs : Record := dsRecord siblingName (dsOf childKey siblingName 5)

end OnetDns.Dnssec
