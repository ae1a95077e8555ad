import OnetDns.Dns.Message
import OnetDns.Dnssec.Chain

/-!
# Validation of forwarded answers

`ForwardValidateLayer` of `onetdns-bin/src/dnssecfwd.rs`. The upstream is a function with a
state of its own: what it answers may depend on everything that was asked before. Requests
are handled one after the other, with the chains that earlier ones left in the cache.
-/
namespace OnetDns.Dns.RecordType

abbrev NSEC3PARAM : RecordType := 51

end OnetDns.Dns.RecordType

namespace OnetDns.Dnssec.Forward
open Dns List Name

/-- `LruMap`: the entries in the order of their last use, the latest first. -/
structure LruMap (κ ν : Type) where
  cap : ℕ
  entries : List (κ × ν)

namespace LruMap

variable {κ ν : Type} [DecidableEq κ]

variable (m : LruMap κ ν)

def erase (key : κ) : LruMap κ ν := { m with entries := m.entries.filter fun e => e.1 ≠ key }

/-- `get`: the entry that was found becomes the latest. -/
def get (key : κ) : Option ν × LruMap κ ν :=
  match m.entries.lookup key with
  | none => (none, m)
  | some val => (some val, { m with entries := (key, val) :: (m.erase key).entries })

/-- `put`: a new entry takes the place of the oldest one once the map is full. -/
def put (key : κ) (val : ν) : LruMap κ ν :=
  if (m.entries.lookup key).isNone ∧ m.cap ≤ m.entries.length then
    { m with entries := (key, val) :: m.entries.dropLast }
  else { m with entries := (key, val) :: (m.erase key).entries }

def pop (key : κ) : LruMap κ ν := m.erase key

end LruMap

/-- How far the chain of trust leads towards a name. -/
inductive ChainVerdict where
  | secure (keys : List Dnskey) (apex : Name)
  | insecure

structure CachedChain where
  verdict : ChainVerdict
  expires : ℕ
  anchorTag : UInt64

inductive ResolveFailure where
  | transportExhausted
  | permanent (code : Option UInt16)
  deriving DecidableEq

inductive ResolveOutcome where
  | response (message : Message)
  | failure (reason : ResolveFailure)
  deriving DecidableEq

structure ForwardValidationPolicy where
  strict : Bool
  permissive : Bool
  ignoreCd : Bool
  insecureDomains : List Name
  rootKeySentinel : Bool

/-- The layer over an upstream with states in `σ`. -/
structure ForwardValidateLayer (σ : Type) where
  inner : Message → σ → ResolveOutcome × σ
  anchors : List Ds
  policy : ForwardValidationPolicy
  env : Env
  sha1 : Bytes → Bytes

/-- What changes from call to call; `budget` counts the questions that the request in work
may still ask. -/
structure Session (σ : Type) where
  chains : LruMap Bytes CachedChain
  nextId : UInt16
  upstream : σ
  budget : ℕ

def maxChainQueries : ℕ := 24
def maxChainDepth : ℕ := 16
def chainCacheEntries : ℕ := 4096
def chainCacheMaxTtl : ℕ := 3600
def chainCacheMinTtl : ℕ := 60

/-- `u32::MAX`. -/
def maxU32 : ℕ := 2 ^ 32 - 1

def Session.new {σ : Type} (upstream : σ) : Session σ := ⟨⟨chainCacheEntries, []⟩, 1, upstream, 0⟩

def noError : UInt16 := 0
def servFail : UInt16 := 2
def nxDomain : UInt16 := 3
def dnssecBogus : UInt16 := 6

variable (records : List Record)

def sectionRecords (name : Name) (qtype : RecordType) : List Record :=
  records.filter fun r => r.rtype == qtype && r.name.eqIgnoreCase name

def recordsOfType (qtype : RecordType) : List Record := records.filter fun r => r.rtype == qtype

def coveringRrsigs (name : Name) (qtype : RecordType) : List Rrsig :=
  ((sectionRecords records name .RRSIG).filterMap Rrsig.fromRecord).filter
    fun sig => sig.typeCovered == qtype

def rrsigsCoveringType (qtype : RecordType) : List Rrsig :=
  ((recordsOfType records .RRSIG).filterMap Rrsig.fromRecord).filter
    fun sig => sig.typeCovered == qtype

def extractDnskeyRrset (zone : Name) : List Record × List Rrsig :=
  (sectionRecords records zone .DNSKEY, coveringRrsigs records zone .DNSKEY)

/-- `answer_signer`: the signer of the first signature over the type or over a CNAME. -/
def answerSigner (response : Message) : Option Name :=
  response.questions.head?.bind fun question =>
    (((recordsOfType response.answers .RRSIG).filterMap Rrsig.fromRecord).find? fun sig =>
      sig.typeCovered == question.qtype || sig.typeCovered == .CNAME).map Rrsig.signer

/-- `Edns` with the DO bit, as a record. -/
def dnssecOkRecord : Option Record := ({ Edns.default with dnssecOk := true }.tryToRecord).toOption

def query (id : UInt16) (name : Name) (qtype : RecordType) : Message :=
  ⟨⟨id, false, 0, false, false, true, false, false, false, 0⟩, [⟨name, qtype, 1⟩], [], [], []⟩

def isOptRecord (r : Record) : Bool := r.rtype == .OPT

variable (request : Message)

def asksForAd : Bool :=
  request.header.authenticData ||
    ((request.additionals.filter isOptRecord).filterMap
      fun r => (Edns.tryFromRecord r).toOption).any Edns.dnssecOk

/-- The record of the options with the DO bit added, or a new one in the place at the end. -/
def withDnssecOk (additionals : List Record) : List Record :=
  match additionals.findIdx? isOptRecord with
  | none => additionals ++ dnssecOkRecord.toList
  | some existing =>
    match additionals[existing]?.bind fun r => (Edns.tryFromRecord r).toOption with
    | none => additionals.eraseIdx existing ++ dnssecOkRecord.toList
    | some edns =>
      if edns.dnssecOk then additionals
      else
        match ({ edns with dnssecOk := true }.tryToRecord).toOption with
        | some record => additionals.set existing record
        | none => additionals

def setDnssecOk : Message := { request with additionals := withDnssecOk request.additionals }

def upstreamRequest : Message :=
  setDnssecOk { request with header := { request.header with checkingDisabled := true } }

def isDnssecOnlyType (rtype : RecordType) : Bool :=
  [.RRSIG, .NSEC, .NSEC3, .NSEC3PARAM].contains rtype

def wantsDnssec : Bool := request.additionals.any fun r => r.rtype == .OPT && r.ttl &&& 0x8000 != 0

def keepPlain : List Record := records.filter fun r => !isDnssecOnlyType r.rtype

def stripDnssecUnlessRequested (request response : Message) : Message :=
  if wantsDnssec request then response
  else
    { response with
      answers := keepPlain response.answers
      authorities := keepPlain response.authorities
      additionals := keepPlain response.additionals }

def withAd (response : Message) (ad : Bool) : Message :=
  { response with header := { response.header with authenticData := ad } }

inductive RootKeySentinel where
  | isTa (tag : UInt16)
  | notTa (tag : UInt16)

namespace RootKeySentinel

def isTaText : Bytes := "root-key-sentinel-is-ta-".toUTF8.toList
def notTaText : Bytes := "root-key-sentinel-not-ta-".toUTF8.toList

/-- Five digits with a value that fits. -/
def parseTag (tag : Bytes) : Option UInt16 :=
  if tag.length ≠ 5 ∨ tag.any (fun b => b < 48 || 57 < b) then none
  else
    let value := tag.foldl (fun n b => n * 10 + (b.toNat - 48)) 0
    if value < 65536 then some (UInt16.ofNat value) else none

/-- `parse`. The texts that are accepted are in ASCII, so the check that the label is UTF-8
refuses nothing more. -/
def parse (label : Bytes) : Option RootKeySentinel :=
  let text := label.map asciiLower
  if isTaText.isPrefixOf text then (parseTag (text.drop isTaText.length)).map isTa
  else if notTaText.isPrefixOf text then (parseTag (text.drop notTaText.length)).map notTa
  else none

def fails (sentinel : RootKeySentinel) (anchors : List Ds) : Bool :=
  match sentinel with
  | isTa tag => !anchors.any fun ds => ds.keyTag == tag
  | notTa tag => anchors.any fun ds => ds.keyTag == tag

end RootKeySentinel

section Layer

variable {σ : Type} (layer : ForwardValidateLayer σ)

def sentinelFails (request : Message) : Bool :=
  match request.questions.head? with
  | none => false
  | some question =>
    (question.qtype == .A || question.qtype == .AAAA) &&
      ((question.name.labels.head?.bind RootKeySentinel.parse).any fun sentinel =>
        sentinel.fails layer.anchors)

def ask (name : Name) (qtype : RecordType) (s : Session σ) : Option Message × Session σ :=
  if s.budget = 0 then (none, s)
  else
    let asked := query (s.nextId ||| 1) name qtype
    let s := { s with budget := s.budget - 1, nextId := s.nextId + 1 }
    match dnssecOkRecord with
    | none => (none, s)
    | some record =>
      let asked := { asked with
        header := { asked.header with checkingDisabled := true }
        additionals := [record] }
      match layer.inner asked s.upstream with
      | (.failure _, upstream) => (none, { s with upstream })
      | (.response response, upstream) =>
        if response.header.rcode ≠ noError ∧ response.header.rcode ≠ nxDomain then
          (none, { s with upstream })
        else (some response, { s with upstream })

def dnskeyRrset (zone : Name) (s : Session σ) : Option (List Record × List Rrsig) × Session σ :=
  match ask layer zone .DNSKEY s with
  | (none, s) => (none, s)
  | (some response, s) =>
    let (dnskeys, rrsigs) := extractDnskeyRrset response.answers zone
    if dnskeys = [] ∨ rrsigs = [] then (none, s) else (some (dnskeys, rrsigs), s)

/-- The DS set of a name, or what came in its place. -/
structure DelegationEvidence where
  dsRecords : List Record
  dsRrsigs : List Rrsig
  denial : DenialEvidence

def delegationEvidence (child : Name) (s : Session σ) : Option DelegationEvidence × Session σ :=
  match ask layer child .DS s with
  | (none, s) => (none, s)
  | (some response, s) =>
    let dsRecords := sectionRecords response.answers child .DS
    if dsRecords ≠ [] then
      (some ⟨dsRecords, coveringRrsigs response.answers child .DS, [], [], [], []⟩, s)
    else
      (some ⟨[], [], recordsOfType response.authorities .NSEC,
        rrsigsCoveringType response.authorities .NSEC,
        recordsOfType response.authorities .NSEC3,
        rrsigsCoveringType response.authorities .NSEC3⟩, s)

def anchorTag (anchors : List Ds) : UInt64 :=
  (anchors.flatMap fun ds => be16 ds.keyTag ++ ds.algorithm :: ds.digestType :: ds.digest).foldl
    (fun tag b => (tag ^^^ b.toUInt64) * 0x100000001b3) 0xcbf29ce484222325

def cached (zone : Name) (now : UInt32) (s : Session σ) : Option ChainVerdict × Session σ :=
  match s.chains.get zone.canonicalKey with
  | (none, chains) => (none, { s with chains })
  | (some entry, chains) =>
    if entry.anchorTag ≠ anchorTag layer.anchors ∨ entry.expires ≤ now.toNat then
      (none, { s with chains := chains.pop zone.canonicalKey })
    else (some entry.verdict, { s with chains })

def remember (zone : Name) (verdict : ChainVerdict) (now : UInt32) (ttl : ℕ) (s : Session σ) :
    Session σ :=
  let ttl := min (max ttl chainCacheMinTtl) chainCacheMaxTtl
  let entry : CachedChain := ⟨verdict, min (now.toNat + ttl) maxU32, anchorTag layer.anchors⟩
  { s with chains := s.chains.put zone.canonicalKey entry }

/-- The head of the loop over zones: the keys of a zone, with the smallest TTL so far. -/
def zoneKeys (apex : Name) (trustedDs : List Ds) (now : UInt32) (ttl : ℕ) (s : Session σ) :
    Option (List Dnskey × ℕ) × Session σ :=
  match dnskeyRrset layer apex s with
  | (none, s) => (none, s)
  | (some (dnskeys, rrsigs), s) =>
    let ttl := (dnskeys.map fun r => r.ttl.toNat).foldl min ttl
    match validateDnskeySet layer.env dnskeys rrsigs trustedDs apex now with
    | .error _ => (none, s)
    | .ok keys => (some (keys, ttl), s)

/-- The two loops of `chain_to`, from a zone whose keys are known: `remaining` labels of the
name are still to be examined. -/
def walkLabels (name : Name) (now : UInt32) :
    (remaining : ℕ) → (apex : Name) → (keys : List Dnskey) → (ttl : ℕ) → Session σ →
    Option (ChainVerdict × ℕ) × Session σ
  | 0, apex, keys, ttl, s => (some (.secure keys apex, ttl), s)
  | remaining + 1, apex, keys, ttl, s =>
    let child := name.suffix (name.numLabels - remaining)
    match delegationEvidence layer child s with
    | (none, s) => (none, s)
    | (some evidence, s) =>
      if evidence.dsRecords ≠ [] then
        match validateRrsetInZone layer.env evidence.dsRecords evidence.dsRrsigs keys apex now with
        | .error _ => (none, s)
        | .ok () =>
          let supported := (evidence.dsRecords.filterMap Ds.fromRecord).filter dsIsSupported
          if supported = [] then (some (.insecure, ttl), s)
          else
            match zoneKeys layer child supported now ttl s with
            | (none, s) => (none, s)
            | (some (keys, ttl), s) => walkLabels name now remaining child keys ttl s
      else
        match classifySigned layer.env layer.sha1 keys apex now evidence.denial child with
        | .insecureDelegation => (some (.insecure, ttl), s)
        | .notACut => walkLabels name now remaining apex keys ttl s
        | .unproven => if layer.policy.strict then (none, s) else (some (.insecure, ttl), s)

def chainTo (name : Name) (now : UInt32) (s : Session σ) : Option ChainVerdict × Session σ :=
  if layer.anchors = [] then (none, s)
  else
    match cached layer name now s with
    | (some verdict, s) => (some verdict, s)
    | (none, s) =>
      if maxChainDepth < name.numLabels then (none, s)
      else
        match zoneKeys layer Name.root layer.anchors now maxU32 s with
        | (none, s) => (none, s)
        | (some (keys, ttl), s) =>
          match walkLabels layer name now name.numLabels Name.root keys ttl s with
          | (none, s) => (none, s)
          | (some (verdict, ttl), s) =>
            (some verdict, remember layer name verdict now
              (if ttl = maxU32 then chainCacheMinTtl else ttl) s)

variable (question : Question)

variable (response : Message)

/-- A response without answers: refused where a signed zone shows no signature at all. -/
def negativeVerdict (now : UInt32) (s : Session σ) :
    Option Bool × Session σ :=
  match chainTo layer question.name now s with
  | (some (.secure _ _), s) =>
    if response.authorities.any fun r => r.rtype == .RRSIG then (some false, s)
    else (none, s)
  | (_, s) => (some false, s)

/-- Answers without a signature: let through below an unsigned delegation only. -/
def unsignedVerdict (now : UInt32) (s : Session σ) :
    Option Bool × Session σ :=
  match chainTo layer question.name now s with
  | (some .insecure, s) => (some false, s)
  | (_, s) => (none, s)

def answerVerdict (signer : Name)
    (keys : List Dnskey) (now : UInt32) : Option Bool :=
  let rrset := sectionRecords response.answers question.name question.qtype
  if rrset = [] then some false
  else
    let rrsigs := coveringRrsigs response.answers question.name question.qtype
    if rrsigs = [] then none
    else
      match validateRrsetInZone layer.env rrset rrsigs keys signer now with
      | .ok () => some true
      | .error _ => none

/-- Answers with a signature, by the chain to the signer. -/
def signedVerdict (signer : Name) (now : UInt32)
    (s : Session σ) : Option Bool × Session σ :=
  match chainTo layer signer now s with
  | (none, s) => (none, s)
  | (some .insecure, s) => (some false, s)
  | (some (.secure keys apex), s) =>
    if apex.eqIgnoreCase signer then (answerVerdict layer question response signer keys now, s)
    else (none, s)

/-- `verdict_for`: `some true` if the answer was verified, `some false` if there is nothing to
verify. -/
def verdictFor (now : UInt32) (s : Session σ) : Option Bool × Session σ :=
  match response.questions.head? with
  | none => (none, s)
  | some question =>
    if response.answers = [] then negativeVerdict layer question response now s
    else
      match answerSigner response with
      | none => unsignedVerdict layer question now s
      | some signer => signedVerdict layer question response signer now s

def sentinelResponse : Message :=
  { response with
    header := { response.header with rcode := servFail, authenticData := false }
    answers := []
    authorities := []
    additionals := response.additionals.filter isOptRecord }

/-- What becomes of a response by its verdict. -/
def conclude (request response : Message) : Option Bool → ResolveOutcome
  | some authentic =>
    if authentic && layer.policy.rootKeySentinel && sentinelFails layer request then
      .response (sentinelResponse response)
    else
      .response (stripDnssecUnlessRequested request
        (withAd response (authentic && asksForAd request)))
  | none =>
    if layer.policy.permissive then
      .response (stripDnssecUnlessRequested request (withAd response false))
    else .failure (.permanent (some dnssecBogus))

/-- Whether the name of the question is in a domain that is not validated. -/
def inInsecureDomain : Bool := layer.policy.insecureDomains.any question.name.endsWithIgnoreCase

/-- What becomes of the response to a request with one question. -/
def checkResponse (request response : Message) (now : UInt32)
    (s : Session σ) : ResolveOutcome × Session σ :=
  if (response.header.rcode ≠ noError ∧ response.header.rcode ≠ nxDomain) ∨
      inInsecureDomain layer question then
    (.response (stripDnssecUnlessRequested request (withAd response false)), s)
  else
    let (verdict, s) := verdictFor layer response now { s with budget := maxChainQueries }
    (conclude layer request response verdict, s)

def resolveOutcome (request : Message) (now : UInt32) (s : Session σ) :
    ResolveOutcome × Session σ :=
  match request.questions with
  | [question] =>
    if request.header.checkingDisabled && !layer.policy.ignoreCd then
      let (outcome, upstream) := layer.inner request s.upstream
      (outcome, { s with upstream })
    else
      match layer.inner (upstreamRequest request) s.upstream with
      | (.failure reason, upstream) => (.failure reason, { s with upstream })
      | (.response response, upstream) =>
        checkResponse layer question request response now { s with upstream }
  | _ =>
    let (outcome, upstream) := layer.inner request s.upstream
    (outcome, { s with upstream })

/-- The requests of a run with the time of each, and what they were answered. -/
def run : List (Message × UInt32) → Session σ → List ResolveOutcome × Session σ
  | [], s => ([], s)
  | (request, now) :: rest, s =>
    let (outcome, s) := resolveOutcome layer request now s
    let (outcomes, s) := run rest s
    (outcome :: outcomes, s)

end Layer

/-- The keys of a zone to which the chain of trust leads from the anchors. -/
inductive Reaches (env : Env) (signed : Signed) (anchors : List Ds) : Name → List Dnskey → Prop
  | root {dnskeys : List Record} {keys : List Dnskey}
      (hkeys : KeySet env signed anchors Name.root dnskeys keys) :
      Reaches env signed anchors Name.root keys
  | child {zone child : Name} {keys keys' : List Dnskey} {dsRecords dnskeys : List Record}
      (hzone : Reaches env signed anchors zone keys)
      (hds : DsSet signed keys zone dsRecords child)
      (hkeys : KeySet env signed (dsRecords.filterMap Ds.fromRecord) child dnskeys keys') :
      Reaches env signed anchors child keys'

/-- A zone above has signed that the name is delegated without a DS of a supported kind. -/
inductive UnsignedAt (env : Env) (sha1 : Bytes → Bytes) (signed : Signed) (anchors : List Ds)
    (name : Name) : Prop
  | absent {zone : Name} {keys : List Dnskey} {evidence : DenialEvidence}
      (hzone : Reaches env signed anchors zone keys) (habove : zone.path <+: name.path)
      (hproof : NoDsProof sha1 (fun r => SignedSet signed keys zone [r]) evidence name)
  | unsupported {zone : Name} {keys : List Dnskey} {dsRecords : List Record}
      (hzone : Reaches env signed anchors zone keys) (habove : zone.path <+: name.path)
      (hds : DsSet signed keys zone dsRecords name)
      (hnone : ∀ ds ∈ dsRecords.filterMap Ds.fromRecord, dsIsSupported ds = false)

/-- There is an unsigned delegation at the name or above it. -/
def UnsignedAbove (env : Env) (sha1 : Bytes → Bytes) (signed : Signed) (anchors : List Ds)
    (name : Name) : Prop :=
  ∃ cut : Name, cut.path <+: name.path ∧ UnsignedAt env sha1 signed anchors cut

/-- The zone is above the name. A DS set belongs to the zone above its owner. -/
def Above (zone name : Name) (rtype : RecordType) : Prop :=
  zone.path <+: name.path ∧ (rtype = .DS → zone.path ≠ name.path)

/-- The zone contains the name: it is the lowest zone above it that the chain of trust leads to. -/
structure Contains (env : Env) (signed : Signed) (anchors : List Ds) (zone name : Name)
    (rtype : RecordType) : Prop where
  above : Above zone name rtype
  lowest : ∀ zone' keys, Reaches env signed anchors zone' keys → Above zone' name rtype →
    zone'.path <+: zone.path

/-- The records of a name and a type were signed by the zone that contains the name. -/
def AnswerSigned (env : Env) (signed : Signed) (anchors : List Ds) (answers : List Record)
    (name : Name) (rtype : RecordType) : Prop :=
  ∃ (zone : Name) (keys : List Dnskey), Reaches env signed anchors zone keys ∧
    Contains env signed anchors zone name rtype ∧
    SignedSet signed keys zone (sectionRecords answers name rtype)

/-- No set out of the answers or the authorities verifies with the signature of a wildcard that
is among them. -/
def Unexpanded (env : Env) (response : Message) : Prop :=
  ∀ records ∈ [response.answers, response.authorities], ∀ rrset ⊆ records,
    ∀ r ∈ records, ∀ sig, Rrsig.fromRecord r = some sig → Dnssec.Unexpanded env [sig] rrset

/-- All that the upstream may ever answer. -/
def ForwardValidateLayer.Unexpanded {σ : Type} (layer : ForwardValidateLayer σ) : Prop :=
  ∀ request upstream response, (layer.inner request upstream).1 = .response response →
    Forward.Unexpanded layer.env response

/-- A verdict about a name that the chain of trust bears out. -/
def ChainVerdict.Justified (env : Env) (sha1 : Bytes → Bytes) (signed : Signed)
    (anchors : List Ds) (name : Name) : ChainVerdict → Prop
  | .secure keys apex => Reaches env signed anchors apex keys
  | .insecure => UnsignedAbove env sha1 signed anchors name

variable {keys : List Dnskey}

section Sound

variable {σ : Type} {layer : ForwardValidateLayer σ} {signed : Signed} {name : Name} {now : UInt32}
  {s : Session σ}

/-- The verdicts in the cache are borne out. -/
def Sound (layer : ForwardValidateLayer σ) (signed : Signed) (s : Session σ) : Prop :=
  ∀ entry ∈ s.chains.entries, ∀ name : Name, name.canonicalKey = entry.1 →
    entry.2.verdict.Justified layer.env layer.sha1 signed layer.anchors name

variable {verdict : ChainVerdict}

lemma ChainVerdict.Justified.of_path {other : Name}
    (h : verdict.Justified layer.env layer.sha1 signed layer.anchors name)
    (hpath : name.path = other.path) :
    verdict.Justified layer.env layer.sha1 signed layer.anchors other := by
  cases verdict with
  | secure keys apex => exact h
  | insecure =>
    obtain ⟨cut, hcut, hunsigned⟩ := h
    exact ⟨cut, hpath ▸ hcut, hunsigned⟩

/-! Questions leave the cache as it is. -/

section

variable (layer name)

lemma ask_chains (qtype : RecordType)
    (s : Session σ) : (ask layer name qtype s).2.chains = s.chains := by
  unfold ask
  simp only
  split
  · rfl
  split
  · rfl
  split
  · rfl
  · split <;> rfl

lemma dnskeyRrset_chains (zone : Name) (s : Session σ) :
    (dnskeyRrset layer zone s).2.chains = s.chains := by
  have hask := ask_chains layer zone .DNSKEY s
  unfold dnskeyRrset
  split
  · rename_i heq
    rwa [heq] at hask
  · rename_i heq
    rw [heq] at hask
    simp only
    split <;> exact hask

lemma delegationEvidence_chains (child : Name) (s : Session σ) :
    (delegationEvidence layer child s).2.chains = s.chains := by
  have hask := ask_chains layer child .DS s
  unfold delegationEvidence
  split
  · rename_i heq
    rwa [heq] at hask
  · rename_i heq
    rw [heq] at hask
    simp only
    split <;> exact hask

lemma zoneKeys_chains (apex : Name) (trusted : List Ds)
    (now : UInt32) (ttl : ℕ) (s : Session σ) :
    (zoneKeys layer apex trusted now ttl s).2.chains = s.chains := by
  have hask := dnskeyRrset_chains layer apex s
  unfold zoneKeys
  split
  · rename_i heq
    rwa [heq] at hask
  · rename_i heq
    rw [heq] at hask
    split <;> exact hask

end

lemma walkLabels_chains (layer : ForwardValidateLayer σ) (name : Name) (now : UInt32)
    (remaining : ℕ) (apex : Name) (keys : List Dnskey) (ttl : ℕ) (s : Session σ) :
    (walkLabels layer name now remaining apex keys ttl s).2.chains = s.chains := by
  induction remaining generalizing apex keys ttl s with
  | zero => rfl
  | succ remaining ih =>
    have hask := delegationEvidence_chains layer (name.suffix (name.numLabels - remaining)) s
    unfold walkLabels
    simp only
    split
    · rename_i heq
      rwa [heq] at hask
    rename_i evidence s' heq
    rw [heq] at hask
    split
    · split
      · exact hask
      split
      · exact hask
      have hkeys := zoneKeys_chains layer (name.suffix (name.numLabels - remaining))
        ((evidence.dsRecords.filterMap Ds.fromRecord).filter dsIsSupported) now ttl s'
      split
      · rename_i hzone
        rw [hzone] at hkeys
        exact hkeys.trans hask
      · rename_i hzone
        rw [hzone] at hkeys
        exact (ih _ _ _ _).trans (hkeys.trans hask)
    · split
      · exact hask
      · exact (ih _ _ _ _).trans hask
      · split <;> exact hask

variable {s' : Session σ}

/-! The cache keeps what is borne out. -/

lemma LruMap.mem_of_mem_erase {κ ν : Type} [DecidableEq κ] {m : LruMap κ ν} {key : κ}
    {entry : κ × ν} (h : entry ∈ (m.erase key).entries) : entry ∈ m.entries :=
  (mem_filter.mp h).1

lemma LruMap.mem_of_get {κ ν : Type} [DecidableEq κ] {m m' : LruMap κ ν} {key : κ}
    {found : Option ν} (h : m.get key = (found, m')) :
    (∀ val, found = some val → (key, val) ∈ m.entries) ∧
      ∀ entry ∈ m'.entries, entry ∈ m.entries := by
  unfold get at h
  split at h
  · cases h
    exact ⟨fun val hval => (by cases hval), fun entry hentry => hentry⟩
  rename_i val hlookup
  cases h
  have hmem : (key, val) ∈ m.entries := by
    obtain ⟨before, after, hentries, -⟩ := lookup_eq_some_iff.mp hlookup
    rw [hentries]
    exact mem_append_right _ mem_cons_self
  refine ⟨fun val' hval => ?_, fun entry hentry => ?_⟩
  · obtain rfl := Option.some.inj hval
    exact hmem
  · rcases mem_cons.mp hentry with rfl | hentry
    · exact hmem
    · exact mem_of_mem_erase hentry

lemma LruMap.mem_put {κ ν : Type} [DecidableEq κ] {m : LruMap κ ν} {key : κ} {val : ν}
    {entry : κ × ν} (h : entry ∈ (m.put key val).entries) :
    entry = (key, val) ∨ entry ∈ m.entries := by
  unfold put at h
  split at h
  · exact (mem_cons.mp h).imp_right (dropLast_subset _ ·)
  · exact (mem_cons.mp h).imp_right mem_of_mem_erase

lemma cached_sound (hsound : Sound layer signed s) {found : Option ChainVerdict} (h : cached layer name now s = (found, s')) :
    Sound layer signed s' ∧ ∀ verdict, found = some verdict →
      verdict.Justified layer.env layer.sha1 signed layer.anchors name := by
  unfold cached at h
  split at h
  · rename_i chains hget
    cases h
    exact ⟨fun entry hentry => hsound entry ((LruMap.mem_of_get hget).2 entry hentry),
      fun verdict hverdict => (by cases hverdict)⟩
  rename_i entry chains hget
  obtain ⟨hmem, hkept⟩ := LruMap.mem_of_get hget
  split at h
  · cases h
    exact ⟨fun entry hentry => hsound entry (hkept entry (LruMap.mem_of_mem_erase hentry)),
      fun verdict hverdict => (by cases hverdict)⟩
  · cases h
    refine ⟨fun entry hentry => hsound entry (hkept entry hentry), fun verdict hverdict => ?_⟩
    obtain rfl := Option.some.inj hverdict
    exact hsound _ (hmem entry rfl) name rfl

lemma remember_sound (hsound : Sound layer signed s)
    (hverdict : verdict.Justified layer.env layer.sha1 signed layer.anchors name) (ttl : ℕ) :
    Sound layer signed (remember layer name verdict now ttl s) := by
  intro entry hentry other hother
  rcases LruMap.mem_put hentry with rfl | hentry
  · exact hverdict.of_path (path_of_canonicalName hother.symm)
  · exact hsound entry hentry other hother

/-! What the walk finds is borne out. -/

variable {response : Message}

lemma Unexpanded.covering {env : Env} (h : Unexpanded env response) (name : Name)
    (qtype : RecordType) : Dnssec.Unexpanded env (coveringRrsigs response.answers name qtype)
      (sectionRecords response.answers name qtype) := by
  intro sig hsig
  obtain ⟨r, hr, hparsed⟩ := mem_filterMap.mp (mem_filter.mp hsig).1
  exact h _ mem_cons_self _ (filter_subset_self _) r (mem_filter.mp hr).1 sig hparsed sig
    (mem_singleton_self sig)

lemma Unexpanded.type {env : Env} (h : Unexpanded env response) (qtype : RecordType) :
    ∀ r ∈ recordsOfType response.authorities qtype,
      Dnssec.Unexpanded env (rrsigsCoveringType response.authorities qtype) [r] := by
  intro r hr sig hsig
  obtain ⟨r', hr', hparsed⟩ := mem_filterMap.mp (mem_filter.mp hsig).1
  have hsub : [r] ⊆ response.authorities := by simpa using (mem_filter.mp hr).1
  exact h _ (mem_cons_of_mem _ mem_cons_self) _ hsub r' (mem_filter.mp hr').1 sig hparsed sig
    (mem_singleton_self sig)

lemma ask_unexpanded (hplace : layer.Unexpanded) {qtype : RecordType}
    (h : ask layer name qtype s = (some response, s')) : Unexpanded layer.env response := by
  unfold ask at h
  simp only at h
  split at h
  · cases h
  split at h
  · cases h
  split at h
  · cases h
  rename_i hinner
  split at h
  · cases h
  · cases h
    exact hplace _ _ _ (congrArg Prod.fst hinner)

lemma delegationEvidence_ds {child : Name} {evidence : DelegationEvidence}
    (hplace : layer.Unexpanded) (h : delegationEvidence layer child s = (some evidence, s')) :
    (∀ r ∈ evidence.dsRecords, r.rtype = .DS ∧ r.name.path = child.path) ∧
      Dnssec.Unexpanded layer.env evidence.dsRrsigs evidence.dsRecords ∧
      evidence.denial.Unexpanded layer.env := by
  unfold delegationEvidence at h
  split at h
  · cases h
  rename_i response _ hask
  have hresponse := ask_unexpanded hplace hask
  simp only at h
  split at h
  · cases h
    refine ⟨fun r hr => ?_, hresponse.covering child .DS, nofun, nofun⟩
    simpa [sectionRecords, eqIgnoreCase_path] using (mem_filter.mp hr).2
  · cases h
    exact ⟨nofun, nofun, hresponse.type .NSEC, hresponse.type .NSEC3⟩

lemma dnskeyRrset_unexpanded (hplace : layer.Unexpanded) {dnskeys : List Record}
    {rrsigs : List Rrsig} (h : dnskeyRrset layer name s = (some (dnskeys, rrsigs), s')) :
    Dnssec.Unexpanded layer.env rrsigs dnskeys := by
  unfold dnskeyRrset at h
  split at h
  · cases h
  rename_i response _ hask
  simp only at h
  split at h
  · cases h
  · cases h
    exact (ask_unexpanded hplace hask).covering name .DNSKEY

variable {apex : Name}

section Chain

variable (hunforgeable : Unforgeable layer.env signed) (hinjective : DigestsInjective layer.env)
  (hplace : layer.Unexpanded)
include hunforgeable hinjective hplace

lemma zoneKeys_sound {trusted : List Ds} {ttl ttl' : ℕ}
    (h : zoneKeys layer apex trusted now ttl s = (some (keys, ttl'), s')) :
    ∃ dnskeys, KeySet layer.env signed trusted apex dnskeys keys := by
  unfold zoneKeys at h
  split at h
  · cases h
  rename_i dnskeys rrsigs _ hrrset
  split at h
  · cases h
  · rename_i hvalid
    cases h
    exact ⟨dnskeys, validateDnskeySet_sound hunforgeable hinjective
      (dnskeyRrset_unexpanded hplace hrrset) hvalid⟩

/-- The invariant of the walk: the keys are those of a zone above the labels that are left. -/
theorem walkLabels_sound (hstrict : layer.policy.strict = true) {remaining : ℕ} {ttl : ℕ} (hreaches : Reaches layer.env signed layer.anchors apex keys)
    (habove : apex.path <+: name.path.take (name.numLabels - remaining)) {ttl' : ℕ}
    (h : walkLabels layer name now remaining apex keys ttl s = (some (verdict, ttl'), s')) :
    verdict.Justified layer.env layer.sha1 signed layer.anchors name := by
  induction remaining generalizing apex keys ttl s with
  | zero =>
    cases h
    exact hreaches
  | succ remaining ih =>
    unfold walkLabels at h
    simp only at h
    split at h
    · cases h
    rename_i evidence s₁ hevidence
    set child := name.suffix (name.numLabels - remaining)
    obtain ⟨howned, hdsPlace, hdenial⟩ := delegationEvidence_ds hplace hevidence
    have hpath : child.path = name.path.take (name.numLabels - remaining) := suffix_path _ _
    have hcut : child.path <+: name.path := hpath ▸ List.take_prefix _ _
    have hstep : apex.path <+: child.path := by
      rw [hpath]
      exact habove.trans (take_prefix_take_left (by omega))
    split at h
    · split at h
      · cases h
      rename_i hvalid
      obtain ⟨sig, hsig, k, hk, hsigned⟩ := validateRrsetInZone_sound hvalid
      have hds : DsSet signed keys apex evidence.dsRecords child :=
        ⟨howned, signedSet_of_signedBy hunforgeable hdsPlace hsig hsigned hk⟩
      split at h
      · rename_i hnone
        cases h
        refine ⟨child, hcut, .unsupported hreaches hstep hds fun ds hmem => ?_⟩
        simpa using filter_eq_nil_iff.mp hnone ds hmem
      split at h
      · cases h
      rename_i keys' ttl₁ s₂ hzone
      obtain ⟨dnskeys, hkeys⟩ := zoneKeys_sound hunforgeable hinjective hplace hzone
      exact ih (.child hreaches hds (hkeys.mono fun ds hmem => (mem_filter.mp hmem).1))
        (hpath ▸ prefix_refl _) h
    · split at h
      · rename_i hclass
        cases h
        exact ⟨child, hcut, .absent hreaches hstep
          (classifySigned_sound hunforgeable hdenial hclass)⟩
      · exact ih hreaches (hpath ▸ hstep) h
      · cases h

/-- A chain that is found, in the cache or by a walk, is borne out. -/
theorem chainTo_sound (hstrict : layer.policy.strict = true) (hsound : Sound layer signed s) {found : Option ChainVerdict}
    (h : chainTo layer name now s = (found, s')) :
    Sound layer signed s' ∧ ∀ verdict, found = some verdict →
      verdict.Justified layer.env layer.sha1 signed layer.anchors name := by
  have hnothing : ∀ {s : Session σ}, Sound layer signed s → ∀ {s'}, (none, s) = (found, s') →
      Sound layer signed s' ∧ ∀ verdict, found = some verdict →
        verdict.Justified layer.env layer.sha1 signed layer.anchors name := by
    intro s hs s' heq
    cases heq
    exact ⟨hs, fun verdict hverdict => (by cases hverdict)⟩
  unfold chainTo at h
  split at h
  · exact hnothing hsound h
  split at h
  · rename_i verdict s₁ hcached
    cases h
    exact cached_sound hsound hcached
  rename_i s₁ hcached
  have hs₁ := (cached_sound hsound hcached).1
  split at h
  · exact hnothing hs₁ h
  have hroot := zoneKeys_chains layer .root layer.anchors now maxU32 s₁
  split at h
  · rename_i s₂ hzone
    rw [hzone] at hroot
    exact hnothing (fun entry hentry => hs₁ entry (hroot ▸ hentry)) h
  rename_i keys ttl s₂ hzone
  rw [hzone] at hroot
  have hs₂ : Sound layer signed s₂ := fun entry hentry => hs₁ entry (hroot ▸ hentry)
  obtain ⟨dnskeys, hkeys⟩ := zoneKeys_sound hunforgeable hinjective hplace hzone
  have hwalk := walkLabels_chains layer name now name.numLabels .root keys ttl s₂
  split at h
  · rename_i s₃ heq
    rw [heq] at hwalk
    exact hnothing (fun entry hentry => hs₂ entry (hwalk ▸ hentry)) h
  rename_i verdict ttl' s₃ heq
  rw [heq] at hwalk
  have hs₃ : Sound layer signed s₃ := fun entry hentry => hs₂ entry (hwalk ▸ hentry)
  have hverdict := walkLabels_sound hunforgeable hinjective hplace hstrict (.root hkeys)
    (List.nil_prefix) heq
  cases h
  refine ⟨remember_sound hs₃ hverdict _, fun verdict' hsame => ?_⟩
  obtain rfl := Option.some.inj hsame
  exact hverdict

lemma verdictFor_keeps (hstrict : layer.policy.strict = true) (hsound : Sound layer signed s) {verdict : Option Bool}
    (h : verdictFor layer response now s = (verdict, s')) : Sound layer signed s' := by
  have hchain : ∀ {name : Name} {found : Option ChainVerdict} {s₁ : Session σ},
      chainTo layer name now s = (found, s₁) → Sound layer signed s₁ :=
    fun heq => (chainTo_sound hunforgeable hinjective hplace hstrict hsound heq).1
  unfold verdictFor at h
  split at h
  · cases h
    exact hsound
  split at h
  · unfold negativeVerdict at h
    split at h
    · rename_i heq
      split at h <;> cases h <;> exact hchain heq
    · rename_i heq
      cases h
      exact hchain heq
  split at h
  · unfold unsignedVerdict at h
    split at h <;> rename_i heq <;> cases h <;> exact hchain heq
  unfold signedVerdict at h
  split at h
  · rename_i heq
    cases h
    exact hchain heq
  · rename_i heq
    cases h
    exact hchain heq
  · rename_i heq
    split at h <;> cases h <;> exact hchain heq

end Chain

/-- A response that the layer checks as a whole: it answers the question that was asked, and
if it carries a signature over the type or over a CNAME, the first such signature is by the
zone that contains the name, and there is nothing but the answer and signatures. -/
structure Plain (layer : ForwardValidateLayer σ) (signed : Signed) (question : Question)
    (response : Message) : Prop where
  rcode : response.answers ≠ [] → response.header.rcode = noError ∨ response.header.rcode = nxDomain
  asked : ∀ q, response.questions.head? = some q →
    q.name.path = question.name.path ∧ q.qtype = question.qtype
  signer : ∀ signer, answerSigner response = some signer →
    Contains layer.env signed layer.anchors signer question.name question.qtype
  answered : answerSigner response ≠ none →
    sectionRecords response.answers question.name question.qtype ≠ []
  alone : answerSigner response ≠ none → ∀ r ∈ response.answers,
    r.rtype = .RRSIG ∨ (r.rtype = question.qtype ∧ r.name.path = question.name.path)

/-- What a response with answers shows: an unsigned delegation, or a signature of the zone
over what is asked for or over the alias in its place; and AD stands for signatures over
everything. -/
structure Protected (layer : ForwardValidateLayer σ) (signed : Signed) (question : Question)
    (response : Message) : Prop where
  answers : response.answers ≠ [] →
    UnsignedAbove layer.env layer.sha1 signed layer.anchors question.name ∨
      AnswerSigned layer.env signed layer.anchors response.answers question.name question.qtype ∨
      AnswerSigned layer.env signed layer.anchors response.answers question.name .CNAME
  ad : response.header.authenticData = true → ∀ r ∈ response.answers,
    r.rtype = .RRSIG ∨ AnswerSigned layer.env signed layer.anchors response.answers r.name r.rtype

lemma sectionRecords_congr {a b : Name} (h : a.path = b.path) (records : List Record)
    (rtype : RecordType) : sectionRecords records a rtype = sectionRecords records b rtype := by
  refine filter_congr fun r _ => ?_
  congr 1
  rw [Bool.eq_iff_iff, eqIgnoreCase_path, eqIgnoreCase_path, h]

variable {rtype : RecordType} {anchors : List Ds} {env : Env}

lemma Contains.of_path {zone zone' : Name} (h : Contains env signed anchors zone name rtype)
    (hpath : zone.path = zone'.path) : Contains env signed anchors zone' name rtype := by
  obtain ⟨habove, hlowest⟩ := h
  unfold Above at habove
  rw [hpath] at habove hlowest
  exact ⟨habove, hlowest⟩

lemma AnswerSigned.of_path {answers : List Record}
    {other : Name} (h : AnswerSigned env signed anchors answers name rtype)
    (hpath : other.path = name.path) : AnswerSigned env signed anchors answers other rtype := by
  obtain ⟨zone, keys, hzone, ⟨habove, hlowest⟩, hsigned⟩ := h
  unfold Above at habove hlowest
  rw [← hpath] at habove hlowest
  refine ⟨zone, keys, hzone, ⟨habove, hlowest⟩, ?_⟩
  rwa [sectionRecords_congr hpath]

lemma mem_sectionRecords {records : List Record} {r : Record} :
    r ∈ sectionRecords records name rtype ↔
      r ∈ records ∧ r.rtype = rtype ∧ r.name.path = name.path := by
  simp [sectionRecords, eqIgnoreCase_path]

variable {question : Question}

lemma answerVerdict_sound (hunforgeable : Unforgeable layer.env signed)
    (hplace : Unexpanded layer.env response) {signer : Name} {authentic : Bool}
    (hne : sectionRecords response.answers question.name question.qtype ≠ [])
    (h : answerVerdict layer question response signer keys now = some authentic) :
    SignedSet signed keys signer (sectionRecords response.answers question.name question.qtype) := by
  unfold answerVerdict at h
  simp only at h
  split at h
  · contradiction
  split at h
  · cases h
  split at h
  · rename_i hvalid
    obtain ⟨sig, hsig, k, hk, hsigned⟩ := validateRrsetInZone_sound hvalid
    exact signedSet_of_signedBy hunforgeable (hplace.covering _ _) hsig hsigned hk
  · cases h

/-- A verdict that lets answers through rests on an unsigned delegation or on signatures. -/
theorem verdictFor_answers (hunforgeable : Unforgeable layer.env signed)
    (hinjective : DigestsInjective layer.env) (hplace : layer.Unexpanded)
    (hstrict : layer.policy.strict = true)
    (hsound : Sound layer signed s) (hresponse : Unexpanded layer.env response)
    (hplain : Plain layer signed question response) (hne : response.answers ≠ [])
    {authentic : Bool} (h : verdictFor layer response now s = (some authentic, s')) :
    (authentic = false ∧ UnsignedAbove layer.env layer.sha1 signed layer.anchors question.name) ∨
      (AnswerSigned layer.env signed layer.anchors response.answers question.name question.qtype ∧
        answerSigner response ≠ none) := by
  have hchain : ∀ {name : Name} {verdict : ChainVerdict} {s₁ : Session σ},
      chainTo layer name now s = (some verdict, s₁) →
      verdict.Justified layer.env layer.sha1 signed layer.anchors name :=
    fun heq => (chainTo_sound hunforgeable hinjective hplace hstrict hsound heq).2 _ rfl
  unfold verdictFor at h
  split at h
  · cases h
  rename_i asked hasked
  obtain ⟨hname, hqtype⟩ := hplain.asked asked hasked
  rw [if_neg hne] at h
  split at h
  · unfold unsignedVerdict at h
    split at h
    · rename_i heq
      cases h
      obtain ⟨cut, hcut, hunsigned⟩ := hchain heq
      exact .inl ⟨rfl, cut, hname ▸ hcut, hunsigned⟩
    · cases h
  rename_i signer hsigner
  have hsome : answerSigner response ≠ none := by rw [hsigner]; simp
  unfold signedVerdict at h
  split at h
  · cases h
  · rename_i heq
    cases h
    obtain ⟨cut, hcut, hunsigned⟩ := hchain heq
    exact .inl ⟨rfl, cut, hcut.trans (hplain.signer signer hsigner).above.1, hunsigned⟩
  rename_i keys apex s₁ heq
  split at h
  · rename_i hapex
    obtain ⟨hverdict, -⟩ := Prod.mk.inj h
    have hrecords := hplain.answered hsome
    rw [← sectionRecords_congr hname, ← hqtype] at hrecords
    obtain ⟨k, hk, sig, hsig, hset⟩ := answerVerdict_sound hunforgeable hresponse hrecords hverdict
    rw [hqtype, sectionRecords_congr hname] at hset
    have hpath := (eqIgnoreCase_path _ _).mp hapex
    have hcontains := (hplain.signer signer hsigner).of_path hpath.symm
    exact .inr ⟨⟨apex, keys, hchain heq, hcontains, k, hk, sig, hsig.trans hpath.symm, hset⟩, hsome⟩
  · cases h

lemma sectionRecords_keepPlain (h : isDnssecOnlyType rtype = false) (records : List Record) :
    sectionRecords (keepPlain records) name rtype = sectionRecords records name rtype := by
  rw [sectionRecords, keepPlain, filter_filter]
  refine filter_congr fun r _ => ?_
  by_cases hrtype : r.rtype = rtype
  · simp [hrtype, h]
  · simp [hrtype]

variable {request : Message}

/-- A signed answer is still whole once the signatures are taken out. -/
theorem strip_answerSigned
    (hsigned : AnswerSigned env signed anchors response.answers question.name question.qtype)
    (halone : ∀ r ∈ response.answers, r.rtype = .RRSIG ∨ (r.rtype = question.qtype ∧
      r.name.path = question.name.path))
    (hne : (stripDnssecUnlessRequested request response).answers ≠ []) :
    AnswerSigned env signed anchors (stripDnssecUnlessRequested request response).answers
      question.name question.qtype := by
  unfold stripDnssecUnlessRequested at hne ⊢
  split at hne
  · rename_i hwants
    rwa [if_pos hwants]
  rename_i hwants
  rw [if_neg hwants]
  obtain ⟨r, hr⟩ := exists_mem_of_ne_nil _ hne
  obtain ⟨hmem, hplain⟩ := mem_filter.mp hr
  rw [Bool.not_eq_true'] at hplain
  have hqtype : isDnssecOnlyType question.qtype = false := by
    rcases halone r hmem with hrrsig | ⟨hsame, -⟩
    · rw [hrrsig] at hplain
      exact absurd hplain (by decide)
    · rw [← hsame, hplain]
  obtain ⟨zone, keys, hzone, hcontains, hset⟩ := hsigned
  refine ⟨zone, keys, hzone, hcontains, ?_⟩
  rwa [sectionRecords_keepPlain hqtype]

lemma strip_subset (request response : Message) :
    ∀ r ∈ (stripDnssecUnlessRequested request response).answers, r ∈ response.answers := by
  intro r hr
  unfold stripDnssecUnlessRequested at hr
  split at hr
  · exact hr
  · exact (mem_filter.mp hr).1

lemma strip_header (request response : Message) :
    (stripDnssecUnlessRequested request response).header = response.header := by
  unfold stripDnssecUnlessRequested
  split <;> rfl

/-- The response of a request without CD, for a name outside the domains that are exempt. -/
def Covered (layer : ForwardValidateLayer σ) (request : Message) (question : Question) : Prop :=
  request.questions = [question] ∧ request.header.checkingDisabled = false ∧
    inInsecureDomain layer question = false

lemma conclude_protected (hpermissive : layer.policy.permissive = false)
    (hplain : Plain layer signed question response) {verdict : Option Bool}
    (hverdict : ∀ authentic, verdict = some authentic → response.answers ≠ [] → (authentic = false ∧
      UnsignedAbove layer.env layer.sha1 signed layer.anchors question.name) ∨ (AnswerSigned
      layer.env signed layer.anchors response.answers question.name question.qtype ∧ answerSigner
      response ≠ none)) {result : Message}
    (h : conclude layer request response verdict = .response result) :
    Protected layer signed question result := by
  unfold conclude at h
  split at h
  · rename_i authentic
    split at h
    · cases h
      exact ⟨fun hne => absurd rfl hne, fun _ r hr => absurd hr not_mem_nil⟩
    cases h
    set sent := stripDnssecUnlessRequested request
      (withAd response (authentic && asksForAd request))
    have hsub : ∀ r ∈ sent.answers, r ∈ response.answers := strip_subset request _
    have hfound : sent.answers ≠ [] → response.answers ≠ [] := by
      intro hne hnil
      obtain ⟨r, hr⟩ := exists_mem_of_ne_nil _ hne
      rw [hnil] at hsub
      exact absurd (hsub r hr) not_mem_nil
    have hkept : sent.answers ≠ [] → answerSigner response ≠ none →
        AnswerSigned layer.env signed layer.anchors response.answers question.name question.qtype →
        AnswerSigned layer.env signed layer.anchors sent.answers question.name question.qtype :=
      fun hne hsome hsigned => strip_answerSigned hsigned (hplain.alone hsome) hne
    refine ⟨fun hne => ?_, fun had r hr => ?_⟩
    · rcases hverdict authentic rfl (hfound hne) with ⟨-, hunsigned⟩ | ⟨hsigned, hsome⟩
      · exact .inl hunsigned
      · exact .inr (.inl (hkept hne hsome hsigned))
    have hauthentic : authentic = true := by
      rw [strip_header] at had
      exact (Bool.and_eq_true _ _ ▸ had).1
    have hne : sent.answers ≠ [] := ne_nil_of_mem hr
    rcases hverdict authentic rfl (hfound hne) with ⟨hfalse, -⟩ | ⟨hsigned, hsome⟩
    · exact absurd (hauthentic.symm.trans hfalse) (by decide)
    · refine (hplain.alone hsome r (hsub r hr)).imp_right fun ⟨hrtype, hpath⟩ => ?_
      rw [hrtype]
      exact (hkept hne hsome hsigned).of_path hpath
  · rw [hpermissive] at h
    cases h

section Step

variable (hunforgeable : Unforgeable layer.env signed) (hinjective : DigestsInjective layer.env)
  (hplace : layer.Unexpanded) (hstrict : layer.policy.strict = true)
include hunforgeable hinjective hplace hstrict

/-- A request keeps the cache sound, whatever the upstream answers. -/
theorem resolveOutcome_keeps (hsound : Sound layer signed s) (request : Message) (now : UInt32) :
    Sound layer signed (resolveOutcome layer request now s).2 := by
  unfold resolveOutcome
  split
  · split
    · exact hsound
    split
    · exact hsound
    unfold checkResponse
    split
    · exact hsound
    · rename_i response upstream _ _
      exact verdictFor_keeps hunforgeable hinjective hplace hstrict
        (show Sound layer signed { s with upstream, budget := maxChainQueries } from hsound) rfl
  · exact hsound

lemma resolveOutcome_protected (hpermissive : layer.policy.permissive = false)
    (hsound : Sound layer signed s) (hcovered : Covered layer request question)
    (hplain : ∀ response, (layer.inner (upstreamRequest request) s.upstream).1 = .response response
      → Plain layer signed question response) {result : Message}
    (h : (resolveOutcome layer request now s).1 = .response result) :
    Protected layer signed question result := by
  obtain ⟨hquestion, hcd, hdomain⟩ := hcovered
  unfold resolveOutcome at h
  rw [hquestion] at h
  simp only [hcd, Bool.false_and, Bool.false_eq_true, if_false] at h
  split at h
  · cases h
  rename_i response upstream hinner
  have hresponse := hplain response (by rw [hinner])
  unfold checkResponse at h
  split at h
  · rename_i hpass
    simp only [hdomain, Bool.false_eq_true, or_false] at hpass
    cases h
    -- a response code of its own is let through unchecked, but has no answers
    have hnil : response.answers = [] := by
      by_contra hne
      rcases hresponse.rcode hne with hcode | hcode
      · exact hpass.1 hcode
      · exact hpass.2 hcode
    have hsub := strip_subset request (withAd response false)
    refine ⟨fun hne => ?_, fun had => ?_⟩
    · obtain ⟨r, hr⟩ := exists_mem_of_ne_nil _ hne
      have hmem : r ∈ response.answers := hsub r hr
      rw [hnil] at hmem
      exact absurd hmem not_mem_nil
    · rw [strip_header] at had
      cases had
  · refine conclude_protected hpermissive hresponse (fun authentic hverdict hne => ?_) h
    exact verdictFor_answers hunforgeable hinjective hplace hstrict
      (show Sound layer signed { s with upstream, budget := maxChainQueries } from hsound)
      (hplace _ _ _ (congrArg Prod.fst hinner)) hresponse hne (Prod.ext hverdict rfl)

end Step

/-- The upstream answers the requests of a run with responses that are checked as a whole. -/
def AllPlain (layer : ForwardValidateLayer σ) (signed : Signed) :
    List (Message × UInt32) → Session σ → Prop
  | [], _ => True
  | (request, now) :: rest, s =>
    (∀ question response, Covered layer request question →
      (layer.inner (upstreamRequest request) s.upstream).1 = .response response →
      Plain layer signed question response) ∧
    AllPlain layer signed rest (resolveOutcome layer request now s).2

/-- What a request was answered is protected. -/
def Guarded (layer : ForwardValidateLayer σ) (signed : Signed) (request : Message)
    (outcome : ResolveOutcome) : Prop :=
  ∀ question response, Covered layer request question → outcome = .response response →
    Protected layer signed question response

lemma run_guarded (hunforgeable : Unforgeable layer.env signed)
    (hinjective : DigestsInjective layer.env) (hplace : layer.Unexpanded)
    (hstrict : layer.policy.strict = true) (hpermissive : layer.policy.permissive = false)
    {requests : List (Message × UInt32)} (hsound : Sound layer signed s)
    (hplain : AllPlain layer signed requests s) :
    List.Forall₂ (fun request outcome => Guarded layer signed request.1 outcome) requests
      (run layer requests s).1 := by
  induction requests generalizing s with
  | nil => exact .nil
  | cons head rest ih =>
    obtain ⟨request, now⟩ := head
    obtain ⟨hfirst, hrest⟩ := hplain
    refine .cons (fun question response hcovered houtcome => ?_) ?_
    · exact resolveOutcome_protected hunforgeable hinjective hplace hstrict hpermissive hsound
        hcovered (fun response hresponse => hfirst question response hcovered hresponse) houtcome
    · exact ih (resolveOutcome_keeps hunforgeable hinjective hplace hstrict hsound request now) hrest

end Sound

def rrsigRecord (owner : Name) (sig : Rrsig) : Record :=
  ⟨owner, .RRSIG, 1, 3600, .unknown .RRSIG sig.rdataBytes⟩

/-- The address of `a.`, and an alias to `b.` in its place. -/
def addressRecord : Record := ⟨childName, .A, 1, 3600, .a ⟨[10, 0, 0, 1], rfl⟩⟩
def aliasRecord : Record := ⟨childName, .CNAME, 1, 3600, .cname siblingName⟩

def rootKeySignature : Rrsig × (Bytes × Bytes) :=
  signSet Name.root rootKey Name.root .DNSKEY [keyRecord Name.root rootKey]

def addressSignature : Rrsig × (Bytes × Bytes) :=
  signSet Name.root rootKey childName .A [addressRecord]

def aliasSignature : Rrsig := ⟨.CNAME, 15, 1, 3600, 1000, 0, rootKey.keyTag, Name.root, []⟩

def reply (question : Question) (answers : List Record) : Message :=
  ⟨⟨1, true, 0, false, false, true, true, false, true, 0⟩, [question], answers, [], []⟩

def rootUpstream (answers : List Record) (request : Message) (s : Unit) : ResolveOutcome × Unit :=
  match request.questions.head? with
  | none => (.failure .transportExhausted, s)
  | some question =>
    if question.qtype = .DNSKEY then
      (.response
        (reply question [keyRecord Name.root rootKey, rrsigRecord Name.root rootKeySignature.1]), s)
    else (.response (reply question answers), s)

def rootLayer (log : List (Bytes × Bytes)) (answers : List Record) : ForwardValidateLayer Unit where
  inner := rootUpstream answers
  anchors := [rootAnchor]
  policy := ⟨true, false, false, [], false⟩
  env := loggedEnv log
  sha1 := id

def addressQuestion : Question := ⟨childName, .A, 1⟩

def addressRequest : Message := withAd (query 7 childName .A) true

def addressLog : List (Bytes × Bytes) := [rootKeySignature.2, addressSignature.2]

def addressAnswers : List Record := [addressRecord, rrsigRecord childName addressSignature.1]

lemma signedData_take (sig : Rrsig) (rrset : List Record) :
    (signedData sig rrset).take 2 = be16 sig.typeCovered := by
  rw [signedData, append_assoc, take_append_of_le_length (by rw [be16_length]),
    take_of_length_le (by rw [be16_length])]

lemma rtype_of_signedSet {log : List (Bytes × Bytes)} (types : List RecordType)
    (hlog : ∀ entry ∈ log, ∃ rtype ∈ types, entry.2.take 2 = be16 rtype) {zone : Name}
    {rrset : List Record} (h : SignedSet (logged log) keys zone rrset) :
    ∃ first ∈ rrset, first.rtype ∈ types := by
  obtain ⟨k, -, sig, -, -, ⟨first, hhead, happlies⟩, hsigned⟩ := h
  obtain ⟨rtype, hmem, htake⟩ := hlog _ hsigned
  rw [signedData_take] at htake
  simp only [rrsigAppliesToRrset, Bool.and_eq_true, beq_iff_eq] at happlies
  refine ⟨first, mem_of_head? hhead, ?_⟩
  rw [← happlies.1.1, ← ofBe16_be16 sig.typeCovered, htake, ofBe16_be16]
  exact hmem

lemma addressLog_root {env : Env} {anchors : List Ds} {zone : Name}
    (h : Reaches env (logged addressLog) anchors zone keys) : zone.path = [] := by
  cases h with
  | root hkeys => rfl
  | child hzone hds hkeys =>
    obtain ⟨first, hmem, hrtype⟩ := rtype_of_signedSet [.DNSKEY, .A] (by decide +kernel) hds.signed
    rw [(hds.owned first hmem).1] at hrtype
    exact absurd hrtype (by decide)

lemma unexpanded_reply {env : Env} (question : Question) {answers : List Record}
    (h : ∀ r ∈ answers, ∀ r' ∈ answers, (Rrsig.fromRecord r').all fun sig =>
      r.name.numLabels ≤ sig.labels.toNat) : Unexpanded env (reply question answers) := by
  intro records hrecords rrset hsub r' hr' sig hsig
  simp only [mem_cons, not_mem_nil, or_false] at hrecords
  rcases hrecords with rfl | rfl
  · refine unexpanded_of_labels (forall_mem_singleton.mpr fun r hr => ?_)
    have hall := h r (hsub hr) r' hr'
    rw [hsig] at hall
    simpa using hall
  · exact absurd hr' not_mem_nil

lemma addressLayer_unexpanded : (rootLayer addressLog addressAnswers).Unexpanded := by
  intro request upstream response hresponse
  change (rootUpstream addressAnswers request upstream).1 = _ at hresponse
  unfold rootUpstream at hresponse
  split at hresponse
  · cases hresponse
  rename_i question _
  split at hresponse <;> cases hresponse <;> exact unexpanded_reply question (by decide +kernel)

end OnetDns.Dnssec.Forward
