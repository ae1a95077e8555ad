import OnetDns.Filter.DomainSet
import OnetDns.Dns.RData

/-!
# The block engine

`BlockEngine` of `onetdns-filter/src/engine.rs` and the types of verdicts of
`onetdns-core/src/policy.rs`. `classify` goes through the rules in a fixed order and
the first that applies decides; here that order is the list `ladder`. Hit counters are
read by the statistics only: a decision says whether it raises one.
-/
namespace OnetDns.Filter
open Dns

inductive IpAddr where
  | v4 (bits : BitVec 32)
  | v6 (bits : BitVec 128)

/-- `v4_mask` and `v6_mask`. -/
def netMask (width len : ℕ) : BitVec width :=
  if len = 0 then 0
  else if width ≤ len then BitVec.allOnes width
  else BitVec.allOnes width <<< (width - len)

structure IpNet where
  network : IpAddr
  len : ℕ

def IpNet.contains (net : IpNet) (addr : IpAddr) : Bool :=
  match net.network, addr with
  | .v4 network, .v4 ip => network &&& netMask 32 net.len == ip &&& netMask 32 net.len
  | .v6 network, .v6 ip => network &&& netMask 128 net.len == ip &&& netMask 128 net.len
  | _, _ => false

structure ClientInfo where
  sourceIp : IpAddr
  clientId : Option Str

/-- `eq_ignore_ascii_case`. -/
def sameText (a b : Str) : Bool := a.map asciiLower == b.map asciiLower

/-- `Iterator::max_by_key`: the last of the largest. -/
def maxByKey {α : Type} (key : α → ℕ) : List α → Option α
  | [] => none
  | a :: rest => some (rest.foldl (fun best b => if key best ≤ key b then b else best) a)

inductive BlockResponse where
  | nxDomain
  | zeroIp
  | refused
  | noData
  | custom (v4 : Option (BitVec 32)) (v6 : Option (BitVec 128))
  deriving DecidableEq

inductive RewriteTarget where
  | records (rdata : List RData)
  | cname (name : Name)
  deriving DecidableEq

inductive FilterVerdict where
  | allow
  | block (response : BlockResponse)
  | rewrite (target : RewriteTarget)
  deriving DecidableEq

inductive MatchStage where
  | clientPolicyDisable | clientPolicyAllow | clientPolicyBlock
  | rpzClientIp
  | clientRuleAllow | clientRuleBlock
  | importantAllow | importantBlock
  | refuse | noData | rewrite
  | allow | regexAllow
  | block | regexBlock | typedBlock
  | defaultAllow

/-- What the engine needs of regular expressions, one by one and in bundles. -/
class RegexEngine (R : Type) where
  Bundle : Type
  new : Str → Option R
  isMatch : R → Str → Bool
  newBundle : List Str → Option Bundle
  bundleMatch : Bundle → Str → Bool

/-- `name_matches_suffix`: at a dot only. -/
def nameMatchesSuffix (name suffix : Str) : Bool :=
  name == suffix ||
    (suffix.length < name.length && suffix.isSuffixOf name &&
      name[name.length - suffix.length - 1]? == some 46)

/-- Text that maps to rewrites: whole names, and names with everything below them. -/
structure RewriteSet where
  exact : List (Str × RewriteTarget)
  suffix : List (Str × RewriteTarget)

namespace RewriteSet

def isEmpty (s : RewriteSet) : Bool := s.exact.isEmpty && s.suffix.isEmpty

def getSuffix (s : RewriteSet) (rest : Str) : Option RewriteTarget :=
  match s.suffix.lookup rest with
  | some target => some target
  | none =>
    match _h : afterDot rest with
    | some shorter => s.getSuffix shorter
    | none => none
termination_by rest.length
decreasing_by exact afterDot_length _h

def get (s : RewriteSet) (normalized : Str) : Option RewriteTarget :=
  match s.exact.lookup normalized with
  | some target => some target
  | none => s.getSuffix normalized

end RewriteSet

structure StaticZone where
  zone : Str
  names : List (Str × RewriteTarget)
  interior : List Str

inductive LocalZoneAction where
  | deny
  | refuse
  | rewrite (target : RewriteTarget)
  | static (data : StaticZone)
  | transparent

/-- `answer`, as the verdict that `classify` makes of it. -/
def StaticZone.answer (data : StaticZone) (normalized : Str) : FilterVerdict :=
  match data.names.lookup normalized with
  | some target => .rewrite target
  | none =>
    if normalized = data.zone ∨ normalized ∈ data.interior then .block .noData
    else .block .nxDomain

structure LocalZoneSet where
  zones : List (Str × LocalZoneAction)

namespace LocalZoneSet

def isEmpty (s : LocalZoneSet) : Bool := s.zones.isEmpty

/-- The most specific zone around a name; the root zone has the empty name. -/
def lookup (s : LocalZoneSet) (rest : Str) : Option (Str × LocalZoneAction) :=
  match s.zones.lookup rest with
  | some action => some (rest, action)
  | none =>
    match _h : afterDot rest with
    | some shorter => s.lookup shorter
    | none => if rest = [] then none else (s.zones.lookup []).map ([], ·)
termination_by rest.length
decreasing_by exact afterDot_length _h

end LocalZoneSet

structure RpzIpRule where
  net : IpNet
  verdict : FilterVerdict
  display : Str

structure RpzNameRule where
  suffix : Name
  verdict : FilterVerdict

/-- `ends_with_ignore_case`. -/
def RpzNameRule.matches' (rule : RpzNameRule) (ns : Name) : Bool :=
  (lowerLabels rule.suffix.labels).isSuffixOf (lowerLabels ns.labels)

inductive ClientCond where
  | net (negated : Bool) (net : IpNet)
  | id (negated : Bool) (id : Str)

structure ClientRule where
  domain : Str
  regex : Option Str
  allow : Bool
  clients : List ClientCond
  ctags : List (Bool × Str)
  denyallow : List Str

/-- The loop over conditions: no negated one may hold, and one of the others has to if there are
any. A condition comes with whether it is negated and whether it holds. -/
def conditionsHold (conditions : List (Bool × Bool)) : Bool :=
  conditions.all (fun (negated, holds) => !(negated && holds)) &&
    (conditions.all (fun (negated, _) => negated) ||
      conditions.any fun (negated, holds) => !negated && holds)

namespace ClientRule

def condition (client : ClientInfo) : ClientCond → Bool × Bool
  | .net negated net => (negated, net.contains client.sourceIp)
  | .id negated id => (negated, (client.clientId.map (sameText · id)).getD false)

def applies (rule : ClientRule) (key : Str) (client : ClientInfo) (tags : List Str) : Bool :=
  (rule.domain.isEmpty || nameMatchesSuffix key rule.domain) &&
    !rule.denyallow.any (nameMatchesSuffix key) &&
    conditionsHold (rule.clients.map (condition client)) &&
    conditionsHold (rule.ctags.map fun (negated, tag) => (negated, tags.any (sameText · tag)))

/-- `rule_key`. -/
def key (rule : ClientRule) : Option Str :=
  if rule.domain.isEmpty then rule.regex else some rule.domain

end ClientRule

structure ClientPolicy (C : Type) where
  nets : List IpNet
  ids : List Str
  tags : List Str
  block : DomainSet C
  allow : DomainSet C
  disableFiltering : Bool

namespace ClientPolicy

variable {C : Type} [CompactMap C]

/-- `matches`. -/
def isFor (policy : ClientPolicy C) (client : ClientInfo) : Bool :=
  policy.nets.any (·.contains client.sourceIp) ||
    (client.clientId.map fun id => policy.ids.any (sameText · id)).getD false

def affectsVerdict (policy : ClientPolicy C) : Bool :=
  !policy.block.isEmpty || !policy.allow.isEmpty || policy.disableFiltering

def enableHits (hasher : Str → UInt64) (policy : ClientPolicy C) : ClientPolicy C :=
  { policy with block := policy.block.enableHits hasher, allow := policy.allow.enableHits hasher }

end ClientPolicy

structure RegexMatcher (R : Type) [RegexEngine R] where
  chunks : List (RegexEngine.Bundle R × List (Str × R))
  individual : List (Str × R)

namespace RegexMatcher

variable {R : Type} [RegexEngine R]

/-- The first pattern that matches. -/
def find (matcher : RegexMatcher R) (text : Str) : Option Str :=
  let first (members : List (Str × R)) : Option Str :=
    (members.find? fun (_, re) => RegexEngine.isMatch re text).map Prod.fst
  (matcher.chunks.findSome? fun (bundle, members) =>
    if RegexEngine.bundleMatch bundle text then first members else none) <|>
    first matcher.individual

def compiled (patterns : List Str) : List (Str × R) :=
  patterns.filterMap fun pattern => (RegexEngine.new pattern).map (pattern, ·)

def setChunk : ℕ := 32

/-- The loop of `build_regexes`, a chunk at a time. -/
def bundle : (fuel : ℕ) → List (Str × R) → RegexMatcher R → RegexMatcher R
  | _, [], matcher => matcher
  | 0, _, matcher => matcher
  | fuel + 1, patterns, matcher =>
    let chunk := patterns.take setChunk
    bundle fuel (patterns.drop setChunk) <|
      match RegexEngine.newBundle (R := R) (chunk.map Prod.fst) with
      | some set => { matcher with chunks := matcher.chunks ++ [(set, chunk)] }
      | none => { matcher with individual := matcher.individual ++ chunk }

/-- `build_regexes`. -/
def build (patterns : List Str) : RegexMatcher R :=
  bundle patterns.length (compiled patterns) ⟨[], []⟩

end RegexMatcher

structure EngineParts (C : Type) where
  block : DomainSet C
  allow : DomainSet C
  blockImportant : DomainSet C
  allowImportant : DomainSet C
  refuse : DomainSet C
  nodata : DomainSet C
  typedBlock : List (RecordType × DomainSet C)
  typedBlockExcept : List (List RecordType × DomainSet C)
  regexBlock : List Str
  regexAllow : List Str
  regexBlockImportant : List Str
  regexAllowImportant : List Str
  regexRefuse : List Str
  regexNodata : List Str
  regexRewrites : List (Str × RewriteTarget)
  regexTypedBlock : List (RecordType × Str)
  regexTypedBlockExcept : List (List RecordType × Str)
  rewrites : RewriteSet
  localZones : LocalZoneSet
  clientRules : List ClientRule
  rpzClientIp : List RpzIpRule
  rpzIp : List RpzIpRule
  rpzNsdname : List RpzNameRule
  rpzNsip : List RpzIpRule
  sources : List Str

namespace EngineParts

variable {C : Type} [CompactMap C]

variable (p : EngineParts C)

def domainSets : List (DomainSet C) :=
  [p.block, p.allow, p.blockImportant, p.allowImportant, p.refuse, p.nodata] ++
    p.typedBlock.map Prod.snd ++ p.typedBlockExcept.map Prod.snd

/-- A change of every set, as with `domain_sets_mut`. -/
def mapSets (f : DomainSet C → DomainSet C) (p : EngineParts C) : EngineParts C :=
  { p with
    block := f p.block
    allow := f p.allow
    blockImportant := f p.blockImportant
    allowImportant := f p.allowImportant
    refuse := f p.refuse
    nodata := f p.nodata
    typedBlock := p.typedBlock.map fun (t, set) => (t, f set)
    typedBlockExcept := p.typedBlockExcept.map fun (ts, set) => (ts, f set) }

def finalizeDomainSets (hasher : Str → UInt64) (p : EngineParts C) : EngineParts C :=
  p.mapSets (·.finalize hasher)

def hasVerdictRules : Bool :=
  p.domainSets.any (fun set => !set.isEmpty) || !p.regexBlock.isEmpty || !p.regexAllow.isEmpty ||
    !p.regexBlockImportant.isEmpty || !p.regexAllowImportant.isEmpty || !p.regexRefuse.isEmpty ||
    !p.regexNodata.isEmpty || !p.regexRewrites.isEmpty || !p.regexTypedBlock.isEmpty ||
    !p.regexTypedBlockExcept.isEmpty || !p.rewrites.isEmpty || !p.localZones.isEmpty ||
    !p.clientRules.isEmpty || !p.rpzClientIp.isEmpty

def localZone (key : Str) : Option (Str × LocalZoneAction) :=
  if p.localZones.isEmpty then none else p.localZones.lookup key

end EngineParts

structure BlockEngine (C R : Type) [RegexEngine R] where
  parts : EngineParts C
  hasVerdictRules : Bool
  regexBlock : RegexMatcher R
  regexAllow : RegexMatcher R
  regexBlockImportant : RegexMatcher R
  regexAllowImportant : RegexMatcher R
  regexRefuse : RegexMatcher R
  regexNodata : RegexMatcher R
  regexRewrites : List (Str × R × RewriteTarget)
  regexTyped : List (RecordType × Str × R)
  regexTypedExcept : List (List RecordType × Str × R)
  clientRuleRegex : List (Option R)
  defaultBlock : BlockResponse
  clients : List (ClientPolicy C)
  trackHits : Bool

/-- A verdict, why it was given, and whether a hit counter is raised with it. -/
structure Decision where
  verdict : FilterVerdict
  stage : MatchStage
  matched : Option Str
  counted : Bool

structure FilterExplanation where
  verdict : FilterVerdict
  stage : MatchStage
  matched : Option Str
  source : Option Str

/-- One label of `normalize_into`: lower case, with a dot in front of all but the first. -/
def appendLabel (buf : Option Str) (label : Bytes) : Option Str := do
  let buf ← buf
  let buf := (if buf.isEmpty then buf else buf ++ [46]) ++ label.map asciiLower
  if 256 < buf.length then none else some buf

/-- The bytes of `String::from_utf8_lossy`: the number of bytes of the character in front, or of
the bytes that are replaced. -/
def utf8Step : Str → ℕ × Bool
  | [] => (0, true)
  | b :: rest =>
    let second (lo hi : UInt8) : Bool := (rest[0]?.map fun c => lo ≤ c && c ≤ hi).getD false
    let more (i : ℕ) : Bool := (rest[i]?.map fun c => 0x80 ≤ c && c ≤ 0xBF).getD false
    let three (lo hi : UInt8) : ℕ × Bool :=
      if second lo hi then if more 1 then (3, true) else (2, false) else (1, false)
    let four (lo hi : UInt8) : ℕ × Bool :=
      if second lo hi then
        if more 1 then if more 2 then (4, true) else (3, false) else (2, false)
      else (1, false)
    if b < 0x80 then (1, true)
    else if b < 0xC2 then (1, false)
    else if b < 0xE0 then if more 0 then (2, true) else (1, false)
    else if b = 0xE0 then three 0xA0 0xBF
    else if b = 0xED then three 0x80 0x9F
    else if b < 0xF0 then three 0x80 0xBF
    else if b = 0xF0 then four 0x90 0xBF
    else if b < 0xF4 then four 0x80 0xBF
    else if b = 0xF4 then four 0x80 0x8F
    else (1, false)

def fromUtf8Lossy : (fuel : ℕ) → Str → Str
  | 0, _ => []
  | _, [] => []
  | fuel + 1, bytes =>
    let (size, valid) := utf8Step bytes
    (if valid then bytes.take size else [0xEF, 0xBF, 0xBD]) ++ fromUtf8Lossy fuel (bytes.drop size)

def normalizeInto (name : Name) : Option Str :=
  (name.labels.foldl appendLabel (some [])).map fun buf => fromUtf8Lossy buf.length buf

namespace BlockEngine

variable {C R : Type} [CompactMap C] [RegexEngine R]

def new (hasher : Str → UInt64) (parts : EngineParts C) (defaultBlock : BlockResponse) :
    BlockEngine C R :=
  let parts := parts.finalizeDomainSets hasher
  { parts
    hasVerdictRules := parts.hasVerdictRules
    regexBlock := .build parts.regexBlock
    regexAllow := .build parts.regexAllow
    regexBlockImportant := .build parts.regexBlockImportant
    regexAllowImportant := .build parts.regexAllowImportant
    regexRefuse := .build parts.regexRefuse
    regexNodata := .build parts.regexNodata
    regexRewrites := parts.regexRewrites.filterMap fun (pattern, target) =>
      (RegexEngine.new pattern).map (pattern, ·, target)
    regexTyped := parts.regexTypedBlock.filterMap fun (rtype, pattern) =>
      (RegexEngine.new pattern).map (rtype, pattern, ·)
    regexTypedExcept := parts.regexTypedBlockExcept.filterMap fun (excluded, pattern) =>
      (RegexEngine.new pattern).map (excluded, pattern, ·)
    clientRuleRegex := parts.clientRules.map fun rule => rule.regex.bind RegexEngine.new
    defaultBlock
    clients := []
    trackHits := false }

variable (e : BlockEngine C R)

def withClients (clients : List (ClientPolicy C)) : BlockEngine C R :=
  { e with
    hasVerdictRules := e.hasVerdictRules ||
      clients.any fun client => !client.block.isEmpty || !client.allow.isEmpty
    clients }

def withHitTracking (hasher : Str → UInt64) (e : BlockEngine C R) (on : Bool) : BlockEngine C R :=
  if on then
    { e with
      trackHits := on
      parts := e.parts.mapSets (·.enableHits hasher)
      clients := e.clients.map (·.enableHits hasher) }
  else { e with trackHits := on }

/-- The engines that can be built. -/
inductive Built : BlockEngine C R → Prop where
  | new (hasher : Str → UInt64) (parts : EngineParts C) (defaultBlock : BlockResponse) :
      Built (.new hasher parts defaultBlock)
  | withClients {e : BlockEngine C R} (h : Built e) (clients : List (ClientPolicy C)) :
      Built (e.withClients clients)
  | withHitTracking {e : BlockEngine C R} (h : Built e) (hasher : Str → UInt64) (on : Bool) :
      Built (e.withHitTracking hasher on)

def lookup (set : DomainSet C) (key : Str) (count : Bool) : Option (Str × Bool) :=
  if count then (set.hit key).map (·, true) else (set.matched key).map (·, false)

def ofSet (set : DomainSet C) (key : Str) (count : Bool) (verdict : FilterVerdict)
    (stage : MatchStage) : Option Decision :=
  (lookup set key count).map fun (rule, counted) => ⟨verdict, stage, some rule, counted⟩

def ofRegex (matcher : RegexMatcher R) (key : Str) (verdict : FilterVerdict)
    (stage : MatchStage) : Option Decision :=
  (matcher.find key).map fun pattern => ⟨verdict, stage, some pattern, false⟩

/-- A rung for the local zone of the name, if its action is one that `pick` takes. -/
def ofZone (zone : Option (Str × LocalZoneAction)) (count : Bool) (stage : MatchStage)
    (pick : LocalZoneAction → Option FilterVerdict) : Option Decision := do
  let (name, action) ← zone
  let verdict ← pick action
  return ⟨verdict, stage, some name, count⟩

def ofPolicy (policy : Option (ClientPolicy C)) (key : Str) (count : Bool)
    (block : FilterVerdict) : List (Option Decision) :=
  match policy with
  | none => []
  | some policy =>
    [if policy.disableFiltering then some ⟨.allow, .clientPolicyDisable, none, false⟩ else none,
      ofSet policy.allow key count .allow .clientPolicyAllow,
      ofSet policy.block key count block .clientPolicyBlock]

def ofClientIp (rules : List RpzIpRule) (client : ClientInfo) : Option Decision :=
  (maxByKey (fun rule => rule.net.len)
    (rules.filter fun rule => rule.net.contains client.sourceIp)).map
    fun rule => ⟨rule.verdict, .rpzClientIp, some rule.display, false⟩

def ruleApplies (key : Str) (client : ClientInfo) (tags : List Str)
    (rule : ClientRule) (index : ℕ) : Bool :=
  (rule.regex.isNone || match e.clientRuleRegex[index]? with
    | some (some re) => RegexEngine.isMatch re key
    | _ => false) && rule.applies key client tags

def ofClientRules (key : Str) (client : ClientInfo) (tags : List Str)
    (allow : Bool) (verdict : FilterVerdict) (stage : MatchStage) : Option Decision :=
  (e.parts.clientRules.zipIdx.find? fun (rule, index) =>
    rule.allow == allow && e.ruleApplies key client tags rule index).map
    fun (rule, _) => ⟨verdict, stage, rule.key, false⟩

def ofTyped (key : Str) (qtype : RecordType) (count : Bool)
    (block : FilterVerdict) : List (Option Decision) :=
  [e.parts.typedBlockExcept.findSome? fun (excluded, set) =>
      if qtype ∈ excluded then none else ofSet set key count block .typedBlock,
    e.parts.typedBlock.findSome? fun (rtype, set) =>
      if rtype = qtype then ofSet set key count block .typedBlock else none,
    (e.regexTypedExcept.find? fun (excluded, _, re) =>
      qtype ∉ excluded && RegexEngine.isMatch re key).map
      fun (_, pattern, _) => ⟨block, .typedBlock, some pattern, false⟩,
    (e.regexTyped.find? fun (rtype, _, re) => rtype = qtype && RegexEngine.isMatch re key).map
      fun (_, pattern, _) => ⟨block, .typedBlock, some pattern, false⟩]

/-- The rules that look at the client. -/
def clientRungs (key : Str) (client : ClientInfo) (count : Bool) :
    List (Option Decision) :=
  let policy := e.clients.find? (·.isFor client)
  let tags := (policy.map ClientPolicy.tags).getD []
  let block := FilterVerdict.block e.defaultBlock
  ofPolicy policy key count block ++
  [ofClientIp e.parts.rpzClientIp client,
    ofClientRules e key client tags true .allow .clientRuleAllow,
    ofClientRules e key client tags false block .clientRuleBlock]

/-- The rules that do not. -/
def commonRungs (key : Str) (qtype : RecordType) (count : Bool) :
    List (Option Decision) :=
  let p := e.parts
  let block := FilterVerdict.block e.defaultBlock
  let zone := p.localZone key
  [ofSet p.allowImportant key count .allow .importantAllow,
    ofRegex e.regexAllowImportant key .allow .importantAllow,
    ofSet p.blockImportant key count block .importantBlock,
    ofRegex e.regexBlockImportant key block .importantBlock,
    ofSet p.refuse key count (.block .refused) .refuse,
    ofRegex e.regexRefuse key (.block .refused) .refuse,
    ofZone zone count .refuse fun
      | .refuse => some (.block .refused)
      | _ => none,
    ofSet p.nodata key count (.block .noData) .noData,
    ofRegex e.regexNodata key (.block .noData) .noData,
    (p.rewrites.get key).map fun target => ⟨.rewrite target, .rewrite, none, false⟩,
    ofZone zone count .rewrite fun
      | .rewrite target => some (.rewrite target)
      | _ => none,
    ofZone zone count .rewrite fun
      | .static data => some (data.answer key)
      | _ => none,
    (e.regexRewrites.find? fun (_, re, _) => RegexEngine.isMatch re key).map
      fun (pattern, _, target) => ⟨.rewrite target, .rewrite, some pattern, false⟩,
    ofSet p.allow key count .allow .allow,
    ofRegex e.regexAllow key .allow .regexAllow,
    ofSet p.block key count block .block,
    ofZone zone count .block fun
      | .deny => some block
      | _ => none,
    ofRegex e.regexBlock key block .regexBlock] ++
  ofTyped e key qtype count block

/-- The rules in their order. -/
def ladder (key : Str) (qtype : RecordType) (client : ClientInfo)
    (count : Bool) : List (Option Decision) :=
  e.clientRungs key client count ++ e.commonRungs key qtype count

def classify (key : Str) (qtype : RecordType) (client : ClientInfo)
    (count : Bool) : Decision :=
  ((e.ladder key qtype client count).findSome? id).getD ⟨.allow, .defaultAllow, none, false⟩

def verdict (e : BlockEngine C R) (name : Name) (qtype : RecordType) (client : ClientInfo) :
    FilterVerdict :=
  if e.hasVerdictRules = false then .allow
  else
    match normalizeInto name with
    | none => .allow
    | some key => (e.classify key qtype client e.trackHits).verdict

/-- The list that the deciding rule came from. -/
def sourceName (stage : MatchStage) (key : Str) : Option Str := do
  let set ← match stage with
    | .block => some e.parts.block
    | .importantBlock => some e.parts.blockImportant
    | .allow => some e.parts.allow
    | .importantAllow => some e.parts.allowImportant
    | .refuse => some e.parts.refuse
    | .noData => some e.parts.nodata
    | _ => none
  let id ← set.sourceOf key
  if id = noSource then none else e.parts.sources[id.toNat]?

def explain (name : Name) (qtype : RecordType) (client : ClientInfo) :
    FilterExplanation :=
  match normalizeInto name with
  | none => ⟨.allow, .defaultAllow, none, none⟩
  | some key =>
    let decision := e.classify key qtype client false
    ⟨decision.verdict, decision.stage, decision.matched,
      decision.matched.bind fun _ => e.sourceName decision.stage key⟩

def hasRpzIp : Bool := !e.parts.rpzIp.isEmpty

def rpzIpVerdict (ip : IpAddr) : Option FilterVerdict :=
  (maxByKey (fun rule => rule.net.len)
    (e.parts.rpzIp.filter fun rule => rule.net.contains ip)).map RpzIpRule.verdict

def hasRpzNs : Bool := !e.parts.rpzNsdname.isEmpty || !e.parts.rpzNsip.isEmpty

def rpzNsVerdict (nsNames : List Name) (nsIps : List IpAddr) :
    Option FilterVerdict :=
  if e.hasRpzNs = false then none
  else
    match maxByKey (fun rule => rule.net.len)
        (nsIps.flatMap fun ip => e.parts.rpzNsip.filter fun rule => rule.net.contains ip) with
    | some rule => some rule.verdict
    | none =>
      (maxByKey (fun rule => rule.suffix.labels.length)
        (nsNames.flatMap fun name => e.parts.rpzNsdname.filter (·.matches' name))).map
        RpzNameRule.verdict

def hasClientSpecificRules : Bool :=
  !e.parts.clientRules.isEmpty || !e.parts.rpzClientIp.isEmpty ||
    e.clients.any ClientPolicy.affectsVerdict

def isTriviallyAllow : Bool := !e.hasVerdictRules && e.clients.isEmpty

def blocksWire : Bool := !e.isTriviallyAllow || e.hasRpzNs || e.hasRpzIp

end BlockEngine

end OnetDns.Filter
