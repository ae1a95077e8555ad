import OnetDns.Filter.Engine

/-!
# The gate of the fast path

The fast path answers without asking the engine when `blocksWire` is false. The gate
is sound: the flag `hasVerdictRules` covers every rule on the ladder, the flag for
client rules covers every rung that looks at the client, and counting hits changes no
verdict.
-/
namespace OnetDns.Filter
open Dns List Option DomainSet EngineParts

variable {C R : Type} [CompactMap C] [RegexEngine R]

lemma DomainSet.matched_of_isEmpty {set : DomainSet C} (h : set.isEmpty = true) (key : Str) :
    set.matched key = none := by
  simp [matched, matchedKv, h]

variable (set : DomainSet C) (key : Str)

lemma DomainSet.hit_eq_matched : set.hit key = set.matched key := by
  simp [hit, matched, map_eq_bind]

@[simp] lemma DomainSet.isEmpty_enableHits (hasher : Str → UInt64) (set : DomainSet C) :
    (set.enableHits hasher).isEmpty = set.isEmpty := rfl

lemma RewriteSet.get_of_isEmpty {set : RewriteSet} (h : set.isEmpty = true) (key : Str) :
    set.get key = none := by
  obtain ⟨hexact, hsuffix⟩ : set.exact = [] ∧ set.suffix = [] := by
    simpa [isEmpty] using h
  have hloop : ∀ rest, set.getSuffix rest = none := by
    intro rest
    induction hn : rest.length using Nat.strong_induction_on generalizing rest with
    | _ n ih =>
      rw [getSuffix, hsuffix]
      simp only [lookup_nil]
      split
      · rename_i shorter hshorter
        exact ih shorter.length (hn ▸ afterDot_length hshorter) shorter rfl
      · rfl
  rw [get, hexact]
  exact hloop key

/-- A decision without its effect on the counters. -/
def Decision.reason (d : Decision) : FilterVerdict × MatchStage × Option Str :=
  (d.verdict, d.stage, d.matched)

open Decision

namespace BlockEngine

lemma lookup_rule (count : Bool) : (lookup set key count).map Prod.fst = set.matched key := by
  cases count <;> simp [lookup, hit_eq_matched, Function.comp_def]

lemma ofSet_reason (count : Bool) (verdict : FilterVerdict)
    (stage : MatchStage) : (ofSet set key count verdict stage).map reason =
      (set.matched key).map fun rule => (verdict, stage, some rule) := by
  rw [← lookup_rule set key count, ofSet, Option.map_map, Option.map_map]
  rfl

lemma ofZone_reason (zone : Option (Str × LocalZoneAction)) (count count' : Bool)
    (stage : MatchStage) (pick : LocalZoneAction → Option FilterVerdict) :
    (ofZone zone count stage pick).map reason = (ofZone zone count' stage pick).map reason := by
  cases zone with
  | none => rfl
  | some zone =>
    obtain ⟨name, action⟩ := zone
    cases hpick : pick action <;> simp [ofZone, hpick, reason]

lemma ofPolicy_reason (policy : Option (ClientPolicy C)) (key : Str) (count count' : Bool)
    (block : FilterVerdict) : (ofPolicy policy key count block).map (Option.map reason) =
      (ofPolicy policy key count' block).map (Option.map reason) := by
  cases policy with
  | none => rfl
  | some policy => simp [ofPolicy, ofSet_reason]

variable (e : BlockEngine C R)

lemma ofTyped_reason (key : Str) (qtype : RecordType)
    (count count' : Bool) (block : FilterVerdict) :
    (ofTyped e key qtype count block).map (Option.map reason) =
      (ofTyped e key qtype count' block).map (Option.map reason) := by
  have hset : ∀ set : DomainSet C, (ofSet set key count block .typedBlock).map reason =
      (ofSet set key count' block .typedBlock).map reason := by
    intro set
    rw [ofSet_reason, ofSet_reason]
  simp [ofTyped, Function.comp_def, apply_ite (Option.map reason), hset]

lemma ladder_reason (key : Str) (qtype : RecordType) (client : ClientInfo)
    (count count' : Bool) :
    (e.ladder key qtype client count).map (Option.map reason) =
      (e.ladder key qtype client count').map (Option.map reason) := by
  have hset : ∀ (set : DomainSet C) verdict stage,
      (ofSet set key count verdict stage).map reason =
        (ofSet set key count' verdict stage).map reason := by
    intro set verdict stage
    rw [ofSet_reason, ofSet_reason]
  simp [ladder, clientRungs, commonRungs, ofPolicy_reason _ key count count',
    ofTyped_reason e key qtype count count', hset, ofZone_reason _ count count']

lemma findSome?_reason (rungs : List (Option Decision)) :
    (rungs.findSome? id).map reason = (rungs.map (Option.map reason)).findSome? id := by
  rw [map_findSome?, findSome?_map]
  rfl

/-- Counting hits changes no decision. -/
theorem classify_verdict (key : Str) (qtype : RecordType)
    (client : ClientInfo) (count count' : Bool) :
    (e.classify key qtype client count).verdict = (e.classify key qtype client count').verdict := by
  have h : ((e.ladder key qtype client count).findSome? id).map reason =
      ((e.ladder key qtype client count').findSome? id).map reason := by
    rw [findSome?_reason, findSome?_reason, ladder_reason e key qtype client count count']
  have hverdict : ∀ d : Option Decision,
      (d.getD ⟨.allow, .defaultAllow, none, false⟩).verdict =
        ((d.map reason).getD (.allow, .defaultAllow, none)).1 := by
    intro d
    cases d <;> rfl
  rw [classify, classify, hverdict, hverdict, h]

/-- What `new`, `withClients` and `withHitTracking` keep. -/
structure Consistent (e : BlockEngine C R) : Prop where
  rules : e.parts.hasVerdictRules = true → e.hasVerdictRules = true
  clients : ∀ client ∈ e.clients, client.block.isEmpty = false ∨ client.allow.isEmpty = false →
    e.hasVerdictRules = true
  regexBlock : e.regexBlock = .build e.parts.regexBlock
  regexAllow : e.regexAllow = .build e.parts.regexAllow
  regexBlockImportant : e.regexBlockImportant = .build e.parts.regexBlockImportant
  regexAllowImportant : e.regexAllowImportant = .build e.parts.regexAllowImportant
  regexRefuse : e.regexRefuse = .build e.parts.regexRefuse
  regexNodata : e.regexNodata = .build e.parts.regexNodata
  regexRewrites : e.parts.regexRewrites = [] → e.regexRewrites = []
  regexTyped : e.parts.regexTypedBlock = [] → e.regexTyped = []
  regexTypedExcept : e.parts.regexTypedBlockExcept = [] → e.regexTypedExcept = []

lemma consistent_new (hasher : Str → UInt64) (parts : EngineParts C)
    (defaultBlock : BlockResponse) : (new hasher parts defaultBlock : BlockEngine C R).Consistent where
  rules := id
  clients := nofun
  regexBlock := rfl
  regexAllow := rfl
  regexBlockImportant := rfl
  regexAllowImportant := rfl
  regexRefuse := rfl
  regexNodata := rfl
  regexRewrites := by
    intro (h : (parts.finalizeDomainSets hasher).regexRewrites = [])
    simp [new, h]
  regexTyped := by
    intro (h : (parts.finalizeDomainSets hasher).regexTypedBlock = [])
    simp [new, h]
  regexTypedExcept := by
    intro (h : (parts.finalizeDomainSets hasher).regexTypedBlockExcept = [])
    simp [new, h]

variable {e : BlockEngine C R}

omit [CompactMap C] in
lemma Consistent.withClients (h : e.Consistent)
    (clients : List (ClientPolicy C)) : (e.withClients clients).Consistent where
  __ := h
  rules hrules := by simp [BlockEngine.withClients, h.rules hrules]
  clients client hclient hset := by
    have hany : (clients.any fun client => !client.block.isEmpty || !client.allow.isEmpty) = true := by
      rw [List.any_eq_true]
      refine ⟨client, hclient, ?_⟩
      rcases hset with hset | hset <;> simp [hset]
    simp [BlockEngine.withClients, hany]

omit [CompactMap C] in
lemma hasVerdictRules_mapSets {f : DomainSet C → DomainSet C}
    (hf : ∀ set, (f set).isEmpty = set.isEmpty) (p : EngineParts C) :
    (p.mapSets f).hasVerdictRules = p.hasVerdictRules := by
  simp [EngineParts.hasVerdictRules, EngineParts.mapSets, EngineParts.domainSets, hf,
    Function.comp_def]

lemma Consistent.withHitTracking (h : e.Consistent)
    (hasher : Str → UInt64) (on : Bool) : (e.withHitTracking hasher on).Consistent := by
  cases on with
  | false => exact { h with }
  | true =>
    have hparts := hasVerdictRules_mapSets (isEmpty_enableHits hasher) e.parts
    refine { h with rules := fun hrules => h.rules (hparts ▸ hrules), clients := ?_ }
    intro client hclient hset
    obtain ⟨policy, hpolicy, rfl⟩ := mem_map.mp hclient
    exact h.clients policy hpolicy hset

lemma Built.consistent (h : e.Built) : e.Consistent := by
  induction h with
  | new hasher parts defaultBlock => exact consistent_new hasher parts defaultBlock
  | withClients h clients ih => exact ih.withClients clients
  | withHitTracking h hasher on ih => exact ih.withHitTracking hasher on

lemma ofSet_of_isEmpty {set : DomainSet C} (h : set.isEmpty = true) (key : Str) (count : Bool)
    (verdict : FilterVerdict) (stage : MatchStage) : ofSet set key count verdict stage = none := by
  have hreason := ofSet_reason set key count verdict stage
  rw [matched_of_isEmpty h, map_none, map_eq_none_iff] at hreason
  exact hreason

/-- Policies without rules of their own decide nothing, or leave the client alone. -/
theorem ofPolicy_of_isEmpty {policies : List (ClientPolicy C)} (client : ClientInfo)
    (h : ∀ policy ∈ policies, policy.block.isEmpty = true ∧ policy.allow.isEmpty = true)
    (key : Str) (count : Bool) (block : FilterVerdict) {d : Decision}
    (hd : some d ∈ ofPolicy (policies.find? (·.isFor client)) key count block) :
    d.verdict = .allow ∧ ∃ policy ∈ policies, policy.disableFiltering = true := by
  cases hfind : policies.find? (·.isFor client) with
  | none => simp [hfind, ofPolicy] at hd
  | some policy =>
    have hmem := mem_of_find?_eq_some hfind
    obtain ⟨hblock, hallow⟩ := h policy hmem
    simp only [hfind, ofPolicy, ofSet_of_isEmpty hblock, ofSet_of_isEmpty hallow, mem_cons,
      not_mem_nil, or_false, reduceCtorEq] at hd
    split at hd
    · cases hd
      exact ⟨rfl, policy, hmem, ‹_›⟩
    · cases hd

/-- Parts without a rule that may lead to a verdict. -/
structure Idle (p : EngineParts C) : Prop where
  sets : ∀ set ∈ p.domainSets, set.isEmpty = true
  regexBlock : p.regexBlock = []
  regexAllow : p.regexAllow = []
  regexBlockImportant : p.regexBlockImportant = []
  regexAllowImportant : p.regexAllowImportant = []
  regexRefuse : p.regexRefuse = []
  regexNodata : p.regexNodata = []
  regexRewrites : p.regexRewrites = []
  regexTypedBlock : p.regexTypedBlock = []
  regexTypedBlockExcept : p.regexTypedBlockExcept = []
  rewrites : p.rewrites.isEmpty = true
  localZones : p.localZones.isEmpty = true
  clientRules : p.clientRules = []
  rpzClientIp : p.rpzClientIp = []

omit [CompactMap C] in
lemma Consistent.idle (h : e.Consistent) (hidle : e.hasVerdictRules = false) : Idle e.parts := by
  have hparts : e.parts.hasVerdictRules = false := by
    by_contra hrules
    rw [h.rules (by simpa using hrules)] at hidle
    cases hidle
  simp only [EngineParts.hasVerdictRules, Bool.or_eq_false_iff, List.any_eq_false, Bool.not_eq_true',
    Bool.not_eq_false, Bool.not_eq_false', List.isEmpty_iff] at hparts
  obtain ⟨⟨⟨⟨⟨⟨⟨⟨⟨⟨⟨⟨⟨h₁, h₂⟩, h₃⟩, h₄⟩, h₅⟩, h₆⟩, h₇⟩, h₈⟩, h₉⟩, h₁₀⟩, h₁₁⟩, h₁₂⟩, h₁₃⟩, h₁₄⟩ := hparts
  exact ⟨h₁, h₂, h₃, h₄, h₅, h₆, h₇, h₈, h₉, h₁₀, h₁₁, h₁₂, h₁₃, h₁₄⟩

/-- Without verdict rules there is nothing on the common part of the ladder. -/
theorem commonRungs_of_idle (h : e.Consistent)
    (hidle : e.hasVerdictRules = false) (key : Str) (qtype : RecordType) (count : Bool)
    {d : Decision} : some d ∉ e.commonRungs key qtype count := by
  have hparts := h.idle hidle
  have hset : ∀ set ∈ e.parts.domainSets, ∀ verdict stage,
      ofSet set key count verdict stage = none := by
    intro set hmem verdict stage
    exact ofSet_of_isEmpty (hparts.sets set hmem) key count verdict stage
  have hregex : ∀ matcher : RegexMatcher R, matcher = .build [] → ∀ verdict stage,
      ofRegex matcher key verdict stage = none := by
    rintro matcher rfl verdict stage
    rfl
  have hzone : e.parts.localZone key = none := by
    rw [localZone, if_pos hparts.localZones]
  have htypedSets : ofTyped e key qtype count (.block e.defaultBlock) = [none, none, none, none] := by
    have hexcept : ∀ x ∈ e.parts.typedBlockExcept, x.2 ∈ e.parts.domainSets := by
      intro x hx
      simp only [domainSets, mem_append, List.mem_map]
      exact .inr ⟨x, hx, rfl⟩
    have honly : ∀ x ∈ e.parts.typedBlock, x.2 ∈ e.parts.domainSets := by
      intro x hx
      simp only [domainSets, mem_append, List.mem_map]
      exact .inl (.inr ⟨x, hx, rfl⟩)
    have hnone₁ : (e.parts.typedBlockExcept.findSome? fun x => if qtype ∈ x.1 then none
        else ofSet x.2 key count (.block e.defaultBlock) .typedBlock) = none := by
      rw [findSome?_eq_none_iff]
      intro x hx
      simp [hset x.2 (hexcept x hx)]
    have hnone₂ : (e.parts.typedBlock.findSome? fun x => if x.1 = qtype
        then ofSet x.2 key count (.block e.defaultBlock) .typedBlock else none) = none := by
      rw [findSome?_eq_none_iff]
      intro x hx
      simp [hset x.2 (honly x hx)]
    simp [ofTyped, hnone₁, hnone₂, h.regexTypedExcept hparts.regexTypedBlockExcept,
      h.regexTyped hparts.regexTypedBlock]
  have hplain : ∀ set ∈ [e.parts.block, e.parts.allow, e.parts.blockImportant,
      e.parts.allowImportant, e.parts.refuse, e.parts.nodata], ∀ verdict stage,
      ofSet set key count verdict stage = none := by
    intro set hmem
    exact hset set (mem_append_left _ (mem_append_left _ hmem))
  simp only [mem_cons, forall_eq_or_imp] at hplain
  obtain ⟨hblockSet, hallowSet, hblockImportantSet, hallowImportantSet, hrefuseSet, hnodataSet⟩ :=
    hplain
  simp only [commonRungs, hblockSet, hallowSet, hblockImportantSet, hallowImportantSet, hrefuseSet,
    hnodataSet, hregex _ (h.regexBlock.trans (by rw [hparts.regexBlock])),
    hregex _ (h.regexAllow.trans (by rw [hparts.regexAllow])),
    hregex _ (h.regexBlockImportant.trans (by rw [hparts.regexBlockImportant])),
    hregex _ (h.regexAllowImportant.trans (by rw [hparts.regexAllowImportant])),
    hregex _ (h.regexRefuse.trans (by rw [hparts.regexRefuse])),
    hregex _ (h.regexNodata.trans (by rw [hparts.regexNodata])), hzone, htypedSets,
    RewriteSet.get_of_isEmpty hparts.rewrites, h.regexRewrites hparts.regexRewrites]
  simp [ofZone]

omit [CompactMap C] in
lemma ofClientRules_of_nil (h : e.parts.clientRules = []) (key : Str)
    (client : ClientInfo) (tags : List Str) (allow : Bool) (verdict : FilterVerdict)
    (stage : MatchStage) : ofClientRules e key client tags allow verdict stage = none := by
  simp [ofClientRules, h]

/-- Without verdict rules every name is allowed, also for a client that has a policy. -/
theorem classify_of_idle (h : e.Consistent)
    (hidle : e.hasVerdictRules = false) (key : Str) (qtype : RecordType) (client : ClientInfo)
    (count : Bool) : (e.classify key qtype client count).verdict = .allow := by
  have hparts := h.idle hidle
  have hpolicies : ∀ policy ∈ e.clients,
      policy.block.isEmpty = true ∧ policy.allow.isEmpty = true := by
    intro policy hpolicy
    by_contra hset
    have hfilled : policy.block.isEmpty = false ∨ policy.allow.isEmpty = false := by
      rw [not_and_or] at hset
      simpa using hset
    rw [h.clients policy hpolicy hfilled] at hidle
    cases hidle
  have hrung : ∀ d, some d ∈ e.ladder key qtype client count → d.verdict = .allow := by
    intro d hd
    rcases mem_append.mp hd with hd | hd
    · simp only [clientRungs, hparts.rpzClientIp, ofClientIp, filter_nil, maxByKey,
        map_none, ofClientRules_of_nil hparts.clientRules, mem_append, mem_cons,
        not_mem_nil, or_false, reduceCtorEq] at hd
      exact (ofPolicy_of_isEmpty client hpolicies key count _ hd).1
    · exact absurd hd (commonRungs_of_idle h hidle key qtype count)
  cases hfind : (e.ladder key qtype client count).findSome? id with
  | none => simp [classify, hfind]
  | some d =>
    obtain ⟨rung, hmem, heq⟩ := exists_of_findSome?_eq_some hfind
    subst heq
    simp only [classify, hfind]
    exact hrung d hmem

lemma clientRungs_of_uniform (h : e.hasClientSpecificRules = false)
    (key : Str) (client : ClientInfo) (count : Bool) :
    (e.clientRungs key client count).findSome? id = none := by
  simp only [hasClientSpecificRules, Bool.or_eq_false_iff, Bool.not_eq_false', List.isEmpty_iff,
    List.any_eq_false, ClientPolicy.affectsVerdict, Bool.not_eq_true] at h
  obtain ⟨⟨hrules, hips⟩, hpolicies⟩ := h
  rw [findSome?_eq_none_iff]
  intro rung hrung
  cases rung with
  | none => rfl
  | some d =>
    simp only [clientRungs, hips, ofClientIp, filter_nil, maxByKey, map_none,
      ofClientRules_of_nil hrules, mem_append, mem_cons, not_mem_nil, or_false,
      reduceCtorEq] at hrung
    have hpolicy := ofPolicy_of_isEmpty client (fun policy hpolicy => (hpolicies policy hpolicy).1)
      key count _ hrung
    obtain ⟨-, policy, hmem, hdisable⟩ := hpolicy
    rw [(hpolicies policy hmem).2] at hdisable
    cases hdisable

lemma classify_of_uniform (h : e.hasClientSpecificRules = false)
    (key : Str) (qtype : RecordType) (client client' : ClientInfo) (count : Bool) :
    e.classify key qtype client count = e.classify key qtype client' count := by
  simp [classify, ladder, clientRungs_of_uniform h]

lemma verdict_eq_explain (h : e.Consistent) (name : Name)
    (qtype : RecordType) (client : ClientInfo) :
    e.verdict name qtype client = (e.explain name qtype client).verdict := by
  unfold verdict explain
  cases normalizeInto name with
  | none => simp
  | some key =>
    split
    · rename_i hidle
      exact (classify_of_idle h hidle key qtype client false).symm
    · exact classify_verdict e key qtype client e.trackHits false

/-- The fast path may skip the engine when `blocksWire` is false, may share an answer between
clients when there are no rules for clients, and `explain` tells the verdict that is given. -/
theorem gate_sound {e : BlockEngine C R} (h : e.Built) :
    (e.blocksWire = false → (∀ name qtype client, e.verdict name qtype client = .allow) ∧
      (∀ ip, e.rpzIpVerdict ip = none) ∧ ∀ nsNames nsIps, e.rpzNsVerdict nsNames nsIps = none) ∧
    (e.hasClientSpecificRules = false → ∀ name qtype client client',
      e.verdict name qtype client = e.verdict name qtype client') ∧
    ∀ name qtype client, e.verdict name qtype client = (e.explain name qtype client).verdict := by
  refine ⟨fun hgate => ?_, fun huniform name qtype client client' => ?_,
    verdict_eq_explain h.consistent⟩
  · simp only [blocksWire, isTriviallyAllow, Bool.or_eq_false_iff, Bool.not_eq_false',
      Bool.and_eq_true, Bool.not_eq_true'] at hgate
    obtain ⟨⟨⟨hidle, -⟩, hns⟩, hip⟩ := hgate
    refine ⟨fun name qtype client => ?_, fun ip => ?_, fun nsNames nsIps => ?_⟩
    · simp [verdict, hidle]
    · have hnil : e.parts.rpzIp = [] := by simpa [hasRpzIp] using hip
      simp [rpzIpVerdict, hnil, maxByKey]
    · simp [rpzNsVerdict, hns]
  · simp only [verdict, classify_of_uniform huniform _ qtype client client']

/-- The frozen map of no name. -/
inductive EmptyMap where
  | empty

instance : CompactMap EmptyMap where
  default := .empty
  tryFromTable _ table := .error table
  len _ := 0
  lookupExact _ _ := none
  lookupSuffix _ _ := none
  source _ _ := none
  forEachEntry _ := .ok []

/-- A pattern without special characters. -/
structure PlainPattern where
  text : Str

instance : RegexEngine PlainPattern where
  Bundle := List Str
  new pattern := some ⟨pattern⟩
  isMatch pattern text := text.tails.any pattern.text.isPrefixOf
  newBundle := some
  bundleMatch patterns text := patterns.any fun pattern => text.tails.any pattern.isPrefixOf

def plainEngine (regexBlock : List Str) : BlockEngine EmptyMap PlainPattern :=
  let set := DomainSet.default fun _ => 0
  (new (fun _ => 0) ⟨set, set, set, set, set, set, [], [], regexBlock, [], [], [], [], [], [], [],
    [], ⟨[], []⟩, ⟨[]⟩, [], [], [], [], [], []⟩ .nxDomain).withHitTracking (fun _ => 0) true

def advert : Name := ⟨[[97, 100]], by decide, by decide⟩

theorem gate_sound_idle :
    ((plainEngine []).blocksWire = false ∧
      ∀ name qtype client, (plainEngine []).verdict name qtype client = .allow) ∧
    (plainEngine [[97, 100]]).verdict advert .A ⟨.v4 0, none⟩ = .block .nxDomain ∧
    (∀ name qtype client client', (plainEngine [[97, 100]]).verdict name qtype client =
      (plainEngine [[97, 100]]).verdict name qtype client') ∧
    ((plainEngine [[97, 100]]).explain advert .A ⟨.v4 0, none⟩).verdict = .block .nxDomain := by
  have hbuilt : ∀ regexBlock, (plainEngine regexBlock).Built :=
    fun _ => .withHitTracking (.new _ _ _) _ _
  have hgate : (plainEngine []).blocksWire = false := rfl
  obtain ⟨-, huniform, hexplain⟩ := gate_sound (hbuilt [[97, 100]])
  have hblocked : (plainEngine [[97, 100]]).verdict advert .A ⟨.v4 0, none⟩ = .block .nxDomain := by
    decide +kernel
  exact ⟨⟨hgate, ((gate_sound (hbuilt [])).1 hgate).1⟩, hblocked, huniform rfl,
    (hexplain _ _ _).symm.trans hblocked⟩

end BlockEngine

end OnetDns.Filter
