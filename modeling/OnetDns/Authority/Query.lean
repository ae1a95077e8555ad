import OnetDns.Authority.Zone

/-!
# Answers from a zone

`Zone::query` of `onetdns-authority/src/lib.rs` with what it calls: referrals, aliases,
DNAMEs and wildcards.
-/
namespace OnetDns.Authority
open Dns

structure Response where
  rcode : UInt8
  authoritative : Bool
  answers : List Record
  authority : List Record
  additional : List Record

/-- `ChaseEnd`: where an alias chain stops inside the zone. -/
inductive ChaseEnd where
  | answered (additional : List Record)
  | noSuchName
  | noData
  | delegated (deleg : Name)
  | outOfZone

def parentTypes : List RecordType := [.DS, .RRSIG, .NSEC, .NSEC3]

namespace Zone

variable (zone : Zone)

/-- `glue`: the addresses of a name, as far as they are in the zone. -/
def glue (name : Name) : List Record :=
  match zone.owner name with
  | some records => ofType records .A name ++ ofType records .AAAA name
  | none => []

/-- The name an answer points to, with the type of a service binding. -/
def glueTarget (record : Record) : Option (Name × Option RecordType) :=
  match record.rdata with
  | .ns target | .mx _ target | .srv _ _ _ target => some (target, none)
  | .svcb s | .https s =>
    some (if s.target.isRoot then record.name else s.target, some record.rtype)
  | _ => none

def bindingGlue (owner target : Name) (binding : Option RecordType) : List Record :=
  if target.eqIgnoreCase owner then []
  else
    match zone.owner target, binding with
    | some records, some rtype => ofType records rtype target
    | _, _ => []

/-- The loop of `target_glue`. -/
def targetGlueLoop : List Record → (seen : List (Bytes × Option RecordType)) → List Record
  | [], _ => []
  | record :: rest, seen =>
    match glueTarget record with
    | none => targetGlueLoop rest seen
    | some (target, binding) =>
      if seen.contains (target.canonicalKey, binding) then targetGlueLoop rest seen
      else
        (if (zone.delegationFor target).isNone then
          zone.glue target ++ zone.bindingGlue record.name target binding
        else []) ++ targetGlueLoop rest ((target.canonicalKey, binding) :: seen)

def targetGlue (records : List Record) : List Record := zone.targetGlueLoop records []

/-- `referral`: this data is the child's, so it is not authoritative. -/
def referral (deleg : Name) : Response :=
  let records := (zone.owner deleg).getD []
  let ns := ofType records .NS deleg
  let additional := ns.flatMap fun record =>
    match record.rdata with
    | .ns target => zone.glue target
    | _ => []
  ⟨0, false, [], ns ++ ofType records .DS deleg, additional⟩

variable (qname : Name)

def wildcardRecords : Option (List StoredRecord) :=
  match zone.closestEncloser qname with
  | none => none
  | some closest =>
    if closest.eqIgnoreCase qname then none
    else (prependWildcard closest).bind zone.owner

variable (qtype : RecordType)

/-- One round of `chase_cname` at records that were found, and how it goes on. -/
def chaseAt (cur : Name) (records : List StoredRecord)
    (goOn : Name → List Record × ChaseEnd) : List Record × ChaseEnd :=
  let exact := ofType records qtype cur
  if exact ≠ [] then (exact, .answered (zone.targetGlue exact))
  else
    match (ofType records .CNAME cur).head? with
    | some record =>
      match record.rdata with
      | .cname next => (record :: (goOn next).1, (goOn next).2)
      | _ => ([], .noData)
    | none => ([], .noData)

/-- `chase_cname`, with the names that may still be looked at. The answers it adds come
with the end. -/
def chaseCname (qtype : RecordType) : (fuel : ℕ) → (cur : Name) → List Record × ChaseEnd
  | 0, _ => ([], .outOfZone)
  | fuel + 1, cur =>
    if zone.contains cur = false then ([], .outOfZone)
    else
      match zone.delegationFor cur with
      | some deleg => ([], .delegated deleg)
      | none =>
        match zone.owner cur with
        | some records => zone.chaseAt qtype cur records (chaseCname qtype fuel)
        | none =>
          if zone.nodeExists cur then ([], .noData)
          else
            match zone.wildcardRecords cur with
            | some records => zone.chaseAt qtype cur records (chaseCname qtype fuel)
            | none => ([], .noSuchName)

def cnameResponse (answers : List Record) : ChaseEnd → Response
  | .answered additional => ⟨0, true, answers, [], additional⟩
  | .noSuchName => ⟨3, true, answers, [zone.negativeSoaRecord], []⟩
  | .noData => ⟨0, true, answers, [zone.negativeSoaRecord], []⟩
  | .delegated deleg =>
    ⟨0, true, answers, (zone.referral deleg).authority, (zone.referral deleg).additional⟩
  | .outOfZone => ⟨0, true, answers, [], []⟩

/-- The chain that goes on from an alias, after the answers so far. -/
def follow (answers : List Record) (target : Name) : Response :=
  let (more, ending) := zone.chaseCname qtype 8 target
  zone.cnameResponse (answers ++ more) ending

/-- The answer that a name has no data of the type. -/
def noDataResponse : Response := ⟨0, true, [], [zone.negativeSoaRecord], []⟩

def answerAt (records : List StoredRecord) : Response :=
  if qtype = .ANY then ⟨0, true, records.map (·.materialize qname), [], []⟩
  else
    let exact := ofType records qtype qname
    if exact ≠ [] then ⟨0, true, exact, [], zone.targetGlue exact⟩
    else if qtype = .CNAME then zone.noDataResponse
    else
      match (ofType records .CNAME qname).head? with
      | some record =>
        match record.rdata with
        | .cname target => zone.follow qtype [record] target
        | _ => zone.noDataResponse
      | none => zone.noDataResponse

/-- `dname`: the labels below the owner are kept, the rest is replaced. -/
def dname : Option Response :=
  (zone.dnameLoop (qname.numLabels - zone.origin.numLabels) qname.canonicalKey).map
    fun (record, suffix, labels) =>
      match Name.fromLabels (qname.labels.take (qname.numLabels - labels) ++ suffix.labels) with
      | .error _ => ⟨6, true, [record], [], []⟩
      | .ok target =>
        let answers := [record, .new qname record.ttl (.cname target)]
        if qtype = .CNAME then ⟨0, true, answers, [], []⟩ else zone.follow qtype answers target

/-- `synthesize_owner`: the answers of the wildcard get the name that was asked. -/
def synthesizeOwner (resp : Response) (qname source : Name) : Response :=
  { resp with answers := resp.answers.map fun record =>
      if record.name.eqIgnoreCase source then { record with name := qname } else record }

def wildcard : Option Response :=
  match zone.closestEncloser qname with
  | none => none
  | some closest =>
    if closest.eqIgnoreCase qname then none
    else
      match prependWildcard closest with
      | none => none
      | some source =>
        (zone.owner source).map fun records =>
          synthesizeOwner (zone.answerAt qname qtype records) qname source

def query : Response :=
  match zone.delegationFor qname with
  | some deleg =>
    if qname.eqIgnoreCase deleg && parentTypes.contains qtype then
      zone.answerAt qname qtype ((zone.owner deleg).getD [])
    else zone.referral deleg
  | none =>
    match zone.owner qname with
    | some records => zone.answerAt qname qtype records
    | none =>
      match zone.dname qname qtype with
      | some resp => resp
      | none =>
        if zone.nodeExists qname then zone.noDataResponse
        else
          match zone.wildcard qname qtype with
          | some resp => resp
          | none => ⟨3, true, [], [zone.negativeSoaRecord], []⟩

end Zone

end OnetDns.Authority
