import OnetDns.Dns.Message
import OnetDns.Dnssec.Signature

/-!
# What the recursor takes from a response

The filters of `onetdns-recurse/src/lib.rs`: which records of a response answer the
question, delegate, redirect or deny, and which are left in the final answer.
-/
namespace OnetDns.Recurse
open Dns Dnssec

abbrev rcodeNoError : UInt16 := 0
abbrev rcodeServFail : UInt16 := 2
abbrev rcodeNXDomain : UInt16 := 3
abbrev rcodeYXDomain : UInt16 := 6

def isWithin (name zone : Name) : Bool := name.endsWithIgnoreCase zone

/-- `is_closer`: a candidate zone that lies below the current one. -/
def isCloser (cand cur : Name) : Bool := cur.numLabels < cand.numLabels && isWithin cand cur

def isAbove (owner qname : Name) : Bool :=
  owner.numLabels < qname.numLabels && (qname.suffix owner.numLabels).eqIgnoreCase owner

def minOptionalTtl : Option UInt32 → Option UInt32 → Option UInt32
  | some left, some right => some (min left right)
  | some ttl, none | none, some ttl => some ttl
  | none, none => none

def isDname (record : Record) : Bool :=
  match record.rdata with
  | .dname _ => true
  | _ => false

def covers (record : Record) (rtype : RecordType) : Bool :=
  (Rrsig.fromRecord record).any fun sig => sig.typeCovered = rtype

variable (resp : Message)

def stripOutOfBailiwickDnames (zone : Name) : Message :=
  { resp with answers := resp.answers.filter fun r => !isDname r || isWithin r.name zone }

def minNsTtl (zone : Name) : Option UInt32 :=
  ((resp.authorities.filter fun r =>
    r.class' = .IN && r.rtype = .NS && r.name.eqIgnoreCase zone).map (·.ttl)).min?

def nsTarget (record : Record) : Option Name :=
  if record.class' = .IN then
    match record.rdata with
    | .ns target => some target
    | _ => none
  else none

/-- The loop of `extract_referral`: the longest owner of NS records above the name. -/
def bestReferral (qname : Name) : List Record → (best : Option Name) → Option Name
  | [], best => best
  | r :: rest, best =>
    if (nsTarget r).isSome && isWithin qname r.name &&
        best.all (fun b => b.numLabels < r.name.numLabels) then
      bestReferral qname rest (some r.name)
    else bestReferral qname rest best

variable (qname : Name)

def extractReferral : Option Name × List Name :=
  if resp.header.rcode ≠ rcodeNoError ∨ resp.header.authoritative = true ∨ resp.answers ≠ [] then
    (none, [])
  else
    match bestReferral qname resp.authorities none with
    | none => (none, [])
    | some zone =>
      (some zone, resp.authorities.filterMap fun r =>
        if r.name.eqIgnoreCase zone then nsTarget r else none)

def hasDirectQtypeAnswer (qtype : RecordType) : Bool :=
  resp.answers.any fun r =>
    r.class' = .IN && r.name.eqIgnoreCase qname && (qtype = .ANY || r.rtype = qtype)

def isDnameYxdomain : Bool :=
  resp.header.rcode = rcodeYXDomain && resp.header.authoritative &&
    resp.answers.any fun r => r.class' = .IN && isDname r && isAbove r.name qname

def hasRelevantSoa (qname zone : Name) : Bool :=
  isWithin qname zone && resp.authorities.any fun r =>
    r.rtype = .SOA && r.class' = .IN && r.name.eqIgnoreCase zone

def isAuthoritativeNegative (qname zone : Name) : Bool :=
  resp.header.authoritative && hasRelevantSoa resp qname zone

def isTerminalResponse (qname zone : Name) : Bool :=
  resp.header.rcode = rcodeNoError && isAuthoritativeNegative resp qname zone

def cnameOwnerIsValid (owner : Name) : Bool :=
  if resp.answers.any fun r => r.class' = .IN && r.rtype = .CNAME && r.name.eqIgnoreCase owner then
    resp.answers.all fun r => r.class' ≠ .IN || !r.name.eqIgnoreCase owner ||
      [RecordType.CNAME, .RRSIG, .NSEC].contains r.rtype
  else true

/-- The loop of `cname_target`, which stops at a second target. -/
def cnameLoop (qname : Name) : List Record → (target : Option Name) → Option Name
  | [], target => target
  | r :: rest, target =>
    match r.rdata with
    | .cname candidate =>
      if r.class' ≠ .IN || !r.name.eqIgnoreCase qname then cnameLoop qname rest target
      else if target.any fun current => !current.eqIgnoreCase candidate then none
      else cnameLoop qname rest (some candidate)
    | _ => cnameLoop qname rest target

def cnameTarget : Option Name :=
  if cnameOwnerIsValid resp qname then cnameLoop qname resp.answers none else none

/-- The loop of `dname_rewrite`: the longest owner above the name. -/
def bestDname (qname : Name) : List Record → (best : Option Record) → Option Record
  | [], best => best
  | r :: rest, best =>
    if r.class' = .IN && isDname r && isAbove r.name qname &&
        best.all (fun b => b.name.numLabels < r.name.numLabels) then
      bestDname qname rest (some r)
    else bestDname qname rest best

def otherDname (owner suffix : Name) (r : Record) : Bool :=
  r.class' = .IN && r.name.eqIgnoreCase owner &&
    match r.rdata with
    | .dname other => !other.eqIgnoreCase suffix
    | _ => false

/-- `dname_rewrite`: the record, the name it leads to, and the CNAME made from it. -/
def dnameRewrite : Option (Record × Name × Record) :=
  match bestDname qname resp.answers none with
  | none => none
  | some record =>
    match record.rdata with
    | .dname suffix =>
      if resp.answers.any (otherDname record.name suffix) then none
      else
        match Name.fromLabels
            (qname.labels.take (qname.numLabels - record.name.numLabels) ++ suffix.labels) with
        | .error _ => none
        | .ok target => some (record, target, .new qname record.ttl (.cname target))
    | _ => none

def hasRelevantAlias : Bool := (cnameTarget resp qname).isSome || (dnameRewrite resp qname).isSome

def isRelevantPositive (qtype : RecordType) : Bool :=
  resp.header.rcode = rcodeNoError && resp.header.authoritative && cnameOwnerIsValid resp qname &&
    (hasDirectQtypeAnswer resp qname qtype || hasRelevantAlias resp qname)

/-- `alias_rrset_records`: the alias with its signatures. -/
def aliasRrsetRecords (owner : Name) (aliasType : RecordType) : List Record :=
  resp.answers.filter fun r => r.name.eqIgnoreCase owner && r.class' = .IN &&
    (r.rtype = aliasType || r.rtype = .RRSIG && covers r aliasType)

structure AliasHop where
  target : Name
  owner : Name
  atype : RecordType
  records : List Record

def aliasHop (qtype : RecordType) : Option AliasHop :=
  if resp.header.rcode = rcodeNXDomain then none
  else
    match dnameRewrite resp qname with
    | some (record, target, synthetic) =>
      some ⟨target, record.name, .DNAME, aliasRrsetRecords resp record.name .DNAME ++ [synthetic]⟩
    | none =>
      if hasDirectQtypeAnswer resp qname qtype then none
      else (cnameTarget resp qname).map fun target =>
        ⟨target, qname, .CNAME, aliasRrsetRecords resp qname .CNAME⟩

def keepsAnswer (qtype : RecordType) (r : Record) : Bool :=
  r.class' = .IN && r.name.eqIgnoreCase qname &&
    (qtype = .ANY || r.rtype = qtype || r.rtype = .RRSIG && covers r qtype)

/-- A record of a denial by a zone. -/
def keepsProof (zone : Name) (r : Record) : Bool :=
  r.class' = .IN && isWithin r.name zone &&
    (if r.rtype = .SOA then r.name.eqIgnoreCase zone
    else if r.rtype = .NSEC ∨ r.rtype = .NSEC3 then true
    else r.rtype = .RRSIG && (covers r .NSEC || covers r .NSEC3 ||
      covers r .SOA && r.name.eqIgnoreCase zone))

def sanitizeTerminalResponse (qtype : RecordType)
    (positive : Bool) (proofZone : Option Name) : Message :=
  { resp with
    answers := if positive then resp.answers.filter (keepsAnswer qname qtype) else []
    authorities :=
      if positive then []
      else resp.authorities.filter fun r => proofZone.any (keepsProof · r)
    additionals := resp.additionals.filter fun r => r.rtype = .OPT }

/-- What is kept of a response to a name that a DNAME makes too long. -/
def keepsDname (r : Record) : Bool := r.class' = .IN && (isDname r || covers r .DNAME)

end OnetDns.Recurse
