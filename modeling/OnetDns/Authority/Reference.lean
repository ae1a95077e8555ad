import OnetDns.Authority.Query

/-!
# The reference algorithm for a zone

What RFC 1034 section 4.3.2 answers from the records of one zone, with wildcards as in RFC
4592 and DNAME as in RFC 6672. It walks down from the apex, one label at a time; it is
stated over the list of records and not taken from the code. A synthesised CNAME counts as
one at the name: it is an answer if its type was asked.
-/
namespace OnetDns.Authority.Reference
open Dns Dnssec

section Walk

variable (apex : Path) (content : List Record)

/-- A name is there if it owns a record or lies above one that does. -/
def present (p : Path) : Bool := content.any fun r => p.isPrefixOf r.name.path

def node (p : Path) : List Record := content.filter fun r => r.name.path = p

def cutAt (p : Path) : Bool := p ≠ apex && (node content p).any fun r => r.rtype = .NS

/-- What step 3 of the algorithm comes to. -/
inductive Found where
  | cut (labels : ℕ)
  | node (records : List Record)
  | rename (dname : Record) (labels : ℕ)
  | wildcard (records : List Record)
  | missing
  deriving DecidableEq

/-- What there is for a name whose closest encloser is `encloser`. -/
def beside (encloser : Path) : Found :=
  match (node content encloser).find? fun r => r.rtype = .DNAME with
  | some dname => .rename dname encloser.length
  | none =>
    if present content (encloser ++ [star]) then .wildcard (node content (encloser ++ [star]))
    else .missing

/-- Step 3, with the labels of the name that are not matched yet. -/
def descend (q : Path) : (left : ℕ) → Found
  | 0 => if cutAt apex content q then .cut q.length else .node (node content q)
  | left + 1 =>
    let here := q.take (q.length - (left + 1))
    if cutAt apex content here then .cut here.length
    else if present content (q.take (q.length - left)) then descend q left
    else beside content here

/-- The walk from the apex to a name in the zone. -/
def lookup (q : Path) : Found := descend apex content q (q.length - apex.length)

end Walk

/-- The target of a CNAME, also if it is given as raw data. -/
def aliasTarget : RData → Option Name
  | .cname target => some target
  | .unknown _ raw => Name.fromUncompressedWire raw
  | _ => none

/-- The target of a DNAME, also if it is given as raw data. -/
def suffixTarget : RData → Option Name
  | .dname target => some target
  | .unknown _ raw => Name.fromUncompressedWire raw
  | _ => none

inductive Ending where
  | answered
  | noSuchName
  | noData
  | delegated (cut : Path)
  | outOfZone
  | tooLong

/-- One round of the algorithm: it ends, or goes on with another name. -/
inductive Step where
  | done (answers : List Record) (ending : Ending)
  | again (answers : List Record) (target : Name)

def asked (qtype : RecordType) (r : Record) : Bool := qtype = .ANY || r.rtype = qtype

/-- The CNAME to follow at a node: the type that was asked is not there. -/
def aliasAt (qtype : RecordType) (records : List Record) : Option Record :=
  if records.any (asked qtype) then none else records.find? fun r => r.rtype = .CNAME

/-- Answers from a node, under the name that was asked. -/
def atNode (name : Name) (qtype : RecordType) (records : List Record) : Step :=
  if records.any (asked qtype) then
    .done ((records.filter (asked qtype)).map fun r => { r with name := name }) .answered
  else
    match records.find? fun r => r.rtype = .CNAME with
    | none => .done [] .noData
    | some r =>
      match aliasTarget r.rdata with
      | some target => .again [{ r with name := name }] target
      | none => .done [{ r with name := name }] .outOfZone

/-- The name with what lies above `labels` replaced. -/
def substitute (name suffix : Name) (labels : ℕ) : Except ProtoError Name :=
  Name.fromLabels (name.labels.take (name.numLabels - labels) ++ suffix.labels)

def atDname (name : Name) (qtype : RecordType) (dname : Record) (labels : ℕ) : Step :=
  match suffixTarget dname.rdata with
  | none => .done [dname] .outOfZone
  | some suffix =>
    match substitute name suffix labels with
    | .error _ => .done [dname] .tooLong
    | .ok target =>
      let answers := [dname, .new name dname.ttl (.cname target)]
      if qtype = .CNAME ∨ qtype = .ANY then .done answers .answered else .again answers target

section Zone

variable (apex : Path) (content : List Record) (qtype : RecordType)

def stepOf (name : Name) : Found → Step
  | .cut labels =>
    if labels = name.numLabels ∧ qtype ∈ parentTypes then
      atNode name qtype (node content name.path)
    else .done [] (.delegated (name.path.take labels))
  | .node records => atNode name qtype records
  | .rename dname labels => atDname name qtype dname labels
  | .wildcard records => atNode name qtype records
  | .missing => .done [] .noSuchName

/-- One round at a name in the zone. -/
def step (name : Name) : Step := stepOf content qtype name (lookup apex content name.path)

/-- Round after round, as long as there is fuel. -/
def resolve : (fuel : ℕ) → Name → Option (List Record × Ending)
  | 0, _ => none
  | fuel + 1, name =>
    if apex.isPrefixOf name.path then
      match step apex content qtype name with
      | .done answers ending => some (answers, ending)
      | .again answers target =>
        (resolve fuel target).map fun (more, ending) => (answers ++ more, ending)
    else some ([], .outOfZone)

end Zone

/-- The response to a chain of answers and how it ended; additional records are left out. -/
def response (content : List Record) (soa : Record) (answers : List Record) : Ending → Response
  | .answered | .outOfZone => ⟨0, true, answers, [], []⟩
  | .noSuchName => ⟨3, true, answers, [soa], []⟩
  | .noData => ⟨0, true, answers, [soa], []⟩
  | .delegated cut =>
    ⟨0, answers ≠ [], answers, (node content cut).filter (fun r => r.rtype = .NS) ++
      (node content cut).filter (fun r => r.rtype = .DS), []⟩
  | .tooLong => ⟨6, true, answers, [], []⟩

end OnetDns.Authority.Reference

namespace OnetDns.Authority
open Dns Dnssec

abbrev View := Path × RecordType × DnsClass × UInt32 × RData

/-- A record up to the case of its owner. -/
def view (r : Record) : View := (r.name.path, r.rtype, r.class', r.ttl, r.rdata)

/-- Two responses say the same; what they add for convenience is not looked at. -/
structure Response.Same (a b : Response) : Prop where
  rcode : a.rcode = b.rcode
  authoritative : a.authoritative = b.authoritative
  answers : a.answers.map view = b.answers.map view
  authority : a.authority.map view = b.authority.map view

/-- Answers that lead from a name to another, link by link. A DNAME stands in front of the
CNAME that is made from it. -/
inductive Linked : Name → List Record → Name → Prop
  | found {name : Name} {answers : List Record} (h : ∀ r ∈ answers, r.name.path = name.path) :
      Linked name answers name
  | cname {name target last : Name} {r : Record} {rest : List Record}
      (howner : r.name.path = name.path) (hdata : r.rdata = .cname target)
      (hrest : Linked target rest last) : Linked name (r :: rest) last
  | dname {name target suffix last : Name} {d r : Record} {rest : List Record}
      (habove : d.name.path <+: name.path) (hdname : d.rdata = .dname suffix)
      (howner : r.name.path = name.path) (hdata : r.rdata = .cname target)
      (hrest : Linked target rest last) : Linked name (d :: r :: rest) last
  | tooLong {name suffix : Name} {d : Record} (habove : d.name.path <+: name.path)
      (hdname : d.rdata = .dname suffix) : Linked name [d] name

/-- A response is the one of the reference algorithm: its answers are linked to the name, it
denies only a last name that is not there, and what it adds is of the zone. -/
structure Correct (zone : Zone) (qname : Name) (qtype : RecordType) (resp : Response) : Prop where
  reference : ∃ fuel answers ending,
    Reference.resolve zone.origin.path zone.allRecords qtype fuel qname = some (answers, ending) ∧
      resp.Same (Reference.response zone.allRecords zone.negativeSoaRecord answers ending)
  linked : ∃ last, Linked qname resp.answers last ∧
    (resp.rcode = 3 → Reference.present zone.allRecords last.path = false)
  additional : ∀ r ∈ resp.additional, view r ∈ zone.allRecords.map view

end OnetDns.Authority
