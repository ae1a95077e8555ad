import OnetDns.Dnssec.Names
import OnetDns.Dnssec.TypeBitmap

/-!
# Denial of existence with NSEC

`Nsec` and the checks over it in `onetdns-dnssec/src/lib.rs`: which records of a set
show that a name, or a type of a name, is not there. The data of the records is raw and
is parsed by every check.
-/
namespace OnetDns.Dns.RecordType

abbrev DS : RecordType := 43
abbrev RRSIG : RecordType := 46
abbrev NSEC : RecordType := 47
abbrev DNSKEY : RecordType := 48
abbrev NSEC3 : RecordType := 50
abbrev ANY : RecordType := 255

end OnetDns.Dns.RecordType

namespace OnetDns.Dns

abbrev DnsClass.IN : DnsClass := 1

/-- `Record::new`: the type follows the data. -/
def Record.new (name : Name) (ttl : UInt32) (rdata : RData) : Record :=
  ⟨name, rdata.recordType, DnsClass.IN, ttl, rdata⟩

end OnetDns.Dns

namespace OnetDns.Dnssec
open Dns LabelTree Name List Option

structure Nsec where
  next : Name
  types : List RecordType
  deriving DecidableEq

namespace Nsec

def parse (raw : Bytes) : Option Nsec :=
  match Name.parse (Reader.new raw) with
  | .error _ => none
  | .ok (next, r) =>
    if raw.length < r.pos then none
    else (parseTypeBitmaps (raw.drop r.pos)).map fun types => ⟨next, types⟩

/-- `from_record`: the data is kept raw. -/
def fromRecord (rec : Record) : Option Nsec :=
  match rec.rdata with
  | .unknown _ raw => parse raw
  | _ => none

def hasType (nsec : Nsec) (t : RecordType) : Bool := nsec.types.contains t

end Nsec

/-- `nsec_covers`. The interval of the last record of a zone wraps around. -/
def nsecCovers (owner next qname : Name) : Bool :=
  let ownerLtQ := canonicalNameCmp owner qname == .lt
  let qLtNext := canonicalNameCmp qname next == .lt
  if canonicalNameCmp owner next == .lt then ownerLtQ && qLtNext else ownerLtQ || qLtNext

lemma nsecCovers_iff (owner next qname : Name) :
    nsecCovers owner next qname = true ↔ Arc owner.path next.path qname.path := by
  unfold nsecCovers Arc
  simp only [beq_iff_eq, canonicalNameCmp_lt]
  split <;> simp [canonicalNameCmp_lt]

def wildcardName (encloser : Name) : Option Name :=
  (Name.fromLabels ([42] :: encloser.labels)).toOption

def ownsName (name : Name) (record : Record) : Bool :=
  record.rtype == .NSEC && record.name.eqIgnoreCase name && (Nsec.fromRecord record).isSome

def spansName (name : Name) (record : Record) : Bool :=
  record.rtype == .NSEC &&
    (Nsec.fromRecord record).any fun nsec => nsecCovers record.name nsec.next name

/-- A record that owns the name and lists neither the type nor CNAME. -/
def lacksType (name : Name) (qtype : RecordType) (record : Record) : Bool :=
  record.rtype == .NSEC && record.name.eqIgnoreCase name &&
    (Nsec.fromRecord record).any fun nsec =>
      !nsec.hasType qtype && !nsec.hasType .CNAME

variable (records : List Record)

variable (qname : Name)

/-- `nsec_closest_encloser_record`: the longest name above `qname` that owns a record. -/
def nsecClosestEncloserRecord : Option (Name × Record) :=
  (List.range qname.numLabels).reverse.findSome? fun labels =>
    let candidate := qname.suffix labels
    (records.find? (ownsName candidate)).map fun record => (candidate, record)

def nsecCoveringRecord (name : Name) : Option Record := records.find? (spansName name)

def nsecRecordLackingType (name : Name) (qtype : RecordType) :
    Option Record :=
  records.find? (lacksType name qtype)

/-- What `unique_records` takes for the same record. -/
def sameRecord (a b : Record) : Bool :=
  a.class' == b.class' && a.rtype == b.rtype && a.name.eqIgnoreCase b.name && a.rdata == b.rdata

def uniqueRecords : List Record :=
  records.foldl (fun unique record =>
    if unique.any (sameRecord · record) then unique else unique ++ [record]) []

def proveNodata (qtype : RecordType) : Bool :=
  if (nsecRecordLackingType records qname qtype).isSome then true
  else
    match nsecClosestEncloserRecord records qname with
    | none => false
    | some (ce, _) =>
      let nextCloser := qname.suffix (ce.numLabels + 1)
      match wildcardName ce with
      | none => false
      | some wildcard =>
        (nsecCoveringRecord records nextCloser).isSome &&
          (nsecRecordLackingType records wildcard qtype).isSome

def nsecNodataProof (qtype : RecordType) :
    Option (List Record) :=
  match nsecRecordLackingType records qname qtype with
  | some exact => some [exact]
  | none => do
    let (ce, ceRecord) ← nsecClosestEncloserRecord records qname
    let nextRecord ← nsecCoveringRecord records (qname.suffix (ce.numLabels + 1))
    let wildcard ← wildcardName ce
    let wildcardRecord ← nsecRecordLackingType records wildcard qtype
    return uniqueRecords [ceRecord, nextRecord, wildcardRecord]

def proveNameNonexistent : Bool :=
  match nsecClosestEncloserRecord records qname with
  | none => false
  | some (ce, _) =>
    let nextCloser := qname.suffix (ce.numLabels + 1)
    match wildcardName ce with
    | none => false
    | some wildcard =>
      (nsecCoveringRecord records nextCloser).isSome && (nsecCoveringRecord records wildcard).isSome

def nsecNameNonexistentProof : Option (List Record) := do
  let (ce, ceRecord) ← nsecClosestEncloserRecord records qname
  let nextRecord ← nsecCoveringRecord records (qname.suffix (ce.numLabels + 1))
  let wildcard ← wildcardName ce
  let wildcardRecord ← nsecCoveringRecord records wildcard
  return uniqueRecords [ceRecord, nextRecord, wildcardRecord]

/-- The label of wildcards. -/
def star : List ℕ := [42]

section Specs

variable {records : List Record} {qname : Name} {qtype : RecordType}

/-- A record of the set owns the name. -/
def Owned (records : List Record) (x : Path) : Prop :=
  ∃ r ∈ records, r.rtype = .NSEC ∧ r.name.path = x ∧ ∃ nsec, Nsec.fromRecord r = some nsec

/-- A record of the set spans the name. -/
def Spanned (records : List Record) (x : Path) : Prop :=
  ∃ r ∈ records, r.rtype = .NSEC ∧
    ∃ nsec, Nsec.fromRecord r = some nsec ∧ Arc r.name.path nsec.next.path x

/-- A record of the set owns the name and lists neither the type nor CNAME. -/
def Lacking (records : List Record) (x : Path) (t : RecordType) : Prop :=
  ∃ r ∈ records, r.rtype = .NSEC ∧ r.name.path = x ∧
    ∃ nsec, Nsec.fromRecord r = some nsec ∧ nsec.hasType t = false ∧ nsec.hasType .CNAME = false

variable (name : Name)

lemma ownsName_iff (r : Record) :
    ownsName name r = true ↔ r.rtype = .NSEC ∧ r.name.path = name.path ∧
      ∃ nsec, Nsec.fromRecord r = some nsec := by
  simp [ownsName, eqIgnoreCase_path, and_assoc, isSome_iff_exists]

lemma nsecCoveringRecord_isSome :
    (nsecCoveringRecord records name).isSome = true ↔ Spanned records name.path := by
  simp [nsecCoveringRecord, spansName, Spanned, Option.any_eq_true, nsecCovers_iff]

lemma nsecRecordLackingType_isSome : (nsecRecordLackingType records name qtype).isSome = true ↔
      Lacking records name.path qtype := by
  simp [nsecRecordLackingType, lacksType, Lacking, Option.any_eq_true, eqIgnoreCase_path, and_assoc]

/-- The encloser that the code guesses is the deepest one with a record in the set. -/
theorem nsecClosestEncloserRecord_some {ce : Name} {r : Record}
    (h : nsecClosestEncloserRecord records qname = some (ce, r)) :
    ∃ k, Deepest (Owned records) qname.path k ∧ ce = qname.suffix k := by
  unfold nsecClosestEncloserRecord at h
  rw [findSome?_range_reverse] at h
  obtain ⟨k, hk, hfind, hlast⟩ := h
  simp only [map_eq_some_iff, Prod.mk.injEq] at hfind
  obtain ⟨r', hr', rfl, rfl⟩ := hfind
  refine ⟨k, ⟨by rw [path_length]; exact hk, ?_, ?_⟩, rfl⟩
  · have hmem := mem_of_find?_eq_some hr'
    have howns := (ownsName_iff _ _).mp (find?_some hr')
    rw [suffix_path] at howns
    exact ⟨r', hmem, howns⟩
  rintro j hlow hhigh ⟨r'', hmem, howns⟩
  rw [path_length] at hhigh
  have hnone := hlast j hlow hhigh
  rw [map_eq_none_iff, find?_eq_none] at hnone
  refine hnone r'' hmem ((ownsName_iff _ _).mpr ?_)
  rw [suffix_path]
  exact howns

lemma nsecClosestEncloserRecord_of_deepest {k : ℕ} (h : Deepest (Owned records) qname.path k) :
    ∃ r, nsecClosestEncloserRecord records qname = some (qname.suffix k, r) := by
  obtain ⟨r, hmem, howns⟩ := h.holds
  rw [← suffix_path, ← ownsName_iff] at howns
  obtain ⟨r', hr'⟩ := isSome_iff_exists.mp (find?_isSome.mpr ⟨r, hmem, howns⟩)
  refine ⟨r', ?_⟩
  unfold nsecClosestEncloserRecord
  rw [findSome?_range_reverse]
  refine ⟨k, by rw [← path_length]; exact h.short, ?_, ?_⟩
  · dsimp only
    rw [hr', map_some]
  intro j hlow hhigh
  rw [map_eq_none_iff, find?_eq_none]
  intro r'' hmem'' howns''
  refine h.last j hlow (by rw [path_length]; exact hhigh) ⟨r'', hmem'', ?_⟩
  rw [← suffix_path]
  exact (ownsName_iff _ _).mp howns''

lemma wildcardName_suffix (qname : Name) {k : ℕ} (hk : k < qname.path.length) :
    ∃ w, wildcardName (qname.suffix k) = some w ∧ w.path = qname.path.take k ++ [star] := by
  rw [path_length] at hk
  set labels := (qname.suffix k).labels
  have hpos : qname.numLabels - k - 1 < qname.labels.length := by
    unfold Name.numLabels at hk ⊢
    omega
  have hnext : qname.labels.drop (qname.numLabels - k - 1) =
      qname.labels[qname.numLabels - k - 1] :: labels := by
    rw [drop_eq_getElem_cons hpos]
    congr 2
    omega
  have hlen : wireLen ([42] :: labels) ≤ maxNameLen := by
    have hwire := (wireLen_drop_le qname.labels (qname.numLabels - k - 1)).trans qname.wire_len
    have hlabel := (qname.label_len _ (getElem_mem hpos)).1
    rw [hnext] at hwire
    simp only [wireLen, map_cons, sum_cons, length_singleton] at hwire ⊢
    omega
  have hform : ∀ label ∈ [42] :: labels, 1 ≤ label.length ∧ label.length ≤ 63 := by
    intro label hmem
    rcases mem_cons.mp hmem with rfl | hmem
    · decide
    · exact (qname.suffix k).label_len label hmem
  refine ⟨⟨[42] :: labels, hform, hlen⟩, ?_, ?_⟩
  · unfold wildcardName Name.fromLabels
    rw [dif_pos hform, dif_pos hlen]
    rfl
  · rw [← suffix_path, Name.path, map_cons, reverse_cons]
    rfl

lemma numLabels_suffix {k : ℕ} (hk : k < qname.path.length) : (qname.suffix k).numLabels = k := by
  rw [path_length] at hk
  rw [suffix_numLabels, min_eq_left hk.le]

/-- A test at the closest encloser, the next closer name and the wildcard. -/
theorem encloser_iff {test : Name → Bool} {P : List (List ℕ) → Prop}
    (htest : ∀ w, test w = true ↔ P w.path) :
    (match nsecClosestEncloserRecord records qname with
      | none => false
      | some (ce, _) =>
        match wildcardName ce with
        | none => false
        | some wildcard =>
          (nsecCoveringRecord records (qname.suffix (ce.numLabels + 1))).isSome && test wildcard) =
      true ↔ ∃ k, Deepest (Owned records) qname.path k ∧ Spanned records (qname.path.take (k + 1)) ∧
        P (qname.path.take k ++ [star]) := by
  cases hce : nsecClosestEncloserRecord records qname with
  | none =>
    refine iff_of_false (by simp) ?_
    rintro ⟨k, hdeep, -⟩
    obtain ⟨r, hr⟩ := nsecClosestEncloserRecord_of_deepest hdeep
    exact absurd (hce.symm.trans hr) (by simp)
  | some found =>
    obtain ⟨ce, r⟩ := found
    obtain ⟨k, hdeep, rfl⟩ := nsecClosestEncloserRecord_some hce
    obtain ⟨w, hw, hpath⟩ := wildcardName_suffix qname hdeep.short
    simp only [hw, numLabels_suffix hdeep.short, Bool.and_eq_true, nsecCoveringRecord_isSome,
      htest, suffix_path, hpath]
    constructor
    · exact fun h => ⟨k, hdeep, h⟩
    · rintro ⟨k', hdeep', h⟩
      rw [hdeep.unique hdeep']
      exact h

/-- `prove_name_nonexistent` in terms of the records. -/
theorem proveNameNonexistent_iff :
    proveNameNonexistent records qname = true ↔
      ∃ k, Deepest (Owned records) qname.path k ∧ Spanned records (qname.path.take (k + 1)) ∧
        Spanned records (qname.path.take k ++ [star]) :=
  encloser_iff nsecCoveringRecord_isSome

/-- `prove_nodata` in terms of the records. -/
theorem proveNodata_iff :
    proveNodata records qname qtype = true ↔
      Lacking records qname.path qtype ∨
        ∃ k, Deepest (Owned records) qname.path k ∧ Spanned records (qname.path.take (k + 1)) ∧
          Lacking records (qname.path.take k ++ [star]) qtype := by
  unfold proveNodata
  rw [← nsecRecordLackingType_isSome]
  split
  · rename_i hexact
    exact iff_of_true rfl (.inl hexact)
  rename_i hexact
  rw [or_iff_right hexact]
  exact encloser_iff (P := (Lacking records · qtype)) nsecRecordLackingType_isSome

/-- The records of a proof are found exactly when the check succeeds. -/
theorem nsecNameNonexistentProof_isSome :
    (nsecNameNonexistentProof records qname).isSome = proveNameNonexistent records qname := by
  unfold nsecNameNonexistentProof proveNameNonexistent
  cases nsecClosestEncloserRecord records qname with
  | none => rfl
  | some found =>
    cases hcover : nsecCoveringRecord records (qname.suffix (found.1.numLabels + 1)) <;>
      cases hw : wildcardName found.1 with
      | none => simp [hw]
      | some w =>
        cases hlast : nsecCoveringRecord records w <;> simp [hcover, hw, hlast]

lemma nsecNodataProof_isSome :
    (nsecNodataProof records qname qtype).isSome = proveNodata records qname qtype := by
  unfold nsecNodataProof proveNodata
  cases nsecRecordLackingType records qname qtype with
  | some exact => rfl
  | none =>
    cases nsecClosestEncloserRecord records qname with
    | none => rfl
    | some found =>
      cases hcover : nsecCoveringRecord records (qname.suffix (found.1.numLabels + 1)) <;>
        cases hw : wildcardName found.1 with
        | none => simp [hw]
        | some w =>
          cases hlast : nsecRecordLackingType records w qtype <;> simp [hcover, hw, hlast]

end Specs

end OnetDns.Dnssec
