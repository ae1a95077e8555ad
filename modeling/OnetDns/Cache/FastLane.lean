import Mathlib.Data.Nat.Bitwise
import OnetDns.Cache.KeyFields
import OnetDns.Dns.MessageCodec

/-!
# The key of the fast path is the key of the structured path

A packet that `scanQuery` takes has one shape: a header without counts other than
one question and at most one additional record, a name without pointers, and an OPT
record with nothing but padding. For such a packet the key of what the parser returns is
compared with that of the scan.
-/
namespace OnetDns.Cache
open Dns BigEndian List Nat Holds Message

@[simp] lemma rejectIf_eq_some {c : Prop} [Decidable c] {u : Unit} : rejectIf c = some u ↔ ¬ c := by
  simp [rejectIf]

/-- A length byte without the two upper bits. -/
theorem toNat_le_of_labelKind {len : UInt8} (h : len &&& 0xC0 = 0) : len.toNat ≤ 63 := by
  have hall : ∀ n : Fin 256, UInt8.ofFin n &&& 0xC0 = 0 → n.val ≤ 63 := by decide +kernel
  exact hall len.toFin h

section Inversion

variable {packet : Bytes} {pos start stop : ℕ}

lemma u16At_inv {v : UInt16} (h : u16At packet pos = some v) : Holds packet pos (be16 v) := by
  simp only [u16At, Option.bind_eq_bind, Option.bind_eq_some_iff] at h
  obtain ⟨hi, hhi, lo, hlo, hv⟩ := h
  cases hv
  rw [be16_ofBe16]
  exact (of_get hhi).join (.of_get hlo)

lemma slice_inv {s : Bytes} (h : slice packet start stop = some s) :
    Holds packet start s ∧ start + s.length = stop := by
  rw [slice] at h
  split at h
  case isFalse => cases h
  case isTrue hin =>
    cases h
    have hlen : ((packet.drop start).take (stop - start)).length = stop - start := by
      rw [length_take, length_drop]
      omega
    refine ⟨Holds.of_prefix ( take_prefix _ _) (by omega), ?_⟩
    omega

/-- A label loop that ends has read a name, and its key ends with that name in lower case. -/
theorem scanName_inv {nameStart suffixLen fuel : ℕ} {key key' : Bytes}
    (h : scanName packet nameStart suffixLen fuel pos key = some (stop, key')) :
    ∃ labels : List Bytes, (∀ l ∈ labels, 1 ≤ l.length ∧ l.length ≤ 63) ∧
      Holds packet pos (wireOf labels) ∧ stop = pos + (wireOf labels).length ∧
      key' = key ++ wireOf (lowerLabels labels) ∧ key'.length + suffixLen ≤ inlineKeyCapacity := by
  induction fuel generalizing pos key with
  | zero => cases h
  | succ fuel ih =>
    simp only [scanName, Option.bind_eq_bind, Option.bind_eq_some_iff] at h
    obtain ⟨len, hlen, h⟩ := h
    have hhead := of_get hlen
    split at h
    case isTrue hzero =>
      subst hzero
      simp only [Option.bind_eq_some_iff, rejectIf_eq_some] at h
      obtain ⟨-, hroom, rfl, rfl⟩ := h
      refine ⟨[], by simp, hhead, rfl, rfl, ?_⟩
      simpa using hroom
    case isFalse hzero =>
      simp only [Option.bind_eq_some_iff, rejectIf_eq_some, not_not] at h
      obtain ⟨-, hkind, label, hlabel, -, -, -, -, h⟩ := h
      obtain ⟨hholds, hend⟩ := slice_inv hlabel
      obtain ⟨labels, hlabels, hrest, rfl, rfl, hcapacity⟩ := ih h
      have hlabelLen : label.length = len.toNat := by omega
      have hbyte : .ofNat label.length = len := by rw [hlabelLen, UInt8.ofNat_toNat]
      have hpos : len.toNat ≠ 0 := fun h => hzero (UInt8.toNat.inj h)
      have hle := toNat_le_of_labelKind hkind
      refine ⟨label :: labels, ?_, ?_, ?_, ?_, hcapacity⟩
      · intro l hl
        rcases mem_cons.mp hl with rfl | hl
        · omega
        · exact hlabels l hl
      · rw [wireOf_cons, hbyte]
        refine hhead.join (hholds.join ?_)
        rwa [← hend] at hrest
      · rw [wireOf_cons, length_cons, length_append, hlabelLen]
        omega
      · rw [lowerLabels_cons, wireOf_cons, length_map, hbyte, append_assoc]
        rfl

end Inversion

/-- A run of padding matters to nobody: the parser takes it and the key has no part of it. -/
structure PaddingOnly (fuel : ℕ) (raw : Bytes) (options : List (UInt16 × Bytes)) : Prop where
  visited : Edns.visitOptions fuel raw = .ok options
  counted : ∀ count size, countOptions fuel raw count size = some (count, size)
  copied : copyOptions fuel raw = []

namespace PaddingOnly

lemma nil (fuel : ℕ) : PaddingOnly fuel [] [] := by
  cases fuel <;> exact ⟨rfl, fun _ _ => rfl, rfl⟩

lemma cons {fuel : ℕ} {l₀ l₁ c₀ c₁ : UInt8} {rest : Bytes} {options : List (UInt16 × Bytes)}
    (hcode : ofBe16 [c₀, c₁] = ednsPadding) (hlen : (ofBe16 [l₀, l₁]).toNat ≤ rest.length)
    (h : PaddingOnly fuel (rest.drop (ofBe16 [l₀, l₁]).toNat) options) :
    PaddingOnly (fuel + 1) (c₀ :: c₁ :: l₀ :: l₁ :: rest)
      ((ednsPadding, rest.take (ofBe16 [l₀, l₁]).toNat) :: options) := by
  have hlen := not_lt.mpr hlen
  constructor
  · simp only [Edns.visitOptions, refuseIf, if_neg hlen, h.visited, hcode]
    rfl
  · intro count size
    simp only [countOptions, if_neg hlen, if_pos hcode, h.counted]
  · simp only [copyOptions, if_pos hcode, h.copied]

end PaddingOnly

lemma scanOptions_inv {fuel : ℕ} {raw : Bytes} {before after : Bool}
    (h : scanOptions fuel raw before = some after) :
    ∃ options, PaddingOnly fuel raw options ∧ after = (before || !options.isEmpty) := by
  induction fuel generalizing raw before with
  | zero =>
    cases raw with
    | nil =>
      cases h
      exact ⟨[], .nil 0, by simp⟩
    | cons c rest => cases h
  | succ fuel ih =>
    rcases raw with _ | ⟨c₀, _ | ⟨c₁, _ | ⟨l₀, _ | ⟨l₁, rest⟩⟩⟩⟩
    · cases h
      exact ⟨[], .nil _, by simp⟩
    · cases h
    · cases h
    · cases h
    simp only [scanOptions] at h
    split at h
    · cases h
    split at h
    · cases h
    · rename_i hlen hcode
      obtain ⟨options, hpadding, rfl⟩ := ih h
      exact ⟨_, .cons (not_not.mp hcode) (not_lt.mp hlen) hpadding, by simp⟩

/-- The OPT record of a packet that the fast path takes. -/
structure OptShape where
  udpPayload : UInt16
  extended : UInt8
  flagsHi : UInt8
  flagsLo : UInt8
  raw : Bytes
  raw_len : raw.length ≤ 65535
  options : List (UInt16 × Bytes)
  padding : PaddingOnly raw.length raw options

open OptShape

namespace OptShape

variable (o : OptShape)

def ext : Bytes := [o.extended, 0, o.flagsHi, o.flagsLo]

def bytes : Bytes :=
  [0] ++ (be16 RecordType.OPT ++ (be16 o.udpPayload ++ (o.ext ++
    (be16 (UInt16.ofNat o.raw.length) ++ o.raw))))

def ttl : UInt32 := ofBe32 o.ext

def record : Record := ⟨Name.root, .OPT, o.udpPayload, o.ttl, .unknown .OPT o.raw⟩

def scanned : ScannedEdns := ⟨o.udpPayload, o.flagsHi &&& 0x80 != 0, !o.options.isEmpty⟩

end OptShape

lemma scanOpt_inv {packet : Bytes} {pos stop : ℕ} {edns : ScannedEdns}
    (h : scanOpt packet pos = some (edns, stop)) :
    ∃ o : OptShape, Holds packet pos o.bytes ∧ stop = pos + o.bytes.length ∧ edns = o.scanned := by
  simp only [scanOpt, Option.bind_eq_bind, Option.bind_eq_some_iff, rejectIf_eq_some, not_not] at h
  obtain ⟨owner, howner, -, rfl, rtype, hrtype, -, rfl, udpPayload, hudp, ext, hext, -, hversion,
    flags, hflags, rdlen, hrdlen, rdata, hrdata, hasOptions, hoptions, rfl, rfl⟩ := h
  obtain ⟨hextHolds, hextLen⟩ := slice_inv hext
  obtain ⟨hdata, hdataLen⟩ := slice_inv hrdata
  obtain ⟨options, hpadding, rfl⟩ := scanOptions_inv hoptions
  have hlen : rdata.length = rdlen.toNat := by omega
  rcases ext with _ | ⟨e₀, _ | ⟨e₁, _ | ⟨e₂, _ | ⟨e₃, _ | ⟨e₄, rest⟩⟩⟩⟩⟩
  case cons.cons.cons.cons.nil =>
    cases hversion
    cases hflags
    refine ⟨⟨udpPayload, e₀, flags, e₃, rdata, ?_, options, hpadding⟩, ?_, ?_, rfl⟩
    · have := rdlen.toNat_lt
      omega
    · refine (of_get howner).join ((u16At_inv hrtype).join
        ((u16At_inv hudp).join (hextHolds.join (.join ?_ ?_))))
      · rw [hlen, UInt16.ofNat_toNat]
        exact u16At_inv hrdlen
      · exact hdata
    · simp only [bytes, OptShape.ext, length_append, be16_length, length_cons, length_nil]
      omega
  all_goals simp at hextLen
  all_goals omega

/-- A packet that the fast path takes, with the checks that it passed. -/
structure QueryShape where
  id : UInt8 × UInt8
  flags2 : UInt8
  flags3 : UInt8
  name : Name
  qtype : UInt16
  opt : Option OptShape
  query : flags2 &&& 0x80 = 0
  standard : (flags2 >>> 3) &&& 0x0F = 0
  plain : flags2 &&& 0x06 = 0
  no_rcode : flags3 &&& 0x0F = 0
  small : 3 + name.wire.length + (if opt.isSome then 11 else 5) ≤ inlineKeyCapacity

namespace QueryShape

def arcount (s : QueryShape) : UInt16 := if s.opt.isSome then 1 else 0

def optBytes (s : QueryShape) : Bytes := (s.opt.map OptShape.bytes).getD []

def wire (s : QueryShape) : Bytes :=
  [s.id.1, s.id.2] ++ ([s.flags2, s.flags3] ++ (be16 1 ++ (be16 0 ++ (be16 0 ++ (be16 s.arcount ++
    (s.name.wire ++ (be16 s.qtype ++ (be16 1 ++ s.optBytes))))))))

def scannedFlags (s : QueryShape) : UInt16 :=
  semanticFlags (s.flags2 &&& 0x01 != 0) (s.flags3 &&& 0x20 != 0) (s.flags3 &&& 0x10 != 0)

/-- What the scanner returns. -/
def scanned (s : QueryShape) : ScannedQuery where
  id := s.id
  qname := s.name.wire
  qtype := s.qtype
  edns := s.opt.map OptShape.scanned
  key := [1] ++ be16 s.scannedFlags ++ s.name.canonicalKey ++ be16 s.qtype ++ be16 1 ++
    scannedEdnsBytes (s.opt.map OptShape.scanned)

end QueryShape

lemma scanAdditional_inv {packet : Bytes} {arcount : UInt16} {pos stop : ℕ}
    {edns : Option ScannedEdns} (h : scanAdditional packet arcount pos = some (edns, stop))
    (hpos : pos ≤ packet.length) :
    ∃ opt : Option OptShape, Holds packet pos ((opt.map bytes).getD []) ∧
      stop = pos + ((opt.map bytes).getD []).length ∧
      edns = opt.map scanned ∧ (opt.isSome ↔ arcount = 1) := by
  rw [scanAdditional] at h
  split at h
  case isTrue hone =>
    simp only [Option.map_eq_some_iff, Prod.exists] at h
    obtain ⟨edns, stop, hscan, rfl, rfl⟩ := h
    obtain ⟨o, hholds, rfl, rfl⟩ := scanOpt_inv hscan
    exact ⟨some o, hholds, rfl, rfl, by simp [hone]⟩
  case isFalse hzero =>
    cases h
    exact ⟨none, Holds.of_prefix nil_prefix hpos, rfl, rfl, by simp [hzero]⟩

/-- A packet that the scanner takes has the shape, and the scan is a function of it. -/
theorem scanQuery_inv {p : Bytes} {q : ScannedQuery} (h : scanQuery p = some q) :
    ∃ s : QueryShape, p = s.wire ∧ q = s.scanned := by
  simp only [scanQuery, Option.bind_eq_bind, Option.bind_eq_some_iff, rejectIf_eq_some, not_or,
    not_not] at h
  obtain ⟨-, -, flags2, hflags2, flags3, hflags3, -, ⟨hquery, hstandard, hplain⟩, -, ⟨hrcode, -⟩,
    qdcount, hqd, ancount, han, nscount, hns, arcount, har, -, ⟨rfl, rfl, rfl, hle⟩, h⟩ := h
  simp only [scanBody, Option.bind_eq_bind, Option.bind_eq_some_iff, rejectIf_eq_some, not_or,
    not_not, Option.pure_def, Option.some.injEq, Prod.exists] at h
  obtain ⟨pos, key, hname, qtype, hqtype, qclass, hqclass, -, ⟨rfl, -⟩, edns, stop, hadditional, -,
    rfl, id, hid, id', hid', rfl⟩ := h
  obtain ⟨labels, hlabels, hwire, rfl, rfl, hcapacity⟩ := scanName_inv hname
  have hclass := u16At_inv hqclass
  obtain ⟨opt, hopt, hstop, rfl, hone⟩ := scanAdditional_inv hadditional hclass.le
  rw [length_append, wireOf_length, wireLen_lower] at hcapacity
  have hcount : arcount = if opt.isSome then 1 else 0 := by
    split
    case isTrue hsome => exact hone.mp hsome
    case isFalse hnone =>
      have hne : arcount ≠ 1 := fun h => hnone (hone.mpr h)
      have hnat : arcount.toNat ≠ 1 := fun h => hne (UInt16.toNat.inj h)
      have hnatLe : arcount.toNat ≤ 1 := not_lt.mp hle
      exact UInt16.toNat.inj (by change _ = 0; omega)
  have hsuffix : (if arcount = 1 then 11 else 5) = if opt.isSome then 11 else 5 := by
    simp only [← hone]
  have hsmall : 3 + (wireOf labels).length + (if opt.isSome then 11 else 5) ≤
      inlineKeyCapacity := by
    rw [wireOf_length, ← hsuffix]
    exact hcapacity
  let name : Name := ⟨labels, hlabels, by
    rw [wireOf_length] at hsmall
    exact (show _ ≤ 64 by change _ ≤ 64 at hsmall; omega).trans (by decide)⟩
  let s : QueryShape :=
    ⟨(id, id'), flags2, flags3, name, qtype, opt, hquery, hstandard, hplain, hrcode, hsmall⟩
  refine ⟨s, ?_, ?_⟩
  · apply eq_of_length
    · have hrest := hwire.join ((u16At_inv hqtype).join (hclass.join hopt))
      have hcounts := (u16At_inv hqd).join ((u16At_inv han).join
        ((u16At_inv hns).join ((u16At_inv har).join hrest)))
      rw [hcount] at hcounts
      exact ((of_get hid).join (of_get hid')).join
        (((of_get hflags2).join (.of_get hflags3)).join hcounts)
    · simp only [QueryShape.wire, length_append, be16_length, length_cons,
        length_nil, s, name, QueryShape.optBytes, Name.wire]
      omega
  · simp only [Nat.add_sub_cancel_left, hwire.take]
    rfl

variable (o : OptShape)

namespace OptShape

lemma parse_record {buf : Bytes} {pos limit : ℕ} (h : Holds buf pos o.bytes)
    (hl : pos + o.bytes.length ≤ limit) :
    Record.parse .none ⟨buf, pos, limit⟩ = .ok (o.record, ⟨buf, pos + o.bytes.length, limit⟩) := by
  have hlen : o.bytes.length = 11 + o.raw.length := by
    simp only [bytes, ext, length_append, be16_length, length_cons, length_nil]
    omega
  have hraw := o.raw_len
  have hnat : (UInt16.ofNat o.raw.length).toNat = o.raw.length := toNat_ofNat_le16 (by omega)
  have hext : o.ext = be32 o.ttl := (be32_ofBe32 _ _ _ _).symm
  have htype : Holds buf (pos + 1) _ := h.right
  have hclass : Holds buf (pos + 3) _ := htype.right
  have httl : Holds buf (pos + 5) _ := hclass.right
  have hrdlen : Holds buf (pos + 9) _ := httl.right
  have hdata : Holds buf (pos + 11) _ := hrdlen.right
  have hroot : Name.parse ⟨buf, pos, limit⟩ = .ok (.root, ⟨buf, pos + 1, limit⟩) :=
    Name.parse_restores .root h.left (by change pos + 1 ≤ limit; omega)
  have hparse : Record.parseData .none .OPT o.udpPayload o.raw.length ⟨buf, pos + 11, limit⟩ =
      .ok (.unknown .OPT o.raw, ⟨buf, pos + 11 + o.raw.length, limit⟩) := by
    have hunknown : RData.parse .OPT o.raw.length ⟨buf, pos + 11, pos + 11 + o.raw.length⟩ =
        .ok (.unknown .OPT o.raw, ⟨buf, pos + 11 + o.raw.length, pos + 11 + o.raw.length⟩) :=
      RData.parse_restores (x := .unknown .OPT o.raw) rfl trivial
        (show .OPT ∉ RData.typedTypes by decide) rfl hdata le_rfl
    rw [Record.parseData]
    simp [Record.UpdateSection.emptyClasses, hunknown,
      show ¬ limit < pos + 11 + o.raw.length by omega]
  rw [hext] at httl
  refine (bind_ok hroot).trans ?_
  refine (u16_at htype (by omega)).trans ?_
  refine (u16_at hclass (by omega)).trans ?_
  refine (u32_at httl (by omega)).trans ?_
  refine (u16_at hrdlen (by omega)).trans ?_
  rw [hnat, hlen, ← add_assoc]
  exact bind_ok hparse

lemma ttl_toNat :
    o.ttl.toNat = o.extended.toNat * 2 ^ 24 + o.flagsHi.toNat * 256 + o.flagsLo.toNat := by
  have hextended := o.extended.toNat_lt
  have hhi := o.flagsHi.toNat_lt
  have hlo := o.flagsLo.toNat_lt
  simp only [ttl, ext, ofBe32, UInt32.toNat_ofNat', decode, length_cons, length_nil,
    UInt8.toNat_zero]
  omega

lemma ttl_extended : (o.ttl >>> 24).toUInt8 = o.extended := by
  have hhi := o.flagsHi.toNat_lt
  have hlo := o.flagsLo.toNat_lt
  apply UInt8.toNat.inj
  have hshift : (24 : UInt32).toNat % 32 = 24 := rfl
  rw [UInt32.toNat_toUInt8, UInt32.toNat_shiftRight, ttl_toNat, hshift]
  have hextended := o.extended.toNat_lt
  omega

lemma validateRecord : Edns.validateRecord o.record = .ok o.extended := by
  change (Edns.visitOptions o.raw.length o.raw >>= fun _ => .ok (o.ttl >>> 24).toUInt8) = _
  rw [o.padding.visited, ttl_extended]
  rfl

end OptShape

variable (s : QueryShape)

namespace QueryShape

def header (s : QueryShape) : Header :=
  Header.fromFlags (ofBe16 [s.id.1, s.id.2]) (ofBe16 [s.flags2, s.flags3])

def extended (s : QueryShape) : UInt8 := (s.opt.map OptShape.extended).getD 0

/-- What the parser returns. -/
def message (s : QueryShape) : Message where
  header := { s.header with rcode := s.header.rcode ||| (s.extended.toUInt16 <<< 4) }
  questions := [⟨s.name, s.qtype, 1⟩]
  answers := []
  authorities := []
  additionals := (s.opt.map OptShape.record).toList

lemma withExtendedRcode :
    Message.withExtendedRcode s.header s.message.additionals = .ok s.message.header := by
  cases hopt : s.opt with
  | none =>
    simp only [Message.withExtendedRcode, message, hopt, extended]
    simp
  | some o =>
    have hfilter : [o.record].filter Message.isOpt = [o.record] := rfl
    simp only [Message.withExtendedRcode, message, hopt, extended, Option.map_some,
      Option.toList_some, hfilter, o.validateRecord]
    rfl

lemma wire_length : s.wire.length = 16 + s.name.wire.length + s.optBytes.length := by
  simp only [wire, length_append, be16_length, length_cons, length_nil]
  omega

lemma readN_additionals {buf : Bytes} {pos limit : ℕ}
    (h : Holds buf pos s.optBytes) (hl : pos + s.optBytes.length ≤ limit) :
    readN (Record.parse .none) s.arcount.toNat ⟨buf, pos, limit⟩ =
      .ok (s.message.additionals, ⟨buf, pos + s.optBytes.length, limit⟩) := by
  cases hopt : s.opt with
  | none =>
    simp only [arcount, message, optBytes, hopt]
    rfl
  | some o =>
    simp only [optBytes, hopt] at h hl
    simp only [arcount, message, optBytes, hopt]
    exact (bind_ok (o.parse_record h hl)).trans rfl

lemma arcount_le : s.arcount.toNat ≤ 1 ∧ s.arcount.toNat * 11 ≤ s.optBytes.length := by
  cases hopt : s.opt with
  | none => simp [arcount, hopt]
  | some o =>
    have hlen : 11 ≤ o.bytes.length := by
      simp only [bytes, OptShape.ext, length_append, be16_length, length_cons]
      omega
    simpa [arcount, optBytes, hopt] using hlen

lemma parse_wire (hlen : s.wire.length ≤ maxDnsWireLen) : parse s.wire = .ok s.message := by
  have hsize := s.wire_length
  set buf := s.wire with hbuf
  have hall : Holds buf 0 _ := ⟨[], [], by rw [hbuf, append_nil, wire, nil_append], rfl⟩
  rw [← be16_ofBe16 s.id.1, ← be16_ofBe16 s.flags2] at hall
  have hflags : Holds buf 2 _ := hall.right
  have hqd : Holds buf 4 _ := hflags.right
  have han : Holds buf 6 _ := hqd.right
  have hns : Holds buf 8 _ := han.right
  have har : Holds buf 10 _ := hns.right
  have hname : Holds buf 12 _ := har.right
  have hwire : s.name.wire.length = wireLen s.name.labels := wireOf_length _
  have hqtype : Holds buf (12 + s.name.wire.length) _ := hname.right
  rw [hwire] at hqtype hsize
  have hqclass : Holds buf (12 + wireLen s.name.labels + 2) _ := hqtype.right
  have hopt : Holds buf (12 + wireLen s.name.labels + 2 + 2) s.optBytes := hqclass.right
  have hquestion : parseQuestion ⟨buf, 12, buf.length⟩ =
      .ok (⟨s.name, s.qtype, 1⟩, ⟨buf, 12 + wireLen s.name.labels + 2 + 2, buf.length⟩) := by
    have hparse := Name.parse_restores s.name hname.left
      (show 12 + s.name.wire.length ≤ buf.length by omega)
    rw [hwire] at hparse
    refine (bind_ok hparse).trans ?_
    refine (u16_at hqtype (by omega)).trans ?_
    exact u16_at hqclass (by omega)
  have hpossible : ¬ countsImpossible (1 : UInt16).toNat (0 : UInt16).toNat
      (0 : UInt16).toNat s.arcount.toNat (buf.length - 12) = true := by
    have hmax : maxSectionItems = 4096 := rfl
    have hone : 1 ≤ wireLen s.name.labels := le_add_left _ _
    have hcount := s.arcount_le
    change ¬ countsImpossible 1 0 0 s.arcount.toNat (buf.length - 12) = true
    simp only [countsImpossible, Bool.or_eq_true, decide_eq_true_eq, not_or, not_lt]
    omega
  have hread : parseBody ⟨buf, 0, buf.length⟩ =
      .ok (s.message, ⟨buf, buf.length, buf.length⟩) := by
    unfold parseBody
    rw [u16_at hall (by omega), u16_at hflags (by omega),
      u16_at hqd (by omega), u16_at han (by omega),
      u16_at hns (by omega), u16_at har (by omega), get_bind]
    refine (bind_ok (refuseIf_read hpossible)).trans ?_
    refine (bind_ok ((bind_ok hquestion).trans rfl)).trans ?_
    refine (bind_ok (v := []) rfl).trans ?_
    refine (bind_ok (v := []) rfl).trans ?_
    refine (bind_ok (refuseIf_read (by simp))).trans ?_
    refine (bind_ok (s.readN_additionals hopt (by omega))).trans ?_
    have hend : 12 + wireLen s.name.labels + 2 + 2 + s.optBytes.length = buf.length := by omega
    rw [get_bind, hend]
    refine (bind_ok (refuseIf_read (by simp [Reader.remaining]))).trans ?_
    have hlift : (liftM (Message.withExtendedRcode s.header s.message.additionals) :
        ReadM Header) ⟨buf, buf.length, buf.length⟩ =
        .ok (s.message.header, ⟨buf, buf.length, buf.length⟩) := by
      rw [s.withExtendedRcode]
      rfl
    exact (bind_ok hlift).trans rfl
  rw [parse, if_neg (not_lt.mpr hlen)]
  change Prod.fst <$> parseBody ⟨buf, 0, buf.length⟩ = _
  rw [hread]
  rfl

end QueryShape

lemma ofBe16_toNat (hi lo : UInt8) : (ofBe16 [hi, lo]).toNat = 2 ^ 8 * hi.toNat + lo.toNat := by
  have hhi := hi.toNat_lt
  have hlo := lo.toNat_lt
  simp only [ofBe16, decode, length_cons, length_nil, UInt16.toNat_ofNat']
  omega

/-- Bits are taken byte by byte. -/
theorem ofBe16_and (a b c d : UInt8) :
    ofBe16 [a, b] &&& ofBe16 [c, d] = ofBe16 [a &&& c, b &&& d] := by
  apply UInt16.toNat.inj
  rw [UInt16.toNat_and, ofBe16_toNat, ofBe16_toNat, ofBe16_toNat, UInt8.toNat_and, UInt8.toNat_and]
  apply eq_of_testBit_eq
  intro i
  have hb : b.toNat < 2 ^ 8 := b.toNat_lt
  have hd : d.toNat < 2 ^ 8 := d.toNat_lt
  have hbd : b.toNat &&& d.toNat < 2 ^ 8 := and_lt_two_pow _ hd
  rw [testBit_and, testBit_two_pow_mul_add _ hb, testBit_two_pow_mul_add _ hd,
    testBit_two_pow_mul_add _ hbd]
  split <;> rw [testBit_and]

lemma ofBe16_eq_zero {a b : UInt8} : ofBe16 [a, b] = 0 ↔ a = 0 ∧ b = 0 := by
  rw [← UInt16.toNat_inj, ofBe16_toNat, ← UInt8.toNat_inj, ← UInt8.toNat_inj]
  simp

lemma flag_hi {hi lo : UInt8} (mask : UInt8) :
    (ofBe16 [hi, lo] &&& ofBe16 [mask, 0] != 0) = (hi &&& mask != 0) := by
  rw [ofBe16_and, Bool.eq_iff_iff, bne_iff_ne, ne_eq, ofBe16_eq_zero]
  simp

lemma flag_lo {hi lo : UInt8} (mask : UInt8) :
    (ofBe16 [hi, lo] &&& ofBe16 [0, mask] != 0) = (lo &&& mask != 0) := by
  rw [ofBe16_and, Bool.eq_iff_iff, bne_iff_ne, ne_eq, ofBe16_eq_zero]
  simp

lemma fromFlags_bytes (id : UInt16) (hi lo : UInt8) :
    Header.fromFlags id (ofBe16 [hi, lo]) =
      { id
        response := hi &&& 0x80 != 0
        opcode := (hi >>> 3) &&& 0x0F
        authoritative := hi &&& 0x04 != 0
        truncated := hi &&& 0x02 != 0
        recursionDesired := hi &&& 0x01 != 0
        recursionAvailable := lo &&& 0x80 != 0
        authenticData := lo &&& 0x20 != 0
        checkingDisabled := lo &&& 0x10 != 0
        rcode := ofBe16 [0, lo &&& 0x0F] } := by
  have hopcode : (((ofBe16 [hi, lo]) >>> 11) &&& 0xF).toUInt8 = (hi >>> 3) &&& 0x0F := by
    have hlo := lo.toNat_lt
    apply UInt8.toNat.inj
    rw [UInt16.toNat_toUInt8, UInt16.toNat_and, UInt16.toNat_shiftRight, ofBe16_toNat]
    change ((2 ^ 8 * hi.toNat + lo.toNat) >>> 11 &&& (2 ^ 4 - 1)) % 2 ^ 8 =
      hi.toNat >>> 3 &&& (2 ^ 4 - 1)
    rw [and_two_pow_sub_one_eq_mod, and_two_pow_sub_one_eq_mod]
    omega
  have hrcode : ofBe16 [hi, lo] &&& 0xF = ofBe16 [0, lo &&& 0x0F] := by
    rw [show (0xF : UInt16) = ofBe16 [0, 0x0F] by decide, ofBe16_and, UInt8.and_zero]
  simp only [Header.fromFlags, Header.mk.injEq, hopcode, hrcode, true_and]
  exact ⟨flag_hi 0x80, flag_hi 0x04, flag_hi 0x02, flag_hi 0x01, flag_lo 0x80, flag_lo 0x20,
    flag_lo 0x10, trivial⟩

namespace OptShape

lemma ttl_version : ((o.ttl >>> 16) &&& 0xff).toUInt8 = 0 := by
  have hhi := o.flagsHi.toNat_lt
  have hlo := o.flagsLo.toNat_lt
  apply UInt8.toNat.inj
  rw [UInt32.toNat_toUInt8, UInt32.toNat_and, UInt32.toNat_shiftRight, ttl_toNat]
  change (_ >>> 16 &&& (2 ^ 8 - 1)) % 2 ^ 8 = 0
  rw [and_two_pow_sub_one_eq_mod, shiftRight_eq_div_pow]
  omega

lemma ttl_dnssecOk : (o.ttl &&& 0x8000 != 0) = (o.flagsHi &&& 0x80 != 0) := by
  have hhi : o.flagsHi.toNat < 2 ^ 8 := o.flagsHi.toNat_lt
  have hlo : o.flagsLo.toNat < 2 ^ 8 := o.flagsLo.toNat_lt
  have httl : o.ttl.toNat = 2 ^ 16 * (2 ^ 8 * o.extended.toNat) +
      (2 ^ 8 * o.flagsHi.toNat + o.flagsLo.toNat) := by
    rw [ttl_toNat]
    omega
  have hbit : o.ttl.toNat.testBit 15 = o.flagsHi.toNat.testBit 7 := by
    rw [httl, testBit_two_pow_mul_add _ (by omega), if_pos (by decide),
      testBit_two_pow_mul_add _ hlo, if_neg (by decide)]
  rw [Bool.eq_iff_iff, bne_iff_ne, bne_iff_ne, ne_eq, ne_eq, ← UInt32.toNat_inj,
    ← UInt8.toNat_inj, UInt32.toNat_and]
  change ¬ (_ &&& 2 ^ 15) = 0 ↔ ¬ (_ &&& 2 ^ 7) = 0
  rw [and_two_pow, and_two_pow, hbit]
  simp

lemma keyEdns : KeyEdns.ofRecord o.record =
    some ⟨o.raw, o.udpPayload, 0, o.flagsHi &&& 0x80 != 0, 0, 0⟩ := by
  change (countOptions o.raw.length o.raw 0 0 >>= _) = _
  rw [o.padding.counted, ← o.ttl_dnssecOk, ← o.ttl_version]
  rfl

end OptShape

namespace QueryShape

lemma message_header : s.message.header =
    ⟨ofBe16 [s.id.1, s.id.2], false, 0, false, false, s.flags2 &&& 0x01 != 0,
      s.flags3 &&& 0x80 != 0, s.flags3 &&& 0x20 != 0, s.flags3 &&& 0x10 != 0,
      s.extended.toUInt16 <<< 4⟩ := by
  have hbits : ∀ n : Fin 256, UInt8.ofFin n &&& 0x06 = 0 →
      UInt8.ofFin n &&& 0x04 = 0 ∧ UInt8.ofFin n &&& 0x02 = 0 := by decide +kernel
  obtain ⟨haa, htc⟩ := hbits s.flags2.toFin s.plain
  have hzero : ofBe16 [0, 0] = 0 := rfl
  simp only [message, header, fromFlags_bytes, s.query, s.standard, s.no_rcode, hzero,
    UInt16.zero_or]
  rw [show s.flags2 &&& 0x04 = 0 from haa, show s.flags2 &&& 0x02 = 0 from htc]
  rfl

lemma extended_shift {x : UInt8} : x.toUInt16 <<< 4 = 0 ↔ x = 0 := by
  have hx := x.toNat_lt
  rw [← UInt16.toNat_inj, ← UInt8.toNat_inj]
  change x.toNat <<< 4 % 2 ^ 16 = 0 ↔ x.toNat = 0
  omega

lemma refused_message : refused s.message = true ↔ ¬ (s.flags3 &&& 0x80 = 0 ∧ s.extended = 0) := by
  have hone : ¬ 1 < s.message.additionals.length := by
    cases hopt : s.opt <;> simp [message]
  have hopt : ∀ record ∈ s.message.additionals, record.rtype = .OPT := by
    cases hopt : s.opt <;> simp [message, hopt, record]
  have hany : (s.message.additionals.any fun record => record.rtype != .OPT) = false := by
    simpa using hopt
  simp only [refused, s.message_header, hany, decide_eq_false hone]
  simp [message, extended_shift]
  tauto

/-- The parser's message has the key of the scan, or no key at all. -/
theorem fromRequest_message : fromRequest s.message =
    if s.flags3 &&& 0x80 = 0 ∧ s.extended = 0 then some s.scanned.key else none := by
  by_cases hok : s.flags3 &&& 0x80 = 0 ∧ s.extended = 0
  · rw [if_pos hok]
    refine fromRequest_eq_some.mpr ⟨fun h => s.refused_message.mp h hok, ?_⟩
    have hlen : s.name.canonicalKey.length = s.name.wire.length := by
      rw [Name.canonicalKey, Name.wire, wireOf_length, wireOf_length, wireLen_lower]
    have hsmall := s.small
    have hcapacity : inlineKeyCapacity = 64 := rfl
    have hmax : maxCachedRequestWire = 4096 := rfl
    rw [s.message_header]
    cases hopt : s.opt with
    | none =>
      refine ⟨⟨s.name, s.qtype, 1⟩, none, rfl, ?_, ?_, ?_⟩
      · simp [message, hopt]
      · simp only [keyLen, hlen, Option.map_none, Option.getD_none] at hsmall ⊢
        omega
      · simp only [scanned, keyBytes, hopt, Option.map_none, Option.getD_none, append_nil]
        rfl
    | some o =>
      refine ⟨⟨s.name, s.qtype, 1⟩, some ⟨o.raw, o.udpPayload, 0, o.flagsHi &&& 0x80 != 0, 0, 0⟩,
        rfl, ?_, ?_, ?_⟩
      · simp [message, hopt, o.keyEdns]
      · simp only [keyLen, Option.map_some, Option.getD_some] at hsmall ⊢
        omega
      · simp only [scanned, keyBytes, hopt, Option.map_some, KeyEdns.bytes, o.padding.copied,
          append_assoc]
        rfl
  · rw [if_neg hok, fromRequest, if_pos (s.refused_message.mpr hok)]

end QueryShape

/-- The scan says of the question and of the OPT record what the message says. -/
def ScannedQuery.Describes (q : ScannedQuery) (m : Message) : Prop :=
  ∃ question, m.questions = [question] ∧ q.qname = question.name.wire ∧ q.qtype = question.qtype ∧
    q.edns.map .ok = m.additionals.head?.map fun record => (Edns.tryFromRecord record).map
      fun edns => (⟨edns.udpPayload, edns.dnssecOk, !edns.options.isEmpty⟩ : ScannedEdns)

/-- The packet is parsed into a request with the key of the scan. -/
def SameKey (p : Bytes) (q : ScannedQuery) : Prop :=
  ∃ m k, Message.parse p = .ok m ∧ fromRequest m = some k ∧ q.key = k ∧ q.Describes m

/-- The RA bit is clear, and so is the response code in the OPT record: its byte is the tenth
after the name. -/
def SkippedClear (p : Bytes) : Prop :=
  (∀ flags, p[3]? = some flags → flags &&& 0x80 = 0) ∧
    ∀ (name : Name) (rest : Bytes), p.drop 12 = name.wire ++ rest →
      ∀ extended, rest[9]? = some extended → extended = 0

namespace QueryShape

lemma describes : s.scanned.Describes s.message := by
  refine ⟨⟨s.name, s.qtype, 1⟩, rfl, rfl, rfl, ?_⟩
  cases hopt : s.opt with
  | none => simp [scanned, message, hopt]
  | some o =>
    have hedns : Edns.tryFromRecord o.record = .ok ⟨o.udpPayload, (o.ttl >>> 24).toUInt8,
        (o.ttl >>> 16).toUInt8, o.ttl &&& 0x8000 != 0, o.options⟩ := by
      change (Edns.visitOptions o.raw.length o.raw >>= _) = _
      rw [o.padding.visited]
      rfl
    simp [scanned, message, hopt, hedns, OptShape.scanned, o.ttl_dnssecOk, Except.map]

/-- The byte of the response code, where the packet has one. -/
theorem extended_at :
    (be16 s.qtype ++ (be16 1 ++ s.optBytes))[9]? = s.opt.map OptShape.extended := by
  cases hopt : s.opt with
  | none => simp [optBytes, hopt]
  | some o => simp [optBytes, hopt, be16, encode, OptShape.bytes, OptShape.ext]

lemma skippedClear_wire : SkippedClear s.wire ↔ s.flags3 &&& 0x80 = 0 ∧ s.extended = 0 := by
  have hextended : (∀ extended, s.opt.map OptShape.extended = some extended → extended = 0) ↔
      s.extended = 0 := by
    rw [extended]
    cases s.opt <;> simp
  rw [← hextended, ← s.extended_at]
  constructor
  · rintro ⟨hra, hrest⟩
    exact ⟨hra _ rfl, hrest s.name _ rfl⟩
  rintro ⟨hra, hrest⟩
  refine ⟨fun flags hf => Option.some.inj hf ▸ hra, ?_⟩
  intro name rest heq
  obtain ⟨-, rfl⟩ := wireOf_append_inj s.name.label_len name.label_len heq
  exact hrest

lemma sameKey_wire (hlen : s.wire.length ≤ maxDnsWireLen) :
    SameKey s.wire s.scanned ↔ s.flags3 &&& 0x80 = 0 ∧ s.extended = 0 := by
  have hkey := s.fromRequest_message
  constructor
  · rintro ⟨m, k, hparse, hrequest, -, -⟩
    rw [s.parse_wire hlen] at hparse
    cases hparse
    by_contra hskipped
    rw [hkey, if_neg hskipped] at hrequest
    cases hrequest
  · intro hskipped
    rw [if_pos hskipped] at hkey
    exact ⟨s.message, s.scanned.key, s.parse_wire hlen, hkey, rfl, s.describes⟩

end QueryShape

/-- A packet that the scanner takes is parsed into a request with the same key exactly when the
fields that the scanner skips are clear, and two requests have the same key exactly when they
agree on what an answer may depend on. -/
theorem fast_lane_key_iff {p : Bytes} {q : ScannedQuery} (hlen : p.length ≤ maxDnsWireLen)
    (hscan : scanQuery p = some q) :
    (SameKey p q ↔ SkippedClear p) ∧
      ∀ (m₁ m₂ : Message) (k₁ k₂ : Bytes), fromRequest m₁ = some k₁ → fromRequest m₂ = some k₂ →
        (k₁ = k₂ ↔ requestFields m₁ = requestFields m₂) := by
  constructor
  · obtain ⟨s, rfl, rfl⟩ := scanQuery_inv hscan
    rw [s.sameKey_wire hlen, s.skippedClear_wire]
  · intro m₁ m₂ k₁ k₂ h₁ h₂
    exact key_eq_iff h₁ h₂

def letterQuery (letter flags3 : UInt8) (hflags : flags3 &&& 0x0F = 0) : QueryShape where
  id := (0, 7)
  flags2 := 1
  flags3
  name := .letter letter
  qtype := RecordType.A
  opt := none
  query := rfl
  standard := rfl
  plain := rfl
  no_rcode := hflags
  small := show 3 + 3 + 5 ≤ 64 by decide

/-- Two spellings of one query, and the packet of one of them. -/
theorem fast_lane_key_letter :
    SameKey (letterQuery 65 0 rfl).wire (letterQuery 65 0 rfl).scanned ∧
      requestFields (letterQuery 65 0 rfl).message =
        requestFields (letterQuery 97 0 rfl).message := by
  have hscan : scanQuery (letterQuery 65 0 rfl).wire = some (letterQuery 65 0 rfl).scanned := by
    decide +kernel
  obtain ⟨hsame, hkeys⟩ := fast_lane_key_iff (by decide +kernel) hscan
  have hupper := (letterQuery 65 0 rfl).fromRequest_message
  have hlower := (letterQuery 97 0 rfl).fromRequest_message
  refine ⟨hsame.mpr ?_, (hkeys _ _ _ _ hupper hlower).mp rfl⟩
  exact (letterQuery 65 0 rfl).skippedClear_wire.mpr ⟨rfl, rfl⟩

def raQuery : Bytes := [0, 7, 1, 0x80, 0, 1, 0, 0, 0, 0, 0, 0, 1, 97, 0, 0, 1, 0, 1]

/-- The fast path takes it, but the request that it is parsed into has no key. -/
theorem raQuery_not_sameKey : raQuery.length ≤ maxDnsWireLen ∧
    ∃ q, scanQuery raQuery = some q ∧ ¬ SameKey raQuery q := by
  refine ⟨by decide +kernel, (letterQuery 97 0x80 rfl).scanned, by decide +kernel, ?_⟩
  intro hsame
  have hclear := ((letterQuery 97 0x80 rfl).sameKey_wire (by decide +kernel)).mp hsame
  exact absurd hclear.1 (by decide)

end OnetDns.Cache
