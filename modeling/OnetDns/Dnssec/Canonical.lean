import OnetDns.Dns.Reencode
import OnetDns.Dnssec.Chain
import OnetDns.Lib.KeyedSort

/-!
# The canonical form of record sets

The octets that a signature covers do not depend on the order of the records, on their TTLs or on
the case of their names, and nothing else about a record set is lost in them. The digest of a zone
does not depend on the order of its records, unless records that only differ in class or TTL are
among them.
-/
namespace OnetDns.Dnssec
open Dns List Name RData UInt8

/-- The data with the case folded of the names that the canonical form folds: SVCB and HTTPS keep
that of their target. -/
def folded : RData → RData
  | .svcb s => .svcb s
  | .https s => .https s
  | x => x.lower

lemma folded_type (x : RData) : (folded x).recordType = x.recordType := by
  cases x <;> rfl

variable {x : RData}

lemma folded_plain (h : x.plain ≠ none) : (folded x).plain = some (canonicalRdata x) := by
  cases x with
  | ns | cname | ptr | mx | soa => exact absurd rfl h
  | srv priority weight port target =>
    simp [folded, RData.lower, RData.plain, canonicalRdata, canonicalName, Name.lower, Name.wire]
  | naptr n =>
    simp only [folded, RData.lower, RData.plain, canonicalRdata, append_assoc]
    rfl
  | uri priority weight target => simp [folded, RData.lower, RData.plain, canonicalRdata]
  | svcb s | https s =>
    simp only [folded, RData.plain, canonicalRdata, canonicalRdata.svcbData, append_assoc]
    rfl
  | _ => rfl

/-- The canonical form is read back as the folded data. -/
theorem canonicalRdata_restores (hfit : x.Fits) (hnat : x.Natural) (hsup : x.Supported) :
    Restores (parse x.recordType (canonicalRdata x).length) (canonicalRdata x) (folded x) := by
  by_cases hplain : x.plain = none
  · have hname : ∀ n : Name, Restores Name.parse (canonicalName n) n.lower :=
      fun n => parse_restores n.lower
    cases x with
    | ns n => exact (hname n).last rfl
    | cname n => exact (hname n).last rfl
    | ptr n => exact (hname n).last rfl
    | mx preference exchange =>
      exact (u16_restores preference).bind ((hname exchange).last rfl)
    | soa s =>
      have hsoa : Restores parseSoa (canonicalRdata (.soa s))
          { s with mname := s.mname.lower, rname := s.rname.lower } := by
        simp only [canonicalRdata, append_assoc]
        exact (hname s.mname).bind ((hname s.rname).bind ((u32_restores _).bind
          ((u32_restores _).bind ((u32_restores _).bind
            ((u32_restores _).bind ((u32_restores _).last rfl))))))
      exact hsoa.last rfl
    | _ => cases hplain
  · have hfolded := folded_plain hplain
    rw [← folded_type]
    refine parse_restores hfolded ?_ ?_ ?_ <;>
      cases x <;> assumption

/-- The parser builds the data for the type and class from at most 65535 bytes. -/
def Built (rtype : RecordType) (class' : DnsClass) (x : RData) : Prop :=
  ∃ (rdlen : UInt16) (r r' : Reader), Record.parseData .none rtype class' rdlen.toNat r = .ok (x, r')

variable {r r' : Reader}

lemma svcbData_length (s : Svcb) : (canonicalRdata.svcbData s).length =
    2 + s.target.wire.length + (s.params.flatMap paramBytes).length := by
  rw [canonicalRdata.svcbData, flatMap_congr (g := paramBytes) fun _ _ => append_assoc _ _ _,
    length_append, length_append, be16_length, Name.wire]

lemma canonicalName_length (n : Name) : (canonicalName n).length ≤ 255 := by
  rw [canonicalName, wireOf_length, wireLen_lower]
  exact n.wire_len

lemma parseRest_length {rdlen used : ℕ} {v : Bytes}
    (h : parseRest rdlen used r = .ok (v, r')) : used + v.length = rdlen := by
  unfold parseRest at h
  split at h
  · cases h
  · rw [(bytes_inv h).1]
    omega

lemma parse_length {n : ℕ} (h : parse x.recordType n r = .ok (x, r'))
    (hend : r'.pos = r.pos + n) (hn : n ≤ 65535) : (canonicalRdata x).length ≤ 65535 := by
  have hname := canonicalName_length
  cases x with
  | a ip | aaaa ip => simp [canonicalRdata, ip.length_eq]
  | ns m | cname m | dname m | ptr m => exact (hname m).trans (by decide)
  | mx preference exchange =>
    have := hname exchange
    simp only [canonicalRdata, length_append, be16_length]
    omega
  | srv priority weight port target =>
    have := hname target
    simp only [canonicalRdata, length_append, be16_length]
    omega
  | soa s =>
    have := hname s.mname
    have := hname s.rname
    simp only [canonicalRdata, length_append, be32_length]
    omega
  | naptr m =>
    obtain ⟨hflags, hservices, hregexp⟩ := (parse_inv h).fits
    have := hname m.replacement
    simp only [canonicalRdata, charString, length_append, length_cons, be16_length]
    omega
  | txt chunks =>
    obtain ⟨r₀, r₁, hget, h⟩ := bind_inv h
    cases hget
    obtain ⟨v, r₂, hchunks, h⟩ := bind_inv h
    cases h
    have hmoves := (readChunks_inv hchunks).2.2
    change (chunks.flatMap Dns.charString).length ≤ 65535
    omega
  | caa flags tag value =>
    obtain ⟨v₀, r₁, -, h⟩ := bind_inv h
    obtain ⟨tagLen, r₂, -, h⟩ := bind_inv h
    obtain ⟨v₁, r₃, htag, h⟩ := bind_inv h
    obtain ⟨v₂, r₄, hvalue, h⟩ := bind_inv h
    cases h
    have htag := (bytes_inv htag).1
    have hvalue := parseRest_length hvalue
    simp only [canonicalRdata, charString, length_append, length_cons]
    omega
  | tlsa usage selector matching data =>
    obtain ⟨v₀, r₁, -, h⟩ := bind_inv h
    obtain ⟨v₁, r₂, -, h⟩ := bind_inv h
    obtain ⟨v₂, r₃, -, h⟩ := bind_inv h
    obtain ⟨v₃, r₄, hdata, h⟩ := bind_inv h
    cases h
    have hdata := parseRest_length hdata
    simp only [canonicalRdata, length_cons]
    omega
  | sshfp algorithm fpType fingerprint =>
    obtain ⟨v₀, r₁, -, h⟩ := bind_inv h
    obtain ⟨v₁, r₂, -, h⟩ := bind_inv h
    obtain ⟨v₂, r₃, hdata, h⟩ := bind_inv h
    cases h
    have hdata := parseRest_length hdata
    simp only [canonicalRdata, length_cons]
    omega
  | uri priority weight target =>
    obtain ⟨v₀, r₁, -, h⟩ := bind_inv h
    obtain ⟨v₁, r₂, -, h⟩ := bind_inv h
    obtain ⟨v₂, r₃, hdata, h⟩ := bind_inv h
    cases h
    have hdata := parseRest_length hdata
    simp only [canonicalRdata, length_append, be16_length]
    omega
  | svcb s | https s =>
    obtain ⟨v, r₁, hs, h⟩ := bind_inv h
    cases h
    have hmoves := (parseSvcb_inv hs).2
    change (canonicalRdata.svcbData s).length ≤ 65535
    rw [svcbData_length]
    omega
  | unknown rtype bytes =>
    have hnat := (parse_inv h).natural
    change parse rtype n r = _ at h
    rw [parse_untyped hnat] at h
    split at h
    · cases h
    · obtain ⟨v, r₁, hv, h⟩ := bind_inv h
      cases h
      exact (bytes_inv hv).1.trans_le hn

/-- Built data has the variant of its type, and the length field of a record holds its length. -/
theorem Built.spec {rtype : RecordType} {class' : DnsClass}
    (h : Built rtype class' x) : x.recordType = rtype ∧ (canonicalRdata x).length ≤ 65535 ∧
      Restores (parse rtype (canonicalRdata x).length) (canonicalRdata x) (folded x) := by
  obtain ⟨rdlen, r, r', h⟩ := h
  simp only [Record.parseData, Record.UpdateSection.emptyClasses, not_mem_nil, and_false,
    if_false] at h
  split at h
  · cases h
  split at h
  · cases h
  rename_i hparse
  split at h
  · cases h
  rename_i hstop
  cases h
  have hspec := parse_inv hparse
  obtain rfl := hspec.type
  exact ⟨rfl, parse_length hparse (not_not.mp hstop) (Nat.le_of_lt_succ rdlen.toNat_lt),
    canonicalRdata_restores hspec.fits hspec.natural hspec.supported⟩

/-- The data that a canonical form is read as. -/
def readBack (rtype : RecordType) (bytes : Bytes) : Option RData :=
  (RData.parse rtype bytes.length (Reader.new bytes)).toOption.map Prod.fst

lemma Built.readBack {rtype : RecordType} {class' : DnsClass} (h : Built rtype class' x) :
    Dnssec.readBack rtype (canonicalRdata x) = some (folded x) := by
  have hholds : Holds (canonicalRdata x) 0 (canonicalRdata x) :=
    Holds.of_prefix prefix_rfl (Nat.zero_le _)
  rw [Dnssec.readBack, Reader.new, h.spec.2.2 hholds (zero_add _).le]
  rfl

lemma bytesLe_iff (a b : Bytes) : bytesLe a b = true ↔ a.map toNat ≤ b.map toNat := by
  rw [← not_lt]
  induction a generalizing b with
  | nil => simp [bytesLe]
  | cons x a ih =>
    cases b with
    | nil => exact iff_of_false (by simp [bytesLe]) (not_not.mpr (nil_lt_cons _ _))
    | cons y b =>
      rw [map_cons, map_cons, cons_lt_cons_iff, bytesLe, Bool.or_eq_true, Bool.and_eq_true,
        ih, decide_eq_true_eq, beq_iff_eq, UInt8.lt_iff_toNat_lt, ← UInt8.toNat_inj]
      grind

lemma toNat_injective : Function.Injective (List.map toNat) :=
  map_injective_iff.mpr fun _ _ => UInt8.toNat_inj.mp

/-- The records of one owner, class and type. -/
def OneSet (rrset : List Record) : Prop :=
  ∀ a ∈ rrset, ∀ b ∈ rrset,
    a.name.eqIgnoreCase b.name = true ∧ a.class' = b.class' ∧ a.rtype = b.rtype

/-- The records differ at most in TTL and in the case of names. -/
structure SameUpToCase (a b : Record) : Prop where
  name : a.name.eqIgnoreCase b.name = true
  class' : a.class' = b.class'
  rtype : a.rtype = b.rtype
  rdata : folded a.rdata = folded b.rdata

lemma canonicalRdata_folded (x : RData) : canonicalRdata (folded x) = canonicalRdata x := by
  have hname : ∀ n : Name, canonicalName n.lower = canonicalName n :=
    fun n => congrArg wireOf (lowerLabels_idem n.labels)
  cases x <;> simp [folded, RData.lower, canonicalRdata, hname]

section SignedData

variable (sig : Rrsig)

/-- What the signed octets hold of a record. -/
def signedView (item : Bytes × Record) : Bytes × Bytes × DnsClass :=
  (item.1, canonicalName (ownerForSigning item.2.name sig.labels), item.2.class')

/-- The octets of one record. -/
def signedBlock (view : Bytes × Bytes × DnsClass) : Bytes :=
  view.2.1 ++ be16 sig.typeCovered ++ be16 view.2.2 ++ be32 sig.originalTtl ++
    be16 (UInt16.ofNat view.1.length) ++ view.1

variable (rrset : List Record)

/-- The records in the order of their canonical data. -/
def sortedItems : List (Bytes × Record) :=
  (rrset.map fun r => (canonicalRdata r.rdata, r)).insertionSort fun a b => bytesLe a.1 b.1 = true

def signedHeader : Bytes :=
  be16 sig.typeCovered ++ sig.algorithm :: sig.labels ::
    (be32 sig.originalTtl ++ be32 sig.expiration ++ be32 sig.inception ++ be16 sig.keyTag ++
      canonicalName sig.signer)

lemma signedData_eq : signedData sig rrset =
    signedHeader sig ++ ((sortedItems rrset).map (signedView sig)).flatMap (signedBlock sig) := by
  rw [flatMap_map]
  rfl

/-- Record sets that look the same to a signature are sorted to look the same. -/
theorem sortedItems_view {rrset rrset' : List Record} (hset : OneSet rrset)
    (hperm : (rrset.map fun r => signedView sig (canonicalRdata r.rdata, r)).Perm
      (rrset'.map fun r => signedView sig (canonicalRdata r.rdata, r))) :
    (sortedItems rrset).map (signedView sig) = (sortedItems rrset').map (signedView sig) := by
  refine KeyedSort.map_sorted_eq (fun item : Bytes × Record => item.1.map toNat)
    (fun a b => bytesLe_iff a.1 b.1) (signedView sig) (fun view => view.1.map toNat)
    (fun _ => rfl)
    (by rwa [map_map, map_map]) fun a ha b hb hkey => ?_
  obtain ⟨r, hr, rfl⟩ := mem_map.mp ha
  obtain ⟨s, hs, rfl⟩ := mem_map.mp hb
  obtain ⟨hname, hclass, -⟩ := hset r hr s hs
  have hdata : canonicalRdata r.rdata = canonicalRdata s.rdata := toNat_injective hkey
  simp only [signedView, hdata, hclass, canonicalName_ownerForSigning hname]

/-- The order, the TTLs and the case do not matter. -/
theorem signedData_same {rrset l rrset' : List Record} (hset : OneSet rrset)
    (hperm : l.Perm rrset) (hsame : Forall₂ SameUpToCase l rrset') :
    signedData sig rrset' = signedData sig rrset := by
  have hview : (l.map fun r => signedView sig (canonicalRdata r.rdata, r)) =
      rrset'.map fun r => signedView sig (canonicalRdata r.rdata, r) := by
    clear hperm
    induction hsame with
    | nil => rfl
    | cons h _ ih =>
      have hdata := congrArg canonicalRdata h.rdata
      rw [canonicalRdata_folded, canonicalRdata_folded] at hdata
      rw [map_cons, map_cons, ih]
      simp only [signedView, hdata, h.class', canonicalName_ownerForSigning h.name]
  rw [signedData_eq, signedData_eq, sortedItems_view sig hset]
  rw [← hview]
  exact (hperm.map _).symm

/-- A block has one reading, whatever follows it. -/
theorem signedBlock_append_inj {a b : Bytes × Record} {x y : Bytes} (ha : a.1.length ≤ 65535)
    (hb : b.1.length ≤ 65535)
    (h : signedBlock sig (signedView sig a) ++ x = signedBlock sig (signedView sig b) ++ y) :
    signedView sig a = signedView sig b ∧ x = y := by
  simp only [signedBlock, signedView, append_assoc] at h
  obtain ⟨howner, h⟩ := wireOf_append_inj (lower_label_len (label_len _))
    (lower_label_len (label_len _)) h
  obtain ⟨-, h⟩ := append_inj h (by simp)
  obtain ⟨hclass, h⟩ := append_inj h (by simp)
  obtain ⟨-, h⟩ := append_inj h (by simp)
  obtain ⟨hlen, h⟩ := append_inj h (by simp)
  have hlen : a.1.length = b.1.length := by
    have hnat := congrArg (fun v => (ofBe16 v).toNat) hlen
    simpa only [ofBe16_be16, toNat_ofNat_le16 ha, toNat_ofNat_le16 hb] using hnat
  obtain ⟨hdata, hrest⟩ := append_inj h hlen
  have hclass : a.2.class' = b.2.class' := by
    simpa only [ofBe16_be16] using congrArg ofBe16 hclass
  have howner : canonicalName (ownerForSigning a.2.name sig.labels) =
      canonicalName (ownerForSigning b.2.name sig.labels) := congrArg wireOf howner
  refine ⟨?_, hrest⟩
  simp only [signedView, hdata, hclass, howner]

lemma signedBlocks_inj {xs ys : List (Bytes × Record)} (hx : ∀ a ∈ xs, a.1.length ≤ 65535)
    (hy : ∀ b ∈ ys, b.1.length ≤ 65535)
    (h : (xs.map (signedView sig)).flatMap (signedBlock sig) = (ys.map (signedView sig)).flatMap
      (signedBlock sig)) : xs.map (signedView sig) = ys.map (signedView sig) := by
  have hne : ∀ view rest, signedBlock sig view ++ rest ≠ [] := by
    intro view rest heq
    have hlen := congrArg length heq
    simp [signedBlock] at hlen
  induction xs generalizing ys with
  | nil =>
    cases ys with
    | nil => rfl
    | cons b ys => exact absurd h.symm (hne _ _)
  | cons a xs ih =>
    cases ys with
    | nil => exact absurd h (hne _ _)
    | cons b ys =>
      obtain ⟨hview, hrest⟩ := signedBlock_append_inj sig (hx a mem_cons_self)
        (hy b mem_cons_self) h
      rw [map_cons, map_cons, hview, ih (fun c hc => hx c (mem_cons_of_mem _ hc))
        (fun c hc => hy c (mem_cons_of_mem _ hc)) hrest]

/-- The records are of the covered type, with data that the parser builds. -/
def Covered : Prop := ∀ r ∈ rrset, r.rtype = sig.typeCovered ∧ Built r.rtype r.class' r.rdata

variable {sig}

/-- Class, signing owner and data can be read off the signed octets. -/
theorem signedData_inj {rrset rrset' : List Record} (hset' : OneSet rrset')
    (hbuilt : Covered sig rrset) (hbuilt' : Covered sig rrset')
    (h : signedData sig rrset = signedData sig rrset') :
    (∀ r ∈ rrset, ∀ s ∈ rrset', r.class' = s.class' ∧
      (ownerForSigning r.name sig.labels).eqIgnoreCase (ownerForSigning s.name sig.labels) = true) ∧
    (rrset.map fun r => folded r.rdata).Perm (rrset'.map fun r => folded r.rdata) := by
  have hshort : ∀ m, Covered sig m → ∀ a ∈ sortedItems m, a.1.length ≤ 65535 := by
    intro m hm a ha
    obtain ⟨r, hr, rfl⟩ := mem_map.mp ((mem_insertionSort _).mp ha)
    exact (hm r hr).2.spec.2.1
  rw [signedData_eq, signedData_eq] at h
  have hview := signedBlocks_inj sig (hshort _ hbuilt) (hshort _ hbuilt') (append_cancel_left h)
  have hsorted : ∀ m : List Record, ((sortedItems m).map (signedView sig)).Perm
      (m.map fun r => signedView sig (canonicalRdata r.rdata, r)) := by
    intro m
    have hback := (perm_insertionSort (fun a b : Bytes × Record => bytesLe a.1 b.1 = true)
      (m.map fun r => (canonicalRdata r.rdata, r))).map (signedView sig)
    rwa [map_map] at hback
  have hperm := (hsorted rrset).symm.trans (hview ▸ hsorted rrset')
  constructor
  · intro r hr s hs
    obtain ⟨s', hs', heq⟩ := mem_map.mp (hperm.mem_iff.mp (mem_map_of_mem hr))
    obtain ⟨hname, hclass, -⟩ := hset' s' hs' s hs
    obtain ⟨howner, hclass'⟩ := Prod.mk.inj (Prod.mk.inj heq).2
    refine ⟨hclass'.symm.trans hclass, ?_⟩
    rw [eqIgnoreCase_path, ← canonicalKey_inj]
    exact howner.symm.trans (canonicalName_ownerForSigning hname sig.labels)
  have hread : ∀ m, Covered sig m →
      (m.map fun r => signedView sig (canonicalRdata r.rdata, r)).filterMap
        (fun view => readBack sig.typeCovered view.1) = m.map fun r => folded r.rdata := by
    intro m hm
    rw [filterMap_map, ← filterMap_eq_map]
    refine filterMap_congr fun r hr => ?_
    obtain ⟨htype, hdata⟩ := hm r hr
    exact htype ▸ hdata.readBack
  rw [← hread _ hbuilt, ← hread _ hbuilt']
  exact hperm.filterMap _

end SignedData

def zonemdType : RecordType := 63

section Zonemd

variable (apex : Name)

def isDigested (r : Record) : Bool :=
  if r.name.eqIgnoreCase apex && r.rtype == zonemdType then false
  else if r.name.eqIgnoreCase apex && r.rtype == .RRSIG then
    !(Rrsig.fromRecord r).any fun sig => sig.typeCovered == zonemdType
  else true

/-- The order of the records in the digest: by name, type and data. -/
def digestLe (a b : Record) : Bool :=
  match canonicalNameCmp a.name b.name with
  | .lt => true
  | .gt => false
  | .eq => a.rtype < b.rtype ||
    (a.rtype == b.rtype && bytesLe (canonicalRdata a.rdata) (canonicalRdata b.rdata))

/-- What records are compared by to drop those that come again. -/
def digestKey (r : Record) : Bytes × RecordType × DnsClass × Bytes :=
  (canonicalName r.name, r.rtype, r.class', canonicalRdata r.rdata)

/-- The loop of `compute_zonemd_simple` over the sorted records, after one with the key `last`. -/
def digestLoop : (last : Option (Bytes × RecordType × DnsClass × Bytes)) → List Record → Bytes
  | _, [] => []
  | last, r :: rest =>
    if last = some (digestKey r) then digestLoop last rest
    else
      canonicalName r.name ++ be16 r.rtype ++ be16 r.class' ++ be32 r.ttl ++
        be16 (UInt16.ofNat (canonicalRdata r.rdata).length) ++ canonicalRdata r.rdata ++
        digestLoop (some (digestKey r)) rest

/-- `compute_zonemd_simple`, with the two hash functions as parameters. -/
def computeZonemdSimple (sha384 sha512 : Bytes → Bytes) (records : List Record)
    (hashAlg : UInt8) : Option Bytes :=
  let incl := (records.filter (isDigested apex)).insertionSort fun a b => digestLe a b = true
  let buf := digestLoop none incl
  if hashAlg = 1 then some (sha384 buf) else if hashAlg = 2 then some (sha512 buf) else none

/-- Records with one owner, type and data have one class and one TTL. -/
def Uniform (records : List Record) : Prop :=
  ∀ a ∈ records, ∀ b ∈ records, a.name.eqIgnoreCase b.name = true → a.rtype = b.rtype →
    canonicalRdata a.rdata = canonicalRdata b.rdata → a.class' = b.class' ∧ a.ttl = b.ttl

def digestRank (r : Record) : Path ×ₗ ℕ ×ₗ List ℕ :=
  toLex (r.name.path, toLex (r.rtype.toNat, (canonicalRdata r.rdata).map UInt8.toNat))

lemma digestLe_iff (a b : Record) : digestLe a b = true ↔ digestRank a ≤ digestRank b := by
  have hlt := canonicalNameCmp_lt a.name b.name
  have heq := canonicalNameCmp_eq a.name b.name
  rw [digestRank, digestRank, Prod.Lex.toLex_le_toLex, Prod.Lex.toLex_le_toLex, digestLe]
  split
  · rename_i h
    simp [hlt.mp h]
  · rename_i h
    have hnlt : ¬ a.name.path < b.name.path := fun hless => by rw [hlt.mpr hless] at h; cases h
    have hne : a.name.path ≠ b.name.path := fun hsame => by rw [heq.mpr hsame] at h; cases h
    simp [hnlt, hne]
  · rename_i h
    have hsame := heq.mp h
    simp [hsame, bytesLe_iff, UInt16.lt_iff_toNat_lt, UInt16.toNat_inj]

/-- What the digest holds of a record. -/
def digestView (r : Record) : Path × Bytes × RecordType × DnsClass × UInt32 × Bytes :=
  (r.name.path, canonicalName r.name, r.rtype, r.class', r.ttl, canonicalRdata r.rdata)

/-- Records that look the same give the same octets. -/
theorem digestLoop_congr {last : Option (Bytes × RecordType × DnsClass × Bytes)}
    {xs ys : List Record} (h : xs.map digestView = ys.map digestView) :
    digestLoop last xs = digestLoop last ys := by
  induction xs generalizing last ys with
  | nil =>
    obtain rfl := map_eq_nil_iff.mp h.symm
    rfl
  | cons a xs ih =>
    cases ys with
    | nil => cases h
    | cons b ys =>
      obtain ⟨hview, hrest⟩ := cons.inj h
      simp only [digestView, Prod.mk.injEq] at hview
      obtain ⟨-, hname, hrtype, hclass, httl, hdata⟩ := hview
      have hkey : digestKey a = digestKey b := by
        simp only [digestKey, hname, hrtype, hclass, hdata]
      simp only [digestLoop, hkey, hname, hrtype, hclass, httl, hdata, ih hrest]

/-- The digest does not depend on the order of the records. -/
theorem computeZonemdSimple_perm {sha384 sha512 : Bytes → Bytes} {records records' : List Record}
    (huniform : Uniform (records.filter (isDigested apex))) (hperm : records'.Perm records)
    (hashAlg : UInt8) : computeZonemdSimple apex sha384 sha512 records' hashAlg =
      computeZonemdSimple apex sha384 sha512 records hashAlg := by
  have hsorted := KeyedSort.map_sorted_eq digestRank digestLe_iff
    digestView (fun view => toLex (view.1, toLex (view.2.2.1.toNat,
      view.2.2.2.2.2.map toNat))) (fun _ => rfl)
    ((hperm.symm.filter (isDigested apex)).map digestView) fun a ha b hb hrank => by
      obtain ⟨hpath, hrank⟩ := Prod.mk.inj hrank
      obtain ⟨hrtype, hdata⟩ := Prod.mk.inj hrank
      have hdata : canonicalRdata a.rdata = canonicalRdata b.rdata := toNat_injective hdata
      have hrtype := UInt16.toNat_inj.mp hrtype
      obtain ⟨hclass, httl⟩ := huniform a ha b hb ((eqIgnoreCase_path _ _).mpr hpath) hrtype hdata
      have hname : canonicalName a.name = canonicalName b.name := canonicalKey_inj.mpr hpath
      simp only [digestView, hpath, hname, hrtype, hclass, httl, hdata]
  rw [computeZonemdSimple, computeZonemdSimple, digestLoop_congr hsorted]

end Zonemd

/-- The octets that a signature covers stand for the record set up to order, TTL and case, and for
nothing else; the digest of a zone does not depend on the order of its records, if those with one
owner, type and data have one class and TTL. -/
theorem canonical_form :
    (∀ (sig : Rrsig) (rrset l rrset' : List Record), OneSet rrset → l.Perm rrset →
      Forall₂ SameUpToCase l rrset' → signedData sig rrset' = signedData sig rrset) ∧
    (∀ (sig : Rrsig) (rrset rrset' : List Record), OneSet rrset → OneSet rrset' →
      Covered sig rrset → Covered sig rrset' → signedData sig rrset = signedData sig rrset' →
      (∀ r ∈ rrset, ∀ s ∈ rrset', r.class' = s.class' ∧
        (ownerForSigning r.name sig.labels).eqIgnoreCase
          (ownerForSigning s.name sig.labels) = true) ∧
      (rrset.map fun r => folded r.rdata).Perm (rrset'.map fun r => folded r.rdata)) ∧
    ∀ (apex : Name) (sha384 sha512 : Bytes → Bytes) (records records' : List Record)
      (hashAlg : UInt8), Uniform (records.filter (isDigested apex)) → records'.Perm records →
      computeZonemdSimple apex sha384 sha512 records' hashAlg =
        computeZonemdSimple apex sha384 sha512 records hashAlg :=
  ⟨fun sig _ _ _ hset hperm hsame => signedData_same sig hset hperm hsame,
    fun _ _ _ _ hset' hbuilt hbuilt' h => signedData_inj hset' hbuilt hbuilt' h,
    fun apex _ _ _ _ hashAlg huniform hperm =>
      computeZonemdSimple_perm apex huniform hperm hashAlg⟩

def address (label last : UInt8) (class' : UInt16) (ttl : UInt32) : Record :=
  ⟨.letter label, .A, class', ttl, .a ⟨[192, 0, 2, last], rfl⟩⟩

def addressSignature : Rrsig := ⟨.A, 8, 1, 3600, 2, 1, 0, .root, []⟩

lemma address_covered (label i j ttl) :
    Covered addressSignature [address label i 1 ttl, address label j 1 ttl] := by
  refine forall_mem_cons.mpr ⟨?_, forall_mem_singleton.mpr ?_⟩
  · exact ⟨rfl, 4, ⟨[192, 0, 2, i], 0, 4⟩, _, rfl⟩
  · exact ⟨rfl, 4, ⟨[192, 0, 2, j], 0, 4⟩, _, rfl⟩

/-- Two records, and the same in the other order with another case and TTL. -/
theorem canonical_form_address :
    signedData addressSignature [address 65 2 1 60, address 65 1 1 60] =
      signedData addressSignature [address 97 1 1 30, address 97 2 1 30] ∧
    ([address 97 1 1 30, address 97 2 1 30].map fun r => folded r.rdata).Perm
      ([address 65 2 1 60, address 65 1 1 60].map fun r => folded r.rdata) ∧
    computeZonemdSimple .root id id [address 97 2 1 30, address 97 1 1 30] 1 =
      computeZonemdSimple .root id id [address 97 1 1 30, address 97 2 1 30] 1 := by
  obtain ⟨hsame, hinj, hdigest⟩ := canonical_form
  have hlower : OneSet [address 97 1 1 30, address 97 2 1 30] := by unfold OneSet; decide +kernel
  have hupper : OneSet [address 65 2 1 60, address 65 1 1 60] := by unfold OneSet; decide +kernel
  have hdata := hsame addressSignature _ _ [address 65 2 1 60, address 65 1 1 60] hlower
    (.swap _ _ _) (.cons ⟨by decide, rfl, rfl, rfl⟩ (.cons ⟨by decide, rfl, rfl, rfl⟩ .nil))
  refine ⟨hdata, (hinj _ _ _ hlower hupper (address_covered 97 1 2 30) (address_covered 65 2 1 60)
    hdata.symm).2, hdigest _ _ _ _ _ _ ?_ (.swap _ _ _)⟩
  unfold Uniform
  decide +kernel

/-- Of two records that differ in TTL or class only, the first one is digested first. -/
theorem computeZonemdSimple_order :
    computeZonemdSimple .root id id [address 97 1 1 60, address 97 1 1 30] 1 ≠
      computeZonemdSimple .root id id [address 97 1 1 30, address 97 1 1 60] 1 ∧
    computeZonemdSimple .root id id [address 97 1 3 30, address 97 1 1 30] 1 ≠
      computeZonemdSimple .root id id [address 97 1 1 30, address 97 1 3 30] 1 := by
  decide +kernel

end OnetDns.Dnssec
