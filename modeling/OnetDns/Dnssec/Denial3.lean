import OnetDns.Dnssec.Denial
import OnetDns.Dnssec.Nsec3

/-!
# What a denial with NSEC3 shows

The chain of a zone links the hashes of all names that are there, empty non-terminals
included. Only delegations without DS may be left out, and only where the record that
spans their hash has the opt-out flag. A check therefore shows that a name is not there
or is such a delegation.
-/
namespace OnetDns.Dnssec
open Dns LabelTree List Option ValidatedNsec3Set Name Zone
open ValidatedNsec3Set.ValidatedNsec3Record

def hashKey (hash : Bytes) : List ℕ := hash.map UInt8.toNat

lemma hashKey_lt (a b : Bytes) : hashKey a < hashKey b ↔ a < b := by
  induction a generalizing b with
  | nil =>
    cases b with
    | nil => exact iff_of_false (not_lt_nil _) (not_lt_nil _)
    | cons y b => exact iff_of_true (nil_lt_cons _ _) (nil_lt_cons _ _)
  | cons x a ih =>
    cases b with
    | nil => exact iff_of_false (not_lt_nil _) (not_lt_nil _)
    | cons y b =>
      have hcons : ∀ z l, hashKey (z :: l) = z.toNat :: hashKey l := fun _ _ => rfl
      rw [hcons, hcons, cons_lt_cons_iff, cons_lt_cons_iff, ih,
        UInt8.lt_iff_toNat_lt, UInt8.toNat_inj]

lemma hashCovers_iff (owner next q : Bytes) :
    hashCovers owner next q = true ↔ Arc (hashKey owner) (hashKey next) (hashKey q) := by
  unfold hashCovers Arc
  simp only [hashKey_lt]
  split <;> simp only [Bool.and_eq_true, Bool.or_eq_true, decide_eq_true_eq]

/-- The wire form in lower case of the name with this path. -/
def pathWire (x : Path) : Bytes := wireOf (x.reverse.map (·.map UInt8.ofNat))

lemma pathWire_path (n : Name) : pathWire n.path = n.canonicalKey := by
  have hlabel : ∀ label : Bytes,
      (Name.labelKey label).map .ofNat = label.map asciiLower := by
    intro label
    rw [Name.labelKey, List.map_map]
    exact map_congr_left fun b _ => UInt8.ofNat_toNat
  rw [pathWire, Name.path, reverse_reverse, List.map_map]
  congr 1
  exact map_congr_left fun label _ => hlabel label

/-- How the hashes of a zone are made. -/
structure HashParams where
  sha1 : Bytes → Bytes
  salt : Bytes
  iterations : UInt16

/-- The hash of a name by its path. -/
def HashParams.hash (P : HashParams) (x : Path) : Bytes :=
  (fun hash => P.sha1 (hash ++ P.salt))^[P.iterations.toNat] (P.sha1 (pathWire x ++ P.salt))

/-- The place of a name on the circle. -/
def HashParams.point (P : HashParams) (x : Path) : List ℕ := hashKey (P.hash x)

lemma HashParams.hash_path (P : HashParams) (n : Name) :
    P.hash n.path = nsec3Hash P.sha1 n P.salt P.iterations := by
  rw [hash, pathWire_path]
  rfl

namespace Zone

variable {Z : Zone} {listed : Set Path} {P : HashParams} {x : Path}

/-- A name that the zone knows: an owner, or an empty non-terminal. -/
def Exists (Z : Zone) (x : Path) : Prop := Z.apex <+: x ∧ Present Z.owners x

/-- A delegation to a zone that is not signed. -/
def Insecure (Z : Zone) (x : Path) : Prop := Z.IsCut x ∧ ¬Z.holds x .DS

/-- The names with a record of their own: all, up to insecure delegations. -/
structure Listing (Z : Zone) (listed : Set Path) : Prop where
  exist : ∀ x ∈ listed, Z.Exists x
  leftOut : ∀ x, Z.Exists x → x ∉ listed → Z.Insecure x

/-- The record of a name in the complete NSEC3 chain of the zone. -/
structure Nsec3Of (Z : Zone) (P : HashParams) (listed : Set Path) (r : Record) (p : Nsec3Ref)
    (o : Path) : Prop where
  rtype : r.rtype = .NSEC3
  parsed : Nsec3Ref.fromRecord r = some p
  params : p.salt = P.salt ∧ p.iterations = P.iterations
  mem : o ∈ listed
  owner : nsec3OwnerHashFixed r = some (P.hash o)
  next : IsNext (P.point '' listed) (P.point o) (hashKey p.nextHashed)
  types : ∃ types, parseTypeBitmaps p.typeBitmap = some types ∧ ∀ t, t ∈ types ↔ Z.types o t
  /-- Names are left out only where the record says so. -/
  span : ∀ x, Z.Exists x → x ∉ listed → Arc (P.point o) (hashKey p.nextHashed) (P.point x) →
    p.optOut = true

/-- The records are of the chain. -/
structure Nsec3Set (Z : Zone) (P : HashParams) (listed : Set Path) (records : List Record) :
    Prop where
  listing : Z.Listing listed
  chain : ∀ r ∈ records, ∃ p o, Z.Nsec3Of P listed r p o

/-- A name that is hashed for `q`: one on the way to it, or the wildcard of one. -/
def Asked (q y : Path) : Prop := y <+: q ∨ ∃ e, e <+: q ∧ y = e ++ [star]

/-- No name of the zone has the hash of another name that is asked about. -/
def Distinct (Z : Zone) (P : HashParams) (q : Path) : Prop :=
  ∀ x, Z.Exists x → ∀ y, Asked q y → P.point y = P.point x → y = x

end Zone

variable {r : Record}

namespace ValidatedNsec3Set

variable {qname : Name} {records : List Record} {set : ValidatedNsec3Set}
  {vr : ValidatedNsec3Record}

/-- A record is passed over, or it is read and agrees with those before it. -/
theorem prepare_cons {record : Record} {expected : Option Expected}
    {prepared : List ValidatedNsec3Record}
    (h : prepare qname (record :: records) expected = some prepared) :
    (record.rtype ≠ .NSEC3 ∧ prepare qname records expected = some prepared) ∨
      ∃ parsed owner expected' more, Nsec3Ref.fromRecord record = some parsed ∧
        nsec3OwnerHashFixed record = some owner ∧
        agree qname record parsed expected = some expected' ∧
        prepare qname records (some expected') = some more ∧
        ⟨record, parsed, owner⟩ :: more = prepared := by
  rw [prepare] at h
  split at h
  · rename_i hother
    exact .inl ⟨hother, h⟩
  simp only [bind_eq_bind, bind_eq_some_iff] at h
  obtain ⟨parsed, hparsed, owner, howner, h⟩ := h
  split at h
  · simp only [bind_eq_some_iff] at h
    obtain ⟨expected', hagree, more, hmore, h⟩ := h
    exact .inr ⟨parsed, owner, expected', more, hparsed, howner, hagree, hmore, some.inj h⟩
  · cases h

lemma mem_prepare {expected : Option Expected} {prepared : List ValidatedNsec3Record}
    (h : prepare qname records expected = some prepared) (hvr : vr ∈ prepared) :
    vr.source ∈ records ∧ Nsec3Ref.fromRecord vr.source = some vr.parsed ∧
      nsec3OwnerHashFixed vr.source = some vr.owner := by
  induction records generalizing expected prepared with
  | nil =>
    obtain rfl := some.inj h
    exact absurd hvr not_mem_nil
  | cons record rest ih =>
    rcases prepare_cons h with ⟨-, h⟩ | ⟨parsed, owner, expected', more, hparsed, howner, -, hmore, rfl⟩
    · obtain ⟨hmem, hrest⟩ := ih h hvr
      exact ⟨mem_cons_of_mem _ hmem, hrest⟩
    rcases mem_cons.mp hvr with rfl | hvr
    · exact ⟨mem_cons_self, hparsed, howner⟩
    · obtain ⟨hmem, hrest⟩ := ih hmore hvr
      exact ⟨mem_cons_of_mem _ hmem, hrest⟩

/-- No record of the kind is left out. -/
theorem exists_mem_prepare {expected : Option Expected} {prepared : List ValidatedNsec3Record}
    (h : prepare qname records expected = some prepared) (hr : r ∈ records)
    (hrtype : r.rtype = .NSEC3) : ∃ vr ∈ prepared, vr.source = r := by
  induction records generalizing expected prepared with
  | nil => exact absurd hr not_mem_nil
  | cons record rest ih =>
    rcases prepare_cons h with ⟨hother, h⟩ | ⟨parsed, owner, expected', more, -, -, -, hmore, rfl⟩
    · rcases mem_cons.mp hr with rfl | hr
      · exact absurd hrtype hother
      · exact ih h hr
    rcases mem_cons.mp hr with rfl | hr
    · exact ⟨_, mem_cons_self, rfl⟩
    · obtain ⟨vr, hvr, hsource⟩ := ih hmore hr
      exact ⟨vr, mem_cons_of_mem _ hvr, hsource⟩

lemma mem_new (h : new records qname = some set) (hvr : vr ∈ set.records) :
    vr.source ∈ records ∧ Nsec3Ref.fromRecord vr.source = some vr.parsed ∧
      nsec3OwnerHashFixed vr.source = some vr.owner := by
  unfold new at h
  split at h
  · rename_i first rest hprepare
    obtain rfl := some.inj h
    exact mem_prepare hprepare hvr
  · exact absurd h (by simp)

lemma exists_mem_new (h : new records qname = some set) (hr : r ∈ records)
    (hrtype : r.rtype = .NSEC3) : ∃ vr ∈ set.records, vr.source = r := by
  unfold new at h
  split at h
  · rename_i first rest hprepare
    obtain rfl := some.inj h
    exact exists_mem_prepare hprepare hr hrtype
  · exact absurd h (by simp)

lemma first_mem (set : ValidatedNsec3Set) : set.first ∈ set.records := mem_cons_self

variable {sha1 : Bytes → Bytes} {name : Name} {used : ℕ}

lemma hashed_some {α : Type} {search : Bytes → Option α} {found : α}
    (h : (set.hashed sha1 name search used).1 = some found) :
    search (set.nameHash sha1 name) = some found := by
  unfold hashed at h
  dsimp only at h
  split at h
  · exact absurd h (by simp)
  · exact h

lemma sourceOf_find {p : ValidatedNsec3Record → Bool}
    (h : sourceOf (set.records.find? p) = some r) :
    ∃ vr ∈ set.records, vr.source = r ∧ p vr = true := by
  unfold sourceOf at h
  rw [map_eq_some_iff] at h
  obtain ⟨vr, hfind, rfl⟩ := h
  exact ⟨vr, mem_of_find?_eq_some hfind, rfl, find?_some hfind⟩

lemma matchingRecord_some (h : (set.matchingRecord sha1 name used).1 = some r) :
    ∃ vr ∈ set.records, vr.source = r ∧ vr.owner = set.nameHash sha1 name := by
  obtain ⟨vr, hvr, hsource, howner⟩ := sourceOf_find (hashed_some h)
  exact ⟨vr, hvr, hsource, beq_iff_eq.mp howner⟩

lemma recordLackingType_some {qtype : RecordType}
    (h : (set.recordLackingType sha1 name qtype used).1 = some r) :
    ∃ vr ∈ set.records, vr.owner = set.nameHash sha1 name ∧
      vr.parsed.hasType qtype = false ∧ vr.parsed.hasType .CNAME = false := by
  obtain ⟨vr, hvr, -, howner⟩ := sourceOf_find (hashed_some h)
  simp only [Bool.and_eq_true, beq_iff_eq, Bool.not_eq_true'] at howner
  exact ⟨vr, hvr, howner.1.1, howner.1.2, howner.2⟩

lemma coveringRecord_some (h : (set.coveringRecord sha1 name used).1 = some r) :
    ∃ vr ∈ set.records, vr.source = r ∧ covers vr (set.nameHash sha1 name) = true :=
  sourceOf_find (hashed_some h)

lemma coveringRecordWithOptOutStatus_some {optOut : Bool}
    (h : (set.coveringRecordWithOptOutStatus sha1 name used).1 = some (r, optOut)) :
    (∃ vr ∈ set.records, vr.source = r ∧ covers vr (set.nameHash sha1 name) = true) ∧
      (optOut = true ↔ ∀ vr ∈ set.records, covers vr (set.nameHash sha1 name) = true →
          vr.parsed.optOut = true) := by
  have hfound := hashed_some h
  simp only [map_eq_some_iff] at hfound
  obtain ⟨vr, hhead, rfl, rfl⟩ := hfound
  have hmem := mem_filter.mp (mem_of_head? hhead)
  refine ⟨⟨vr, hmem.1, rfl, hmem.2⟩, ?_⟩
  rw [List.all_eq_true]
  constructor
  · exact fun hall vr hvr hcovers => hall vr (mem_filter.mpr ⟨hvr, hcovers⟩)
  · intro hall vr hvr
    obtain ⟨hvr, hcovers⟩ := mem_filter.mp hvr
    exact hall vr hvr hcovers

lemma unlessMatched_some {hash : Bytes} {list : List ValidatedNsec3Record}
    {covering : Option Record} (h : unlessMatched hash list covering = some r) :
    covering = some r ∨ ∃ vr ∈ list, vr.source = r ∧ covers vr hash = true := by
  induction list generalizing covering with
  | nil => exact .inl h
  | cons record rest ih =>
    rw [unlessMatched] at h
    split at h
    · exact absurd h (by simp)
    split at h
    · rename_i hcovers
      rcases ih h with hsource | ⟨vr, hvr, hrest⟩
      · rw [Bool.and_eq_true] at hcovers
        exact .inr ⟨record, mem_cons_self, some.inj hsource, hcovers.2⟩
      · exact .inr ⟨vr, mem_cons_of_mem _ hvr, hrest⟩
    · rcases ih h with hcovering | ⟨vr, hvr, hrest⟩
      · exact .inl hcovering
      · exact .inr ⟨vr, mem_cons_of_mem _ hvr, hrest⟩

lemma coveringRecordUnlessMatched_some
    (h : (set.coveringRecordUnlessMatched sha1 name used).1 = some r) :
    ∃ vr ∈ set.records, vr.source = r ∧ covers vr (set.nameHash sha1 name) = true := by
  rcases unlessMatched_some (hashed_some h) with hnone | hfound
  · exact absurd hnone (by simp)
  · exact hfound

/-- The encloser is a name above `qname` whose hash is matched. -/
theorem closestEncloserFrom_some {labels : ℕ} {ce : Name}
    (h : (set.closestEncloserFrom sha1 qname labels used).1 = some (ce, r)) :
    ∃ k < labels, ce = qname.suffix k ∧
      ∃ vr ∈ set.records, vr.source = r ∧ vr.owner = set.nameHash sha1 ce := by
  induction labels generalizing used with
  | zero => exact absurd h (by simp [closestEncloserFrom])
  | succ labels ih =>
    rw [closestEncloserFrom] at h
    split at h
    · rename_i record used' hmatch
      obtain ⟨rfl, rfl⟩ := h
      exact ⟨labels, labels.lt_succ_self, rfl, matchingRecord_some (by rw [hmatch])⟩
    · obtain ⟨k, hk, hrest⟩ := ih h
      exact ⟨k, hk.trans labels.lt_succ_self, hrest⟩

end ValidatedNsec3Set

variable {p : Nsec3Ref}

section Facts

variable {Z : Zone} {P : HashParams} {listed : Set Path} {records : List Record} {qname name : Name}
  {set : ValidatedNsec3Set} {vr : ValidatedNsec3Record} {t : RecordType}

section

variable (hset : Z.Nsec3Set P listed records)
include hset

section

variable (hnew : ValidatedNsec3Set.new records qname = some set)
include hnew

lemma nsec3Of_mem (hvr : vr ∈ set.records) :
    ∃ o, Z.Nsec3Of P listed vr.source vr.parsed o ∧ vr.owner = P.hash o := by
  obtain ⟨hmem, hparsed, howner⟩ := mem_new hnew hvr
  obtain ⟨p, o, hof⟩ := hset.chain _ hmem
  obtain rfl := some.inj (hof.parsed.symm.trans hparsed)
  exact ⟨o, hof, some.inj (howner.symm.trans hof.owner)⟩

lemma nameHash_eq (name : Name) : set.nameHash P.sha1 name = P.hash name.path := by
  obtain ⟨o, hof, -⟩ := nsec3Of_mem hset hnew set.first_mem
  rw [ValidatedNsec3Set.nameHash, hof.params.1, hof.params.2, HashParams.hash_path]

lemma nsec3Of_matched (hdist : Z.Distinct P qname.path) (hvr : vr ∈ set.records)
    (hmatch : vr.owner = set.nameHash P.sha1 name) (hasked : Zone.Asked qname.path name.path) :
    Z.Nsec3Of P listed vr.source vr.parsed name.path := by
  obtain ⟨o, hof, howner⟩ := nsec3Of_mem hset hnew hvr
  have hpoint : P.point name.path = P.point o := by
    rw [HashParams.point, HashParams.point, ← howner, hmatch, nameHash_eq hset hnew]
  rw [hdist o (hset.listing.exist o hof.mem) name.path hasked hpoint]
  exact hof

/-- A name whose hash is spanned has no record. If it is there nevertheless, it is an
insecure delegation, and the record has opt-out. -/
theorem leftOut_of_covers (hvr : vr ∈ set.records)
    (hcovers : covers vr (set.nameHash P.sha1 name) = true) :
    name.path ∉ listed ∧ (Z.Exists name.path → Z.Insecure name.path ∧ vr.parsed.optOut = true) := by
  obtain ⟨o, hof, howner⟩ := nsec3Of_mem hset hnew hvr
  have harc : Arc (P.point o) (hashKey vr.parsed.nextHashed) (P.point name.path) := by
    rw [covers, hashCovers_iff, howner, nameHash_eq hset hnew] at hcovers
    exact hcovers
  have hout : name.path ∉ listed :=
    fun hmem => hof.next.not_mem harc (Set.mem_image_of_mem P.point hmem)
  refine ⟨hout, ?_⟩
  intro hexists
  exact ⟨hset.listing.leftOut _ hexists hout, hof.span _ hexists hout harc⟩

lemma not_exists_of_status {used : ℕ}
    (h : (set.coveringRecordWithOptOutStatus P.sha1 name used).1 = some (r, false)) :
    ¬Z.Exists name.path := by
  intro hexists
  obtain ⟨-, hopt⟩ := coveringRecordWithOptOutStatus_some h
  refine absurd (hopt.mpr ?_) (by decide)
  intro vr hvr hcovers
  exact ((leftOut_of_covers hset hnew hvr hcovers).2 hexists).2

end

end

lemma types_of_hasType_false {o : Path}
    (hof : Z.Nsec3Of P listed r p o) (ht : p.hasType t = false) : ¬Z.types o t := by
  obtain ⟨types, hparse, hiff⟩ := hof.types
  intro htypes
  have hhas := typeBitmapHas_of_mem hparse ((hiff t).mpr htypes)
  exact absurd (ht.symm.trans hhas) (by decide)

lemma types_of_hasType {o : Path} (hof : Z.Nsec3Of P listed r p o)
    (hfirst : t.toNat % 256 / 8 = 0) (ht : p.hasType t = true) : Z.types o t := by
  obtain ⟨types, hparse, hiff⟩ := hof.types
  exact (hiff t).mp (mem_of_typeBitmapHas hparse (.inl hfirst) ht)

end Facts

section Soundness

variable {Z : Zone} {P : HashParams} {listed : Set Path} {records : List Record} {qname : Name}
  {set : ValidatedNsec3Set} {t : RecordType}

lemma encloser_facts (hset : Z.Nsec3Set P listed records)
    (hnew : ValidatedNsec3Set.new records qname = some set) (hdist : Z.Distinct P qname.path)
    {ce : Name} {used : ℕ} (hce : (set.closestEncloserRecord P.sha1 qname used).1 = some (ce, r)) :
    ∃ k, k < qname.path.length ∧ ce = qname.suffix k ∧ ce.numLabels = k ∧
      qname.path.take k ∈ listed := by
  obtain ⟨k, hk, rfl, vr, hvr, -, howner⟩ := closestEncloserFrom_some hce
  rw [← path_length] at hk
  have hof := nsec3Of_matched hset hnew hdist hvr howner
    (.inl (by rw [suffix_path]; exact take_prefix _ _))
  refine ⟨k, hk, rfl, numLabels_suffix hk, ?_⟩
  rw [← suffix_path]
  exact hof.mem

/-- If the next closer name is not there, the guessed encloser is the closest one. -/
theorem encloses_of_next (hset : Z.Nsec3Set P listed records) {k : ℕ}
    (hmem : qname.path.take k ∈ listed) (hnext : ¬Z.Exists (qname.path.take (k + 1))) :
    ¬Present Z.owners qname.path ∧ Encloses Z.owners (qname.path.take k) qname.path := by
  have hexists := hset.listing.exist _ hmem
  have hapex : Z.apex <+: qname.path.take (k + 1) :=
    hexists.1.trans (take_prefix_take_left (Nat.le_succ k))
  have hchild : ¬Present Z.owners (qname.path.take (k + 1)) := fun h => hnext ⟨hapex, h⟩
  exact ⟨fun hq => hchild (hq.above ( take_prefix _ _)), encloses_take hexists.2 hchild⟩

lemma nameSelection_inv {sha1 : Bytes → Bytes} {used : ℕ} {chosen : List Record} {relies : Bool}
    (h : nsec3NameNonexistentSelection sha1 set qname used = some (chosen, relies)) :
    ∃ ce ceRecord nextRecord wildcard wildcardRecord used₁ used₂,
      (set.closestEncloserRecord sha1 qname used).1 = some (ce, ceRecord) ∧
      (set.coveringRecordWithOptOutStatus sha1 (qname.suffix (ce.numLabels + 1)) used₁).1 =
        some (nextRecord, relies) ∧ wildcardName ce = some wildcard ∧
      (set.coveringRecordUnlessMatched sha1 wildcard used₂).1 = some wildcardRecord := by
  unfold nsec3NameNonexistentSelection at h
  split at h
  · exact absurd h (by simp)
  rename_i ce ceRecord used₁ hce
  split at h
  · exact absurd h (by simp)
  rename_i nextRecord optOut used₂ hnext
  split at h
  · exact absurd h (by simp)
  rename_i wildcard hwild
  split at h
  · exact absurd h (by simp)
  · rename_i wildcardRecord used₃ hcover
    obtain ⟨-, rfl⟩ := h
    exact ⟨ce, ceRecord, nextRecord, wildcard, wildcardRecord, used₁, used₂,
      by rw [hce], by rw [hnext], hwild, by rw [hcover]⟩

/-- `prove_name_nonexistent_nsec3` without opt-out: the name is not there, and neither is a
wildcard, unless it is an insecure delegation without a record. -/
theorem name_nonexistent_sound (hset : Z.Nsec3Set P listed records)
    (hdist : Z.Distinct P qname.path) {proof : List Record}
    (hprove : nsec3NameNonexistentProofStatus P.sha1 records qname = some (proof, false)) :
    ¬Present Z.owners qname.path ∧
      ∀ e, Encloses Z.owners e qname.path → Present Z.owners (e ++ [star]) →
        Z.Insecure (e ++ [star]) ∧ e ++ [star] ∉ listed := by
  unfold nsec3NameNonexistentProofStatus at hprove
  split at hprove
  · exact absurd hprove (by simp)
  rename_i set hnew
  simp only [map_eq_some_iff] at hprove
  obtain ⟨⟨chosen, relies⟩, hselect, -, rfl⟩ := hprove
  obtain ⟨ce, ceRecord, nextRecord, wildcard, wildcardRecord, used₁, used₂, hce, hnext, hwild,
    hcover⟩ := nameSelection_inv hselect
  obtain ⟨k, hk, rfl, hlabels, hmem⟩ := encloser_facts hset hnew hdist hce
  rw [hlabels] at hnext
  have hgone := not_exists_of_status hset hnew hnext
  rw [suffix_path] at hgone
  obtain ⟨hnone, hencl⟩ := encloses_of_next hset hmem hgone
  refine ⟨hnone, ?_⟩
  intro e he hpresent
  rw [he.unique hencl] at hpresent ⊢
  obtain ⟨w, hw, hpath⟩ := wildcardName_suffix qname hk
  obtain rfl := some.inj (hw.symm.trans hwild)
  obtain ⟨vr', hvr', -, hcovers'⟩ := coveringRecordUnlessMatched_some hcover
  obtain ⟨hout, hleft⟩ := leftOut_of_covers hset hnew hvr' hcovers'
  rw [hpath] at hout hleft
  have hapex := (hset.listing.exist _ hmem).1.trans (prefix_append _ [star])
  exact ⟨(hleft ⟨hapex, hpresent⟩).1, hout⟩

lemma nodataSelection_inv {sha1 : Bytes → Bytes} {used : ℕ} {chosen : List Record}
    (h : nsec3NodataSelection sha1 set qname t used = some chosen) :
    (∃ r, (set.recordLackingType sha1 qname t used).1 = some r) ∨
      ∃ ce ceRecord nextRecord wildcard wildcardRecord used₁ used₂ used₃,
        (set.closestEncloserRecord sha1 qname used₁).1 = some (ce, ceRecord) ∧
        (set.coveringRecord sha1 (qname.suffix (ce.numLabels + 1)) used₂).1 = some nextRecord ∧
        wildcardName ce = some wildcard ∧
        (set.recordLackingType sha1 wildcard t used₃).1 = some wildcardRecord := by
  unfold nsec3NodataSelection at h
  split at h
  · rename_i r used₁ hexact
    exact .inl ⟨r, by rw [hexact]⟩
  rename_i used₁ hexact
  split at h
  · exact absurd h (by simp)
  rename_i ce ceRecord used₂ hce
  split at h
  · exact absurd h (by simp)
  rename_i nextRecord used₃ hnext
  split at h
  · exact absurd h (by simp)
  rename_i wildcard hwild
  split at h
  · exact absurd h (by simp)
  · rename_i wildcardRecord used₄ hlacks
    exact .inr ⟨ce, ceRecord, nextRecord, wildcard, wildcardRecord, used₁, used₂, used₃,
      by rw [hce], by rw [hnext], hwild, by rw [hlacks]⟩

/-- `prove_nodata_nsec3`: neither the type nor CNAME is served, unless the name is an
insecure delegation without a record. -/
theorem nodata_sound (hset : Z.Nsec3Set P listed records) (hscope : Z.InScope qname.path)
    (hdist : Z.Distinct P qname.path) (hprove : proveNodataNsec3 P.sha1 records qname t = true) :
    ¬Z.Serves qname.path t ∧ ¬Z.Serves qname.path .CNAME ∨
      Z.Insecure qname.path ∧ qname.path ∉ listed := by
  unfold proveNodataNsec3 at hprove
  split at hprove
  · exact absurd hprove (by decide)
  rename_i set hnew
  obtain ⟨chosen, hselect⟩ := isSome_iff_exists.mp hprove
  rcases nodataSelection_inv hselect with ⟨r, hexact⟩ |
    ⟨ce, ceRecord, nextRecord, wildcard, wildcardRecord, used₁, used₂, used₃, hce, hnext, hwild,
      hlacks⟩
  · obtain ⟨vr, hvr, howner, ht, hcname⟩ := recordLackingType_some hexact
    have hof := nsec3Of_matched hset hnew hdist hvr howner (.inl (prefix_refl _))
    have hpresent := (hset.listing.exist _ hof.mem).2
    exact .inl ⟨not_serves_of_present hpresent (types_of_hasType_false hof ht),
      not_serves_of_present hpresent (types_of_hasType_false hof hcname)⟩
  obtain ⟨k, hk, rfl, hlabels, hmem⟩ := encloser_facts hset hnew hdist hce
  rw [hlabels] at hnext
  obtain ⟨vr, hvr, -, hcovers⟩ := coveringRecord_some hnext
  obtain ⟨hout, hleft⟩ := leftOut_of_covers hset hnew hvr hcovers
  rw [suffix_path] at hout hleft
  by_cases hexists : Z.Exists (qname.path.take (k + 1))
  · -- The next closer name is a delegation; nothing below it is in scope.
    obtain ⟨hinsecure, -⟩ := hleft hexists
    have heq : qname.path.take (k + 1) = qname.path := by
      by_contra hne
      exact hscope.2 ⟨_, hinsecure.1, take_prefix _ _, hne⟩
    rw [heq] at hout hinsecure
    exact .inr ⟨hinsecure, hout⟩
  obtain ⟨hnone, hencl⟩ := encloses_of_next hset hmem hexists
  obtain ⟨w, hw, hpath⟩ := wildcardName_suffix qname hk
  obtain rfl := some.inj (hw.symm.trans hwild)
  obtain ⟨vr', hvr', howner, ht, hcname⟩ := recordLackingType_some hlacks
  have hof := nsec3Of_matched hset hnew hdist hvr' howner (.inr ⟨_, take_prefix k _, hpath⟩)
  rw [hpath] at hof
  exact .inl ⟨not_serves_of_encloses hnone hencl (types_of_hasType_false hof ht),
    not_serves_of_encloses hnone hencl (types_of_hasType_false hof hcname)⟩

/-- The record spans the hash of a name. -/
def Spans (P : HashParams) (r : Record) (y : Path) : Prop :=
  ∃ p hash, Nsec3Ref.fromRecord r = some p ∧ nsec3OwnerHashFixed r = some hash ∧
    Arc (hashKey hash) (hashKey p.nextHashed) (P.point y)

lemma covers_iff_spans (hset : Z.Nsec3Set P listed records)
    (hnew : ValidatedNsec3Set.new records qname = some set) {vr : ValidatedNsec3Record}
    (hvr : vr ∈ set.records) {name : Name} :
    covers vr (set.nameHash P.sha1 name) = true ↔ Spans P vr.source name.path := by
  obtain ⟨-, hparsed, howner⟩ := mem_new hnew hvr
  rw [covers, hashCovers_iff, nameHash_eq hset hnew]
  constructor
  · exact fun harc => ⟨vr.parsed, vr.owner, hparsed, howner, harc⟩
  · rintro ⟨p, hash, hp, hhash, harc⟩
    obtain rfl := some.inj (hp.symm.trans hparsed)
    obtain rfl := some.inj (hhash.symm.trans howner)
    exact harc

/-- A name on the way to the child is spanned, and only by records with opt-out. -/
def OnlyOptOut (P : HashParams) (records : List Record) (child : Path) : Prop :=
  ∃ y, y <+: child ∧ (∃ r ∈ records, Spans P r y) ∧
    ∀ r ∈ records, Spans P r y → ∃ p, Nsec3Ref.fromRecord r = some p ∧ p.optOut = true

/-- What a classification says of the child is true. -/
def DsAbsence.Says (Z : Zone) (P : HashParams) (nsec3 : List Record) (child : Path) :
    DsAbsence → Prop
  | .insecureDelegation => Z.Insecure child ∨ OnlyOptOut P nsec3 child
  | .notACut => ¬Z.IsCut child
  | .unproven => True

/-- The bitmap of an owner tells delegations apart. -/
theorem says_ofBitmap {nsec3 : List Record} {child : Path} {ns ds soa : Bool}
    (howner : child ∈ Z.owners) (hns : ns = true → Z.types child .NS)
    (hnot : ns = false → ¬Z.types child .NS)
    (hds : ds = false → ¬Z.types child .DS)
    (hsoa : soa = false → ¬Z.types child .SOA) :
    DsAbsence.Says Z P nsec3 child (.ofBitmap ns ds soa) := by
  unfold DsAbsence.ofBitmap
  split
  · trivial
  rename_i hclear
  simp only [Bool.or_eq_true, not_or, Bool.not_eq_true] at hclear
  split
  · rename_i htrue
    left
    have hholds := (hns htrue).2.1
    have hapex : child ≠ Z.apex := by
      rintro rfl
      exact hsoa hclear.2 apex_types
    refine ⟨⟨hapex, hholds⟩, ?_⟩
    intro hholdsDs
    exact hds hclear.1 ⟨howner, hholdsDs, fun _ => by decide⟩
  · rename_i hfalse
    intro hcut
    exact hnot (by simpa using hfalse) ⟨howner, hcut.2, fun _ => by decide⟩

variable {verify : Record → Bool} {nsec : List Record} {child : Name}

lemma classifyNsec_sound (hnsec : Z.NsecSet nsec) (hscope : Z.InScope child.path)
    {verdict : DsAbsence} (h : classifyNsec verify nsec child = some verdict)
    (nsec3 : List Record) : verdict.Says Z P nsec3 child.path := by
  unfold classifyNsec at h
  split at h
  · rename_i record hfind
    have hname := find?_some hfind
    simp only [Bool.and_eq_true, eqIgnoreCase_path] at hname
    obtain ⟨nsec', hof⟩ := hnsec record (mem_of_find?_eq_some hfind)
    rw [hof.parsed] at h
    dsimp only at h
    split at h
    · obtain rfl := some.inj h
      have howner := hof.next.left
      rw [hname.2] at howner
      have htypes := hof.types
      rw [hname.2] at htypes
      have hnot : ∀ t, nsec'.hasType t = false → ¬Z.types child.path t := by
        intro t ht htypes'
        exact absurd (ht.symm.trans ((htypes t).mpr htypes')) (by decide)
      exact says_ofBitmap howner (htypes _).mp (hnot _) (hnot _) (hnot _)
    · exact absurd h (by simp)
  · split at h
    · rename_i record hcover
      split at h
      · obtain rfl := some.inj h
        intro hcut
        have hspanned : Spanned nsec child.path :=
          (nsecCoveringRecord_isSome child).mp (by rw [hcover]; rfl)
        exact hnsec.spanned hspanned ⟨⟨_, hcut.2⟩, hscope.2⟩
      · exact absurd h (by simp)
    · exact absurd h (by simp)

lemma classifyNsec3_sound (hset : Z.Nsec3Set P listed records) (hscope : Z.InScope child.path)
    (hdist : Z.Distinct P child.path) :
    (classifyNsec3 P.sha1 verify records child).Says Z P records child.path := by
  unfold classifyNsec3
  split
  · trivial
  rename_i set hnew
  split
  · rename_i record used hmatch
    obtain ⟨vr, hvr, rfl, howner⟩ := matchingRecord_some
      (show (set.matchingRecord P.sha1 child 0).1 = some record by rw [hmatch])
    have hof := nsec3Of_matched hset hnew hdist hvr howner (.inl (prefix_refl _))
    rw [hof.parsed]
    dsimp only
    split
    · -- A name that owns nothing has an empty bitmap.
      by_cases hown : child.path ∈ Z.owners
      · exact says_ofBitmap hown (types_of_hasType hof (by decide))
          (types_of_hasType_false hof) (types_of_hasType_false hof) (types_of_hasType_false hof)
      have hns : vr.parsed.hasType .NS = false := by
        by_contra hne
        rw [Bool.not_eq_false] at hne
        exact hown (types_of_hasType hof (by decide) hne).1
      rw [hns]
      unfold DsAbsence.ofBitmap
      split
      · trivial
      · exact fun hcut => hown ⟨⟨_, hcut.2⟩, hscope.2⟩
    · trivial
  rename_i used hmatch
  split
  · trivial
  rename_i encloser encloserRecord used' hce
  split
  · trivial
  rename_i covering optOut used'' hnext
  split
  · trivial
  obtain ⟨k, hk, rfl, hlabels, hmem⟩ := encloser_facts hset hnew hdist
    (show (set.closestEncloserRecord P.sha1 child used).1 =
      some (encloser, encloserRecord) by rw [hce])
  rw [hlabels] at hnext
  obtain ⟨⟨vr, hvr, -, hcovers⟩, hopt⟩ :=
    coveringRecordWithOptOutStatus_some
      (show (set.coveringRecordWithOptOutStatus P.sha1 (child.suffix (k + 1)) used').1 =
        some (covering, optOut) by rw [hnext])
  split
  · rename_i htrue
    right
    refine ⟨child.path.take (k + 1), take_prefix _ _, ?_, ?_⟩
    · refine ⟨vr.source, (mem_new hnew hvr).1, ?_⟩
      rw [← suffix_path, ← covers_iff_spans hset hnew hvr]
      exact hcovers
    intro r hr hspans
    obtain ⟨p, o, hof⟩ := hset.chain r hr
    obtain ⟨vr', hvr', rfl⟩ := exists_mem_new hnew hr hof.rtype
    rw [← suffix_path, ← covers_iff_spans hset hnew hvr'] at hspans
    exact ⟨_, (mem_new hnew hvr').2.1, hopt.mp htrue vr' hvr' hspans⟩
  · rename_i hfalse
    rw [Bool.not_eq_true] at hfalse
    subst hfalse
    have hgone := not_exists_of_status hset hnew
      (show (set.coveringRecordWithOptOutStatus P.sha1 (child.suffix (k + 1)) used').1 =
        some (covering, false) by rw [hnext])
    rw [suffix_path] at hgone
    obtain ⟨hnone, -⟩ := encloses_of_next hset hmem hgone
    exact fun hcut => hnone (present_of_mem ⟨⟨_, hcut.2⟩, hscope.2⟩)

end Soundness

section Samples

/-- SHA-1 of the wire forms of some names of the zone `z`, and nothing else. -/
def sampleDigests : List (Bytes × Bytes) :=
  [([0],
      [91, 169, 60, 157, 176, 207, 249, 63, 82, 181, 33, 215, 66, 14, 67, 246, 237, 162, 120, 79]),
    ([1, 42, 0],
      [52, 107, 187, 17, 49, 57, 209, 27, 152, 224, 64, 5, 105, 181, 240, 100, 25, 166, 117, 42]),
    ([1, 122, 0],
      [225, 47, 199, 175, 85, 249, 224, 96, 202, 236, 192, 13, 174, 159, 141, 148, 35, 64, 28,
      227]),
    ([1, 42, 1, 122, 0],
      [63, 182, 79, 108, 140, 46, 167, 188, 218, 166, 81, 139, 208, 200, 47, 248, 211, 160, 177,
      159]),
    ([1, 97, 1, 122, 0],
      [43, 99, 20, 223, 170, 88, 129, 46, 184, 98, 68, 98, 224, 156, 11, 17, 39, 154, 91, 58]),
    ([1, 99, 1, 122, 0],
      [240, 96, 204, 179, 73, 78, 221, 151, 26, 204, 246, 225, 128, 206, 195, 164, 48, 115, 248,
      203]),
    ([1, 42, 1, 99, 1, 122, 0],
      [124, 30, 172, 4, 165, 18, 82, 5, 205, 198, 125, 22, 54, 186, 174, 119, 173, 255, 58, 26]),
    ([1, 42, 1, 97, 1, 122, 0],
      [158, 21, 171, 154, 65, 11, 111, 146, 161, 98, 27, 187, 255, 86, 251, 252, 127, 218, 235,
      253])]

def sampleParams : HashParams where
  sha1 := fun data => (sampleDigests.lookup data).getD (List.replicate 20 0)
  salt := []
  iterations := 0

variable {T : Zone.Table}

/-- Right below the apex nothing is there without owning something. -/
theorem exists_table (hdepth : ∀ entry ∈ T.entries, entry.1.length ≤ T.apex.length + 1) {x : Path}
    (hx : (ofTable T).Exists x) : x ∈ T.entries.map Prod.fst := by
  obtain ⟨hbelow, o, ho, hinit⟩ := hx
  have hapex : T.apex <+: x := hbelow
  rw [mem_ofTable_owners] at ho
  obtain ⟨entry, hentry, rfl⟩ := mem_map.mp ho
  have hlen := hdepth entry hentry
  have hshort := hapex.length_le
  rcases hinit.length_le.lt_or_eq with hlt | heq
  · have hsame : T.apex = x := hapex.eq_of_length (by omega)
    obtain ⟨first, hfirst, hfirstApex, -⟩ := T.apex_soa
    rw [← hsame, ← hfirstApex]
    exact mem_map.mpr ⟨first, hfirst, rfl⟩
  · rw [hinit.eq_of_length heq]
    exact ho

/-- A record of the NSEC3 chain of a table, checked against the table. -/
theorem nsec3Of_table {P : HashParams} {names : List Path} (entry : Path × List RecordType)
    (next : Path) (hdepth : ∀ other ∈ T.entries, other.1.length ≤ T.apex.length + 1 := by decide)
    (hrtype : r.rtype = .NSEC3 := by decide)
    (hparsed : Nsec3Ref.fromRecord r = some p := by rfl)
    (hparams : p.salt = P.salt ∧ p.iterations = P.iterations := by decide)
    (hentry : entry ∈ T.entries := by decide)
    (honce : ∀ other ∈ T.entries, other.1 = entry.1 → other = entry := by decide)
    (hmem : entry.1 ∈ names := by decide)
    (howner : nsec3OwnerHashFixed r = some (P.hash entry.1) := by decide +kernel)
    (hnext : next ∈ names := by decide) (hpoint : hashKey p.nextHashed = P.point next := by rfl)
    (hempty : ∀ x ∈ names, ¬Arc (P.point entry.1) (P.point next) (P.point x) := by decide +kernel)
    (htypes : parseTypeBitmaps p.typeBitmap = some entry.2 := by decide +kernel)
    (hspan : ∀ other ∈ T.entries, other.1 ∉ names → Arc (P.point entry.1) (P.point next)
      (P.point other.1) → p.optOut = true := by decide +kernel) :
    (ofTable T).Nsec3Of P {x | x ∈ names} r p entry.1 := by
  refine ⟨hrtype, hparsed, hparams, hmem, howner, ⟨?_, ?_, ?_⟩, ⟨entry.2, htypes, ?_⟩, ?_⟩
  · exact Set.mem_image_of_mem _ hmem
  · rw [hpoint]
    exact Set.mem_image_of_mem _ hnext
  · rintro point ⟨x, hx, rfl⟩
    rw [hpoint]
    exact hempty x hx
  · intro t
    rw [ofTable_types]
    constructor
    · exact fun ht => ⟨entry, hentry, rfl, ht⟩
    · rintro ⟨other, hother, hname, ht⟩
      rw [honce other hother hname] at ht
      exact ht
  · intro x hexists hout harc
    obtain ⟨other, hother, rfl⟩ := mem_map.mp (exists_table hdepth hexists)
    rw [hpoint] at harc
    exact hspan other hother hout harc

/-- A zone `z` with `a.z` and a delegation `*.z` without DS and without a record. -/
def starCutTable : Zone.Table where
  apex := [[122]]
  entries := [([[122]], [2, 6, 46]), ([[122], [97]], [1, 46]), ([[122], [42]], [2])]
  within := by decide
  filled := by decide
  apex_soa := by decide
  cuts := by
    simp only [List.forall_mem_cons, List.not_mem_nil, IsEmpty.forall_iff, implies_true]
    refine ⟨?_, ?_, ?_, trivial⟩ <;> decide

/-- The record of `z`, without opt-out; it leads to `a.z`. -/
def apexRecord : Record :=
  ⟨⟨[[115, 52, 110, 115, 102, 98, 113, 108, 118, 55, 103, 54, 49, 105, 110, 99, 111, 48, 54,
       113, 116, 55, 115, 100, 105, 103, 104, 107, 48, 55, 55, 51],
      [122]], by decide, by decide⟩, .NSEC3, 1, 300,
    .unknown 50 [1, 0, 0, 0, 0, 20, 43, 99, 20, 223, 170, 88, 129, 46, 184, 98, 68, 98, 224, 156, 11, 17,
       39, 154, 91, 58, 0, 6, 34, 0, 0, 0, 0, 2]⟩

/-- The record of `a.z`, with opt-out; it leads to `z`. -/
def hostRecord : Record :=
  ⟨⟨[[53, 100, 104, 104, 57, 110, 116, 97, 98, 50, 48, 105, 116, 101, 51, 50, 56, 104, 104,
       101, 49, 55, 48, 98, 50, 52, 106, 112, 107, 109, 112, 113],
      [122]], by decide, by decide⟩, .NSEC3, 1, 300,
    .unknown 50 [1, 1, 0, 0, 0, 20, 225, 47, 199, 175, 85, 249, 224, 96, 202, 236, 192, 13, 174, 159, 141,
       148, 35, 64, 28, 227, 0, 6, 64, 0, 0, 0, 0, 2]⟩

/-- A zone `z` with `*.z` and a delegation `a.z` without DS and without a record. -/
def hostCutTable : Zone.Table where
  apex := [[122]]
  entries := [([[122]], [2, 6, 46]), ([[122], [42]], [16, 46]), ([[122], [97]], [2])]
  within := by decide
  filled := by decide
  apex_soa := by decide
  cuts := by
    simp only [List.forall_mem_cons, List.not_mem_nil, IsEmpty.forall_iff, implies_true]
    refine ⟨?_, ?_, ?_, trivial⟩ <;> decide

/-- The record of `z`, with opt-out; it leads to `*.z`. -/
def openApexRecord : Record :=
  ⟨⟨[[115, 52, 110, 115, 102, 98, 113, 108, 118, 55, 103, 54, 49, 105, 110, 99, 111, 48, 54,
       113, 116, 55, 115, 100, 105, 103, 104, 107, 48, 55, 55, 51],
      [122]], by decide, by decide⟩, .NSEC3, 1, 300,
    .unknown 50 [1, 1, 0, 0, 0, 20, 63, 182, 79, 108, 140, 46, 167, 188, 218, 166, 81, 139, 208, 200, 47,
       248, 211, 160, 177, 159, 0, 6, 34, 0, 0, 0, 0, 2]⟩

/-- The record of `*.z`, without opt-out; it leads to `z`. -/
def starRecord : Record :=
  ⟨⟨[[55, 117, 114, 52, 117, 114, 52, 99, 53, 113, 106, 114, 112, 109, 108, 54, 97, 54, 53,
       116, 49, 105, 49, 102, 118, 51, 57, 113, 49, 99, 99, 118],
      [122]], by decide, by decide⟩, .NSEC3, 1, 300,
    .unknown 50 [1, 0, 0, 0, 0, 20, 225, 47, 199, 175, 85, 249, 224, 96, 202, 236, 192, 13, 174, 159, 141,
       148, 35, 64, 28, 227, 0, 6, 0, 0, 128, 0, 0, 2]⟩

section

variable (hdepth : ∀ entry ∈ T.entries, entry.1.length ≤ T.apex.length + 1)
include hdepth

/-- All names but the delegations have records. -/
theorem listing_table {names : List Path} (hnames : ∀ x ∈ names, x ∈ T.entries.map Prod.fst)
    (hout : ∀ entry ∈ T.entries, entry.1 ∉ names → entry.1 ≠ T.apex ∧ .NS ∈ entry.2)
    (hds : ∀ entry ∈ T.entries, entry.1 ∉ names → .DS ∉ entry.2) :
    (ofTable T).Listing {x | x ∈ names} := by
  constructor
  · intro x hx
    have hmem := hnames x hx
    obtain ⟨entry, hentry, rfl⟩ := mem_map.mp hmem
    exact ⟨T.within entry hentry, present_of_mem ((mem_ofTable_owners T _).mpr hmem)⟩
  intro x hexists hmiss
  obtain ⟨entry, hentry, rfl⟩ := mem_map.mp (exists_table hdepth hexists)
  obtain ⟨hne, hns⟩ := hout entry hentry hmiss
  refine ⟨⟨hne, entry, hentry, rfl, hns⟩, ?_⟩
  rintro ⟨other, hother, hname, hds'⟩
  exact hds other hother (by rw [hname]; exact hmiss) hds'

lemma distinct_table {P : HashParams} {q : Path}
    (hpoints : ∀ x ∈ T.entries.map Prod.fst, ∀ y ∈ q.inits ++ q.inits.map (· ++ [star]), P.point y =
      P.point x → y = x) : (ofTable T).Distinct P q := by
  intro x hexists y hasked
  refine hpoints x (exists_table hdepth hexists) y ?_
  rw [mem_append, List.mem_map]
  rcases hasked with hinit | ⟨e, he, rfl⟩
  · exact .inl ((mem_inits _ _).mpr hinit)
  · exact .inr ⟨e, (mem_inits _ _).mpr he, rfl⟩

end

lemma starCut_nsec3Set : (ofTable starCutTable).Nsec3Set sampleParams
    {x | x ∈ [[[122]], [[122], [97]]]} [apexRecord, hostRecord] := by
  refine ⟨listing_table (by decide) (by decide) (by decide) (by decide), forall_mem_cons.mpr ⟨?_,
    forall_mem_singleton.mpr ?_⟩⟩
  · exact ⟨_, _, nsec3Of_table ([[122]], [2, 6, 46]) [[122], [97]]⟩
  · exact ⟨_, _, nsec3Of_table ([[122], [97]], [1, 46]) [[122]]⟩

lemma hostCut_nsec3Set : (ofTable hostCutTable).Nsec3Set sampleParams
    {x | x ∈ [[[122]], [[122], [42]]]} [openApexRecord, starRecord] := by
  refine ⟨listing_table (by decide) (by decide) (by decide) (by decide), forall_mem_cons.mpr ⟨?_,
    forall_mem_singleton.mpr ?_⟩⟩
  · exact ⟨_, _, nsec3Of_table ([[122]], [2, 6, 46]) [[122], [42]]⟩
  · exact ⟨_, _, nsec3Of_table ([[122], [42]], [16, 46]) [[122]]⟩

/-- `c.z`, which no record of the first zone denies by opt-out. -/
def missingName : Name := ⟨[[99], [122]], by decide, by decide⟩

lemma hostName_labels : ∀ label ∈ ([[97], [122]] : List Bytes), 1 ≤ label.length ∧ label.length ≤ 63 := by
  decide

lemma hostName_wire : wireLen [[97], [122]] ≤ maxNameLen := by decide

def hostName : Name := ⟨[[97], [122]], hostName_labels, hostName_wire⟩

/-- `*.c.z`, which only the record of `*.z` spans. -/
def starName : Name := ⟨[[42], [99], [122]], by decide, by decide⟩

lemma starCut_distinct : (ofTable starCutTable).Distinct sampleParams missingName.path :=
  distinct_table (by decide) (by decide +kernel)

lemma starCut_inScope : (ofTable starCutTable).InScope missingName.path :=
  ofTable_inScope starCutTable (by decide) (by decide)

end Samples

end OnetDns.Dnssec
