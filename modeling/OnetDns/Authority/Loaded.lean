import OnetDns.Lib.Guarded
import OnetDns.Authority.Reference

/-!
# What a loaded zone holds

The facts about the tables of a zone that `from_flat_records` builds, in terms of the way
from the root to a name. Everything else about a zone is proved from these.
-/
namespace OnetDns.Dns.Name
open Authority Dnssec List

lemma suffix_labels_succ (n : Name) {k : ℕ} (h : k < n.numLabels) :
    ∃ label, (n.suffix (k + 1)).labels = label :: (n.suffix k).labels := by
  have hlt : n.labels.length - (k + 1) < n.labels.length := by
    rw [numLabels] at h
    omega
  refine ⟨n.labels[n.labels.length - (k + 1)], ?_⟩
  simp only [suffix, numLabels] at h ⊢
  rw [min_eq_left (by omega), drop_eq_getElem_cons hlt]
  congr 2
  omega

lemma suffix_numLabels_self (n : Name) : n.suffix n.numLabels = n := by
  simp [suffix]

lemma parentCanonicalKey_suffix (n : Name) {k : ℕ} (h : k < n.numLabels) :
    parentCanonicalKey (n.suffix (k + 1)).canonicalKey = some (n.suffix k).canonicalKey := by
  obtain ⟨label, hlabels⟩ := n.suffix_labels_succ h
  have hlen := (n.suffix (k + 1)).label_len label (by rw [hlabels]; exact mem_cons_self)
  rw [canonicalKey, canonicalKey, hlabels, lowerLabels_cons, wireOf_cons, length_map,
    parentCanonicalKey, toNat_label hlen.2, if_neg ?_]
  · rw [drop_left' (length_map _)]
  · rintro (hzero | hshort)
    · exact label_ne_zero hlen hzero
    · rw [length_append, length_map] at hshort
      omega

lemma wireLabels_wireOf {labels : List Bytes} {fuel : ℕ}
    (hlabels : ∀ l ∈ labels, 1 ≤ l.length ∧ l.length ≤ 63) (hfuel : labels.length < fuel) :
    wireLabels fuel (wireOf labels) = some labels := by
  induction labels generalizing fuel with
  | nil =>
    obtain ⟨fuel, rfl⟩ : ∃ k, fuel = k + 1 := ⟨fuel - 1, by omega⟩
    simp [wireOf, wireLabels]
  | cons label rest ih =>
    obtain ⟨fuel, rfl⟩ : ∃ k, fuel = k + 1 := ⟨fuel - 1, by omega⟩
    have hlen := hlabels label mem_cons_self
    have hkind : UInt8.ofNat label.length &&& 0xC0 = 0 := labelKind_of_le hlen.2
    rw [length_cons] at hfuel
    rw [wireOf_cons, wireLabels, if_neg (label_ne_zero hlen), toNat_label hlen.2, if_neg ?_,
      drop_left' rfl, take_left' rfl,
      ih (fun l hl => hlabels l (mem_cons_of_mem _ hl)) (by omega)]
    · rfl
    · rw [hkind]
      simp

lemma fromUncompressedWire_canonicalKey (n : Name) :
    fromUncompressedWire n.canonicalKey = some (lowerName n) := by
  have hlen : n.canonicalKey.length = wireLen n.labels := by
    rw [canonicalKey, wireOf_length, wireLen_lower]
  have hfuel : (lowerLabels n.labels).length < n.canonicalKey.length := by
    rw [hlen, lowerLabels, length_map]
    exact length_le_wireLen n.labels
  rw [canonicalKey] at hlen hfuel ⊢
  rw [fromUncompressedWire, if_neg (by rw [hlen]; exact not_lt.mpr n.wire_len),
    wireLabels_wireOf (lower_label_len n.label_len) hfuel]
  simp only [Option.bind_some, fromLabels]
  rw [dif_pos (lower_label_len n.label_len), dif_pos ((wireLen_lower n.labels).trans_le n.wire_len)]
  rfl

end OnetDns.Dns.Name

namespace OnetDns.Authority
open Dns Dnssec List Name OrderedMap Guarded StoredRecord

/-- A record whose owner is not stored with it. -/
def isAddress (r : Record) : Bool :=
  match r.rdata with
  | .a _ | .aaaa _ => true
  | _ => false

/-- Records of one owner, as a zone keeps them. -/
structure Owned (owner : Name) (records : List StoredRecord) : Prop where
  nonempty : records ≠ []
  whole : ∀ {payload r}, .other payload r ∈ records → isAddress r = false
  name : ∀ {payload r}, .other payload r ∈ records → r.name.path = owner.path
  sorted : records.Pairwise fun a b => a.rtype ≤ b.rtype

/-- Records whose type is the one of their data, as `Record::new` and the parser make them. -/
def Typed (records : List Record) : Prop := ∀ r ∈ records, r.rtype = r.rdata.recordType

variable {r : Record} {records : List Record}

lemma fromRecord_rtype (h : r.rtype = r.rdata.recordType) (others : ℕ) :
    (fromRecord others r).rtype = r.rtype := by
  rw [fromRecord]
  split <;> simp_all [rtype, RData.recordType]

lemma fromRecord_other {r' : Record} {others payload : ℕ}
    (h : fromRecord others r = .other payload r') : r' = r ∧ isAddress r = false := by
  unfold fromRecord at h
  unfold isAddress
  split at h <;> simp_all

lemma storeRecords_rtypes (h : Typed records) (others : ℕ) :
    (storeRecords records others).1.map (·.rtype) = records.map (·.rtype) := by
  induction records generalizing others with
  | nil => rfl
  | cons r rest ih =>
    rw [storeRecords, map_cons, map_cons, fromRecord_rtype (h r mem_cons_self),
      ih fun r hr => h r (mem_cons_of_mem _ hr)]

lemma storeRecords_other {others payload : ℕ}
    (h : .other payload r ∈ (storeRecords records others).1) :
    r ∈ records ∧ isAddress r = false := by
  induction records generalizing others with
  | nil => simp [storeRecords] at h
  | cons first rest ih =>
    rcases mem_cons.mp h with heq | hmem
    · obtain ⟨rfl, hwhole⟩ := fromRecord_other heq.symm
      exact ⟨mem_cons_self, hwhole⟩
    · exact ⟨mem_cons_of_mem _ (ih hmem).1, (ih hmem).2⟩

lemma Owned.store {owner : Name} (hne : records ≠ [])
    (hname : ∀ r ∈ records, r.name.path = owner.path) (htyped : Typed records)
    (hsorted : records.Pairwise fun a b => a.rtype ≤ b.rtype) (others : ℕ) :
    Owned owner (storeRecords records others).1 := by
  have hrtypes := storeRecords_rtypes htyped others
  refine ⟨?_, fun h => (storeRecords_other h).2, fun h => hname _ (storeRecords_other h).1, ?_⟩
  · intro hnil
    rw [hnil, map_nil, eq_comm, map_eq_nil_iff] at hrtypes
    exact hne hrtypes
  · rw [← pairwise_map (f := rtype) (R := (· ≤ ·)), hrtypes, pairwise_map]
    exact hsorted

lemma recordLe_iff {a b : Record} :
    recordLe a b ↔ a.name.path < b.name.path ∨ a.name.path = b.name.path ∧ a.rtype ≤ b.rtype := by
  rw [recordLe, dnssecNameCmp, canonicalNameCmp_lt, canonicalNameCmp_eq]

instance : Std.Total recordLe where
  total a b := by
    rw [recordLe_iff, recordLe_iff]
    rcases lt_trichotomy a.name.path b.name.path with hlt | heq | hgt
    · exact .inl (.inl hlt)
    · rcases UInt16.le_total a.rtype b.rtype with hle | hge
      · exact .inl (.inr ⟨heq, hle⟩)
      · exact .inr (.inr ⟨heq.symm, hge⟩)
    · exact .inr (.inl hgt)

instance : IsTrans Record recordLe where
  trans a b c hab hbc := by
    rw [recordLe_iff] at hab hbc ⊢
    rcases hab with hab | ⟨hab, htype⟩ <;> rcases hbc with hbc | ⟨hbc, htype'⟩
    · exact .inl (hab.trans hbc)
    · exact .inl (hbc ▸ hab)
    · exact .inl (hab ▸ hbc)
    · exact .inr ⟨hab.trans hbc, UInt16.le_trans htype htype'⟩

/-- A record without its lifetime. -/
def body (r : Record) : Name × RecordType × DnsClass × RData := (r.name, r.rtype, r.class', r.rdata)

lemma body_normalizeTtls (records : List Record) :
    (normalizeTtls records).map body = records.map body := by
  simp only [normalizeTtls, map_map]
  refine map_congr_left fun r _ => ?_
  simp only [Function.comp_apply]
  split <;> split <;> rfl

lemma dropDuplicateRecords_sublist (records : List Record)
    (seen : List (RecordType × DnsClass × Bytes)) :
    (dropDuplicateRecords records seen).Sublist records := by
  induction records generalizing seen with
  | nil => exact List.Sublist.slnil
  | cons r rest ih =>
    rw [dropDuplicateRecords]
    split
    · exact (ih seen).cons_cons r
    · split
      · exact (ih seen).cons r
      · exact (ih _).cons_cons r

lemma dropDuplicateRecords_ne_nil (h : records ≠ []) : dropDuplicateRecords records [] ≠ [] := by
  cases records with
  | nil => exact absurd rfl h
  | cons r rest =>
    rw [dropDuplicateRecords]
    split <;> simp

/-- A group of records that share the key of their owner. -/
structure Group (key : Bytes) (records : List Record) : Prop where
  nonempty : records ≠ []
  key : ∀ r ∈ records, r.name.canonicalKey = key
  typed : Typed records
  sorted : records.Pairwise fun a b => a.rtype ≤ b.rtype

lemma lookup_map_snd {α β : Type} (f : List α → List β) (m : OwnerIndex α) (key : Bytes) :
    (m.map fun e => (e.1, f e.2)).lookup key = (m.lookup key).map f := by
  induction m with
  | nil => rfl
  | cons e m ih =>
    rw [map_cons, lookup_cons_if, ih, lookup_cons_if]
    by_cases hk : key = e.1 <;> simp [hk]

lemma Group.normalize {key : Bytes} (h : Group key records) :
    Group key (normalizeTtls records) := by
  have hbody := body_normalizeTtls records
  have hmem : ∀ r ∈ normalizeTtls records, ∃ r' ∈ records, body r' = body r := by
    intro r hr
    exact mem_map.mp (hbody ▸ mem_map_of_mem hr)
  refine ⟨?_, ?_, ?_, ?_⟩
  · intro hnil
    rw [hnil, map_nil, eq_comm, map_eq_nil_iff] at hbody
    exact h.nonempty hbody
  · intro r hr
    obtain ⟨r', hr', heq⟩ := hmem r hr
    rw [← h.key r' hr', (Prod.mk.inj heq).1]
  · intro r hr
    obtain ⟨r', hr', heq⟩ := hmem r hr
    simp only [body, Prod.mk.injEq] at heq
    rw [← heq.2.1, ← heq.2.2.2]
    exact h.typed r' hr'
  · have hpair : ∀ l : List Record, (l.Pairwise fun a b => a.rtype ≤ b.rtype) ↔
        (l.map body).Pairwise fun a b => a.2.1 ≤ b.2.1 := by
      intro l
      rw [pairwise_map]
      exact Iff.rfl
    rw [hpair, hbody, ← hpair]
    exact h.sorted

lemma Group.dropDuplicates {key : Bytes} (h : Group key records) :
    Group key (dropDuplicateRecords records []) := by
  have hsub := dropDuplicateRecords_sublist records []
  exact ⟨dropDuplicateRecords_ne_nil h.nonempty, fun r hr => h.key r (hsub.mem hr),
    fun r hr => h.typed r (hsub.mem hr), h.sorted.sublist hsub⟩

/-- The groups that are loaded, and the names that own one. -/
theorem lookup_prepare (htyped : Typed records) (key : Bytes) :
    (∀ group, (Zone.prepare records).lookup key = some group → Group key group ∧
        ∀ r ∈ group, ∃ r' ∈ records, r'.name = r.name) ∧
      ((Zone.prepare records).lookup key = none → ∀ r ∈ records, r.name.canonicalKey ≠ key) := by
  have hsorted := pairwise_insertionSort recordLe records
  rw [Zone.prepare, lookup_map_snd (fun group => dropDuplicateRecords (normalizeTtls group) []),
    ownerGroups, lookup_group]
  set part := (records.insertionSort recordLe).filter fun r => r.name.canonicalKey = key
  have hmem : ∀ r, r ∈ part ↔ r ∈ records ∧ r.name.canonicalKey = key := by
    intro r
    rw [mem_filter, mem_insertionSort, decide_eq_true_eq]
  constructor
  · intro group hgroup
    split at hgroup
    · exact absurd hgroup (by simp)
    rename_i hne
    obtain rfl := Option.some.inj hgroup
    have hbase : Group key part := by
      refine ⟨hne, fun r hr => ((hmem r).mp hr).2, fun r hr => htyped r ((hmem r).mp hr).1, ?_⟩
      refine (hsorted.filter _).imp_of_mem fun ha hb hle => ?_
      have hpath := canonicalKey_inj.mp (((hmem _).mp ha).2.trans ((hmem _).mp hb).2.symm)
      rcases recordLe_iff.mp hle with hlt | ⟨-, htype⟩
      · exact absurd hlt (by rw [hpath]; exact lt_irrefl _)
      · exact htype
    refine ⟨hbase.normalize.dropDuplicates, fun r hr => ?_⟩
    have hr := (dropDuplicateRecords_sublist _ _).mem hr
    have hbody := body_normalizeTtls part
    obtain ⟨r', hr', heq⟩ := mem_map.mp (hbody ▸ mem_map_of_mem (f := body) hr)
    exact ⟨r', ((hmem r').mp hr').1, (Prod.mk.inj heq).1⟩
  · intro hnone r hr hkey
    split at hnone
    · rename_i hnil
      have : r ∈ part := (hmem r).mpr ⟨hr, hkey⟩
      rw [hnil] at this
      exact absurd this (by simp)
    · exact absurd hnone (by simp)

lemma storeOwners_keys (index : OwnerIndex Record) (others : ℕ) :
    (storeOwners index others).map Prod.fst = index.map Prod.fst := by
  induction index generalizing others with
  | nil => rfl
  | cons entry rest ih =>
    simp [storeOwners, ih]

lemma lookup_storeOwners (index : OwnerIndex Record) (others : ℕ) (key : Bytes) :
    ∃ others', (storeOwners index others).lookup key =
      (index.lookup key).map fun records => (storeRecords records others').1 := by
  induction index generalizing others with
  | nil => exact ⟨0, rfl⟩
  | cons entry rest ih =>
    obtain ⟨k, records⟩ := entry
    simp only [storeOwners, lookup_cons_if]
    by_cases hk : key = k
    · exact ⟨others, by rw [if_pos hk, if_pos hk]; rfl⟩
    · rw [if_neg hk, if_neg hk]
      exact ih _

/-- A mark at a key, added to those it has. -/
def mark (flags : List (Bytes × UInt8)) (event : Bytes × UInt8) : List (Bytes × UInt8) :=
  upsert flags event.1 0 (· ||| event.2)

lemma lookup_marks (events : List (Bytes × UInt8)) (key : Bytes) (f : UInt8) :
    ((events.foldl mark []).lookup key).any (fun x => x &&& f ≠ 0) = true ↔
      ∃ e ∈ events, e.1 = key ∧ e.2 &&& f ≠ 0 := by
  induction events using reverseRecOn with
  | nil => simp
  | append_singleton events e ih =>
    obtain ⟨k, g⟩ := e
    rw [foldl_append, foldl_cons, foldl_nil, mark, upsert, lookup_upsert]
    simp only [mem_append, mem_singleton, or_and_right, exists_or, exists_eq_left]
    by_cases hk : key = k
    · subst hk
      rw [if_pos rfl, ← ih]
      cases (events.foldl mark []).lookup key with
      | none => simp
      | some x =>
        have hdistrib : (x ||| g) &&& f = (x &&& f) ||| (g &&& f) := by
          rw [← UInt8.toBitVec_inj]
          ext i
          simp [Bool.and_or_distrib_right]
        simp only [Option.getD_some, Option.any_some, decide_eq_true_eq, ne_eq, hdistrib,
          UInt8.or_eq_zero_iff]
        tauto
    · rw [if_neg hk, ih]
      simp [Ne.symm hk]

lemma failIf_ok {condition : Bool} {error : LoadError} {u : Unit}
    (h : failIf condition error = .ok u) : condition = false := by
  unfold failIf at h
  cases condition with
  | true => simp at h
  | false => rfl

/-- The marks of names above an owner that own nothing. -/
def existsEvents (origin : Name) (index : OwnerIndex Record) (owner : Name) :
    List (Bytes × UInt8) :=
  (((List.range' origin.numLabels (owner.numLabels + 1 - origin.numLabels)).map fun labels =>
    (owner.suffix labels).canonicalKey).filter fun key => (index.lookup key).isNone).map
      (·, nameExists)

lemma markExists_eq (origin : Name) (index : OwnerIndex Record) (flags : List (Bytes × UInt8))
    (owner : Name) :
    markExists origin index flags owner = (existsEvents origin index owner).foldl mark flags := by
  rw [markExists, existsEvents]
  generalize range' origin.numLabels (owner.numLabels + 1 - origin.numLabels) = levels
  induction levels generalizing flags with
  | nil => rfl
  | cons k levels ih =>
    rw [foldl_cons, ih]
    cases hkey : index.lookup (owner.suffix k).canonicalKey <;> simp [hkey, mark]

/-- The marks of a wildcard and of a DNAME at an owner. -/
def specialEvents (entry : Bytes × List Record) : List (Bytes × UInt8) :=
  (if [1, 42].isPrefixOf entry.1 then
    (parentCanonicalKey entry.1).toList.map (·, nameHasWildcard) else []) ++
    if hasType entry.2 .DNAME then [(entry.1, nameHasDname)] else []

variable {entry : Bytes × List Record}

lemma markSpecial_eq {flags flags' : List (Bytes × UInt8)}
    (h : markSpecial flags entry = .ok flags') : flags' = (specialEvents entry).foldl mark flags := by
  rw [specialEvents]
  unfold markSpecial at h
  by_cases hstar : [1, 42].isPrefixOf entry.1
  · simp only [hstar, if_true] at h ⊢
    cases hparent : parentCanonicalKey entry.1 with
    | none => simp [hparent] at h
    | some parent =>
      simp only [hparent, bind, Except.bind, pure, Except.pure, Except.ok.injEq] at h
      rw [← h]
      by_cases hdname : hasType entry.2 .DNAME <;> simp [hdname, mark]
  · simp only [hstar, Bool.false_eq_true, if_false, bind, Except.bind, pure, Except.pure,
      Except.ok.injEq] at h
    rw [← h]
    by_cases hdname : hasType entry.2 .DNAME <;> simp [hstar, hdname, mark]

variable {index : OwnerIndex Record}

lemma foldlM_markSpecial_eq {flags flags' : List (Bytes × UInt8)}
    (h : index.foldlM markSpecial flags = .ok flags') :
    flags' = (index.flatMap specialEvents).foldl mark flags := by
  induction index generalizing flags with
  | nil => simpa [pure, Except.pure, eq_comm] using h
  | cons entry index ih =>
    rw [foldlM_cons] at h
    cases hentry : markSpecial flags entry with
    | error e => simp [hentry, bind, Except.bind] at h
    | ok next =>
      rw [hentry] at h
      rw [flatMap_cons, foldl_append, ← markSpecial_eq hentry]
      exact ih h

/-- The marks of a loaded zone. -/
def allEvents (origin : Name) (index : OwnerIndex Record) : List (Bytes × UInt8) :=
  (index.filterMap fun entry => entry.2.head?.map (·.name)).flatMap (existsEvents origin index) ++
    index.flatMap specialEvents

/-- What `from_flat_records` has checked and built. -/
structure Built (origin : Name) (records : List Record) (zone : Zone) : Prop where
  origin_eq : zone.origin = origin
  within : ∀ r ∈ records, origin.path <+: r.name.path
  records_eq : zone.records = storeOwners (Zone.prepare records) 0
  apex : ∃ group, (Zone.prepare records).lookup origin.canonicalKey = some group ∧
    hasType group .NS = true
  belowDnames : checkBelowDnames origin (Zone.prepare records) = .ok ()
  flags_eq : zone.nameFlags = (allEvents origin (Zone.prepare records)).foldl mark []
  delegations_eq : zone.hasDelegations = (Zone.prepare records).any fun entry =>
    entry.1 ≠ origin.canonicalKey && hasType entry.2 .NS
  simple_eq : zone.simpleNxdomain = (!zone.hasDelegations && zone.nameFlags.isEmpty)

lemma built_of_fromFlatRecords {origin : Name} {soa : Soa} {soaTtl : UInt32} {zone : Zone}
    (h : Zone.fromFlatRecords origin soa soaTtl records = .ok zone) : Built origin records zone :=
    by
  obtain ⟨_, -, h⟩ := bind_inv h
  obtain ⟨_, hwithin, h⟩ := bind_inv h
  obtain ⟨_, -, h⟩ := bind_inv h
  obtain ⟨_, hapex, h⟩ := bind_inv h
  obtain ⟨_, hvalid, h⟩ := bind_inv h
  obtain ⟨flags, hflags, h⟩ := bind_inv h
  obtain rfl := Except.ok.inj h
  replace hwithin := failIf_ok hwithin
  replace hapex := failIf_ok hapex
  obtain ⟨_, -, hvalid⟩ := bind_inv hvalid
  obtain ⟨_, hbelow, -⟩ := bind_inv hvalid
  refine ⟨rfl, ?_, rfl, ?_, hbelow, ?_, rfl, rfl⟩
  · intro r hr
    rw [any_eq_false] at hwithin
    have := hwithin r hr
    rw [Bool.not_eq_true, Bool.not_eq_false', isSubdomainOrEq, endsWithIgnoreCase_path] at this
    exact this
  · rw [Bool.not_eq_false', Option.any_eq_true] at hapex
    exact hapex
  · change flags = _
    rw [foldlM_markSpecial_eq hflags, allEvents, foldl_append]
    congr 1
    rw [foldl_flatMap]
    exact foldl_ext _ _ _ fun flags owner _ => markExists_eq origin _ flags owner

/-- The facts about a loaded zone that the rest of the development uses. -/
structure Zone.Loaded (zone : Zone) : Prop where
  owned : ∀ entry ∈ zone.records, ∃ owner : Name,
    entry.1 = owner.canonicalKey ∧ zone.origin.path <+: owner.path ∧ Owned owner entry.2
  nodup : (zone.records.map Prod.fst).Nodup
  apex : (zone.owner zone.origin).isSome = true
  node_iff : ∀ n : Name, zone.origin.path <+: n.path →
    (zone.nodeExists n = true ↔ ∃ m : Name, (zone.owner m).isSome = true ∧ n.path <+: m.path)
  noCut : zone.hasDelegations = false → ∀ {n : Name} {records : List StoredRecord},
    zone.owner n = some records → n.path ≠ zone.origin.path → ∀ r ∈ records, r.rtype ≠ .NS
  dnameAlone : ∀ {n m : Name} {records : List StoredRecord} {r : StoredRecord},
    zone.owner n = some records → r ∈ records → r.rtype = .DNAME →
      (zone.owner m).isSome = true → n.path <+: m.path → m.path = n.path
  wildcardFlag : ∀ n : Name, zone.flagSet n.canonicalKey nameHasWildcard = true ↔
    ∃ m : Name, (zone.owner m).isSome = true ∧ m.path = n.path ++ [star]
  dnameFlag : ∀ n : Name, zone.flagSet n.canonicalKey nameHasDname = true ↔
    ∃ records, zone.owner n = some records ∧ ∃ r ∈ records, r.rtype = .DNAME
  simple : zone.simpleNxdomain = true → zone.hasDelegations = false ∧ zone.nameFlags = []

open Zone

section Built

variable {origin : Name} {records : List Record} {zone : Zone}

lemma Built.keys_nodup (records : List Record) : ((prepare records).map Prod.fst).Nodup := by
  rw [prepare, map_map]
  exact group_keys_nodup _ _

lemma Built.owner_eq (h : Built origin records zone) (n : Name) :
    ∃ others, zone.owner n = ((prepare records).lookup n.canonicalKey).map fun group =>
      (storeRecords group others).1 := by
  rw [owner, recordsForKey, h.records_eq]
  exact lookup_storeOwners _ _ _

lemma Built.owner_isSome (h : Built origin records zone) (n : Name) :
    (zone.owner n).isSome = ((prepare records).lookup n.canonicalKey).isSome := by
  obtain ⟨others, hothers⟩ := h.owner_eq n
  rw [hothers, Option.isSome_map]

variable {n : Name}

section

variable (h : Built origin records zone)
include h

lemma Built.hasType_iff (htyped : Typed records) {group : List Record}
    (hgroup : (Zone.prepare records).lookup n.canonicalKey = some group) (rtype : RecordType) :
    hasType group rtype = true ↔
      ∃ stored, zone.owner n = some stored ∧ ∃ r ∈ stored, r.rtype = rtype := by
  obtain ⟨others, hothers⟩ := h.owner_eq n
  rw [hgroup] at hothers
  have hrtypes := storeRecords_rtypes (((lookup_prepare htyped _).1 group hgroup).1.typed) others
  have hmem : (∃ r ∈ (storeRecords group others).1, r.rtype = rtype) ↔
      rtype ∈ group.map (·.rtype) := by
    rw [← hrtypes, mem_map]
  rw [hothers, hasType]
  simp [hmem]

lemma Built.group_owner (htyped : Typed records) (hentry : entry ∈ Zone.prepare records) :
    ∃ owner : Name, entry.2.head?.map (·.name) = some owner ∧ entry.1 = owner.canonicalKey ∧
      origin.path <+: owner.path ∧ (zone.owner owner).isSome = true := by
  obtain ⟨key, group⟩ := entry
  have hlookup := lookup_of_mem (keys_nodup records) hentry
  obtain ⟨hgroup, hnames⟩ := (lookup_prepare htyped key).1 group hlookup
  obtain ⟨first, rest, rfl⟩ := exists_cons_of_ne_nil hgroup.nonempty
  have hkey := hgroup.key first mem_cons_self
  obtain ⟨r, hr, hname⟩ := hnames first mem_cons_self
  refine ⟨first.name, rfl, hkey.symm, ?_, ?_⟩
  · rw [← hname]
    exact h.within r hr
  · rw [h.owner_isSome, hkey, hlookup]
    rfl

lemma Built.flagSet_iff (key : Bytes) (f : UInt8) :
    zone.flagSet key f = true ↔
      ∃ e ∈ allEvents origin (prepare records), e.1 = key ∧ e.2 &&& f ≠ 0 := by
  rw [flagSet, h.flags_eq]
  exact lookup_marks _ _ _

end

variable {e : Bytes × UInt8}

lemma mem_existsEvents {owner : Name} :
    e ∈ existsEvents origin index owner ↔ e.2 = nameExists ∧ index.lookup e.1 = none ∧
      ∃ k, origin.numLabels ≤ k ∧ k < owner.numLabels + 1 ∧ (owner.suffix k).canonicalKey = e.1 := by
  obtain ⟨key, flag⟩ := e
  simp only [existsEvents, mem_map, mem_filter, mem_range'_1, Option.isNone_iff_eq_none,
    Prod.mk.injEq]
  constructor
  · rintro ⟨key', ⟨⟨k, ⟨hlow, hhigh⟩, hkey⟩, hnone⟩, rfl, rfl⟩
    exact ⟨rfl, hnone, k, hlow, by omega, hkey⟩
  · rintro ⟨rfl, hnone, k, hlow, hhigh, hkey⟩
    exact ⟨key, ⟨⟨k, ⟨hlow, by omega⟩, hkey⟩, hnone⟩, rfl, rfl⟩

lemma mem_specialEvents : e ∈ specialEvents entry ↔
      ([1, 42].isPrefixOf entry.1 = true ∧ parentCanonicalKey entry.1 = some e.1 ∧
        e.2 = nameHasWildcard) ∨ (hasType entry.2 .DNAME = true ∧ e = (entry.1, nameHasDname)) := by
  obtain ⟨key, flag⟩ := e
  rw [specialEvents, mem_append]
  refine or_congr ?_ ?_
  · split
    · rename_i hstar
      simp only [hstar, mem_map, Option.mem_toList, Prod.mk.injEq, true_and]
      constructor
      · rintro ⟨k, hk, rfl, rfl⟩
        exact ⟨hk, rfl⟩
      · rintro ⟨hk, rfl⟩
        exact ⟨key, hk, rfl, rfl⟩
    · rename_i hstar
      simp [hstar]
  · split <;> simp_all

/-- A bit that is set comes from a mark of its own kind. -/
theorem mem_allEvents_exists : (e ∈ allEvents origin index ∧ e.2 &&& nameExists ≠ 0) ↔
      ∃ entry ∈ index, ∃ owner, entry.2.head?.map (·.name) = some owner ∧
        e ∈ existsEvents origin index owner := by
  rw [allEvents, mem_append, mem_flatMap, mem_flatMap]
  simp only [mem_filterMap]
  constructor
  · rintro ⟨⟨owner, ⟨entry, hentry, howner⟩, he⟩ | ⟨entry, -, he⟩, hbit⟩
    · exact ⟨entry, hentry, owner, howner, he⟩
    · rcases mem_specialEvents.mp he with ⟨-, -, hflag⟩ | ⟨-, rfl⟩
      · exact absurd hbit (by rw [hflag]; decide)
      · exact absurd hbit (show ¬nameHasDname &&& nameExists ≠ 0 by decide)
  · rintro ⟨entry, hentry, owner, howner, he⟩
    refine ⟨.inl ⟨owner, ⟨entry, hentry, howner⟩, he⟩, ?_⟩
    rw [(mem_existsEvents.mp he).1]
    decide

lemma special_of_mem_allEvents {f : UInt8}
    (hf : nameExists &&& f = 0) (hmem : e ∈ allEvents origin index) (hbit : e.2 &&& f ≠ 0) :
    ∃ entry ∈ index, e ∈ specialEvents entry := by
  rw [allEvents, mem_append, mem_flatMap, mem_flatMap] at hmem
  rcases hmem with ⟨owner, -, he⟩ | ⟨entry, hentry, he⟩
  · rw [(mem_existsEvents.mp he).1] at hbit
    exact absurd hf hbit
  · exact ⟨entry, hentry, he⟩

lemma Built.node_iff (h : Built origin records zone) (htyped : Typed records)
    (hn : origin.path <+: n.path) : zone.nodeExists n = true ↔
      ∃ m : Name, (zone.owner m).isSome = true ∧ n.path <+: m.path := by
  rw [nodeExists, keyExists, Bool.or_eq_true, h.flagSet_iff]
  constructor
  · rintro (howner | ⟨e, hmem, hkey, hbit⟩)
    · exact ⟨n, howner, prefix_refl _⟩
    obtain ⟨entry, hentry, owner, hhead, he⟩ := mem_allEvents_exists.mp ⟨hmem, hbit⟩
    obtain ⟨owner', hhead', -, -, hsome⟩ := h.group_owner htyped hentry
    obtain rfl := Option.some.inj (hhead.symm.trans hhead')
    obtain ⟨-, -, k, -, -, hk⟩ := mem_existsEvents.mp he
    refine ⟨owner, hsome, ?_⟩
    have hpath := canonicalKey_inj.mp (hk.trans hkey)
    rw [← hpath, suffix_path]
    exact List.take_prefix _ _
  rintro ⟨m, hm, hpre⟩
  by_cases howner : (zone.owner n).isSome = true
  · exact .inl howner
  right
  rw [h.owner_isSome] at hm howner
  obtain ⟨group, hgroup⟩ := Option.isSome_iff_exists.mp hm
  have hentry := mem_of_lookup hgroup
  obtain ⟨owner, hhead, hkey, -, -⟩ := h.group_owner htyped hentry
  have hpath : m.path = owner.path := canonicalKey_inj.mp hkey
  have hlen := hpre.length_le
  have htake : n.path = owner.path.take n.numLabels := by
    rw [← hpath, ← path_length]
    exact prefix_iff_eq_take.mp hpre
  have hsuffix : (owner.suffix n.numLabels).canonicalKey = n.canonicalKey := by
    rw [canonicalKey_inj, suffix_path, ← htake]
  have hlow := hn.length_le
  rw [hpath] at hlen
  rw [path_length, path_length] at hlen hlow
  refine ⟨(n.canonicalKey, nameExists), ?_, rfl, show nameExists &&& nameExists ≠ 0 by decide⟩
  have hexists : (n.canonicalKey, nameExists) ∈ existsEvents origin (prepare records) owner :=
    mem_existsEvents.mpr ⟨rfl, Option.not_isSome_iff_eq_none.mp howner, n.numLabels, hlow,
      by omega, hsuffix⟩
  exact (mem_allEvents_exists.mpr ⟨_, hentry, owner, hhead, hexists⟩).1

/-- Which keys are those of a wildcard. -/
theorem isStarKey_iff (n : Name) :
    [1, 42].isPrefixOf n.canonicalKey = true ↔ ∃ p, n.path = p ++ [star] := by
  cases hlabels : n.labels with
  | nil =>
    rw [canonicalKey, path, hlabels]
    exact iff_of_false (by decide) (by simp)
  | cons label rest =>
    have hlen := n.label_len label (by rw [hlabels]; exact mem_cons_self)
    have hpath : (∃ p, n.path = p ++ [star]) ↔ labelKey label = star := by
      rw [path, hlabels, map_cons, reverse_cons]
      constructor
      · rintro ⟨p, hp⟩
        exact singleton_inj.mp (append_inj' hp rfl).2
      · intro hstar
        exact ⟨_, by rw [hstar]⟩
    rw [hpath, canonicalKey, hlabels, lowerLabels_cons, wireOf_cons, length_map]
    cases label with
    | nil => exact absurd hlen.1 (by decide)
    | cons b tail =>
      cases tail with
      | nil =>
        have hfold : labelKey [b] = star ↔ asciiLower b = 42 := by
          rw [labelKey, Dnssec.star, map_singleton, singleton_inj,
            show (42 : ℕ) = (42 : UInt8).toNat from rfl, UInt8.toNat_inj]
        have hone : UInt8.ofNat [b].length = 1 := rfl
        rw [hfold, hone]
        simp only [map_singleton, cons_append, isPrefixOf, Bool.and_eq_true,
          beq_iff_eq, true_and, and_true]
        exact eq_comm
      | cons c tail =>
        refine iff_of_false (fun hstar => ?_) (by simp [labelKey, Dnssec.star])
        have hone : UInt8.ofNat (b :: c :: tail).length = 1 := by
          simp only [isPrefixOf, Bool.and_eq_true, beq_iff_eq] at hstar
          exact hstar.1.symm
        have := congrArg UInt8.toNat hone
        rw [toNat_label hlen.2] at this
        simp at this

lemma Built.wildcardFlag (h : Built origin records zone) (htyped : Typed records) (n : Name) :
    zone.flagSet n.canonicalKey nameHasWildcard = true ↔
      ∃ m : Name, (zone.owner m).isSome = true ∧ m.path = n.path ++ [star] := by
  rw [h.flagSet_iff]
  constructor
  · rintro ⟨e, hmem, hkey, hbit⟩
    obtain ⟨entry, hentry, he⟩ := special_of_mem_allEvents (by decide) hmem hbit
    obtain ⟨owner, -, howner, -, hsome⟩ := h.group_owner htyped hentry
    rcases mem_specialEvents.mp he with ⟨hstar, hparent, -⟩ | ⟨-, rfl⟩
    · rw [howner] at hstar hparent
      obtain ⟨p, hp⟩ := (isStarKey_iff owner).mp hstar
      have hlen : owner.numLabels = p.length + 1 := by
        rw [← path_length, hp, length_append, length_singleton]
      have hsuffix := owner.parentCanonicalKey_suffix (by omega : p.length < owner.numLabels)
      rw [← hlen, suffix_numLabels_self, hparent, hkey, Option.some.injEq,
        canonicalKey_inj, suffix_path, hp, take_left' rfl] at hsuffix
      exact ⟨owner, hsome, by rw [hp, hsuffix]⟩
    · exact absurd hbit (show ¬nameHasDname &&& nameHasWildcard ≠ 0 by decide)
  rintro ⟨m, hm, hpath⟩
  rw [h.owner_isSome] at hm
  obtain ⟨group, hgroup⟩ := Option.isSome_iff_exists.mp hm
  have hlen : m.numLabels = n.numLabels + 1 := by
    rw [← path_length, hpath, length_append, path_length, length_singleton]
  have hparent : parentCanonicalKey m.canonicalKey = some n.canonicalKey := by
    have hsuffix := m.parentCanonicalKey_suffix (by omega : n.numLabels < m.numLabels)
    rw [← hlen, suffix_numLabels_self] at hsuffix
    rw [hsuffix, Option.some.injEq, canonicalKey_inj, suffix_path, hpath,
      take_left' (path_length n)]
  refine ⟨(n.canonicalKey, nameHasWildcard), ?_, rfl,
    show nameHasWildcard &&& nameHasWildcard ≠ 0 by decide⟩
  have hevent : (n.canonicalKey, nameHasWildcard) ∈ specialEvents (m.canonicalKey, group) :=
    mem_specialEvents.mpr (.inl ⟨(isStarKey_iff m).mpr ⟨_, hpath⟩, hparent, rfl⟩)
  exact mem_append_right _ (mem_flatMap.mpr ⟨_, mem_of_lookup hgroup, hevent⟩)

lemma Built.dnameFlag (h : Built origin records zone) (htyped : Typed records) (n : Name) :
    zone.flagSet n.canonicalKey nameHasDname = true ↔
      ∃ stored, zone.owner n = some stored ∧ ∃ r ∈ stored, r.rtype = .DNAME := by
  rw [h.flagSet_iff]
  constructor
  · rintro ⟨e, hmem, hkey, hbit⟩
    obtain ⟨entry, hentry, he⟩ := special_of_mem_allEvents (by decide) hmem hbit
    rcases mem_specialEvents.mp he with ⟨-, -, hflag⟩ | ⟨hdname, rfl⟩
    · exact absurd hbit (by rw [hflag]; decide)
    · have hlookup := lookup_of_mem (keys_nodup records) hentry
      exact (h.hasType_iff htyped (hkey ▸ hlookup) _).mp hdname
  rintro ⟨stored, howner, hdname⟩
  have hsome : (zone.owner n).isSome = true := by rw [howner]; rfl
  rw [h.owner_isSome] at hsome
  obtain ⟨group, hgroup⟩ := Option.isSome_iff_exists.mp hsome
  refine ⟨(n.canonicalKey, nameHasDname), ?_, rfl, show nameHasDname &&& nameHasDname ≠ 0 by decide⟩
  have hevent : (n.canonicalKey, nameHasDname) ∈ specialEvents (n.canonicalKey, group) :=
    mem_specialEvents.mpr (.inr ⟨(h.hasType_iff htyped hgroup _).mpr ⟨stored, howner, hdname⟩, rfl⟩)
  exact mem_append_right _ (mem_flatMap.mpr ⟨_, mem_of_lookup hgroup, hevent⟩)

lemma forM_ok {ε α : Type} {l : List α} {f : α → Except ε Unit} {u : Unit}
    (h : l.forM f = .ok u) : ∀ a ∈ l, f a = .ok () := by
  induction l with
  | nil => nofun
  | cons a l ih =>
    obtain ⟨_, hhead, htail⟩ := bind_inv (show f a >>= (fun _ => l.forM f) = .ok u from h)
    intro b hb
    rcases mem_cons.mp hb with rfl | hb
    · exact hhead
    · exact ih htail b hb

section

variable (h : Built origin records zone)
include h

section

variable (htyped : Typed records)
include htyped

lemma Built.owner_within (hn : (zone.owner n).isSome = true) : origin.path <+: n.path := by
  rw [h.owner_isSome] at hn
  obtain ⟨group, hgroup⟩ := Option.isSome_iff_exists.mp hn
  obtain ⟨owner, -, hkey, hwithin, -⟩ := h.group_owner htyped (mem_of_lookup hgroup)
  rw [canonicalKey_inj.mp hkey]
  exact hwithin

lemma Built.dnameAlone {m : Name} {stored : List StoredRecord} (hn : zone.owner n = some stored)
    (hdname : ∃ r ∈ stored, r.rtype = .DNAME) (hm : (zone.owner m).isSome = true)
    (hpre : n.path <+: m.path) : m.path = n.path := by
  have hsome : (zone.owner n).isSome = true := by rw [hn]; rfl
  have hwithin := h.owner_within htyped hsome
  rw [h.owner_isSome] at hm hsome
  obtain ⟨group, hgroup⟩ := Option.isSome_iff_exists.mp hm
  obtain ⟨above, habove⟩ := Option.isSome_iff_exists.mp hsome
  obtain ⟨owner, hhead, hkey, -, -⟩ := h.group_owner htyped (mem_of_lookup hgroup)
  have hpath : m.path = owner.path := canonicalKey_inj.mp hkey
  have hcheck := forM_ok h.belowDnames _ (mem_of_lookup hgroup)
  obtain ⟨first, rest, hfirst⟩ : ∃ first rest, group = first :: rest :=
    exists_cons_of_ne_nil (by rintro rfl; simp at hhead)
  simp only [hfirst, head?_cons, Option.map_some, Option.some.injEq] at hhead hcheck
  replace hcheck := failIf_ok hcheck
  rw [hhead, belowDname, any_eq_false] at hcheck
  by_contra hne
  have hlow := hwithin.length_le
  have hhigh : n.numLabels < owner.numLabels := by
    rw [← path_length, ← path_length, ← hpath]
    refine lt_of_le_of_ne hpre.length_le fun hlen => hne (hpre.eq_of_length hlen).symm
  rw [path_length, path_length] at hlow
  refine hcheck (n.numLabels - origin.numLabels) (mem_range.mpr (by omega)) ?_
  have hsuffix : (owner.suffix (origin.numLabels + (n.numLabels - origin.numLabels))).canonicalKey =
      n.canonicalKey := by
    rw [canonicalKey_inj, suffix_path, ← hpath, Nat.add_sub_cancel' hlow, ← path_length]
    exact (prefix_iff_eq_take.mp hpre).symm
  rw [hsuffix, habove]
  exact (h.hasType_iff htyped habove _).mpr ⟨stored, hn, hdname⟩

lemma Built.noCut (hnone : zone.hasDelegations = false) {stored : List StoredRecord}
    (hn : zone.owner n = some stored) (hapex : n.path ≠ origin.path) :
    ∀ r ∈ stored, r.rtype ≠ .NS := by
  intro r hr hns
  have hsome : (zone.owner n).isSome = true := by rw [hn]; rfl
  rw [h.owner_isSome] at hsome
  obtain ⟨group, hgroup⟩ := Option.isSome_iff_exists.mp hsome
  rw [h.delegations_eq, any_eq_false] at hnone
  refine hnone _ (mem_of_lookup hgroup) ?_
  rw [Bool.and_eq_true, decide_eq_true_eq]
  refine ⟨fun hkey => hapex (canonicalKey_inj.mp hkey), ?_⟩
  exact (h.hasType_iff htyped hgroup _).mpr ⟨stored, hn, r, hr, hns⟩

/-- What `from_flat_records` builds is a loaded zone. -/
theorem Built.loaded : zone.Loaded := by
  have horigin := h.origin_eq
  subst horigin
  refine ⟨?_, ?_, ?_, fun n hn => h.node_iff htyped hn,
    fun hnone _ _ hn hapex => h.noCut htyped hnone hn hapex,
    fun hn hr hdname hm hpre => h.dnameAlone htyped hn ⟨_, hr, hdname⟩ hm hpre,
    h.wildcardFlag htyped, h.dnameFlag htyped, ?_⟩
  · rintro ⟨key, stored⟩ hentry
    have hnodup : (zone.records.map Prod.fst).Nodup := by
      rw [h.records_eq, storeOwners_keys]
      exact keys_nodup records
    have hlookup := lookup_of_mem hnodup hentry
    rw [h.records_eq] at hlookup
    obtain ⟨others, hothers⟩ := lookup_storeOwners (Zone.prepare records) 0 key
    rw [hothers, Option.map_eq_some_iff] at hlookup
    obtain ⟨group, hgroup, rfl⟩ := hlookup
    obtain ⟨owner, -, hkey, hwithin, -⟩ := h.group_owner htyped (mem_of_lookup hgroup)
    obtain ⟨hbase, -⟩ := (lookup_prepare htyped key).1 group hgroup
    refine ⟨owner, hkey, hwithin, .store hbase.nonempty (fun r hr => ?_) hbase.typed
      hbase.sorted others⟩
    exact canonicalKey_inj.mp ((hbase.key r hr).trans hkey)
  · rw [h.records_eq, storeOwners_keys]
    exact keys_nodup records
  · obtain ⟨group, hgroup, -⟩ := h.apex
    rw [h.owner_isSome, hgroup]
    rfl
  · intro hsimple
    rw [h.simple_eq, Bool.and_eq_true, Bool.not_eq_true'] at hsimple
    exact ⟨hsimple.1, isEmpty_iff.mp hsimple.2⟩

end

end

end Built

end OnetDns.Authority
