import OnetDns.Authority.Loaded

/-!
# What the code sees at a name

The loops of the code over the names above a name, and the walk of the reference down to
it, in a loaded zone. `Seen` says what each of them finds in each case.
-/
namespace OnetDns.Authority
open Dns Dnssec List Option Nat Name OrderedMap Reference

lemma lowerName_congr {a b : Name} (h : a.path = b.path) : lowerName a = lowerName b := by
  have hlabels := (eqIgnoreCase_iff a b).mp ((eqIgnoreCase_path a b).mpr h)
  unfold lowerName
  congr 1

@[simp] lemma materialize_rtype (owner : Name) (r : StoredRecord) :
    (r.materialize owner).rtype = r.rtype := by
  cases r <;> rfl

variable {records : List StoredRecord}

lemma Owned.materialize_path {owner : Name}
    (h : Owned owner records) {name : Name} (hname : name.path = owner.path) :
    ∀ r ∈ records, (r.materialize name).name.path = owner.path := by
  intro r hr
  cases r with
  | a ttl address => exact hname
  | aaaa ttl address => exact hname
  | other payload record => exact h.name hr

lemma Owned.view_materialize {owner : Name} (h : Owned owner records) {a b : Name}
    (ha : a.path = owner.path) {r : StoredRecord} (hr : r ∈ records) :
    view (r.materialize a) = view { r.materialize b with name := a } := by
  cases r with
  | a ttl address => rfl
  | aaaa ttl address => rfl
  | other payload record =>
    simp only [view, StoredRecord.materialize]
    rw [h.name hr, ha]

variable {k : ℕ}

namespace Reference

variable {apex : Path} {content : List Record} {q : Path}

/-- One step of the walk, when `k` labels are matched. -/
theorem descend_at (hk : k ≤ q.length) : descend apex content q (q.length - k) =
      if cutAt apex content (q.take k) then .cut k
      else if k = q.length then .node (node content q)
      else if present content (q.take (k + 1)) then descend apex content q (q.length - (k + 1))
      else beside content (q.take k) := by
  by_cases hfull : k = q.length
  · subst hfull
    rw [Nat.sub_self, descend, take_length, if_pos rfl]
  obtain ⟨left, hleft⟩ : ∃ left, q.length - k = left + 1 := ⟨q.length - k - 1, by omega⟩
  have hhere : q.length - (left + 1) = k := by omega
  have hnext : q.length - (k + 1) = left := by omega
  rw [hleft, hnext, descend, if_neg hfull, hhere, show q.length - left = k + 1 by omega,
    length_take, min_eq_left hk]

lemma descend_cut {j : ℕ} (hkj : k ≤ j) (hj : j ≤ q.length)
    (hcut : cutAt apex content (q.take j) = true)
    (hnone : ∀ i, k ≤ i → i < j → cutAt apex content (q.take i) = false)
    (hpresent : ∀ i, i ≤ j → present content (q.take i) = true) :
    descend apex content q (q.length - k) = .cut j := by
  induction hd : j - k generalizing k with
  | zero =>
    obtain rfl : k = j := by omega
    rw [descend_at hj, if_pos hcut]
  | succ d ih =>
    rw [descend_at (by omega), hnone k le_rfl (by omega), if_neg (by decide), if_neg (by omega),
      if_pos (hpresent (k + 1) (by omega))]
    exact ih (by omega) (fun i hi hi' => hnone i (by omega) hi') (by omega)

lemma descend_node (hk : k ≤ q.length)
    (hnone : ∀ i, k ≤ i → i ≤ q.length → cutAt apex content (q.take i) = false)
    (hpresent : ∀ i, i ≤ q.length → present content (q.take i) = true) :
    descend apex content q (q.length - k) = .node (node content q) := by
  induction hd : q.length - k generalizing k with
  | zero =>
    obtain rfl : k = q.length := by omega
    have hat : descend apex content q (q.length - q.length) = _ := descend_at le_rfl
    rw [hnone _ le_rfl le_rfl, if_pos rfl, Nat.sub_self] at hat
    exact hat
  | succ d ih =>
    rw [← hd, descend_at hk, hnone k le_rfl hk, if_neg (by decide), if_neg (by omega),
      if_pos (hpresent (k + 1) (by omega)), show q.length - (k + 1) = d by omega]
    exact ih (k := k + 1) (by omega) (fun i hi hi' => hnone i (by omega) hi') (by omega)

lemma descend_beside {m : ℕ} (hkm : k ≤ m) (hm : m < q.length)
    (hnone : ∀ i, k ≤ i → i ≤ m → cutAt apex content (q.take i) = false)
    (hpresent : ∀ i, i ≤ m → present content (q.take i) = true)
    (habsent : present content (q.take (m + 1)) = false) :
    descend apex content q (q.length - k) = beside content (q.take m) := by
  induction hd : m - k generalizing k with
  | zero =>
    obtain rfl : k = m := by omega
    rw [descend_at (by omega), hnone k le_rfl le_rfl, if_neg (by decide), if_neg (by omega),
      habsent, if_neg (by decide)]
  | succ d ih =>
    rw [descend_at (by omega), hnone k le_rfl hkm, if_neg (by decide), if_neg (by omega),
      if_pos (hpresent (k + 1) (by omega))]
    exact ih (by omega) (fun i hi hi' => hnone i (by omega) hi') (by omega)

end Reference

namespace Zone.Loaded

variable {zone : Zone} {n : Name}

lemma owned_of_owner (hz : zone.Loaded)
    (h : zone.owner n = some records) : zone.origin.path <+: n.path ∧ Owned n records := by
  obtain ⟨owner, hkey, hwithin, howned⟩ := hz.owned _ (mem_of_lookup h)
  have hpath : n.path = owner.path := canonicalKey_inj.mp hkey
  exact ⟨hpath ▸ hwithin, howned.nonempty, howned.whole, fun hr => (howned.name hr).trans hpath.symm,
    howned.sorted⟩

lemma owner_congr (zone : Zone) {a b : Name} (h : a.path = b.path) :
    zone.owner a = zone.owner b := by
  rw [owner, owner, canonicalKey_inj.mpr h]

/-- The records at a name are those of its owner. -/
theorem node_eq (hz : zone.Loaded) (n : Name) :
    Reference.node zone.allRecords n.path =
      ((zone.owner n).getD []).map (·.materialize (lowerName n)) := by
  have hentries : ∀ entries : OwnerIndex StoredRecord,
      (∀ entry ∈ entries, ∃ owner : Name, entry.1 = owner.canonicalKey ∧
        zone.origin.path <+: owner.path ∧ Owned owner entry.2) →
      (entries.map Prod.fst).Nodup →
      (entries.flatMap fun entry => (Name.fromUncompressedWire entry.1).elim []
        fun owner => entry.2.map (·.materialize owner)).filter (fun r => r.name.path = n.path) =
      ((entries.lookup n.canonicalKey).getD []).map (·.materialize (lowerName n)) := by
    intro entries howned hnodup
    induction entries with
    | nil => rfl
    | cons entry entries ih =>
      obtain ⟨key, records⟩ := entry
      obtain ⟨owner, hkey, -, hrecords⟩ := howned _ mem_cons_self
      subst hkey
      rw [map_cons, nodup_cons] at hnodup
      have htail := ih (fun entry h => howned entry (mem_cons_of_mem _ h)) hnodup.2
      rw [flatMap_cons, filter_append, htail, lookup_cons_if]
      simp only [fromUncompressedWire_canonicalKey, elim_some]
      have hpaths := hrecords.materialize_path (lowerName_path owner)
      by_cases hn : n.canonicalKey = owner.canonicalKey
      · have hpath := canonicalKey_inj.mp hn
        have hnone : entries.lookup n.canonicalKey = none := by
          rw [lookup_eq_none]
          intro v hv
          exact hnodup.1 (mem_map.mpr ⟨_, hv, hn⟩)
        rw [if_pos hn, hnone, getD_some, getD_none, map_nil, append_nil,
          lowerName_congr hpath, filter_eq_self]
        intro r hr
        obtain ⟨s, hs, rfl⟩ := mem_map.mp hr
        rw [decide_eq_true_eq, hpaths s hs, hpath]
      · rw [if_neg hn]
        have hempty : (records.map (·.materialize (lowerName owner))).filter
            (fun r => r.name.path = n.path) = [] := by
          rw [filter_eq_nil_iff]
          intro r hr
          obtain ⟨s, hs, rfl⟩ := mem_map.mp hr
          rw [decide_eq_true_eq, hpaths s hs]
          exact fun heq => hn (canonicalKey_inj.mpr heq.symm)
        rw [hempty, nil_append]
  have hall : zone.allRecords = zone.records.flatMap fun entry =>
      (Name.fromUncompressedWire entry.1).elim [] fun owner => entry.2.map (·.materialize owner) := by
    unfold allRecords
    congr 1
    funext entry
    cases Name.fromUncompressedWire entry.1 <;> rfl
  rw [Reference.node, hall]
  exact hentries zone.records hz.owned hz.nodup

lemma mem_allRecords (hz : zone.Loaded) {r : Record} :
    r ∈ zone.allRecords ↔ ∃ (n : Name) (records : List StoredRecord),
      zone.owner n = some records ∧ r ∈ records.map (·.materialize (lowerName n)) := by
  rw [allRecords, mem_flatMap]
  constructor
  · rintro ⟨⟨key, records⟩, hentry, hr⟩
    obtain ⟨owner, rfl, -, -⟩ := hz.owned _ hentry
    rw [fromUncompressedWire_canonicalKey] at hr
    exact ⟨owner, records, lookup_of_mem hz.nodup hentry, hr⟩
  · rintro ⟨n, records, howner, hr⟩
    refine ⟨_, mem_of_lookup howner, ?_⟩
    rw [fromUncompressedWire_canonicalKey]
    exact hr

lemma present_iff (hz : zone.Loaded) (p : Path) :
    present zone.allRecords p = true ↔ ∃ m : Name, (zone.owner m).isSome = true ∧ p <+: m.path := by
  rw [present, List.any_eq_true]
  simp only [ isPrefixOf_iff_prefix]
  constructor
  · rintro ⟨r, hr, hpre⟩
    obtain ⟨n, records, howner, hmem⟩ := hz.mem_allRecords.mp hr
    obtain ⟨s, hs, rfl⟩ := mem_map.mp hmem
    refine ⟨n, by rw [howner]; rfl, ?_⟩
    rwa [← (hz.owned_of_owner howner).2.materialize_path (lowerName_path n) s hs]
  rintro ⟨m, hm, hpre⟩
  obtain ⟨records, howner⟩ := isSome_iff_exists.mp hm
  have howned := (hz.owned_of_owner howner).2
  obtain ⟨s, hs⟩ := exists_mem_of_ne_nil _ howned.nonempty
  refine ⟨s.materialize (lowerName m),
    hz.mem_allRecords.mpr ⟨m, records, howner, mem_map_of_mem hs⟩, ?_⟩
  rw [howned.materialize_path (lowerName_path m) s hs]
  exact hpre

/-- Whether a name owns a delegation, or is the apex. -/
def hasNs (zone : Zone) (n : Name) : Bool := (zone.owner n).any (·.any fun r => r.rtype = .NS)

variable {left m : ℕ} {q : Name}

lemma delegationLoop_eq (zone : Zone) (q : Name)
    (hleft : zone.origin.numLabels + left ≤ q.numLabels) (found : Option ℕ) :
    zone.delegationLoop left (q.suffix (zone.origin.numLabels + left)).canonicalKey found =
      ((List.range' (zone.origin.numLabels + 1) left).find? fun k =>
        hasNs zone (q.suffix k)).or found := by
  induction left generalizing found with
  | zero => simp [delegationLoop]
  | succ left ih =>
    have hparent := q.parentCanonicalKey_suffix
      (by omega : zone.origin.numLabels + left < q.numLabels)
    rw [delegationLoop, ← add_assoc, hparent]
    simp only
    rw [ih (by omega), range'_concat, find?_append, Option.or_assoc]
    congr 1
    rw [one_mul, add_right_comm, find?_singleton]
    change (if hasNs zone (q.suffix (zone.origin.numLabels + 1 + left)) then _ else _) = _
    split <;> rfl

lemma not_hasNs_of_no_delegations (hz : zone.Loaded) (hnone : zone.hasDelegations = false) (hn : n.path ≠ zone.origin.path) : hasNs zone n = false := by
  rw [hasNs]
  cases howner : zone.owner n with
  | none => rfl
  | some records =>
    rw [any_some, List.any_eq_false]
    intro r hr
    rw [decide_eq_true_eq]
    exact hz.noCut hnone howner hn r hr

lemma suffix_path_ne (q : Name) {origin : Name} (hlow : origin.numLabels < k)
    (hhigh : k ≤ q.numLabels) : (q.suffix k).path ≠ origin.path := by
  intro heq
  have hlen := congrArg length heq
  rw [path_length, path_length, suffix_numLabels] at hlen
  omega

/-- `delegation_for` finds the highest cut. -/
theorem delegationFor_eq (hz : zone.Loaded) (hq : zone.origin.path <+: q.path) :
    zone.delegationFor q = ((List.range' (zone.origin.numLabels + 1)
      (q.numLabels - zone.origin.numLabels)).find? fun k => hasNs zone (q.suffix k)).map
        q.suffix := by
  have hle := hq.length_le
  rw [path_length, path_length] at hle
  have hloop := delegationLoop_eq zone q
    (by omega : zone.origin.numLabels + (q.numLabels - zone.origin.numLabels) ≤ q.numLabels) none
  rw [Nat.add_sub_cancel' hle, suffix_numLabels_self, or_none] at hloop
  rw [delegationFor, hloop]
  cases hdelegations : zone.hasDelegations with
  | true => rfl
  | false =>
    rw [if_neg (by decide), eq_comm, map_eq_none_iff, find?_range'_eq_none]
    intro k hlow hhigh
    rw [hz.not_hasNs_of_no_delegations hdelegations
      (suffix_path_ne q (by omega : zone.origin.numLabels < k) (by omega))]
    rfl

lemma encloserLoop_eq (hz : zone.Loaded) (hq : zone.origin.path <+: q.path)
    (hlow : zone.origin.numLabels ≤ k) (hhigh : k ≤ q.numLabels) :
    ∃ m, zone.encloserLoop k (q.suffix k).canonicalKey = some m ∧ zone.origin.numLabels ≤ m ∧
      m ≤ k ∧ zone.nodeExists (q.suffix m) = true ∧
        ∀ i, m < i → i ≤ k → zone.nodeExists (q.suffix i) = false := by
  induction k, hlow using le_induction with
  | base =>
    have hpath : (q.suffix zone.origin.numLabels).path = zone.origin.path := by
      rw [suffix_path, ← path_length]
      exact (prefix_iff_eq_take.mp hq).symm
    have hexists : zone.nodeExists (q.suffix zone.origin.numLabels) = true := by
      rw [hz.node_iff _ (by rw [hpath])]
      exact ⟨zone.origin, hz.apex, by rw [hpath]⟩
    refine ⟨_, ?_, le_refl _, le_refl _, hexists, fun i h h' => absurd h' (by omega)⟩
    rw [encloserLoop.eq_def]
    exact if_pos hexists
  | succ k hlow ih =>
    by_cases hexists : zone.nodeExists (q.suffix (k + 1)) = true
    · refine ⟨k + 1, ?_, by omega, le_refl _, hexists, fun i h h' => absurd h' (by omega)⟩
      rw [encloserLoop.eq_def]
      exact if_pos hexists
    obtain ⟨m, hloop, hm, hle, hnode, hlast⟩ := ih (by omega)
    refine ⟨m, ?_, hm, by omega, hnode, ?_⟩
    · have hkey : zone.keyExists (q.suffix (k + 1)).canonicalKey = false :=
        Bool.not_eq_true _ ▸ hexists
      have hne : ¬k + 1 = zone.origin.numLabels := by omega
      rw [encloserLoop.eq_def]
      simp only [hkey, hne, q.parentCanonicalKey_suffix (by omega : k < q.numLabels)]
      exact hloop
    · intro i hi hi'
      rcases lt_or_eq_of_le hi' with hlt | rfl
      · exact hlast i hi (by omega)
      · exact Bool.not_eq_true _ ▸ hexists

lemma dnameLoop_none (zone : Zone) (q : Name) (hleft : zone.origin.numLabels + left ≤ q.numLabels)
    (hnone : ∀ k, zone.origin.numLabels ≤ k → k < zone.origin.numLabels + left →
      (zone.owner (q.suffix k)).bind Zone.dnameOf = none) :
    zone.dnameLoop left (q.suffix (zone.origin.numLabels + left)).canonicalKey = none := by
  induction left with
  | zero => rfl
  | succ left ih =>
    have hhere := hnone (zone.origin.numLabels + left) (by omega) (by omega)
    rw [dnameLoop, ← add_assoc, q.parentCanonicalKey_suffix (by omega)]
    simp only
    rw [owner] at hhere
    rw [hhere]
    exact ih (by omega) fun k hlow hhigh => hnone k hlow (by omega)

lemma dnameLoop_some (zone : Zone) (q : Name) {record : Record} {target : Name}
    (hleft : zone.origin.numLabels + left ≤ q.numLabels) (hlow : zone.origin.numLabels ≤ k)
    (hhigh : k < zone.origin.numLabels + left)
    (hk : (zone.owner (q.suffix k)).bind Zone.dnameOf = some (record, target))
    (hnone : ∀ i, k < i → i < zone.origin.numLabels + left → (zone.owner (q.suffix i)).bind
      Zone.dnameOf = none) :
    zone.dnameLoop left (q.suffix (zone.origin.numLabels + left)).canonicalKey =
      some (record, target, k) := by
  induction left with
  | zero => omega
  | succ left ih =>
    rw [dnameLoop, ← add_assoc, q.parentCanonicalKey_suffix (by omega)]
    simp only
    by_cases heq : k = zone.origin.numLabels + left
    · subst heq
      rw [owner] at hk
      rw [hk]
    · have hhere := hnone (zone.origin.numLabels + left) (by omega) (by omega)
      rw [owner] at hhere
      rw [hhere]
      exact ih (by omega) (by omega) fun i hi hi' => hnone i hi (by omega)

lemma dnameLoop_top_none (hle : zone.origin.numLabels ≤ q.numLabels)
    (hnone : ∀ k, zone.origin.numLabels ≤ k → k < q.numLabels → (zone.owner (q.suffix k)).bind
      Zone.dnameOf = none) :
    zone.dnameLoop (q.numLabels - zone.origin.numLabels) q.canonicalKey = none := by
  have hloop := dnameLoop_none zone q
    (by omega : zone.origin.numLabels + (q.numLabels - zone.origin.numLabels) ≤ q.numLabels)
  rw [Nat.add_sub_cancel' hle, suffix_numLabels_self] at hloop
  exact hloop hnone

lemma dnameLoop_top_some {record : Record} {target : Name}
    (hlow : zone.origin.numLabels ≤ k) (hhigh : k < q.numLabels)
    (hk : (zone.owner (q.suffix k)).bind Zone.dnameOf = some (record, target))
    (hnone : ∀ i, k < i → i < q.numLabels → (zone.owner (q.suffix i)).bind Zone.dnameOf = none) :
    zone.dnameLoop (q.numLabels - zone.origin.numLabels) q.canonicalKey =
      some (record, target, k) := by
  have hloop := dnameLoop_some zone q
    (by omega : zone.origin.numLabels + (q.numLabels - zone.origin.numLabels) ≤ q.numLabels)
    hlow (by omega) hk
  rw [Nat.add_sub_cancel' (by omega), suffix_numLabels_self] at hloop
  exact hloop hnone

/-- The first record of a type that is stored whole. -/
def firstOf (t : RecordType) (records : List StoredRecord) : Option Record :=
  records.findSome? fun r => if r.rtype = t then r.full else none

/-- What the code sees at a name for which the walk of the reference finds something. -/
inductive Seen (zone : Zone) (q : Name) : Reference.Found → Prop
  | cut {k : ℕ} (hdeleg : zone.delegationFor q = some (q.suffix k)) (hk : k ≤ q.numLabels)
      (hcut : hasNs zone (q.suffix k) = true) : Seen zone q (.cut k)
  | node {records : List StoredRecord} (hdeleg : zone.delegationFor q = none)
      (howner : zone.owner q = some records) :
      Seen zone q (.node (records.map (·.materialize (lowerName q))))
  | empty (hdeleg : zone.delegationFor q = none) (howner : zone.owner q = none)
      (hdname : ∀ qtype, zone.dname q qtype = none) (hnode : zone.nodeExists q = true) :
      Seen zone q (.node [])
  | rename {k : ℕ} {records : List StoredRecord} {r : Record}
      (hdeleg : zone.delegationFor q = none) (howner : zone.owner q = none)
      (hnode : zone.nodeExists q = false) (hk : k < q.numLabels)
      (habove : zone.owner (q.suffix k) = some records) (hr : firstOf .DNAME records = some r)
      (hloop : zone.dnameLoop (q.numLabels - zone.origin.numLabels) q.canonicalKey =
        (dnameOf records).map fun (r, target) => (r, target, k))
      (hwild : zone.wildcardRecords q = none) : Seen zone q (.rename r k)
  | wildcard {closest source : Name} {records : List StoredRecord}
      (hdeleg : zone.delegationFor q = none) (howner : zone.owner q = none)
      (hnode : zone.nodeExists q = false) (hdname : ∀ qtype, zone.dname q qtype = none)
      (hclosest : zone.closestEncloser q = some closest) (hne : closest.eqIgnoreCase q = false)
      (hsource : prependWildcard closest = some source)
      (hrecords : zone.owner source = some records) :
      Seen zone q (.wildcard (records.map (·.materialize (lowerName source))))
  | hollow (hdeleg : zone.delegationFor q = none) (howner : zone.owner q = none)
      (hnode : zone.nodeExists q = false) (hdname : ∀ qtype, zone.dname q qtype = none)
      (hwild : zone.wildcardRecords q = none) : Seen zone q (.wildcard [])
  | missing (hdeleg : zone.delegationFor q = none) (howner : zone.owner q = none)
      (hnode : zone.nodeExists q = false) (hdname : ∀ qtype, zone.dname q qtype = none)
      (hwild : zone.wildcardRecords q = none)
      (habsent : Reference.present zone.allRecords q.path = false) : Seen zone q .missing

lemma cutAt_eq (hz : zone.Loaded) (n : Name) :
    cutAt zone.origin.path zone.allRecords n.path =
      (decide (n.path ≠ zone.origin.path) && hasNs zone n) := by
  rw [cutAt, hz.node_eq]
  rw [hasNs]
  cases zone.owner n with
  | none => rfl
  | some records => simp [Function.comp_def]

lemma present_eq_nodeExists (hz : zone.Loaded) (hn : zone.origin.path <+: n.path) :
    present zone.allRecords n.path = zone.nodeExists n := by
  rw [Bool.eq_iff_iff, hz.present_iff, hz.node_iff n hn]

lemma suffix_within (hq : zone.origin.path <+: q.path)
    (hk : zone.origin.numLabels ≤ k) : zone.origin.path <+: (q.suffix k).path := by
  rw [suffix_path]
  rw [prefix_iff_eq_take] at hq ⊢
  rw [take_take, path_length, min_eq_left hk, ← path_length]
  exact hq

lemma present_mono {content : List Record} {p p' : Path} (h : p <+: p')
    (hp' : present content p' = true) : present content p = true := by
  simp only [present, List.any_eq_true, isPrefixOf_iff_prefix] at hp' ⊢
  obtain ⟨r, hr, hpre⟩ := hp'
  exact ⟨r, hr, h.trans hpre⟩

lemma find?_firstOf {t : RecordType} (ht : t ≠ .A ∧ t ≠ .AAAA) (owner : Name)
    (records : List StoredRecord) :
    (records.map (·.materialize owner)).find? (fun r => r.rtype = t) = firstOf t records := by
  induction records with
  | nil => rfl
  | cons r records ih =>
    rw [map_cons, find?_cons, firstOf, findSome?_cons, materialize_rtype]
    by_cases hr : r.rtype = t
    · cases r with
      | a ttl address => exact absurd hr.symm ht.1
      | aaaa ttl address => exact absurd hr.symm ht.2
      | other payload record => simp [hr, StoredRecord.full, StoredRecord.materialize]
    · simp only [hr]
      exact ih

lemma firstOf_eq_none {t : RecordType} (ht : t ≠ .A ∧ t ≠ .AAAA) :
    firstOf t records = none ↔ ∀ r ∈ records, r.rtype ≠ t := by
  rw [← find?_firstOf ht .root]
  simp

lemma dnameOf_none (h : firstOf .DNAME records = none) : dnameOf records = none := by
  rw [firstOf] at h
  rw [dnameOf, h]

lemma prependWildcard_suffix (q : Name) (hm : m < q.numLabels) :
    ∃ source, prependWildcard (q.suffix m) = some source ∧
      source.path = (q.suffix m).path ++ [star] := by
  obtain ⟨label, hlabels⟩ := q.suffix_labels_succ hm
  have hwire := (q.suffix (m + 1)).wire_len
  have hlen := (q.suffix (m + 1)).label_len label (by rw [hlabels]; exact mem_cons_self)
  rw [hlabels, wireLen_cons] at hwire
  have hstar : ∀ l ∈ [42] :: (q.suffix m).labels, 1 ≤ l.length ∧ l.length ≤ 63 := by
    intro l hl
    rcases mem_cons.mp hl with rfl | hl
    · decide
    · exact (q.suffix m).label_len l hl
  have hshort : wireLen ([42] :: (q.suffix m).labels) ≤ maxNameLen := by
    rw [wireLen_cons, length_singleton]
    omega
  refine ⟨⟨_, hstar, hshort⟩, ?_, ?_⟩
  · rw [prependWildcard, Name.fromLabels, dif_pos hstar, dif_pos hshort]
    rfl
  · rw [Name.path, map_cons, reverse_cons]
    rfl

/-- Nothing that is there lies below a DNAME. -/
theorem no_dname_above (hz : zone.Loaded) (hkm : k < m) (hm : m ≤ q.numLabels)
    (hwithin : zone.origin.path <+: (q.suffix m).path) (hnode : zone.nodeExists (q.suffix m) = true)
    : (zone.owner (q.suffix k)).bind dnameOf = none := by
  cases howner : zone.owner (q.suffix k) with
  | none => rfl
  | some records =>
    refine dnameOf_none ((firstOf_eq_none (by decide)).mpr fun r hr hdname => ?_)
    obtain ⟨n, hn, hpre⟩ := (hz.node_iff _ hwithin).mp hnode
    have habove : (q.suffix k).path <+: (q.suffix m).path := by
      rw [suffix_path, suffix_path]
      exact take_prefix_take_left (by omega)
    have heq := hz.dnameAlone howner hr hdname hn (habove.trans hpre)
    have hlen := hpre.length_le
    rw [heq, path_length, path_length, suffix_numLabels, suffix_numLabels] at hlen
    omega

lemma dname_none (h : zone.dnameLoop (q.numLabels - zone.origin.numLabels) q.canonicalKey = none)
    (qtype : RecordType) : zone.dname q qtype = none := by
  rw [dname, h]
  rfl

lemma owner_none_of_not_exists (h : zone.nodeExists n = false) : zone.owner n = none := by
  rw [nodeExists, keyExists, Bool.or_eq_false_iff] at h
  exact not_isSome_iff_eq_none.mp (by rw [owner, h.1]; decide)

lemma wildcardRecords_eq {closest source : Name}
    (hclosest : zone.closestEncloser q = some closest) (hne : closest.eqIgnoreCase q = false)
    (hsource : prependWildcard closest = some source) :
    zone.wildcardRecords q = zone.owner source := by
  rw [wildcardRecords, hclosest]
  simp only
  rw [hne, if_neg (by decide), hsource, bind_some]

/-- Below the highest name that is there, nothing is: what stands beside a missing name. -/
theorem seen_beside (hz : zone.Loaded) (hq : zone.origin.path <+: q.path)
    (hdeleg : zone.delegationFor q = none) (hmissing : zone.nodeExists q = false)
    (hlow : zone.origin.numLabels ≤ m) (hhigh : m < q.numLabels)
    (hloop : zone.encloserLoop q.numLabels q.canonicalKey = some m)
    (hnode : zone.nodeExists (q.suffix m) = true)
    (hlast : ∀ i, m < i → i ≤ q.numLabels → zone.nodeExists (q.suffix i) = false) :
    Seen zone q (beside zone.allRecords (q.suffix m).path) := by
  have howner := owner_none_of_not_exists hmissing
  have hclosest : zone.closestEncloser q = some (q.suffix m) := by
    rw [closestEncloser, hloop, map_some]
  have hne : (q.suffix m).eqIgnoreCase q = false := by
    rw [← Bool.not_eq_true, eqIgnoreCase_path]
    intro heq
    have hlen := congrArg length heq
    rw [path_length, path_length, suffix_numLabels] at hlen
    omega
  obtain ⟨source, hsource, hpath⟩ := prependWildcard_suffix q hhigh
  have hwild := wildcardRecords_eq hclosest hne hsource
  have habove : ∀ k, k < m → (zone.owner (q.suffix k)).bind dnameOf = none := fun k hk =>
    hz.no_dname_above hk hhigh.le (suffix_within hq hlow) hnode
  have hbelow : ∀ k, m < k → k < q.numLabels → (zone.owner (q.suffix k)).bind dnameOf = none := by
    intro k hk hk'
    rw [owner_none_of_not_exists (hlast k hk hk'.le)]
    rfl
  have hnodes := hz.node_eq (q.suffix m)
  have hdnames : (Reference.node zone.allRecords (q.suffix m).path).find?
      (fun r => r.rtype = .DNAME) = (zone.owner (q.suffix m)).bind (firstOf .DNAME) := by
    rw [hnodes]
    cases zone.owner (q.suffix m) with
    | none => rfl
    | some records => exact find?_firstOf (by decide) _ records
  have hlength : (q.suffix m).path.length = m := by
    rw [path_length, suffix_numLabels, min_eq_left hhigh.le]
  rw [beside, hdnames]
  cases hat : (zone.owner (q.suffix m)).bind (firstOf .DNAME) with
  | some r =>
    obtain ⟨records, hrecords, hr⟩ := bind_eq_some_iff.mp hat
    have hdname : ∃ s ∈ records, s.rtype = .DNAME := by
      by_contra hnone
      have hnil := (firstOf_eq_none (t := .DNAME) (by decide)).mpr fun s hs hs' =>
        hnone ⟨s, hs, hs'⟩
      rw [hnil] at hr
      exact absurd hr (by simp)
    obtain ⟨s, hs, hs'⟩ := hdname
    have hnosource : zone.owner source = none := by
      by_contra hsome
      have heq := hz.dnameAlone hrecords hs hs' (isSome_iff_ne_none.mpr hsome)
        (by rw [hpath]; exact prefix_append _ _)
      rw [hpath] at heq
      exact absurd (congrArg length heq) (by simp)
    simp only [hlength]
    refine .rename hdeleg howner hmissing hhigh hrecords hr ?_ (hwild.trans hnosource)
    have hbind : (zone.owner (q.suffix m)).bind dnameOf = dnameOf records := by
      rw [hrecords, bind_some]
    cases hof : dnameOf records with
    | some found => exact dnameLoop_top_some hlow hhigh (hbind.trans hof) hbelow
    | none =>
      refine dnameLoop_top_none (by omega) fun k _ hk => ?_
      rcases lt_trichotomy k m with hlt | rfl | hgt
      · exact habove k hlt
      · exact hbind.trans hof
      · exact hbelow k hgt hk
  | none =>
    have hdname : ∀ qtype, zone.dname q qtype = none := by
      refine dname_none (dnameLoop_top_none (by omega) fun k _ hk => ?_)
      rcases lt_trichotomy k m with hlt | rfl | hgt
      · exact habove k hlt
      · cases hrecords : zone.owner (q.suffix k) with
        | none => rfl
        | some records =>
          rw [hrecords] at hat
          exact dnameOf_none hat
      · exact hbelow k hgt hk
    simp only
    rw [← hpath, hz.node_eq source]
    cases hrecords : zone.owner source with
    | some records =>
      have hpresent : present zone.allRecords source.path = true :=
        (hz.present_iff _).mpr ⟨source, by rw [hrecords]; rfl, prefix_refl _⟩
      rw [if_pos hpresent]
      exact .wildcard hdeleg howner hmissing hdname hclosest hne hsource hrecords
    | none =>
      split
      · exact .hollow hdeleg howner hmissing hdname (hwild.trans hrecords)
      · refine .missing hdeleg howner hmissing hdname (hwild.trans hrecords) ?_
        rw [hz.present_eq_nodeExists hq]
        exact hmissing

/-- In a loaded zone the code sees at every name what the reference finds there. -/
theorem seen (hz : zone.Loaded) (hq : zone.origin.path <+: q.path) :
    Seen zone q (lookup zone.origin.path zone.allRecords q.path) := by
  have hle := hq.length_le
  rw [path_length, path_length] at hle
  have htake : ∀ k, q.path.take k = (q.suffix k).path := fun k => (q.suffix_path k).symm
  have hapex : cutAt zone.origin.path zone.allRecords
      (q.suffix zone.origin.numLabels).path = false := by
    have hpath : (q.suffix zone.origin.numLabels).path = zone.origin.path := by
      rw [← htake, ← path_length]
      exact (prefix_iff_eq_take.mp hq).symm
    rw [cutAt, hpath]
    simp
  have hdelegation := hz.delegationFor_eq hq
  rw [Reference.lookup, path_length, path_length, ← q.path_length]
  cases hfind : (range' (zone.origin.numLabels + 1)
      (q.numLabels - zone.origin.numLabels)).find? fun k => hasNs zone (q.suffix k) with
  | some j =>
    rw [hfind] at hdelegation
    rw [find?_range'_eq_some, mem_range'_1] at hfind
    obtain ⟨hns, ⟨hlow, hhigh⟩, hfirst⟩ := hfind
    have howns : (zone.owner (q.suffix j)).isSome = true := by
      exact isSome_of_any hns
    rw [descend_cut (by omega : zone.origin.numLabels ≤ j) (by rw [path_length]; omega)]
    · exact .cut hdelegation (by omega) hns
    · rw [htake, hz.cutAt_eq, hns, Bool.and_true, decide_eq_true_eq]
      exact suffix_path_ne q (by omega) (by omega)
    · intro i hi hij
      rw [htake]
      rcases eq_or_lt_of_le hi with rfl | hlt
      · exact hapex
      · have hnot := hfirst i (by omega) hij
        rw [Bool.not_eq_eq_eq_not, Bool.not_true] at hnot
        rw [hz.cutAt_eq, hnot, Bool.and_false]
    · intro i hi
      refine (hz.present_iff _).mpr ⟨q.suffix j, howns, ?_⟩
      rw [suffix_path]
      exact take_prefix_take_left hi
  | none =>
    rw [hfind] at hdelegation
    rw [find?_range'_eq_none] at hfind
    have hnocut : ∀ i, zone.origin.numLabels ≤ i → i ≤ q.numLabels →
        cutAt zone.origin.path zone.allRecords (q.path.take i) = false := by
      intro i hi hi'
      rw [htake]
      rcases eq_or_lt_of_le hi with rfl | hlt
      · exact hapex
      · have hnot := hfind i (by omega) (by omega)
        rw [Bool.not_eq_eq_eq_not, Bool.not_true] at hnot
        rw [hz.cutAt_eq, hnot, Bool.and_false]
    obtain ⟨m, hloop, hlow, hhigh, hnode, hlast⟩ := hz.encloserLoop_eq hq hle (le_refl q.numLabels)
    rw [q.suffix_numLabels_self] at hloop
    have hpresent : ∀ i, i ≤ m → present zone.allRecords (q.path.take i) = true := by
      intro i hi
      refine present_mono (take_prefix_take_left hi) ?_
      rw [htake m, hz.present_eq_nodeExists (suffix_within hq hlow)]
      exact hnode
    rcases eq_or_lt_of_le hhigh with rfl | hlt
    · rw [descend_node (by rw [path_length]; exact hle)
        (fun i hi hi' => hnocut i hi (by rwa [path_length] at hi'))
        (fun i hi => hpresent i (by rwa [path_length] at hi)), hz.node_eq]
      rw [q.suffix_numLabels_self] at hnode
      cases howner : zone.owner q with
      | some records => exact .node hdelegation howner
      | none =>
        refine .empty hdelegation howner ?_ hnode
        refine dname_none (dnameLoop_top_none hle fun k _ hk => ?_)
        refine hz.no_dname_above hk le_rfl (suffix_within hq hle) ?_
        rw [q.suffix_numLabels_self]
        exact hnode
    · have hmissing : zone.nodeExists q = false := by
        have hq' := hlast q.numLabels hlt le_rfl
        rwa [q.suffix_numLabels_self] at hq'
      rw [descend_beside hlow (by rwa [path_length])
        (fun i hi hi' => hnocut i hi (by omega)) hpresent ?_, htake m]
      · exact hz.seen_beside hq hdelegation hmissing hlow hlt hloop hnode hlast
      · rw [htake, hz.present_eq_nodeExists (suffix_within hq (by omega))]
        exact hlast (m + 1) (by omega) (by omega)

end Zone.Loaded

end OnetDns.Authority
