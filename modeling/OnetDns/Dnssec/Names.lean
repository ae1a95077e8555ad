import OnetDns.Dns.Compression
import OnetDns.Lib.LabelTree

/-!
# Names in canonical order

The parts of `Name` that denial of existence needs, with the canonical order of RFC
4034 from `onetdns-dnssec/src/lib.rs`. `Name.path` is the way from the root to a name,
with case folded: the code compares names in the order of their paths.
-/
namespace OnetDns.Dnssec
open Dns

abbrev Path := List (List ℕ)

end OnetDns.Dnssec

namespace OnetDns.Dns.Name
open OnetDns.Dnssec List

variable (n : Name)

def numLabels : ℕ := n.labels.length

lemma wireLen_drop_le (labels : List Bytes) (k : ℕ) : wireLen (labels.drop k) ≤ wireLen labels := by
  unfold wireLen
  rw [map_drop]
  have hsum := (drop_sublist k (labels.map fun label => label.length + 1)).sum_le_sum
    (fun _ _ => Nat.zero_le _)
  omega

/-- `suffix`: the last `k` labels. -/
def suffix (k : ℕ) : Name where
  labels := n.labels.drop (n.numLabels - min k n.numLabels)
  label_len := fun label hlabel => n.label_len label (List.mem_of_mem_drop hlabel)
  wire_len := (wireLen_drop_le _ _).trans n.wire_len

def endsWithIgnoreCase (n zone : Name) : Bool :=
  if n.numLabels < zone.numLabels then false
  else (n.suffix zone.numLabels).eqIgnoreCase zone

/-- A label with its case folded. -/
def labelKey (label : Bytes) : List ℕ := label.map fun b => (asciiLower b).toNat

/-- The way from the root to the name. -/
def path : Path := (n.labels.map labelKey).reverse

@[simp] lemma path_length : n.path.length = n.numLabels := by
  rw [path, length_reverse, length_map, numLabels]

@[simp] lemma suffix_path (k : ℕ) : (n.suffix k).path = n.path.take k := by
  rw [path, path, suffix, take_reverse, length_map, map_drop, numLabels]
  congr 2
  rcases le_total k n.labels.length with hle | hge
  · rw [min_eq_left hle]
  · omega

@[simp] lemma suffix_numLabels (k : ℕ) : (n.suffix k).numLabels = min k n.numLabels := by
  rw [← path_length, suffix_path, length_take, path_length]

lemma labelKey_injective {a b : Bytes} :
    labelKey a = labelKey b ↔ a.map asciiLower = b.map asciiLower := by
  have hfold : ∀ l : Bytes, labelKey l = (l.map asciiLower).map UInt8.toNat := by
    intro l
    rw [map_map]
    rfl
  rw [hfold, hfold]
  exact (map_injective_iff.mpr fun _ _ h => UInt8.toNat_inj.mp h).eq_iff

/-- Names are equal up to case when they have the same path. -/
theorem eqIgnoreCase_path (a b : Name) : a.eqIgnoreCase b = true ↔ a.path = b.path := by
  rw [eqIgnoreCase_iff, path, path, reverse_inj]
  have hmap : ∀ l m : List Bytes, l.map (·.map asciiLower) = m.map (·.map asciiLower) ↔
      l.map labelKey = m.map labelKey := by
    intro l
    induction l with
    | nil => intro m; cases m <;> simp
    | cons x l ih =>
      intro m
      cases m with
      | nil => simp
      | cons y m => simp only [map_cons, cons.injEq, labelKey_injective, ih]
  exact hmap a.labels b.labels

lemma canonicalKey_inj {a b : Name} : a.canonicalKey = b.canonicalKey ↔ a.path = b.path := by
  rw [← eqIgnoreCase_path, eqIgnoreCase_iff]
  constructor
  · exact wireOf_injective (lower_label_len a.label_len) (lower_label_len b.label_len)
  · intro h
    rw [canonicalKey, canonicalKey, h]

lemma endsWithIgnoreCase_path (n zone : Name) :
    n.endsWithIgnoreCase zone = true ↔ zone.path <+: n.path := by
  unfold endsWithIgnoreCase
  rw [prefix_iff_eq_take, path_length]
  split
  · refine ⟨fun h => absurd h (by decide), ?_⟩
    intro h
    have hlen := congrArg length h
    rw [length_take, path_length, path_length] at hlen
    omega
  · rw [eqIgnoreCase_path, suffix_path]
    exact eq_comm

end OnetDns.Dns.Name

namespace OnetDns.Dnssec
open Dns List Name

lemma lowerName_labels (n : Name) :
    ∀ label ∈ lowerLabels n.labels, 1 ≤ label.length ∧ label.length ≤ 63 :=
  lower_label_len n.label_len

lemma lowerName_wire (n : Name) : wireLen (lowerLabels n.labels) ≤ maxNameLen :=
  (wireLen_lower n.labels).trans_le n.wire_len

def lowerName (n : Name) : Name where
  labels := lowerLabels n.labels
  label_len := lowerName_labels n
  wire_len := lowerName_wire n

lemma lowerName_path (n : Name) : (lowerName n).path = n.path := by
  rw [← eqIgnoreCase_path, eqIgnoreCase_iff]
  exact lowerLabels_idem n.labels

def canonicalLabelCmp : Bytes → Bytes → Ordering
  | x :: a, y :: b =>
    if asciiLower x ≠ asciiLower y then compare (asciiLower x) (asciiLower y)
    else canonicalLabelCmp a b
  | a, b => compare a.length b.length

/-- The loop of `canonical_name_cmp`, over the labels from the right. -/
def cmpLabels : List Bytes → List Bytes → Ordering
  | [], [] => .eq
  | [], _ :: _ => .lt
  | _ :: _, [] => .gt
  | left :: a, right :: b =>
    match canonicalLabelCmp left right with
    | .eq => cmpLabels a b
    | other => other

def canonicalNameCmp (a b : Name) : Ordering := cmpLabels a.labels.reverse b.labels.reverse

lemma canonicalLabelCmp_spec (a b : Bytes) :
    (canonicalLabelCmp a b = .lt ↔ labelKey a < labelKey b) ∧
      (canonicalLabelCmp a b = .eq ↔ labelKey a = labelKey b) := by
  induction a generalizing b with
  | nil =>
    cases b with
    | nil => decide
    | cons y b =>
      constructor
      · exact iff_of_true (by simp [canonicalLabelCmp, compare]) (nil_lt_cons _ _)
      · exact iff_of_false (by simp [canonicalLabelCmp]) (by simp [labelKey])
  | cons x a ih =>
    cases b with
    | nil =>
      constructor
      · exact iff_of_false (by simp [canonicalLabelCmp, compare]) (not_lt_nil _)
      · exact iff_of_false (by simp [canonicalLabelCmp]) (by simp [labelKey])
    | cons y b =>
      obtain ⟨hlt, heq⟩ := ih b
      have hkey : ∀ z l, labelKey (z :: l) = (asciiLower z).toNat :: labelKey l := fun _ _ => rfl
      rw [canonicalLabelCmp, hkey, hkey, cons_lt_cons_iff]
      by_cases hxy : asciiLower x = asciiLower y
      · rw [if_neg (not_not.mpr hxy), hxy]
        exact ⟨hlt.trans (by simp), heq.trans (by simp)⟩
      have hne : (asciiLower x).toNat ≠ (asciiLower y).toNat := fun h => hxy (UInt8.toNat_inj.mp h)
      have hcompare : compare (asciiLower x) (asciiLower y) =
          if asciiLower x < asciiLower y then .lt else .gt := by
        simp [compare, compareOfLessAndEq, hxy]
      rw [if_pos hxy, hcompare]
      rw [← UInt8.lt_iff_toNat_lt]
      split <;> simp [*]

lemma cmpLabels_spec (a b : List Bytes) :
    (cmpLabels a b = .lt ↔ a.map labelKey < b.map labelKey) ∧
      (cmpLabels a b = .eq ↔ a.map labelKey = b.map labelKey) := by
  induction a generalizing b with
  | nil =>
    cases b with
    | nil => decide
    | cons y b =>
      exact ⟨iff_of_true rfl (nil_lt_cons _ _), iff_of_false (by simp [cmpLabels]) (by simp)⟩
  | cons x a ih =>
    cases b with
    | nil =>
      exact ⟨iff_of_false (by simp [cmpLabels]) (not_lt_nil _),
        iff_of_false (by simp [cmpLabels]) (by simp)⟩
    | cons y b =>
      obtain ⟨hlt, heq⟩ := ih b
      obtain ⟨hlabel, hsame⟩ := canonicalLabelCmp_spec x y
      rw [map_cons, map_cons, cons_lt_cons_iff, cons.injEq, ← hlabel, ← hsame,
        ← hlt, ← heq, cmpLabels]
      cases canonicalLabelCmp x y <;> simp

lemma canonicalNameCmp_lt (a b : Name) : canonicalNameCmp a b = .lt ↔ a.path < b.path := by
  rw [canonicalNameCmp, (cmpLabels_spec _ _).1, map_reverse, map_reverse]
  rfl

lemma canonicalNameCmp_eq (a b : Name) : canonicalNameCmp a b = .eq ↔ a.path = b.path := by
  rw [canonicalNameCmp, (cmpLabels_spec _ _).2, map_reverse, map_reverse]
  rfl

/-- The canonical order is a total order of the names up to case, in which a zone is one stretch that
its apex begins: what is between two names of a zone is in the zone. -/
theorem canonical_order :
    (∀ a b, canonicalNameCmp a b = .eq ↔ a.eqIgnoreCase b = true) ∧
    (∀ a b, canonicalNameCmp a b = .gt ↔ canonicalNameCmp b a = .lt) ∧
    (∀ a b c, canonicalNameCmp a b = .lt → canonicalNameCmp b c = .lt →
      canonicalNameCmp a c = .lt) ∧
    (∀ n zone : Name, n.endsWithIgnoreCase zone = true → canonicalNameCmp zone n ≠ .gt) ∧
    ∀ zone a b c : Name, a.endsWithIgnoreCase zone = true → c.endsWithIgnoreCase zone = true →
      canonicalNameCmp a b ≠ .gt → canonicalNameCmp b c ≠ .gt → b.endsWithIgnoreCase zone = true := by
  have hgt : ∀ a b, canonicalNameCmp a b = .gt ↔ b.path < a.path := by
    intro a b
    have hlt := canonicalNameCmp_lt a b
    have heq := canonicalNameCmp_eq a b
    cases h : canonicalNameCmp a b with
    | lt => exact iff_of_false nofun (lt_asymm (hlt.mp h))
    | eq => exact iff_of_false nofun (heq.mp h).not_gt
    | gt =>
      rw [h] at hlt heq
      exact iff_of_true rfl (lt_of_le_of_ne (not_lt.mp (by simpa using hlt)) (by simpa [eq_comm] using heq))
  refine ⟨fun a b => ?_, fun a b => ?_, fun a b c => ?_, fun n zone => ?_, fun zone a b c => ?_⟩
  · rw [canonicalNameCmp_eq, eqIgnoreCase_path]
  · rw [hgt, canonicalNameCmp_lt]
  · simp only [canonicalNameCmp_lt]
    exact lt_trans
  · rw [endsWithIgnoreCase_path, Ne, hgt]
    rintro ⟨t, ht⟩
    rw [← ht]
    exact le_append_left
  · simp only [endsWithIgnoreCase_path, Ne, hgt, not_lt]
    exact LabelTree.prefix_of_between

end OnetDns.Dnssec
