import OnetDns.Dnssec.Nsec

/-!
# What a zone holds

A signed zone by its content: which types it holds at which names, with the NSEC and
RRSIG records of its owners. Delegations cut names off,
names between an owner and the apex are there even if they own nothing, and a wildcard
answers for the names that are not there. This is what a denial is measured against; it
is not taken from the code.
-/
namespace OnetDns.Dnssec
open Dns LabelTree List

structure Zone where
  apex : Path
  holds : Path → RecordType → Prop
  within : ∀ {x t}, holds x t → apex <+: x
  apex_soa : holds apex .SOA

namespace Zone

variable {Z : Zone} {x y : Path} {t : RecordType}

/-- A delegation to another zone. -/
def IsCut (Z : Zone) (x : Path) : Prop := x ≠ Z.apex ∧ Z.holds x .NS

/-- A name that belongs to a child zone. -/
def BelowCut (Z : Zone) (x : Path) : Prop := ∃ d, Z.IsCut d ∧ d <+: x ∧ d ≠ x

/-- The names that own authoritative data or a delegation. -/
def owners (Z : Zone) : Set Path := {x | (∃ t, Z.holds x t) ∧ ¬Z.BelowCut x}

/-- What this zone may hold at a delegation; the rest is of the child. -/
def cutTypes : List RecordType := [.NS, .DS, .RRSIG, .NSEC]

def types (Z : Zone) (x : Path) (t : RecordType) : Prop :=
  x ∈ Z.owners ∧ Z.holds x t ∧ (Z.IsCut x → t ∈ cutTypes)

/-- The zone has data of the type for the name, of its own or by a wildcard. -/
def Serves (Z : Zone) (x : Path) (t : RecordType) : Prop :=
  Z.types x t ∨ ¬Present Z.owners x ∧ ∃ e, Encloses Z.owners e x ∧ Z.types (e ++ [star]) t

/-- A name of the zone that no delegation cuts off. -/
def InScope (Z : Zone) (x : Path) : Prop := Z.apex <+: x ∧ ¬Z.BelowCut x

lemma apex_above (h : x ∈ Z.owners) : Z.apex <+: x := by
  obtain ⟨⟨t, ht⟩, -⟩ := h
  exact Z.within ht

lemma apex_types : Z.types Z.apex .SOA := by
  refine ⟨⟨⟨_, Z.apex_soa⟩, ?_⟩, Z.apex_soa, fun hcut => absurd rfl hcut.1⟩
  rintro ⟨d, hcut, hd, hne⟩
  have hback := Z.within hcut.2
  exact hne (hd.eq_of_length (le_antisymm hd.length_le hback.length_le))

/-- A zone from a table of its owners and their types, with nothing of a child. -/
structure Table where
  apex : Path
  entries : List (Path × List RecordType)
  within : ∀ entry ∈ entries, apex <+: entry.1
  filled : ∀ entry ∈ entries, entry.2 ≠ []
  apex_soa : ∃ entry ∈ entries, entry.1 = apex ∧ .SOA ∈ entry.2
  cuts : ∀ entry ∈ entries, .NS ∈ entry.2 → entry.1 ≠ apex →
    ∀ other ∈ entries, entry.1 <+: other.1 → other.1 = entry.1 ∧ ∀ t ∈ other.2, t ∈ cutTypes

def ofTable (T : Table) : Zone where
  apex := T.apex
  holds := fun x t => ∃ entry ∈ T.entries, entry.1 = x ∧ t ∈ entry.2
  within := by
    rintro x t ⟨entry, hentry, rfl, -⟩
    exact T.within entry hentry
  apex_soa := T.apex_soa

variable (T : Table)

lemma mem_ofTable_owners (x : Path) : x ∈ (ofTable T).owners ↔ x ∈ T.entries.map Prod.fst := by
  rw [mem_map]
  constructor
  · rintro ⟨⟨t, entry, hentry, hx, -⟩, -⟩
    exact ⟨entry, hentry, hx⟩
  rintro ⟨other, hother, rfl⟩
  obtain ⟨t, ht⟩ := exists_mem_of_ne_nil _ (T.filled other hother)
  refine ⟨⟨t, other, hother, rfl, ht⟩, ?_⟩
  rintro ⟨d, ⟨hne, entry, hentry, rfl, hns⟩, hd, hdiff⟩
  exact hdiff (T.cuts entry hentry hns hne other hother hd).1.symm

lemma ofTable_types (x : Path) (t : RecordType) :
    (ofTable T).types x t ↔ ∃ entry ∈ T.entries, entry.1 = x ∧ t ∈ entry.2 := by
  constructor
  · exact fun h => h.2.1
  rintro ⟨other, hother, rfl, ht⟩
  refine ⟨?_, ⟨other, hother, rfl, ht⟩, ?_⟩
  · rw [mem_ofTable_owners, mem_map]
    exact ⟨other, hother, rfl⟩
  · rintro ⟨hne, entry, hentry, heq, hns⟩
    have hcut := T.cuts entry hentry hns (by rw [heq]; exact hne) other hother (by rw [heq])
    exact hcut.2 t ht

lemma ofTable_inScope {x : Path} (h : T.apex <+: x)
    (hcuts : ∀ entry ∈ T.entries, .NS ∈ entry.2 → entry.1 ≠ T.apex → entry.1 <+: x →
      entry.1 = x) : (ofTable T).InScope x := by
  refine ⟨h, ?_⟩
  rintro ⟨d, ⟨hne, entry, hentry, rfl, hns⟩, hd, hdiff⟩
  exact hdiff (hcuts entry hentry hns hne hd)

end Zone

/-- A record of the complete NSEC chain of the zone: it leads to the next owner in
canonical order and lists the types of its own. -/
structure Zone.NsecOf (Z : Zone) (r : Record) (nsec : Nsec) : Prop where
  rtype : r.rtype = .NSEC
  parsed : Nsec.fromRecord r = some nsec
  next : IsNext Z.owners r.name.path nsec.next.path
  types : ∀ t, nsec.hasType t = true ↔ Z.types r.name.path t

end OnetDns.Dnssec
