import Mathlib.Data.Finsupp.Weight
import Mathlib.Data.List.AList
import Mathlib.Tactic

/-!
# Ledgers

Sums of amounts that are kept for each key: over the entries of an association list,
and over a function with finite support. Both change by what one key changes.
-/
namespace OnetDns.Ledger
open List

section Entries

variable {α β : Type*} [DecidableEq α]

variable (amount : β → ℕ)

/-- The sum of the amounts of all entries. -/
def total (m : AList fun _ : α => β) : ℕ := (m.entries.map fun entry => amount entry.2).sum

lemma total_insert (m : AList fun _ : α => β) (a : α) (b : β) :
    total amount (m.insert a b) = amount b + total amount (m.erase a) := by
  rfl

lemma total_erase {amount : β → ℕ} {m : AList fun _ : α => β} {a : α} {b : β}
    (h : m.lookup a = some b) : total amount m = amount b + total amount (m.erase a) := by
  have hkey : a ∈ m.entries.keys := by
    rw [← AList.keys, ← AList.mem_keys, ← AList.lookup_isSome, h]
    rfl
  obtain ⟨b', front, back, -, hentries, herase⟩ := exists_of_kerase hkey
  have hmem : (⟨a, b'⟩ : Sigma fun _ : α => β) ∈ m.entries := by
    rw [hentries]
    simp
  have hb : b' = b := by
    have := AList.mem_lookup_iff.mpr hmem
    rw [h] at this
    exact (Option.some.inj this).symm
  have herase' : (m.erase a).entries = front ++ back := herase
  simp only [total, hentries, herase', map_append, map_cons, sum_append, sum_cons, hb]
  omega

lemma total_erase_of_notMem {m : AList fun _ : α => β} {a : α} (h : a ∉ m) :
    total amount (m.erase a) = total amount m := by
  have herase : (m.erase a).entries = m.entries := kerase_of_notMem_keys (AList.mem_keys.not.mp h)
  rw [total, herase, total]

end Entries

section Support

variable {α : Type*}

lemma degree_update (f : α →₀ ℕ) (a : α) (n : ℕ) : (f.update a n).degree + f a = f.degree + n := by
  have hf : f.degree = (f.erase a).degree + f a := by
    conv_lhs => rw [← Finsupp.erase_add_single a f]
    rw [map_add, Finsupp.degree_single]
  rw [Finsupp.update_eq_erase_add_single, map_add, Finsupp.degree_single]
  omega

/-- An account that is nowhere above `g` sums to no more than `g` does over the keys in use. -/
theorem degree_le_sum {f : α →₀ ℕ} {keys : Finset α} {g : α → ℕ} (hle : ∀ a, f a ≤ g a)
    (hkeys : ∀ a ∉ keys, f a = 0) : f.degree ≤ ∑ a ∈ keys, g a := by
  have hsupport : f.support ⊆ keys := by
    intro a ha
    by_contra hout
    exact Finsupp.mem_support_iff.mp ha (hkeys a hout)
  calc f.degree = ∑ a ∈ f.support, f a := rfl
    _ ≤ ∑ a ∈ keys, f a := Finset.sum_le_sum_of_subset hsupport
    _ ≤ ∑ a ∈ keys, g a := Finset.sum_le_sum fun a _ => hle a

end Support

end OnetDns.Ledger
