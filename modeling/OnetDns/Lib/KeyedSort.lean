import Mathlib.Data.List.Sort

/-!
# Sorting by a key

A stable sort by a key, seen through a view of the items. Where items with one key look the same, the
sorted list looks the same whatever order the items came in.
-/
namespace OnetDns.KeyedSort
open List

variable {α β κ : Type*} [LinearOrder κ] {le : α → α → Prop} [DecidableRel le] (key : α → κ)

/-- A relation by keys is one to sort by. -/
theorem pairwise_sorted (hle : ∀ a b, le a b ↔ key a ≤ key b) (l : List α) :
    (l.insertionSort le).Pairwise fun a b => key a ≤ key b := by
  have : Std.Total le := ⟨fun a b => by simpa only [hle] using le_total (key a) (key b)⟩
  have : IsTrans α le := ⟨fun a b c => by simpa only [hle] using le_trans⟩
  exact (pairwise_insertionSort le l).imp fun h => (hle _ _).mp h

/-- Lists of the same views are sorted alike when a view gives the key, and within the list a key
gives the view. -/
theorem map_sorted_eq (hle : ∀ a b, le a b ↔ key a ≤ key b) (view : α → β) (keyOf : β → κ)
    (hkey : ∀ a, keyOf (view a) = key a) {l l' : List α} (hperm : (l.map view).Perm (l'.map view))
    (hview : ∀ a ∈ l, ∀ b ∈ l, key a = key b → view a = view b) :
    (l.insertionSort le).map view = (l'.insertionSort le).map view := by
  have hsorted : ∀ m : List α,
      ((m.insertionSort le).map view).Pairwise fun x y => keyOf x ≤ keyOf y := by
    intro m
    rw [pairwise_map]
    simpa only [hkey] using pairwise_sorted key hle m
  have hback : ∀ m : List α, ((m.insertionSort le).map view).Perm (m.map view) :=
    fun m => (perm_insertionSort le m).map view
  refine Perm.eq_of_pairwise (fun x y hx hy hxy hyx => ?_) (hsorted l) (hsorted l')
    ((hback l).trans (hperm.trans (hback l').symm))
  obtain ⟨a, ha, rfl⟩ := mem_map.mp ((hback l).mem_iff.mp hx)
  obtain ⟨b, hb, rfl⟩ := mem_map.mp ((hperm.trans (hback l').symm).mem_iff.mpr hy)
  rw [hkey, hkey] at hxy hyx
  exact hview a ha b hb (hxy.antisymm hyx)

end OnetDns.KeyedSort
