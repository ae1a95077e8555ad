import Mathlib.Data.Finset.Basic
import Mathlib.Tactic

/-!
# Names that hold resources

Every name holds at most one resource, no resource is held twice, and a finite set tells which
resources are held. The set is changed together with the holdings, without being computed again.
-/
namespace OnetDns.Holdings
open Option

variable {κ β α : Type*} {resource : β → α} {f g : κ → Option β}
  {held held' : Finset α} {k : κ} {v : β}

/-- No resource has two holders, and the set is exactly of those held. -/
structure Exclusive (resource : β → α) (f : κ → Option β) (held : Finset α) : Prop where
  held_iff : ∀ a, a ∈ held ↔ ∃ k v, f k = some v ∧ resource v = a
  alone : ∀ k k' v v', f k = some v → f k' = some v' → resource v = resource v' → k = k'

lemma exclusive_none (resource : β → α) (h : ∀ k : κ, f k = none) : Exclusive resource f ∅ := by
  refine ⟨fun a => ⟨fun hin => absurd hin (Finset.notMem_empty a), ?_⟩, fun k k' v v' hv => ?_⟩
  · rintro ⟨k, v, hv, -⟩
    rw [h k] at hv
    cases hv
  · rw [h k] at hv
    cases hv

namespace Exclusive

section

variable (h : Exclusive resource f held)
include h

lemma congr (hfg : ∀ k, g k = f k) : Exclusive resource g held := by
  obtain rfl : g = f := funext hfg
  exact h

lemma mem (hv : f k = some v) : resource v ∈ held := (h.held_iff _).mpr ⟨k, v, hv, rfl⟩

/-- Some of the holders are left. -/
theorem keep {p : κ → β → Prop} (hg : ∀ k v, g k = some v ↔ f k = some v ∧ p k v)
    (hheld : ∀ a, a ∈ held' ↔ a ∈ held ∧ ∀ k v, f k = some v → ¬p k v → resource v ≠ a) :
    Exclusive resource g held' := by
  refine ⟨fun a => ?_, fun k k' v v' hv hv' => ?_⟩
  · rw [hheld, h.held_iff]
    constructor
    · rintro ⟨⟨k, v, hv, rfl⟩, hgone⟩
      refine ⟨k, v, (hg k v).mpr ⟨hv, ?_⟩, rfl⟩
      by_contra hstays
      exact hgone k v hv hstays rfl
    rintro ⟨k, v, hv, rfl⟩
    obtain ⟨hf, hstays⟩ := (hg k v).mp hv
    refine ⟨⟨k, v, hf, rfl⟩, fun k' v' hv' hgone heq => hgone ?_⟩
    obtain rfl := h.alone k' k v' v hv' hf heq
    rwa [some.inj (hv'.symm.trans hf)]
  · exact h.alone k k' v v' ((hg k v).mp hv).1 ((hg k' v').mp hv').1

/-- A holder gives its resource back. -/
theorem drop [DecidableEq κ] [DecidableEq α] (hv : f k = some v)
    (hg : ∀ j, g j = if j = k then none else f j) :
    Exclusive resource g (held.erase (resource v)) := by
  refine h.keep (p := fun j _ => j ≠ k) (fun j w => ?_) fun a => ?_
  · rw [hg]
    by_cases hj : j = k <;> simp [hj]
  rw [Finset.mem_erase, and_comm, and_congr_right_iff]
  refine fun _ => ⟨fun hne j w hw hj => ?_, fun hall => (hall k v hv (by simp)).symm⟩
  obtain rfl : j = k := not_not.mp hj
  rw [some.inj (hw.symm.trans hv)]
  exact hne.symm

/-- Nothing is held under a name. -/
theorem vacant [DecidableEq κ] (hk : f k = none)
    (hg : ∀ j, g j = if j = k then none else f j) : Exclusive resource g held := by
  refine h.congr fun j => ?_
  rw [hg]
  split
  · rename_i heq
    rw [heq, hk]
  · rfl

/-- A resource that nobody else holds is given to a name, in place of what it held. -/
theorem put [DecidableEq κ] (hfree : ∀ j w, f j = some w → resource w = resource v → j = k)
    (hg : ∀ j, g j = if j = k then some v else f j)
    (hheld : ∀ a, a ∈ held' ↔ a = resource v ∨ a ∈ held ∧ ∀ w, f k = some w → resource w ≠ a) :
    Exclusive resource g held' := by
  refine ⟨fun a => ?_, fun j j' w w' hw hw' heq => ?_⟩
  · rw [hheld, h.held_iff]
    constructor
    · rintro (rfl | ⟨⟨j, w, hw, rfl⟩, hother⟩)
      · exact ⟨k, v, by rw [hg, if_pos rfl], rfl⟩
      · refine ⟨j, w, ?_, rfl⟩
        rw [hg, if_neg, hw]
        rintro rfl
        exact hother w hw rfl
    rintro ⟨j, w, hw, rfl⟩
    rw [hg] at hw
    split at hw
    · exact .inl (some.inj hw ▸ rfl)
    · rename_i hj
      exact .inr ⟨⟨j, w, hw, rfl⟩, fun w' hw' heq => hj (h.alone _ _ _ _ hw hw' heq.symm)⟩
  · rw [hg] at hw hw'
    split at hw <;> split at hw'
    · rename_i hj hj'
      exact hj.trans hj'.symm
    · rename_i hj hj'
      obtain rfl := some.inj hw
      exact absurd (hfree j' w' hw' heq.symm) hj'
    · rename_i hj hj'
      obtain rfl := some.inj hw'
      exact absurd (hfree j w hw heq) hj
    · exact h.alone j j' w w' hw hw' heq

/-- What is free, or held by the name itself, is held by nobody else. -/
theorem free (hfree : resource v ∉ held ∨ ∃ w, f k = some w ∧ resource w = resource v) {j : κ}
    {w : β} (hw : f j = some w) (heq : resource w = resource v) : j = k := by
  rcases hfree with hfree | ⟨u, hu, hku⟩
  · exact absurd (heq ▸ h.mem hw) hfree
  · exact h.alone j k w u hw hu (heq.trans hku.symm)

end

end Exclusive

end OnetDns.Holdings
