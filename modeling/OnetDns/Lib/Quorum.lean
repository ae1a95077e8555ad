import Mathlib.Data.Finset.Card
import Mathlib.Tactic

/-!
# Majorities

A majority of a finite set of members, and the fact that two of them meet.
-/
namespace OnetDns.Quorum

/-- More than half of the members. -/
def Majority {ν : Type*} (members quorum : Finset ν) : Prop :=
  quorum ⊆ members ∧ members.card < 2 * quorum.card

lemma Majority.inter {ν : Type*} [DecidableEq ν] {members q r : Finset ν}
    (hq : Majority members q) (hr : Majority members r) : ∃ v, v ∈ q ∧ v ∈ r := by
  by_contra h
  push Not at h
  have hd : Disjoint q r := Finset.disjoint_left.mpr h
  have hu : (q ∪ r).card ≤ members.card := Finset.card_le_card (Finset.union_subset hq.1 hr.1)
  rw [Finset.card_union_of_disjoint hd] at hu
  have := hq.2
  have := hr.2
  omega

end OnetDns.Quorum
