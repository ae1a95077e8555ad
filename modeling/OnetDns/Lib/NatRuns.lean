import Mathlib.Data.Finset.Card
import Mathlib.Data.Finset.Max
import Mathlib.Order.Interval.Finset.Nat
import Mathlib.Tactic.Common

/-!
# Runs of successive numbers in a finite set

A maximal run is named by its top, the number whose successor is not in the set. The highest `k`
runs are the numbers with at most `k` tops at or above them.
-/
namespace OnetDns.NatRuns
open Finset

variable {S T : Finset ℕ} {k n low high : ℕ}

/-- The largest numbers of the maximal runs. -/
def tops (S : Finset ℕ) : Finset ℕ := S.filter fun m => m + 1 ∉ S

/-- The numbers of the highest `k` maximal runs. -/
def highest (S : Finset ℕ) (k : ℕ) : Finset ℕ :=
  S.filter fun n => ((tops S).filter fun m => n ≤ m).card ≤ k

lemma mem_highest : n ∈ highest S k ↔ n ∈ S ∧ ((tops S).filter fun m => n ≤ m).card ≤ k :=
  mem_filter

/-- A set with few runs has no others. -/
theorem highest_eq_self (h : (tops S).card ≤ k) : highest S k = S :=
  filter_true_of_mem fun _ _ => (card_filter_le _ _).trans h

lemma highest_zero (S : Finset ℕ) : highest S 0 = ∅ := by
  refine filter_false_of_mem fun n hn hcard => ?_
  have hne : S.Nonempty := ⟨n, hn⟩
  have htop : S.max' hne ∈ (tops S).filter fun m => n ≤ m := by
    refine mem_filter.mpr ⟨mem_filter.mpr ⟨S.max'_mem hne, fun hmem => ?_⟩, S.le_max' n hn⟩
    have := S.le_max' _ hmem
    omega
  rw [card_eq_zero.mp (Nat.le_zero.mp hcard)] at htop
  exact absurd htop (notMem_empty _)

lemma tops_run (hle : low ≤ high) (h : ∀ n ∈ T, n + 2 ≤ low) :
    tops (Finset.Icc low high ∪ T) = insert high (tops T) := by
  ext m
  simp only [tops, mem_filter, mem_union, mem_Icc, mem_insert]
  constructor
  · rintro ⟨hm | hm, hnot⟩
    · by_contra hne
      exact hnot (.inl (by omega))
    · exact .inr ⟨hm, fun hmem => hnot (.inr hmem)⟩
  rintro (rfl | ⟨hm, hnot⟩)
  · refine ⟨.inl ⟨hle, le_rfl⟩, ?_⟩
    rintro (hmem | hmem)
    · omega
    · have := h _ hmem
      omega
  refine ⟨.inr hm, ?_⟩
  have := h m hm
  rintro (hmem | hmem)
  · omega
  · exact hnot hmem

lemma mem_highest_run (hle : low ≤ high) (h : ∀ n ∈ T, n + 2 ≤ low) :
    n ∈ highest (Finset.Icc low high ∪ T) (k + 1) ↔ (low ≤ n ∧ n ≤ high) ∨ n ∈ highest T k := by
  have hT : ∀ m ∈ tops T, m + 2 ≤ low := fun m hm => h m (mem_filter.mp hm).1
  have hfresh : high ∉ tops T := fun hmem => by
    have := hT high hmem
    omega
  rw [mem_highest, mem_highest, tops_run hle h, mem_union, mem_Icc]
  by_cases hrun : low ≤ n ∧ n ≤ high
  · have hnone : (tops T).filter (fun m => n ≤ m) = ∅ := by
      refine filter_false_of_mem fun m hm hnm => ?_
      have := hT m hm
      omega
    rw [filter_insert, if_pos hrun.2, hnone]
    simp only [hrun, true_or, true_and]
    rw [card_insert_of_notMem (notMem_empty _)]
    simp only [card_empty, Nat.le_add_left]
  · simp only [hrun, false_or]
    refine and_congr_right fun hn => ?_
    have hlow := h n hn
    rw [filter_insert, if_pos (by omega), card_insert_of_notMem
      (fun hmem => hfresh (mem_filter.mp hmem).1), Nat.succ_le_succ_iff]

end OnetDns.NatRuns
