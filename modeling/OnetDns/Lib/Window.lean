import Mathlib.Data.Set.Insert
import Mathlib.Tactic.Common

/-!
# Windows over numbers

A window remembers, of the numbers near the highest one, which have been seen: one bit for each
distance from it.
-/
namespace OnetDns.Window
open BitVec

variable {w highest n : ℕ} {mask : BitVec w} {seen : Set ℕ}

def Tracks (highest : ℕ) (mask : BitVec w) (seen : Set ℕ) : Prop :=
  ∀ d < w, mask.getLsbD d = true ↔ d ≤ highest ∧ highest - d ∈ seen

/-- A window that is opened with its first number. -/
theorem tracks_single (highest : ℕ) : Tracks highest (1 : BitVec w) {highest} := by
  intro d hd
  have hbit : (1 : BitVec w).getLsbD d = decide (d = 0) := by
    change (1#w).getLsbD d = _
    rw [getLsbD_one]
    simp only [Bool.and_eq_right_iff_imp, decide_eq_true_eq]
    omega
  rw [hbit, decide_eq_true_eq, Set.mem_singleton_iff]
  omega

/-- A number above all others: the others are further from it. -/
theorem Tracks.advance (h : Tracks highest mask seen) (hle : ∀ m ∈ seen, m ≤ highest)
    (hlt : highest < n) :
    Tracks n (if w ≤ n - highest then 1 else mask <<< (n - highest) ||| 1) (insert n seen) := by
  intro d hd
  by_cases hfar : w ≤ n - highest
  · rw [if_pos hfar, tracks_single n d hd]
    constructor
    · exact fun hd => ⟨hd.1, .inl hd.2⟩
    · rintro ⟨hle', heq | hseen⟩
      · exact ⟨hle', heq⟩
      · have := hle _ hseen
        omega
  have hone := tracks_single (w := w) n d hd
  rw [if_neg hfar, getLsbD_or, Bool.or_eq_true, hone, getLsbD_shiftLeft]
  simp only [hd, decide_true, true_and, Bool.and_eq_true, Bool.not_eq_true',
    decide_eq_false_iff_not]
  constructor
  · rintro (⟨hshift, hbit⟩ | ⟨hle', heq⟩)
    · obtain ⟨hle', hseen⟩ := (h _ (by omega)).mp hbit
      refine ⟨by omega, .inr ?_⟩
      rwa [show n - d = highest - (d - (n - highest)) by omega]
    · exact ⟨hle', .inl heq⟩
  rintro ⟨hle', heq | hseen⟩
  · exact .inr ⟨hle', heq⟩
  · have hlow := hle _ hseen
    refine .inl ⟨by omega, (h _ (by omega)).mpr ⟨by omega, ?_⟩⟩
    rwa [show highest - (d - (n - highest)) = n - d by omega]

/-- A number inside the window. -/
theorem Tracks.mark (h : Tracks highest mask seen) (hle : n ≤ highest) (hnear : highest - n < w) :
    Tracks highest (mask ||| 1#w <<< (highest - n)) (insert n seen) := by
  intro d hd
  rw [getLsbD_or, Bool.or_eq_true, h d hd, getLsbD_shiftLeft, getLsbD_one]
  simp only [Bool.and_eq_true, Bool.not_eq_true', decide_eq_false_iff_not, decide_eq_true_eq]
  constructor
  · rintro (⟨hle', hseen⟩ | ⟨hfar, _, hsame⟩)
    · exact ⟨hle', .inr hseen⟩
    · exact ⟨by omega, .inl (by omega)⟩
  · rintro ⟨hle', heq | hseen⟩
    · exact .inr ⟨by omega, by omega, by omega⟩
    · exact .inl ⟨hle', hseen⟩

/-- What the mask says of a number inside the window. -/
theorem Tracks.mem_iff (h : Tracks highest mask seen) (hle : n ≤ highest)
    (hnear : highest - n < w) : mask.getLsbD (highest - n) = true ↔ n ∈ seen := by
  rw [h _ hnear, Nat.sub_sub_self hle]
  exact ⟨fun hn => hn.2, fun hn => ⟨Nat.sub_le _ _, hn⟩⟩

end OnetDns.Window
