import Mathlib.Logic.Relation
import Mathlib.Tactic

/-!
# Blocks of flat code

A program is a row of instructions; its state is a place in the row and a value of another type.
A block realises a relation if a run through it relates the value at its entry to the value at its
end, and a run can leave it at its end only. Blocks are put together by rules for sequence, choice,
option and loop.
-/
namespace OnetDns.Blocks

variable {σ : Type*} {step : ℕ × σ → ℕ × σ → Prop} {lo mid hi n m : ℕ} {R S : σ → σ → Prop}
  {x y z : σ} {c d e : ℕ × σ}

/-- A run of so many steps. -/
inductive Steps (step : ℕ × σ → ℕ × σ → Prop) : ℕ → ℕ × σ → ℕ × σ → Prop
  | refl (c : ℕ × σ) : Steps step 0 c c
  | head {n : ℕ} {c d e : ℕ × σ} : step c d → Steps step n d e → Steps step (n + 1) c e

lemma Steps.trans (h : Steps step n c d) (h' : Steps step m d e) : Steps step (n + m) c e := by
  induction h with
  | refl c => simpa using h'
  | @head n c d _ hstep _ ih =>
    rw [add_right_comm]
    exact .head hstep (ih h')

lemma Steps.tail (h : Steps step n c d) (hstep : step d e) : Steps step (n + 1) c e :=
  h.trans (.head hstep (.refl e))

/-- The runs of any length are the reflexive and transitive closure of a step. -/
theorem exists_steps_iff : (∃ n, Steps step n c d) ↔ Relation.ReflTransGen step c d := by
  constructor
  · rintro ⟨n, h⟩
    induction h with
    | refl c => exact .refl
    | head hstep _ ih => exact .head hstep ih
  intro h
  induction h with
  | refl => exact ⟨0, .refl c⟩
  | tail _ hstep ih =>
    obtain ⟨n, hn⟩ := ih
    exact ⟨n + 1, hn.tail hstep⟩

/-- The block from `lo` to `hi` realises a relation. -/
structure Realises (step : ℕ × σ → ℕ × σ → Prop) (lo hi : ℕ) (R : σ → σ → Prop) : Prop where
  le : lo ≤ hi
  run : ∀ x y, R x y → ∃ n, Steps step n (lo, x) (hi, y)
  leaves : ∀ n x q z, Steps step n (lo, x) (q, z) → q < lo ∨ hi ≤ q →
    ∃ y m, m ≤ n ∧ R x y ∧ Steps step m (hi, y) (q, z)

/-- A run that ends outside of a block that is not empty takes a step. -/
theorem Steps.first {q : ℕ} (h : Steps step n (lo, x) (q, z)) (hq : q < lo ∨ hi ≤ q)
    (hlt : lo < hi) : ∃ m d, n = m + 1 ∧ step (lo, x) d ∧ Steps step m d (q, z) := by
  cases h with
  | refl => omega
  | head hstep hrest => exact ⟨_, _, rfl, hstep, hrest⟩

lemma Realises.congr (h : Realises step lo hi R) (hiff : ∀ x y, R x y ↔ S x y) :
    Realises step lo hi S := by
  have heq : R = S := by
    ext x y
    exact hiff x y
  rwa [← heq]

lemma Realises.skip (lo : ℕ) : Realises step lo lo Eq := by
  refine ⟨le_rfl, ?_, ?_⟩
  · rintro x y rfl
    exact ⟨0, .refl _⟩
  · intro n x q z h _
    exact ⟨x, n, le_rfl, rfl, h⟩

/-- One instruction that goes on to the next. -/
theorem Realises.one (h : ∀ x d, step (lo, x) d ↔ ∃ y, d = (lo + 1, y) ∧ R x y) :
    Realises step lo (lo + 1) R := by
  refine ⟨Nat.le_succ lo, ?_, ?_⟩
  · intro x y hxy
    exact ⟨1, .head ((h x _).mpr ⟨y, rfl, hxy⟩) (.refl _)⟩
  · intro n x q z hrun hq
    obtain ⟨m, d, rfl, hstep, hrest⟩ := hrun.first hq (Nat.lt_succ_self lo)
    obtain ⟨y, rfl, hxy⟩ := (h x d).mp hstep
    exact ⟨y, m, Nat.le_succ m, hxy, hrest⟩

lemma Realises.seq (h : Realises step lo mid R) (h' : Realises step mid hi S) :
    Realises step lo hi (Relation.Comp R S) := by
  have hlo := h.le
  have hhi := h'.le
  refine ⟨hlo.trans hhi, ?_, ?_⟩
  · rintro x z ⟨y, hxy, hyz⟩
    obtain ⟨n, hn⟩ := h.run x y hxy
    obtain ⟨m, hm⟩ := h'.run y z hyz
    exact ⟨n + m, hn.trans hm⟩
  · intro n x q z hrun hq
    obtain ⟨y, m, hm, hxy, hrest⟩ := h.leaves n x q z hrun (by omega)
    obtain ⟨y', m', hm', hyy', hrest'⟩ := h'.leaves m y q z hrest (by omega)
    exact ⟨y', m', hm'.trans hm, ⟨y, hxy, hyy'⟩, hrest'⟩

/-- A branch into two blocks, the first of which ends in a jump over the second. -/
theorem Realises.choice (hsplit : ∀ x d, step (lo, x) d ↔ d = (lo + 1, x) ∨ d = (mid + 1, x))
    (hjump : ∀ x d, step (mid, x) d ↔ d = (hi, x)) (h : Realises step (lo + 1) mid R)
    (h' : Realises step (mid + 1) hi S) : Realises step lo hi fun x y => R x y ∨ S x y := by
  have hlo := h.le
  have hhi := h'.le
  refine ⟨by omega, ?_, ?_⟩
  · rintro x y (hxy | hxy)
    · obtain ⟨n, hn⟩ := h.run x y hxy
      exact ⟨n + 1 + 1, .head ((hsplit x _).mpr (.inl rfl)) (hn.tail ((hjump y _).mpr rfl))⟩
    · obtain ⟨n, hn⟩ := h'.run x y hxy
      exact ⟨n + 1, .head ((hsplit x _).mpr (.inr rfl)) hn⟩
  intro n x q z hrun hq
  obtain ⟨m, d, rfl, hstep, hrest⟩ := hrun.first hq (by omega)
  rcases (hsplit x d).mp hstep with rfl | rfl
  · obtain ⟨y, m', hm', hxy, hrest'⟩ := h.leaves m x q z hrest (by omega)
    have hout : q < mid ∨ mid + 1 ≤ q := by omega
    obtain ⟨m'', d, rfl, hstep', hrest''⟩ := hrest'.first hout (Nat.lt_succ_self mid)
    obtain rfl := (hjump y d).mp hstep'
    exact ⟨y, m'', by omega, .inl hxy, hrest''⟩
  · obtain ⟨y, m', hm', hxy, hrest'⟩ := h'.leaves m x q z hrest (by omega)
    exact ⟨y, m', by omega, .inr hxy, hrest'⟩

/-- A branch past the block. -/
theorem Realises.option (hsplit : ∀ x d, step (lo, x) d ↔ d = (lo + 1, x) ∨ d = (hi, x))
    (h : Realises step (lo + 1) hi R) : Realises step lo hi fun x y => x = y ∨ R x y := by
  have hlo := h.le
  refine ⟨by omega, ?_, ?_⟩
  · rintro x y (rfl | hxy)
    · exact ⟨1, .head ((hsplit x _).mpr (.inr rfl)) (.refl _)⟩
    · obtain ⟨n, hn⟩ := h.run x y hxy
      exact ⟨n + 1, .head ((hsplit x _).mpr (.inl rfl)) hn⟩
  intro n x q z hrun hq
  obtain ⟨m, d, rfl, hstep, hrest⟩ := hrun.first hq (by omega)
  rcases (hsplit x d).mp hstep with rfl | rfl
  · obtain ⟨y, m', hm', hxy, hrest'⟩ := h.leaves m x q z hrest (by omega)
    exact ⟨y, m', by omega, .inr hxy, hrest'⟩
  · exact ⟨x, m, by omega, .inl rfl, hrest⟩

/-- A branch past a block that ends in a jump back to the branch. Each round takes a step, so the
rounds of a run are counted by its length. -/
theorem Realises.loop (hsplit : ∀ x d, step (lo, x) d ↔ d = (lo + 1, x) ∨ d = (mid + 1, x))
    (hjump : ∀ x d, step (mid, x) d ↔ d = (lo, x)) (h : Realises step (lo + 1) mid R) :
    Realises step lo (mid + 1) (Relation.ReflTransGen R) := by
  have hlo := h.le
  refine ⟨by omega, ?_, ?_⟩
  · intro x y hxy
    induction hxy using Relation.ReflTransGen.head_induction_on with
    | refl => exact ⟨1, .head ((hsplit y _).mpr (.inr rfl)) (.refl _)⟩
    | head hround _ ih =>
      obtain ⟨n, hn⟩ := h.run _ _ hround
      obtain ⟨m, hm⟩ := ih
      exact ⟨_, .head ((hsplit _ _).mpr (.inl rfl)) ((hn.tail ((hjump _ _).mpr rfl)).trans hm)⟩
  intro n
  induction n using Nat.strong_induction_on with
  | _ n ih =>
    intro x q z hrun hq
    obtain ⟨m, d, rfl, hstep, hrest⟩ := hrun.first hq (by omega)
    rcases (hsplit x d).mp hstep with rfl | rfl
    · obtain ⟨y, m', hm', hxy, hrest'⟩ := h.leaves m x q z hrest (by omega)
      have hout : q < mid ∨ mid + 1 ≤ q := by omega
      obtain ⟨m'', d, rfl, hstep', hrest''⟩ := hrest'.first hout (Nat.lt_succ_self mid)
      obtain rfl := (hjump y d).mp hstep'
      obtain ⟨y', k, hk, hyy', hfinal⟩ := ih m'' (by omega) y q z hrest'' hq
      exact ⟨y', k, by omega, .head hxy hyy', hfinal⟩
    · exact ⟨x, m, by omega, .refl, hrest⟩

/-- What a whole program realises is what its runs to the end relate. -/
theorem Realises.iff (h : Realises step lo hi R) (hend : ∀ x d, ¬step (hi, x) d) :
    Relation.ReflTransGen step (lo, x) (hi, y) ↔ R x y := by
  rw [← exists_steps_iff]
  constructor
  · rintro ⟨n, hn⟩
    obtain ⟨y', m, -, hxy, hrest⟩ := h.leaves n x hi y hn (.inr le_rfl)
    cases hrest with
    | refl => exact hxy
    | head hstep _ => exact absurd hstep (hend _ _)
  · exact h.run x y

/-- A relation so many times. -/
def Times (R : σ → σ → Prop) : ℕ → σ → σ → Prop
  | 0 => Eq
  | k + 1 => Relation.Comp R (Times R k)

lemma times_add {k l : ℕ} : Times R (k + l) x z ↔ ∃ y, Times R k x y ∧ Times R l y z := by
  induction k generalizing x with
  | zero => simp [Times]
  | succ k ih =>
    rw [add_right_comm]
    constructor
    · rintro ⟨w, hxw, hwz⟩
      obtain ⟨y, hwy, hyz⟩ := ih.mp hwz
      exact ⟨y, ⟨w, hxw, hwy⟩, hyz⟩
    · rintro ⟨y, ⟨w, hxw, hwy⟩, hyz⟩
      exact ⟨w, hxw, ih.mpr ⟨y, hwy, hyz⟩⟩

lemma reflTransGen_iff_times : Relation.ReflTransGen R x y ↔ ∃ k, Times R k x y := by
  constructor
  · intro h
    induction h using Relation.ReflTransGen.head_induction_on with
    | refl => exact ⟨0, rfl⟩
    | head hround _ ih =>
      obtain ⟨k, hk⟩ := ih
      exact ⟨k + 1, _, hround, hk⟩
  rintro ⟨k, hk⟩
  induction k generalizing x with
  | zero => exact hk ▸ .refl
  | succ k ih =>
    obtain ⟨w, hxw, hwy⟩ := hk
    exact .head hxw (ih hwy)

end OnetDns.Blocks
