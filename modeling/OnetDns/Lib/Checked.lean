import OnetDns.Lib.Guarded

/-!
# Array accesses that are checked

Code that panics where an index is outside of its array or a number leaves its type. Every access is
a function here whose failure is told apart from the errors the code returns itself, and a loop that
is cut off is a failure of its own. A computation that `Meets Handled` has none of these failures.
-/
namespace OnetDns.Checked
open Guarded

universe u v

/-- Why a computation gives no value. -/
inductive Fault (ε : Type u) where
  | refused (error : ε)
  | outOfBounds
  | overflow
  | unfinished
  deriving DecidableEq

variable {ε : Type u} {α σ τ : Type v}

/-- The errors that the code returns itself. -/
def Handled (fault : Fault ε) : Prop := ∃ error, fault = .refused error

lemma handled_refused (error : ε) : Handled (.refused error) := ⟨error, rfl⟩

/-- An error that the code returns. -/
def refuse (error : ε) : Except (Fault ε) α := .error (.refused error)

/-- `Option::ok_or`. -/
def orRefuse (error : ε) (value : Option α) : Except (Fault ε) α :=
  match value with
  | none => refuse error
  | some a => .ok a

variable (a : List α)

/-- `a[i] = x`. -/
def store (i : ℕ) (x : α) : Except (Fault ε) (List α) :=
  if i < a.length then .ok (a.set i x) else .error .outOfBounds

/-- `a.get(start..stop)`. -/
def range (start stop : ℕ) : Option (List α) :=
  if start ≤ stop ∧ stop ≤ a.length then some ((a.drop start).take (stop - start)) else none

/-- `a[start..stop]`. -/
def slice (start stop : ℕ) : Except (Fault ε) (List α) :=
  match range a start stop with
  | none => .error .outOfBounds
  | some xs => .ok xs

/-- `a[start..stop].copy_from_slice(xs)`. -/
def copy (start stop : ℕ) (xs : List α) : Except (Fault ε) (List α) :=
  if start ≤ stop ∧ stop ≤ a.length ∧ xs.length = stop - start then
    .ok (a.take start ++ xs ++ a.drop stop)
  else .error .outOfBounds

/-- An unsigned `a - b`. -/
def sub (a b : ℕ) : Except (Fault ε) ℕ := if b ≤ a then .ok (a - b) else .error .overflow

lemma sub_ok {a b : ℕ} (h : b ≤ a) : (sub a b : Except (Fault ε) ℕ) = .ok (a - b) := if_pos h

/-- An unsigned `a + b` of a type with values up to `max`. -/
def add (max a b : ℕ) : Except (Fault ε) ℕ := if a + b ≤ max then .ok (a + b) else .error .overflow

lemma add_ok {max a b : ℕ} (h : a + b ≤ max) : (add max a b : Except (Fault ε) ℕ) = .ok (a + b) :=
  if_pos h

lemma add_overflow {max a b : ℕ} (h : max < a + b) :
    (add max a b : Except (Fault ε) ℕ) = .error .overflow := if_neg (Nat.not_le.mpr h)

variable {P : α → Prop} {Q : List α → Prop} {a xs : List α} {i start stop : ℕ} {x : α}

lemma meets_refuse (error : ε) : Meets Handled P (refuse error : Except (Fault ε) α) :=
  meets_error (handled_refused error)

lemma meets_orRefuse {error : ε} {value : Option α} (h : ∀ a, value = some a → P a) :
    Meets Handled P (orRefuse error value) := by
  cases value with
  | none => exact meets_refuse error
  | some a => exact meets_ok (h a rfl)

lemma meets_store (h : i < a.length) (hQ : Q (a.set i x)) :
    Meets Handled Q (store a i x : Except (Fault ε) (List α)) := by
  rw [store, if_pos h]
  exact meets_ok hQ

lemma range_eq_some : range a start stop = some xs ↔
    start ≤ stop ∧ stop ≤ a.length ∧ (a.drop start).take (stop - start) = xs := by
  unfold range
  split_ifs with h
  · simp only [Option.some.injEq, h, true_and]
  · simp only [false_iff, not_and]
    exact fun hle hlen => absurd ⟨hle, hlen⟩ h

lemma meets_copy (hle : start ≤ stop) (hlen : stop ≤ a.length) (hxs : xs.length = stop - start)
    (hQ : Q (a.take start ++ xs ++ a.drop stop)) :
    Meets Handled Q (copy a start stop xs : Except (Fault ε) (List α)) := by
  rw [copy, if_pos ⟨hle, hlen, hxs⟩]
  exact meets_ok hQ

lemma meets_slice (hle : start ≤ stop) (hlen : stop ≤ a.length)
    (hQ : Q ((a.drop start).take (stop - start))) :
    Meets Handled Q (slice a start stop : Except (Fault ε) (List α)) := by
  rw [slice, range, if_pos ⟨hle, hlen⟩]
  exact meets_ok hQ

/-- How a round of a loop ends: with the state of the next round, or with a `break`. -/
abbrev Turn (σ τ : Type v) := σ ⊕ τ

/-- A loop that is cut off after some rounds. -/
def loop (body : σ → Except (Fault ε) (Turn σ τ)) : ℕ → σ → Except (Fault ε) τ
  | 0, _ => .error .unfinished
  | rounds + 1, s => body s >>= Sum.elim (loop body rounds) .ok

/-- What a round has to keep: the invariant with a smaller measure, or the result. -/
def Progress (inv : σ → Prop) (measure : σ → ℕ) (post : τ → Prop) (s : σ) : Turn σ τ → Prop :=
  Sum.elim (fun next => inv next ∧ measure next < measure s) post

/-- A loop whose rounds keep an invariant and make a measure smaller ends with what its `break`
gives. -/
theorem meets_loop {body : σ → Except (Fault ε) (Turn σ τ)} {I : σ → Prop} {m : σ → ℕ}
    {Q : τ → Prop} (hbody : ∀ s, I s → Meets Handled (Progress I m Q s) (body s)) :
    ∀ (rounds : ℕ) {s : σ}, I s → m s < rounds → Meets Handled Q (loop body rounds s)
  | 0, _, _, hrounds => absurd hrounds (Nat.not_lt_zero _)
  | rounds + 1, s, hs, hrounds => by
    refine (hbody s hs).bind fun turn hturn => ?_
    cases turn with
    | inl next => exact meets_loop hbody rounds hturn.1 (by have := hturn.2; omega)
    | inr result => exact meets_ok hturn

/-- The same errors and related values, but for an overflow that `P` allows in place of an error. -/
inductive Simulates {α β : Type v} (P : Prop) (R : α → β → Prop) :
    Except (Fault ε) α → Except ε β → Prop
  | refused (error : ε) : Simulates P R (refuse error) (.error error)
  | ok {a : α} {b : β} (h : R a b) : Simulates P R (.ok a) (.ok b)
  | overflow (error : ε) (h : P) : Simulates P R (.error .overflow) (.error error)

section Simulates

variable {α β α' β' : Type v} {P Q : Prop} {R : α → β → Prop} {R' : α' → β' → Prop}
  {x : Except (Fault ε) α} {y : Except ε β} {f : α → Except (Fault ε) α'} {g : β → Except ε β'}

lemma Simulates.mono (h : Simulates P R x y) (hPQ : P → Q) : Simulates Q R x y := by
  cases h with
  | refused error => exact .refused error
  | ok h => exact .ok h
  | overflow error h => exact .overflow error (hPQ h)

lemma Simulates.bind (h : Simulates P R x y)
    (hf : ∀ a b, y = .ok b → R a b → Simulates P R' (f a) (g b)) :
    Simulates P R' (x >>= f) (y >>= g) := by
  cases h with
  | refused error => exact .refused error
  | ok h => exact hf _ _ rfl h
  | overflow error h => exact .overflow error h

lemma Simulates.ite {c : Prop} [Decidable c] {x' : Except (Fault ε) α} {y' : Except ε β}
    (h : c → Simulates P R x y) (h' : ¬c → Simulates P R x' y') :
    Simulates P R (if c then x else x') (if c then y else y') := by
  by_cases hc : c
  · rw [if_pos hc, if_pos hc]
    exact h hc
  · rw [if_neg hc, if_neg hc]
    exact h' hc

/-- A value of the other computation is found. -/
theorem Simulates.exists_eq {b : β} (h : Simulates P R x y) (hy : y = .ok b) :
    ∃ a, x = .ok a ∧ R a b := by
  subst hy
  cases h with
  | ok h => exact ⟨_, rfl, h⟩

/-- Without an overflow the errors are those of the other computation. -/
theorem Simulates.meets {A : α → Prop} (h : Simulates P R x y) (hP : ¬P)
    (hA : ∀ a b, R a b → A a) : Meets Handled A x := by
  cases h with
  | refused error => exact meets_refuse error
  | ok h => exact meets_ok (hA _ _ h)
  | overflow error h => exact absurd h hP

end Simulates

end OnetDns.Checked
