import Mathlib.Data.List.Basic
import Mathlib.Tactic.Common

/-!
# Computations that may fail, but not badly

`Meets good P r` says of a result that it is no error but a good one, and that what it returns has
a property. There is one rule for each way in which a computation is put together.
-/
namespace OnetDns.Guarded

universe u v

variable {ε : Type u} {α β : Type v} {good : ε → Prop} {P Q : α → Prop} {R : β → Prop} {r : Except ε α}
  {f : α → Except ε β}

/-- Every error is a good one, and every value has the property. -/
structure Meets (good : ε → Prop) (P : α → Prop) (r : Except ε α) : Prop where
  errors : ∀ e, r = .error e → good e
  values : ∀ a, r = .ok a → P a

lemma meets_ok {a : α} (h : P a) : Meets good P (.ok a) := by
  refine ⟨fun e he => ?_, fun b hb => ?_⟩
  · cases he
  · obtain rfl := Except.ok.inj hb
    exact h

lemma meets_pure {a : α} (h : P a) : Meets good P (pure a) := meets_ok h

lemma meets_error {e : ε} (h : good e) : Meets good P (.error e) := by
  refine ⟨fun e' he => ?_, fun b hb => ?_⟩
  · obtain rfl := Except.error.inj he
    exact h
  · cases hb

lemma Meets.mono (h : Meets good P r) (hPQ : ∀ a, P a → Q a) : Meets good Q r :=
  ⟨h.errors, fun a ha => hPQ a (h.values a ha)⟩

lemma Meets.bind (h : Meets good P r) (hf : ∀ a, P a → Meets good R (f a)) :
    Meets good R (r >>= f) := by
  cases r with
  | error e => exact meets_error (h.errors e rfl)
  | ok a => exact hf a (h.values a rfl)

/-- A value of the whole comes from a value of its first part. -/
theorem bind_inv {b : β} (h : r >>= f = .ok b) : ∃ a, r = .ok a ∧ f a = .ok b := by
  cases r with
  | error e => cases h
  | ok a => exact ⟨a, rfl, h⟩

lemma Meets.map {g : α → β} (h : Meets good P r) (hg : ∀ a, P a → R (g a)) :
    Meets good R (r.map g) := by
  cases r with
  | error e => exact meets_error (h.errors e rfl)
  | ok a => exact meets_ok (hg a (h.values a rfl))

lemma meets_ite {c : Prop} [Decidable c] {r r' : Except ε α} (h : c → Meets good P r)
    (h' : ¬c → Meets good P r') : Meets good P (if c then r else r') := by
  split
  · exact h ‹_›
  · exact h' ‹_›

/-- A fold whose steps keep a property. -/
theorem meets_foldlM {g : α → β → Except ε α} (hg : ∀ a b, P a → Meets good P (g a b)) :
    ∀ (bs : List β) {a : α}, P a → Meets good P (bs.foldlM g a)
  | [], _, ha => meets_pure ha
  | b :: bs, a, ha => by
    rw [List.foldlM_cons]
    exact (hg a b ha).bind fun a ha => meets_foldlM hg bs ha

end OnetDns.Guarded
