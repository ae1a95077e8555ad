import Mathlib.Order.Interval.Set.Basic
import Mathlib.Data.List.Lex
import Mathlib.Tactic

/-!
# Trees of labels in depth-first order

A node of a tree is the list of labels on the way to it from the root. The
lexicographic order of these lists visits the tree depth first: a node comes right
before what lies below it. The second part is about circles, the cyclic successor in
a set of points and the open arc between two of them.
-/
namespace OnetDns.LabelTree
open List

section Order

variable {α : Type*} [LinearOrder α]

/-- What stands between two lists below `z` in the lexicographic order is below `z` too. -/
lemma prefix_of_between {z a b c : List α} (ha : z <+: a) (hc : z <+: c) (hab : a ≤ b) (hbc : b ≤ c) :
    z <+: b := by
  induction z generalizing a b c with
  | nil => exact nil_prefix
  | cons x z ih =>
    obtain ⟨s, rfl⟩ := ha
    obtain ⟨t, rfl⟩ := hc
    cases b with
    | nil => exact absurd (nil_lt_cons _ _) hab.not_gt
    | cons y b =>
      simp only [cons_append, ← not_lt, cons_lt_cons_iff, not_or, not_and] at hab hbc
      simp only [not_lt] at hab hbc
      obtain rfl := le_antisymm hab.1 hbc.1
      exact cons_prefix_cons.mpr ⟨rfl, ih (prefix_append _ _) (prefix_append _ _) (hab.2 rfl) (hbc.2 rfl)⟩

end Order

section Nodes

variable {α : Type*} {owners : Set (List α)} {e q x y : List α}

/-- A node is there when it owns something or lies above one that does. -/
def Present (owners : Set (List α)) (x : List α) : Prop := ∃ o ∈ owners, x <+: o

/-- A node that is there only because of what lies below it. -/
def Hollow (owners : Set (List α)) (x : List α) : Prop := Present owners x ∧ x ∉ owners

/-- The deepest node above `q` that is there. -/
structure Encloses (owners : Set (List α)) (e q : List α) : Prop where
  above : e <+: q
  present : Present owners e
  deepest : ∀ x, x <+: q → Present owners x → x <+: e

lemma present_of_mem (h : x ∈ owners) : Present owners x := ⟨x, h, prefix_refl x⟩

lemma Present.above (h : Present owners y) (hx : x <+: y) : Present owners x := by
  obtain ⟨o, ho, hy⟩ := h
  exact ⟨o, ho, hx.trans hy⟩

lemma Encloses.unique (h : Encloses owners e q) (h' : Encloses owners x q) : e = x := by
  have hle := h'.deepest e h.above h.present
  have hge := h.deepest x h'.above h'.present
  exact hle.eq_of_length (le_antisymm hle.length_le hge.length_le)

/-- A node that is there, and whose child on the way to `q` is not, encloses `q`. -/
theorem encloses_take {k : ℕ} (hpresent : Present owners (q.take k))
    (hchild : ¬Present owners (q.take (k + 1))) : Encloses owners (q.take k) q := by
  refine ⟨ take_prefix k q, hpresent, ?_⟩
  intro x hx hxp
  rw [prefix_iff_eq_take] at hx
  have hlen : x.length ≤ k := by
    by_contra hlong
    refine hchild (hxp.above ?_)
    rw [hx]
    exact take_prefix_take_left (by omega)
  rw [hx]
  exact take_prefix_take_left hlen

/-- The first `k` labels on the way to `q` are the longest part of it, short of all, that
is owned. -/
structure Deepest (owned : List α → Prop) (q : List α) (k : ℕ) : Prop where
  short : k < q.length
  holds : owned (q.take k)
  last : ∀ j, k < j → j < q.length → ¬owned (q.take j)

lemma Deepest.unique {owned : List α → Prop} {k k' : ℕ} (h : Deepest owned q k)
    (h' : Deepest owned q k') : k = k' := by
  rcases lt_trichotomy k k' with hlt | heq | hgt
  · exact absurd h'.holds (h.last k' hlt h'.short)
  · exact heq
  · exact absurd h.holds (h'.last k hgt h.short)

/-- The same part is the longest one for a node that is one label further. -/
theorem Deepest.child {owned : List α → Prop} {k : ℕ} (h : Deepest owned q k)
    (hlen : x.length = k + 1) (htake : x.take k = q.take k) : Deepest owned x k := by
  refine ⟨by omega, ?_, fun j hlow hhigh => absurd hhigh (by omega)⟩
  rw [htake]
  exact h.holds

/-- A search from the longest part down finds the longest one. -/
theorem findSome?_range_reverse {β : Type*} {f : ℕ → Option β} {n : ℕ} {b : β} :
    (List.range n).reverse.findSome? f = some b ↔
      ∃ k, k < n ∧ f k = some b ∧ ∀ j, k < j → j < n → f j = none := by
  induction n with
  | zero => simp
  | succ n ih =>
    rw [range_succ, reverse_append, reverse_singleton, singleton_append, findSome?_cons]
    cases hf : f n with
    | some a =>
      constructor
      · rintro ⟨rfl⟩
        exact ⟨n, n.lt_succ_self, hf, fun j hlow hhigh => absurd hhigh (by omega)⟩
      · rintro ⟨k, hk, hfk, hlast⟩
        rcases Nat.lt_succ_iff_lt_or_eq.mp hk with hlt | rfl
        · exact absurd (hf.symm.trans (hlast n hlt n.lt_succ_self)) (by simp)
        · exact hf.symm.trans hfk
    | none =>
      rw [ih]
      constructor
      · rintro ⟨k, hk, hfk, hlast⟩
        refine ⟨k, hk.trans n.lt_succ_self, hfk, ?_⟩
        intro j hlow hhigh
        rcases Nat.lt_succ_iff_lt_or_eq.mp hhigh with hlt | rfl
        · exact hlast j hlow hlt
        · exact hf
      · rintro ⟨k, hk, hfk, hlast⟩
        rcases Nat.lt_succ_iff_lt_or_eq.mp hk with hlt | rfl
        · exact ⟨k, hlt, hfk, fun j hlow hhigh => hlast j hlow (hhigh.trans n.lt_succ_self)⟩
        · exact absurd (hf.symm.trans hfk) (by simp)

end Nodes

section Circle

variable {β : Type*} [LinearOrder β] {points : Set β} {a b x : β}

/-- The open arc from `lo` up to `hi`; it passes the top when `hi` is not above `lo`. -/
def Arc (lo hi x : β) : Prop := if lo < hi then lo < x ∧ x < hi else lo < x ∨ x < hi

instance (lo hi x : β) : Decidable (Arc lo hi x) := by
  unfold Arc
  infer_instance

/-- `b` is the point after `a` on the circle. -/
structure IsNext (points : Set β) (a b : β) : Prop where
  left : a ∈ points
  right : b ∈ points
  empty : ∀ x ∈ points, ¬Arc a b x

lemma IsNext.not_mem (h : IsNext points a b) (hx : Arc a b x) : x ∉ points :=
  fun hmem => h.empty x hmem hx

end Circle

end OnetDns.LabelTree
