import Mathlib.Data.List.Basic
import Mathlib.Logic.Function.Basic
import Mathlib.Tactic

/-!
# Lists threaded through a store

The elements of a list are places of a store, and each place knows the next one. `Threaded` says
that following the links visits a list and then ends. A list that is linked in both directions is
two of these, one along the list and one along its reverse.
-/
namespace OnetDns
open List

variable {α : Type} {next next' : α → Option α} {start start' : Option α} {l r : List α} {i j : α}

/-- From `start`, the links visit the list and end. -/
def Threaded (next : α → Option α) : (start : Option α) → List α → Prop
  | start, [] => start = none
  | start, i :: rest => start = some i ∧ Threaded next (next i) rest

namespace Threaded

@[simp] lemma nil_iff : Threaded next start [] ↔ start = none := Iff.rfl

lemma start_eq (h : Threaded next start l) : start = l.head? := by
  cases l with
  | nil => exact h
  | cons i rest => exact h.1

/-- The links that are not on the list do not matter. -/
theorem congr (h : Threaded next start l) (hsame : ∀ i ∈ l, next' i = next i) :
    Threaded next' start l := by
  induction l generalizing start with
  | nil => exact h
  | cons i rest ih =>
    rw [forall_mem_cons] at hsame
    refine ⟨h.1, ?_⟩
    rw [hsame.1]
    exact ih h.2 hsame.2

/-- What is behind a place is reached from it. -/
theorem rest (h : Threaded next start (l ++ i :: r)) : Threaded next (next i) r := by
  induction l generalizing start with
  | nil => exact h.2
  | cons _ l ih => exact ih h.2

lemma next_eq (h : Threaded next start (l ++ i :: r)) : next i = r.head? := h.rest.start_eq

/-- A place in front of the list. -/
theorem push (h : Threaded next start l) (hi : i ∉ l) (hnext : next' i = start)
    (hsame : ∀ j, j ≠ i → next' j = next j) : Threaded next' (some i) (i :: l) := by
  refine ⟨rfl, ?_⟩
  rw [hnext]
  exact h.congr fun j hj => hsame j fun heq => hi (heq ▸ hj)

/-- What is behind a part of the list becomes `r`, which is reached from `mid`. -/
theorem splice {rest : List α} {mid : Option α} (h : Threaded next start (l ++ rest))
    (hnodup : l.Nodup) (htail : Threaded next' mid r)
    (hstart : start' = if l = [] then mid else start)
    (hlast : ∀ j, l.getLast? = some j → next' j = mid)
    (hsame : ∀ j ∈ l, l.getLast? ≠ some j → next' j = next j) : Threaded next' start' (l ++ r) := by
  induction l generalizing start start' with
  | nil => exact hstart ▸ htail
  | cons a l ih =>
    rw [h.1] at hstart
    refine ⟨hstart, ?_⟩
    rw [nodup_cons] at hnodup
    refine ih h.2 hnodup.2 ?_ (fun j hj => hlast j ?_) fun j hj hne => hsame j (mem_cons_of_mem _ hj) ?_
    · split
      · rename_i hnil
        exact hlast a (by rw [hnil]; rfl)
      · rename_i hne
        refine hsame a mem_cons_self fun heq => hnodup.1 ?_
        rw [getLast?_cons_of_ne_nil hne] at heq
        exact mem_of_getLast? heq
    · rw [getLast?_cons_of_ne_nil (ne_nil_of_mem (mem_of_getLast? hj))]
      exact hj
    · rw [getLast?_cons_of_ne_nil (ne_nil_of_mem hj)]
      exact hne

/-- A place behind the list. -/
theorem concat (h : Threaded next start l) (hnodup : (l ++ [i]).Nodup)
    (hstart : start' = if l = [] then some i else start)
    (hlast : ∀ j, l.getLast? = some j → next' j = some i) (hend : next' i = none)
    (hsame : ∀ j ∈ l, l.getLast? ≠ some j → next' j = next j) :
    Threaded next' start' (l ++ [i]) := by
  rw [← append_nil l] at h
  exact h.splice hnodup.of_append_left ⟨rfl, hend⟩ hstart hlast hsame

/-- A place is taken out: the one before it gets its link, or the start does. -/
theorem remove (h : Threaded next start (l ++ i :: r)) (hnodup : (l ++ i :: r).Nodup)
    (hstart : start' = if l = [] then next i else start)
    (hlast : ∀ j, l.getLast? = some j → next' j = next i)
    (hsame : ∀ j ∈ l ++ r, l.getLast? ≠ some j → next' j = next j) :
    Threaded next' start' (l ++ r) := by
  refine h.splice hnodup.of_append_left (h.rest.congr fun j hj => ?_) hstart hlast fun j hj =>
    hsame j (mem_append_left _ hj)
  refine hsame j (mem_append_right _ hj) fun heq => ?_
  exact (nodup_append.mp hnodup).2.2 j (mem_of_getLast? heq) j (mem_cons_of_mem _ hj) rfl

end Threaded

end OnetDns
