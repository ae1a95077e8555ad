import Mathlib.Data.List.Basic
import Mathlib.Data.List.Perm.Basic
import Mathlib.Data.List.ReduceOption
import Mathlib.Tactic

/-!
# Slabs

An array of places with a stack of the empty ones. A place that was emptied is not on the
stack until it is released; there is at most one such hole.
-/
namespace OnetDns
open List

structure Slab (α : Type) where
  slots : List (Option α)
  free : List ℕ

namespace Slab

variable {α : Type} {s : Slab α} {i j : ℕ} {a b : α} {hole : Option ℕ}

def empty : Slab α := ⟨[], []⟩

def get (s : Slab α) (i : ℕ) : Option α := s.slots[i]?.join

/-- The place that an element goes to. -/
def next (s : Slab α) : ℕ := s.free.headD s.slots.length

/-- An element goes to the last place that was released, or to the end. -/
def insert (s : Slab α) (a : α) : Slab α :=
  match s.free with
  | i :: free => ⟨s.slots.set i (some a), free⟩
  | [] => ⟨s.slots ++ [some a], []⟩

/-- The place is emptied, and left as a hole. -/
def take (s : Slab α) (i : ℕ) : Slab α := { s with slots := s.slots.set i none }

/-- The place is filled again. -/
def put (s : Slab α) (i : ℕ) (a : α) : Slab α := { s with slots := s.slots.set i (some a) }

/-- The hole may be used for something else. -/
def release (s : Slab α) (i : ℕ) : Slab α := { s with free := i :: s.free }

/-- The elements. -/
def items (s : Slab α) : List α := s.slots.reduceOption

/-- The stack has each empty place once, except for the hole, and no other place. -/
structure Ok (s : Slab α) (hole : Option ℕ) : Prop where
  nodup : s.free.Nodup
  mem_free : ∀ i, i ∈ s.free ↔ i < s.slots.length ∧ s.get i = none ∧ hole ≠ some i

lemma lt_of_get (h : s.get i = some a) : i < s.slots.length := by
  by_contra hlt
  rw [get, getElem?_eq_none (Nat.le_of_not_lt hlt)] at h
  cases h

lemma getElem?_of_get (h : s.get i = some a) : s.slots[i]? = some (some a) := by
  exact Option.join_eq_some_iff.mp h

lemma get_set {slots : List (Option α)} {free : List ℕ} {value : Option α} (h : i < slots.length) :
    (⟨slots.set i value, free⟩ : Slab α).get j = if i = j then value else
      (⟨slots, free⟩ : Slab α).get j := by
  rw [get, getElem?_set]
  split <;> rfl

lemma get_take (h : i < s.slots.length) : (s.take i).get j = if i = j then none else s.get j :=
  get_set h

lemma get_put (h : i < s.slots.length) : (s.put i a).get j = if i = j then some a else s.get j :=
  get_set h

@[simp] lemma length_take (s : Slab α) (i : ℕ) : (s.take i).slots.length = s.slots.length :=
  length_set

@[simp] lemma length_put (s : Slab α) (i : ℕ) (a : α) : (s.put i a).slots.length = s.slots.length :=
  length_set

lemma get_next (h : s.Ok hole) : s.get s.next = none := by
  cases hfree : s.free with
  | nil =>
    rw [next, hfree, headD_nil, get, getElem?_eq_none le_rfl]
    rfl
  | cons i free =>
    rw [next, hfree]
    exact ((h.mem_free i).mp (by rw [hfree]; exact mem_cons_self)).2.1

lemma get_insert (h : s.Ok hole) : (s.insert a).get j = if s.next = j then some a else s.get j := by
  cases hfree : s.free with
  | nil =>
    rw [insert, next, hfree]
    change (s.slots ++ [some a])[j]?.join = if s.slots.length = j then some a else s.slots[j]?.join
    rcases lt_trichotomy j s.slots.length with hlt | heq | hgt
    · rw [getElem?_append_left hlt, if_neg (ne_of_gt hlt)]
    · subst heq
      rw [if_pos rfl, getElem?_concat_length]
      rfl
    · rw [if_neg (ne_of_lt hgt), getElem?_eq_none (by simpa using hgt), getElem?_eq_none hgt.le]
  | cons i free =>
    have hlt := ((h.mem_free i).mp (by rw [hfree]; exact mem_cons_self)).1
    rw [insert, next, hfree]
    exact get_set hlt

lemma next_ne (h : s.Ok hole) (hget : s.get j = some a) : s.next ≠ j := by
  intro heq
  rw [← heq, get_next h] at hget
  cases hget

lemma length_le_insert (s : Slab α) (a : α) : s.slots.length ≤ (s.insert a).slots.length := by
  rw [insert]
  split
  · exact length_set.ge
  · rw [length_append]
    exact Nat.le_add_right _ _

lemma Ok.take (h : s.Ok none) (hget : s.get i = some a) : (s.take i).Ok (some i) := by
  refine ⟨h.nodup, fun j => ?_⟩
  rw [get_take (lt_of_get hget)]
  refine (h.mem_free j).trans ?_
  by_cases hij : i = j
  · subst hij
    simp [hget]
  · simp [hij]

/-- Changing an element in its place. -/
theorem Ok.set (h : s.Ok hole) (hget : s.get i = some a) : (s.put i b).Ok hole := by
  refine ⟨h.nodup, fun j => ?_⟩
  rw [get_put (lt_of_get hget)]
  refine (h.mem_free j).trans ?_
  by_cases hij : i = j
  · subst hij
    simp [hget]
  · simp [hij]

lemma Ok.release (h : s.Ok (some i)) (hlt : i < s.slots.length) (hget : s.get i = none) :
    (s.release i).Ok none := by
  have hnot : i ∉ s.free := fun hmem => ((h.mem_free i).mp hmem).2.2 rfl
  refine ⟨nodup_cons.mpr ⟨hnot, h.nodup⟩, fun j => ?_⟩
  change j ∈ i :: s.free ↔ j < s.slots.length ∧ s.get j = none ∧ none ≠ some j
  rw [mem_cons, h.mem_free]
  by_cases hij : j = i
  · subst hij
    simp [hlt, hget]
  · simp [hij, Ne.symm hij]

lemma Ok.insert (h : s.Ok hole) (a : α) : (s.insert a).Ok hole := by
  have hget := fun j => get_insert (a := a) (j := j) h
  cases hfree : s.free with
  | nil =>
    have hnext : s.next = s.slots.length := by rw [next, hfree, headD_nil]
    have hinsert : s.insert a = ⟨s.slots ++ [some a], []⟩ := by rw [Slab.insert, hfree]
    refine ⟨by rw [hinsert]; exact nodup_nil, fun j => ?_⟩
    rw [hget, hinsert]
    simp only [not_mem_nil, length_append, length_singleton, false_iff]
    rintro ⟨hlt, hnone, hne⟩
    split at hnone
    · cases hnone
    · have hmem := (h.mem_free j).mpr ⟨by omega, hnone, hne⟩
      rw [hfree] at hmem
      cases hmem
  | cons i free =>
    have hnext : s.next = i := by rw [next, hfree, headD_cons]
    have hinsert : s.insert a = ⟨s.slots.set i (some a), free⟩ := by rw [Slab.insert, hfree]
    have hnodup := h.nodup
    rw [hfree, nodup_cons] at hnodup
    refine ⟨by rw [hinsert]; exact hnodup.2, fun j => ?_⟩
    rw [hget, hnext, hinsert, length_set]
    have hmem := h.mem_free j
    rw [hfree] at hmem
    by_cases hij : i = j
    · subst hij
      simp [hnodup.1]
    · rw [if_neg hij, ← hmem]
      simp [Ne.symm hij]

lemma reduceOption_set_some {l : List (Option α)} (hlt : i < l.length) (a : α) :
    (l.set i (some a)).reduceOption.Perm (a :: (l.set i none).reduceOption) := by
  rw [set_eq_take_append_cons_drop, if_pos hlt, set_eq_take_append_cons_drop, if_pos hlt,
    reduceOption_append, reduceOption_append]
  exact perm_middle

lemma items_take (hget : s.get i = some a) : s.items.Perm (a :: (s.take i).items) := by
  have hset : s.slots.set i (some a) = s.slots := by
    refine ext_getElem? fun j => ?_
    rw [getElem?_set]
    split
    · rename_i hij
      subst hij
      rw [if_pos (lt_of_get hget), getElem?_of_get hget]
    · rfl
  have hperm := reduceOption_set_some (lt_of_get hget) a
  rw [hset] at hperm
  exact hperm

/-- Changing an element in its place. -/
theorem items_set (hget : s.get i = some a) (b : α) :
    (s.put i b).items.Perm (b :: (s.take i).items) :=
  reduceOption_set_some (lt_of_get hget) b

lemma items_put (hlt : i < s.slots.length) (hget : s.get i = none) (a : α) :
    (s.put i a).items.Perm (a :: s.items) := by
  have hset : s.slots.set i none = s.slots := by
    refine ext_getElem? fun j => ?_
    rw [getElem?_set]
    split
    · rename_i hij
      subst hij
      rw [getElem?_eq_getElem hlt]
      rw [get, getElem?_eq_getElem hlt] at hget
      exact congrArg some hget.symm
    · rfl
  have hperm := reduceOption_set_some hlt a
  rw [hset] at hperm
  exact hperm

lemma items_insert (h : s.Ok hole) (a : α) : (s.insert a).items.Perm (a :: s.items) := by
  cases hfree : s.free with
  | nil =>
    rw [insert, hfree, items, reduceOption_append]
    exact perm_append_comm
  | cons i free =>
    obtain ⟨hlt, hget, -⟩ := (h.mem_free i).mp (by rw [hfree]; exact mem_cons_self)
    rw [insert, hfree]
    exact items_put hlt hget a

end Slab

end OnetDns
