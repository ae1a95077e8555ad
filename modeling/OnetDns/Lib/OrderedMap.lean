import Mathlib.Data.List.Sort
import Mathlib.Tactic

/-!
# Maps in the order of their keys

A map that is read in the order of its keys, as a list of entries with distinct keys, and
the map of the groups of a list.
-/
namespace OnetDns.OrderedMap
open List

variable {α κ ν : Type} [DecidableEq κ] (le : κ → κ → Prop) [DecidableRel le]

/-- The entry of a key is changed, and made from a default first if there is none. -/
def upsert (m : List (κ × ν)) (key : κ) (fresh : ν) (change : ν → ν) : List (κ × ν) :=
  if m.any fun e => e.1 = key then
    m.map fun e => if e.1 = key then (e.1, change e.2) else e
  else m.orderedInsert (fun a b => le a.1 b.1) (key, change fresh)

/-- The elements of a list by their keys, in the order in which they stand. -/
def group (key : α → κ) (l : List α) : List (κ × List α) :=
  l.foldl (fun m a => upsert le m (key a) [] (· ++ [a])) []

variable {le}

variable {m : List (κ × ν)} {change : ν → ν} {key : κ} {v : ν} {k : κ}

/-- An entry after a change: the one of the key, or one of another key. -/
theorem mem_upsert {fresh : ν} : (k, v) ∈ upsert le m key fresh change ↔
      (k ≠ key ∧ (k, v) ∈ m) ∨
        (k = key ∧ ((∃ old, (key, old) ∈ m ∧ v = change old) ∨
          ((∀ old, (key, old) ∉ m) ∧ v = change fresh))) := by
  unfold upsert
  split
  · rename_i hany
    simp only [any_eq_true, decide_eq_true_eq] at hany
    obtain ⟨⟨key', old⟩, hold, rfl⟩ := hany
    simp only [mem_map, Prod.exists]
    constructor
    · rintro ⟨k', v', hmem, heq⟩
      split at heq
      · rename_i hkey
        obtain ⟨rfl, rfl⟩ := Prod.mk.inj heq
        exact .inr ⟨hkey, .inl ⟨v', hkey ▸ hmem, rfl⟩⟩
      · rename_i hkey
        obtain ⟨rfl, rfl⟩ := Prod.mk.inj heq
        exact .inl ⟨hkey, hmem⟩
    · rintro (⟨hkey, hmem⟩ | ⟨rfl, ⟨old', hmem, rfl⟩ | ⟨hnone, -⟩⟩)
      · exact ⟨k, v, hmem, if_neg hkey⟩
      · exact ⟨_, old', hmem, if_pos rfl⟩
      · exact absurd hold (hnone old)
  · rename_i hany
    have hnone : ∀ old, (key, old) ∉ m := by
      intro old hmem
      exact hany (any_eq_true.mpr ⟨(key, old), hmem, by simp⟩)
    rw [mem_orderedInsert, Prod.mk.injEq]
    constructor
    · rintro (⟨rfl, rfl⟩ | hmem)
      · exact .inr ⟨rfl, .inr ⟨hnone, rfl⟩⟩
      · exact .inl ⟨fun hkey => hnone v (hkey ▸ hmem), hmem⟩
    · rintro (⟨-, hmem⟩ | ⟨rfl, ⟨old, hmem, -⟩ | ⟨-, rfl⟩⟩)
      · exact .inr hmem
      · exact absurd hmem (hnone old)
      · exact .inl ⟨rfl, rfl⟩

lemma group_append_singleton (key : α → κ) (l : List α) (a : α) :
    group le key (l ++ [a]) = upsert le (group le key l) (key a) [] (· ++ [a]) := by
  rw [group, foldl_append]
  rfl

lemma mem_group {key : α → κ} {l : List α} {v : List α} :
    (k, v) ∈ group le key l ↔ v = l.filter (fun a => key a = k) ∧ v ≠ [] := by
  induction l using reverseRecOn generalizing v with
  | nil => simp [group]
  | append_singleton l a ih =>
    rw [group_append_singleton, mem_upsert, filter_append]
    by_cases hk : k = key a
    · subst hk
      have hlast : [a].filter (fun b => key b = key a) = [a] := by simp
      rw [hlast]
      simp only [ne_eq, not_true_eq_false, false_and, false_or, true_and]
      constructor
      · rintro (⟨old, hold, rfl⟩ | ⟨hnone, rfl⟩)
        · rw [(ih.mp hold).1]
          exact ⟨rfl, by simp⟩
        have hempty : l.filter (fun b => key b = key a) = [] := by
          by_contra hne
          exact hnone _ (ih.mpr ⟨rfl, hne⟩)
        rw [hempty]
        exact ⟨rfl, by simp⟩
      · rintro ⟨rfl, -⟩
        by_cases hempty : l.filter (fun b => key b = key a) = []
        · refine .inr ⟨fun old hold => (ih.mp hold).2 ((ih.mp hold).1.trans hempty), ?_⟩
          rw [hempty]
        · exact .inl ⟨_, ih.mpr ⟨rfl, hempty⟩, rfl⟩
    · have hlast : [a].filter (fun b => key b = k) = [] := by simp [Ne.symm hk]
      rw [hlast, ih]
      simp [hk]

lemma upsert_keys_nodup {fresh : ν}
    (h : (m.map Prod.fst).Nodup) : ((upsert le m key fresh change).map Prod.fst).Nodup := by
  unfold upsert
  split
  · have hkeys : (m.map fun e => if e.1 = key then (e.1, change e.2) else e).map Prod.fst =
        m.map Prod.fst := by
      rw [map_map]
      refine map_congr_left fun e _ => ?_
      simp only [Function.comp_apply]
      split <;> rfl
    rw [hkeys]
    exact h
  · rename_i hany
    have hperm := (m.perm_orderedInsert (fun a b => le a.1 b.1) (key, change fresh)).map Prod.fst
    rw [hperm.nodup_iff, map_cons, nodup_cons]
    refine ⟨fun hmem => hany ?_, h⟩
    obtain ⟨e, he, hkey⟩ := mem_map.mp hmem
    exact any_eq_true.mpr ⟨e, he, by simpa using hkey⟩

lemma group_keys_nodup (key : α → κ) (l : List α) : ((group le key l).map Prod.fst).Nodup := by
  induction l using reverseRecOn with
  | nil => simp [group]
  | append_singleton l a ih =>
    rw [group_append_singleton]
    exact upsert_keys_nodup ih

section Lookup

variable [BEq κ] [LawfulBEq κ]

lemma lookup_cons_if (k k' : κ) (v : ν) (m : List (κ × ν)) :
    ((k', v) :: m).lookup k = if k = k' then some v else m.lookup k := by
  rw [lookup_cons]
  by_cases hk : k = k'
  · simp [hk]
  · have hbeq : (k == k') = false := by simpa using hk
    rw [hbeq, if_neg hk]

omit [DecidableEq κ] in
lemma lookup_orderedInsert_self (h : m.lookup key = none) :
    (m.orderedInsert (fun a b => le a.1 b.1) (key, v)).lookup key = some v := by
  induction m with
  | nil => simp
  | cons e m ih =>
    obtain ⟨hne, hrest⟩ : (key == e.1) = false ∧ m.lookup key = none := by
      rw [lookup_cons] at h
      cases hkey : key == e.1 with
      | true => simp [hkey] at h
      | false => exact ⟨rfl, by simpa [hkey] using h⟩
    rw [orderedInsert_cons]
    split
    · simp
    · rw [lookup_cons, hne]
      exact ih hrest

omit [DecidableEq κ] in
lemma lookup_orderedInsert_ne (h : k ≠ key) :
    (m.orderedInsert (fun a b => le a.1 b.1) (key, v)).lookup k = m.lookup k := by
  have hne : (k == key) = false := by simpa using h
  induction m with
  | nil => simp [h]
  | cons e m ih =>
    rw [orderedInsert_cons]
    split
    · rw [lookup_cons, hne]
    · rw [lookup_cons, lookup_cons, ih]

lemma lookup_map_change :
    (m.map fun e => if e.1 = key then (e.1, change e.2) else e).lookup k =
      if k = key then (m.lookup key).map change else m.lookup k := by
  induction m with
  | nil => simp
  | cons e m ih =>
    obtain ⟨k', v⟩ := e
    rw [map_cons, lookup_cons_if, lookup_cons_if]
    by_cases hkey : k' = key
    · subst hkey
      rw [lookup_cons_if, ih]
      by_cases hk : k = k' <;> simp [hk]
    rw [if_neg hkey, lookup_cons_if, ih]
    by_cases hk : k = key
    · subst hk
      simp [Ne.symm hkey]
    · simp [hk]

lemma lookup_eq_none : m.lookup key = none ↔ ∀ v, (key, v) ∉ m := by
  induction m with
  | nil => simp
  | cons e m ih =>
    obtain ⟨k, v⟩ := e
    rw [lookup_cons_if]
    by_cases hkey : key = k
    · subst hkey
      exact iff_of_false (by simp) fun h => h v mem_cons_self
    · rw [if_neg hkey, ih]
      simp [hkey]

lemma mem_of_lookup (h : m.lookup key = some v) : (key, v) ∈ m := by
  induction m with
  | nil => simp at h
  | cons e m ih =>
    obtain ⟨k, v'⟩ := e
    rw [lookup_cons_if] at h
    split at h
    · simp_all
    · exact mem_cons_of_mem _ (ih h)

/-- With distinct keys, every entry is found. -/
theorem lookup_of_mem (hnodup : (m.map Prod.fst).Nodup)
    (h : (key, v) ∈ m) : m.lookup key = some v := by
  induction m with
  | nil => simp at h
  | cons e m ih =>
    obtain ⟨k, v'⟩ := e
    rw [map_cons, nodup_cons] at hnodup
    rw [lookup_cons_if]
    rcases mem_cons.mp h with heq | hmem
    · obtain ⟨rfl, rfl⟩ := Prod.mk.inj heq
      rw [if_pos rfl]
    have hne : key ≠ k := by
      rintro rfl
      exact hnodup.1 (mem_map.mpr ⟨_, hmem, rfl⟩)
    rw [if_neg hne]
    exact ih hnodup.2 hmem

lemma lookup_upsert {fresh : ν} : (upsert le m key fresh change).lookup k =
      if k = key then some (change ((m.lookup key).getD fresh)) else m.lookup k := by
  unfold upsert
  split
  · rename_i hany
    obtain ⟨v, hv⟩ : ∃ v, m.lookup key = some v := by
      rw [← Option.ne_none_iff_exists', ne_eq, lookup_eq_none]
      simpa using hany
    rw [lookup_map_change, hv]
    rfl
  rename_i hany
  have hnone : m.lookup key = none := lookup_eq_none.mpr (by simpa using hany)
  by_cases hk : k = key
  · subst hk
    rw [if_pos rfl, hnone]
    exact lookup_orderedInsert_self hnone
  · rw [if_neg hk]
    exact lookup_orderedInsert_ne hk

lemma lookup_group {key : α → κ} {l : List α} :
    (group le key l).lookup k =
      if l.filter (fun a => key a = k) = [] then none else some (l.filter fun a => key a = k) := by
  induction l using reverseRecOn with
  | nil => simp [group]
  | append_singleton l a ih =>
    rw [group_append_singleton, lookup_upsert]
    by_cases hk : k = key a
    · subst hk
      rw [if_pos rfl, ih]
      split <;> simp_all
    · rw [if_neg hk, ih]
      simp [Ne.symm hk]

end Lookup

end OnetDns.OrderedMap
