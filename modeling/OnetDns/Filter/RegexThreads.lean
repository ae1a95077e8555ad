import OnetDns.Filter.RegexMeaning
import OnetDns.Lib.Worklist

/-!
# The threads of the regular expression machine

A set of threads holds what it lists, whatever earlier runs left in its marks, and adding a thread
adds just what can be reached from it without taking a byte.
-/
namespace OnetDns.Filter.Regex
open Worklist List

variable {P : List Inst} {input : List UInt8} {set set' : SparseSet} {pc pos q n : ℕ}

namespace SparseSet

/-- No mark is from a generation that is yet to come. -/
def Past (set : SparseSet) : Prop := (∀ g ∈ set.gen, g ≤ set.cur) ∧ set.cur < 2 ^ 32

/-- The marks say what the list says. -/
def Holds (set : SparseSet) (n : ℕ) : Prop :=
  set.Past ∧ n ≤ set.gen.length ∧ ∀ pc < set.gen.length, set.gen[pc]? = some set.cur ↔ pc ∈ set.dense

lemma past_new : Past new := by simp [Past, new]

lemma past_ensure (h : set.Past) (n : ℕ) : (set.ensure n).Past := by
  refine ⟨fun g hg => ?_, h.2⟩
  rcases mem_append.mp hg with hg | hg
  · exact h.1 g hg
  · obtain rfl := eq_of_mem_replicate hg
    exact Nat.zero_le _

lemma length_ensure (set : SparseSet) (n : ℕ) : n ≤ (set.ensure n).gen.length := by
  simp only [ensure, length_append, length_replicate]
  omega

lemma holds_clear (h : set.Past) (hn : n ≤ set.gen.length) : set.clear.Holds n := by
  rw [clear]
  by_cases hwrap : (set.cur + 1) % 2 ^ 32 = 0
  · rw [if_pos hwrap]
    refine ⟨⟨by simp, by simp⟩, by simpa using hn, fun pc hpc => ?_⟩
    rw [length_map] at hpc
    simp [hpc]
  rw [if_neg hwrap]
  have hcur := h.2
  have hnext : (set.cur + 1) % 2 ^ 32 = set.cur + 1 := by omega
  rw [hnext]
  have hbound : set.cur + 1 < 2 ^ 32 := by omega
  refine ⟨⟨fun g hg => (h.1 g hg).trans (Nat.le_succ _), hbound⟩, hn, fun pc hpc => ?_⟩
  simp only [not_mem_nil, iff_false]
  intro hmark
  have := h.1 _ (mem_of_getElem? hmark)
  omega

lemma dense_clear (set : SparseSet) : set.clear.dense = [] := by
  rw [clear]
  split <;> rfl

lemma past_insert (h : set.Past) (pc : ℕ) : (set.insert pc).Past := by
  refine ⟨fun g hg => ?_, h.2⟩
  rcases mem_or_eq_of_mem_set hg with hg | rfl
  · exact h.1 g hg
  · exact le_rfl

lemma holds_insert (h : set.Holds n) (hpc : pc < n) : (set.insert pc).Holds n := by
  obtain ⟨hpast, hn, hmarks⟩ := h
  refine ⟨past_insert hpast pc, by simpa [insert] using hn, fun q hq => ?_⟩
  simp only [insert, length_set] at hq
  simp only [insert]
  by_cases hqpc : q = pc
  · subst hqpc
    simp [getElem?_set_self hq]
  · rw [getElem?_set_ne (Ne.symm hqpc), hmarks q hq]
    simp [hqpc]

lemma contains_eq (h : set.Holds n) (hpc : pc < n) :
    set.contains pc = some (decide (pc ∈ set.dense)) := by
  obtain ⟨-, hn, hmarks⟩ := h
  have hlen : pc < set.gen.length := by omega
  have hiff := hmarks pc hlen
  rw [getElem?_eq_getElem hlen, Option.some.injEq] at hiff
  rw [contains, getElem?_eq_getElem hlen, Option.map_some]
  simp only [hiff]

end SparseSet

/-- Where a place goes without taking a byte. -/
def succs (P : List Inst) (input : List UInt8) (pos pc : ℕ) : List ℕ :=
  match P[pc]? with
  | some inst => follows input pos pc inst
  | none => []

lemma length_succs (P : List Inst) (input : List UInt8) (pos pc : ℕ) :
    (succs P input pos pc).length ≤ 2 := by
  rw [succs]
  split
  · rename_i inst _
    cases inst <;> simp only [follows, length_cons, length_nil]
    all_goals first
      | omega
      | split <;> simp
  · simp

/-- What the loop adds is what the search visits. -/
theorem addLoop_eq {prog : Prog} {fuel : ℕ} {stack result : List ℕ} {list : SparseSet}
    (hlist : list.Holds prog.insts.length) (hstack : ∀ pc ∈ stack, pc < prog.insts.length)
    (hwithin : ∀ pc ∈ stack, ∀ q, Reaches (succs prog.insts input pos) pc q → q < prog.insts.length)
    (h : explore (succs prog.insts input pos) fuel stack list.dense = some result) :
    ∃ list', prog.addLoop input pos fuel stack list = some list' ∧
      list'.Holds prog.insts.length ∧ list'.dense = result := by
  induction fuel generalizing stack list with
  | zero =>
    cases stack with
    | nil =>
      cases h
      exact ⟨list, rfl, hlist, rfl⟩
    | cons pc stack => cases h
  | succ fuel ih =>
    cases stack with
    | nil =>
      cases h
      exact ⟨list, rfl, hlist, rfl⟩
    | cons pc stack =>
      have hpc : pc < prog.insts.length := hstack pc mem_cons_self
      have htail : ∀ q ∈ stack, q < prog.insts.length := fun q hq => hstack q (mem_cons_of_mem _ hq)
      have htailWithin : ∀ q ∈ stack, ∀ r, Reaches (succs prog.insts input pos) q r →
          r < prog.insts.length := fun q hq => hwithin q (mem_cons_of_mem _ hq)
      rw [Prog.addLoop, SparseSet.contains_eq hlist hpc]
      by_cases hseen : pc ∈ list.dense
      · rw [explore, if_pos hseen] at h
        simp only [hseen]
        exact ih hlist htail htailWithin h
      rw [explore, if_neg hseen] at h
      have hinst : prog.insts[pc]? = some prog.insts[pc] := getElem?_eq_getElem hpc
      have hsuccs : succs prog.insts input pos pc = follows input pos pc prog.insts[pc] := by
        rw [succs, hinst]
      simp only [hseen, hinst, ← hsuccs]
      refine ih (SparseSet.holds_insert hlist hpc) ?_ ?_ h
      · intro q hq
        rcases mem_append.mp hq with hq | hq
        · exact hwithin pc mem_cons_self q (.single hq)
        · exact htail q hq
      · intro q hq r hr
        rcases mem_append.mp hq with hq | hq
        · exact hwithin pc mem_cons_self r (.head hq hr)
        · exact htailWithin q hq r hr

/-- Adding a thread to a closed set ends, within the bounds of every array, and adds what can be
reached from the thread. -/
theorem addThread_eq {prog : Prog} {list : SparseSet} (hlist : list.Holds prog.insts.length)
    (hclosed : Closed (succs prog.insts input pos) [] list.dense)
    (hwithin : ∀ q, Reaches (succs prog.insts input pos) pc q → q < prog.insts.length) :
    ∃ list', prog.addThread input list pc pos = some list' ∧ list'.Holds prog.insts.length ∧
      Closed (succs prog.insts input pos) [] list'.dense ∧
      ∀ q, q ∈ list'.dense ↔ q ∈ list.dense ∨ Reaches (succs prog.insts input pos) pc q := by
  classical
  set next := succs prog.insts input pos
  let places := (Finset.range prog.insts.length).filter fun q => Reaches next pc q
  have hends : ∃ result, explore next (2 * prog.insts.length + 1) [pc] list.dense =
      some result := by
    have hwidth : ∀ a ∈ places, (next a).length ≤ 2 := fun a _ => length_succs _ _ _ _
    refine explore_ends hwidth ?_ ?_ ?_
    · intro a ha b hb
      have hreach : Reaches next pc b := (Finset.mem_filter.mp ha).2.tail hb
      exact Finset.mem_filter.mpr ⟨mem_range.mpr (hwithin b hreach), hreach⟩
    · intro a ha
      obtain rfl := mem_singleton.mp ha
      exact Finset.mem_filter.mpr ⟨mem_range.mpr (hwithin a .refl), .refl⟩
    have hcard : (places \ list.dense.toFinset).card ≤ prog.insts.length := by
      calc (places \ list.dense.toFinset).card ≤ places.card :=
            Finset.card_le_card Finset.sdiff_subset
        _ ≤ (Finset.range prog.insts.length).card := Finset.card_filter_le _ _
        _ = prog.insts.length := Finset.card_range _
    simp only [length_singleton]
    omega
  obtain ⟨result, hresult⟩ := hends
  obtain ⟨hafter, hmem⟩ := mem_explore hresult hclosed
  obtain ⟨list', hadd, hholds, hdense⟩ := addLoop_eq hlist
    (fun a ha => mem_singleton.mp ha ▸ hwithin pc .refl)
    (fun a ha => mem_singleton.mp ha ▸ hwithin) hresult
  refine ⟨list', hadd, hholds, hdense ▸ hafter, fun q => ?_⟩
  rw [hdense, hmem q]
  simp

end OnetDns.Filter.Regex
