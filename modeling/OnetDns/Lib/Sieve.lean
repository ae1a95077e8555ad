import Mathlib.Data.List.Nodup
import Mathlib.Tactic

/-!
# Passing over a finite map

The entries of a map are visited one after the other; a test that sees and changes a state decides
which of them stay. Whatever the order is, the map that is left follows from it.
-/
namespace OnetDns.Sieve
open List

variable {κ α σ : Type*} {keep : α → σ → Bool × σ} {f g h : κ → Option α} {s t u : σ}
  {visited visited' : List (κ × α)} {k : κ} {v : α}

/-- The entries that stay, and the state after the last one. -/
def sieve (keep : α → σ → Bool × σ) : List (κ × α) → σ → List (κ × α) × σ
  | [], s => ([], s)
  | b :: rest, s =>
    let (kept, s) := keep b.2 s
    let (rest, s) := sieve keep rest s
    (if kept then b :: rest else rest, s)

lemma sieve_append (keep : α → σ → Bool × σ) (l r : List (κ × α)) (s : σ) :
    sieve keep (l ++ r) s = ((sieve keep l s).1 ++ (sieve keep r (sieve keep l s).2).1,
      (sieve keep r (sieve keep l s).2).2) := by
  induction l generalizing s with
  | nil => rfl
  | cons b l ih =>
    simp only [cons_append, sieve, ih]
    split <;> rfl

lemma sieve_sublist (keep : α → σ → Bool × σ) (l : List (κ × α)) (s : σ) :
    (sieve keep l s).1.Sublist l := by
  induction l generalizing s with
  | nil => exact .slnil
  | cons b l ih =>
    simp only [sieve]
    split
    · exact (ih _).cons_cons b
    · exact (ih _).cons b

lemma mem_of_mem_sieve {l : List (κ × α)} (hmem : (k, v) ∈ (sieve keep l s).1) :
    k ∈ l.map Prod.fst :=
  mem_map.mpr ⟨(k, v), (sieve_sublist keep l s).mem hmem, rfl⟩

/-- Some entries were visited, each once; the others are as they were. -/
structure Sieved (keep : α → σ → Bool × σ) (f g : κ → Option α) (s t : σ)
    (visited : List (κ × α)) : Prop where
  nodup : (visited.map Prod.fst).Nodup
  stored : ∀ b ∈ visited, f b.1 = some b.2
  state : t = (sieve keep visited s).2
  left : ∀ k v, g k = some v ↔
    f k = some v ∧ (k ∉ visited.map Prod.fst ∨ (k, v) ∈ (sieve keep visited s).1)

namespace Sieved

lemma refl (keep : α → σ → Bool × σ) (f : κ → Option α) (s : σ) : Sieved keep f f s s [] :=
  ⟨nodup_nil, by simp, rfl, by simp⟩

lemma stay (hf : f k = some v) (hkeep : keep v s = (true, t)) : Sieved keep f f s t [(k, v)] := by
  refine ⟨by simp, by simpa using hf, by simp [sieve, hkeep], fun j w => ⟨fun hj => ⟨hj, ?_⟩, And.left⟩⟩
  by_cases hjk : j = k
  · subst hjk
    obtain rfl : v = w := Option.some.inj (hf.symm.trans hj)
    exact .inr (by simp [sieve, hkeep])
  · exact .inl (by simpa using hjk)

lemma drop [DecidableEq κ] (hf : f k = some v) (hkeep : keep v s = (false, t))
    (hg : ∀ j, g j = if j = k then none else f j) : Sieved keep f g s t [(k, v)] := by
  refine ⟨by simp, by simpa using hf, by simp [sieve, hkeep], fun j w => ?_⟩
  rw [hg]
  by_cases hjk : j = k
  · subst hjk
    simp [sieve, hkeep]
  · simp [hjk]

section

variable (hfg : Sieved keep f g s t visited)
include hfg

lemma trans (hgh : Sieved keep g h t u visited')
    (hapart : ∀ k ∈ visited.map Prod.fst, k ∉ visited'.map Prod.fst) :
    Sieved keep f h s u (visited ++ visited') := by
  have hsieve := sieve_append keep visited visited' s
  rw [← hfg.state] at hsieve
  refine ⟨?_, fun b hb => ?_, by rw [hsieve, hgh.state], fun k v => ?_⟩
  · rw [map_append]
    exact Nodup.append hfg.nodup hgh.nodup hapart
  · rcases mem_append.mp hb with hb | hb
    · exact hfg.stored b hb
    · exact ((hfg.left b.1 b.2).mp (hgh.stored b hb)).1
  rw [hgh.left, hfg.left, hsieve, map_append, mem_append, mem_append, not_or]
  constructor
  · rintro ⟨⟨hf, hfirst⟩, hsecond⟩
    refine ⟨hf, ?_⟩
    rcases hfirst with hfirst | hfirst
    · rcases hsecond with hsecond | hsecond
      · exact .inl ⟨hfirst, hsecond⟩
      · exact .inr (.inr hsecond)
    · exact .inr (.inl hfirst)
  · rintro ⟨hf, ⟨hfirst, hsecond⟩ | hfirst | hsecond⟩
    · exact ⟨⟨hf, .inl hfirst⟩, .inl hsecond⟩
    · exact ⟨⟨hf, .inr hfirst⟩, .inl (hapart k (mem_of_mem_sieve hfirst))⟩
    · refine ⟨⟨hf, .inl fun hin => ?_⟩, .inr hsecond⟩
      exact hapart k hin (mem_of_mem_sieve hsecond)

lemma of_left (hg : g k = some v) : f k = some v := ((hfg.left k v).mp hg).1

lemma of_notMem (hk : k ∉ visited.map Prod.fst) : g k = f k := by
  apply Option.ext
  intro v
  rw [hfg.left]
  exact ⟨And.left, fun hf => ⟨hf, .inl hk⟩⟩

lemma some_of_mem (hk : k ∈ visited.map Prod.fst) : ∃ v, f k = some v := by
  obtain ⟨b, hb, rfl⟩ := mem_map.mp hk
  exact ⟨b.2, hfg.stored b hb⟩

end

end Sieved

end OnetDns.Sieve
