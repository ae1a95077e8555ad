import Mathlib.Logic.Relation
import Mathlib.Data.Finset.Card
import Mathlib.Tactic

/-!
# Search with a stack

From the places on a stack, the search visits every place that can be reached, each once. What was
visited before is not visited again; so a search that is continued from a set which is closed
leaves a closed set.
-/
namespace OnetDns.Worklist
open List

variable {α : Type*} [DecidableEq α] {succs : α → List α} {fuel : ℕ} {stack seen result : List α}
  {a b : α}

/-- One place after another is taken from the stack; `none` if the fuel runs out. -/
def explore (succs : α → List α) : (fuel : ℕ) → (stack seen : List α) → Option (List α)
  | _, [], seen => some seen
  | 0, _ :: _, _ => none
  | fuel + 1, a :: stack, seen =>
    if a ∈ seen then explore succs fuel stack seen
    else explore succs fuel (succs a ++ stack) (seen ++ [a])

/-- From one place to the other over successors. -/
abbrev Reaches (succs : α → List α) : α → α → Prop := Relation.ReflTransGen fun a b => b ∈ succs a

/-- Every visited place has its successors visited, or waiting. -/
def Closed (succs : α → List α) (stack seen : List α) : Prop :=
  ∀ a ∈ seen, ∀ b ∈ succs a, b ∈ seen ∨ b ∈ stack

/-- With fuel for every place that may come up, the search ends. -/
theorem explore_ends {places : Finset α} {width : ℕ}
    (hwidth : ∀ a ∈ places, (succs a).length ≤ width)
    (hclosed : ∀ a ∈ places, ∀ b ∈ succs a, b ∈ places) (hstack : ∀ a ∈ stack, a ∈ places)
    (hfuel : stack.length + width * (places \ seen.toFinset).card ≤ fuel) :
    ∃ result, explore succs fuel stack seen = some result := by
  induction fuel generalizing stack seen with
  | zero =>
    cases stack with
    | nil => exact ⟨seen, rfl⟩
    | cons a stack => simp at hfuel
  | succ fuel ih =>
    cases stack with
    | nil => exact ⟨seen, rfl⟩
    | cons a stack =>
      have ha : a ∈ places := hstack a mem_cons_self
      have htail : ∀ b ∈ stack, b ∈ places := fun b hb => hstack b (mem_cons_of_mem a hb)
      rw [length_cons] at hfuel
      by_cases hseen : a ∈ seen
      · rw [explore, if_pos hseen]
        exact ih htail (by omega)
      rw [explore, if_neg hseen]
      have hmem : a ∈ places \ seen.toFinset := by simp [ha, hseen]
      have hfewer : places \ (seen ++ [a]).toFinset = (places \ seen.toFinset).erase a := by
        ext b
        simp only [toFinset_append, toFinset_cons,
          Finset.mem_sdiff, Finset.mem_union, Finset.mem_erase,
          Finset.mem_insert]
        tauto
      refine ih ?_ ?_
      · intro b hb
        rcases mem_append.mp hb with hb | hb
        · exact hclosed a ha b hb
        · exact htail b hb
      have hlen := hwidth a ha
      obtain ⟨k, hk⟩ := Nat.exists_eq_succ_of_ne_zero (Finset.card_ne_zero_of_mem hmem)
      rw [hfewer, Finset.card_erase_of_mem hmem, hk, length_append, Nat.succ_sub_one]
      rw [hk, Nat.mul_succ] at hfuel
      omega

/-- The stack is visited, what was visited stays, and only what can be reached is added. -/
theorem explore_spec (h : explore succs fuel stack seen = some result) :
    (∀ a ∈ seen, a ∈ result) ∧ (∀ a ∈ stack, a ∈ result) ∧
      (Closed succs stack seen → Closed succs [] result) ∧
      ∀ b ∈ result, b ∈ seen ∨ ∃ a ∈ stack, Reaches succs a b := by
  induction fuel generalizing stack seen with
  | zero =>
    cases stack with
    | nil =>
      cases h
      simp
    | cons a stack => cases h
  | succ fuel ih =>
    cases stack with
    | nil =>
      cases h
      simp
    | cons a stack =>
      by_cases hseen : a ∈ seen
      · rw [explore, if_pos hseen] at h
        obtain ⟨hkept, hvisited, hclosed, honly⟩ := ih h
        refine ⟨hkept, ?_, ?_, ?_⟩
        · intro b hb
          rcases mem_cons.mp hb with rfl | hb
          · exact hkept b hseen
          · exact hvisited b hb
        · intro hc
          refine hclosed fun b hb c hsucc => ?_
          rcases hc b hb c hsucc with hin | hin
          · exact .inl hin
          · rcases mem_cons.mp hin with rfl | hin
            · exact .inl hseen
            · exact .inr hin
        · intro b hb
          rcases honly b hb with hin | ⟨c, hc, hreach⟩
          · exact .inl hin
          · exact .inr ⟨c, mem_cons_of_mem a hc, hreach⟩
      rw [explore, if_neg hseen] at h
      obtain ⟨hkept, hvisited, hclosed, honly⟩ := ih h
      have ha : a ∈ result := hkept a (by simp)
      refine ⟨fun b hb => hkept b (by simp [hb]), ?_, ?_, ?_⟩
      · intro b hb
        rcases mem_cons.mp hb with rfl | hb
        · exact ha
        · exact hvisited b (by simp [hb])
      · intro hc
        refine hclosed fun b hb c hsucc => ?_
        rcases mem_append.mp hb with hb | hb
        · rcases hc b hb c hsucc with hin | hin
          · exact .inl (by simp [hin])
          · rcases mem_cons.mp hin with rfl | hin
            · exact .inl (by simp)
            · exact .inr (by simp [hin])
        · obtain rfl := mem_singleton.mp hb
          exact .inr (by simp [hsucc])
      · intro b hb
        rcases honly b hb with hin | ⟨c, hc, hreach⟩
        · rcases mem_append.mp hin with hin | hin
          · exact .inl hin
          · obtain rfl := mem_singleton.mp hin
            exact .inr ⟨b, by simp, .refl⟩
        · rcases mem_append.mp hc with hc | hc
          · exact .inr ⟨a, by simp, .head hc hreach⟩
          · exact .inr ⟨c, by simp [hc], hreach⟩

omit [DecidableEq α] in
lemma closed_reaches (h : Closed succs [] seen) (ha : a ∈ seen) (hreach : Reaches succs a b) :
    b ∈ seen := by
  induction hreach with
  | refl => exact ha
  | tail _ hsucc ih => exact (h _ ih _ hsucc).resolve_right not_mem_nil

/-- Continued from a closed set, the search adds exactly what can be reached from the stack. -/
theorem mem_explore (h : explore succs fuel stack seen = some result)
    (hclosed : Closed succs [] seen) :
    Closed succs [] result ∧ ∀ b, b ∈ result ↔ b ∈ seen ∨ ∃ a ∈ stack, Reaches succs a b := by
  obtain ⟨hkept, hvisited, hthen, honly⟩ := explore_spec h
  have hresult := hthen fun a ha b hb => .inl ((hclosed a ha b hb).resolve_right not_mem_nil)
  refine ⟨hresult, fun b => ⟨honly b, ?_⟩⟩
  rintro (hb | ⟨a, ha, hreach⟩)
  · exact hkept b hb
  · exact closed_reaches hresult (hvisited a ha) hreach

end OnetDns.Worklist
