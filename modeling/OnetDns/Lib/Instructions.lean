import Mathlib.Tactic

/-!
# Instruction streams that arrive in pieces

A receiver of an ordered stream looks at the bytes it holds, takes one instruction after
another and keeps the bytes of an unfinished one until more arrive. When the verdict on a
complete or a malformed instruction does not change as more bytes follow, the cuts between
the pieces are invisible.
-/
namespace OnetDns.Instructions
open List Option

variable {σ α : Type}

/-- What a look at the front of the buffer gives. -/
inductive Look (σ α : Type) where
  | more
  | reject
  | take (next : σ) (rest : List α)

/-- A verdict stands when more bytes follow, and an instruction has at least one byte. -/
structure Stable (look : σ → List α → Look σ α) : Prop where
  reject : ∀ s buf tail, look s buf = .reject → look s (buf ++ tail) = .reject
  take : ∀ s buf tail s' rest, look s buf = .take s' rest →
    look s (buf ++ tail) = .take s' (rest ++ tail)
  shorter : ∀ s buf s' rest, look s buf = .take s' rest → rest.length < buf.length

/-- The receiver's loop, for at most `fuel` instructions. -/
def drainWith (look : σ → List α → Look σ α) : ℕ → σ → List α → Option (σ × List α)
  | 0, s, buf => some (s, buf)
  | _ + 1, s, [] => some (s, [])
  | fuel + 1, s, a :: buf =>
    match look s (a :: buf) with
    | .more => some (s, a :: buf)
    | .reject => none
    | .take s' rest => drainWith look fuel s' rest

/-- The receiver's loop: the state it ends in and the bytes that wait, or `none` when an
instruction is malformed. -/
def drain (look : σ → List α → Look σ α) (s : σ) (buf : List α) : Option (σ × List α) :=
  drainWith look buf.length s buf

section Loop

variable {look : σ → List α → Look σ α} {buf : List α} {s : σ}

lemma drainWith_eq (hlook : Stable look) {fuel fuel' : ℕ}
    (h : buf.length ≤ fuel) (h' : buf.length ≤ fuel') :
    drainWith look fuel s buf = drainWith look fuel' s buf := by
  induction fuel generalizing fuel' s buf with
  | zero =>
    obtain rfl : buf = [] := length_eq_zero_iff.1 (by omega)
    cases fuel' <;> rfl
  | succ fuel ih =>
    cases buf with
    | nil => cases fuel' <;> rfl
    | cons a buf =>
      cases fuel' with
      | zero => simp at h'
      | succ fuel' =>
        simp only [drainWith]
        cases hv : look s (a :: buf) with
        | more => rfl
        | reject => rfl
        | take s' rest =>
          have := hlook.shorter s _ s' rest hv
          exact ih (by omega) (by omega)

@[simp] lemma drain_nil (s : σ) : drain look s [] = some (s, []) := rfl

lemma drain_more (h : look s buf = .more) : drain look s buf = some (s, buf) := by
  cases buf with
  | nil => rfl
  | cons a buf => simp [drain, drainWith, h]

lemma drain_reject (hne : buf ≠ []) (h : look s buf = .reject) : drain look s buf = none := by
  cases buf with
  | nil => exact absurd rfl hne
  | cons a buf => simp [drain, drainWith, h]

variable {s' : σ} {rest : List α}

section

variable (hlook : Stable look)
include hlook

lemma drain_take (h : look s buf = .take s' rest) : drain look s buf = drain look s' rest := by
  have hshort := hlook.shorter s buf s' rest h
  cases buf with
  | nil => simp at hshort
  | cons a buf =>
    simp only [length_cons] at hshort
    simp only [drain, length_cons, drainWith, h]
    exact drainWith_eq hlook (by omega) le_rfl

/-- Draining two pieces at once is draining the first and then the second behind what was
left of it. -/
theorem drain_append (s : σ) (buf tail : List α) :
    drain look s (buf ++ tail) = (drain look s buf).bind fun r => drain look r.1 (r.2 ++ tail) := by
  induction hn : buf.length using Nat.strong_induction_on generalizing s buf with
  | _ n ih =>
    cases hv : look s buf with
    | more => rw [drain_more hv, bind_some]
    | reject =>
      by_cases hne : buf = []
      · subst hne
        rw [drain_nil, bind_some]
      · rw [drain_reject hne hv, drain_reject (by simp [hne]) (hlook.reject s buf tail hv),
          bind_none]
    | take s' rest =>
      have hshort := hlook.shorter s buf s' rest hv
      rw [drain_take hlook hv, drain_take hlook (hlook.take s buf tail s' rest hv)]
      exact ih rest.length (by omega) s' rest rfl

lemma drain_keeps {P : σ → Prop}
    (hstep : ∀ s buf s' rest, P s → look s buf = .take s' rest → P s') (hs : P s)
    (h : drain look s buf = some (s', rest)) : P s' := by
  induction hn : buf.length using Nat.strong_induction_on generalizing s buf with
  | _ n ih =>
    cases hv : look s buf with
    | more =>
      rw [drain_more hv] at h
      obtain ⟨rfl, rfl⟩ := Prod.mk.inj (some.inj h)
      exact hs
    | reject =>
      by_cases hne : buf = []
      · subst hne
        obtain ⟨rfl, rfl⟩ := Prod.mk.inj (some.inj h)
        exact hs
      · rw [drain_reject hne hv] at h
        cases h
    | take s₁ rest₁ =>
      rw [drain_take hlook hv] at h
      exact ih rest₁.length (hn ▸ hlook.shorter s buf s₁ rest₁ hv) (hstep s buf s₁ rest₁ hs hv) h rfl

/-- No instruction is complete in what the loop leaves. -/
theorem drain_rest
    (h : drain look s buf = some (s', rest)) : drain look s' rest = some (s', rest) := by
  have happ := drain_append hlook s buf []
  rw [append_nil, h, bind_some, append_nil] at happ
  exact happ.symm

lemma drain_length (h : drain look s buf = some (s', rest)) : rest.length ≤ buf.length := by
  induction hn : buf.length using Nat.strong_induction_on generalizing s buf with
  | _ n ih =>
    cases hv : look s buf with
    | more =>
      rw [drain_more hv] at h
      obtain ⟨rfl, rfl⟩ := Prod.mk.inj (some.inj h)
      exact hn.le
    | reject =>
      by_cases hne : buf = []
      · subst hne
        obtain ⟨rfl, rfl⟩ := Prod.mk.inj (some.inj h)
        exact hn.le
      · rw [drain_reject hne hv] at h
        cases h
    | take s₁ rest₁ =>
      have hshort := hlook.shorter s buf s₁ rest₁ hv
      rw [drain_take hlook hv] at h
      have := ih rest₁.length (by omega) h rfl
      omega

/-- A look that takes whatever another takes, and waits where it waits, ends where it
ends. -/
theorem drain_mono {look' : σ → List α → Look σ α} (hlook' : Stable look')
    (htake : ∀ s buf s' rest, look s buf = .take s' rest → look' s buf = .take s' rest)
    (hmore : ∀ s buf, look s buf = .more → look' s buf = .more)
    (h : drain look s buf = some (s', rest)) : drain look' s buf = some (s', rest) := by
  induction hn : buf.length using Nat.strong_induction_on generalizing s buf with
  | _ n ih =>
    cases hv : look s buf with
    | more => rwa [drain_more (hmore s buf hv), ← drain_more hv]
    | reject =>
      by_cases hne : buf = []
      · subst hne
        exact h
      · rw [drain_reject hne hv] at h
        cases h
    | take s₁ rest₁ =>
      rw [drain_take hlook hv] at h
      rw [drain_take hlook' (htake s buf s₁ rest₁ hv)]
      exact ih rest₁.length (hn ▸ hlook.shorter s buf s₁ rest₁ hv) h rfl

/-- The loop over one instruction. -/
theorem drain_one (h : look s buf = .take s' []) : drain look s buf = some (s', []) := by
  rw [drain_take hlook h, drain_nil]

end

end Loop

section Pieces

/-- A piece is appended to the bytes that wait, unless they are too many. -/
def feed (look : σ → List α → Look σ α) (limit : ℕ) (r : σ × List α) (piece : List α) :
    Option (σ × List α) :=
  if limit < r.2.length + piece.length then none else drain look r.1 (r.2 ++ piece)

/-- No piece takes the waiting bytes over the limit. -/
def AllFit (look : σ → List α → Look σ α) (limit : ℕ) : σ × List α → List (List α) → Prop
  | _, [] => True
  | r, piece :: pieces =>
    r.2.length + piece.length ≤ limit ∧
      ∀ r', feed look limit r piece = some r' → AllFit look limit r' pieces

variable {look : σ → List α → Look σ α} {limit : ℕ}

instance decidableAllFit : (r : σ × List α) → (pieces : List (List α)) →
    Decidable (AllFit look limit r pieces)
  | _, [] => .isTrue trivial
  | r, piece :: pieces =>
    haveI : Decidable (∀ r', feed look limit r piece = some r' → AllFit look limit r' pieces) :=
      match feed look limit r piece with
      | none => .isTrue nofun
      | some r₁ =>
        haveI := decidableAllFit r₁ pieces
        decidable_of_iff (AllFit look limit r₁ pieces) (by simp)
    inferInstanceAs (Decidable (_ ∧ _))

/-- Feeding piece by piece is draining the whole. -/
theorem foldlM_feed (hlook : Stable look) {r : σ × List α} (hrest : drain look r.1 r.2 = some r)
    {pieces : List (List α)} (hfit : AllFit look limit r pieces) :
    pieces.foldlM (feed look limit) r = drain look r.1 (r.2 ++ pieces.flatten) := by
  induction pieces generalizing r with
  | nil => simpa using hrest.symm
  | cons piece pieces ih =>
    obtain ⟨hroom, hnext⟩ := hfit
    have hfeed : feed look limit r piece = drain look r.1 (r.2 ++ piece) := if_neg (not_lt.2 hroom)
    rw [foldlM_cons, hfeed, flatten_cons, ← append_assoc, drain_append hlook r.1 (r.2 ++ piece)]
    cases hdrain : drain look r.1 (r.2 ++ piece) with
    | none => rfl
    | some r' => exact ih (drain_rest hlook hdrain) (hnext r' (hfeed.trans hdrain))

end Pieces

end OnetDns.Instructions
