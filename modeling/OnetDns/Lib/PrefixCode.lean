import OnetDns.Lib.BigEndian

/-!
# Parsers and what they read off the front

A parser takes its value from the front of a list and leaves the rest. `Reads p front v` says that
`front` is read as `v` whatever stands behind it, so the codes of several values can be put one behind
the other.
-/
namespace OnetDns.PrefixCode
open List

variable {α β γ : Type}

abbrev Parser (α β : Type) := StateT (List α) Option β

/-- Whatever stands behind `front`, the value is read and the rest is left. -/
def Reads (p : Parser α β) (front : List α) (v : β) : Prop :=
  ∀ rest, p (front ++ rest) = some (v, rest)

variable {p : Parser α β} {k : β → Parser α γ} {front more xs : List α} {v : β} {w : γ}

lemma reads_pure (v : β) : Reads (pure v : Parser α β) [] v := fun _ => rfl

lemma Reads.bind (h : Reads p front v) (hk : Reads (k v) more w) :
    Reads (p >>= k) (front ++ more) w := by
  intro rest
  change (p (front ++ more ++ rest) >>= fun r => k r.1 r.2) = _
  rw [append_assoc, h]
  exact hk rest

/-- What is read last. -/
theorem Reads.last (h : Reads p front v) (hk : k v = pure w) : Reads (p >>= k) front w := by
  have hbind : Reads (p >>= k) (front ++ []) w := h.bind (by rw [hk]; exact reads_pure w)
  rwa [append_nil] at hbind

/-- Fails without a reason. -/
def fail : Parser α β := fun _ => none

def guard (c : Prop) [Decidable c] : Parser α Unit := if c then pure () else fail

lemma reads_guard {c : Prop} [Decidable c] (h : c) : Reads (guard c : Parser α Unit) [] () := by
  rw [guard, if_pos h]
  exact reads_pure ()

/-- The first `n` items. -/
def take (n : ℕ) : Parser α (List α) :=
  fun xs => if n ≤ xs.length then some (xs.take n, xs.drop n) else none

lemma reads_take {n : ℕ} (h : xs.length = n) : Reads (take n) xs xs := by
  subst h
  intro rest
  rw [take, if_pos (by rw [length_append]; omega), take_left, drop_left]

/-- One item. -/
def item : Parser α α
  | [] => none
  | x :: rest => some (x, rest)

lemma reads_item (x : α) : Reads item [x] x := fun _ => rfl

lemma reads_get {k : List α → Parser α β} (h : ∀ rest, Reads (k (front ++ rest)) front v) :
    Reads (get >>= k) front v :=
  fun rest => h rest rest

/-- All that is left. -/
def rest : Parser α (List α) := fun xs => some (xs, [])

/-- The same thing several times. -/
def count : ℕ → Parser α β → Parser α (List β)
  | 0, _ => pure []
  | n + 1, p => do
    let v ← p
    let vs ← count n p
    return v :: vs

lemma reads_count {write : β → List α} {vs : List β} (h : ∀ v ∈ vs, Reads p (write v) v) :
    Reads (count vs.length p) (vs.flatMap write) vs := by
  induction vs with
  | nil => exact reads_pure []
  | cons v vs ih =>
    refine (h v mem_cons_self).bind (.last (ih fun w hw => ?_) rfl)
    exact h w (mem_cons_of_mem v hw)

end OnetDns.PrefixCode
