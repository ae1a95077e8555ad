import Mathlib.Data.List.Basic
import Mathlib.Data.List.Infix
import Mathlib.Tactic

/-!
# Logs that descend from one log per term

Entries carry a stamp, the term that made them. In a replicated log every term
has one writer, so there is one *term log* for each term: the writer's own log.
A log is canonical when each of its entries sits in the term log of its stamp
with the same entries before it.
-/
namespace OnetDns.TermLog
open List

/-- Entries that carry the term that made them. -/
class Stamped (ε : Type*) where
  stamp : ε → ℕ

export Stamped (stamp)

variable {ε : Type*}

/-- Write `es` at place `p`: a list that holds it there already stays as it is,
otherwise everything from `p` on is replaced. -/
def splice [DecidableEq ε] (old : List ε) (p : ℕ) (es : List ε) : List ε :=
  if es <+: old.drop p then old else old.take p ++ es

variable {a b : List ε}

lemma prefix_take_eq (h : a <+: b) {i : ℕ} (hi : i ≤ a.length) : b.take i = a.take i := by
  obtain ⟨c, rfl⟩ := h
  exact take_append_of_le_length hi

lemma take_eq_mono {i j : ℕ} (h : a.take j = b.take j) (hij : i ≤ j) : a.take i = b.take i := by
  have := congrArg (take i) h
  simpa [take_take, min_eq_left hij] using this

lemma getElem?_of_take_eq {i j : ℕ} (h : a.take j = b.take j) (hij : i < j) : a[i]? = b[i]? := by
  rw [← getElem?_take_of_lt hij, h, getElem?_take_of_lt hij]

lemma take_append_eq {a x : List ε} {p : ℕ} {es : List ε} (hp : a.take p = x.take p)
    (hes : es <+: x.drop p) : a.take p ++ es = x.take (p + es.length) := by
  rw [take_add, hp, prefix_take_eq hes le_rfl, take_length]

variable {e : ε}

lemma cons_prefix_drop_iff {old es : List ε} {p : ℕ} :
    e :: es <+: old.drop p ↔ old[p]? = some e ∧ es <+: old.drop (p + 1) := by
  rcases lt_or_ge p old.length with hlt | hge
  · rw [drop_eq_getElem_cons hlt, cons_prefix_cons, getElem?_eq_getElem hlt,
      Option.some.injEq, eq_comm]
  · simp [drop_eq_nil_of_le hge, getElem?_eq_none hge]

section Splice

variable [DecidableEq ε] {old x es : List ε} {p i : ℕ}

/-- After a splice from `x` the list agrees with `x` up to the end of what was written. -/
theorem splice_take (hp : old.take p = x.take p) (hes : es <+: x.drop p) :
    (splice old p es).take (p + es.length) = x.take (p + es.length) := by
  unfold splice
  split
  · rename_i h
    rw [take_add, prefix_take_eq h le_rfl, take_length, take_append_eq hp hes]
  · rw [take_append_eq hp hes, take_take, min_self]

/-- A splice from `x` keeps whatever agreed with `x` before. -/
theorem splice_take_of_agree (hp : old.take p = x.take p) (hes : es <+: x.drop p)
    (hi : old.take i = x.take i) : (splice old p es).take i = x.take i := by
  unfold splice
  split
  · exact hi
  rename_i h
  rw [take_append_eq hp hes, take_take]
  rcases le_total i (p + es.length) with hle | hle
  · rw [min_eq_left hle]
  exfalso
  have hcut := take_eq_mono hi hle
  rw [take_add, ← take_append_eq hp hes] at hcut
  have hes' : (old.drop p).take es.length = es := append_cancel_left hcut
  exact h (hes' ▸ take_prefix _ _)

lemma splice_eq_or (hp : old.take p = x.take p) (hes : es <+: x.drop p) :
    splice old p es = old ∨ splice old p es = x.take (p + es.length) := by
  unfold splice
  split
  · exact .inl rfl
  · exact .inr (take_append_eq hp hes)

lemma splice_length (old es : List ε) : splice old old.length es = old ++ es := by
  unfold splice
  split
  · rename_i h
    rw [drop_length, prefix_nil] at h
    rw [h, append_nil]
  · rw [take_length]

/-- An entry that is there already changes nothing. -/
theorem splice_cons_same (h : old[p]? = some e) :
    splice old p (e :: es) = splice old (p + 1) es := by
  have htake : old.take (p + 1) = old.take p ++ [e] := by
    rw [take_add_one, h, Option.toList_some]
  simp only [splice, cons_prefix_drop_iff, h, true_and, htake, append_assoc, singleton_append]

/-- A conflict cuts the rest off. -/
theorem splice_cons_diff (h : old[p]? ≠ some e) :
    splice old p (e :: es) = old.take p ++ e :: es := by
  rw [splice, if_neg]
  exact fun hpre => h (cons_prefix_drop_iff.mp hpre).1

end Splice

variable [Stamped ε] {L L' : ℕ → List ε} {a b ℓ : List ε}

/-- Every entry is in the term log of its stamp, with the same entries before it. -/
def Canon (L : ℕ → List ε) (ℓ : List ε) : Prop :=
  ∀ i e, ℓ[i]? = some e → ℓ.take (i + 1) = (L (stamp e)).take (i + 1)

/-- Stamp of the last entry, 0 for the empty log. -/
def lastStamp (ℓ : List ε) : ℕ := ℓ.getLast?.elim 0 stamp

/-- No term log holds an entry of a later term. -/
def Bounded (L : ℕ → List ε) : Prop := ∀ t, ∀ e ∈ L t, stamp e ≤ t

lemma canon_nil : Canon L ([] : List ε) := by
  intro i e h
  simp at h

lemma Canon.take (h : Canon L ℓ) (n : ℕ) : Canon L (ℓ.take n) := by
  intro i e he
  rw [getElem?_take] at he
  split at he
  · rw [take_take, min_eq_left (by omega)]
    exact h i e he
  · cases he

lemma Canon.mono (h : Canon L ℓ) (hL : ∀ t, L t <+: L' t) : Canon L' ℓ := by
  intro i e he
  have hi := h i e he
  have hlt : i < ℓ.length := by
    by_contra hc
    rw [getElem?_eq_none (by omega)] at he
    cases he
  have hlen : i + 1 ≤ (L (stamp e)).length := by
    have := congrArg length hi
    simp only [length_take] at this
    omega
  rw [hi, prefix_take_eq (hL _) hlen]

/-- Log matching: equal stamps at one place mean equal logs up to there. -/
theorem Canon.matching (ha : Canon L a) (hb : Canon L b) {i : ℕ} {f : ε}
    (he : a[i]? = some e) (hf : b[i]? = some f) (hs : stamp e = stamp f) :
    a.take (i + 1) = b.take (i + 1) := by
  rw [ha i e he, hb i f hf, hs]

/-- A term log may grow by entries of its own term. -/
theorem Canon.append (h : Canon L ℓ) {t : ℕ} {es : List ε} (hes : ∀ e ∈ es, stamp e = t)
    (hL : ∀ u, L u <+: L' u) (ht : L' t = ℓ ++ es) : Canon L' (ℓ ++ es) := by
  intro i e he
  rcases lt_or_ge i ℓ.length with hi | hi
  · rw [getElem?_append_left hi] at he
    rw [take_append_of_le_length (by omega)]
    exact h.mono hL i e he
  · rw [getElem?_append_right hi] at he
    rw [hes e (mem_of_getElem? he), ht]

lemma getLast?_of_lastStamp {ℓ : List ε} (h : ℓ ≠ []) :
    ∃ e, ℓ[ℓ.length - 1]? = some e ∧ stamp e = lastStamp ℓ := by
  refine ⟨ℓ.getLast h, ?_, ?_⟩
  · rw [← getLast?_eq_getElem?, getLast?_eq_getLast_of_ne_nil h]
  · simp [lastStamp, getLast?_eq_getLast_of_ne_nil h]

/-- A canonical log is the start of the term log of its last stamp. -/
theorem Canon.eq_take (h : Canon L ℓ) (hne : ℓ ≠ []) : ℓ = (L (lastStamp ℓ)).take ℓ.length := by
  obtain ⟨e, he, hs⟩ := getLast?_of_lastStamp hne
  have hpos := length_pos_iff.mpr hne
  have := h _ e he
  rwa [Nat.sub_add_cancel hpos, take_length, hs] at this

/-- Stamps never decrease along a canonical log. -/
theorem Canon.stamp_le (h : Canon L ℓ) (hL : Bounded L) {i j : ℕ} {f : ε} (hij : i ≤ j)
    (he : ℓ[i]? = some e) (hf : ℓ[j]? = some f) : stamp e ≤ stamp f := by
  have hmem : (L (stamp f))[i]? = some e := by
    rw [← getElem?_of_take_eq (h j f hf) (by omega), he]
  exact hL _ e (mem_of_getElem? hmem)

lemma Canon.stamp_le_last (h : Canon L ℓ) (hL : Bounded L) {i : ℕ}
    (he : ℓ[i]? = some e) : stamp e ≤ lastStamp ℓ := by
  have hlt := (List.getElem?_eq_some_iff.mp he).1
  obtain ⟨f, hf, hs⟩ := getLast?_of_lastStamp (ne_nil_of_length_pos (Nat.zero_lt_of_lt hlt))
  exact hs ▸ h.stamp_le hL (by omega) he hf

/-- `a` is at least as far as `b`: the last stamp decides, then the length. -/
def UpToDate (a b : List ε) : Prop :=
  lastStamp b < lastStamp a ∨ (lastStamp a = lastStamp b ∧ b.length ≤ a.length)

/-- Being up to date carries a prefix of a term log over, once every term log
between the two stamps holds that prefix. -/
theorem UpToDate.carries (hL : Bounded L) {t i : ℕ} (hi : 0 < i) (he : (L t)[i - 1]? = some e) (hs : stamp e = t)
    (ha : Canon L a) (hb : Canon L b) (hup : UpToDate a b) (hbi : b.take i = (L t).take i)
    (hbetween : t < lastStamp a → (L (lastStamp a)).take i = (L t).take i) :
    a.take i = (L t).take i := by
  have hlen : i ≤ (L t).length := by
    by_contra hc
    rw [getElem?_eq_none (by omega)] at he
    cases he
  have hblen : i ≤ b.length := by
    have := congrArg length hbi
    simp only [length_take] at this
    omega
  have hbe : b[i - 1]? = some e := by
    rw [getElem?_of_take_eq hbi (by omega), he]
  have hbt : t ≤ lastStamp b := hs ▸ hb.stamp_le_last hL hbe
  have hane : a ≠ [] := by
    rintro rfl
    rcases hup with h | ⟨_, h⟩
    · simp [lastStamp] at h
    · simp only [length_nil] at h
      omega
  have haeq := ha.eq_take hane
  rcases eq_or_lt_of_le (show t ≤ lastStamp a by rcases hup with h | h <;> omega) with ht | ht
  · -- both logs end inside term `t`, and `a` is the longer one
    have hab : b.length ≤ a.length := by
      rcases hup with h | h
      · omega
      · exact h.2
    rw [haeq, ← ht, take_take, min_eq_left (by omega)]
  -- the last entry of `a` is younger than the prefix, so it comes after it
  have hpre := hbetween ht
  have hai : i < a.length := by
    by_contra hc
    have hpos := length_pos_iff.mpr hane
    obtain ⟨f, hf, hfs⟩ := getLast?_of_lastStamp hane
    have hlast : (L (lastStamp a))[a.length - 1]? = some f := by
      rw [← getElem?_take_of_lt (show a.length - 1 < a.length by omega), ← haeq, hf]
    rw [getElem?_of_take_eq hpre (by omega)] at hlast
    have := hL t f (mem_of_getElem? hlast)
    omega
  rw [haeq, take_take, min_eq_left (by omega), hpre]

end OnetDns.TermLog
