import Mathlib.Data.List.AList
import Mathlib.Tactic

/-!
# Counting the entries of a finite map

How many entries of a map answer a question, how this changes with the entry of one key, and
what happens to it when only some of the entries are kept.
-/
namespace OnetDns.Tally
open List AList

variable {α β : Type*} [DecidableEq α] {p q : α → β → Bool} {m : AList fun _ : α => β}
  {a c : α} {b d : β}

def tally (p : α → β → Bool) (m : AList fun _ : α => β) : ℕ :=
  m.entries.countP fun entry => p entry.1 entry.2

/-- What one key adds to the count. -/
def share (p : α → β → Bool) (m : AList fun _ : α => β) (a : α) : ℕ :=
  ((m.lookup a).any (p a)).toNat

def size (m : AList fun _ : α => β) : ℕ := m.entries.length

lemma mem_entries : (⟨a, b⟩ : Sigma fun _ : α => β) ∈ m.entries ↔ m.lookup a = some b :=
  mem_lookup_iff.symm

lemma tally_erase (p : α → β → Bool) (m : AList fun _ : α => β) (a : α) :
    tally p (m.erase a) + share p m a = tally p m := by
  by_cases hmem : a ∈ m
  · obtain ⟨b, front, back, -, hentries, herase⟩ :=
      exists_of_kerase (mem_keys.mp hmem)
    have hb : m.lookup a = some b := mem_entries.mp (by rw [hentries]; simp)
    have herase' : (m.erase a).entries = front ++ back := herase
    rw [tally, tally, share, hentries, herase', hb]
    simp only [countP_append, countP_cons, Option.any_some]
    cases p a b <;> simp
    omega
  · have hnone : m.lookup a = none := lookup_eq_none.mpr hmem
    have herase : (m.erase a).entries = m.entries := kerase_of_notMem_keys (mem_keys.not.mp hmem)
    simp [tally, share, hnone, herase]

section

variable (p m a b)

lemma tally_insert :
    tally p (m.insert a b) + share p m a = tally p m + (p a b).toNat := by
  have herase := tally_erase p m a
  have hinsert : tally p (m.insert a b) = tally p (m.erase a) + (p a b).toNat := by
    simp only [tally, entries_insert, countP_cons]
    cases p a b <;> rfl
  omega

omit [DecidableEq α] in
omit [DecidableEq α] in
lemma tally_le_size : tally p m ≤ size m := countP_le_length

lemma share_le : share p m a ≤ 1 := Bool.toNat_le _

end

lemma share_of_lookup (h : m.lookup a = some b) : share p m a = (p a b).toNat := by
  rw [share, h, Option.any_some]

lemma share_of_none (h : m.lookup a = none) : share p m a = 0 := by
  rw [share, h]
  rfl

lemma share_le_tally (p : α → β → Bool) (m : AList fun _ : α => β) (a : α) :
    share p m a ≤ tally p m := by
  have := tally_erase p m a
  omega

lemma tally_pos_iff : 0 < tally p m ↔ ∃ a b, m.lookup a = some b ∧ p a b := by
  rw [tally, countP_pos_iff]
  constructor
  · rintro ⟨⟨a, b⟩, hmem, hp⟩
    exact ⟨a, b, mem_entries.mp hmem, hp⟩
  · rintro ⟨a, b, hb, hp⟩
    exact ⟨⟨a, b⟩, mem_entries.mpr hb, hp⟩

/-- Where one key makes up the whole count, no other entry is counted. -/
theorem eq_of_tally_le_share (hle : tally p m ≤ share p m a) (hc : m.lookup c = some d)
    (hp : p c d) : c = a := by
  by_contra hne
  have herase := tally_erase p m a
  have hpos : 0 < tally p (m.erase a) :=
    tally_pos_iff.mpr ⟨c, d, by rw [lookup_erase_ne hne, hc], hp⟩
  omega

/-- An entry that is counted at most once is the only one. -/
theorem eq_of_tally_le_one (hle : tally p m ≤ 1) (hb : m.lookup a = some b) (hpb : p a b)
    (hd : m.lookup c = some d) (hpd : p c d) : c = a := by
  refine eq_of_tally_le_share (p := p) ?_ hd hpd
  rw [share_of_lookup hb, hpb]
  exact hle

lemma tally_le_one
    (h : ∀ a b c d, m.lookup a = some b → p a b → m.lookup c = some d → p c d → c = a) : tally p m ≤
    1 := by
  by_cases hzero : tally p m = 0
  · omega
  obtain ⟨a, b, hb, hp⟩ := tally_pos_iff.mp (pos_of_ne_zero hzero)
  have herase := tally_erase p m a
  have hnone : tally p (m.erase a) = 0 := by
    by_contra hmore
    obtain ⟨c, d, hd, hpd⟩ := tally_pos_iff.mp (pos_of_ne_zero hmore)
    have hne : c ≠ a := by
      rintro rfl
      simp at hd
    rw [lookup_erase_ne hne] at hd
    exact hne (h a b c d hb hp hd hpd)
  have := share_le p m a
  omega

section

variable (m a b)

omit [DecidableEq α] in
lemma size_eq_tally : size m = tally (fun _ _ => true) m := by
  simp [size, tally]

lemma size_erase :
    size (m.erase a) + (m.lookup a).isSome.toNat = size m := by
  have h := tally_erase (fun _ _ => true) m a
  rw [← size_eq_tally, ← size_eq_tally] at h
  cases ha : m.lookup a <;> simp_all [share]

lemma size_insert :
    size (m.insert a b) + (m.lookup a).isSome.toNat = size m + 1 := by
  have h := tally_insert (fun _ _ => true) m a b
  rw [← size_eq_tally, ← size_eq_tally] at h
  cases ha : m.lookup a <;> simp_all [share]

end

lemma size_insert_of_some (h : m.lookup a = some b) (d : β) : size (m.insert a d) = size m := by
  simpa [h] using size_insert m a d

lemma size_insert_of_none (h : m.lookup a = none) (b : β) : size (m.insert a b) = size m + 1 := by
  simpa [h] using size_insert m a b

lemma size_erase_of_some (h : m.lookup a = some b) : size (m.erase a) + 1 = size m := by
  simpa [h] using size_erase m a

/-- The entries that pass. -/
def keep (p : α → β → Bool) (m : AList fun _ : α => β) : AList fun _ : α => β :=
  ⟨m.entries.filter fun entry => p entry.1 entry.2,
    (List.Sublist.map _ (List.filter_sublist (l := m.entries))).nodup m.nodupKeys⟩

/-- The entries that do not. -/
def dropped (p : α → β → Bool) (m : AList fun _ : α => β) : List (Sigma fun _ : α => β) :=
  m.entries.filter fun entry => !p entry.1 entry.2

lemma lookup_keep : (keep p m).lookup a = some b ↔ m.lookup a = some b ∧ p a b := by
  rw [← mem_entries, ← mem_entries, keep, mem_filter]

section

variable (p q m)

omit [DecidableEq α] in
lemma tally_keep :
    tally q (keep p m) + (dropped p m).countP (fun entry => q entry.1 entry.2) = tally q m := by
  simp only [tally, keep, dropped]
  induction m.entries with
  | nil => rfl
  | cons entry rest ih =>
    cases hp : p entry.1 entry.2 <;> cases hq : q entry.1 entry.2 <;>
      simp [hp, hq] <;> omega

omit [DecidableEq α] in
lemma tally_keep_le :
    tally q (keep p m) ≤ tally q m := by
  have := tally_keep p q m
  omega

omit [DecidableEq α] in
lemma size_keep_le : size (keep p m) ≤ size m := length_filter_le _ _

end

end OnetDns.Tally
