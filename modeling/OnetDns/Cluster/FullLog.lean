import OnetDns.Lib.TermLog
import OnetDns.Cluster.Node

/-!
# The log behind a compacted one

A node keeps a snapshot and the entries after it. `FullLog` says of which whole
log, numbered from 1, that is the rest, and the accessors of the node are
expressed by the whole log.
-/
namespace OnetDns.Raft
open TermLog List Option RaftNode

instance : Stamped LogEntry := ⟨LogEntry.term⟩

/-- Entries in order from index 1 on, each of a term that exists. -/
structure Numbered (ℓ : List LogEntry) : Prop where
  entry : ∀ i e, ℓ[i]? = some e → e.index = i + 1 ∧ 0 < e.term
  length_le : ℓ.length ≤ u64Max

lemma Numbered.nil : Numbered [] := ⟨by simp, by simp [u64Max]⟩

lemma Numbered.take {ℓ : List LogEntry} (h : Numbered ℓ) (n : ℕ) : Numbered (ℓ.take n) := by
  refine ⟨?_, (length_take_le' _ _).trans h.length_le⟩
  intro i e he
  rw [getElem?_take] at he
  split at he
  · exact h.entry i e he
  · cases he

lemma Numbered.append {ℓ es : List LogEntry} (h : Numbered ℓ)
    (hes : ∀ i e, es[i]? = some e → e.index = ℓ.length + i + 1 ∧ 0 < e.term)
    (hlen : ℓ.length + es.length ≤ u64Max) : Numbered (ℓ ++ es) := by
  refine ⟨?_, by simpa using hlen⟩
  intro i e he
  rcases lt_or_ge i ℓ.length with hi | hi
  · rw [getElem?_append_left hi] at he
    exact h.entry i e he
  · rw [getElem?_append_right hi] at he
    have := hes _ e he
    exact ⟨by omega, this.2⟩

/-- `log` is what is left of `ℓ` after the snapshot took its start. -/
structure FullLog (ℓ : List LogEntry) (snapshot : Option Snapshot) (log : List LogEntry) :
    Prop where
  numbered : Numbered ℓ
  folded : ∀ s, snapshot = some s → 0 < s.index ∧ ∃ e, ℓ[s.index - 1]? = some e ∧ e.term = s.term
  retained : ℓ.drop (snapshot.elim 0 (·.index)) = log

lemma FullLog.nil : FullLog [] none [] := ⟨.nil, nofun, rfl⟩

namespace FullLog

variable {ℓ : List LogEntry} {n : RaftNode} {i : ℕ} {e : LogEntry}

lemma index_le {snapshot : Option Snapshot} {log : List LogEntry} (h : FullLog ℓ snapshot log) :
    snapshot.elim 0 (·.index) ≤ ℓ.length := by
  cases snapshot with
  | none => simp
  | some s =>
    obtain ⟨hpos, e, he, _⟩ := h.folded s rfl
    have := (List.getElem?_eq_some_iff.mp he).1
    simp only [elim_some]
    omega

section

variable (h : FullLog ℓ n.snapshot n.log)
include h

lemma snapshotIndex_le : n.snapshotIndex ≤ ℓ.length := h.index_le

lemma drop_eq : ℓ.drop n.snapshotIndex = n.log := h.retained

lemma log_length : n.snapshotIndex + n.log.length = ℓ.length := by
  have := h.snapshotIndex_le
  rw [← h.drop_eq, length_drop]
  omega

lemma getElem?_log (i : ℕ) : n.log[i]? = ℓ[n.snapshotIndex + i]? := by
  rw [← h.drop_eq, getElem?_drop]

lemma lastIndex_eq : n.lastIndex = ℓ.length := by
  have hlen := h.log_length
  unfold lastIndex
  rw [getLast?_eq_getElem?, h.getElem?_log]
  split
  · rename_i e he
    have hi := (List.getElem?_eq_some_iff.mp he).1
    rw [(h.numbered.entry _ e he).1]
    omega
  · rename_i he
    have := getElem?_eq_none_iff.mp he
    omega

lemma termAt_of_getElem? (hi : n.snapshotIndex ≤ i) (hpos : 0 < i)
    (he : ℓ[i - 1]? = some e) : n.termAt i = e.term := by
  have hlog : ∀ j, ℓ[n.snapshotIndex + j]? = n.log[j]? := fun j => (h.getElem?_log j).symm
  unfold termAt snapshotIndex at *
  rw [if_neg (by omega)]
  cases hs : n.snapshot with
  | none =>
    have := hlog (i - 1)
    simp only [hs] at this
    simp [← this, he]
  | some s =>
    simp only [hs, elim_some] at hi hlog ⊢
    split
    · rename_i heq
      obtain ⟨_, f, hf, hft⟩ := h.folded s hs
      rw [heq, hf] at he
      rw [← hft, some.inj he]
    · rw [if_neg (by omega), ← hlog, show s.index + (i - s.index - 1) = i - 1 by omega, he]
      rfl

lemma termAt_eq_zero (hi : i = 0 ∨ i < n.snapshotIndex ∨ ℓ.length < i) : n.termAt i = 0 := by
  have hlog : ∀ j, ℓ[n.snapshotIndex + j]? = n.log[j]? := fun j => (h.getElem?_log j).symm
  have hle := h.snapshotIndex_le
  unfold termAt snapshotIndex at *
  split
  · rfl
  cases hs : n.snapshot with
  | none =>
    simp only [hs, elim_none] at hlog hi
    simp only [← hlog]
    rw [getElem?_eq_none (by omega)]
    rfl
  | some s =>
    simp only [hs, elim_some] at hlog hi hle ⊢
    rw [if_neg (by omega)]
    split
    · rfl
    · rw [← hlog, getElem?_eq_none (by omega)]
      rfl

lemma exists_of_termAt (hi : n.termAt i ≠ 0) :
    0 < i ∧ n.snapshotIndex ≤ i ∧ ∃ e, ℓ[i - 1]? = some e ∧ e.term = n.termAt i := by
  have hne : ¬(i = 0 ∨ i < n.snapshotIndex ∨ ℓ.length < i) := fun hc => hi (h.termAt_eq_zero hc)
  obtain ⟨e, he⟩ : ∃ e, ℓ[i - 1]? = some e :=
    ⟨_, getElem?_eq_getElem (show i - 1 < ℓ.length by omega)⟩
  exact ⟨by omega, by omega, e, he, (h.termAt_of_getElem? (by omega) (by omega) he).symm⟩

lemma lastLogTerm_of_ne (hne : n.log ≠ []) : n.lastLogTerm = lastStamp ℓ := by
  have hlast : n.log.getLast? = ℓ.getLast? := by
    rw [← h.drop_eq, getLast?_drop, if_neg]
    have := h.log_length
    have := length_pos_iff.mpr hne
    omega
  rw [lastLogTerm, hlast]
  rfl

lemma termAt_lastIndex : n.termAt n.lastIndex = lastStamp ℓ := by
  rw [h.lastIndex_eq]
  rcases eq_or_ne ℓ [] with hnil | hne
  · rw [hnil]
    exact h.termAt_eq_zero (.inl rfl)
  · obtain ⟨e, he, hs⟩ := getLast?_of_lastStamp hne
    rw [← hs]
    exact h.termAt_of_getElem? h.snapshotIndex_le (length_pos_iff.mpr hne) he

/-- The entries from `next` on. -/
theorem filter_eq {next : ℕ} (hn : n.snapshotIndex < next) :
    (n.log.filter fun entry => decide (next ≤ entry.index)) = ℓ.drop (next - 1) := by
  have key : ∀ (m : List LogEntry) (k : ℕ), (∀ i e, m[i]? = some e → e.index = k + i + 1) →
      k ≤ next - 1 → (m.filter fun entry => decide (next ≤ entry.index)) = m.drop (next - 1 - k) := by
    intro m
    induction m with
    | nil => intro k _ _; simp
    | cons x m ih =>
      intro k hk hkn
      have hx : x.index = k + 1 := by simpa using hk 0 x rfl
      have htail : ∀ i e, m[i]? = some e → e.index = (k + 1) + i + 1 := by
        intro i e he
        have := hk (i + 1) e (by simpa using he)
        omega
      rcases lt_or_ge k (next - 1) with hlt | hge
      · have hno : ¬ next ≤ x.index := by omega
        rw [filter_cons_of_neg (by simpa using hno), ih (k + 1) htail (by omega),
          show next - 1 - k = (next - 1 - (k + 1)) + 1 by omega, drop_succ_cons]
      -- from here on everything is kept
      rw [show next - 1 - k = 0 by omega, drop_zero, filter_eq_self]
      intro y hy
      obtain ⟨i, hi⟩ := mem_iff_getElem?.mp hy
      have := hk i y hi
      simp only [decide_eq_true_eq]
      omega
  rw [key n.log n.snapshotIndex ?_ (by omega), ← h.drop_eq, drop_drop]
  · congr 1
    omega
  · intro i e he
    rw [h.getElem?_log] at he
    have := (h.numbered.entry _ e he).1
    omega

end

variable {snapshot : Option Snapshot} {log es : List LogEntry}

section

variable (h : FullLog ℓ snapshot log)
include h

lemma append (hes : ∀ i e, es[i]? = some e → e.index = ℓ.length + i + 1 ∧ 0 < e.term)
    (hlen : ℓ.length + es.length ≤ u64Max) : FullLog (ℓ ++ es) snapshot (log ++ es) := by
  refine ⟨h.numbered.append hes hlen, ?_, ?_⟩
  · intro s hs
    obtain ⟨hpos, e, he, ht⟩ := h.folded s hs
    exact ⟨hpos, e, by rw [getElem?_append_left (List.getElem?_eq_some_iff.mp he).1, he], ht⟩
  · rw [drop_append_of_le_length h.index_le, h.retained]

lemma replace {x : List LogEntry} (hx : Numbered x) {p : ℕ}
    (hp : snapshot.elim 0 (·.index) ≤ p) (htake : x.take p = ℓ.take p) :
    FullLog x snapshot (x.drop (snapshot.elim 0 (·.index))) := by
  refine ⟨hx, ?_, rfl⟩
  intro s hs
  obtain ⟨hpos, e, he, ht⟩ := h.folded s hs
  rw [hs, elim_some] at hp
  exact ⟨hpos, e, by rw [getElem?_of_take_eq htake (by omega), he], ht⟩

lemma fold {s : Snapshot} (hpos : 0 < s.index)
    (he : ℓ[s.index - 1]? = some e) (ht : e.term = s.term) :
    FullLog ℓ (some s) (ℓ.drop s.index) := by
  refine ⟨h.numbered, ?_, rfl⟩
  intro s' hs'
  cases hs'
  exact ⟨hpos, e, he, ht⟩

end

end FullLog

lemma prefix_appendBatch (count bytes : ℕ) (entries : List LogEntry) :
    appendBatch count bytes entries <+: entries := by
  induction entries generalizing count bytes with
  | nil => simp [appendBatch]
  | cons entry rest ih =>
    unfold appendBatch
    dsimp only
    split
    · exact nil_prefix
    · split
      · exact nil_prefix
      · exact prefix_cons_iff.mpr (.inr ⟨_, rfl, ih _ _⟩)

lemma contiguous_iff {expected : ℕ} {entries : List LogEntry}
    (h : expected + entries.length ≤ u64Max + 1) :
    contiguous expected entries = true ↔ ∀ i e, entries[i]? = some e → e.index = expected + i := by
  induction entries generalizing expected with
  | nil => simp [contiguous]
  | cons entry rest ih =>
    simp only [length_cons] at h
    rw [contiguous, Bool.and_eq_true, decide_eq_true_eq]
    rcases eq_or_lt_of_le (show expected ≤ u64Max by omega) with hmax | hlt
    · have hrest : rest = [] := length_eq_zero_iff.mp (by omega)
      subst hrest
      constructor
      · rintro ⟨hi, _⟩ i e he
        rcases i with _ | i <;> simp at he
        rw [← he, hi]
        rfl
      · intro hall
        exact ⟨hall 0 entry rfl, rfl⟩
    rw [satAdd_of_le (by omega), ih (by omega)]
    constructor
    · rintro ⟨hi, hrest⟩ i e he
      rcases i with _ | i
      · simp only [getElem?_cons_zero, some.injEq] at he
        rw [← he, hi]
        rfl
      · rw [hrest i e (by simpa using he)]
        omega
    · intro hall
      refine ⟨hall 0 entry rfl, fun i e he => ?_⟩
      have := hall (i + 1) e (by simpa using he)
      omega

/-- What the loop leaves behind when it runs to its end. -/
structure Merged (ℓ : List LogEntry) (base p : ℕ) (entries : List LogEntry) (durable : ℕ)
    (changed : Bool) (m : RaftNode.Merge) : Prop where
  stop : m.stop = .done
  log : m.log = (splice ℓ p entries).drop base
  changed : m.changed = (changed || !decide (entries <+: ℓ.drop p))
  durable_le : m.durableLogLen ≤ durable
  durable : base + durable ≤ ℓ.length →
    (splice ℓ p entries).take (base + m.durableLogLen) = ℓ.take (base + m.durableLogLen)

/-- The loop writes the batch at its place, unless it would have to cut off an
entry that is committed; then it stops before anything has changed. -/
theorem mergeEntries_cases {base commit p : ℕ} {ℓ entries : List LogEntry} (durable : ℕ)
    (changed : Bool) (hℓ : Numbered ℓ) (hbase : base ≤ p) (hp : p ≤ ℓ.length)
    (hcommit : commit ≤ ℓ.length) (hlen : p + entries.length ≤ u64Max)
    (hes : ∀ i e, entries[i]? = some e → e.index = p + i + 1 ∧ 0 < e.term) :
    (Merged ℓ base p entries durable changed
        (mergeEntries base commit entries (ℓ.drop base) durable changed) ∧
      (splice ℓ p entries).take commit = ℓ.take commit) ∨
    ∃ index, p < index ∧ index ≤ commit ∧ index ≤ p + entries.length ∧
      ℓ[index - 1]? ≠ entries[index - 1 - p]? ∧
      mergeEntries base commit entries (ℓ.drop base) durable changed =
        ⟨ℓ.drop base, durable, changed, .rewrite index⟩ := by
  induction entries generalizing ℓ p durable changed with
  | nil =>
    refine .inl ⟨⟨rfl, by simp [mergeEntries, splice],
      by simp [mergeEntries], le_rfl, fun _ => by simp [splice]⟩, by simp [splice]⟩
  | cons entry rest ih =>
    simp only [length_cons] at hlen
    obtain ⟨hidx, hterm⟩ := hes 0 entry rfl
    have hrest : ∀ i e, rest[i]? = some e → e.index = (p + 1) + i + 1 ∧ 0 < e.term := by
      intro i e he
      have := hes (i + 1) e (by simpa using he)
      exact ⟨by omega, this.2⟩
    have hat : (ℓ.drop base)[entry.index - satAdd base 1]? = ℓ[p]? := by
      rw [satAdd_of_le (by omega), getElem?_drop]
      congr 1
      omega
    have hoff : entry.index - satAdd base 1 = p - base := by
      rw [satAdd_of_le (by omega)]
      omega
    rw [mergeEntries]
    simp only [hat]
    rw [if_neg (by rw [satAdd_of_le (by omega)]; omega), hoff]
    -- after a change the rest of the batch only extends the log
    have hgrow : ∀ (x : List LogEntry) (durable' : ℕ), x = ℓ.take p ++ [entry] →
        ℓ[p]? ≠ some entry → commit ≤ p → durable' ≤ durable →
        (base + durable ≤ ℓ.length → base + durable' ≤ p) →
        Merged ℓ base p (entry :: rest) durable changed
            (mergeEntries base commit rest (x.drop base) durable' true) ∧
          (splice ℓ p (entry :: rest)).take commit = ℓ.take commit := by
      intro x durable' hx hne hcp hdle hd
      have hxlen : x.length = p + 1 := by
        rw [hx, length_append, length_take, min_eq_left hp]
        rfl
      have hnum : Numbered x := by
        rw [hx]
        refine (hℓ.take p).append ?_ (by simp only [length_take, length_singleton]; omega)
        intro i e he
        rcases i with _ | i <;> simp at he
        rw [length_take, ← he]
        exact ⟨by omega, hterm⟩
      have hsp : splice ℓ p (entry :: rest) = splice x (p + 1) rest := by
        rw [splice_cons_diff hne, ← hxlen, splice_length, hx, append_assoc]
        rfl
      have hpre : ∀ k, k ≤ p → (splice ℓ p (entry :: rest)).take k = ℓ.take k := by
        intro k hk
        rw [splice_cons_diff hne,
          take_append_of_le_length (by rw [length_take, min_eq_left hp]; exact hk),
          take_take, min_eq_left hk]
      rcases ih durable' true hnum (by omega) (by omega) (by omega) (by omega) hrest with
        ⟨hm, _⟩ | ⟨index, h1, h2, _⟩
      · refine ⟨⟨hm.stop, by rw [hsp]; exact hm.log, ?_, hm.durable_le.trans hdle, ?_⟩,
          hpre commit hcp⟩
        · rw [hm.changed]
          have hno : ¬ entry :: rest <+: ℓ.drop p := fun hc => hne (cons_prefix_drop_iff.mp hc).1
          simp [hno]
        · intro hb
          have := hm.durable_le
          have := hd hb
          exact hpre _ (by omega)
      · omega
    cases hheld : ℓ[p]? with
    | none =>
      have hpl : p = ℓ.length := le_antisymm hp (getElem?_eq_none_iff.mp hheld)
      simp only
      rw [if_pos (by rw [length_drop]; omega)]
      have hx : ℓ.drop base ++ [entry] = (ℓ ++ [entry]).drop base := by
        rw [drop_append_of_le_length (by omega)]
      rw [hx]
      refine .inl (hgrow _ durable ?_ (by rw [hheld]; simp) (by omega) le_rfl (by omega))
      rw [hpl, take_length]
    | some held =>
      have hheldidx := (hℓ.entry p held hheld).1
      simp only
      by_cases hconf : held.term ≠ entry.term ∨ held.data ≠ entry.data
      · have hne : ℓ[p]? ≠ some entry := by
          rw [hheld]
          intro hc
          rw [some.inj hc] at hconf
          tauto
        rw [if_pos hconf]
        by_cases hic : entry.index ≤ commit
        · rw [if_pos hic]
          refine .inr ⟨entry.index, by omega, hic, by simp only [length_cons]; omega, ?_, rfl⟩
          rw [hidx, show p + 0 + 1 - 1 = p by omega, Nat.sub_self]
          exact hne
        rw [if_neg hic]
        have hx : (ℓ.drop base).take (p - base) ++ [entry] = (ℓ.take p ++ [entry]).drop base := by
          rw [drop_append_of_le_length (by rw [length_take]; omega), drop_take]
        rw [hx]
        exact .inl (hgrow _ _ rfl hne (by omega) (min_le_left _ _) (by omega))
      push Not at hconf
      have heq : held = entry := by
        cases held
        cases entry
        simp only [LogEntry.mk.injEq] at *
        exact ⟨hconf.1, by omega, hconf.2⟩
      subst heq
      rw [if_neg (by tauto)]
      have hlt := (List.getElem?_eq_some_iff.mp hheld).1
      have hsp : splice ℓ p (held :: rest) = splice ℓ (p + 1) rest := splice_cons_same hheld
      have hiff : held :: rest <+: ℓ.drop p ↔ rest <+: ℓ.drop (p + 1) := by
        rw [cons_prefix_drop_iff, hheld]
        simp
      rcases ih durable changed hℓ (by omega) (by omega) hcommit (by omega) hrest with
        ⟨hm, hc⟩ | ⟨index, h1, h2, hend, h3, h4⟩
      · refine .inl ⟨⟨hm.stop, by rw [hsp]; exact hm.log, ?_, hm.durable_le, ?_⟩,
          by rw [hsp]; exact hc⟩
        · rw [hm.changed]
          simp only [hiff]
        · rw [hsp]
          exact hm.durable
      · refine .inr ⟨index, by omega, h2, by simp only [length_cons]; omega, ?_, h4⟩
        rwa [show index - 1 - p = (index - 1 - (p + 1)) + 1 by omega]

end OnetDns.Raft
