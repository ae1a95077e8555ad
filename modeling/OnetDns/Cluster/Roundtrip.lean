import OnetDns.Cluster.Node

/-!
# What is written can be read

A state that passes the tests of `encode_state` is read back by `decode_state`,
and a frame that continues the state read so far is replayed to exactly the
state it was made of. Both need the numbers to fit the integer types of the
source (`StableState.Fits`).
-/
namespace OnetDns.Raft
open BigEndian List

/-- The numbers of a state fit their types, and a snapshot covers something. -/
structure StableState.Fits (st : StableState) : Prop where
  term : st.currentTerm ≤ u64Max
  vote : ∀ id, st.votedFor = some id → id ≤ u64Max
  boot : st.bootCounter ≤ u64Max
  entries : ∀ e ∈ st.log, e.term ≤ u64Max
  snapshot : ∀ sn, st.snapshot = some sn → 0 < sn.index ∧ sn.term ≤ u64Max

lemma takeU64_encode {v : ℕ} (h : v ≤ u64Max) (rest : Bytes) :
    takeU64 (encode 8 v ++ rest) = pure (v, rest) := by
  have hlt : v < 256 ^ 8 := lt_of_le_of_lt h (by norm_num [u64Max])
  simp [takeU64, read_encode hlt, pure, Except.pure]

lemma takeU32_encode {v : ℕ} (h : v ≤ u32Max) (rest : Bytes) :
    takeU32 (encode 4 v ++ rest) = pure (v, rest) := by
  have hlt : v < 256 ^ 4 := lt_of_le_of_lt h (by norm_num [u32Max])
  simp [takeU32, read_encode hlt, pure, Except.pure]

lemma takeVote_encode (missing invalid : String) {vote : Option NodeId}
    (h : ∀ id, vote = some id → id ≤ u64Max) (rest : Bytes) :
    takeVote missing invalid (encodeVote vote ++ rest) = pure (vote, rest) := by
  cases vote with
  | none =>
    have := takeU64_encode (Nat.zero_le u64Max) rest
    simp [takeVote, encodeVote, this]
  | some id =>
    have := takeU64_encode (h id rfl) rest
    simp [takeVote, encodeVote, this]

@[simp] lemma encodeVote_length (vote : Option NodeId) : (encodeVote vote).length = 9 := by
  cases vote <;> simp [encodeVote]

/-- An entry that the writer accepts at this place. -/
structure EntryOk (expected : ℕ) (e : LogEntry) : Prop where
  index : e.index = expected
  term : e.term ≤ u64Max
  index_le : e.index ≤ u64Max
  data : e.data.length ≤ maxEntryBytes

lemma maxEntryBytes_le : maxEntryBytes ≤ u32Max := by decide

variable {expected : ℕ}

lemma takeEntry_encode (invalid truncated : String) {e : LogEntry}
    (h : EntryOk expected e) (rest : Bytes) :
    takeEntry invalid truncated expected (encodeEntry e ++ rest) = pure (e, rest) := by
  have hterm := takeU64_encode h.term (encode 8 e.index ++ (encode 4 e.data.length ++ (e.data ++ rest)))
  have hindex := takeU64_encode h.index_le (encode 4 e.data.length ++ (e.data ++ rest))
  have hlen := takeU32_encode (h.data.trans maxEntryBytes_le) (e.data ++ rest)
  have hdata := take_append (rfl : e.data.length = e.data.length) rest
  have hok : ¬ (e.index ≠ expected ∨ maxEntryBytes < e.data.length) := by
    rw [not_or, not_not]
    exact ⟨h.index, not_lt.mpr h.data⟩
  simp [takeEntry, encodeEntry, hterm, hindex, hlen, hdata, if_neg hok]

/-- Entries in a row, the first at `expected`. -/
def EntriesOk : ℕ → List LogEntry → Prop
  | _, [] => True
  | expected, e :: rest => EntryOk expected e ∧ EntriesOk (expected + 1) rest

variable {entries : List LogEntry}

lemma takeEntries_encode (invalid truncated : String)
    (h : EntriesOk expected entries) (rest : Bytes) :
    takeEntries invalid truncated entries.length expected
      (entries.flatMap encodeEntry ++ rest) = pure (entries, rest) := by
  induction entries generalizing expected with
  | nil => rfl
  | cons e entries ih =>
    have hhead := takeEntry_encode invalid truncated h.1 (entries.flatMap encodeEntry ++ rest)
    simp [takeEntries, hhead, ih h.2]

/-- Numbered entries with small terms and data are fine. -/
theorem entriesOk_of_index (hindex : ∀ i e, entries[i]? = some e → e.index = expected + i)
    (hterm : ∀ e ∈ entries, e.term ≤ u64Max) (hdata : ∀ e ∈ entries, e.data.length ≤ maxEntryBytes)
    (hlen : expected + entries.length ≤ u64Max + 1) : EntriesOk expected entries := by
  induction entries generalizing expected with
  | nil => trivial
  | cons e entries ih =>
    simp only [length_cons] at hlen
    have hhead : e.index = expected := hindex 0 e rfl
    refine ⟨⟨hhead, hterm e mem_cons_self, by omega, hdata e mem_cons_self⟩, ?_⟩
    refine ih ?_ (fun x hx => hterm x (mem_cons_of_mem _ hx))
      (fun x hx => hdata x (mem_cons_of_mem _ hx)) (by omega)
    intro i x hx
    have := hindex (i + 1) x hx
    omega

lemma encodeWalEntries_ok {out : Bytes} (h : encodeWalEntries expected entries = .ok out) :
    out = entries.flatMap encodeEntry ∧ (∀ i e, entries[i]? = some e → e.index = expected + i) ∧
      ∀ e ∈ entries, e.data.length ≤ maxEntryBytes := by
  induction entries generalizing expected out with
  | nil =>
    cases h
    exact ⟨rfl, by simp, by simp⟩
  | cons e entries ih =>
    unfold encodeWalEntries at h
    split at h
    · cases h
    rename_i hok
    push Not at hok
    split at h
    · cases h
    rename_i rest hrest
    cases h
    obtain ⟨rfl, hindex, hdata⟩ := ih hrest
    refine ⟨rfl, ?_, ?_⟩
    · intro i x hx
      cases i with
      | zero =>
        cases hx
        exact hok.1
      | succ i =>
        have := hindex i x hx
        omega
    · intro x hx
      rcases mem_cons.mp hx with rfl | hx
      · exact hok.2
      · exact hdata x hx

lemma encodeStateLog_ok {out result : Bytes}
    (h : encodeStateLog out expected entries = .ok result) :
    result = out ++ entries.flatMap encodeEntry ∧
      (∀ i e, entries[i]? = some e → e.index = expected + i) ∧
      (∀ e ∈ entries, e.data.length ≤ maxEntryBytes) ∧
      (entries = [] ∨ result.length ≤ maxStateBytes - 32) := by
  induction entries generalizing expected out with
  | nil =>
    cases h
    simp
  | cons e entries ih =>
    unfold encodeStateLog at h
    split at h
    · cases h
    rename_i hok
    push Not at hok
    dsimp only at h
    split at h
    · cases h
    rename_i hsize
    obtain ⟨rfl, hindex, hdata, hlen⟩ := ih h
    refine ⟨by simp, ?_, ?_, .inr ?_⟩
    · intro i x hx
      cases i with
      | zero =>
        cases hx
        exact hok.1
      | succ i =>
        have := hindex i x hx
        omega
    · intro x hx
      rcases mem_cons.mp hx with rfl | hx
      · exact hok.2
      · exact hdata x hx
    · rcases hlen with rfl | hlen
      · simpa using hsize
      · exact hlen

/-- The tests of `encode_state`, and what it writes. -/
structure StateWritten (st : StableState) (body : Bytes) : Prop where
  body_eq : body = encodeStateHeader st ++ st.log.flatMap encodeEntry
  entries : ∀ i e, st.log[i]? = some e → e.index = st.snapshotIndex + 1 + i
  data : ∀ e ∈ st.log, e.data.length ≤ maxEntryBytes
  last_le : st.snapshotIndex + st.log.length ≤ u64Max
  count : st.log.length ≤ maxLogEntries
  commit_le : st.commitIndex ≤ st.snapshotIndex + st.log.length
  applied_le : st.lastApplied ≤ st.commitIndex
  snapshot_le : st.snapshotIndex ≤ st.lastApplied
  size : (st.snapshot.elim [] (·.data)).length ≤ maxSnapshotBytes
  empty : st.snapshotIndex = 0 ↔ (st.snapshot.elim [] (·.data)).length = 0
  unset : st.snapshotIndex = 0 ↔ st.snapshot.elim 0 (·.term) = 0
  length : st.log = [] ∨ body.length ≤ maxStateBytes - 32

variable {st : StableState} {body : Bytes}

lemma encodeStateBody_ok (h : encodeStateBody st = .ok body) : StateWritten st body := by
  unfold encodeStateBody at h
  dsimp only at h
  split at h
  · cases h
  rename_i lastIndex hlast
  obtain ⟨rfl, hle⟩ := checkedAdd_eq_some hlast
  split at h
  · cases h
  rename_i hrange
  push Not at hrange
  obtain ⟨hcount, hcommit, hsnap, hsize, hempty, hunset⟩ := hrange
  split at h
  · cases h
  rename_i happ
  obtain ⟨heq, hentries, hdata, hlen⟩ := encodeStateLog_ok h
  refine ⟨heq, hentries, hdata, hle, hcount, hcommit, not_lt.mp happ, hsnap, hsize, ?_, ?_, hlen⟩
  · rw [length_eq_zero_iff, ← List.isEmpty_iff, ← hempty, decide_eq_true_iff]
  · exact decide_eq_decide.mp hunset

lemma encodeStateHeader_length (st : StableState) :
    (encodeStateHeader st).length = 77 + (st.snapshot.elim [] (·.data)).length := by
  simp only [encodeStateHeader, length_append, encode_length, encodeVote_length,
    show stateMagic.length = 12 from rfl]
  omega

lemma StateWritten.length_le (h : StateWritten st body) : body.length ≤ maxStateBytes - 32 := by
  rcases h.length with hnil | hlen
  · have hsmall : 77 + maxSnapshotBytes ≤ maxStateBytes - 32 := by decide
    rw [h.body_eq, hnil, flatMap_nil, append_nil, encodeStateHeader_length]
    exact (Nat.add_le_add_left h.size 77).trans hsmall
  · exact hlen

lemma StateWritten.entriesOk (h : StateWritten st body)
    (hf : st.Fits) : EntriesOk (st.snapshotIndex + 1) st.log := by
  refine entriesOk_of_index h.entries hf.entries h.data ?_
  have := h.last_le
  omega

lemma StableState.Fits.snapshot_eq (hf : st.Fits) : (if st.snapshotIndex ≠ 0 then
      some (⟨st.snapshotIndex, st.snapshot.elim 0 (·.term), st.snapshot.elim [] (·.data)⟩ : Snapshot)
      else none) = st.snapshot := by
  cases hs : st.snapshot with
  | none => simp [snapshotIndex, hs]
  | some sn =>
    have := (hf.snapshot sn hs).1
    rw [if_pos (by simp [snapshotIndex, hs]; omega)]
    simp [snapshotIndex, hs]

lemma decodeStateFields_ok (h : StateWritten st body)
    (hf : st.Fits) : decodeStateFields (body.drop stateMagic.length) = .ok st := by
  set data := st.snapshot.elim [] (·.data)
  set term := st.snapshot.elim 0 (·.term) with hterm
  have hbody : body.drop stateMagic.length = encode 8 st.currentTerm ++ (encodeVote st.votedFor ++
      (encode 8 st.commitIndex ++ (encode 8 st.lastApplied ++ (encode 8 st.bootCounter ++
      (encode 8 st.snapshotIndex ++ (encode 8 term ++ (encode 4 data.length ++ (data ++
      (encode 4 st.log.length ++ (st.log.flatMap encodeEntry ++ [])))))))))) := by
    rw [h.body_eq, encodeStateHeader]
    simp only [append_assoc, append_nil]
    exact drop_left
  have hcommit : st.commitIndex ≤ u64Max := h.commit_le.trans h.last_le
  have happ : st.lastApplied ≤ u64Max := h.applied_le.trans hcommit
  have hsnap : st.snapshotIndex ≤ u64Max := h.snapshot_le.trans happ
  have htermle : term ≤ u64Max := by
    rw [hterm]
    cases hs : st.snapshot with
    | none => exact Nat.zero_le _
    | some sn => exact (hf.snapshot sn hs).2
  have hdatalen : data.length ≤ u32Max := h.size.trans (by decide)
  have hcount : st.log.length ≤ u32Max := h.count.trans (by decide)
  have hformat : ¬ (maxSnapshotBytes < data.length ∨
      decide (st.snapshotIndex = 0) ≠ decide (data.length = 0) ∨
      decide (st.snapshotIndex = 0) ≠ decide (term = 0)) := by
    rw [not_or, not_or, not_not, not_not]
    exact ⟨not_lt.mpr h.size, decide_eq_decide.mpr h.empty, decide_eq_decide.mpr h.unset⟩
  have hlast : checkedAdd st.snapshotIndex st.log.length =
      some (st.snapshotIndex + st.log.length) := if_pos h.last_le
  have hrange : ¬ (([] : Bytes) ≠ [] ∨ st.snapshotIndex + st.log.length < st.commitIndex ∨
      st.commitIndex < st.lastApplied ∨ st.lastApplied < st.snapshotIndex) := by
    rw [not_or, not_or, not_or, not_not]
    exact ⟨rfl, not_lt.mpr h.commit_le, not_lt.mpr h.applied_le, not_lt.mpr h.snapshot_le⟩
  rw [hbody]
  simp only [decodeStateFields, takeU64_encode hf.term, takeVote_encode _ _ hf.vote,
    takeU64_encode hcommit, takeU64_encode happ, takeU64_encode hf.boot, takeU64_encode hsnap,
    takeU64_encode htermle, takeU32_encode hdatalen, pure_bind, if_neg hformat,
    take_append (rfl : data.length = data.length), takeU32_encode hcount,
    if_neg (not_lt.mpr h.count), takeEntries_encode _ _ (h.entriesOk hf), hlast, if_neg hrange]
  have hsnapshot := hf.snapshot_eq
  rw [hsnapshot]
  rfl

lemma decodeState_ok (sha256 : Bytes → Bytes) (hsha : ∀ bytes, (sha256 bytes).length = 32) (h : encodeStateBody st = .ok body) (hf : st.Fits) :
    decodeState sha256 (body ++ sha256 body) = .ok st := by
  have hw := encodeStateBody_ok h
  have hlen : (body ++ sha256 body).length = body.length + 32 := by
    rw [length_append, hsha]
  have hmin : 77 ≤ body.length := by
    rw [hw.body_eq, length_append, encodeStateHeader_length]
    omega
  have hmax := hw.length_le
  have hsize : ¬ ((body ++ sha256 body).length <
      stateMagic.length + 8 + 9 + 8 + 8 + 8 + 8 + 8 + 4 + 4 + 32 ∨
      maxStateBytes < (body ++ sha256 body).length) := by
    rw [not_or, not_lt]
    refine ⟨?_, ?_⟩
    · change 77 + 32 ≤ _
      omega
    · omega
  have htake : (body ++ sha256 body).take ((body ++ sha256 body).length - 32) = body := by
    rw [hlen]
    exact take_left
  have hdrop : (body ++ sha256 body).drop ((body ++ sha256 body).length - 32) = sha256 body := by
    rw [hlen]
    exact drop_left
  have hmagic : body.take stateMagic.length = stateMagic := by
    rw [hw.body_eq, encodeStateHeader]
    simp only [append_assoc]
    exact take_left
  rw [decodeState, if_neg hsize]
  simp only [htake, hdrop, ne_eq, hmagic]
  exact decodeStateFields_ok hw hf

/-- A state whose parts agree with each other. -/
structure StableState.Sound (st : StableState) : Prop extends st.Fits where
  index : ∀ i e, st.log[i]? = some e → e.index = st.snapshotIndex + 1 + i
  last_le : st.snapshotIndex + st.log.length ≤ u64Max
  commit_le : st.commitIndex ≤ st.snapshotIndex + st.log.length
  applied_le : st.lastApplied ≤ st.commitIndex
  snapshot_le : st.snapshotIndex ≤ st.lastApplied

lemma StateWritten.sound (h : StateWritten st body) (hf : st.Fits) : st.Sound :=
  ⟨hf, h.entries, h.last_le, h.commit_le, h.applied_le, h.snapshot_le⟩

lemma StableState.sound_empty : ({} : StableState).Sound := by
  refine ⟨⟨Nat.zero_le _, nofun, Nat.zero_le _, nofun, nofun⟩, nofun, Nat.zero_le _, le_rfl, le_rfl,
    le_rfl⟩

/-- A frame that continues the state `prev`. -/
structure Replays (prev : StableState) (record : WalRecord) : Prop where
  sound : record.state.Sound
  body : ∃ body, encodeWalBody record.state record.truncateTo = .ok body
  term : prev.currentTerm ≤ record.state.currentTerm
  vote : record.state.currentTerm = prev.currentTerm → prev.votedFor.isSome →
    record.state.votedFor = prev.votedFor
  commit : prev.commitIndex ≤ record.state.commitIndex
  applied : prev.lastApplied ≤ record.state.lastApplied
  boot : prev.bootCounter ≤ record.state.bootCounter
  snapshot : record.state.snapshot = prev.snapshot
  cut_le : record.truncateTo ≤ prev.log.length
  agree : record.state.log.take record.truncateTo = prev.log.take record.truncateTo
  committed : prev.commitIndex ≤ prev.snapshotIndex + record.truncateTo

/-- The tests of `encode_wal_frame`, and what it writes. -/
theorem encodeWalBody_ok {cut : ℕ} (h : encodeWalBody st cut = .ok body) :
    cut ≤ st.log.length ∧ st.log.length ≤ maxLogEntries ∧
      body = encodeWalHeader st cut ++ (st.log.drop cut).flatMap encodeEntry ∧
      ∀ e ∈ st.log.drop cut, e.data.length ≤ maxEntryBytes := by
  unfold encodeWalBody at h
  split at h
  · cases h
  rename_i hrange
  push Not at hrange
  split at h
  · cases h
  rename_i entries hentries
  cases h
  obtain ⟨rfl, _, hdata⟩ := encodeWalEntries_ok hentries
  exact ⟨hrange.1, hrange.2, rfl, hdata⟩

lemma encodeWalHeader_length (st : StableState) (cut : ℕ) :
    (encodeWalHeader st cut).length = minWalFrameBody := by
  simp only [encodeWalHeader, length_append, encodeVote_length]
  rfl

section Replay

variable {prev : StableState} {record : WalRecord}

lemma Replays.snapshotIndex (h : Replays prev record) :
    record.state.snapshotIndex = prev.snapshotIndex := by
  rw [StableState.snapshotIndex, StableState.snapshotIndex, h.snapshot]

lemma Replays.check_ok (h : Replays prev record) (hcut : record.truncateTo ≤ record.state.log.length)
    (hcount : record.state.log.length ≤ maxLogEntries) :
    walFrameCheck prev record.state.currentTerm record.state.votedFor record.state.commitIndex
      record.state.lastApplied record.state.bootCounter record.truncateTo
      (record.state.log.drop record.truncateTo).length = .ok () := by
  have hsnap := h.snapshotIndex
  have hlast := h.sound.last_le
  have hcommit := h.sound.commit_le
  have happlied := h.sound.snapshot_le
  rw [hsnap] at hlast hcommit happlied
  have hmono : ¬ (record.state.currentTerm < prev.currentTerm ∨
      record.state.commitIndex < prev.commitIndex ∨ record.state.lastApplied < prev.lastApplied ∨
      record.state.commitIndex < record.state.lastApplied ∨
      record.state.bootCounter < prev.bootCounter) := by
    have := h.term
    have := h.commit
    have := h.applied
    have := h.boot
    have := h.sound.applied_le
    omega
  have hvote : ¬ (record.state.currentTerm = prev.currentTerm ∧ prev.votedFor.isSome ∧
      record.state.votedFor ≠ prev.votedFor) := by
    rintro ⟨hterm, hsome, hne⟩
    exact hne (h.vote hterm hsome)
  have hrange : ¬ (prev.log.length < record.truncateTo ∨
      satAdd prev.snapshotIndex record.truncateTo < prev.commitIndex) := by
    rw [satAdd_of_le (by omega)]
    have := h.cut_le
    have := h.committed
    omega
  have hlen : record.truncateTo + (record.state.log.drop record.truncateTo).length =
      record.state.log.length := by
    rw [length_drop]
    omega
  have hfinal : checkedAdd record.truncateTo (record.state.log.drop record.truncateTo).length =
      some record.state.log.length := by
    rw [checkedAdd, hlen, if_pos (by omega)]
  have hindex : checkedAdd prev.snapshotIndex record.state.log.length =
      some (prev.snapshotIndex + record.state.log.length) := if_pos hlast
  have hok : ¬ (maxLogEntries < record.state.log.length ∨
      prev.snapshotIndex + record.state.log.length < record.state.commitIndex ∨
      record.state.lastApplied < prev.snapshotIndex) := by
    omega
  rw [walFrameCheck, if_neg hmono, if_neg hvote, if_neg hrange]
  simp only [hfinal, hindex, if_neg hok]

/-- A frame that continues the state is replayed to the state it was made of. -/
theorem Replays.applyWalFrame_ok {cut : ℕ} (h : Replays prev ⟨st, cut⟩) (hbody : encodeWalBody st cut = .ok body) :
    applyWalFrame prev body = .ok st := by
  obtain ⟨hcut, hcount, rfl, hdata⟩ := encodeWalBody_ok hbody
  have hsound : st.Sound := h.sound
  have hsnap : st.snapshotIndex = prev.snapshotIndex := h.snapshotIndex
  have hagree : st.log.take cut = prev.log.take cut := h.agree
  have hsnapshot : st.snapshot = prev.snapshot := h.snapshot
  have hlast := hsound.last_le
  have hcommit : st.commitIndex ≤ u64Max := hsound.commit_le.trans hlast
  have happlied : st.lastApplied ≤ u64Max := hsound.applied_le.trans hcommit
  have hcutle : cut ≤ u64Max := by omega
  have hlen : (st.log.drop cut).length ≤ u32Max := by
    have hmax : maxLogEntries ≤ u32Max := by decide
    rw [length_drop]
    omega
  have hentries : EntriesOk (prev.snapshotIndex + cut + 1) (st.log.drop cut) := by
    refine entriesOk_of_index ?_ ?_ hdata ?_
    · intro i e he
      rw [getElem?_drop] at he
      have := hsound.index (cut + i) e he
      omega
    · exact fun e he => hsound.entries e (mem_of_mem_drop he)
    · rw [length_drop]
      omega
  have hheader : encodeWalHeader st cut ++ (st.log.drop cut).flatMap encodeEntry =
      encode 8 st.currentTerm ++ (encodeVote st.votedFor ++ (encode 8 st.commitIndex ++
      (encode 8 st.lastApplied ++ (encode 8 st.bootCounter ++ (encode 8 cut ++
      (encode 4 (st.log.drop cut).length ++ ((st.log.drop cut).flatMap encodeEntry ++ []))))))) := by
    rw [encodeWalHeader]
    simp
  have hstate : ({ prev with
      currentTerm := st.currentTerm, votedFor := st.votedFor, commitIndex := st.commitIndex
      lastApplied := st.lastApplied, bootCounter := st.bootCounter
      log := prev.log.take cut ++ st.log.drop cut } : StableState) = st := by
    rw [← hagree, take_append_drop, ← hsnapshot]
  have hcheck : walFrameCheck prev st.currentTerm st.votedFor st.commitIndex st.lastApplied
      st.bootCounter cut (st.log.drop cut).length = pure () := h.check_ok hcut hcount
  rw [hheader]
  simp only [applyWalFrame, takeU64_encode hsound.term, takeVote_encode _ _ hsound.vote,
    takeU64_encode hcommit, takeU64_encode happlied, takeU64_encode hsound.boot,
    takeU64_encode hcutle, takeU32_encode hlen, pure_bind, hcheck, takeEntries_encode _ _ hentries,
    hstate]
  rfl

end Replay

end OnetDns.Raft
