import OnetDns.Cluster.SimReplication

/-!
# Snapshots and the apply loop refine the abstract protocol

Compaction and bookkeeping leave the abstract log alone; installing a snapshot
replaces it by a prefix of the leader's log when the two differ. A snapshot
that ends before the own commit index and does not fit the own log leaves the
node stuck.
-/
namespace OnetDns.Raft
open Consensus TermLog List RaftNode

variable {M : Finset NodeId} {strict : Prop} {s s' : History} {v : NodeId} {n m : RaftNode}

/-- A chunk only concerns the transfer it belongs to. -/
theorem receiveChunk_spec (n : RaftNode) (leader : NodeId) (incoming : IncomingSnapshot)
    (lastIncludedIndex offset : ℕ) (data : Bytes) (done : Bool) : ∃ transfer outs,
      n.receiveChunk leader incoming lastIncludedIndex offset data done =
        ({ n with incomingSnapshot := transfer }, outs) ∧
      (∀ inc, transfer = some inc → inc.leader = incoming.leader ∧
        inc.leaderTerm = incoming.leaderTerm ∧ inc.index = incoming.index ∧
        inc.term = incoming.term) ∧
      ∀ o ∈ outs, ∃ next, o = n.snapshotResponse leader lastIncludedIndex next false := by
  unfold receiveChunk
  dsimp only
  split
  · split
    · exact ⟨none, _, rfl, nofun, by simp [snapshotResponse]⟩
    · refine ⟨some incoming, _, rfl, ?_, by simp [snapshotResponse]⟩
      rintro inc ⟨⟩
      exact ⟨rfl, rfl, rfl, rfl⟩
  split
  · refine ⟨some incoming, _, rfl, ?_, by simp [snapshotResponse]⟩
    rintro inc ⟨⟩
    exact ⟨rfl, rfl, rfl, rfl⟩
  split
  · refine ⟨some _, _, rfl, ?_, by simp⟩
    rintro inc ⟨⟩
    exact ⟨rfl, rfl, rfl, rfl⟩
  · refine ⟨some _, _, rfl, ?_, by simp [snapshotResponse]⟩
    rintro inc ⟨⟩
    exact ⟨rfl, rfl, rfl, rfl⟩

variable {incoming : IncomingSnapshot} {lastIncludedIndex : ℕ}

lemma NodeRel.receiveChunk (h : NodeRel M strict s v n) (hr : n.role = .follower)
    {leader : NodeId} {offset : ℕ} {data : Bytes} {done : Bool} (hne : incoming.leader ≠ v)
    (hrel : SnapshotRel M strict s incoming.leaderTerm incoming.leader incoming.index incoming.term) :
    Simulates M strict s v (n.receiveChunk leader incoming lastIncludedIndex offset data done) := by
  obtain ⟨transfer, outs, heq, hsame, houts⟩ :=
    receiveChunk_spec n leader incoming lastIncludedIndex offset data done
  rw [heq]
  refine ⟨s, .refl, .inl (CoreRel.follower { h with incoming := ?_ } hr h.sync), ?_⟩
  · intro inc hinc
    obtain ⟨h1, h2, h3, h4⟩ := hsame inc hinc
    rw [h1, h2, h3, h4]
    exact ⟨hne, hrel⟩
  · intro o ho
    obtain ⟨next, rfl⟩ := houts o ho
    nofun

lemma NodeRel.handleInstallSnapshot (hs : Sound M strict s) (h : NodeRel M strict s v n)
    (hrun : n.fatal = none) {term leader lastIncludedTerm offset : ℕ} {data : Bytes} {done : Bool}
    (hne : leader ≠ v)
    (hmsg : SnapshotRel M strict s term leader lastIncludedIndex lastIncludedTerm) :
    Simulates M strict s v
      (n.handleInstallSnapshot term leader lastIncludedIndex lastIncludedTerm offset data done) := by
  unfold RaftNode.handleInstallSnapshot
  split
  · exact h.simulates_send (by nofun)
  rename_i hcond
  push Not at hcond
  obtain ⟨rfl, _⟩ := hcond
  dsimp only
  have hnode : NodeRel M strict s v (n.observeLeader leader) :=
    CoreRel.follower (h.toCoreRel.of_eq rfl rfl rfl rfl fun _ hi => hi) rfl h.sync
  have hclear : NodeRel M strict s v { n.observeLeader leader with incomingSnapshot := none } :=
    CoreRel.follower { h with incoming := nofun } rfl h.sync
  split
  · rename_i happ
    by_cases hst : strict
    · -- both sides have committed the prefix, so they agree on it
      obtain ⟨e, he, _⟩ := hmsg.entry
      have hlt := (List.getElem?_eq_some_iff.mp he).1
      have hle : lastIncludedIndex ≤ n.commitIndex := happ.trans h.mem.applied_le
      have hcommit : n.commitIndex ≤ (s.mem v).log.length := h.mem.commit_le
      have hmine : Committed M s ((s.mem v).log.take n.commitIndex) := h.mem.committed hst
      have heq := hmine.take_eq hs.inv (hs.held hst) (k := lastIncludedIndex) (hmsg.committed hst)
        (by rw [length_take]; omega) (by rw [length_take]; omega)
      rw [take_take, take_take, min_self, min_eq_left hle] at heq
      obtain ⟨hstep, hack⟩ := hclear.ack hs hrun (i := lastIncludedIndex)
        (show _ ≤ (s.termLog n.currentTerm).length by omega) heq
      exact .head hstep (hack.simulates_send fun _ _ => .inl (State.le_setAcked _ _ _ _))
    · exact hclear.simulates_send fun hs' => absurd hs' hst
  · split
    · rename_i incoming hinc
      obtain ⟨hin, hp⟩ := Option.filter_eq_some_iff.mp hinc
      simp only [decide_eq_true_eq] at hp
      obtain ⟨hl, ht, hi, htm⟩ := hp
      refine hnode.receiveChunk rfl (by rw [hl]; exact hne) ?_
      rw [hl, ht, hi, htm]
      exact hmsg
    · split
      · exact hclear.simulates_send (by nofun)
      · exact hnode.receiveChunk rfl hne hmsg

/-- A node behind its own commit index that has to rewrite its state file cannot. -/
theorem persist_stuck {disk : Disk} (hok : RaftNode.DiskOk n.books disk) (hlog : n.log = [])
    (hdirty : n.snapshotDirty = true) (hbehind : n.snapshotIndex < n.commitIndex) :
    ∃ b disk' error, n.persist = ((n.withBooks b).failStop error, false) ∧
      RaftNode.DiskOk b disk' ∧ disk'.image = disk.image ∧ b.snapshotDirty = true := by
  have hstore : n.storage = some disk := hok.storage
  have hfail : ∃ error, (n.persistAt disk).2 = some error := by
    unfold persistAt
    dsimp only
    split
    · exact ⟨_, rfl⟩
    rw [if_pos (.inl hdirty)]
    have herr : ∃ error, encodeStateBody n.stableView = .error error := by
      unfold encodeStateBody
      dsimp only
      split
      · exact ⟨_, rfl⟩
      rename_i last hlast
      obtain ⟨rfl, _⟩ := checkedAdd_eq_some hlast
      rw [if_pos]
      · exact ⟨_, rfl⟩
      · refine .inr (.inl ?_)
        change n.snapshotIndex + n.log.length < n.commitIndex
        rw [hlog]
        exact hbehind
    obtain ⟨error, herr⟩ := herr
    have herr' : encodeStateBody ({ n with walFile := false } : RaftNode).stableView = .error error :=
      herr
    simp only [storeBase, herr']
    exact ⟨error, rfl⟩
  rcases persist_cases hok with ⟨b, disk', hp, _⟩ | ⟨b, disk', error, hp, hok', himg, hd, _⟩
  · obtain ⟨error, he⟩ := hfail
    rcases hpa : n.persistAt disk with ⟨m, r⟩
    rw [hpa] at he
    subst he
    simp [persist, hstore, hpa] at hp
  · exact ⟨b, disk', error, hp, hok', himg, hd.trans hdirty⟩

lemma SnapshotRel.term_pos {t index term : ℕ} {leader : NodeId}
    (h : SnapshotRel M strict s t leader index term) : 0 < term := by
  obtain ⟨e, he, het⟩ := h.entry
  have hpos := h.pos
  rw [← het]
  exact (h.numbered.entry (index - 1) e (by rw [getElem?_take_of_lt (by omega), he])).2

lemma completeIncoming_spec (h : n.completeIncoming = some incoming) :
    n.incomingSnapshot = some incoming ∧ incoming.complete = true ∧
      incoming.leaderTerm = n.currentTerm ∧ n.leaderId = some incoming.leader := by
  obtain ⟨hin, hp⟩ := Option.filter_eq_some_iff.mp h
  simp only [Bool.and_eq_true, decide_eq_true_eq] at hp
  exact ⟨hin, hp.1.1, hp.1.2, hp.2⟩

lemma perform_finish_of_none {index : ℕ}
    (h : (n.completeIncoming.filter fun incoming => decide (incoming.index = index)) = none) :
    n.perform (.finishSnapshotInstall index) = (n, []) := by
  simp only [perform, finishSnapshotInstall, h]

lemma perform_finish_of_some {index : ℕ}
    (h : (n.completeIncoming.filter fun incoming => decide (incoming.index = index)) = some
      incoming) :
    n.perform (.finishSnapshotInstall index) =
      match (n.installIncoming incoming).persist with
      | (m, false) => (m, [])
      | (m, true) => ({ m with incomingSnapshot := none },
          [m.snapshotResponse incoming.leader incoming.index 0 true]) := by
  simp only [perform, finishSnapshotInstall, h]
  rcases (n.installIncoming incoming).persist with ⟨m, _ | _⟩ <;> rfl

/-- The log keeps its end exactly when it holds the entry the snapshot ends with. -/
theorem CoreRel.install_cases (hs : Sound M strict s) (h : CoreRel M strict s v n)
    (hrel : SnapshotRel M strict s n.currentTerm incoming.leader incoming.index incoming.term) :
    ((s.mem v).log.take incoming.index = (s.termLog n.currentTerm).take incoming.index ∧
      n.logAfterInstall incoming.index incoming.term = (s.mem v).log.drop incoming.index ∧
      incoming.index ≤ (s.mem v).log.length) ∨
    (n.logAfterInstall incoming.index incoming.term = [] ∧ (n.snapshotIndex ≤ incoming.index →
        (s.mem v).log.take incoming.index ≠ (s.termLog n.currentTerm).take incoming.index)) := by
  have hfull : FullLog (s.mem v).log n.snapshot n.log := h.mem.full
  obtain ⟨e, he, het⟩ := hrel.entry
  have hpos := hrel.pos
  have hep := hrel.term_pos
  unfold logAfterInstall
  by_cases hterm : n.termAt incoming.index = incoming.term
  · left
    obtain ⟨_, hsnap, f, hf, hft⟩ := hfull.exists_of_termAt (i := incoming.index) (by omega)
    have hlt := (List.getElem?_eq_some_iff.mp hf).1
    have hmatch := (hs.inv.canon_mem v).matching (hs.inv.canon_term n.currentTerm) hf he
      (hft.trans (hterm.trans het.symm))
    rw [Nat.sub_add_cancel hpos] at hmatch
    refine ⟨hmatch, ?_, by omega⟩
    have hlen := hfull.log_length
    rw [if_pos hterm, if_pos (by omega), ← hfull.drop_eq, drop_drop]
    congr 1
    omega
  · right
    rw [if_neg hterm]
    refine ⟨rfl, fun hsnap heq => hterm ?_⟩
    rw [← het]
    refine hfull.termAt_of_getElem? hsnap hpos ?_
    rw [getElem?_of_take_eq heq (by omega), he]

/-- After the snapshot took its place the node either shows a log that goes on
from the leader's prefix, or it is behind its own commit index. -/
theorem CoreRel.installIncoming (hs : Sound M strict s) (h : CoreRel M strict s v n) (hin : n.incomingSnapshot = some incoming)
    (hterm : incoming.leaderTerm = n.currentTerm) :
    (∃ s', Steps M strict v s s' ∧ CoreRel M strict s' v (n.installIncoming incoming) ∧
      s'.disk v = s.disk v ∧ s'.termLog = s.termLog ∧
      incoming.index ≤ (s.termLog n.currentTerm).length ∧
      (s'.mem v).log.take incoming.index = (s.termLog n.currentTerm).take incoming.index) ∨
    ((n.installIncoming incoming).log = [] ∧
      (n.installIncoming incoming).snapshotIndex < (n.installIncoming incoming).commitIndex) := by
  obtain ⟨hne, hrel⟩ := h.incoming incoming hin
  rw [hterm] at hrel
  have hfull : FullLog (s.mem v).log n.snapshot n.log := h.mem.full
  have hsnapc : n.snapshotIndex ≤ n.commitIndex := h.mem.snapshot_le_commit
  obtain ⟨e, he, het⟩ := hrel.entry
  have hlt := (List.getElem?_eq_some_iff.mp he).1
  have hpos := hrel.pos
  obtain ⟨disk, hok, hdrel⟩ := h.disk
  rcases h.install_cases hs hrel with ⟨htake, hlog, hle⟩ | ⟨hlog, hdiff⟩
  · left
    refine ⟨s, .refl, ⟨h.id, h.peers, ⟨disk, { hok with }, hdrel⟩, ?_,
      h.incoming⟩, rfl, rfl, by omega, htake⟩
    have hcommit : n.commitIndex ≤ (s.mem v).log.length := h.mem.commit_le
    have hheld : (s.mem v).log[incoming.index - 1]? = some e := by
      rw [getElem?_of_take_eq htake (by omega), he]
    refine ⟨h.mem.term, h.mem.vote, ?_, le_rfl, le_max_right _ _, max_le hcommit hle, fun hst => ?_⟩
    · change FullLog _ (some _) (n.logAfterInstall incoming.index incoming.term)
      rw [hlog]
      exact hfull.fold hpos hheld het
    change Committed M s ((s.mem v).log.take (max n.commitIndex incoming.index))
    rcases le_total incoming.index n.commitIndex with hc | hc
    · rw [max_eq_left hc]
      exact h.mem.committed hst
    · rw [max_eq_right hc, htake]
      exact hrel.committed hst
  rcases lt_or_ge incoming.index n.commitIndex with hc | hc
  · exact .inr ⟨hlog, lt_of_lt_of_le hc (le_max_left _ _)⟩
  left
  have hmt : (s.mem v).term = n.currentTerm := h.mem.term
  set x := (s.termLog n.currentTerm).take incoming.index
  have hxlen : x.length = incoming.index := by
    rw [length_take]
    omega
  set s₁ := s.setMem v { s.mem v with log := x } with hs₁
  have hstep : Step M strict v s s₁ := by
    have hi : Step M strict v s (s.setMem v { s.mem v with
        log := adopt (s.mem v).log (s.termLog (s.mem v).term) incoming.index }) :=
      .install s incoming.index (by rw [hmt]; omega)
    rwa [hmt, adopt, if_neg (hdiff (hsnapc.trans hc))] at hi
  have hle := hstep.le hs.inv
  have hmem₁ : s₁.mem v = { s.mem v with log := x } := by simp [hs₁]
  refine ⟨s₁, .single hstep, ⟨h.id, h.peers, ⟨disk, { hok with }, hdrel.mono hle⟩, ?_,
    fun inc hinc => ⟨(h.incoming inc hinc).1, (h.incoming inc hinc).2.mono hle⟩⟩, rfl, rfl,
    by omega, by rw [hmem₁, ← hxlen, take_length]⟩
  have hmax : (n.installIncoming incoming).commitIndex = incoming.index := max_eq_right hc
  have hlastx : x[incoming.index - 1]? = some e := by
    rw [getElem?_take_of_lt (by omega), he]
  rw [hmem₁]
  refine ⟨h.mem.term, h.mem.vote, ?_, le_rfl, le_max_right _ _, ?_, fun hst => ?_⟩
  · change FullLog x (some _) (n.logAfterInstall incoming.index incoming.term)
    rw [hlog]
    refine ⟨hrel.numbered, ?_, drop_eq_nil_of_le hxlen.le⟩
    rintro snap ⟨⟩
    exact ⟨hpos, e, hlastx, het⟩
  · change (n.installIncoming incoming).commitIndex ≤ x.length
    rw [hmax, hxlen]
  · change Committed M s₁ (x.take (n.installIncoming incoming).commitIndex)
    rw [hmax, ← hxlen, take_length]
    exact (hrel.committed hst).mono hle

lemma NodeRel.finishSnapshotInstall (hs : Sound M strict s) (h : NodeRel M strict s v n)
    (index : ℕ) : Simulates M strict s v (n.perform (.finishSnapshotInstall index)) := by
  cases hinc : n.completeIncoming.filter fun incoming => decide (incoming.index = index) with
  | none =>
    rw [perform_finish_of_none hinc]
    exact h.simulates
  | some incoming =>
    rw [perform_finish_of_some hinc]
    obtain ⟨hcomplete, hindex⟩ := Option.filter_eq_some_iff.mp hinc
    obtain ⟨hin, _, hterm, hlead⟩ := completeIncoming_spec hcomplete
    have hne := (h.incoming incoming hin).1
    -- only a follower has another leader
    have hr : n.role = .follower := by
      cases hrole : n.role with
      | follower => rfl
      | candidate =>
        rw [(h.candidate hrole).leaderId] at hlead
        cases hlead
      | leader =>
        rw [(h.leader hrole).leaderId] at hlead
        exact absurd (Option.some.inj hlead).symm hne
    obtain ⟨disk, hok, hdrel⟩ := h.disk
    rcases h.toCoreRel.installIncoming hs hin hterm with
      ⟨s₁, hsteps, hcore, hdisk, htl, hlen, htake⟩ | ⟨hlog, hbehind⟩
    · have hs₁ := hs.steps hsteps
      rcases hcore.persist hs₁ with ⟨b, hp, hcore'⟩ | ⟨b, error, hp, hnode⟩
      · rw [hp]
        set s₂ := s₁.setDisk v (s₁.mem v) with hs₂
        have hsave : Step M strict v s₁ s₂ := .save s₁
        have hnode : NodeRel M strict s₂ v { (n.installIncoming incoming).withBooks b with
            incomingSnapshot := none } :=
          CoreRel.follower { hcore' with incoming := nofun } hr
            fun _ => by simp [hs₂, State.setDisk]
        have hack : Step M strict v s₂ (s₂.setAcked n.currentTerm v incoming.index) := by
          refine hcore'.ack (by simp [hs₂, State.setDisk]) ?_ ?_
          · change _ ≤ (s₁.termLog n.currentTerm).length
            rw [htl]
            exact hlen
          · change (s₁.mem v).log.take incoming.index = (s₁.termLog n.currentTerm).take incoming.index
            rw [htl]
            exact htake
        have hnode' := hnode.keep
          (hnode.toCoreRel.mono (hack.le (hs₁.step hsave).inv) rfl rfl)
          (hack.le (hs₁.step hsave).inv) rfl rfl rfl rfl hnode.sync ⟨rfl, rfl, rfl, rfl, rfl, rfl, rfl⟩
        refine ⟨_, (hsteps.tail hsave).tail hack, .inl hnode', ?_⟩
        intro o ho
        rw [mem_singleton] at ho
        subst ho
        exact fun _ _ => .inl (State.le_setAcked _ _ _ _)
      · rw [hp]
        exact ⟨s₁, hsteps, .inl hnode, by simp⟩
    · have hok₁ : RaftNode.DiskOk (n.installIncoming incoming).books disk :=
        { hok with }
      obtain ⟨b, disk', error, hp, hok', himg, hdirty⟩ := persist_stuck hok₁ hlog rfl hbehind
      rw [hp]
      refine ⟨s, .refl, .inr ?_, by simp⟩
      exact
        { id := h.id
          peers := h.peers
          disk := ⟨disk', { hok' with }, himg ▸ hdrel⟩
          fatal := rfl
          role := rfl
          leaderId := rfl
          log := hlog
          dirty := hdirty
          folded := ⟨_, rfl, (h.incoming incoming hin).2.term_pos⟩
          behind := hbehind }

lemma NodeRel.handleInstallSnapshotResp (hv : v ∈ M) (h : NodeRel M strict s v n)
    {sender : NodeId} {term nextOffset : ℕ} {installed : Bool}
    (hmsg : MsgRel M strict s sender v (.installSnapshotResp term lastIncludedIndex nextOffset
      installed)) :
    Simulates M strict s v
      (n.handleInstallSnapshotResp sender term lastIncludedIndex nextOffset installed) := by
  unfold RaftNode.handleInstallSnapshotResp
  split
  · exact h.simulates
  rename_i hcond
  push Not at hcond
  obtain ⟨hr, rfl⟩ := hcond
  have hl := h.leader hr
  -- the table of snapshot offsets says nothing about the log
  have hoffsets : ∀ offsets, NodeRel M strict s v { n with snapshotOffsets := offsets } :=
    fun offsets => h.keep (h.toCoreRel.of_eq rfl rfl rfl rfl fun _ hi => hi) (.refl s) rfl rfl rfl
      rfl h.sync ⟨rfl, rfl, rfl, rfl, rfl, rfl, rfl⟩
  split
  · exact h.simulates
  rename_i snapshot hsnap
  split
  · exact h.simulates
  split
  · rename_i hok
    dsimp only
    obtain ⟨hnode, hr'⟩ := (hoffsets (removeKey n.snapshotOffsets sender)).recordProgress hv hr
      fun hst => (hmsg hst hok).resolve_right hl.active
    split
    · exact hnode.simulates_append hr' sender
    · exact hnode.simulates
  · have hnode := hoffsets (insertKey n.snapshotOffsets sender
      (if nextOffset ≤ snapshot.data.length then nextOffset else 0))
    exact hnode.simulates_send ((hnode.office hr).snapshotFor hsnap sender)

lemma NodeRel.compact (hs : Sound M strict s) (h : NodeRel M strict s v n) (data : Bytes) :
    Simulates M strict s v ((n.compact data).1, []) := by
  have hfull : FullLog (s.mem v).log n.snapshot n.log := h.mem.full
  have hcommit : n.commitIndex ≤ (s.mem v).log.length := h.mem.commit_le
  unfold RaftNode.compact
  split
  · exact h.simulates
  dsimp only
  split
  · exact h.simulates
  split
  · exact h.simulates
  rename_i hterm
  split
  · exact h.simulates
  obtain ⟨hpos, hsnap, e, he, het⟩ := hfull.exists_of_termAt hterm
  have hcore : CoreRel M strict s v (n.foldLog (n.lastApplied - n.snapshotIndex)
      ⟨n.lastApplied, n.termAt n.lastApplied, data⟩) := by
    obtain ⟨disk, hok, hrel⟩ := h.disk
    refine ⟨h.id, h.peers, ⟨disk, { hok with }, hrel⟩, ?_, h.incoming⟩
    refine ⟨h.mem.term, h.mem.vote, ?_, le_rfl, h.mem.applied_le, hcommit, h.mem.committed⟩
    change FullLog _ (some _) (n.log.drop (n.lastApplied - n.snapshotIndex))
    rw [← hfull.drop_eq, drop_drop, show n.snapshotIndex + (n.lastApplied - n.snapshotIndex) =
      n.lastApplied by omega]
    have hfold := hfull.fold (s := ⟨n.lastApplied, n.termAt n.lastApplied, data⟩) hpos he het
    exact hfold
  obtain ⟨m', flag, hp, hsim⟩ := h.persist hs hcore ⟨rfl, rfl, rfl, rfl, rfl, rfl, rfl⟩
  rw [hp]
  cases flag <;> exact hsim

lemma NodeRel.markAppliedBatch (hs : Sound M strict s) (h : NodeRel M strict s v n)
    (first last : ℕ) : Simulates M strict s v ((n.markAppliedBatch first last).1, []) := by
  unfold RaftNode.markAppliedBatch
  split
  · exact h.simulates
  rename_i hrange
  push Not at hrange
  have hup : n.lastApplied ≤ last :=
    (le_satAdd (h.mem.applied_le.trans h.toCoreRel.commit_le_u64Max)).trans (hrange.1 ▸ hrange.2.1)
  have hcore : CoreRel M strict s v { n with lastApplied := last } :=
    { h with mem := { h.mem with
      snapshot_le := h.mem.snapshot_le.trans hup, applied_le := hrange.2.2 } }
  obtain ⟨m', flag, hp, hsim⟩ := h.persist hs hcore ⟨rfl, rfl, rfl, rfl, rfl, rfl, rfl⟩
  rw [hp]
  cases flag <;> exact hsim

lemma NodeRel.nextBootSession (hs : Sound M strict s) (h : NodeRel M strict s v n) (now : ℕ) :
    Simulates M strict s v ((n.nextBootSession now).1, []) := by
  unfold RaftNode.nextBootSession
  split
  · exact h.simulates
  rename_i next _
  have hcore : CoreRel M strict s v { n with bootCounter := next } :=
    { h with mem := { h.mem with } }
  obtain ⟨m', flag, hp, hsim⟩ := h.persist hs hcore ⟨rfl, rfl, rfl, rfl, rfl, rfl, rfl⟩
  rw [hp]
  cases flag <;> exact hsim

end OnetDns.Raft
