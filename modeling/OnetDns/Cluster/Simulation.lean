import OnetDns.Cluster.Refinement

/-!
# Every operation is a few abstract steps

One lemma per operation of a node: from a node that shows the history, the
result of the operation shows the history after some abstract steps of that
node, and so do the messages it sends. A write is recorded abstractly after it
succeeded, a vote or an acknowledgement after the write.
-/
namespace OnetDns.Raft
open Consensus TermLog Quorum List RaftNode

variable {M : Finset NodeId} {strict : Prop} {s s' : History} {v : NodeId} {n m : RaftNode}

/-- The result of an operation shows the history some abstract steps later. -/
def Simulates (M : Finset NodeId) (strict : Prop) (s : History) (v : NodeId)
    (result : RaftNode × List Output) : Prop :=
  ∃ s', Steps M strict v s s' ∧ (NodeRel M strict s' v result.1 ∨ Stuck M strict s' v result.1) ∧
    ∀ o ∈ result.2, MsgRel M strict s' v o.dest o.msg

lemma Simulates.head {result : RaftNode × List Output} (hstep : Step M strict v s s')
    (h : Simulates M strict s' v result) : Simulates M strict s v result := by
  obtain ⟨s'', hs, hrest⟩ := h
  exact ⟨s'', hs.head hstep, hrest⟩

lemma NodeRel.simulates (h : NodeRel M strict s v n) : Simulates M strict s v (n, []) :=
  ⟨s, .refl, .inl h, by simp⟩

lemma NodeRel.simulates_send (h : NodeRel M strict s v n) {o : Output}
    (ho : MsgRel M strict s v o.dest o.msg) : Simulates M strict s v (n, [o]) :=
  ⟨s, .refl, .inl h, by simpa using ho⟩

section

variable (h : CoreRel M strict s v n)
include h

lemma CoreRel.of_eq (hid : m.id = n.id) (hp : m.peers = n.peers)
    (hb : m.books = n.books) (hv : m.stableView = n.stableView)
    (hi : ∀ inc, m.incomingSnapshot = some inc → n.incomingSnapshot = some inc) :
    CoreRel M strict s v m :=
  ⟨hid.trans h.id, hp ▸ h.peers, hb ▸ h.disk, hv ▸ h.mem, fun inc hinc => h.incoming inc (hi inc hinc)⟩

lemma CoreRel.stopped (hf : n.fatal.isSome)
    (hr : n.role = .follower) : NodeRel M strict s v n where
  toCoreRel := h
  sync hn := by simp [hn] at hf
  running hne := absurd hr hne
  candidate hc := by simp [hr] at hc
  leader hl := by simp [hr] at hl

lemma CoreRel.failStop (error : String) : NodeRel M strict s v (n.failStop error) :=
  stopped (h.of_eq rfl rfl rfl rfl fun _ hi => hi) rfl rfl

lemma CoreRel.follower (hr : n.role = .follower)
    (hsync : n.fatal = none → s.disk v = s.mem v) : NodeRel M strict s v n where
  toCoreRel := h
  sync := hsync
  running hne := absurd hr hne
  candidate hc := by simp [hr] at hc
  leader hl := by simp [hr] at hl

end

/-- A write either brings memory to disk or stops the node. -/
theorem CoreRel.persist (hs : Sound M strict s) (h : CoreRel M strict s v n) :
    (∃ b, n.persist = (n.withBooks b, true) ∧
      CoreRel M strict (s.setDisk v (s.mem v)) v (n.withBooks b)) ∨
    (∃ b error, n.persist = ((n.withBooks b).failStop error, false) ∧
      NodeRel M strict s v ((n.withBooks b).failStop error)) := by
  obtain ⟨disk, hok, hrel⟩ := h.disk
  have hle : Le s (s.setDisk v (s.mem v)) := (.save s : Step M strict v s _).le hs.inv
  rcases persist_cases hok with ⟨b, disk', hp, hok', himg, _⟩ | ⟨b, disk', error, hp, hok', himg, _⟩
  · refine .inl ⟨b, hp, h.id, h.peers, ⟨disk', hok', ?_⟩, h.mem.mono hle, ?_⟩
    · rw [himg, State.setDisk_disk]
      exact h.mem.mono hle
    · exact fun inc hinc => ⟨(h.incoming inc hinc).1, (h.incoming inc hinc).2.mono hle⟩
  · have hcore : CoreRel M strict s v (n.withBooks b) :=
      ⟨h.id, h.peers, ⟨disk', hok', himg ▸ hrel⟩, h.mem, h.incoming⟩
    exact .inr ⟨b, error, hp, hcore.failStop error⟩

section

variable (h : CoreRel M strict s v n)
include h

lemma CoreRel.commit_le_u64Max : n.commitIndex ≤ u64Max :=
  h.mem.commit_le.trans (FullLog.numbered h.mem.full).length_le

lemma CoreRel.mem_peers {u : NodeId} : u ∈ n.peers ↔ u ∈ M ∧ u ≠ v := by
  rw [← mem_toFinset, h.peers.2, Finset.mem_erase, and_comm]

lemma CoreRel.majority {q : Finset NodeId} (hq : q ⊆ M)
    (hcard : n.quorum ≤ q.card) : Majority M q := by
  refine ⟨hq, ?_⟩
  have hlen : n.peers.length = (M.erase v).card := by
    rw [← h.peers.2, toFinset_card_of_nodup h.peers.1]
  have := Finset.pred_card_le_card_erase (s := M) (a := v)
  unfold quorum at hcard
  omega

end

lemma RaftNode.one_lt_quorum (h : n.peers ≠ []) : 1 < n.quorum := by
  have := length_pos_iff.mpr h
  unfold quorum
  omega

lemma UpToDate.refl (ℓ : List LogEntry) : UpToDate ℓ ℓ := .inr ⟨rfl, le_rfl⟩

/-- Same role, with everything the role is about. -/
structure SameRole (n m : RaftNode) : Prop where
  role : m.role = n.role
  fatal : m.fatal = n.fatal
  term : m.currentTerm = n.currentTerm
  leaderId : m.leaderId = n.leaderId
  votes : m.votes = n.votes
  next : m.nextIndex = n.nextIndex
  matched : m.matchIndex = n.matchIndex

/-- A node that changed neither its log nor its role keeps what the role promises. -/
theorem NodeRel.keep (h : NodeRel M strict s v n) (hcore : CoreRel M strict s' v m) (hle : Le s s')
    (hlog : (s'.mem v).log = (s.mem v).log) (hel : s'.election = s.election)
    (htl : s'.termLog = s.termLog) (hret : s'.retired = s.retired)
    (hsync : m.fatal = none → s'.disk v = s'.mem v) (hrole : SameRole n m) :
    NodeRel M strict s' v m where
  toCoreRel := hcore
  sync := hsync
  running hr := hrole.fatal.trans (h.running (hrole.role ▸ hr))
  candidate hr := by
    have hc := h.candidate (hrole.role ▸ hr)
    refine ⟨hrole.leaderId.trans hc.leaderId, hrole.term ▸ hc.pos, ?_, ?_, ?_, ?_⟩
    · rw [hrole.term, hlog]
      exact hle.bid _ _ _ hc.bid
    · rw [hrole.term, hrole.votes]
      refine ⟨hc.votes.1, fun u hu => ?_⟩
      obtain ⟨ℓ, hℓ⟩ := hc.votes.2 u hu
      exact ⟨ℓ, hle.ballot _ _ _ hℓ⟩
    · rw [hrole.term, hlog]
      exact hc.stamps
    · rw [hrole.term, hel]
      exact hc.undecided
  leader hr := by
    have hl := h.leader (hrole.role ▸ hr)
    refine ⟨hrole.leaderId.trans hl.leaderId, hrole.term ▸ hl.pos, ?_, ?_, ?_, ?_, ?_, ?_⟩
    · rw [hrole.term, hel]
      exact hl.won
    · rw [hrole.term, hlog, htl]
      exact hl.log
    · rw [hrole.term, hret]
      exact hl.active
    · rw [hrole.next, hlog]
      exact hl.next
    · rw [hrole.matched, hlog]
      exact hl.matched
    · rw [hrole.term, hrole.matched, hlog]
      exact fun hs => ⟨(hl.acked hs).1.trans (hle.acked _ _),
        fun u => ((hl.acked hs).2 u).trans (hle.acked _ _)⟩

/-- A write after a change that shows neither in the abstract log nor in the role. -/
theorem NodeRel.persist (hs : Sound M strict s) (h : NodeRel M strict s v n)
    (hcore : CoreRel M strict s v m) (hrole : SameRole n m) :
    ∃ m' flag, m.persist = (m', flag) ∧ Simulates M strict s v (m', []) := by
  rcases hcore.persist hs with ⟨b, hp, hcore'⟩ | ⟨b, error, hp, hnode⟩
  · have hsave : Step M strict v s (s.setDisk v (s.mem v)) := .save s
    refine ⟨_, _, hp, .head hsave (NodeRel.simulates ?_)⟩
    exact h.keep hcore' (hsave.le hs.inv) rfl rfl rfl rfl (fun _ => by simp [State.setDisk])
      { hrole with }
  · exact ⟨_, _, hp, hnode.simulates⟩

/-- An acknowledgement of what is in memory and on disk. -/
theorem CoreRel.ack {strict' : Prop} (h : CoreRel M strict s v n) (hsync : s.disk v = s.mem v)
    {i : ℕ} (hi : i ≤ (s.termLog n.currentTerm).length)
    (hlog : (s.mem v).log.take i = (s.termLog n.currentTerm).take i) :
    Step M strict' v s (s.setAcked n.currentTerm v i) := by
  have hterm : (s.mem v).term = n.currentTerm := h.mem.term
  have hack : Step M strict' v s (s.setAcked (s.mem v).term v i) := by
    refine .ack s i (by rw [hsync]) ?_ ?_ ?_ <;> rw [hterm]
    · exact hi
    · exact hlog
    · rw [hsync, hlog]
  rwa [hterm] at hack

lemma NodeRel.ack (hs : Sound M strict s) (h : NodeRel M strict s v n) (hrun : n.fatal = none)
    {i : ℕ} (hi : i ≤ (s.termLog n.currentTerm).length)
    (hlog : (s.mem v).log.take i = (s.termLog n.currentTerm).take i) :
    Step M strict v s (s.setAcked n.currentTerm v i) ∧
      NodeRel M strict (s.setAcked n.currentTerm v i) v n := by
  have hstep : Step M strict v s _ := h.toCoreRel.ack (h.sync hrun) hi hlog
  refine ⟨hstep, ?_⟩
  exact h.keep (h.toCoreRel.mono (hstep.le hs.inv) rfl rfl) (hstep.le hs.inv) rfl rfl rfl rfl
    h.sync ⟨rfl, rfl, rfl, rfl, rfl, rfl, rfl⟩

/-- The node's log is the log of its term. -/
structure Office (M : Finset NodeId) (strict : Prop) (s : History) (v : NodeId) (n : RaftNode) :
    Prop where
  core : CoreRel M strict s v n
  won : ∃ w, s.election n.currentTerm = some w ∧ w.leader = v
  log : (s.mem v).log = s.termLog n.currentTerm

section

variable (h : Office M strict s v n)
include h

lemma Office.snapshotFor {snapshot : Snapshot}
    (hsnap : n.snapshot = some snapshot) (peer : NodeId) :
    MsgRel M strict s v (n.snapshotFor snapshot peer).dest (n.snapshotFor snapshot peer).msg := by
  obtain ⟨hpos, e, he, ht⟩ := h.core.mem.full.folded snapshot hsnap
  have hle : snapshot.index ≤ n.commitIndex := by
    have := h.core.mem.snapshot_le_commit
    simpa [StableState.snapshotIndex, stableView, hsnap] using this
  rw [h.log] at he
  refine ⟨h.won, hpos, ⟨e, he, ht⟩, ?_, fun hs => ?_⟩
  · rw [← h.log]
    exact h.core.mem.full.numbered.take _
  · have : Committed M s (((s.mem v).log.take n.commitIndex).take snapshot.index) :=
      (h.core.mem.committed hs).take snapshot.index
    rwa [take_take, min_eq_left hle, h.log] at this

lemma Office.appendFor (peer : NodeId)
    (hnext : s.retired n.currentTerm ∨ ∀ k, n.nextIndex peer = some k → k ≤ (s.mem v).log.length +
      1) : MsgRel M strict s v (n.appendFor peer).dest (n.appendFor peer).msg := by
  have hfull : FullLog (s.mem v).log n.snapshot n.log := h.core.mem.full
  have hcommit : n.commitIndex ≤ (s.termLog n.currentTerm).length := h.log ▸ h.core.mem.commit_le
  unfold RaftNode.appendFor
  dsimp only
  split
  · rename_i snapshot hf
    exact h.snapshotFor (Option.eq_some_of_filter_eq_some hf) peer
  rename_i hf
  set next := (n.nextIndex peer).getD 1 with hn
  have hsnap : n.snapshotIndex < next ∨ (n.snapshotIndex = 0 ∧ next = 0) := by
    unfold snapshotIndex
    cases hsn : n.snapshot with
    | none => simp; omega
    | some sn =>
      simp only [hsn, Option.filter_some, decide_eq_true_eq] at hf
      simp only [Option.elim_some]
      by_contra hc
      rw [if_pos (by omega)] at hf
      cases hf
  have hfilter : (n.log.filter fun entry => decide (next ≤ entry.index)) =
      (s.mem v).log.drop (next - 1) := by
    rcases hsnap with hlt | ⟨h0, hz⟩
    · exact hfull.filter_eq hlt
    · rw [hz, filter_eq_self.mpr (by simp), ← hfull.drop_eq, h0]
  have hpre : appendBatch 0 0 (n.log.filter fun entry => decide (next ≤ entry.index)) <+:
      (s.termLog n.currentTerm).drop (next - 1) := by
    rw [hfilter, ← h.log]
    exact prefix_appendBatch 0 0 _
  refine ⟨h.won, ?_, hcommit, fun hs => h.log ▸ h.core.mem.committed hs⟩
  rcases lt_or_ge (s.mem v).log.length (next - 1) with hgt | hle
  · -- asked for entries behind the end: only a node that stopped does that
    refine .inr ⟨?_, hfull.termAt_eq_zero (.inr (.inr hgt)), ?_⟩
    · rcases hnext with hr | hr
      · exact hr
      cases hk : n.nextIndex peer with
      | none => simp [hk] at hn; omega
      | some k =>
        have := hr k hk
        simp [hk] at hn
        omega
    · rw [← h.log, drop_eq_nil_of_le (by omega), prefix_nil] at hpre
      exact hpre
  · refine .inl ⟨h.log ▸ hle, h.log ▸ hfull.numbered.take _, hpre, ?_⟩
    rcases eq_zero_or_pos (next - 1) with hz | hpos
    · exact .inl ⟨hz, hfull.termAt_eq_zero (.inl hz)⟩
    · obtain ⟨e, he⟩ : ∃ e, (s.mem v).log[next - 1 - 1]? = some e :=
        ⟨_, getElem?_eq_getElem (by omega)⟩
      exact .inr ⟨hpos, e, h.log ▸ he, (hfull.termAt_of_getElem? (by omega) hpos he).symm⟩

lemma Office.broadcastAppend
    (hnext : s.retired n.currentTerm ∨ ∀ u k, n.nextIndex u = some k → k ≤ (s.mem v).log.length + 1)
    : ∀ o ∈ n.broadcastAppend, MsgRel M strict s v o.dest o.msg := by
  intro o ho
  obtain ⟨peer, _, rfl⟩ := mem_map.mp ho
  exact h.appendFor peer (hnext.imp_right fun hk => hk peer)

end

/-- A leader whose whole log is on disk acknowledges it and goes on. -/
theorem Office.lead (hs : Sound M strict s) (h : Office M strict s v n) (hsync : s.disk v = s.mem v)
    (hrole : n.role = .leader) (hrun : n.fatal = none) (hid : n.leaderId = some v)
    (hpos : 0 < n.currentTerm) (hact : ¬ s.retired n.currentTerm)
    (hnext : ∀ u k, n.nextIndex u = some k → k ≤ (s.mem v).log.length + 1)
    (hmatch : ∀ u, (n.matchIndex u).getD 0 ≤ (s.mem v).log.length)
    (hacked : strict → ∀ u, (n.matchIndex u).getD 0 ≤ s.acked n.currentTerm u) :
    ∃ s', Step M strict v s s' ∧ NodeRel M strict s' v n ∧ s'.mem = s.mem := by
  have hstep : Step M strict v s _ :=
    h.core.ack (i := (s.termLog n.currentTerm).length) hsync le_rfl (by rw [h.log])
  have hle := hstep.le hs.inv
  refine ⟨_, hstep, ?_, rfl⟩
  exact
    { toCoreRel := h.core.mono hle rfl rfl
      sync := fun _ => hsync
      running := fun _ => hrun
      candidate := fun hc => absurd (hrole.symm.trans hc) (by nofun)
      leader := fun _ =>
        { leaderId := hid
          pos := hpos
          won := h.won
          log := h.log
          active := hact
          next := hnext
          matched := hmatch
          acked := fun hst => ⟨(congrArg length h.log).le.trans (State.le_setAcked _ _ _ _),
            fun u => (hacked hst u).trans (hle.acked _ _)⟩ } }

lemma NodeRel.office (h : NodeRel M strict s v n) (hr : n.role = .leader) : Office M strict s v n :=
  ⟨h.toCoreRel, (h.leader hr).won, (h.leader hr).log⟩

lemma commitScan_spec {low count index : ℕ} (h : n.commitScan low count = some index) :
    low ≤ index ∧ index < low + count ∧ n.termAt index = n.currentTerm ∧
      n.quorum ≤ n.replicated index := by
  induction count with
  | zero => simp [commitScan] at h
  | succ count ih =>
    rw [commitScan] at h
    split at h
    · rename_i hc
      cases h
      exact ⟨by omega, by omega, hc⟩
    · have := ih h
      omega

lemma advanceCommit_eq (n : RaftNode) : ∃ index, n.advanceCommit = { n with commitIndex := index } ∧
    (index = n.commitIndex ∨ (satAdd n.commitIndex 1 ≤ index ∧ index ≤ n.lastIndex ∧
      n.termAt index = n.currentTerm ∧ n.quorum ≤ n.replicated index)) := by
  unfold advanceCommit
  dsimp only
  split
  · rename_i index hscan
    have hspec := commitScan_spec hscan
    exact ⟨index, rfl, .inr ⟨hspec.1, by omega, hspec.2.2⟩⟩
  · exact ⟨n.commitIndex, rfl, .inl rfl⟩

lemma CoreRel.commit (h : CoreRel M strict s v n) {index : ℕ} (hlo : n.commitIndex ≤ index)
    (hhi : index ≤ (s.mem v).log.length) (hc : strict → Committed M s ((s.mem v).log.take index)) :
    CoreRel M strict s v { n with commitIndex := index } :=
  { h with mem := { h.mem with
    applied_le := h.mem.applied_le.trans hlo, commit_le := hhi, committed := hc } }

lemma CoreRel.advanceCommit (h : CoreRel M strict s v n)
    (hc : strict → ∀ index, index ≤ (s.mem v).log.length → n.termAt index = n.currentTerm → n.quorum
      ≤ n.replicated index → Committed M s ((s.mem v).log.take index)) :
    ∃ index, n.advanceCommit = { n with commitIndex := index } ∧
      CoreRel M strict s v { n with commitIndex := index } := by
  have hlast := FullLog.lastIndex_eq (n := n) h.mem.full
  have hmax := h.mem.full.numbered.length_le
  have hcommit : n.commitIndex ≤ (s.mem v).log.length := h.mem.commit_le
  obtain ⟨index, heq, hcase⟩ := advanceCommit_eq n
  refine ⟨index, heq, ?_⟩
  rcases hcase with rfl | ⟨hlo, hhi, hterm, hq⟩
  · exact h.commit le_rfl hcommit h.mem.committed
  · rw [hlast] at hhi
    refine h.commit ?_ hhi fun hs => hc hs index hhi hterm hq
    unfold satAdd at hlo
    omega

/-- Counting is sound: what a quorum of progress entries covers is chosen. -/
theorem Office.committed (h : Office M strict s v n) (hv : v ∈ M) (hpos : 0 < n.currentTerm)
    {index : ℕ} (hself : index ≤ s.acked n.currentTerm v)
    (hmatch : ∀ u ∈ n.peers, (n.matchIndex u).getD 0 ≤ s.acked n.currentTerm u)
    (hterm : n.termAt index = n.currentTerm) (hq : n.quorum ≤ n.replicated index) :
    Committed M s ((s.mem v).log.take index) := by
  obtain ⟨hipos, _, e, he, het⟩ :=
    FullLog.exists_of_termAt (n := n) h.core.mem.full (by rw [hterm]; omega)
  set q : Finset NodeId := insert v
    (n.peers.filter fun peer => decide (index ≤ (n.matchIndex peer).getD 0)).toFinset with hqdef
  have hnot : v ∉ (n.peers.filter fun peer => decide (index ≤ (n.matchIndex peer).getD 0)).toFinset := by
    intro hc
    rw [mem_toFinset, mem_filter] at hc
    exact (h.core.mem_peers.mp hc.1).2 rfl
  have hcard : q.card = n.replicated index := by
    rw [Finset.card_insert_of_notMem hnot,
      toFinset_card_of_nodup (h.core.peers.1.filter _), replicated,
      countP_eq_length_filter, add_comm]
  have hsub : q ⊆ M := by
    intro u hu
    rcases Finset.mem_insert.mp hu with rfl | hu
    · exact hv
    · rw [mem_toFinset, mem_filter] at hu
      exact (h.core.mem_peers.mp hu.1).1
  have hchosen : Chosen M s n.currentTerm index := by
    refine ⟨hipos, ⟨e, h.log ▸ he, het.trans hterm⟩, q, h.core.majority hsub (hcard ▸ hq), ?_⟩
    intro u hu
    rcases Finset.mem_insert.mp hu with rfl | hu
    · exact hself
    · rw [mem_toFinset, mem_filter, decide_eq_true_eq] at hu
      exact hu.2.trans (hmatch u hu.1)
  rw [h.log]
  refine .inr ⟨n.currentTerm, index, hchosen, length_take_le _ _, ?_⟩
  rw [length_take, min_eq_left hchosen.le_length]

end OnetDns.Raft
