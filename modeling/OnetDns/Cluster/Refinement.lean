import OnetDns.Lib.Completeness
import OnetDns.Cluster.Cluster
import OnetDns.Cluster.FullLog
import OnetDns.Cluster.Persist

/-!
# A cluster refines the abstract protocol

The history of `Lib/Consensus` is kept beside a cluster run. `NodeRel` says how
a node and its files show the abstract replica, `MsgRel` what a packet on the
network stands for. A node whose snapshot installation failed halfway can never
write again (`Stuck`) and only waits for its restart.

With `strict` the relation also speaks about commit indexes, which needs the
votes to follow the up-to-date rule.
-/
namespace OnetDns.Raft
open Consensus TermLog

/-- The abstract state of a cluster. -/
abbrev History := Consensus.State NodeId LogEntry

section Relation

variable (M : Finset NodeId) (strict : Prop)

/-- A stable state shows an abstract replica. -/
structure ReplicaRel (s : History) (r : Replica NodeId LogEntry) (st : StableState) : Prop where
  term : r.term = st.currentTerm
  vote : r.vote = st.votedFor
  full : FullLog r.log st.snapshot st.log
  snapshot_le : st.snapshotIndex ≤ st.lastApplied
  applied_le : st.lastApplied ≤ st.commitIndex
  commit_le : st.commitIndex ≤ r.log.length
  committed : strict → Committed M s (r.log.take st.commitIndex)

/-- A point of the log of term `t`, which `leader` won, up to which a snapshot may reach. -/
structure SnapshotRel (s : History) (t : ℕ) (leader : NodeId) (index term : ℕ) : Prop where
  won : ∃ w, s.election t = some w ∧ w.leader = leader
  pos : 0 < index
  entry : ∃ e, (s.termLog t)[index - 1]? = some e ∧ e.term = term
  numbered : Numbered ((s.termLog t).take index)
  committed : strict → Committed M s ((s.termLog t).take index)

/-- A piece of the log of term `t` with the entry before it. -/
structure Slice (s : History) (t prev prevTerm : ℕ) (entries : List LogEntry) : Prop where
  prev_le : prev ≤ (s.termLog t).length
  numbered : Numbered ((s.termLog t).take (prev + entries.length))
  entries : entries <+: (s.termLog t).drop prev
  entry : (prev = 0 ∧ prevTerm = 0) ∨
    (0 < prev ∧ ∃ e, (s.termLog t)[prev - 1]? = some e ∧ e.term = prevTerm)

/-- A leader that stopped while taking office still sends what its old progress
table asks for, which may lie behind the end of its log. -/
structure AppendRel (s : History) (t : ℕ) (leader : NodeId) (prev prevTerm : ℕ)
    (entries : List LogEntry) (leaderCommit : ℕ) : Prop where
  won : ∃ w, s.election t = some w ∧ w.leader = leader
  content : Slice s t prev prevTerm entries ∨ (s.retired t ∧ prevTerm = 0 ∧ entries = [])
  commit_le : leaderCommit ≤ (s.termLog t).length
  committed : strict → Committed M s ((s.termLog t).take leaderCommit)

/-- What a message stands for. -/
def MsgRel (s : History) (sender dest : NodeId) : Msg → Prop
  | .requestVote t _ lastIndex lastTerm =>
    ∃ b, s.bid t sender = some b ∧ lastIndex = b.length ∧ (lastTerm = lastStamp b ∨ lastTerm = 0)
  | .requestVoteResp t granted => granted = true → ∃ ℓ, s.ballot t sender = some (dest, ℓ)
  | .appendEntries t _ prev prevTerm entries leaderCommit =>
    AppendRel M strict s t sender prev prevTerm entries leaderCommit
  | .appendEntriesResp t success index =>
    strict → success = true → index ≤ s.acked t sender ∨ s.retired t
  | .installSnapshot t _ index term _ _ _ => SnapshotRel M strict s t sender index term
  | .installSnapshotResp t index _ installed =>
    strict → installed = true → index ≤ s.acked t sender ∨ s.retired t

/-- What a node and its files show, whatever its role. -/
structure CoreRel (s : History) (v : NodeId) (n : RaftNode) : Prop where
  id : n.id = v
  peers : n.peers.Nodup ∧ n.peers.toFinset = M.erase v
  disk : ∃ disk, RaftNode.DiskOk n.books disk ∧ ReplicaRel M strict s (s.disk v) disk.image
  mem : ReplicaRel M strict s (s.mem v) n.stableView
  incoming : ∀ inc, n.incomingSnapshot = some inc →
    inc.leader ≠ v ∧ SnapshotRel M strict s inc.leaderTerm inc.leader inc.index inc.term

structure CandidateRel (s : History) (v : NodeId) (n : RaftNode) : Prop where
  leaderId : n.leaderId = none
  pos : 0 < n.currentTerm
  bid : s.bid n.currentTerm v = some (s.mem v).log
  votes : n.votes ⊆ M ∧ ∀ u ∈ n.votes, ∃ ℓ, s.ballot n.currentTerm u = some (v, ℓ)
  stamps : ∀ e ∈ (s.mem v).log, stamp e < n.currentTerm
  undecided : ∀ w, s.election n.currentTerm = some w → w.leader ≠ v

structure LeaderRel (s : History) (v : NodeId) (n : RaftNode) : Prop where
  leaderId : n.leaderId = some v
  pos : 0 < n.currentTerm
  won : ∃ w, s.election n.currentTerm = some w ∧ w.leader = v
  log : (s.mem v).log = s.termLog n.currentTerm
  active : ¬ s.retired n.currentTerm
  next : ∀ u k, n.nextIndex u = some k → k ≤ (s.mem v).log.length + 1
  matched : ∀ u, (n.matchIndex u).getD 0 ≤ (s.mem v).log.length
  acked : strict → (s.mem v).log.length ≤ s.acked n.currentTerm v ∧
    ∀ u, (n.matchIndex u).getD 0 ≤ s.acked n.currentTerm u

structure NodeRel (s : History) (v : NodeId) (n : RaftNode) : Prop extends
    CoreRel M strict s v n where
  sync : n.fatal = none → s.disk v = s.mem v
  running : n.role ≠ .follower → n.fatal = none
  candidate : n.role = .candidate → CandidateRel M s v n
  leader : n.role = .leader → LeaderRel strict s v n

/-- A node that stopped in the middle of installing a snapshot: nothing of its
memory can reach its disk any more. -/
structure Stuck (s : History) (v : NodeId) (n : RaftNode) : Prop where
  id : n.id = v
  peers : n.peers.Nodup ∧ n.peers.toFinset = M.erase v
  disk : ∃ disk, RaftNode.DiskOk n.books disk ∧ ReplicaRel M strict s (s.disk v) disk.image
  fatal : n.fatal.isSome
  role : n.role = .follower
  leaderId : n.leaderId = none
  log : n.log = []
  dirty : n.snapshotDirty = true
  folded : ∃ snapshot, n.snapshot = some snapshot ∧ 0 < snapshot.term
  behind : n.snapshotIndex < n.commitIndex

structure ClusterRel (s : History) (c : Cluster) : Prop where
  sound : Sound M strict s
  nodes : ∀ v ∈ M, NodeRel M strict s v (c.nodes v) ∨ Stuck M strict s v (c.nodes v)
  packets : ∀ p ∈ c.sent, p.sender ∈ M → MsgRel M strict s p.sender p.dest p.msg

end Relation

section Grow

variable {M : Finset NodeId} {strict : Prop} {s s' : History}

lemma ReplicaRel.mono {r : Replica NodeId LogEntry} {st : StableState}
    (h : ReplicaRel M strict s r st) (hle : Le s s') : ReplicaRel M strict s' r st :=
  { h with committed := fun hs => (h.committed hs).mono hle }

lemma ReplicaRel.snapshot_le_commit {r : Replica NodeId LogEntry} {st : StableState}
    (h : ReplicaRel M strict s r st) : st.snapshotIndex ≤ st.commitIndex :=
  h.snapshot_le.trans h.applied_le

lemma SnapshotRel.mono {t index term : ℕ} {leader : NodeId}
    (h : SnapshotRel M strict s t leader index term) (hle : Le s s') :
    SnapshotRel M strict s' t leader index term := by
  obtain ⟨w, hw, hl⟩ := h.won
  obtain ⟨e, he, ht⟩ := h.entry
  have hlt := (getElem?_eq_some_iff.mp he).1
  have htake : (s'.termLog t).take index = (s.termLog t).take index :=
    prefix_take_eq (hle.termLog t) (by omega)
  refine ⟨⟨w, hle.election t w hw, hl⟩, h.pos, ⟨e, ?_, ht⟩, htake ▸ h.numbered,
    fun hs => htake ▸ (h.committed hs).mono hle⟩
  rw [getElem?_of_take_eq htake (by have := h.pos; omega), he]

lemma Slice.mono {t prev prevTerm : ℕ} {entries : List LogEntry}
    (h : Slice s t prev prevTerm entries) (hle : Le s s') : Slice s' t prev prevTerm entries := by
  have hlen : prev + entries.length ≤ (s.termLog t).length := by
    have := h.entries.length_le
    have := h.prev_le
    rw [List.length_drop] at *
    omega
  obtain ⟨c, hc⟩ := hle.termLog t
  refine ⟨h.prev_le.trans (hle.termLog t).length_le, ?_, ?_, ?_⟩
  · rw [prefix_take_eq (hle.termLog t) hlen]
    exact h.numbered
  · rw [← hc, List.drop_append_of_le_length h.prev_le]
    exact h.entries.trans (List.prefix_append _ _)
  · refine h.entry.imp_right fun ⟨hpos, e, he, ht⟩ => ⟨hpos, e, ?_, ht⟩
    rw [← hc, List.getElem?_append_left (getElem?_eq_some_iff.mp he).1, he]

lemma AppendRel.mono {t prev prevTerm leaderCommit : ℕ} {leader : NodeId}
    {entries : List LogEntry} (h : AppendRel M strict s t leader prev prevTerm entries leaderCommit)
    (hle : Le s s') : AppendRel M strict s' t leader prev prevTerm entries leaderCommit := by
  obtain ⟨w, hw, hl⟩ := h.won
  refine ⟨⟨w, hle.election t w hw, hl⟩, ?_, h.commit_le.trans (hle.termLog t).length_le, ?_⟩
  · exact h.content.imp (fun hc => hc.mono hle) (fun hc => ⟨hle.retired t hc.1, hc.2⟩)
  · intro hs
    rw [prefix_take_eq (hle.termLog t) h.commit_le]
    exact (h.committed hs).mono hle

lemma MsgRel.mono {sender dest : NodeId} {msg : Msg} (h : MsgRel M strict s sender dest msg)
    (hle : Le s s') : MsgRel M strict s' sender dest msg := by
  cases msg with
  | requestVote t c lastIndex lastTerm =>
    obtain ⟨b, hb, hrest⟩ := h
    exact ⟨b, hle.bid _ _ _ hb, hrest⟩
  | requestVoteResp t granted =>
    intro hg
    obtain ⟨ℓ, hℓ⟩ := h hg
    exact ⟨ℓ, hle.ballot _ _ _ hℓ⟩
  | appendEntries t l prev prevTerm entries leaderCommit => exact AppendRel.mono h hle
  | appendEntriesResp t success index =>
    exact fun hs hok => (h hs hok).imp (fun hi => hi.trans (hle.acked _ _)) (hle.retired _)
  | installSnapshot t l index term offset data done => exact SnapshotRel.mono h hle
  | installSnapshotResp t index nextOffset installed =>
    exact fun hs hok => (h hs hok).imp (fun hi => hi.trans (hle.acked _ _)) (hle.retired _)

variable {n : RaftNode}

lemma CoreRel.mono {v : NodeId} (h : CoreRel M strict s v n) (hle : Le s s')
    (hm : s'.mem v = s.mem v) (hd : s'.disk v = s.disk v) : CoreRel M strict s' v n := by
  obtain ⟨disk, hok, hrel⟩ := h.disk
  exact ⟨h.id, h.peers, ⟨disk, hok, hd ▸ hrel.mono hle⟩, hm ▸ h.mem.mono hle,
    fun inc hinc => ⟨(h.incoming inc hinc).1, (h.incoming inc hinc).2.mono hle⟩⟩

variable {u v : NodeId}

lemma CandidateRel.mono (h : CandidateRel M s v n) (hle : Le s s')
    (hf : Frame u s s') (hne : v ≠ u) : CandidateRel M s' v n := by
  have hm := hf.mem v hne
  refine ⟨h.leaderId, h.pos, ?_, ⟨h.votes.1, ?_⟩, ?_, ?_⟩
  · rw [hm]
    exact hle.bid _ _ _ h.bid
  · intro x hx
    obtain ⟨ℓ, hℓ⟩ := h.votes.2 x hx
    exact ⟨ℓ, hle.ballot _ _ _ hℓ⟩
  · rw [hm]
    exact h.stamps
  · intro w hw hl
    exact h.undecided w (hf.election _ w hw (by rw [hl]; exact hne)) hl

lemma LeaderRel.mono (h : LeaderRel strict s v n) (hle : Le s s')
    (hf : Frame u s s') (hne : v ≠ u) : LeaderRel strict s' v n := by
  have hm := hf.mem v hne
  obtain ⟨w, hw, hl⟩ := h.won
  have hw' := hle.election _ w hw
  have hlu : w.leader ≠ u := by rw [hl]; exact hne
  refine ⟨h.leaderId, h.pos, ⟨w, hw', hl⟩, ?_, ?_, hm ▸ h.next, hm ▸ h.matched, ?_⟩
  · rw [hm, hf.termLog _ w hw' hlu]
    exact h.log
  · exact fun hr => h.active (hf.retired _ w hw' hlu hr)
  · rw [hm]
    exact fun hs => ⟨(h.acked hs).1.trans (hle.acked _ _),
      fun x => ((h.acked hs).2 x).trans (hle.acked _ _)⟩

lemma NodeRel.mono (h : NodeRel M strict s v n) (hle : Le s s')
    (hf : Frame u s s') (hne : v ≠ u) : NodeRel M strict s' v n where
  toCoreRel := h.toCoreRel.mono hle (hf.mem v hne) (hf.disk v hne)
  sync hfat := by rw [hf.mem v hne, hf.disk v hne]; exact h.sync hfat
  running := h.running
  candidate hr := (h.candidate hr).mono hle hf hne
  leader hr := (h.leader hr).mono hle hf hne

lemma Stuck.mono (h : Stuck M strict s v n) (hle : Le s s')
    (hf : Frame u s s') (hne : v ≠ u) : Stuck M strict s' v n := by
  obtain ⟨disk, hok, hrel⟩ := h.disk
  exact { h with disk := ⟨disk, hok, hf.disk v hne ▸ hrel.mono hle⟩ }

end Grow

end OnetDns.Raft
