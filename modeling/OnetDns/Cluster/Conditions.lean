import OnetDns.Cluster.Cluster

/-!
# Where the code is on safe ground

Three places of `raft.rs` read a value that stands for something else than the
protocol needs: the term of the last log entry when that entry is folded into
the snapshot, the progress table of an earlier leadership while taking office,
and the own log behind a batch when the leader's commit index is taken over.
And a node that is alone takes its own entries as committed before they are on
disk. The predicates here say, of the state before a step, that the step does
not depend on it.
-/
namespace OnetDns.Raft

variable (n : RaftNode)

/-- The vote test would give the vote with the term of the last entry as well,
be that entry retained or folded. -/
def VoteSound (lastLogIndex lastLogTerm : ℕ) : Prop :=
  logUpToDate lastLogTerm lastLogIndex n.lastLogTerm n.lastIndex = true →
    logUpToDate lastLogTerm lastLogIndex (n.termAt n.lastIndex) n.lastIndex = true

/-- The progress table left over from an earlier leadership does not cover the
place of the no-op a new leader writes. -/
def FreshProgress : Prop := n.replicated (n.lastIndex + 1) < n.quorum

/-- Some entry of the batch replaces one that the node holds. -/
def Conflicts (entries : List LogEntry) : Prop :=
  ∃ entry ∈ entries, ∃ held ∈ n.log, held.index = entry.index ∧
    (held.term ≠ entry.term ∨ held.data ≠ entry.data)

/-- Whatever part of the leader's commit index the node can take over lies in
its own committed prefix or inside the batch. -/
def CommitCovered (prevLogIndex : ℕ) (entries : List LogEntry)
    (leaderCommit : ℕ) : Prop :=
  leaderCommit ≤ max n.commitIndex (prevLogIndex + entries.length) ∨
    n.lastIndex ≤ max n.commitIndex (prevLogIndex + entries.length) ∨ Conflicts n entries

instance (n : RaftNode) (lastLogIndex lastLogTerm : ℕ) :
    Decidable (VoteSound n lastLogIndex lastLogTerm) :=
  inferInstanceAs (Decidable (_ → _))

instance (n : RaftNode) : Decidable (FreshProgress n) := inferInstanceAs (Decidable (_ < _))

instance (n : RaftNode) (entries : List LogEntry) : Decidable (Conflicts n entries) :=
  inferInstanceAs (Decidable (∃ entry ∈ entries, ∃ held ∈ n.log, _))

instance (n : RaftNode) (prevLogIndex : ℕ) (entries : List LogEntry) (leaderCommit : ℕ) :
    Decidable (CommitCovered n prevLogIndex entries leaderCommit) :=
  inferInstanceAs (Decidable (_ ∨ _ ∨ _))

/-- A message finds the node on safe ground: a vote it can get is compared with
the true last term, the vote that makes it a leader finds a progress table that
says nothing about the future, and a batch that fits covers the commit index. -/
def MessageSafe (sender : NodeId) : Msg → Prop
  | .requestVote term candidate lastLogIndex lastLogTerm =>
    n.fatal = none → n.currentTerm ≤ term →
      (n.currentTerm < term ∨ n.votedFor.all (· == candidate) = true) →
      VoteSound n lastLogIndex lastLogTerm
  | .requestVoteResp term granted =>
    n.role = .candidate → term = n.currentTerm → granted = true →
      n.quorum ≤ (insert sender n.votes).card → FreshProgress n
  | .appendEntries term _ prevLogIndex prevLogTerm entries leaderCommit =>
    n.fatal = none → n.currentTerm ≤ term → prevLogIndex ≤ n.lastIndex →
      n.termAt prevLogIndex = prevLogTerm → CommitCovered n prevLogIndex entries leaderCommit
  | _ => True

instance (n : RaftNode) (sender : NodeId) (msg : Msg) : Decidable (MessageSafe n sender msg) :=
  match msg with
  | .requestVote .. => inferInstanceAs (Decidable (_ → _ → _ → _))
  | .requestVoteResp .. => inferInstanceAs (Decidable (_ → _ → _ → _ → _))
  | .appendEntries .. => inferInstanceAs (Decidable (_ → _ → _ → _ → _))
  | .appendEntriesResp .. => inferInstanceAs (Decidable True)
  | .installSnapshot .. => inferInstanceAs (Decidable True)
  | .installSnapshotResp .. => inferInstanceAs (Decidable True)

/-- A node without peers does not take an entry as committed and then fail to write it. -/
def WriteSafe : Call → Prop
  | .tick =>
    n.peers = [] → n.tick.1.fatal = none ∨ n.tick.1.commitIndex = n.commitIndex
  | .proposeBatch entries =>
    n.peers = [] → (n.proposeBatch entries).1.fatal = none ∨
      (n.proposeBatch entries).1.commitIndex = n.commitIndex
  | _ => True

instance (n : RaftNode) (call : Call) : Decidable (WriteSafe n call) :=
  match call with
  | .tick => inferInstanceAs (Decidable (_ → _))
  | .proposeBatch _ => inferInstanceAs (Decidable (_ → _))
  | .forceReplicate | .markAppliedBatch .. | .compact .. | .finishSnapshotInstall .. |
    .nextBootSession .. | .failStop .. | .diskFaults .. => inferInstanceAs (Decidable True)

namespace Cluster

/-- The packet, if there is one, finds its destination on safe ground. -/
def DeliverySafe (c : Cluster) : Option Packet → Prop
  | some packet => MessageSafe (c.nodes packet.dest) packet.sender packet.msg
  | none => True

instance (c : Cluster) (packet : Option Packet) : Decidable (c.DeliverySafe packet) :=
  match packet with
  | some packet =>
    inferInstanceAs (Decidable (MessageSafe (c.nodes packet.dest) packet.sender packet.msg))
  | none => inferInstanceAs (Decidable True)

/-- Only the delivery of a message and, for a node that is alone, a write can leave safe ground. -/
def ActionSafe (c : Cluster) : Action → Prop
  | .deliver place => c.DeliverySafe c.sent[place]?
  | .call id call => WriteSafe (c.nodes id) call
  | .restart .. => True

instance (c : Cluster) (action : Action) : Decidable (c.ActionSafe action) :=
  match action with
  | .deliver place => inferInstanceAs (Decidable (c.DeliverySafe c.sent[place]?))
  | .call id call => inferInstanceAs (Decidable (WriteSafe (c.nodes id) call))
  | .restart .. => inferInstanceAs (Decidable True)

/-- Every step of the run is on safe ground. -/
def RunSafe (c : Cluster) : List Action → Prop
  | [] => True
  | action :: actions => c.ActionSafe action ∧ RunSafe (c.exec action) actions

instance decidableRunSafe (c : Cluster) : (actions : List Action) → Decidable (c.RunSafe actions)
  | [] => inferInstanceAs (Decidable True)
  | action :: actions =>
    have := decidableRunSafe (c.exec action) actions
    inferInstanceAs (Decidable (_ ∧ _))

lemma runSafe_append (c : Cluster) (first second : List Action) :
    c.RunSafe (first ++ second) ↔ c.RunSafe first ∧ (c.run first).RunSafe second := by
  induction first generalizing c with
  | nil => simp [RunSafe]
  | cons action rest ih => simp [RunSafe, ih, and_assoc]

end Cluster

end OnetDns.Raft
