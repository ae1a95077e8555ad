import OnetDns.Cluster.Conditions

/-!
# The apply thread

Beside every node of a cluster runs the loop of `raft-apply` in `transport.rs`. It looks at
the node under the lock, calls the upper layer without it, and takes the lock again to tell
the node that the work is done. Anything may happen to the node in between.
-/
namespace OnetDns.Raft

variable {σ : Type*}

/-- The state machine of the upper layer: `on_apply`, `on_snapshot` and
`on_install_snapshot`, as long as they succeed. -/
structure Application (σ : Type*) where
  initial : σ
  apply : σ → Bytes → σ
  snapshot : σ → Bytes
  install : Bytes → σ

variable (app : Application σ)

namespace Application

/-- The entries of a batch, one after the other. A no-op is passed over. -/
def replay (app : Application σ) (state : σ) (entries : List LogEntry) : σ :=
  entries.foldl (fun state entry => if entry.data = [] then state else app.apply state entry.data)
    state

lemma replay_append (state : σ) (first second : List LogEntry) :
    app.replay state (first ++ second) = app.replay (app.replay state first) second :=
  List.foldl_append

/-- The state that a process starts with: what the node holds as applied. -/
def recover (app : Application σ) (n : RaftNode) : σ :=
  app.replay (n.snapshot.elim app.initial fun snapshot => app.install snapshot.data)
    n.appliedEntriesAfterSnapshot

end Application

/-- What the apply thread has called the upper layer for and not told the node. -/
inductive Work where
  | idle
  | installing (index : ℕ)
  | folding (data : Bytes)
  | applying (first last : ℕ)
  deriving DecidableEq

namespace RaftNode

/-- One call; if it answers with an error the thread stops the node. -/
def orStop {α : Type} (call : Call) : Except String α → List Call
  | .ok _ => [call]
  | .error error => [call, .failStop error]

def finishCalls (n : RaftNode) : Work → List Call
  | .idle => []
  | .installing index => orStop (.finishSnapshotInstall index) (n.finishSnapshotInstall index).2
  | .folding data => orStop (.compact data) (n.compact data).2
  | .applying first last =>
    orStop (.markAppliedBatch first last) (n.markAppliedBatch first last).2

/-- The work that the thread takes up, and the state of the upper layer after the call. Whether it
folds depends on proposals that wait and on `snapshot_due`; here it may do so at any time. -/
def takeWork (app : Application σ) (n : RaftNode) (state : σ) (fold : Bool) : σ × Work :=
  match n.pendingSnapshot with
  | some snapshot => (app.install snapshot.data, .installing snapshot.index)
  | none =>
    if fold then (state, .folding (app.snapshot state))
    else
      match n.nextCommittedBatch maxAppendEntries with
      | [] => (state, .idle)
      | first :: rest =>
        (app.replay state (first :: rest), .applying first.index ((first :: rest).getLast?.elim 0
          (·.index)))

end RaftNode

/-- A cluster with the upper layer and the apply thread of each node. -/
structure Machine (σ : Type*) where
  cluster : Cluster
  state : NodeId → σ
  work : NodeId → Work

/-- What can happen: to a node from outside, to its process, and in its apply thread. -/
inductive Happening where
  | tick (id : NodeId)
  | forceReplicate (id : NodeId)
  | proposeBatch (id : NodeId) (entries : List Bytes)
  | nextBootSession (id : NodeId) (now : ℕ)
  | diskFaults (id : NodeId) (faults : List (Option String))
  | deliver (place : ℕ)
  | restart (id : NodeId) (now : ℕ)
  | take (id : NodeId) (fold : Bool)
  | finish (id : NodeId)

namespace Machine

def start (app : Application σ) (members : List NodeId) (cfg : NodeId → Config)
    (now : NodeId → ℕ) : Machine σ :=
  ⟨Cluster.start members cfg now, fun _ => app.initial, fun _ => .idle⟩

variable (m : Machine σ)

/-- What the cluster sees of it. -/
def actions : Happening → List Action
  | .tick id => [.call id .tick]
  | .forceReplicate id => [.call id .forceReplicate]
  | .proposeBatch id entries => [.call id (.proposeBatch entries)]
  | .nextBootSession id now => [.call id (.nextBootSession now)]
  | .diskFaults id faults => [.call id (.diskFaults faults)]
  | .deliver place => [.deliver place]
  | .restart id now => [.restart id now]
  | .take _ _ => []
  | .finish id => ((m.cluster.nodes id).finishCalls (m.work id)).map (.call id)

def exec (app : Application σ) (m : Machine σ) (h : Happening) : Machine σ :=
  let cluster := m.cluster.run (m.actions h)
  match h with
  | .restart id _ =>
    ⟨cluster, Function.update m.state id (app.recover (cluster.nodes id)),
      Function.update m.work id .idle⟩
  | .take id fold =>
    -- one piece of work at a time
    if m.work id = .idle then
      let taken := (m.cluster.nodes id).takeWork app (m.state id) fold
      ⟨cluster, Function.update m.state id taken.1, Function.update m.work id taken.2⟩
    else m
  | .finish id => ⟨cluster, m.state, Function.update m.work id .idle⟩
  | _ => ⟨cluster, m.state, m.work⟩

def run (app : Application σ) (m : Machine σ) (hs : List Happening) : Machine σ :=
  hs.foldl (exec app) m

lemma run_append (first second : List Happening) :
    m.run app (first ++ second) = (m.run app first).run app second := List.foldl_append

lemma exec_cluster (h : Happening) :
    (m.exec app h).cluster = m.cluster.run (m.actions h) := by
  cases h with
  | take id fold =>
    unfold exec
    dsimp only
    split
    · rfl
    · rfl
  | _ => rfl

/-- The index up to which the upper layer has seen the log. -/
def reached (id : NodeId) : ℕ :=
  match m.work id with
  | .installing index => index
  | .applying _ last => last
  | _ => (m.cluster.nodes id).lastApplied

end Machine

end OnetDns.Raft
