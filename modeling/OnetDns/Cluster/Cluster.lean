import OnetDns.Cluster.Node

/-!
# A cluster of nodes and its network

Every node is persistent and knows the same members. The network remembers
every packet that was ever sent: delivering one never removes it, so packets
may be lost, delayed, reordered and duplicated, but they keep their sender and
their destination. A restart throws the memory of a node away and loads what
its disk holds.
-/
namespace OnetDns.Raft

/-- A public operation of a node, other than the reception of a message. -/
inductive Call where
  | tick
  | forceReplicate
  | proposeBatch (entries : List Bytes)
  | markAppliedBatch (first last : ℕ)
  | compact (data : Bytes)
  | finishSnapshotInstall (index : ℕ)
  | nextBootSession (now : ℕ)
  | failStop (error : String)
  /-- the environment decides how the coming writes end -/
  | diskFaults (faults : List (Option String))

/-- What can happen to a running node. -/
inductive Input where
  | call (call : Call)
  | message (sender : NodeId) (msg : Msg)

namespace RaftNode

variable (n : RaftNode)

def setFaults (faults : List (Option String)) : RaftNode :=
  { n with storage := n.storage.map fun disk => { disk with faults } }

/-- Runs one operation and collects what it sends. -/
def perform : Call → RaftNode × List Output
  | .tick => n.tick
  | .forceReplicate => n.forceReplicate
  | .proposeBatch entries => ((n.proposeBatch entries).1, [])
  | .markAppliedBatch first last => ((n.markAppliedBatch first last).1, [])
  | .compact data => ((n.compact data).1, [])
  | .finishSnapshotInstall index =>
    match n.finishSnapshotInstall index with
    | (n, .ok response) => (n, [response])
    | (n, .error _) => (n, [])
  | .nextBootSession now => ((n.nextBootSession now).1, [])
  | .failStop error => (n.failStop error, [])
  | .diskFaults faults => (n.setFaults faults, [])

def handle : Input → RaftNode × List Output
  | .call call => n.perform call
  | .message sender msg => n.step sender msg

/-- The node that comes up from the disk of `n`. -/
def restart (now : ℕ) : RaftNode := newPersistent n.id n.peers n.cfg (n.storage.getD {}) now

end RaftNode

/-- A message under way, with its authenticated sender. -/
structure Packet where
  sender : NodeId
  dest : NodeId
  msg : Msg
  deriving DecidableEq

structure Cluster where
  nodes : NodeId → RaftNode
  sent : List Packet

/-- One step of a cluster run. -/
inductive Action where
  | call (id : NodeId) (call : Call)
  /-- hands the packet at this place of `sent` to its destination -/
  | deliver (place : ℕ)
  | restart (id : NodeId) (now : ℕ)

namespace Cluster

/-- A fresh cluster: nothing on any disk, nothing under way. -/
def start (members : List NodeId) (cfg : NodeId → Config) (now : NodeId → ℕ) : Cluster where
  nodes := fun id => RaftNode.newPersistent id members (cfg id) {} (now id)
  sent := []

/-- Replaces one node and puts what it sends on the network. -/
def update (c : Cluster) (id : NodeId) (result : RaftNode × List Output) : Cluster where
  nodes := fun other => if other = id then result.1 else c.nodes other
  sent := c.sent ++ result.2.map fun output => ⟨id, output.dest, output.msg⟩

def handle (c : Cluster) (id : NodeId) (input : Input) : Cluster :=
  c.update id ((c.nodes id).handle input)

def exec (c : Cluster) : Action → Cluster
  | .call id call => c.handle id (.call call)
  | .deliver place =>
    match c.sent[place]? with
    | some packet => c.handle packet.dest (.message packet.sender packet.msg)
    | none => c
  | .restart id now => c.update id ((c.nodes id).restart now, [])

lemma exec_deliver {c : Cluster} {place : ℕ} {packet : Packet} (h : c.sent[place]? = some packet) :
    c.exec (.deliver place) = c.handle packet.dest (.message packet.sender packet.msg) := by
  simp only [exec, h]

lemma exec_deliver_none {c : Cluster} {place : ℕ} (h : c.sent[place]? = none) :
    c.exec (.deliver place) = c := by
  simp only [exec, h]

def run (c : Cluster) (actions : List Action) : Cluster := actions.foldl exec c

variable (c : Cluster)

@[simp] lemma run_nil : c.run [] = c := rfl

@[simp] lemma run_cons (action : Action) (actions : List Action) :
    c.run (action :: actions) = (c.exec action).run actions := rfl

lemma run_append (first second : List Action) :
    c.run (first ++ second) = (c.run first).run second := List.foldl_append

end Cluster

/-- Three members with short timeouts, for the runs that are written out. -/
def trio : Cluster := Cluster.start [1, 2, 3] (fun _ => ⟨2, 1⟩) (fun _ => 7)

def ticks (id count : ℕ) : List Action := List.replicate count (.call id .tick)

def deliveries (places : List ℕ) : List Action := places.map Action.deliver

/-- Node 1 stands for election and gets the vote of node 2. -/
def electOne : List Action := ticks 1 2 ++ deliveries [0, 2]

/-- Node 2 takes the no-op of node 1, which commits it. -/
def commitOne : List Action := electOne ++ deliveries [3, 5, 6, 7]

/-- Node 1 applies the no-op and folds it into a snapshot. -/
def foldOne : List Action := [.call 1 (.markAppliedBatch 1 1), .call 1 (.compact [7])]

/-- Node 3, which has nothing, receives that snapshot. -/
def sendFolded : List Action := commitOne ++ foldOne ++ deliveries [4, 8, 9]

end OnetDns.Raft
