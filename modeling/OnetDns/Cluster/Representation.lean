import OnetDns.Cluster.Effect
import OnetDns.Cluster.Safety

/-!
# The representation invariant of a node

While a node runs, its log continues its snapshot without a gap, its indexes
are in order and its entries are sorted by term. Its term and its commit index
never go back. Its applied index goes back in one case: a snapshot was received
while a batch of entries behind it was being applied, and is installed after
the batch was marked.
-/
namespace OnetDns.Raft
open Consensus

variable {M : Finset NodeId} {strict : Prop} {s : History} {v : NodeId} {n m : RaftNode}
  {c : Cluster}

/-- What holds between the fields of a running node. -/
structure Representation (n : RaftNode) : Prop where
  index : ∀ i e, n.log[i]? = some e → e.index = n.snapshotIndex + i + 1
  snapshot_le : n.snapshotIndex ≤ n.lastApplied
  applied_le : n.lastApplied ≤ n.commitIndex
  commit_le : n.commitIndex ≤ n.lastIndex
  durable_le : n.durableLogLen ≤ n.log.length
  terms : n.log.Pairwise fun e f => e.term ≤ f.term
  terms_le : ∀ e ∈ n.log, e.term ≤ n.currentTerm

/-- What never decreases. -/
structure Advances (n m : RaftNode) : Prop where
  term : n.currentTerm ≤ m.currentTerm
  commit : n.commitIndex ≤ m.commitIndex
  applied : n.lastApplied ≤ m.lastApplied
  snapshot : n.snapshotIndex ≤ m.snapshotIndex

lemma Advances.refl (n : RaftNode) : Advances n n := ⟨le_rfl, le_rfl, le_rfl, le_rfl⟩

lemma Advances.trans {k : RaftNode} (h : Advances n m) (h' : Advances m k) : Advances n k :=
  ⟨h.term.trans h'.term, h.commit.trans h'.commit, h.applied.trans h'.applied,
    h.snapshot.trans h'.snapshot⟩

/-- Installing a snapshot does not take back what was applied. -/
def InstallForward (n : RaftNode) : Call → Prop
  | .finishSnapshotInstall index =>
    ∀ inc ∈ n.completeIncoming, inc.index = index → n.lastApplied ≤ inc.index
  | _ => True

instance (n : RaftNode) (call : Call) : Decidable (InstallForward n call) :=
  match call with
  | .finishSnapshotInstall index =>
    inferInstanceAs (Decidable (∀ inc ∈ n.completeIncoming, inc.index = index → _))
  | .tick | .forceReplicate | .proposeBatch .. | .markAppliedBatch .. | .compact .. |
    .nextBootSession .. | .failStop .. | .diskFaults .. => inferInstanceAs (Decidable True)

namespace Cluster

def ActionForward (c : Cluster) : Action → Prop
  | .call id call => InstallForward (c.nodes id) call
  | _ => True

instance (c : Cluster) (action : Action) : Decidable (c.ActionForward action) :=
  match action with
  | .call id call => inferInstanceAs (Decidable (InstallForward (c.nodes id) call))
  | .deliver .. => inferInstanceAs (Decidable True)
  | .restart .. => inferInstanceAs (Decidable True)

/-- No snapshot is installed behind what was applied already. -/
def RunForward (c : Cluster) : List Action → Prop
  | [] => True
  | action :: actions => c.ActionForward action ∧ RunForward (c.exec action) actions

instance decidableRunForward (c : Cluster) :
    (actions : List Action) → Decidable (c.RunForward actions)
  | [] => inferInstanceAs (Decidable True)
  | action :: actions =>
    have := decidableRunForward (c.exec action) actions
    inferInstanceAs (Decidable (_ ∧ _))

lemma runForward_append (c : Cluster) (first second : List Action) :
    c.RunForward (first ++ second) ↔ c.RunForward first ∧ (c.run first).RunForward second := by
  induction first generalizing c with
  | nil => simp [RunForward]
  | cons action rest ih => simp [RunForward, ih, and_assoc]

end Cluster

lemma NodeRel.representation (hs : Sound M strict s) (h : NodeRel M strict s v n)
    (hd : n.durableLogLen ≤ n.log.length) : Representation n := by
  have hfull : FullLog (s.mem v).log n.snapshot n.log := h.mem.full
  refine ⟨?_, h.mem.snapshot_le, h.mem.applied_le, ?_, hd, ?_, ?_⟩
  · intro i e he
    rw [hfull.getElem?_log] at he
    have := (hfull.numbered.entry _ e he).1
    omega
  · rw [hfull.lastIndex_eq]
    exact h.mem.commit_le
  · rw [List.pairwise_iff_getElem]
    intro i j hi hj hij
    have hat : ∀ k (hk : k < n.log.length), (s.mem v).log[n.snapshotIndex + k]? = some n.log[k] := by
      intro k hk
      rw [← hfull.getElem?_log, List.getElem?_eq_getElem hk]
    exact (hs.inv.canon_mem v).stamp_le hs.inv.bounded (by omega) (hat i hi) (hat j hj)
  · intro e he
    obtain ⟨_, _, hat⟩ := hfull.mem_log he
    have := hs.inv.stamp_mem v e (List.mem_of_getElem? hat)
    rw [h.mem.term] at this
    exact this

lemma Effect.kept {input : Input} {result : RaftNode × List Output}
    (h : Effect n input result) : Kept n result.1 := by
  cases h with
  | quiet h _ => exact h.toKept
  | elected h _ => exact h.toKept
  | received _ h _ _ => exact h.toKept
  | folded _ h _ _ => exact h.toKept
  | installed _ h _ _ => exact h.toKept
  | applied _ _ h _ _ => exact h.toKept

lemma NodeRel.advances (h : NodeRel M strict s v n) {input : Input}
    {result : RaftNode × List Output} (he : Effect n input result)
    (hforward : ∀ call, input = .call call → InstallForward n call) : Advances n result.1 := by
  have hsnap : n.snapshotIndex ≤ n.lastApplied := h.mem.snapshot_le
  have hsame : ∀ m : RaftNode, m.snapshot = n.snapshot → n.snapshotIndex ≤ m.snapshotIndex := by
    intro m hm
    rw [RaftNode.snapshotIndex, RaftNode.snapshotIndex, hm]
  cases he with
  | quiet h _ => exact ⟨h.term, h.commit, h.applied.ge, hsame _ h.snapshot⟩
  | elected h _ => exact ⟨h.term, h.commit, h.applied.ge, hsame _ h.snapshot⟩
  | received _ h _ _ => exact ⟨h.term, h.commit, h.applied.ge, hsame _ h.snapshot⟩
  | folded data h _ _ =>
    refine ⟨h.term, h.commit, h.applied.ge, ?_⟩
    rw [RaftNode.snapshotIndex, RaftNode.snapshotIndex, h.snapshot]
    exact h.behind.le
  | installed inc h _ horigin =>
    have hle : n.lastApplied ≤ inc.index := hforward _ horigin inc h.complete rfl
    refine ⟨h.term, h.commit, h.applied ▸ hle, ?_⟩
    rw [RaftNode.snapshotIndex, RaftNode.snapshotIndex, h.snapshot]
    exact hsnap.trans hle
  | applied first last ha _ _ =>
    refine ⟨ha.term, ha.commit, ?_, hsame _ ha.snapshot⟩
    rw [ha.applied]
    exact (le_satAdd (h.mem.applied_le.trans h.toCoreRel.commit_le_u64Max)).trans
      (ha.next ▸ ha.order)

lemma ClusterRel.node_cases (h : ClusterRel M strict s c) (hv : v ∈ M) (action : Action) :
    (c.exec action).nodes v = c.nodes v ∨
    (∃ input, Effect (c.nodes v) input ((c.nodes v).handle input) ∧
      (c.exec action).nodes v = ((c.nodes v).handle input).1 ∧
      ∀ call, input = .call call → action = .call v call) ∨
    (∃ now, action = .restart v now ∧ (c.exec action).nodes v = (c.nodes v).restart now) := by
  have hupdate : ∀ u result, c.exec action = c.update u result →
      (c.exec action).nodes v = if v = u then result.1 else c.nodes v := fun u result heq => by
    rw [heq]
    rfl
  rcases h.exec_cases action with ⟨u, hu, input, heq, heff, hcall, _⟩ | ⟨u, hu, time, hact, heq⟩ |
      ⟨u, hu, result, heq⟩ | heq
  · have hnode := hupdate u _ heq
    by_cases huv : v = u
    · subst huv
      rw [if_pos rfl] at hnode
      exact .inr (.inl ⟨input, heff, hnode, hcall⟩)
    · rw [if_neg huv] at hnode
      exact .inl hnode
  · have hnode := hupdate u _ heq
    by_cases huv : v = u
    · subst huv
      rw [if_pos rfl] at hnode
      exact .inr (.inr ⟨time, hact, hnode⟩)
    · rw [if_neg huv] at hnode
      exact .inl hnode
  · have hnode := hupdate u _ heq
    rw [if_neg (fun huv : v = u => hu (huv ▸ hv))] at hnode
    exact .inl hnode
  · exact .inl (by rw [heq])

lemma run_durable (h : ClusterRel M strict s c) (hv : v ∈ M) (actions : List Action)
    (hsafe : strict → c.RunSafe actions) (hd : (c.nodes v).durableLogLen ≤ (c.nodes v).log.length) :
    ((c.run actions).nodes v).durableLogLen ≤ ((c.run actions).nodes v).log.length := by
  induction actions generalizing c s with
  | nil => exact hd
  | cons action rest ih =>
    obtain ⟨s₁, h₁, _⟩ := h.exec action fun hst => (hsafe hst).1
    refine ih h₁ (fun hst => (hsafe hst).2) ?_
    rcases h.node_cases hv action with heq | ⟨input, heff, heq, _⟩ | ⟨now, _, heq⟩
    · rw [heq]
      exact hd
    · rw [heq]
      exact heff.kept.durable hd
    · rw [heq]
      exact le_rfl

/-- Without a restart a node that still runs was running all the time. -/
theorem run_advances (h : ClusterRel M False s c) (hv : v ∈ M) (actions : List Action)
    (hrestart : ∀ now, .restart v now ∉ actions) (hforward : c.RunForward actions)
    (hrun : ((c.run actions).nodes v).fatal = none) :
    (c.nodes v).fatal = none ∧ Advances (c.nodes v) ((c.run actions).nodes v) := by
  induction actions generalizing c s with
  | nil => exact ⟨hrun, .refl _⟩
  | cons action rest ih =>
    obtain ⟨s₁, h₁, _⟩ := h.exec action nofun
    obtain ⟨hrun₁, hadv⟩ := ih h₁ (fun now hmem => hrestart now (List.mem_cons_of_mem _ hmem))
      hforward.2 hrun
    rcases h.node_cases hv action with heq | ⟨input, heff, heq, hcall⟩ | ⟨now, hact, heq⟩
    · rw [heq] at hrun₁ hadv
      exact ⟨hrun₁, hadv⟩
    · rw [heq] at hrun₁ hadv
      have hrun₀ := heff.kept.running hrun₁
      have hnode : NodeRel M False s v (c.nodes v) := (h.nodes v hv).resolve_right fun hst => by
        have := hst.fatal
        rw [hrun₀] at this
        cases this
      refine ⟨hrun₀, (hnode.advances heff fun call hin => ?_).trans hadv⟩
      have hfirst := hforward.1
      rw [hcall call hin] at hfirst
      exact hfirst
    · exact absurd (hact ▸ List.mem_cons_self) (hrestart now)

/-- A member that runs at the end of a run keeps its representation invariant,
and since any earlier moment with no restart in between nothing went back, if
no snapshot is ever installed behind what was applied. -/
theorem representation_invariant (members : List NodeId) (cfg : NodeId → Config) (now : NodeId → ℕ)
    (first second : List Action) (i : NodeId) (hi : i ∈ members)
    (hforward : (Cluster.start members cfg now).RunForward (first ++ second))
    (hrun : (((Cluster.start members cfg now).run (first ++ second)).nodes i).fatal = none) :
    Representation (((Cluster.start members cfg now).run (first ++ second)).nodes i) ∧
    ((∀ time, .restart i time ∉ second) →
      Advances (((Cluster.start members cfg now).run first).nodes i)
        (((Cluster.start members cfg now).run (first ++ second)).nodes i)) := by
  obtain ⟨s₁, s₂, h₁, h₂, _⟩ := run_rel False members cfg now first second nofun
  have hi' := List.mem_toFinset.mpr hi
  constructor
  · have hnode := (h₂.nodes i hi').resolve_right fun hst => by
      have := hst.fatal
      rw [hrun] at this
      cases this
    have hstart : ClusterRel members.toFinset False emptyHistory (.start members cfg now) :=
      start_rel members cfg now
    exact hnode.representation h₂.sound (run_durable hstart hi' _ nofun le_rfl)
  · intro hrestart
    rw [Cluster.run_append] at hrun ⊢
    exact (run_advances h₁ hi' second hrestart
      ((Cluster.runForward_append _ _ _).mp hforward).2 hrun).2

theorem representation_invariant_trio :
    Representation ((trio.run (sendFolded ++ [.call 3 (.finishSnapshotInstall 1)])).nodes 3) ∧
    ((∀ time, .restart 3 time ∉ [Action.call 3 (.finishSnapshotInstall 1)]) →
      Advances ((trio.run sendFolded).nodes 3)
        ((trio.run (sendFolded ++ [.call 3 (.finishSnapshotInstall 1)])).nodes 3)) :=
  representation_invariant [1, 2, 3] _ _ sendFolded [.call 3 (.finishSnapshotInstall 1)] 3
    (by decide) (by decide +kernel) (by decide +kernel)

/-- Node 3 holds entries 1 and 2 as committed, and node 1 folds entry 1. A late
refusal of node 3 makes node 1 send it the snapshot. -/
def sendLate : List Action :=
  commitOne ++ deliveries [4, 8, 9, 10] ++
    [.call 1 (.proposeBatch [[9]]), .call 1 .forceReplicate] ++ deliveries [11, 12, 13, 14] ++
    ticks 1 1 ++ deliveries [16] ++ foldOne ++ deliveries [8]

/-- Node 3 marks the batch it took before the snapshot arrived, then installs the snapshot. -/
def installLate : List Action := deliveries [18] ++ [.call 3 (.markAppliedBatch 1 2)]

theorem applied_goes_back :
    (((trio.run sendLate).nodes 3).nextCommittedBatch maxAppendEntries).map (·.index) = [1, 2] ∧
    ((trio.run (sendLate ++ installLate)).nodes 3).lastApplied = 2 ∧
    ((trio.run (sendLate ++ installLate)).nodes 3).pendingSnapshot = some ⟨1, 1, [7]⟩ ∧
    ((trio.run (sendLate ++ installLate ++
      [.call 3 (.finishSnapshotInstall 1)])).nodes 3).lastApplied = 1 ∧
    ((trio.run (sendLate ++ installLate ++
      [.call 3 (.finishSnapshotInstall 1)])).nodes 3).fatal = none := by
  decide +kernel

end OnetDns.Raft
