import OnetDns.Cluster.Safety
import Mathlib.Data.Prod.Lex

/-!
# The vote restriction

A vote should only go to a candidate whose log is at least as up to date as the
voter's, the last entry of a log being the last one retained or else the one
the snapshot ends with. `last_log_term` does not look at the snapshot, so the
rule holds in exactly those states where it does not have to.
-/
namespace OnetDns.Raft
open RaftNode

variable {M : Finset NodeId} {strict : Prop} {s : History} {v : NodeId} {n : RaftNode}

namespace RaftNode

/-- Term of the entry at `last_index`, retained or folded. -/
def lastEntryTerm (n : RaftNode) : ℕ :=
  match n.log.getLast? with
  | some entry => entry.term
  | none => n.snapshot.elim 0 (·.term)

/-- Votes go to candidates that are lexicographically at least as far, and the
requests of the node say how far it is itself. -/
def VoteRestriction (n : RaftNode) : Prop :=
  (∀ term candidate lastLogIndex lastLogTerm,
    n.grantsVote term candidate lastLogIndex lastLogTerm = true →
      toLex (n.lastEntryTerm, n.lastIndex) ≤ toLex (lastLogTerm, lastLogIndex)) ∧
  ∀ o ∈ n.startElection.2, ∀ term candidate lastLogIndex lastLogTerm,
    o.msg = .requestVote term candidate lastLogIndex lastLogTerm →
      (lastLogTerm, lastLogIndex) = (n.lastEntryTerm, n.lastIndex)

end RaftNode

lemma lastEntryTerm_of_log (h : n.log ≠ []) : n.lastEntryTerm = n.lastLogTerm := by
  simp [lastEntryTerm, lastLogTerm, List.getLast?_eq_getLast_of_ne_nil h]

lemma lastEntryTerm_of_no_snapshot (h : n.snapshot = none) : n.lastEntryTerm = n.lastLogTerm := by
  unfold lastEntryTerm lastLogTerm
  split
  · rename_i hl
    simp [hl]
  · rename_i hl
    simp [hl, h]

lemma broadcastAppend_msg {o : Output} (ho : o ∈ n.broadcastAppend)
    (term candidate lastLogIndex lastLogTerm : ℕ) :
    o.msg ≠ .requestVote term candidate lastLogIndex lastLogTerm := by
  obtain ⟨peer, _, rfl⟩ := List.mem_map.mp ho
  unfold appendFor
  dsimp only
  split <;> nofun

/-- A request for votes carries `last_log_term` and `last_index`. -/
theorem startElection_request {disk : Disk} (hok : RaftNode.DiskOk n.books disk) {o : Output}
    (ho : o ∈ n.startElection.2) {term candidate lastLogIndex lastLogTerm : ℕ}
    (hmsg : o.msg = .requestVote term candidate lastLogIndex lastLogTerm) :
    lastLogTerm = n.lastLogTerm ∧ lastLogIndex = n.lastIndex := by
  unfold startElection at ho
  split at ho
  · cases ho
  rename_i nextTerm _
  dsimp only at ho
  set n₁ := resetElectionTimeout { n with
    currentTerm := nextTerm, role := .candidate, votedFor := some n.id, leaderId := none,
    votes := {n.id} }
  have hok₁ : RaftNode.DiskOk n₁.books disk := hok
  rcases persist_cases hok₁ with ⟨b, _, hp, _⟩ | ⟨b, _, error, hp, _⟩
  · rw [hp] at ho
    dsimp only at ho
    split at ho
    · exact absurd hmsg (broadcastAppend_msg ho _ _ _ _)
    · obtain ⟨peer, _, rfl⟩ := List.mem_map.mp ho
      cases hmsg
      exact ⟨rfl, rfl⟩
  · rw [hp] at ho
    cases ho

lemma voteRestriction_iff_aux {disk : Disk} (hok : RaftNode.DiskOk n.books disk)
    (hpos : ∀ snapshot, n.snapshot = some snapshot → 0 < snapshot.term) :
    n.VoteRestriction ↔ n.log ≠ [] ∨ n.snapshot = none := by
  constructor
  · -- a candidate with no log at all could get the vote of a folded one
    intro h
    by_contra hc
    push Not at hc
    obtain ⟨hlog, hsnap⟩ := hc
    obtain ⟨snapshot, hsnap⟩ := Option.ne_none_iff_exists'.mp hsnap
    have hterm : n.lastEntryTerm = snapshot.term := by simp [lastEntryTerm, hlog, hsnap]
    have hgrant : n.grantsVote n.currentTerm (n.votedFor.getD 0) n.lastIndex 0 = true := by
      have hlast : n.lastLogTerm = 0 := by simp [lastLogTerm, hlog]
      simp only [grantsVote, hlast, logUpToDate]
      cases n.votedFor <;> simp
    have := h.1 _ _ _ _ hgrant
    rw [Prod.Lex.toLex_le_toLex] at this
    have := hpos snapshot hsnap
    omega
  · intro h
    have hterm : n.lastEntryTerm = n.lastLogTerm :=
      h.elim lastEntryTerm_of_log lastEntryTerm_of_no_snapshot
    refine ⟨?_, ?_⟩
    · intro term candidate lastLogIndex lastLogTerm hgrant
      simp only [grantsVote, logUpToDate, Bool.and_eq_true, Bool.or_eq_true,
        decide_eq_true_eq] at hgrant
      rw [hterm, Prod.Lex.toLex_le_toLex]
      rcases hgrant.2 with hlt | ⟨heq, hle⟩
      · exact .inl hlt
      · exact .inr ⟨heq.symm, hle⟩
    · intro o ho term candidate lastLogIndex lastLogTerm hmsg
      obtain ⟨h1, h2⟩ := startElection_request hok ho hmsg
      rw [h1, h2, hterm]

/-- In every reachable state of a member the vote restriction holds if and only
if an entry is retained or nothing was ever folded. -/
theorem voteRestriction_iff (members : List NodeId) (cfg : NodeId → Config) (now : NodeId → ℕ)
    (actions : List Action) (i : NodeId) (hi : i ∈ members) :
    (((Cluster.start members cfg now).run actions).nodes i).VoteRestriction ↔
      (((Cluster.start members cfg now).run actions).nodes i).log ≠ [] ∨
      (((Cluster.start members cfg now).run actions).nodes i).snapshot = none := by
  obtain ⟨s, _, h, _⟩ := run_rel False members cfg now actions [] nofun
  rcases h.nodes i (List.mem_toFinset.mpr hi) with hn | hn
  · obtain ⟨disk, hok, _⟩ := hn.disk
    refine voteRestriction_iff_aux hok fun snapshot hs => ?_
    obtain ⟨_, e, he, het⟩ := hn.mem.full.folded snapshot hs
    rw [← het]
    exact (hn.mem.full.numbered.entry _ e he).2
  obtain ⟨disk, hok, _⟩ := hn.disk
  refine voteRestriction_iff_aux hok fun snapshot hs => ?_
  obtain ⟨snapshot', hs', hpos⟩ := hn.folded
  rw [hs] at hs'
  exact Option.some.inj hs' ▸ hpos

theorem voteRestriction_iff_trio :
    ((trio.run commitOne).nodes 1).VoteRestriction ↔
      ((trio.run commitOne).nodes 1).log ≠ [] ∨ ((trio.run commitOne).nodes 1).snapshot = none :=
  voteRestriction_iff [1, 2, 3] _ _ commitOne 1 (by decide)

/-- With its only entry folded, node 1 stands for election as if that entry had no term. -/
theorem folded_vote : ¬ ((trio.run (commitOne ++ foldOne)).nodes 1).VoteRestriction := by
  intro h
  have hsent : ∃ o ∈ ((trio.run (commitOne ++ foldOne)).nodes 1).startElection.2,
      o.msg = .requestVote 2 1 1 0 := by decide +kernel
  have hterm : ((trio.run (commitOne ++ foldOne)).nodes 1).lastEntryTerm = 1 := by decide +kernel
  obtain ⟨o, ho, hmsg⟩ := hsent
  have hsame := h.2 o ho 2 1 1 0 hmsg
  rw [hterm] at hsame
  simp at hsame

end OnetDns.Raft
