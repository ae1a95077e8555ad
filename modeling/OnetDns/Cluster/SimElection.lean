import OnetDns.Cluster.Simulation

/-!
# Elections and proposals refine the abstract protocol

The operations that make a node stand for a term, vote, take office and write
entries of its own.
-/
namespace OnetDns.Raft
open Consensus TermLog List Option Bool RaftNode State

variable {M : Finset NodeId} {strict : Prop} {s s' : History} {v : NodeId} {n m : RaftNode}

/-- The term log and the memory of its winner grew by the same entries. -/
theorem CoreRel.write (h : CoreRel M strict s v n) (hle : Le s s') {es : List LogEntry}
    (hmem : s'.mem v = { s.mem v with log := (s.mem v).log ++ es }) (hdisk : s'.disk v = s.disk v)
    (hes : ∀ i e, es[i]? = some e → e.index = (s.mem v).log.length + i + 1 ∧ 0 < e.term)
    (hlen : (s.mem v).log.length + es.length ≤ u64Max) :
    CoreRel M strict s' v { n with log := n.log ++ es } := by
  obtain ⟨disk, hok, hrel⟩ := h.disk
  refine ⟨h.id, h.peers, ⟨disk, hok, hdisk ▸ hrel.mono hle⟩, ?_, ?_⟩
  · rw [hmem]
    refine ⟨h.mem.term, h.mem.vote, h.mem.full.append hes hlen, h.mem.snapshot_le,
      h.mem.applied_le, h.mem.commit_le.trans (by simp), fun hs => ?_⟩
    have htake : ((s.mem v).log ++ es).take n.commitIndex = (s.mem v).log.take n.commitIndex :=
      take_append_of_le_length h.mem.commit_le
    exact htake ▸ (h.mem.committed hs).mono hle
  · exact fun inc hinc => ⟨(h.incoming inc hinc).1, (h.incoming inc hinc).2.mono hle⟩

/-- A candidate with a quorum of votes wins a term nobody has won. -/
theorem NodeRel.elect (hs : Sound M strict s) (h : NodeRel M strict s v n)
    (hr : n.role = .candidate) (hq : n.quorum ≤ n.votes.card) {es : List LogEntry}
    (hes : ∀ i e, es[i]? = some e → e.index = (s.mem v).log.length + i + 1 ∧ e.term = n.currentTerm)
    (hlen : (s.mem v).log.length + es.length ≤ u64Max) :
    ∃ s', Step M strict v s s' ∧ s'.mem v = { s.mem v with log := (s.mem v).log ++ es } ∧
      s'.disk v = s.disk v ∧ ¬ s'.retired n.currentTerm ∧
      Office M strict s' v { n with log := n.log ++ es } := by
  have hc := h.candidate hr
  have hterm : (s.mem v).term = n.currentTerm := h.mem.term
  have hmaj := h.toCoreRel.majority hc.votes.1 hq
  have hnone : s.election (s.mem v).term = none := by
    cases hw : s.election (s.mem v).term with
    | none => rfl
    | some w =>
      have := hs.inv.unique_winner hw hmaj (hterm ▸ hc.votes.2)
      exact absurd this (hc.undecided w (hterm ▸ hw))
  have hstep : Step M strict v s
      ((s.setElection (s.mem v).term ⟨v, n.votes, (s.mem v).log⟩).write (s.mem v).term v
        ((s.mem v).log ++ es)) := by
    refine .elect s n.votes es hmaj (hterm ▸ hc.votes.2) (hterm ▸ hc.bid) hnone ?_
    intro e he
    obtain ⟨i, hi⟩ := mem_iff_getElem?.mp he
    exact (hes i e hi).2.trans hterm.symm
  refine ⟨_, hstep, ?_, rfl, ?_, ?_, ⟨⟨v, n.votes, (s.mem v).log⟩, ?_, rfl⟩, ?_⟩
  · simp [setElection]
  · intro hret
    obtain ⟨w, hw⟩ := hs.inv.retired n.currentTerm hret
    rw [← hterm, hnone] at hw
    cases hw
  · refine h.toCoreRel.write (hstep.le hs.inv) (by simp [setElection]) rfl ?_ hlen
    intro i e he
    exact ⟨(hes i e he).1, (hes i e he).2 ▸ hc.pos⟩
  · rw [← hterm]
    simp [write]
  · rw [← hterm]
    simp

/-- A winner that stops at once: what it still sends concerns a term without a leader. -/
theorem Office.resign (h : Office M strict s v n) {error : String} :
    Simulates M strict s v (n.failStop error, (n.failStop error).broadcastAppend) := by
  obtain ⟨w, hw, hl⟩ := h.won
  have hle : Le s (s.retire n.currentTerm) := { Le.refl s with retired := fun _ => .inr }
  have hcore : CoreRel M strict (s.retire n.currentTerm) v n := h.core.mono hle rfl rfl
  refine ⟨_, .single (.retire s n.currentTerm w hw hl), .inl (hcore.failStop error), ?_⟩
  have hoff : Office M strict (s.retire n.currentTerm) v (n.failStop error) :=
    ⟨(hcore.failStop error).toCoreRel, ⟨w, hw, hl⟩, h.log⟩
  exact hoff.broadcastAppend (.inl (.inl rfl))

lemma ReplicaRel.promote {r : Replica NodeId LogEntry} {st : StableState}
    (h : ReplicaRel M False s r st) (hc : strict → Committed M s (r.log.take st.commitIndex)) :
    ReplicaRel M strict s r st :=
  { h with committed := hc }

lemma CoreRel.weaken (h : CoreRel M strict s v n) : CoreRel M False s v n := by
  obtain ⟨disk, hok, hrel⟩ := h.disk
  refine ⟨h.id, h.peers, ⟨disk, hok, { hrel with committed := nofun }⟩,
    { h.mem with committed := nofun }, fun inc hinc => ?_⟩
  obtain ⟨hne, hsnap⟩ := h.incoming inc hinc
  exact ⟨hne, { hsnap with committed := nofun }⟩

lemma persist_commitIndex {flag : Bool} (hp : n.persist = (m, flag)) :
    m.commitIndex = n.commitIndex := by
  obtain ⟨b, _, hp' | ⟨error, hp'⟩⟩ := persist_eq n
  · rw [(Prod.mk.inj (hp.symm.trans hp')).1]
    rfl
  · rw [(Prod.mk.inj (hp.symm.trans hp')).1]
    rfl

lemma written_of_kept {result : RaftNode} {c : ℕ}
    (hsame : ∀ m flag, n.persist = (m, flag) → result.fatal = m.fatal ∧
      result.commitIndex = m.commitIndex)
    (hkept : result.fatal = none ∨ result.commitIndex = c) :
    n.persist.1.fatal = none ∨ n.commitIndex = c := by
  rcases hp : n.persist with ⟨m, flag⟩
  obtain ⟨hfatal, hcommit⟩ := hsame m flag hp
  rwa [← hfatal, ← persist_commitIndex hp, ← hcommit]

/-- The winner of a term writes: either everything is on disk and acknowledged where that is
needed, or the node stops. -/
def Recorded (M : Finset NodeId) (strict : Prop) (s : History) (v : NodeId) (n : RaftNode) : Prop :=
  (∃ b s', n.persist = (n.withBooks b, true) ∧ Steps M strict v s s' ∧
    Office M strict s' v (n.withBooks b) ∧ s'.mem = s.mem ∧ s'.disk v = s.mem v ∧
    s'.retired = s.retired) ∨
  ∃ b error, n.persist = ((n.withBooks b).failStop error, false) ∧
    Office M strict s v (n.withBooks b)

section

variable (hs : Sound M strict s)
include hs

section

variable (h : Office M strict s v n)
include h

lemma Office.recorded : Recorded M strict s v n := by
  rcases h.core.persist hs with ⟨b, hp, hcore⟩ | ⟨b, error, hp, hnode⟩
  · have hsave : Step M strict v s (s.setDisk v (s.mem v)) := .save s
    exact .inl ⟨b, _, hp, .single hsave, ⟨hcore, h.won, h.log⟩, rfl, by simp [setDisk], rfl⟩
  · exact .inr ⟨b, error, hp,
      ⟨h.core.id, h.core.peers, hnode.disk, h.core.mem, h.core.incoming⟩, h.won, h.log⟩

/-- The leader of a cluster of its own has the entries on disk that it took as committed. -/
theorem Office.recorded_alone (hv : v ∈ M) (hpos : 0 < n.currentTerm) (halone : n.peers = [])
    {index : ℕ} (hlo : n.commitIndex ≤ index) (hhi : index ≤ (s.mem v).log.length)
    (hterm : n.termAt index = n.currentTerm) (hq : n.quorum ≤ n.replicated index)
    (hkept : ({ n with commitIndex := index } : RaftNode).persist.1.fatal = none) :
    Recorded M strict s v { n with commitIndex := index } := by
  obtain ⟨disk, hok, _⟩ := h.core.disk
  rcases persist_cases (n := { n with commitIndex := index }) hok with
    ⟨b, disk', hp, hok', himage, _⟩ | ⟨b, disk', error, hp, _⟩
  swap
  · rw [hp] at hkept
    cases hkept
  have hsave : Step M strict v s (s.setDisk v (s.mem v)) := .save s
  have hs₁ := hs.step hsave
  have hweak : CoreRel M False (s.setDisk v (s.mem v)) v
      (({ n with commitIndex := index } : RaftNode).withBooks b) := by
    have hle := hsave.le hs.inv
    have hcore := h.core.weaken.commit hlo hhi nofun
    refine ⟨hcore.id, hcore.peers, ⟨disk', hok', ?_⟩, hcore.mem.mono hle,
      fun inc hinc => ⟨(hcore.incoming inc hinc).1, (hcore.incoming inc hinc).2.mono hle⟩⟩
    rw [himage, setDisk_disk]
    exact hcore.mem.mono hle
  have hack : Step M strict v (s.setDisk v (s.mem v)) ((s.setDisk v (s.mem v)).setAcked
      n.currentTerm v (s.mem v).log.length) := by
    refine hweak.ack (by simp [setDisk]) ?_ ?_
    · exact (congrArg length h.log).le
    · exact congrArg (take _) h.log
  set s₂ := (s.setDisk v (s.mem v)).setAcked n.currentTerm v (s.mem v).log.length with hs₂
  have hle₂ := hack.le hs₁.inv
  have hdisk₂ : s₂.disk v = s.mem v := by simp [hs₂, setAcked]
  have hoff : Office M False s₂ v (({ n with commitIndex := index } : RaftNode).withBooks b) :=
    ⟨hweak.mono hle₂ rfl rfl, h.won, h.log⟩
  -- the only member is a majority, and has the entries on disk now
  have hchosen : Committed M s₂ ((s.mem v).log.take index) := by
    refine hoff.committed hv hpos (hhi.trans (le_setAcked _ _ _ _)) ?_ hterm hq
    intro u hu
    rw [halone] at hu
    cases hu
  have hle : Le s s₂ := (hsave.le hs.inv).trans hle₂
  refine .inl ⟨b, s₂, hp, (Relation.ReflTransGen.single hsave).tail hack, ⟨?_, h.won, h.log⟩, rfl,
    hdisk₂, rfl⟩
  refine ⟨h.core.id, h.core.peers, ⟨disk', hok', ?_⟩, hoff.core.mem.promote fun _ => hchosen,
    fun inc hinc => ⟨(h.core.incoming inc hinc).1, (h.core.incoming inc hinc).2.mono hle⟩⟩
  rw [himage, hdisk₂]
  exact hoff.core.mem.promote fun _ => hchosen

/-- The winner of a term moves its commit index and writes. -/
theorem Office.record (hv : v ∈ M) (hpos : 0 < n.currentTerm)
    (hcount : strict → n.peers ≠ [] → ∀ index, index ≤ (s.mem v).log.length → n.termAt index =
      n.currentTerm → n.quorum ≤ n.replicated index → Committed M s ((s.mem v).log.take index))
    (hkept : strict → n.peers = [] → n.advanceCommit.persist.1.fatal = none ∨
      n.advanceCommit.commitIndex = n.commitIndex) :
    ∃ index, n.advanceCommit = { n with commitIndex := index } ∧
      Recorded M strict s v { n with commitIndex := index } := by
  have hlast : n.lastIndex = (s.mem v).log.length := FullLog.lastIndex_eq h.core.mem.full
  have hmax := h.core.mem.full.numbered.length_le
  have hcommit : n.commitIndex ≤ (s.mem v).log.length := h.core.mem.commit_le
  obtain ⟨index, heq, hcase⟩ := advanceCommit_eq n
  refine ⟨index, heq, ?_⟩
  have hrange : n.commitIndex ≤ index ∧ index ≤ (s.mem v).log.length := by
    rcases hcase with rfl | ⟨hlo, hhi, _⟩
    · exact ⟨le_rfl, hcommit⟩
    · unfold satAdd at hlo
      omega
  -- with the new index committed before the write, nothing can go wrong
  have hearly : (strict → Committed M s ((s.mem v).log.take index)) →
      Recorded M strict s v { n with commitIndex := index } := fun hc =>
    recorded hs ⟨h.core.commit hrange.1 hrange.2 hc, h.won, h.log⟩
  rcases hcase with rfl | ⟨hlo, hhi, hterm, hq⟩
  · exact hearly h.core.mem.committed
  by_cases halone : n.peers = []
  swap
  · exact hearly fun hst => hcount hst halone index hrange.2 hterm hq
  by_cases hst : strict
  swap
  · exact hearly fun hst' => absurd hst' hst
  rcases hkept hst halone with hrun | hsame
  · rw [heq] at hrun
    exact h.recorded_alone hs hv hpos halone hrange.1 hrange.2 hterm hq hrun
  · rw [heq] at hsame
    obtain rfl : index = n.commitIndex := hsame
    exact hearly h.core.mem.committed

end

lemma NodeRel.becomeLeader (hv : v ∈ M) (h : NodeRel M strict s v n) (hr : n.role = .candidate)
    (hq : n.quorum ≤ n.votes.card)
    (hstale : strict → n.peers ≠ [] → n.replicated (n.lastIndex + 1) < n.quorum)
    (hkept : strict → n.peers = [] → n.becomeLeader.fatal = none ∨ n.becomeLeader.commitIndex =
      n.commitIndex) : Simulates M strict s v (n.becomeLeader, n.becomeLeader.broadcastAppend) := by
  have hlast : n.lastIndex = (s.mem v).log.length := FullLog.lastIndex_eq h.mem.full
  have hc := h.candidate hr
  set n₀ : RaftNode := { n with role := .leader, leaderId := some n.id,
                                heartbeatElapsed := max n.cfg.heartbeat 1 } with hn₀
  -- the two ways to stop before the no-op is written
  have hstop : ∀ error, Simulates M strict s v
      (n₀.failStop error, (n₀.failStop error).broadcastAppend) := by
    intro error
    have hlen : (s.mem v).log.length + ([] : List LogEntry).length ≤ u64Max := by
      simpa using h.mem.full.numbered.length_le
    obtain ⟨s', hstep, _, _, _, hoff⟩ := h.elect hs hr hq (by simp) hlen
    have hoff' : Office M strict s' v n₀ := by
      refine ⟨hoff.core.of_eq rfl rfl rfl ?_ fun _ hi => hi, hoff.won, hoff.log⟩
      simp [stableView, hn₀]
    exact .head hstep hoff'.resign
  obtain ⟨result, hresult⟩ : ∃ result, result = n.becomeLeader := ⟨_, rfl⟩
  rw [← hresult] at hkept ⊢
  unfold RaftNode.becomeLeader at hresult
  dsimp only at hresult
  split at hresult
  · rw [hresult]
    exact hstop _
  split at hresult
  · rw [hresult]
    exact hstop _
  rename_i hfull noopIndex hnoop
  obtain ⟨rfl, hbound⟩ := checkedAdd_eq_some hnoop
  have hli : n₀.lastIndex = (s.mem v).log.length := hlast
  simp only [← hn₀, hli] at hbound hresult
  set noop : LogEntry := ⟨n.currentTerm, (s.mem v).log.length + 1, []⟩
  have hes : ∀ i e, [noop][i]? = some e →
      e.index = (s.mem v).log.length + i + 1 ∧ e.term = n.currentTerm := by
    intro i e he
    rcases i with _ | i <;> simp at he
    subst he
    exact ⟨rfl, rfl⟩
  obtain ⟨s₁, hstep, hmem, hdisk, hret, hoff⟩ := h.elect hs hr hq hes (by simpa using hbound)
  have hs₁ := hs.step hstep
  have hlog₁ : (s₁.mem v).log = (s.mem v).log ++ [noop] := by rw [hmem]
  set n₁ : RaftNode := { n₀ with log := n₀.log ++ [noop] }
  have hoff₁ : Office M strict s₁ v n₁ :=
    ⟨hoff.core.of_eq rfl rfl rfl rfl fun _ hi => hi, hoff.won, hoff.log⟩
  have hfull₁ : FullLog (s₁.mem v).log n₁.snapshot n₁.log := hoff₁.core.mem.full
  -- the old progress table must not commit the no-op
  have hcount : strict → n₁.peers ≠ [] → ∀ index, index ≤ (s₁.mem v).log.length →
      n₁.termAt index = n₁.currentTerm → n₁.quorum ≤ n₁.replicated index →
      Committed M s₁ ((s₁.mem v).log.take index) := by
    intro hst hpeers i hi hterm hqi
    exfalso
    obtain ⟨hipos, _, e, he, het⟩ := hfull₁.exists_of_termAt (by rw [hterm]; exact hc.pos.ne')
    rw [hlog₁] at he hi
    rw [length_append, length_singleton] at hi
    rcases lt_or_ge (i - 1) (s.mem v).log.length with hlt | hge
    · rw [getElem?_append_left hlt] at he
      have := hc.stamps e (mem_of_getElem? he)
      exact absurd (het.trans hterm) this.ne
    · have : i = n.lastIndex + 1 := by omega
      subst this
      have := hstale hst hpeers
      exact absurd hqi (not_le.mpr this)
  have hwritten : strict → n₁.peers = [] → n₁.advanceCommit.persist.1.fatal = none ∨
      n₁.advanceCommit.commitIndex = n₁.commitIndex := by
    intro hst hpeers
    refine written_of_kept (fun m flag hp => ?_) (hkept hst hpeers)
    rw [hresult, hp]
    cases flag <;> exact ⟨rfl, rfl⟩
  obtain ⟨index, hadv, hrec⟩ := hoff₁.record hs₁ hv hc.pos hcount hwritten
  rw [hadv] at hresult
  refine .head hstep ?_
  rcases hrec with ⟨b, s₂, hp, hsteps, hoff₂, hmem₂, hdisk₂, hret₂⟩ | ⟨b, error, hp, hoff₂⟩
  · rw [hp] at hresult
    rw [hresult]
    have hli₂ : lastIndex (({ n₁ with commitIndex := index } : RaftNode).withBooks b) =
        (s₁.mem v).log.length := by
      rw [← hmem₂]
      exact FullLog.lastIndex_eq hoff₂.core.mem.full
    dsimp only
    set n₂ : RaftNode := { ({ n₁ with commitIndex := index } : RaftNode).withBooks b with
      nextIndex := _, matchIndex := _, snapshotOffsets := _ } with hn₂
    have hnext : ∀ u k, n₂.nextIndex u = some k → k ≤ (s₂.mem v).log.length + 1 := by
      intro u k hk
      simp only [hn₂, ite_none_right_eq_some, some.injEq, hli₂] at hk
      rw [← hk.2, hmem₂]
      exact satAdd_le_add _ _
    have hmatch : ∀ u i, (n₂.matchIndex u).getD 0 ≤ i := by
      intro u i
      simp only [hn₂]
      split <;> exact Nat.zero_le i
    have hoff₃ : Office M strict s₂ v n₂ :=
      ⟨hoff₂.core.of_eq rfl rfl rfl rfl fun _ hi => hi, hoff₂.won, hoff₂.log⟩
    obtain ⟨s₃, hack, hnode, hmem₃⟩ := hoff₃.lead (hs₁.steps hsteps) (by rw [hdisk₂, hmem₂]) rfl
      (h.running (by rw [hr]; rintro ⟨⟩)) (congrArg some h.id) hc.pos (by rw [hret₂]; exact hret) hnext
      (fun u => hmatch u _) (fun _ u => hmatch u _)
    refine ⟨s₃, hsteps.tail hack, .inl hnode, ?_⟩
    exact (hnode.office rfl).broadcastAppend (.inr (by rw [hmem₃]; exact hnext))
  · rw [hp] at hresult
    rw [hresult]
    exact hoff₂.resign

lemma NodeRel.startElection (hv : v ∈ M) (h : NodeRel M strict s v n) (hrun : n.fatal = none)
    (hkept : strict → n.peers = [] → n.startElection.1.fatal = none ∨ n.startElection.1.commitIndex
      = n.commitIndex) : Simulates M strict s v n.startElection := by
  obtain ⟨result, hresult⟩ : ∃ result, result = n.startElection := ⟨_, rfl⟩
  rw [← hresult] at hkept ⊢
  unfold RaftNode.startElection at hresult
  split at hresult
  · rw [hresult]
    exact (h.toCoreRel.failStop _).simulates
  rename_i nextTerm hnext
  obtain ⟨rfl, _⟩ := checkedAdd_eq_some hnext
  dsimp only at hresult
  have hterm : (s.mem v).term = n.currentTerm := h.mem.term
  set t := n.currentTerm + 1
  -- nothing was done in the new term yet
  have hnobid : s.bid t v = none := by
    cases hb : s.bid t v with
    | none => rfl
    | some b =>
      have := hs.inv.bid_disk t v b hb
      have := hs.inv.disk_le v
      omega
  have hnoballot : s.ballot t v = none := by
    cases hb : s.ballot t v with
    | none => rfl
    | some x =>
      have := hs.inv.ballot_mem t v x.1 x.2 hb
      omega
  set s₁ := s.setMem v ⟨t, none, (s.mem v).log⟩ with hs₁
  have hraise : Step M strict v s s₁ := .raise s t (by omega)
  set s₂ := s₁.setMem v { s₁.mem v with vote := some v } with hs₂
  have hchoose : Step M strict v s₁ s₂ := .choose s₁ v (.inl (by simp [hs₁]))
  have hsound₂ := (hs.step hraise).step hchoose
  have hle₂ := (hraise.le hs.inv).trans (hchoose.le (hs.step hraise).inv)
  have hmem₂ : s₂.mem v = ⟨t, some v, (s.mem v).log⟩ := by simp [hs₂, hs₁]
  refine .head hraise (.head hchoose ?_)
  set n₁ : RaftNode := .resetElectionTimeout { n with
    currentTerm := t, role := .candidate, votedFor := some n.id, leaderId := none,
    votes := {n.id} }
  have hcore₁ : CoreRel M strict s₂ v n₁ := by
    obtain ⟨disk, hok, hrel⟩ := h.disk
    refine ⟨h.id, h.peers, ⟨disk, hok, hrel.mono hle₂⟩, ?_,
      fun inc hinc => ⟨(h.incoming inc hinc).1, (h.incoming inc hinc).2.mono hle₂⟩⟩
    rw [hmem₂]
    exact ⟨rfl, congrArg some h.id.symm, h.mem.full, h.mem.snapshot_le, h.mem.applied_le,
      h.mem.commit_le, fun hst => (h.mem.committed hst).mono hle₂⟩
  rcases hcore₁.persist hsound₂ with ⟨b, hp, hcore₃⟩ | ⟨b, error, hp, hnode⟩
  · rw [hp] at hresult
    dsimp only at hresult
    set s₃ := s₂.setDisk v (s₂.mem v) with hs₃
    have hsave : Step M strict v s₂ s₃ := .save s₂
    have hmem₃ : s₃.mem v = ⟨t, some v, (s.mem v).log⟩ := hmem₂
    have hdisk₃ : s₃.disk v = ⟨t, some v, (s.mem v).log⟩ := by simp [hs₃, hmem₂]
    have hstamps : ∀ e ∈ (s.mem v).log, stamp e < t := by
      intro e he
      have := hs.inv.stamp_mem v e he
      omega
    set s₄ := s₃.setBid t v (s.mem v).log with hs₄
    have hstand : Step M strict v s₃ s₄ := by
      have hst : Step M strict v s₃ (s₃.setBid (s₃.mem v).term v (s₃.mem v).log) :=
        .stand s₃ (by rw [hmem₃, hdisk₃]) (by rw [hmem₃]; exact hnobid)
          (by rw [hmem₃]; exact hstamps)
      rwa [hmem₃] at hst
    set s₅ := s₄.setBallot t v v (s.mem v).log
    have hgrant : Step M strict v s₄ s₅ := by
      have hm : s₄.mem v = ⟨t, some v, (s.mem v).log⟩ := hmem₃
      have hd : s₄.disk v = ⟨t, some v, (s.mem v).log⟩ := hdisk₃
      have hgr : Step M strict v s₄ (s₄.setBallot (s₄.mem v).term v v (s₄.mem v).log) :=
        .grant s₄ v (by rw [hm]; exact hnoballot) (by rw [hm, hd]) (by rw [hd]) (by rw [hm])
          (fun _ => ⟨(s.mem v).log, by rw [hm]; simp [hs₄], by rw [hm]; exact UpToDate.refl _⟩)
      rwa [hm] at hgr
    have hsound₃ := hsound₂.step hsave
    have hsound₄ := hsound₃.step hstand
    have hle₅ : Le s₃ s₅ := (hstand.le hsound₃.inv).trans (hgrant.le hsound₄.inv)
    have hnode : NodeRel M strict s₅ v (n₁.withBooks b) :=
      { toCoreRel := hcore₃.mono hle₅ rfl rfl
        sync := fun _ => by
          change s₃.disk v = s₃.mem v
          rw [hmem₃, hdisk₃]
        running := fun _ => hrun
        candidate := fun _ =>
          { leaderId := rfl
            pos := Nat.succ_pos _
            bid := by
              change s₄.bid t v = some (s₃.mem v).log
              rw [hmem₃]
              simp [hs₄]
            votes := by
              change ({n.id} : Finset NodeId) ⊆ M ∧ ∀ u ∈ ({n.id} : Finset NodeId), _
              rw [h.id]
              refine ⟨by simpa using hv, fun u hu => ⟨(s.mem v).log, ?_⟩⟩
              rw [mem_singleton.mp hu]
              exact setBallot_ballot _ _ _ _ _
            stamps := by
              change ∀ e ∈ (s₃.mem v).log, _
              rw [hmem₃]
              exact hstamps
            undecided := by
              intro w hw hl
              have hbase := (hs.inv.base t w hw).1
              rw [hl, hnobid] at hbase
              cases hbase }
        leader := by rintro ⟨⟩ }
    refine .head hsave (.head hstand (.head hgrant ?_))
    split at hresult
    · rename_i hquorum
      rw [hresult] at hkept ⊢
      refine hnode.becomeLeader (hsound₄.step hgrant) hv rfl ?_ ?_ ?_
      · change (n₁.withBooks b).quorum ≤ ({n.id} : Finset NodeId).card
        rw [hquorum, Finset.card_singleton]
      · -- a quorum of one is a cluster of one
        intro hst hpeers
        have := one_lt_quorum hpeers
        omega
      · exact hkept
    rw [hresult]
    refine ⟨s₅, .refl, .inl hnode, ?_⟩
    intro o ho
    obtain ⟨peer, _, rfl⟩ := mem_map.mp ho
    have hc := hnode.candidate rfl
    have hfull : FullLog (s₅.mem v).log (n₁.withBooks b).snapshot (n₁.withBooks b).log :=
      hnode.mem.full
    refine ⟨_, hc.bid, hfull.lastIndex_eq, ?_⟩
    by_cases hne : (n₁.withBooks b).log = []
    · exact .inr (by simp [lastLogTerm, hne])
    · exact .inl (hfull.lastLogTerm_of_ne hne)
  · rw [hp] at hresult
    rw [hresult]
    exact hnode.simulates

lemma NodeRel.handleVoteResp (hv : v ∈ M) (h : NodeRel M strict s v n) {sender : NodeId}
    (hsender : sender ∈ n.peers) {term : ℕ} {granted : Bool}
    (hmsg : MsgRel M strict s sender v (.requestVoteResp term granted))
    (hstale : strict → n.role = .candidate → term = n.currentTerm → granted = true → n.quorum ≤
      (insert sender n.votes).card → n.replicated (n.lastIndex + 1) < n.quorum) :
    Simulates M strict s v (n.handleVoteResp sender term granted) := by
  unfold RaftNode.handleVoteResp
  split
  · exact h.simulates
  rename_i hcond
  push Not at hcond
  obtain ⟨hr, rfl⟩ := hcond
  split
  · rename_i hg
    dsimp only
    have hc := h.candidate hr
    have hnode : NodeRel M strict s v { n with votes := insert sender n.votes } :=
      { toCoreRel := h.toCoreRel.of_eq rfl rfl rfl rfl fun _ hi => hi
        sync := h.sync
        running := h.running
        candidate := fun _ =>
          { hc with
            votes := by
              refine ⟨Finset.insert_subset (h.mem_peers.mp hsender).1 hc.votes.1, ?_⟩
              intro u hu
              rcases Finset.mem_insert.mp hu with rfl | hu
              · exact hmsg hg
              · exact hc.votes.2 u hu }
        leader := fun hl => absurd (hr.symm.trans hl) (by nofun) }
    split
    · rename_i hq
      exact hnode.becomeLeader hs hv hr hq (fun hst _ => hstale hst hr rfl hg hq)
        fun _ halone => absurd hsender (halone ▸ not_mem_nil)
    · exact hnode.simulates
  · exact h.simulates

end

lemma upToDate_of_logUpToDate {ℓ b : List LogEntry} {lastLogTerm : ℕ}
    (hb : lastLogTerm = lastStamp b ∨ lastLogTerm = 0)
    (h : logUpToDate lastLogTerm b.length (lastStamp ℓ) ℓ.length = true) : UpToDate b ℓ := by
  simp only [logUpToDate, or_eq_true, and_eq_true, decide_eq_true_eq] at h
  unfold UpToDate
  omega

lemma NodeRel.handleRequestVote (hs : Sound M strict s) (h : NodeRel M strict s v n)
    {sender : NodeId} {term lastLogIndex lastLogTerm : ℕ}
    (hmsg : MsgRel M strict s sender v (.requestVote term sender lastLogIndex lastLogTerm))
    (hfold : strict → n.grantsVote term sender lastLogIndex lastLogTerm = true → logUpToDate
      lastLogTerm lastLogIndex (n.termAt n.lastIndex) n.lastIndex = true) :
    Simulates M strict s v (n.handleRequestVote term sender lastLogIndex lastLogTerm) := by
  unfold RaftNode.handleRequestVote
  split
  swap
  · exact h.simulates_send (by nofun)
  rename_i hgrant
  have hupto := fun hst => hfold hst hgrant
  rw [grantsVote, and_eq_true, and_eq_true, decide_eq_true_eq] at hgrant
  obtain ⟨⟨rfl, hvote⟩, _⟩ := hgrant
  have hterm : (s.mem v).term = n.currentTerm := h.mem.term
  have hfull : FullLog (s.mem v).log n.snapshot n.log := h.mem.full
  have hfree : (s.mem v).vote = none ∨ (s.mem v).vote = some sender := by
    rw [h.mem.vote]
    change n.votedFor = none ∨ n.votedFor = some sender
    cases hv : n.votedFor with
    | none => exact .inl rfl
    | some c => simpa [hv] using hvote
  set s₁ := s.setMem v { s.mem v with vote := some sender } with hs₁
  have hchoose : Step M strict v s s₁ := .choose s sender hfree
  have hsound₁ := hs.step hchoose
  have hle₁ := hchoose.le hs.inv
  have hmem₁ : s₁.mem v = ⟨n.currentTerm, some sender, (s.mem v).log⟩ := by simp [hs₁, hterm]
  set n₁ := resetElectionTimeout { n with votedFor := some sender }
  have hcore₁ : CoreRel M strict s₁ v n₁ := by
    obtain ⟨disk, hok, hrel⟩ := h.disk
    refine ⟨h.id, h.peers, ⟨disk, hok, hrel.mono hle₁⟩, ?_,
      fun inc hinc => ⟨(h.incoming inc hinc).1, (h.incoming inc hinc).2.mono hle₁⟩⟩
    rw [hmem₁]
    exact ⟨rfl, rfl, h.mem.full, h.mem.snapshot_le, h.mem.applied_le, h.mem.commit_le,
      fun hst => (h.mem.committed hst).mono hle₁⟩
  refine .head hchoose ?_
  rcases hcore₁.persist hsound₁ with ⟨b, hp, hcore₂⟩ | ⟨b, error, hp, hnode⟩
  swap
  · rw [hp]
    exact hnode.simulates
  rw [hp]
  set s₂ := s₁.setDisk v (s₁.mem v) with hs₂
  have hsave : Step M strict v s₁ s₂ := .save s₁
  have hsound₂ := hsound₁.step hsave
  have hmem₂ : s₂.mem v = ⟨n.currentTerm, some sender, (s.mem v).log⟩ := hmem₁
  have hdisk₂ : s₂.disk v = ⟨n.currentTerm, some sender, (s.mem v).log⟩ := by simp [hs₂, hmem₁]
  -- the role does not depend on the vote
  have hnode₂ : NodeRel M strict s₂ v (n₁.withBooks b) :=
    h.keep hcore₂ (hle₁.trans (hsave.le hsound₁.inv)) (by rw [hmem₂]) rfl rfl rfl
      (fun _ => by rw [hmem₂, hdisk₂]) ⟨rfl, rfl, rfl, rfl, rfl, rfl, rfl⟩
  refine .head hsave ?_
  cases hballot : s₂.ballot n.currentTerm v with
  | some x =>
    -- the vote was given before
    have hx := hsound₂.inv.ballot_mem _ _ x.1 x.2 hballot
    rw [hmem₂] at hx
    have hc : x.1 = sender := by
      rcases hx with hx | ⟨_, hx⟩
      · exact absurd hx (lt_irrefl _)
      · exact (some.inj hx).symm
    refine hnode₂.simulates_send fun _ => ⟨x.2, ?_⟩
    rw [← hc]
    exact hballot
  | none =>
    set s₃ := s₂.setBallot n.currentTerm v sender (s.mem v).log
    have hgr : Step M strict v s₂ s₃ := by
      have hg : Step M strict v s₂ (s₂.setBallot (s₂.mem v).term v sender (s₂.mem v).log) := by
        refine .grant s₂ sender (by rw [hmem₂]; exact hballot) (by rw [hmem₂, hdisk₂])
          (by rw [hdisk₂]) (by rw [hmem₂]) fun hst => ?_
        obtain ⟨bid, hbid, hlen, hlast⟩ := hmsg
        rw [hmem₂]
        refine ⟨bid, hbid, upToDate_of_logUpToDate hlast ?_⟩
        have := hupto hst
        rwa [hfull.termAt_lastIndex, hfull.lastIndex_eq, hlen] at this
      rwa [hmem₂] at hg
    refine .head hgr ?_
    have hle₃ := hgr.le hsound₂.inv
    have hnode₃ : NodeRel M strict s₃ v (n₁.withBooks b) :=
      hnode₂.keep (hnode₂.toCoreRel.mono hle₃ rfl rfl) hle₃ rfl rfl rfl rfl hnode₂.sync
        ⟨rfl, rfl, rfl, rfl, rfl, rfl, rfl⟩
    exact hnode₃.simulates_send fun _ => ⟨(s.mem v).log, setBallot_ballot _ _ _ _ _⟩

lemma proposedEntries_getElem? (term first : ℕ) (entries : List Bytes) (i : ℕ) (e : LogEntry)
    (h : (proposedEntries term first entries)[i]? = some e) :
    e.index = first + i ∧ e.term = term := by
  induction entries generalizing first i with
  | nil => simp [proposedEntries] at h
  | cons data rest ih =>
    rcases i with _ | i
    · simp only [proposedEntries, getElem?_cons_zero, some.injEq] at h
      rw [← h]
      exact ⟨rfl, rfl⟩
    · have := ih (first + 1) i h
      exact ⟨by omega, this.2⟩

lemma proposedEntries_length (term first : ℕ) (entries : List Bytes) :
    (proposedEntries term first entries).length = entries.length := by
  induction entries generalizing first with
  | nil => rfl
  | cons data rest ih => simp [proposedEntries, ih]

lemma NodeRel.proposeBatch (hs : Sound M strict s) (hv : v ∈ M) (h : NodeRel M strict s v n)
    (entries : List Bytes)
    (hkept : strict → n.peers = [] → (n.proposeBatch entries).1.fatal = none ∨
      (n.proposeBatch entries).1.commitIndex = n.commitIndex) :
    Simulates M strict s v ((n.proposeBatch entries).1, []) := by
  obtain ⟨result, hresult⟩ : ∃ result, result = (n.proposeBatch entries).1 := ⟨_, rfl⟩
  rw [← hresult] at hkept ⊢
  have hsame : result = n → Simulates M strict s v (result, []) := fun heq => by
    rw [heq]
    exact h.simulates
  unfold RaftNode.proposeBatch at hresult
  split at hresult
  · exact hsame hresult
  rename_i hleader
  rw [not_eq_false, isLeader, and_eq_true, decide_eq_true_eq, isNone_iff_eq_none] at hleader
  obtain ⟨hr, hrun⟩ := hleader
  iterate 4
    split at hresult
    · exact hsame hresult
  split at hresult
  · exact hsame hresult
  split at hresult
  · exact hsame hresult
  rename_i hne _ _ _ _ first hfirst _ _ hsecond
  obtain ⟨rfl, _⟩ := checkedAdd_eq_some hfirst
  obtain ⟨_, hbound⟩ := checkedAdd_eq_some hsecond
  have hl := h.leader hr
  have hlast : n.lastIndex = (s.mem v).log.length := FullLog.lastIndex_eq h.mem.full
  have hterm : (s.mem v).term = n.currentTerm := h.mem.term
  dsimp only at hresult
  set added := proposedEntries n.currentTerm (n.lastIndex + 1) entries
  have hes : ∀ i e, added[i]? = some e →
      e.index = (s.mem v).log.length + i + 1 ∧ e.term = n.currentTerm := by
    intro i e he
    have := proposedEntries_getElem? _ _ _ i e he
    exact ⟨by omega, this.2⟩
  have hlen : (s.mem v).log.length + added.length ≤ u64Max := by
    rw [proposedEntries_length]
    omega
  obtain ⟨w, hw, hwl⟩ := hl.won
  set s₁ := s.write n.currentTerm v ((s.mem v).log ++ added) with hs₁
  have hext : Step M strict v s s₁ := by
    have hstep : Step M strict v s (s.write (s.mem v).term v ((s.mem v).log ++ added)) := by
      refine .extend s added w (by rw [hterm]; exact hw) hwl (by rw [hterm]; exact hl.log) ?_
      intro e he
      obtain ⟨i, hi⟩ := mem_iff_getElem?.mp he
      exact (hes i e hi).2.trans hterm.symm
    rwa [hterm] at hstep
  have hsound₁ := hs.step hext
  have hlog₁ : (s₁.mem v).log = (s.mem v).log ++ added := by simp [hs₁]
  set n₁ : RaftNode := { n with log := n.log ++ added }
  have hoff₁ : Office M strict s₁ v n₁ := by
    refine ⟨h.toCoreRel.write (hext.le hs.inv) (by simp [hs₁]) rfl ?_ hlen, ⟨w, hw, hwl⟩, ?_⟩
    · exact fun i e he => ⟨(hes i e he).1, (hes i e he).2 ▸ hl.pos⟩
    · rw [hlog₁]
      exact (write_termLog _ _ _ _).symm
  -- only the leader itself holds the new entries so far
  have hcount : strict → n₁.peers ≠ [] → ∀ index, index ≤ (s₁.mem v).log.length →
      n₁.termAt index = n₁.currentTerm → n₁.quorum ≤ n₁.replicated index →
      Committed M s₁ ((s₁.mem v).log.take index) := by
    intro hst hpeers index _ hti hqi
    rcases lt_or_ge (s.mem v).log.length index with hnew | hold
    · have hzero : n.peers.countP (fun peer => decide (index ≤ (n.matchIndex peer).getD 0)) = 0 := by
        rw [countP_eq_zero]
        intro u _
        have := hl.matched u
        simp only [decide_eq_true_eq]
        omega
      have hone : n₁.replicated index = 1 := by
        change 1 + n.peers.countP _ = 1
        rw [hzero]
      have := one_lt_quorum (n := n₁) hpeers
      rw [hone] at hqi
      exact absurd hqi (not_le.mpr this)
    · exact hoff₁.committed hv hl.pos (hold.trans (hl.acked hst).1) (fun u _ => (hl.acked hst).2 u)
        hti hqi
  have hwritten : strict → n₁.peers = [] → n₁.advanceCommit.persist.1.fatal = none ∨
      n₁.advanceCommit.commitIndex = n₁.commitIndex := by
    intro hst hpeers
    refine written_of_kept (fun m flag hp => ?_) (hkept hst hpeers)
    rw [hresult, hp]
    cases flag <;> exact ⟨rfl, rfl⟩
  obtain ⟨index, hadv, hrec⟩ := hoff₁.record hsound₁ hv hl.pos hcount hwritten
  rw [hadv] at hresult
  refine .head hext ?_
  have hmono : (s.mem v).log.length ≤ (s₁.mem v).log.length := by rw [hlog₁]; simp
  rcases hrec with ⟨b, s₂, hp, hsteps, hoff₂, hmem₂, hdisk₂, hret₂⟩ | ⟨b, error, hp, hoff₂⟩
  · rw [hp] at hresult
    rw [hresult]
    have hle₂ := hsteps.le hsound₁.inv
    obtain ⟨s₃, hack, hnode, _⟩ := hoff₂.lead (hsound₁.steps hsteps) (by rw [hdisk₂, hmem₂]) hr hrun
      hl.leaderId hl.pos (by rw [hret₂]; exact hl.active)
      (fun u k hk => by rw [hmem₂]; exact (hl.next u k hk).trans (Nat.add_le_add_right hmono 1))
      (fun u => by rw [hmem₂]; exact (hl.matched u).trans hmono)
      (fun hst u => ((hl.acked hst).2 u).trans (hle₂.acked _ _))
    exact ⟨s₃, hsteps.tail hack, .inl hnode, by simp⟩
  · rw [hp] at hresult
    rw [hresult]
    exact (hoff₂.core.failStop error).simulates

end OnetDns.Raft
