import OnetDns.Cluster.Conditions
import OnetDns.Cluster.SimElection

/-!
# Replication and snapshots refine the abstract protocol

The operations of a follower that receives entries or a snapshot, and of a
leader that receives the answers.
-/
namespace OnetDns.Raft
open Consensus TermLog List RaftNode

variable {M : Finset NodeId} {strict : Prop} {s s' : History} {v : NodeId} {n m : RaftNode}

variable {entries : List LogEntry} {prev prevTerm : ℕ}

lemma Slice.length_le {t : ℕ} (h : Slice s t prev prevTerm entries) :
    prev + entries.length ≤ (s.termLog t).length := by
  have := h.entries.length_le
  have := h.prev_le
  rw [length_drop] at *
  omega

lemma Slice.at {t i : ℕ} {e : LogEntry} (h : Slice s t prev prevTerm entries)
    (he : entries[i]? = some e) : (s.termLog t)[prev + i]? = some e := by
  obtain ⟨c, hc⟩ := h.entries
  rw [← getElem?_drop, ← hc, getElem?_append_left (List.getElem?_eq_some_iff.mp he).1, he]

lemma Slice.index {t : ℕ}
    (h : Slice s t prev prevTerm entries) (i : ℕ) (e : LogEntry) (he : entries[i]? = some e) :
    e.index = prev + i + 1 ∧ 0 < e.term := by
  have hi := (List.getElem?_eq_some_iff.mp he).1
  exact h.numbered.entry (prev + i) e (by rw [getElem?_take_of_lt (by omega), h.at he])

lemma lastNew_eq (h : ∀ i e, entries[i]? = some e → e.index = prev + i + 1) :
    entries.getLast?.elim prev (·.index) = prev + entries.length := by
  rcases eq_nil_or_concat' entries with rfl | ⟨init, e, rfl⟩
  · rfl
  · rw [getLast?_concat, length_append, Option.elim_some, h init.length e (by simp)]
    rfl

/-- Logs that agree on the term of the entry before a batch agree up to there. -/
theorem Slice.prefix_eq (hs : Sound M strict s) (h : CoreRel M strict s v n)
    (hslice : Slice s n.currentTerm prev prevTerm entries) (hterm : n.termAt prev = prevTerm) :
    (s.mem v).log.take prev = (s.termLog n.currentTerm).take prev ∧
      (prev = 0 ∨ n.snapshotIndex ≤ prev ∧ prev ≤ (s.mem v).log.length) := by
  have hfull : FullLog (s.mem v).log n.snapshot n.log := h.mem.full
  rcases hslice.entry with ⟨rfl, _⟩ | ⟨hpos, e, he, het⟩
  · exact ⟨rfl, .inl rfl⟩
  have hep : 0 < e.term :=
    (hslice.numbered.entry (prev - 1) e (by rw [getElem?_take_of_lt (by omega), he])).2
  obtain ⟨_, hsnap, f, hf, hft⟩ := hfull.exists_of_termAt (i := prev) (by rw [hterm]; omega)
  have hmatch := (hs.inv.canon_mem v).matching (hs.inv.canon_term n.currentTerm) hf he
    (hft.trans (hterm.trans het.symm))
  rw [Nat.sub_add_cancel hpos] at hmatch
  have := (List.getElem?_eq_some_iff.mp hf).1
  exact ⟨hmatch, .inr ⟨hsnap, by omega⟩⟩

variable {leaderCommit : ℕ}

/-- The leader's commit index is taken over as far as the log goes. -/
theorem CoreRel.takeCommit (h : CoreRel M strict s v n)
    (hc : strict → n.commitIndex < leaderCommit → Committed M s ((s.mem v).log.take
      (min leaderCommit n.lastIndex))) :
    ∃ index, n.takeCommit leaderCommit = { n with commitIndex := index } ∧
      CoreRel M strict s v { n with commitIndex := index } := by
  have hlast : n.lastIndex = (s.mem v).log.length := FullLog.lastIndex_eq h.mem.full
  have hcommit : n.commitIndex ≤ (s.mem v).log.length := h.mem.commit_le
  unfold RaftNode.takeCommit
  split
  · rename_i hlt
    exact ⟨_, rfl, h.commit (by omega) (by omega) fun hst => hc hst hlt⟩
  · exact ⟨n.commitIndex, rfl, h⟩

/-- What is left to do for a batch that is in the log: follow the commit index,
write, acknowledge. -/
theorem CoreRel.appendMerged (hs : Sound M strict s) (h : CoreRel M strict s v n)
    (hr : n.role = .follower) (hrun : n.fatal = none) {leader : NodeId} {lastNew : ℕ}
    {changed : Bool} (hsync : changed = false → s.disk v = s.mem v)
    (hc : strict → n.commitIndex < leaderCommit → Committed M s ((s.mem v).log.take
      (min leaderCommit n.lastIndex)))
    (hresp : (lastNew ≤ (s.termLog n.currentTerm).length ∧ (s.mem v).log.take lastNew =
      (s.termLog n.currentTerm).take lastNew) ∨ s.retired n.currentTerm) :
    Simulates M strict s v (n.appendMerged leader lastNew changed leaderCommit) := by
  -- once memory and disk agree the answer is a true acknowledgement
  have hanswer : ∀ {s' : History} {m : RaftNode}, Sound M strict s' → NodeRel M strict s' v m →
      m.fatal = none → m.currentTerm = n.currentTerm → s'.termLog = s.termLog →
      s'.mem v = s.mem v → s'.retired = s.retired →
      Simulates M strict s' v (m, [m.appendResponse leader true lastNew]) := by
    intro s' m hs' hm hmrun hterm htl hmem hret
    rcases hresp with ⟨hlen, hlog⟩ | hretired
    · rw [← htl, ← hterm] at hlen
      rw [← hmem, ← htl, ← hterm] at hlog
      obtain ⟨hstep, hnode⟩ := hm.ack hs' hmrun hlen hlog
      exact .head hstep (hnode.simulates_send fun _ _ => .inl (State.le_setAcked _ _ _ _))
    · refine hm.simulates_send fun _ _ => .inr ?_
      rw [hret]
      exact hterm ▸ hretired
  unfold RaftNode.appendMerged
  split
  · exact (h.failStop _).simulates
  obtain ⟨index, heq, hcore⟩ := h.takeCommit hc
  dsimp only
  rw [heq]
  split
  · rcases hcore.persist hs with ⟨b, hp, hcore'⟩ | ⟨b, error, hp, hnode⟩
    · rw [hp]
      have hsave : Step M strict v s (s.setDisk v (s.mem v)) := .save s
      refine .head hsave (hanswer (hs.step hsave) ?_ hrun rfl rfl rfl rfl)
      exact hcore'.follower hr fun _ => by simp [State.setDisk]
    · rw [hp]
      exact hnode.simulates
  · rename_i hch
    exact hanswer hs (hcore.follower hr fun _ => hsync (by simpa using hch)) hrun rfl rfl rfl rfl

lemma CommitCovered.of_nil (h : CommitCovered n prev [] leaderCommit)
    (hprev : prev ≤ n.commitIndex) :
    leaderCommit ≤ n.commitIndex ∨ n.lastIndex ≤ n.commitIndex := by
  rcases h with h | h | ⟨e, he, _⟩
  · exact .inl (by simpa [hprev] using h)
  · exact .inr (by simpa [hprev] using h)
  · cases he

/-- A batch without entries, in front of what the node has committed. -/
theorem NodeRel.appendAccepted_nil (hs : Sound M strict s) (h : NodeRel M strict s v n)
    (hr : n.role = .follower) (hrun : n.fatal = none) {leader : ℕ} (hprev : prev ≤ n.commitIndex)
    (hresp : (prev ≤ (s.termLog n.currentTerm).length ∧ (s.mem v).log.take prev =
      (s.termLog n.currentTerm).take prev) ∨ s.retired n.currentTerm)
    (hcov : strict → prev ≤ n.lastIndex → n.termAt prev = prevTerm → CommitCovered n prev []
      leaderCommit) :
    Simulates M strict s v (n.appendAccepted leader prev prevTerm [] leaderCommit) := by
  have hlast : n.lastIndex = (s.mem v).log.length := FullLog.lastIndex_eq h.mem.full
  have hcommit : n.commitIndex ≤ (s.mem v).log.length := h.mem.commit_le
  unfold appendAccepted
  split
  · exact h.simulates_send (by nofun)
  rename_i hfit
  push Not at hfit
  refine h.toCoreRel.appendMerged hs hr hrun (fun _ => h.sync hrun) ?_ hresp
  intro hst hlt
  rcases (hcov hst hfit.1 hfit.2).of_nil hprev with hc | hc
  · exact absurd hlt (not_lt.mpr hc)
  · have heq : min leaderCommit n.lastIndex = n.commitIndex := by omega
    rw [heq]
    exact h.mem.committed hst

/-- A conflicting entry is not in the log already. -/
theorem Conflicts.not_held {ℓ : List LogEntry} (h : Conflicts n entries)
    (hfull : FullLog ℓ n.snapshot n.log)
    (hes : ∀ i e, entries[i]? = some e → e.index = prev + i + 1) : ¬ entries <+: ℓ.drop prev := by
  rintro ⟨c, hc⟩
  obtain ⟨entry, hentry, held, hheld, hidx, hne⟩ := h
  obtain ⟨i, hi⟩ := mem_iff_getElem?.mp hentry
  obtain ⟨j, hj⟩ := mem_iff_getElem?.mp hheld
  rw [hfull.getElem?_log] at hj
  have h1 := hes i entry hi
  have h2 := (hfull.numbered.entry _ held hj).1
  have hat : ℓ[prev + i]? = some entry := by
    rw [← getElem?_drop, ← hc, getElem?_append_left (List.getElem?_eq_some_iff.mp hi).1, hi]
  rw [show n.snapshotIndex + j = prev + i by omega, hat] at hj
  rw [Option.some.inj hj] at hne
  tauto

/-- How far a covered commit index reaches in the log after the batch. -/
theorem CommitCovered.min_le {ℓ x : List LogEntry} (h : CommitCovered n prev entries leaderCommit)
    (hfull : FullLog ℓ n.snapshot n.log) (hp : ℓ.take prev = x.take prev)
    (hes : entries <+: x.drop prev) (hidx : ∀ i e, entries[i]? = some e → e.index = prev + i + 1) :
    min leaderCommit (splice ℓ prev entries).length ≤
      max n.commitIndex (prev + entries.length) := by
  have hlast := hfull.lastIndex_eq
  rcases h with h | h | h
  · omega
  · rcases splice_eq_or hp hes with hsp | hsp
    · rw [hsp]
      omega
    · rw [hsp, length_take]
      omega
  · rw [splice, if_neg (h.not_held hfull hidx), length_append, length_take]
    omega

/-- The log after a batch that fits: the batch is written at its place. -/
structure MergedLog (s : History) (v : NodeId) (n : RaftNode) (prev : ℕ) (entries x : List LogEntry)
    (merge : RaftNode.Merge) : Prop where
  stop : merge.stop = .done
  full : FullLog x n.snapshot merge.log
  committed : x.take n.commitIndex = (s.mem v).log.take n.commitIndex
  commit_le : n.commitIndex ≤ x.length
  batch : x.take (prev + entries.length) = (s.termLog n.currentTerm).take (prev + entries.length)
  unchanged : merge.changed = false → x = (s.mem v).log

/-- A batch that starts inside the retained log is merged, or it would change
what is committed. -/
theorem Slice.merge_cases (hs : Sound M strict s) (h : CoreRel M strict s v n)
    (hslice : Slice s n.currentTerm prev prevTerm entries) (hterm : n.termAt prev = prevTerm)
    (hprev : prev ≤ n.lastIndex) (hsnap : n.snapshotIndex ≤ prev) :
    MergedLog s v n prev entries (splice (s.mem v).log prev entries)
        (mergeEntries n.snapshotIndex n.commitIndex entries n.log n.durableLogLen false) ∨
    ∃ index, mergeEntries n.snapshotIndex n.commitIndex entries n.log n.durableLogLen false =
      ⟨n.log, n.durableLogLen, false, .rewrite index⟩ := by
  have hfull : FullLog (s.mem v).log n.snapshot n.log := h.mem.full
  have hlast : n.lastIndex = (s.mem v).log.length := hfull.lastIndex_eq
  have hcommit : n.commitIndex ≤ (s.mem v).log.length := h.mem.commit_le
  obtain ⟨hp, _⟩ := hslice.prefix_eq hs h hterm
  have hlen : prev + entries.length ≤ u64Max := by
    have := hslice.numbered.length_le
    rwa [length_take, min_eq_left hslice.length_le] at this
  have hmerge := mergeEntries_cases n.durableLogLen false hfull.numbered hsnap (hlast ▸ hprev) hcommit
    hlen hslice.index
  rw [hfull.drop_eq] at hmerge
  refine hmerge.imp (fun ⟨hm, hkeep⟩ => ?_) fun ⟨index, _, _, _, _, hm⟩ => ⟨index, hm⟩
  have hbatch := splice_take hp hslice.entries
  refine ⟨hm.stop, ?_, hkeep, ?_, hbatch, ?_⟩
  · have hnum : Numbered (splice (s.mem v).log prev entries) := by
      rcases splice_eq_or hp hslice.entries with hc | hc
      · rw [hc]
        exact hfull.numbered
      · rw [hc]
        exact hslice.numbered
    rw [hm.log]
    refine hfull.replace hnum hsnap ?_
    rw [hp]
    exact take_eq_mono hbatch (Nat.le_add_right _ _)
  · have := congrArg length hkeep
    rw [length_take, length_take] at this
    omega
  · intro hch
    have hpre := hm.changed
    rw [hch] at hpre
    rw [splice, if_pos (by simpa using hpre)]

/-- A batch that starts inside the retained log. -/
theorem NodeRel.appendAccepted_slice (hs : Sound M strict s) (h : NodeRel M strict s v n)
    (hr : n.role = .follower) (hrun : n.fatal = none) {leader : ℕ}
    (hmsg : AppendRel M strict s n.currentTerm leader prev prevTerm entries leaderCommit)
    (hslice : Slice s n.currentTerm prev prevTerm entries) (hterm : n.termAt prev = prevTerm)
    (hprev : prev ≤ n.lastIndex) (hsnap : n.snapshotIndex ≤ prev)
    (hcov : strict → CommitCovered n prev entries leaderCommit) :
    Simulates M strict s v (n.appendAccepted leader prev prevTerm entries leaderCommit) := by
  have hfull : FullLog (s.mem v).log n.snapshot n.log := h.mem.full
  have hmt : (s.mem v).term = n.currentTerm := h.mem.term
  obtain ⟨hp, _⟩ := hslice.prefix_eq hs h.toCoreRel hterm
  have hidx : ∀ i e, entries[i]? = some e → e.index = prev + i + 1 :=
    fun i e he => (hslice.index i e he).1
  unfold appendAccepted
  rw [if_neg (by push Not; exact ⟨hprev, hterm⟩)]
  split
  · exact h.simulates_send (by nofun)
  dsimp only
  rcases hslice.merge_cases hs h.toCoreRel hterm hprev hsnap with hm | ⟨index, hm⟩
  swap
  · rw [hm]
    exact (h.toCoreRel.failStop _).simulates
  set merge := mergeEntries n.snapshotIndex n.commitIndex entries n.log n.durableLogLen false
  set x := splice (s.mem v).log prev entries
  set s₁ := s.setMem v { s.mem v with log := x } with hs₁
  have hacc : Step M strict v s s₁ :=
    .accept s prev entries (by rw [hmt]; exact hp) (by rw [hmt]; exact hslice.entries)
  have hle := hacc.le hs.inv
  have hmem₁ : s₁.mem v = { s.mem v with log := x } := by simp [hs₁]
  set n₁ : RaftNode := { n with log := merge.log, durableLogLen := merge.durableLogLen }
  have hcore₁ : CoreRel M strict s₁ v n₁ := by
    obtain ⟨disk, hok, hrel⟩ := h.disk
    refine ⟨h.id, h.peers, ⟨disk, { hok with }, hrel.mono hle⟩, ?_,
      fun inc hinc => ⟨(h.incoming inc hinc).1, (h.incoming inc hinc).2.mono hle⟩⟩
    rw [hmem₁]
    refine ⟨h.mem.term, h.mem.vote, hm.full, h.mem.snapshot_le, h.mem.applied_le, hm.commit_le, ?_⟩
    intro hst
    change Committed M s₁ (x.take n.commitIndex)
    rw [hm.committed]
    exact (h.mem.committed hst).mono hle
  refine .head hacc ?_
  rw [hm.stop]
  have hli₁ : n₁.lastIndex = x.length := FullLog.lastIndex_eq (n := n₁) hm.full
  rw [lastNew_eq hidx]
  refine hcore₁.appendMerged (hs.step hacc) hr hrun ?_ ?_ ?_
  · intro hch
    rw [hmem₁, hm.unchanged hch]
    exact h.sync hrun
  · intro hst hlt
    rw [hli₁, hmem₁]
    have hreach : min leaderCommit x.length ≤ max n.commitIndex (prev + entries.length) :=
      (hcov hst).min_le hfull hp hslice.entries hidx
    have hlo := hm.commit_le
    change n.commitIndex < leaderCommit at hlt
    rcases lt_or_ge n.commitIndex (min leaderCommit x.length) with hc | hc
    swap
    · rw [show min leaderCommit x.length = n.commitIndex by omega, hm.committed]
      exact (h.mem.committed hst).mono hle
    · have hB : min leaderCommit x.length ≤ prev + entries.length := by omega
      rw [take_eq_mono hm.batch hB]
      have := ((hmsg.committed hst).mono hle).take (min leaderCommit x.length)
      rwa [take_take, min_eq_left (min_le_left _ _)] at this
  · rw [hmem₁]
    exact .inl ⟨hslice.length_le, hm.batch⟩

lemma NodeRel.appendAccepted (hs : Sound M strict s) (h : NodeRel M strict s v n)
    (hr : n.role = .follower) (hrun : n.fatal = none) {leader : ℕ}
    (hmsg : AppendRel M strict s n.currentTerm leader prev prevTerm entries leaderCommit)
    (hcov : strict → prev ≤ n.lastIndex → n.termAt prev = prevTerm → CommitCovered n prev entries
      leaderCommit) :
    Simulates M strict s v (n.appendAccepted leader prev prevTerm entries leaderCommit) := by
  have hfull : FullLog (s.mem v).log n.snapshot n.log := h.mem.full
  have hlast : n.lastIndex = (s.mem v).log.length := hfull.lastIndex_eq
  have hsnapc : n.snapshotIndex ≤ n.commitIndex := h.mem.snapshot_le_commit
  by_cases hfit : n.lastIndex < prev ∨ n.termAt prev ≠ prevTerm
  · rw [RaftNode.appendAccepted, if_pos hfit]
    exact h.simulates_send (by nofun)
  push Not at hfit
  obtain ⟨hprev, hterm⟩ := hfit
  rcases hmsg.content with hslice | ⟨hret, hzero, rfl⟩
  · obtain ⟨hp, hpos⟩ := hslice.prefix_eq hs h.toCoreRel hterm
    by_cases hsnap : n.snapshotIndex ≤ prev
    · exact h.appendAccepted_slice hs hr hrun hmsg hslice hterm hprev hsnap
        fun hst => hcov hst hprev hterm
    have hz : prev = 0 := by omega
    subst hz
    cases entries with
    | nil =>
      exact h.appendAccepted_nil hs hr hrun (Nat.zero_le _) (.inl ⟨Nat.zero_le _, rfl⟩) hcov
    | cons e rest =>
      -- the batch starts in front of the snapshot
      have he := (hslice.index 0 e rfl).1
      have hlow : e.index < satAdd n.snapshotIndex 1 := by
        rw [he]
        exact one_lt_satAdd (not_le.mp hsnap)
      rw [appendAccepted, if_neg (by push Not; exact ⟨hprev, hterm⟩)]
      split
      · exact h.simulates_send (by nofun)
      · rw [mergeEntries, if_pos hlow]
        exact h.simulates_send (by nofun)
  · have hle : prev ≤ n.commitIndex := by
      by_contra hc
      have := hfull.termAt_of_getElem? (i := prev) (by omega) (by omega)
        (getElem?_eq_getElem (show prev - 1 < (s.mem v).log.length by omega))
      have hpos := (hfull.numbered.entry (prev - 1) _
        (getElem?_eq_getElem (show prev - 1 < (s.mem v).log.length by omega))).2
      omega
    exact h.appendAccepted_nil hs hr hrun hle (.inr hret) hcov

lemma NodeRel.handleAppend (hs : Sound M strict s) (h : NodeRel M strict s v n)
    (hrun : n.fatal = none) {term leader : ℕ}
    (hmsg : AppendRel M strict s term leader prev prevTerm entries leaderCommit)
    (hcov : strict → n.currentTerm ≤ term → prev ≤ n.lastIndex → n.termAt prev = prevTerm →
      CommitCovered n prev entries leaderCommit) :
    Simulates M strict s v (n.handleAppend term leader prev prevTerm entries leaderCommit) := by
  unfold RaftNode.handleAppend
  split
  · exact h.simulates_send (by nofun)
  split
  · exact h.simulates_send (by nofun)
  split
  · exact h.simulates_send (by nofun)
  rename_i hterm _
  push Not at hterm
  obtain ⟨rfl, _⟩ := hterm
  have hnode : NodeRel M strict s v (n.followLeader leader n.currentTerm) := by
    refine CoreRel.follower (h.toCoreRel.of_eq rfl rfl rfl rfl ?_) rfl h.sync
    intro inc hinc
    exact Option.eq_some_of_filter_eq_some hinc
  exact hnode.appendAccepted hs rfl hrun hmsg fun hst => hcov hst le_rfl

/-- Progress a peer has really made may be counted. -/
theorem NodeRel.recordProgress (hv : v ∈ M) (h : NodeRel M strict s v n) (hr : n.role = .leader)
    {peer : NodeId} {index : ℕ} (hack : strict → index ≤ s.acked n.currentTerm peer) :
    NodeRel M strict s v (n.recordProgress peer index) ∧
      (n.recordProgress peer index).role = .leader := by
  have hl := h.leader hr
  have hlast : n.lastIndex = (s.mem v).log.length := FullLog.lastIndex_eq h.mem.full
  set bounded := max (min index n.lastIndex) ((n.matchIndex peer).getD 0)
  have hble : bounded ≤ (s.mem v).log.length := by
    have := hl.matched peer
    omega
  have hback : strict → bounded ≤ s.acked n.currentTerm peer := by
    intro hst
    have := hack hst
    have := (hl.acked hst).2 peer
    omega
  set n₀ : RaftNode := { n with matchIndex := insertKey n.matchIndex peer bounded,
                                nextIndex := insertKey n.nextIndex peer (satAdd bounded 1) } with hn₀
  have hcore₀ : CoreRel M strict s v n₀ := h.toCoreRel.of_eq rfl rfl rfl rfl fun _ hi => hi
  have hmatch : ∀ u, (n₀.matchIndex u).getD 0 = if u = peer then bounded else (n.matchIndex u).getD 0 := by
    intro u
    simp only [hn₀, insertKey]
    split <;> rfl
  have hmacked : strict → ∀ u, (n₀.matchIndex u).getD 0 ≤ s.acked n₀.currentTerm u := by
    intro hst u
    rw [hmatch]
    split
    · rename_i hu
      exact hu ▸ hback hst
    · exact (hl.acked hst).2 u
  have hoff₀ : Office M strict s v n₀ := ⟨hcore₀, hl.won, hl.log⟩
  obtain ⟨commit, hadv, hcore⟩ := hcore₀.advanceCommit fun hst i hi hti hqi =>
    hoff₀.committed hv hl.pos (hi.trans (hl.acked hst).1) (fun u _ => hmacked hst u) hti hqi
  have heq : n.recordProgress peer index = { n₀ with commitIndex := commit } := hadv
  rw [heq]
  refine ⟨?_, hr⟩
  exact
    { toCoreRel := hcore
      sync := h.sync
      running := h.running
      candidate := fun hc => absurd (hr.symm.trans hc) (by nofun)
      leader := fun _ =>
        { leaderId := hl.leaderId
          pos := hl.pos
          won := hl.won
          log := hl.log
          active := hl.active
          next := by
            intro u k hk
            simp only [hn₀, insertKey] at hk
            split at hk
            · cases hk
              exact (satAdd_le_add _ _).trans (Nat.add_le_add_right hble 1)
            · exact hl.next u k hk
          matched := by
            intro u
            rw [hmatch]
            split
            · exact hble
            · exact hl.matched u
          acked := fun hst => ⟨(hl.acked hst).1, hmacked hst⟩ } }

lemma NodeRel.simulates_append (h : NodeRel M strict s v n) (hr : n.role = .leader)
    (peer : NodeId) : Simulates M strict s v (n, [n.appendFor peer]) :=
  h.simulates_send ((h.office hr).appendFor peer (.inr ((h.leader hr).next peer)))

lemma NodeRel.handleAppendResp (hv : v ∈ M) (h : NodeRel M strict s v n) {sender : NodeId}
    {term matchIndex : ℕ} {success : Bool}
    (hmsg : MsgRel M strict s sender v (.appendEntriesResp term success matchIndex)) :
    Simulates M strict s v (n.handleAppendResp sender term success matchIndex) := by
  unfold RaftNode.handleAppendResp
  split
  · exact h.simulates
  rename_i hcond
  push Not at hcond
  obtain ⟨hr, rfl⟩ := hcond
  have hl := h.leader hr
  split
  · rename_i hok
    obtain ⟨hnode, hr'⟩ := h.recordProgress hv hr fun hst => (hmsg hst hok).resolve_right hl.active
    dsimp only
    split
    · exact hnode.simulates_append hr' sender
    · exact hnode.simulates
  refine simulates_append ?_ (by exact hr) sender
  exact
    { toCoreRel := h.toCoreRel.of_eq rfl rfl rfl rfl fun _ hi => hi
      sync := h.sync
      running := h.running
      candidate := fun hc => absurd (hr.symm.trans hc) (by nofun)
      leader := fun _ =>
        { hl with
          next := by
            intro u k hk
            simp only [insertKey] at hk
            split at hk
            · cases hk
              have hold : (n.nextIndex sender).getD 1 ≤ (s.mem v).log.length + 1 := by
                cases hn : n.nextIndex sender with
                | none => simp
                | some k => exact hl.next sender k hn
              omega
            · exact hl.next u k hk } }

end OnetDns.Raft
