import OnetDns.Cluster.Safety

/-!
# How far a follower commits

`handle_append` takes over the leader's commit index up to the end of its own
log. The end of a batch would be the right bound: behind it the log was not
compared with the leader's. The two differ exactly when the log goes on behind
the batch, nothing in the batch conflicts, and the leader's commit index
reaches further than both the batch and what is committed already.
-/
namespace OnetDns.Raft
open Consensus TermLog List RaftNode

variable {M : Finset NodeId} {strict : Prop} {s : History} {v : NodeId} {n : RaftNode}

/-- `handle_append` stops before the commit index: the batch or the log is too
large, the entry before the batch is missing or another one, or the batch
starts in front of the snapshot. -/
def AppendRefused (n : RaftNode) (prev prevTerm : ℕ) (entries : List LogEntry) : Prop :=
  maxAppendEntries < entries.length ∨ RaftNode.oversizedBatch entries = true ∨
    maxLogEntries < n.log.length ∨ n.lastIndex < prev ∨ n.termAt prev ≠ prevTerm ∨
    (entries ≠ [] ∧ prev < n.snapshotIndex)

lemma takeCommit_log (n : RaftNode) (leaderCommit : ℕ) : (n.takeCommit leaderCommit).log = n.log := by
  unfold takeCommit
  split <;> rfl

lemma takeCommit_books (n : RaftNode) (leaderCommit : ℕ) :
    (n.takeCommit leaderCommit).books = n.books := by
  unfold takeCommit
  split <;> rfl

/-- After the entry loop the log stays, and the commit index moves as `takeCommit` says. -/
theorem appendMerged_result {disk : Disk} (hok : RaftNode.DiskOk n.books disk) (leader lastNew : ℕ)
    (changed : Bool) (leaderCommit : ℕ) :
    (n.appendMerged leader lastNew changed leaderCommit).1.log = n.log ∧
    (n.appendMerged leader lastNew changed leaderCommit).1.commitIndex =
      if maxLogEntries < n.log.length then n.commitIndex
      else (n.takeCommit leaderCommit).commitIndex := by
  unfold appendMerged
  split
  · exact ⟨rfl, rfl⟩
  dsimp only
  split
  · rcases persist_cases (takeCommit_books n leaderCommit ▸ hok) with
      ⟨b, _, hp, _⟩ | ⟨b, _, error, hp, _⟩
    · rw [hp]
      exact ⟨takeCommit_log n leaderCommit, rfl⟩
    · rw [hp]
      exact ⟨takeCommit_log n leaderCommit, rfl⟩
  · exact ⟨takeCommit_log n leaderCommit, rfl⟩

lemma takeCommit_commitIndex (h : n.commitIndex ≤ n.lastIndex) (leaderCommit : ℕ) :
    (n.takeCommit leaderCommit).commitIndex = max n.commitIndex (min leaderCommit n.lastIndex) := by
  unfold takeCommit
  split
  · change min leaderCommit n.lastIndex = _
    omega
  · omega

variable {entries : List LogEntry} {prevTerm : ℕ} {prev leader : ℕ}

/-- A batch without conflict that ends inside the log is in the log already. -/
theorem Slice.prefix_of_not_conflicts (h : CoreRel M strict s v n) (hslice : Slice s n.currentTerm prev prevTerm entries)
    (hsnap : n.snapshotIndex ≤ prev) (hend : prev + entries.length ≤ n.lastIndex)
    (hno : ¬ Conflicts n entries) : entries <+: (s.mem v).log.drop prev := by
  have hfull : FullLog (s.mem v).log n.snapshot n.log := h.mem.full
  rw [hfull.lastIndex_eq] at hend
  have hat : ∀ i e, entries[i]? = some e → (s.mem v).log[prev + i]? = some e := by
    intro i e he
    have hi := (List.getElem?_eq_some_iff.mp he).1
    obtain ⟨held, hheld⟩ : ∃ held, (s.mem v).log[prev + i]? = some held :=
      ⟨_, getElem?_eq_getElem (by omega)⟩
    have hidx := (hfull.numbered.entry _ held hheld).1
    have hidx' := (hslice.index i e he).1
    have hmem : held ∈ n.log :=
      hfull.mem_log_of_getElem? (show n.snapshotIndex < held.index by omega)
        (by rw [show held.index - 1 = prev + i by omega]; exact hheld)
    have hsame : held.term = e.term ∧ held.data = e.data := by
      by_contra hc
      exact hno ⟨e, mem_of_getElem? he, held, hmem, by omega, by tauto⟩
    have : held = e := by
      cases held
      cases e
      simp only [LogEntry.mk.injEq] at *
      exact ⟨hsame.1, by omega, hsame.2⟩
    rw [hheld, this]
  rw [prefix_iff_getElem?]
  intro i hi
  rw [getElem?_drop]
  exact hat i _ (getElem?_eq_getElem hi)

/-- A batch that is in the log already goes through the entry loop without a change. -/
theorem mergeEntries_of_held (h : CoreRel M strict s v n) (hslice : Slice s n.currentTerm prev prevTerm entries)
    (hsnap : n.snapshotIndex ≤ prev) (hprev : prev ≤ n.lastIndex)
    (hpre : entries <+: (s.mem v).log.drop prev) :
    (mergeEntries n.snapshotIndex n.commitIndex entries n.log n.durableLogLen false).stop = .done ∧
      (mergeEntries n.snapshotIndex n.commitIndex entries n.log n.durableLogLen false).log =
        n.log := by
  have hfull : FullLog (s.mem v).log n.snapshot n.log := h.mem.full
  have hlen : prev + entries.length ≤ u64Max := by
    have := hslice.numbered.length_le
    rwa [length_take, min_eq_left hslice.length_le] at this
  have hcommit : n.commitIndex ≤ (s.mem v).log.length := h.mem.commit_le
  have hmerge := mergeEntries_cases n.durableLogLen false hfull.numbered hsnap
    (hfull.lastIndex_eq ▸ hprev) hcommit hlen hslice.index
  rw [hfull.drop_eq] at hmerge
  rcases hmerge with ⟨hm, _⟩ | ⟨index, hgt, _, hend, hne, _⟩
  · refine ⟨hm.stop, ?_⟩
    rw [hm.log, splice, if_pos hpre, hfull.drop_eq]
  refine absurd ?_ hne
  obtain ⟨c, hc⟩ := hpre
  rw [show index - 1 = prev + (index - 1 - prev) by omega, ← getElem?_drop, ← hc,
    show prev + (index - 1 - prev) - prev = index - 1 - prev by omega,
    getElem?_append_left (by omega)]

lemma Slice.contiguous {t : ℕ} (h : Slice s t prev prevTerm entries) :
    contiguous (satAdd prev 1) entries = true := by
  rcases entries with _ | ⟨e, rest⟩
  · rfl
  have hlen : prev + (e :: rest).length ≤ u64Max := by
    have := h.numbered.length_le
    rwa [length_take, min_eq_left h.length_le] at this
  have hone : prev + 1 ≤ u64Max := by
    simp only [length_cons] at hlen
    omega
  rw [satAdd_of_le hone, contiguous_iff (by omega)]
  intro i x hx
  have := (h.index i x hx).1
  omega

variable {leaderCommit : ℕ}

/-- What the entry loop does with a batch that ends inside the log and
conflicts with nothing. -/
theorem mergeEntries_uncovered (h : CoreRel M strict s v n)
    (hmsg : AppendRel M strict s n.currentTerm leader prev prevTerm entries leaderCommit)
    (hend : prev + entries.length ≤ n.lastIndex) (hno : ¬ Conflicts n entries)
    (hstart : entries = [] ∨ n.snapshotIndex ≤ prev) :
    (mergeEntries n.snapshotIndex n.commitIndex entries n.log n.durableLogLen false).stop = .done ∧
      (mergeEntries n.snapshotIndex n.commitIndex entries n.log n.durableLogLen false).log =
        n.log := by
  rcases hstart with rfl | hsnap
  · exact ⟨rfl, rfl⟩
  rcases hmsg.content with hslice | ⟨_, _, rfl⟩
  · exact mergeEntries_of_held h hslice hsnap (by omega)
      (hslice.prefix_of_not_conflicts h hsnap hend hno)
  · exact ⟨rfl, rfl⟩

/-- Without cover the log stays as it is, and the commit index runs ahead unless
the batch is refused. -/
theorem handleAppend_uncovered (hs : Sound M strict s) (h : CoreRel M strict s v n)
    (hmsg : AppendRel M strict s n.currentTerm leader prev prevTerm entries leaderCommit)
    (hcov : ¬ CommitCovered n prev entries leaderCommit) : (AppendRefused n prev prevTerm entries →
      (n.handleAppend n.currentTerm leader prev prevTerm entries leaderCommit).1.commitIndex =
        n.commitIndex) ∧ (¬ AppendRefused n prev prevTerm entries →
      max n.commitIndex (prev + entries.length) <
        (n.handleAppend n.currentTerm leader prev prevTerm entries leaderCommit).1.commitIndex) := by
  have hfull : FullLog (s.mem v).log n.snapshot n.log := h.mem.full
  unfold CommitCovered at hcov
  push Not at hcov
  obtain ⟨hlc, hlast, hno⟩ := hcov
  unfold handleAppend AppendRefused
  rw [if_neg (lt_irrefl _)]
  split
  · rename_i hc
    exact ⟨fun _ => rfl, fun hr => absurd (.inl (hc.resolve_left (by simp))) hr⟩
  split
  · rename_i hc
    exact ⟨fun _ => rfl, fun hr => absurd (.inr (.inl hc)) hr⟩
  rename_i hcount hsize
  push Not at hcount
  set m := n.followLeader leader n.currentTerm
  have hmcore : CoreRel M strict s v m := by
    refine h.of_eq rfl rfl rfl rfl ?_
    intro inc hinc
    exact Option.eq_some_of_filter_eq_some hinc
  obtain ⟨disk, hok, _⟩ := hmcore.disk
  unfold appendAccepted
  split
  · exact ⟨fun _ => rfl, fun hr => absurd (by tauto) hr⟩
  rename_i hfit
  push Not at hfit
  have hcont : contiguous (satAdd prev 1) entries = true := by
    rcases hmsg.content with hslice | ⟨_, _, rfl⟩
    · exact hslice.contiguous
    · rfl
  rw [if_neg (by simp [hcont])]
  dsimp only
  by_cases hstart : entries ≠ [] ∧ prev < n.snapshotIndex
  · -- such a batch starts at index 1
    have hz : prev = 0 := by
      rcases hmsg.content with hslice | ⟨_, _, hnil⟩
      · rcases (hslice.prefix_eq hs h hfit.2).2 with hz | hle
        · exact hz
        · omega
      · exact absurd hnil hstart.1
    subst hz
    have hrej : (mergeEntries m.snapshotIndex m.commitIndex entries m.log m.durableLogLen
        false).stop = .reject := by
      rcases entries with _ | ⟨e, rest⟩
      · exact absurd rfl hstart.1
      rw [contiguous, Bool.and_eq_true, decide_eq_true_eq] at hcont
      have hlow : e.index < satAdd m.snapshotIndex 1 := by
        rw [hcont.1]
        exact one_lt_satAdd hstart.2
      rw [mergeEntries, if_pos hlow]
    rw [hrej]
    exact ⟨fun _ => rfl, fun hr => absurd (by tauto) hr⟩
  obtain ⟨hstop, hlog⟩ := mergeEntries_uncovered hmcore hmsg
    (show prev + entries.length ≤ m.lastIndex from ((le_max_right _ _).trans_lt hlast).le) hno
    (by
      rcases not_and_or.mp hstart with hc | hc
      · exact .inl (not_not.mp hc)
      · exact .inr (not_lt.mp hc))
  rw [hstop]
  set merge := mergeEntries m.snapshotIndex m.commitIndex entries m.log m.durableLogLen false
  set m₁ : RaftNode := { m with log := merge.log, durableLogLen := merge.durableLogLen }
  have hm₁log : m₁.log = n.log := hlog
  have hli : m₁.lastIndex = n.lastIndex := by
    unfold lastIndex
    rw [hm₁log]
    rfl
  have hcommit : n.commitIndex ≤ n.lastIndex := by
    rw [hfull.lastIndex_eq]
    exact h.mem.commit_le
  obtain ⟨_, hres⟩ := appendMerged_result (n := m₁) { hok with } leader
    (entries.getLast?.elim prev (·.index)) merge.changed leaderCommit
  have htake := takeCommit_commitIndex (n := m₁) (by rw [hli]; exact hcommit) leaderCommit
  rw [hres, htake, hli, hm₁log]
  split
  · exact ⟨fun _ => rfl, fun hr => absurd (by tauto) hr⟩
  rename_i hover
  refine ⟨fun hr => absurd hr ?_, fun _ => lt_max_of_lt_right (lt_min hlc hlast)⟩
  rintro (hr | hr | hr | hr | hr | hr)
  · exact absurd hr (not_lt.mpr hcount.2)
  · exact absurd hr hsize
  · exact absurd hr hover
  · exact absurd hr (not_lt.mpr hfit.1)
  · exact absurd hfit.2 hr
  · exact absurd hr hstart

/-- After a batch that ends at `batchEnd` the node has committed no further than
the batch, and what it newly committed is the log `L` of the leader. -/
structure CommitsInBatch (L : List LogEntry) (commit batchEnd : ℕ) (m : RaftNode) : Prop where
  le : m.commitIndex ≤ max commit batchEnd
  agree : ∀ e ∈ m.log, commit < e.index → e.index ≤ m.commitIndex → L[e.index - 1]? = some e

lemma CommitsInBatch.of_eq {L : List LogEntry} {commit batchEnd : ℕ} {m : RaftNode}
    (h : m.commitIndex = commit) : CommitsInBatch L commit batchEnd m :=
  ⟨h ▸ le_max_left _ _, fun e _ hlo hhi => absurd hlo (by omega)⟩

/-- The end of `handle_append` for the merged log `x`. -/
theorem appendMerged_covered {disk : Disk} (hok : RaftNode.DiskOk n.books disk)
    {L x : List LogEntry} {batchEnd : ℕ} (hfull : FullLog x n.snapshot n.log)
    (hx : x.take batchEnd = L.take batchEnd) (hcommit : n.commitIndex ≤ x.length) {lastNew : ℕ}
    {changed : Bool} (hmin : min leaderCommit x.length ≤ max n.commitIndex batchEnd) :
    CommitsInBatch L n.commitIndex batchEnd
      (n.appendMerged leader lastNew changed leaderCommit).1 := by
  obtain ⟨hlog, hres⟩ := appendMerged_result hok leader lastNew changed leaderCommit
  have hlast := hfull.lastIndex_eq
  rw [takeCommit_commitIndex (by omega)] at hres
  split at hres
  · exact .of_eq hres
  refine ⟨by omega, ?_⟩
  intro e he hlo hhi
  rw [hlog] at he
  obtain ⟨hpos, _, hat⟩ := hfull.mem_log he
  rw [← getElem?_of_take_eq hx (by omega)]
  exact hat

lemma appendAccepted_covered (hs : Sound M strict s) (h : CoreRel M strict s v n)
    (hmsg : AppendRel M strict s n.currentTerm leader prev prevTerm entries leaderCommit)
    (hcov : CommitCovered n prev entries leaderCommit) :
    CommitsInBatch (s.termLog n.currentTerm) n.commitIndex (prev + entries.length)
      (n.appendAccepted leader prev prevTerm entries leaderCommit).1 := by
  have hfull : FullLog (s.mem v).log n.snapshot n.log := h.mem.full
  have hlast : n.lastIndex = (s.mem v).log.length := hfull.lastIndex_eq
  have hcommit : n.commitIndex ≤ (s.mem v).log.length := h.mem.commit_le
  have hsnapc : n.snapshotIndex ≤ n.commitIndex := h.mem.snapshot_le_commit
  obtain ⟨disk, hok, _⟩ := h.disk
  unfold appendAccepted
  split
  · exact .of_eq rfl
  rename_i hfit
  push Not at hfit
  split
  · exact .of_eq rfl
  rename_i hcont
  dsimp only
  by_cases hsnap : n.snapshotIndex ≤ prev ∧ Slice s n.currentTerm prev prevTerm entries
  · obtain ⟨hsnap, hslice⟩ := hsnap
    obtain ⟨hp, _⟩ := hslice.prefix_eq hs h hfit.2
    rcases hslice.merge_cases hs h hfit.2 hfit.1 hsnap with hm | ⟨index, hm⟩
    · rw [hm.stop]
      set merge := mergeEntries n.snapshotIndex n.commitIndex entries n.log n.durableLogLen false
      set n₁ : RaftNode := { n with log := merge.log, durableLogLen := merge.durableLogLen }
      exact appendMerged_covered (n := n₁) { hok with } hm.full hm.batch
        hm.commit_le (hcov.min_le hfull hp hslice.entries fun i e he => (hslice.index i e he).1)
    · rw [hm]
      exact .of_eq rfl
  -- the batch is in front of what is committed: it is empty, or refused
  have hprev : prev ≤ n.commitIndex := by
    rcases hmsg.content with hslice | ⟨_, hzero, _⟩
    · rcases not_and_or.mp hsnap with hc | hc
      · omega
      · exact absurd hslice hc
    by_contra hc
    obtain ⟨e, he⟩ : ∃ e, (s.mem v).log[prev - 1]? = some e := ⟨_, getElem?_eq_getElem (by omega)⟩
    have hterm := hfull.termAt_of_getElem? (by omega) (by omega) he
    have := (hfull.numbered.entry _ e he).2
    omega
  rcases entries with _ | ⟨e, rest⟩
  · refine .of_eq ((appendMerged_result hok _ _ _ _).2.trans ?_)
    rw [takeCommit_commitIndex (by omega)]
    have := hcov.of_nil hprev
    split <;> omega
  have hz : prev = 0 ∧ 0 < n.snapshotIndex := by
    rcases hmsg.content with hslice | ⟨_, _, hnil⟩
    · rcases (hslice.prefix_eq hs h hfit.2).2 with hz | hle
      · rcases not_and_or.mp hsnap with hc | hc
        · omega
        · exact absurd hslice hc
      · exact absurd ⟨hle.1, hslice⟩ hsnap
    · cases hnil
  rw [Bool.not_eq_false, contiguous, Bool.and_eq_true, decide_eq_true_eq] at hcont
  have hlow : e.index < satAdd n.snapshotIndex 1 := by
    rw [hcont.1, hz.1]
    exact one_lt_satAdd hz.2
  rw [mergeEntries, if_pos hlow]
  exact .of_eq rfl

lemma handleAppend_covered (hs : Sound M strict s) (h : CoreRel M strict s v n)
    (hmsg : AppendRel M strict s n.currentTerm leader prev prevTerm entries leaderCommit)
    (hcov : CommitCovered n prev entries leaderCommit) :
    CommitsInBatch (s.termLog n.currentTerm) n.commitIndex (prev + entries.length)
      (n.handleAppend n.currentTerm leader prev prevTerm entries leaderCommit).1 := by
  unfold handleAppend
  rw [if_neg (lt_irrefl _)]
  split
  · exact .of_eq rfl
  split
  · exact .of_eq rfl
  have hcore : CoreRel M strict s v (n.followLeader leader n.currentTerm) := by
    refine h.of_eq rfl rfl rfl rfl ?_
    intro inc hinc
    exact Option.eq_some_of_filter_eq_some hinc
  exact appendAccepted_covered (n := n.followLeader leader n.currentTerm) hs hcore hmsg hcov

/-- The member as `handle_append` finds it: a later term is written down first. -/
def RaftNode.reached (n : RaftNode) (term : ℕ) : RaftNode :=
  if n.currentTerm < term then (n.stepDown term).persist.1 else n

lemma NodeRel.reached (hs : Sound M strict s) (h : NodeRel M strict s v n) {term : ℕ}
    (hle : n.currentTerm ≤ term) (hrun : (n.reached term).fatal = none) :
    ∃ s', Le s s' ∧ Sound M strict s' ∧ CoreRel M strict s' v (n.reached term) ∧
      (n.reached term).currentTerm = term := by
  unfold RaftNode.reached at hrun ⊢
  split at hrun
  · rename_i hlt
    rw [if_pos hlt]
    obtain ⟨s₁, hstep, hcore⟩ := h.stepDown hs hlt
    have hs₁ := hs.step hstep
    rcases hcore.persist hs₁ with ⟨b, hp, hcore'⟩ | ⟨b, error, hp, -⟩
    · have hsave : Step M strict v s₁ (s₁.setDisk v (s₁.mem v)) := .save s₁
      rw [hp]
      exact ⟨_, (hstep.le hs.inv).trans (hsave.le hs₁.inv), hs₁.step hsave, hcore', rfl⟩
    · rw [hp] at hrun
      cases hrun
  · rename_i hnlt
    rw [if_neg hnlt]
    exact ⟨s, .refl s, hs, h.toCoreRel, by omega⟩

/-- For every batch a leader sent, delivered at any later moment to a member
that is not in a later term: the member commits inside the batch, and only
entries the leader has as well, if and only if the batch is refused or covers
the commit index. -/
theorem follower_commit_iff (members : List NodeId) (cfg : NodeId → Config) (now : NodeId → ℕ)
    (actions : List Action) (packet : Packet)
    (hsent : packet ∈ ((Cluster.start members cfg now).run actions).sent)
    (hsender : packet.sender ∈ members) (hdest : packet.dest ∈ members)
    (term prev prevTerm leaderCommit : ℕ) (entries : List LogEntry)
    (hrun : (((Cluster.start members cfg now).run actions).nodes packet.dest).fatal = none)
    (hwritten : ((((Cluster.start members cfg now).run actions).nodes packet.dest).reached
      term).fatal = none)
    (hterm : (((Cluster.start members cfg now).run actions).nodes packet.dest).currentTerm ≤ term)
    (hmsg : packet.msg = .appendEntries term packet.sender prev prevTerm entries leaderCommit) :
    let c := (Cluster.start members cfg now).run actions
    let n := (c.nodes packet.dest).reached term
    let m := (n.handleAppend term packet.sender prev prevTerm entries leaderCommit).1
    (m.commitIndex ≤ max n.commitIndex (prev + entries.length) ∧
      ∀ e ∈ m.log, n.commitIndex < e.index → e.index ≤ m.commitIndex →
        (c.nodes packet.sender).role = .leader → (c.nodes packet.sender).currentTerm = term →
        ∀ f ∈ (c.nodes packet.sender).log, f.index = e.index → f = e) ↔
      AppendRefused n prev prevTerm entries ∨ CommitCovered n prev entries leaderCommit := by
  intro c n m
  obtain ⟨s, _, h, _⟩ := run_rel False members cfg now actions [] nofun
  have hn : NodeRel members.toFinset False s packet.dest (c.nodes packet.dest) :=
    (h.nodes _ (mem_toFinset.mpr hdest)).resolve_right fun hst => by
      have := hst.fatal
      rw [hrun] at this
      cases this
  obtain ⟨s', hle, hs', hcore, hcur⟩ := hn.reached h.sound hterm hwritten
  have hrel := (h.packets packet hsent (mem_toFinset.mpr hsender)).mono hle
  rw [hmsg] at hrel
  have happ : AppendRel members.toFinset False s' n.currentTerm packet.sender prev prevTerm entries
      leaderCommit := hcur ▸ hrel
  have hm : m = (n.handleAppend n.currentTerm packet.sender prev prevTerm entries leaderCommit).1 := by
    rw [hcur]
  constructor
  · rintro ⟨hle, _⟩
    by_contra hc
    push Not at hc
    have := (handleAppend_uncovered hs' hcore happ hc.2).2 hc.1
    rw [← hm] at this
    exact absurd hle (not_le.mpr this)
  intro hcond
  have hgood : CommitsInBatch (s'.termLog term) n.commitIndex (prev + entries.length) m := by
    rw [hm, ← hcur]
    by_cases hcov : CommitCovered n prev entries leaderCommit
    · exact handleAppend_covered hs' hcore happ hcov
    · exact .of_eq ((handleAppend_uncovered hs' hcore happ hcov).1 (hcond.resolve_right hcov))
  refine ⟨hgood.le, ?_⟩
  intro e he hlo hhi hr hleads f hf hidx
  have hat := hgood.agree e he hlo hhi
  -- a leader's log is the log of its term
  have hl := h.leaderRel (mem_toFinset.mpr hsender) hr
  obtain ⟨_, _, hfat⟩ := FullLog.mem_log hl.mem.full hf
  rw [(hl.leader hr).log, hidx, hleads] at hfat
  obtain ⟨later, hlater⟩ := hle.termLog term
  rw [← hlater, getElem?_append_left (List.getElem?_eq_some_iff.mp hfat).1, hfat] at hat
  exact Option.some.inj hat

theorem follower_commit_iff_trio : noOpTo 2 ∈ (trio.run (electOne ++ deliveries [3, 5])).sent ∧
    (let c := trio.run (electOne ++ deliveries [3, 5])
     let n := (c.nodes 2).reached 1
     let m := (n.handleAppend 1 1 0 0 [⟨1, 1, []⟩] 0).1
     (m.commitIndex ≤ max n.commitIndex (0 + [(⟨1, 1, []⟩ : LogEntry)].length) ∧
       ∀ e ∈ m.log, n.commitIndex < e.index → e.index ≤ m.commitIndex →
         (c.nodes 1).role = .leader → (c.nodes 1).currentTerm = 1 →
         ∀ f ∈ (c.nodes 1).log, f.index = e.index → f = e) ↔
       AppendRefused n 0 0 [⟨1, 1, []⟩] ∨ CommitCovered n 0 [⟨1, 1, []⟩] 0) := by
  have hsent : noOpTo 2 ∈ (trio.run (electOne ++ deliveries [3, 5])).sent := by decide +kernel
  exact ⟨hsent, follower_commit_iff [1, 2, 3] _ _ (electOne ++ deliveries [3, 5]) (noOpTo 2) hsent
    (by decide) (by decide) 1 0 0 0 _ (by decide +kernel) (by decide +kernel) (by decide +kernel)
    rfl⟩

/-- Node 1 replicates 256 entries, node 3 adds entry 257 in term 2, and node 1
leads again with another entry 257, of term 3. -/
def diverge : List Action :=
  electOne ++ [.call 1 (.proposeBatch (List.replicate 255 [7]))] ++
    deliveries [3, 5, 6, 4, 8, 9] ++ ticks 3 3 ++ deliveries [12, 13, 11] ++ ticks 1 3 ++
    deliveries [17, 19, 20, 22, 23, 24, 21]

/-- The refusal of node 3 delivered 257 times brings its next index down to 1. -/
def backOff : List Action := List.replicate 257 (.deliver 25)

set_option maxRecDepth 100000 in
/-- Node 3 takes a batch that ends at 256 and commits its own entry 257. -/
theorem commit_behind_batch :
    ((trio.run (diverge ++ backOff)).sent[282]?).any (fun packet =>
      match packet.msg with
      | .appendEntries term leader prevLogIndex _ entries leaderCommit =>
        decide (packet.sender = 1 ∧ packet.dest = 3 ∧ leader = 1 ∧
          term = ((trio.run (diverge ++ backOff)).nodes 3).currentTerm ∧
          prevLogIndex + entries.length = 256 ∧ leaderCommit = 257)
      | _ => false) = true ∧
    ((trio.run (diverge ++ backOff)).nodes 3).commitIndex = 0 ∧
    ((trio.run (diverge ++ backOff ++ [.deliver 282])).nodes 3).commitIndex = 257 ∧
    (((trio.run (diverge ++ backOff ++ [.deliver 282])).nodes 3).log[256]?).map (·.term) = some 2 ∧
    (((trio.run (diverge ++ backOff ++ [.deliver 282])).nodes 1).log[256]?).map (·.term) =
      some 3 := by
  decide +kernel

end OnetDns.Raft
