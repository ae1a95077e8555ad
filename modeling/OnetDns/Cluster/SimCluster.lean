import OnetDns.Cluster.SimSnapshot

/-!
# Whole runs refine the abstract protocol

Every action of a cluster is a few abstract steps of one node, so a run that
starts with empty disks shows a history that only grew. For `strict` the run
has to stay on safe ground.
-/
namespace OnetDns.Raft
open Consensus TermLog List Option Raft.Cluster RaftNode

variable {M : Finset NodeId} {strict : Prop} {s s' : History} {v : NodeId} {n m : RaftNode}

lemma NodeRel.tick (hs : Sound M strict s) (hv : v ∈ M) (h : NodeRel M strict s v n)
    (hkept : strict → WriteSafe n .tick) : Simulates M strict s v n.tick := by
  -- the clocks are not part of what the node shows
  have hclock : ∀ heartbeat election, NodeRel M strict s v
      { n with heartbeatElapsed := heartbeat, electionElapsed := election } :=
    fun _ _ => h.keep (h.toCoreRel.of_eq rfl rfl rfl rfl fun _ hi => hi) (.refl s) rfl rfl rfl
      rfl h.sync ⟨rfl, rfl, rfl, rfl, rfl, rfl, rfl⟩
  obtain ⟨result, hresult⟩ : ∃ result, result = n.tick := ⟨_, rfl⟩
  have hsafe : strict → n.peers = [] → result.1.fatal = none ∨
      result.1.commitIndex = n.commitIndex := by
    rw [hresult]
    exact hkept
  rw [← hresult]
  unfold RaftNode.tick at hresult
  split at hresult
  · rw [hresult]
    exact h.simulates
  rename_i hrun
  rw [Bool.not_eq_true, isSome_eq_false_iff, isNone_iff_eq_none] at hrun
  split at hresult
  · rename_i hr
    dsimp only at hresult
    split at hresult
    · rw [hresult]
      have hnode := hclock 0 n.electionElapsed
      exact ⟨s, .refl, .inl hnode, (hnode.office hr).broadcastAppend (.inr (hnode.leader hr).next)⟩
    · rw [hresult]
      exact (hclock _ n.electionElapsed).simulates
  · dsimp only at hresult
    split at hresult
    · rw [hresult] at hsafe ⊢
      exact (hclock n.heartbeatElapsed _).startElection hs hv hrun hsafe
    · rw [hresult]
      exact (hclock n.heartbeatElapsed _).simulates

lemma NodeRel.forceReplicate (h : NodeRel M strict s v n) :
    Simulates M strict s v n.forceReplicate := by
  unfold RaftNode.forceReplicate
  split
  · rename_i hlead
    rw [isLeader, Bool.and_eq_true, decide_eq_true_eq] at hlead
    have hnode : NodeRel M strict s v { n with heartbeatElapsed := 0 } :=
      h.keep (h.toCoreRel.of_eq rfl rfl rfl rfl fun _ hi => hi) (.refl s) rfl rfl rfl rfl h.sync
        ⟨rfl, rfl, rfl, rfl, rfl, rfl, rfl⟩
    exact ⟨s, .refl, .inl hnode,
      (hnode.office hlead.1).broadcastAppend (.inr (hnode.leader hlead.1).next)⟩
  · exact h.simulates

lemma NodeRel.setFaults (h : NodeRel M strict s v n) (faults : List (Option String)) :
    NodeRel M strict s v (n.setFaults faults) := by
  obtain ⟨disk, hok, hrel⟩ := h.disk
  have hstore : n.storage = some disk := hok.storage
  have hcore : CoreRel M strict s v (n.setFaults faults) := by
    refine ⟨h.id, h.peers, ⟨{ disk with faults }, ⟨?_, hok.digest, hok.wal⟩, hrel⟩, h.mem,
      h.incoming⟩
    simp [RaftNode.books, RaftNode.setFaults, hstore]
  exact h.keep hcore (.refl s) rfl rfl rfl rfl h.sync ⟨rfl, rfl, rfl, rfl, rfl, rfl, rfl⟩

lemma NodeRel.perform (hs : Sound M strict s) (hv : v ∈ M) (h : NodeRel M strict s v n)
    (call : Call) (hsafe : strict → WriteSafe n call) : Simulates M strict s v (n.perform call) := by
  cases call with
  | tick => exact h.tick hs hv hsafe
  | forceReplicate => exact h.forceReplicate
  | proposeBatch entries => exact h.proposeBatch hs hv entries hsafe
  | markAppliedBatch first last => exact h.markAppliedBatch hs first last
  | compact data => exact h.compact hs data
  | finishSnapshotInstall index => exact h.finishSnapshotInstall hs index
  | nextBootSession now => exact h.nextBootSession hs now
  | failStop error => exact (h.toCoreRel.failStop error).simulates
  | diskFaults faults => exact (h.setFaults faults).simulates

variable {sender : NodeId} {msg : Msg}

lemma NodeRel.dispatch (hs : Sound M strict s) (hv : v ∈ M) (h : NodeRel M strict s v n)
    (hrun : n.fatal = none) (hsender : sender ∈ n.peers)
    (hclaim : msg.claimedSender.any (· != sender) = false) (hmsg : MsgRel M strict s sender v msg)
    (hsafe : strict → MessageSafe n sender msg) :
    Simulates M strict s v (n.dispatch sender msg) := by
  have hne : sender ≠ v := (h.mem_peers.mp hsender).2
  cases msg with
  | requestVote term candidate lastLogIndex lastLogTerm =>
    obtain rfl : candidate = sender := by simpa [Msg.claimedSender] using hclaim
    refine h.handleRequestVote hs hmsg fun hst hgrant => ?_
    rw [grantsVote, Bool.and_eq_true, Bool.and_eq_true, decide_eq_true_eq] at hgrant
    exact hsafe hst hrun hgrant.1.1.ge (.inr hgrant.1.2) hgrant.2
  | requestVoteResp term granted => exact h.handleVoteResp hs hv hsender hmsg hsafe
  | appendEntries term leader prevLogIndex prevLogTerm entries leaderCommit =>
    obtain rfl : leader = sender := by simpa [Msg.claimedSender] using hclaim
    exact h.handleAppend hs hrun hmsg fun hst => hsafe hst hrun
  | appendEntriesResp term success matchIndex => exact h.handleAppendResp hv hmsg
  | installSnapshot term leader index snapTerm offset data done =>
    obtain rfl : leader = sender := by simpa [Msg.claimedSender] using hclaim
    exact h.handleInstallSnapshot hs hrun hne hmsg
  | installSnapshotResp term index nextOffset installed =>
    exact h.handleInstallSnapshotResp hv hmsg

/-- Learning of a later term. -/
theorem NodeRel.stepDown (hs : Sound M strict s) (h : NodeRel M strict s v n) {term : ℕ}
    (hlt : n.currentTerm < term) :
    ∃ s', Step M strict v s s' ∧ CoreRel M strict s' v (n.stepDown term) := by
  have hterm : (s.mem v).term = n.currentTerm := h.mem.term
  have hraise : Step M strict v s (s.setMem v ⟨term, none, (s.mem v).log⟩) :=
    .raise s term (by omega)
  have hle := hraise.le hs.inv
  obtain ⟨disk, hok, hrel⟩ := h.disk
  refine ⟨_, hraise, h.id, h.peers, ⟨disk, hok, hrel.mono hle⟩, ?_, nofun⟩
  rw [State.setMem_mem]
  exact ⟨rfl, rfl, h.mem.full, h.mem.snapshot_le, h.mem.applied_le, h.mem.commit_le,
    fun hst => (h.mem.committed hst).mono hle⟩

/-- What a message finds is the same after learning of its term. -/
theorem MessageSafe.stepDown {b : Books}
    (h : MessageSafe n sender msg) (hlt : n.currentTerm < msg.term) :
    MessageSafe ((n.stepDown msg.term).withBooks b) sender msg := by
  cases msg with
  | requestVote term candidate lastLogIndex lastLogTerm =>
    intro hrun _ _
    exact h hrun hlt.le (.inl hlt)
  | requestVoteResp term granted => nofun
  | appendEntries term leader prevLogIndex prevLogTerm entries leaderCommit =>
    intro hrun _ hprev hterm
    exact h hrun hlt.le hprev hterm
  | appendEntriesResp | installSnapshot | installSnapshotResp => trivial

lemma NodeRel.step (hs : Sound M strict s) (hv : v ∈ M) (h : NodeRel M strict s v n) (hmsg : sender ∈ M → MsgRel M strict s sender v msg)
    (hsafe : strict → MessageSafe n sender msg) : Simulates M strict s v (n.step sender msg) := by
  unfold RaftNode.step
  split
  · exact h.simulates
  rename_i hcond
  push Not at hcond
  obtain ⟨hrun, hsender⟩ := hcond
  rw [ne_eq, Bool.not_eq_true, isSome_eq_false_iff, isNone_iff_eq_none] at hrun
  split
  · exact h.simulates
  rename_i hclaim
  rw [Bool.not_eq_true] at hclaim
  have hm := hmsg (h.mem_peers.mp hsender).1
  split
  · rename_i hlt
    obtain ⟨s₁, hstep, hcore⟩ := h.stepDown hs hlt
    have hs₁ := hs.step hstep
    refine .head hstep ?_
    rcases hcore.persist hs₁ with ⟨b, hp, hcore'⟩ | ⟨b, error, hp, hnode⟩
    · rw [hp]
      have hsave : Step M strict v s₁ (s₁.setDisk v (s₁.mem v)) := .save s₁
      refine .head hsave ?_
      have hnode : NodeRel M strict (s₁.setDisk v (s₁.mem v)) v ((n.stepDown msg.term).withBooks b) :=
        hcore'.follower rfl fun _ => by simp [State.setDisk]
      refine hnode.dispatch (hs₁.step hsave) hv hrun hsender hclaim ?_
        fun hst => (hsafe hst).stepDown hlt
      exact (hm.mono (hstep.le hs.inv)).mono (hsave.le hs₁.inv)
    · rw [hp]
      exact hnode.simulates
  · exact h.dispatch hs hv hrun hsender hclaim hm hsafe

section

variable (h : Stuck M strict s v n)
include h

lemma Stuck.simulates : Simulates M strict s v (n, []) := ⟨s, .refl, .inr h, by simp⟩

/-- Another try to write ends as the first one did. -/
theorem Stuck.persist {m : RaftNode} (hid : m.id = n.id)
    (hpeers : m.peers = n.peers) (hbooks : m.books = n.books) (hlog : m.log = n.log)
    (hsnap : m.snapshot = n.snapshot) (hcommit : m.commitIndex = n.commitIndex) :
    ∃ m', m.persist = (m', false) ∧ Stuck M strict s v m' := by
  obtain ⟨disk, hok, hrel⟩ := h.disk
  have hdirty : m.snapshotDirty = true := (congrArg Books.snapshotDirty hbooks).trans h.dirty
  obtain ⟨b, disk', error, hp, hok', himg, hdirty'⟩ :=
    persist_stuck (n := m) (hbooks ▸ hok) (hlog.trans h.log) hdirty
      (by rw [snapshotIndex, hsnap, hcommit]; exact h.behind)
  refine ⟨_, hp, ?_⟩
  exact
    { id := hid.trans h.id
      peers := by
        change m.peers.Nodup ∧ m.peers.toFinset = M.erase v
        rw [hpeers]
        exact h.peers
      disk := ⟨disk', { hok' with }, himg ▸ hrel⟩
      fatal := rfl
      role := rfl
      leaderId := rfl
      log := hlog.trans h.log
      dirty := hdirty'
      folded := by
        change ∃ snapshot, m.snapshot = some snapshot ∧ _
        rw [hsnap]
        exact h.folded
      behind := by
        change m.snapshotIndex < m.commitIndex
        rw [snapshotIndex, hsnap, hcommit]
        exact h.behind }

lemma Stuck.not_leader : n.isLeader = false := by
  simp [isLeader, h.role]

lemma Stuck.compact (data : Bytes) : (n.compact data).1 = n := by
  unfold RaftNode.compact
  split
  · rfl
  dsimp only
  split
  · rfl
  rename_i hrange
  push Not at hrange
  have hzero : n.termAt n.lastApplied = 0 := by
    have hsn := hrange.1
    unfold termAt
    unfold snapshotIndex at hsn
    cases hs : n.snapshot with
    | none => simp [h.log]
    | some snap =>
      simp only [hs, elim_some] at hsn ⊢
      rw [if_neg (by omega), if_neg (by omega), if_neg (by omega), h.log]
      rfl
  rw [if_pos hzero]

lemma Stuck.perform (call : Call) : Simulates M strict s v (n.perform call) := by
  cases call with
  | tick =>
    have : n.tick = (n, []) := by simp [RaftNode.tick, h.fatal]
    simpa [RaftNode.perform, this] using h.simulates
  | forceReplicate =>
    have : n.forceReplicate = (n, []) := by simp [RaftNode.forceReplicate, h.not_leader]
    simpa [RaftNode.perform, this] using h.simulates
  | proposeBatch entries =>
    have : (n.proposeBatch entries).1 = n := by simp [RaftNode.proposeBatch, h.not_leader]
    simpa [RaftNode.perform, this] using h.simulates
  | markAppliedBatch first last =>
    rw [RaftNode.perform, RaftNode.markAppliedBatch]
    split
    · exact h.simulates
    · obtain ⟨m, hp, hm⟩ := h.persist (m := { n with lastApplied := last }) rfl rfl rfl rfl rfl rfl
      rw [hp]
      exact hm.simulates
  | compact data =>
    rw [RaftNode.perform, h.compact]
    exact h.simulates
  | finishSnapshotInstall index =>
    rw [perform_finish_of_none]
    · exact h.simulates
    · simp [RaftNode.completeIncoming, h.leaderId]
  | nextBootSession now =>
    rw [RaftNode.perform, RaftNode.nextBootSession]
    split
    · exact h.simulates
    · rename_i next _
      obtain ⟨m, hp, hm⟩ := h.persist (m := { n with bootCounter := next }) rfl rfl rfl rfl rfl rfl
      rw [hp]
      exact hm.simulates
  | failStop error => exact simulates { h with fatal := rfl, role := rfl, leaderId := rfl }
  | diskFaults faults =>
    obtain ⟨disk, hok, hrel⟩ := h.disk
    have hstore : n.storage = some disk := hok.storage
    refine simulates { h with disk := ⟨{ disk with faults }, ⟨?_, hok.digest, hok.wal⟩, hrel⟩ }
    simp [RaftNode.books, RaftNode.setFaults, hstore]

lemma Stuck.step (sender : NodeId) (msg : Msg) : Simulates M strict s v (n.step sender msg) := by
  have : n.step sender msg = (n, []) := by simp [RaftNode.step, h.fatal]
  rw [this]
  exact h.simulates

end

lemma normalizedPeers_spec (id : NodeId) (peers : List NodeId) : (normalizedPeers id peers).Nodup ∧
      (normalizedPeers id peers).toFinset = peers.toFinset.erase id := by
  refine ⟨nodup_dedup _, ?_⟩
  ext u
  simp [normalizedPeers, and_comm]

lemma newPersistent_books (id : NodeId) (peers : List NodeId) (cfg : Config) (disk : Disk)
    (now : ℕ) : RaftNode.DiskOk (newPersistent id peers cfg disk now).books disk := by
  refine ⟨rfl, ?_, ?_⟩
  · change ∀ base, disk.load.baseDigest = some base → disk.base = some base
    unfold Disk.load
    intro base
    split
    · nofun
    rename_i b hb
    split
    · intro h
      exact hb.trans h
    split
    · intro h
      exact hb.trans h
    · intro h
      exact hb.trans h
  change false = true ∨ walHeaderLen ≤ disk.load.walLen → _
  unfold Disk.load
  have hpos : ¬ walHeaderLen ≤ 0 := by decide
  split
  · intro h
    simp [hpos] at h
  rename_i b hb
  split
  · intro h
    simp [hpos] at h
  rename_i wal hw
  split
  · rename_i hheader
    exact fun _ => ⟨wal, hw, by rw [hheader, hb]⟩
  · intro h
    simp [hpos] at h

lemma newPersistent_rel {peers : List NodeId} {cfg : Config} {disk : Disk} {now : ℕ}
    (hp : peers.toFinset.erase v = M.erase v)
    (hrel : ReplicaRel M strict s (s.disk v) disk.image) (hmem : s.mem v = s.disk v) :
    NodeRel M strict s v (newPersistent v peers cfg disk now) := by
  have hpeers := normalizedPeers_spec v peers
  refine CoreRel.follower ⟨rfl, ⟨hpeers.1, hpeers.2.trans hp⟩,
    ⟨disk, newPersistent_books v peers cfg disk now, hrel⟩, ?_, nofun⟩ rfl fun _ => hmem.symm
  rw [hmem]
  exact hrel

lemma restart_rel (hs : Sound M strict s)
    (h : NodeRel M strict s v n ∨ Stuck M strict s v n) (now : ℕ) :
    Simulates M strict s v (n.restart now, []) := by
  obtain ⟨hid, hpeers, disk, hok, hrel⟩ : n.id = v ∧
      (n.peers.Nodup ∧ n.peers.toFinset = M.erase v) ∧
      ∃ disk, RaftNode.DiskOk n.books disk ∧ ReplicaRel M strict s (s.disk v) disk.image :=
    h.elim (fun h => ⟨h.id, h.peers, h.disk⟩) (fun h => ⟨h.id, h.peers, h.disk⟩)
  have hstore : n.storage = some disk := hok.storage
  have hload : Step M strict v s (s.setMem v (s.disk v)) := .load s
  refine .head hload (NodeRel.simulates ?_)
  unfold restart
  rw [hid, hstore]
  refine newPersistent_rel ?_ (hrel.mono (hload.le hs.inv)) (by simp [State.setMem])
  rw [hpeers.2, Finset.erase_idem]

variable {c : Cluster}

section

variable (h : ClusterRel M strict s c)
include h

lemma ClusterRel.update {result : RaftNode × List Output} (hsim : Simulates M strict s v result) :
    ∃ s', ClusterRel M strict s' (c.update v result) ∧ Le s s' := by
  obtain ⟨s', hsteps, hnode, houts⟩ := hsim
  have hle := hsteps.le h.sound.inv
  have hframe := hsteps.frame
  refine ⟨s', ⟨h.sound.steps hsteps, ?_, ?_⟩, hle⟩
  · intro u hu
    unfold Cluster.update
    by_cases huv : u = v
    · subst huv
      simpa using hnode
    · simp only [huv]
      exact (h.nodes u hu).imp (fun hr => hr.mono hle hframe huv) (fun hr => hr.mono hle hframe huv)
  · intro p hp hsender
    rcases mem_append.mp hp with hp | hp
    · exact (h.packets p hp hsender).mono hle
    · obtain ⟨o, ho, rfl⟩ := mem_map.mp hp
      exact houts o ho

lemma ClusterRel.update_other (hv : v ∉ M)
    (result : RaftNode × List Output) : ClusterRel M strict s (c.update v result) := by
  refine ⟨h.sound, ?_, ?_⟩
  · intro u hu
    have huv : u ≠ v := fun he => hv (he ▸ hu)
    simpa [Cluster.update, huv] using h.nodes u hu
  intro p hp hsender
  rcases mem_append.mp hp with hp | hp
  · exact h.packets p hp hsender
  · obtain ⟨o, ho, rfl⟩ := mem_map.mp hp
    exact absurd hsender hv

lemma ClusterRel.exec (action : Action) (hsafe : strict → c.ActionSafe action) :
    ∃ s', ClusterRel M strict s' (c.exec action) ∧ Le s s' := by
  cases action with
  | call id call =>
    by_cases hid : id ∈ M
    · refine h.update ?_
      rcases h.nodes id hid with hn | hn
      · exact hn.perform h.sound hid call hsafe
      · exact hn.perform call
    · exact ⟨s, h.update_other hid _, .refl s⟩
  | restart id now =>
    by_cases hid : id ∈ M
    · exact h.update (restart_rel h.sound (h.nodes id hid) now)
    · exact ⟨s, h.update_other hid _, .refl s⟩
  | deliver place =>
    have hsafe' : strict → c.DeliverySafe c.sent[place]? := hsafe
    cases hp : c.sent[place]? with
    | none =>
      rw [exec_deliver_none hp]
      exact ⟨s, h, .refl s⟩
    | some p =>
      rw [hp] at hsafe'
      rw [exec_deliver hp]
      by_cases hid : p.dest ∈ M
      · refine h.update ?_
        rcases h.nodes p.dest hid with hn | hn
        · exact hn.step h.sound hid (fun hm => h.packets p (mem_of_getElem? hp) hm) hsafe'
        · exact hn.step p.sender p.msg
      · exact ⟨s, h.update_other hid _, .refl s⟩

lemma ClusterRel.run (actions : List Action) (hsafe : strict → c.RunSafe actions) :
    ∃ s', ClusterRel M strict s' (c.run actions) ∧ Le s s' := by
  induction actions generalizing c s with
  | nil => exact ⟨s, h, .refl s⟩
  | cons action rest ih =>
    obtain ⟨s₁, h₁, hle₁⟩ := h.exec action fun hst => (hsafe hst).1
    obtain ⟨s₂, h₂, hle₂⟩ := ih h₁ fun hst => (hsafe hst).2
    exact ⟨s₂, h₂, hle₁.trans hle₂⟩

end

/-- Before the first step. -/
def emptyHistory : History where
  mem := fun _ => ⟨0, none, []⟩
  disk := fun _ => ⟨0, none, []⟩
  termLog := fun _ => []
  election := fun _ => none
  bid := fun _ _ => none
  ballot := fun _ _ => none
  acked := fun _ _ => 0
  retired := fun _ => False

lemma emptyHistory_sound : Sound M strict emptyHistory where
  inv :=
    { disk_le := fun _ => le_rfl
      ballot_disk := nofun
      ballot_mem := nofun
      ballot_canon := nofun
      bid_disk := nofun
      bid_canon := nofun
      bid_stamp := nofun
      majority := nofun
      elected := nofun
      base := nofun
      unelected := fun _ _ => rfl
      bounded := nofun
      canon_term := fun _ => canon_nil
      canon_mem := fun _ => canon_nil
      canon_disk := fun _ => canon_nil
      stamp_mem := nofun
      stamp_disk := nofun
      retired := nofun }
  held _ :=
    { acked_le := fun _ _ => le_rfl
      acked_disk := fun _ _ h => absurd h (lt_irrefl _)
      mem := fun _ _ _ _ _ => rfl
      disk := fun _ _ _ _ _ => rfl
      ballot := nofun
      up_to_date := nofun }

lemma start_rel (members : List NodeId) (cfg : NodeId → Config) (now : NodeId → ℕ) :
    ClusterRel members.toFinset strict emptyHistory (Cluster.start members cfg now) where
  sound := emptyHistory_sound
  nodes v _ := by
    refine .inl (newPersistent_rel rfl ?_ rfl)
    exact ⟨rfl, rfl, .nil, le_rfl, le_rfl, le_rfl, fun _ => .inl rfl⟩
  packets := nofun

/-- Two moments of a run and the histories they show. -/
theorem run_rel (strict : Prop) (members : List NodeId) (cfg : NodeId → Config) (now : NodeId → ℕ)
    (first second : List Action)
    (hsafe : strict → (Cluster.start members cfg now).RunSafe (first ++ second)) :
    ∃ s₁ s₂, ClusterRel members.toFinset strict s₁ ((Cluster.start members cfg now).run first) ∧
      ClusterRel members.toFinset strict s₂
        ((Cluster.start members cfg now).run (first ++ second)) ∧ Le s₁ s₂ := by
  obtain ⟨s₁, h₁, _⟩ := (start_rel members cfg now).run first
    fun hst => ((runSafe_append _ _ _).mp (hsafe hst)).1
  obtain ⟨s₂, h₂, hle⟩ := h₁.run second fun hst => ((runSafe_append _ _ _).mp (hsafe hst)).2
  exact ⟨s₁, s₂, h₁, by rw [run_append]; exact h₂, hle⟩

end OnetDns.Raft
