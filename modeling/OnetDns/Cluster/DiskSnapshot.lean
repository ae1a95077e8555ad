import OnetDns.Cluster.Effect

/-!
# The snapshot on disk

Every write puts the snapshot of that moment on disk. So the files of a node hold the
snapshot they held before an operation, or one that the node had before or after it.
-/
namespace OnetDns.Raft
open RaftNode

variable {n m k : RaftNode} {outs : List Output}

/-- What a node knows of its files. -/
def RaftNode.stored (n : RaftNode) : Option Disk × Option StableState × ℕ × Bool :=
  (n.storage, n.baseDigest, n.walLen, n.walFile)

/-- The snapshot stays, and the files hold what they held or this snapshot. -/
structure Filed (n m : RaftNode) : Prop where
  snapshot : m.snapshot = n.snapshot
  files : ∀ disk, RaftNode.DiskOk n.books disk → ∃ disk', RaftNode.DiskOk m.books disk' ∧
    (disk'.image.snapshot = disk.image.snapshot ∨ disk'.image.snapshot = n.snapshot)

namespace Filed

lemma refl (n : RaftNode) : Filed n n := ⟨rfl, fun disk h => ⟨disk, h, .inl rfl⟩⟩

lemma trans (h : Filed n m) (h' : Filed m k) : Filed n k := by
  refine ⟨h'.snapshot.trans h.snapshot, fun disk hok => ?_⟩
  obtain ⟨disk₁, hok₁, h₁⟩ := h.files disk hok
  obtain ⟨disk₂, hok₂, h₂⟩ := h'.files disk₁ hok₁
  refine ⟨disk₂, hok₂, ?_⟩
  rcases h₂ with h₂ | h₂
  · rw [h₂]
    exact h₁
  · exact .inr (h₂.trans h.snapshot)

/-- What has no part in the files may change. -/
theorem edit (h : (m.stored, m.snapshot) = (n.stored, n.snapshot)) : Filed n m := by
  simp only [RaftNode.stored, Prod.mk.injEq] at h
  obtain ⟨⟨hstorage, hdigest, hlen, hfile⟩, hsnapshot⟩ := h
  refine ⟨hsnapshot, fun disk hok => ⟨disk, ⟨?_, ?_, ?_⟩, .inl rfl⟩⟩
  · exact hstorage.trans hok.storage
  · intro base hbase
    exact hok.digest base (hdigest.symm.trans hbase)
  · intro hwal
    refine hok.wal ?_
    change m.walFile = true ∨ walHeaderLen ≤ m.walLen at hwal
    rwa [hfile, hlen] at hwal

lemma of_edit (h : Filed m k) (hedit : (m.stored, m.snapshot) = (n.stored, n.snapshot)) :
    Filed n k :=
  (edit hedit).trans h

end Filed

lemma filed_failStop (n : RaftNode) (error : String) : Filed n (n.failStop error) := .edit rfl

/-- A write is the old files or the whole state of the node. -/
theorem persist_files (n : RaftNode) (disk : Disk) (h : RaftNode.DiskOk n.books disk) :
    n.persist.1.snapshot = n.snapshot ∧ ∃ disk', RaftNode.DiskOk n.persist.1.books disk' ∧
      (disk'.image.snapshot = disk.image.snapshot ∨ disk'.image.snapshot = n.snapshot) := by
  rcases persist_cases h with ⟨b, disk', hp, hok, himage, -⟩ | ⟨b, disk', error, hp, hok, himage, -⟩
  · rw [hp]
    exact ⟨rfl, disk', hok, .inr (by rw [himage]; rfl)⟩
  · rw [hp]
    exact ⟨rfl, disk', hok, .inl (by rw [himage])⟩

lemma filed_persist (n : RaftNode) : Filed n n.persist.1 := by
  refine ⟨?_, fun disk h => (persist_files n disk h).2⟩
  obtain ⟨b, -, hp | ⟨error, hp⟩⟩ := persist_eq n
  · rw [hp]
    rfl
  · rw [hp]
    rfl

lemma filed_of_persist {flag : Bool} (hp : n.persist = (k, flag)) : Filed n k := by
  have hk := filed_persist n
  rwa [hp] at hk

section

variable (n)

lemma filed_advanceCommit : Filed n n.advanceCommit := by
  obtain ⟨index, heq, -⟩ := advanceCommit_eq n
  rw [heq]
  exact .edit rfl

lemma filed_becomeLeader : Filed n n.becomeLeader := by
  unfold becomeLeader
  dsimp only
  split
  · exact .edit rfl
  split
  · exact .edit rfl
  have hwrite : ∀ log, Filed n (.advanceCommit { n with
      role := .leader, leaderId := some n.id
      heartbeatElapsed := max n.cfg.heartbeat 1, log }) :=
    fun log => (filed_advanceCommit _).of_edit rfl
  split
  · rename_i hp
    exact (hwrite _).trans (filed_of_persist hp)
  · rename_i hp
    exact ((hwrite _).trans (filed_of_persist hp)).trans (.edit rfl)

lemma filed_startElection : Filed n n.startElection.1 := by
  unfold startElection
  split
  · exact filed_failStop n _
  dsimp only
  split
  · rename_i hp
    exact (filed_of_persist hp).of_edit rfl
  · rename_i hp
    split
    · exact ((filed_of_persist hp).trans (filed_becomeLeader _)).of_edit rfl
    · exact (filed_of_persist hp).of_edit rfl

lemma filed_tick : Filed n n.tick.1 := by
  unfold RaftNode.tick
  split
  · exact .refl n
  split
  · dsimp only
    split
    · exact .edit rfl
    · exact .edit rfl
  · dsimp only
    split
    · exact (filed_startElection _).of_edit rfl
    · exact .edit rfl

lemma filed_handleRequestVote (term candidate lastLogIndex lastLogTerm : ℕ) :
    Filed n (n.handleRequestVote term candidate lastLogIndex lastLogTerm).1 := by
  unfold handleRequestVote
  split
  · split
    · rename_i hp
      exact (filed_of_persist hp).of_edit rfl
    · rename_i hp
      exact (filed_of_persist hp).of_edit rfl
  · exact .refl n

lemma filed_handleVoteResp (sender term : ℕ) (granted : Bool) :
    Filed n (n.handleVoteResp sender term granted).1 := by
  unfold handleVoteResp
  split
  · exact .refl n
  split
  · dsimp only
    split
    · exact (filed_becomeLeader _).of_edit rfl
    · exact .edit rfl
  · exact .refl n

lemma filed_proposeBatch (entries : List Bytes) :
    Filed n (n.proposeBatch entries).1 := by
  unfold proposeBatch
  split
  · exact .refl n
  split
  · exact .refl n
  split
  · exact .refl n
  split
  · exact .refl n
  split
  · exact .refl n
  split
  · exact .refl n
  split
  · exact .refl n
  dsimp only
  have hwrite : ∀ log, Filed n (.advanceCommit { n with log }) :=
    fun log => (filed_advanceCommit _).of_edit rfl
  split
  · rename_i hp
    exact (hwrite _).trans (filed_of_persist hp)
  · rename_i hp
    exact (hwrite _).trans (filed_of_persist hp)

lemma filed_appendMerged (leader lastNew : ℕ) (changed : Bool)
    (leaderCommit : ℕ) : Filed n (n.appendMerged leader lastNew changed leaderCommit).1 := by
  have hcommit : Filed n (n.takeCommit leaderCommit) := by
    unfold takeCommit
    split
    · exact .edit rfl
    · exact .refl n
  unfold appendMerged
  split
  · exact filed_failStop n _
  dsimp only
  split
  · split
    · rename_i hp
      exact hcommit.trans (filed_of_persist hp)
    · rename_i hp
      exact hcommit.trans (filed_of_persist hp)
  · exact hcommit

lemma filed_handleAppend (term leader prev prevTerm : ℕ)
    (entries : List LogEntry) (leaderCommit : ℕ) :
    Filed n (n.handleAppend term leader prev prevTerm entries leaderCommit).1 := by
  unfold handleAppend
  split
  · exact .refl n
  split
  · exact .refl n
  split
  · exact .refl n
  have hfollow : Filed n (n.followLeader leader term) := .edit rfl
  refine hfollow.trans ?_
  unfold appendAccepted
  split
  · exact .refl _
  split
  · exact .refl _
  dsimp only
  split
  · exact .edit rfl
  · exact .edit rfl
  · exact (filed_appendMerged _ _ _ _ _).of_edit rfl

lemma filed_recordProgress (peer index : ℕ) :
    Filed n (n.recordProgress peer index) :=
  (filed_advanceCommit _).of_edit rfl

lemma filed_handleAppendResp (sender term : ℕ) (success : Bool) (index : ℕ) :
    Filed n (n.handleAppendResp sender term success index).1 := by
  unfold handleAppendResp
  split
  · exact .refl n
  split
  · dsimp only
    split <;> exact filed_recordProgress n sender index
  · exact .edit rfl

lemma filed_receiveChunk (leader : NodeId) (incoming : IncomingSnapshot)
    (index offset : ℕ) (data : Bytes) (done : Bool) :
    Filed n (n.receiveChunk leader incoming index offset data done).1 := by
  obtain ⟨transfer, outs, heq, -⟩ := receiveChunk_spec n leader incoming index offset data done
  rw [heq]
  exact .edit rfl

lemma filed_handleInstallSnapshot (term leader index snapTerm offset : ℕ)
    (data : Bytes) (done : Bool) :
    Filed n (n.handleInstallSnapshot term leader index snapTerm offset data done).1 := by
  unfold handleInstallSnapshot
  split
  · exact .refl n
  dsimp only
  have hobserve : Filed n (n.observeLeader leader) := .edit rfl
  split
  · exact .edit rfl
  split
  · exact hobserve.trans (filed_receiveChunk _ _ _ _ _ _ _)
  · split
    · exact .edit rfl
    · exact hobserve.trans (filed_receiveChunk _ _ _ _ _ _ _)

lemma filed_handleInstallSnapshotResp (sender term index next : ℕ)
    (installed : Bool) :
    Filed n (n.handleInstallSnapshotResp sender term index next installed).1 := by
  unfold handleInstallSnapshotResp
  split
  · exact .refl n
  split
  · exact .refl n
  split
  · exact .refl n
  split
  · dsimp only
    split <;> exact (filed_recordProgress _ sender index).of_edit rfl
  · exact .edit rfl

lemma filed_step (sender : NodeId) (msg : Msg) : Filed n (n.step sender msg).1 := by
  have hdispatch : ∀ m : RaftNode, Filed m (m.dispatch sender msg).1 := by
    intro m
    cases msg with
    | requestVote => exact filed_handleRequestVote m _ _ _ _
    | requestVoteResp => exact filed_handleVoteResp m _ _ _
    | appendEntries => exact filed_handleAppend m _ _ _ _ _ _
    | appendEntriesResp => exact filed_handleAppendResp m _ _ _ _
    | installSnapshot => exact filed_handleInstallSnapshot m _ _ _ _ _ _ _
    | installSnapshotResp => exact filed_handleInstallSnapshotResp m _ _ _ _ _
  unfold RaftNode.step
  split
  · exact .refl n
  split
  · exact .refl n
  split
  · split
    · rename_i hp
      exact (filed_of_persist hp).of_edit rfl
    · rename_i hp
      exact ((filed_of_persist hp).trans (hdispatch _)).of_edit rfl
  · exact hdispatch n

end

/-- The files hold what they held, or a snapshot of the node before or after. -/
def Refiled (n m : RaftNode) : Prop :=
  ∀ disk, RaftNode.DiskOk n.books disk → ∃ disk', RaftNode.DiskOk m.books disk' ∧
    (disk'.image.snapshot = disk.image.snapshot ∨ disk'.image.snapshot = n.snapshot ∨
      disk'.image.snapshot = m.snapshot)

lemma Filed.refiled (h : Filed n m) : Refiled n m := by
  intro disk hok
  obtain ⟨disk', hok', hsnap⟩ := h.files disk hok
  exact ⟨disk', hok', hsnap.imp_right .inl⟩

lemma Filed.refiled_of_edit (h : Filed m k) (hedit : m.stored = n.stored) : Refiled n k := by
  intro disk hok
  have hfiles : Filed { n with snapshot := m.snapshot } k := h.of_edit (congrArg (·, _) hedit)
  obtain ⟨disk', hok', hsnap⟩ := hfiles.files disk hok
  exact ⟨disk', hok', hsnap.imp_right fun heq => .inr (heq.trans hfiles.snapshot.symm)⟩

lemma refiled_compact (n : RaftNode) (data : Bytes) : Refiled n (n.compact data).1 := by
  have hsame := (Filed.refl n).refiled
  unfold compact
  split
  · exact hsame
  dsimp only
  split
  · exact hsame
  split
  · exact hsame
  split
  · exact hsame
  split
  · rename_i hp
    exact (filed_of_persist hp).refiled_of_edit rfl
  · rename_i hp
    exact (filed_of_persist hp).refiled_of_edit rfl

lemma refiled_finishSnapshotInstall (n : RaftNode) (index : ℕ) :
    Refiled n (n.finishSnapshotInstall index).1 := by
  unfold finishSnapshotInstall
  split
  · exact (Filed.refl n).refiled
  split
  · rename_i hp
    exact (filed_of_persist hp).refiled_of_edit rfl
  · rename_i hp
    exact ((filed_of_persist hp).trans (.edit rfl)).refiled_of_edit rfl

lemma refiled_setFaults (n : RaftNode) (faults : List (Option String)) :
    Refiled n (n.setFaults faults) := by
  intro disk hok
  have hstore : n.storage = some disk := hok.storage
  refine ⟨{ disk with faults }, ⟨?_, hok.digest, hok.wal⟩, .inl rfl⟩
  change n.storage.map (fun disk => { disk with faults }) = some { disk with faults }
  rw [hstore]
  rfl

lemma refiled_handle (n : RaftNode) (input : Input) : Refiled n (n.handle input).1 := by
  cases input with
  | message sender msg => exact (filed_step n sender msg).refiled
  | call call =>
    cases call with
    | tick => exact (filed_tick n).refiled
    | forceReplicate =>
      refine Filed.refiled ?_
      unfold handle perform forceReplicate
      dsimp only
      split
      · exact .edit rfl
      · exact .refl n
    | proposeBatch entries => exact (filed_proposeBatch n entries).refiled
    | markAppliedBatch first last =>
      refine Filed.refiled ?_
      unfold handle perform markAppliedBatch
      dsimp only
      split
      · exact .refl n
      split
      · rename_i hp
        exact (filed_of_persist hp).of_edit rfl
      · rename_i hp
        exact (filed_of_persist hp).of_edit rfl
    | compact data => exact refiled_compact n data
    | finishSnapshotInstall index =>
      have hfinish := refiled_finishSnapshotInstall n index
      unfold handle perform
      dsimp only
      split <;> simpa only [*] using hfinish
    | nextBootSession now =>
      refine Filed.refiled ?_
      unfold handle perform nextBootSession
      dsimp only
      split
      · exact .refl n
      split
      · rename_i hp
        exact (filed_of_persist hp).of_edit rfl
      · rename_i hp
        exact (filed_of_persist hp).of_edit rfl
    | failStop error => exact (filed_failStop n error).refiled
    | diskFaults faults => exact refiled_setFaults n faults

end OnetDns.Raft
