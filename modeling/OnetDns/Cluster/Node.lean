import OnetDns.Cluster.Codec

/-!
# One Raft node

`RaftNode` of `onetdns-cluster/src/raft.rs` with every operation that reads or
changes it. An operation that takes `&mut self` returns the new node, next to
the messages to send or the result the source returns.

The file system behind `storage_path` is part of the node as a `Disk`. It keeps
what was written as the states that were encoded, not as bytes: `WalRecord`
stands for the frame `encode_wal_frame` builds, and a digest of the state file
for the state in it. Whether the next write succeeds is decided outside, by
`Disk.faults`; a failed write leaves the files as they were.
-/
namespace OnetDns.Raft

/-- One frame of the write-ahead log. -/
structure WalRecord where
  state : StableState
  truncateTo : ℕ

/-- The write-ahead log: the state whose digest its header names, and its frames. -/
structure Wal where
  header : StableState
  records : List WalRecord

/-- The files at the storage path, and the outcome of the coming writes:
`some error` for a write that fails. Past the end of the list writes succeed. -/
structure Disk where
  base : Option StableState := none
  wal : Option Wal := none
  faults : List (Option String) := []

/-- Length of the frame written for a record. -/
def WalRecord.len (record : WalRecord) : ℕ :=
  match encodeWalBody record.state record.truncateTo with
  | .ok body => frameLen body
  | .error _ => 0

namespace Disk

/-- What `load_state` returns for these files. -/
structure Loaded where
  state : StableState
  baseDigest : Option StableState
  walLen : ℕ

def load (disk : Disk) : Loaded :=
  match disk.base with
  | none => ⟨{}, none, 0⟩
  | some base =>
    match disk.wal with
    | none => ⟨base, some base, 0⟩
    | some wal =>
      if wal.header = base then
        ⟨(wal.records.getLast?.map (·.state)).getD base, some base,
          walHeaderLen + (wal.records.map WalRecord.len).sum⟩
      else ⟨base, some base, 0⟩

/-- The state a restart finds. -/
def image (disk : Disk) : StableState := disk.load.state

end Disk

structure RaftNode where
  id : NodeId
  peers : List NodeId
  role : Role
  currentTerm : ℕ
  votedFor : Option NodeId
  log : List LogEntry
  commitIndex : ℕ
  lastApplied : ℕ
  leaderId : Option NodeId
  nextIndex : NodeId → Option ℕ
  matchIndex : NodeId → Option ℕ
  votes : Finset NodeId
  electionElapsed : ℕ
  heartbeatElapsed : ℕ
  electionTimeout : ℕ
  rngState : ℕ
  cfg : Config
  storage : Option Disk
  fatal : Option String
  bootCounter : ℕ
  snapshot : Option Snapshot
  incomingSnapshot : Option IncomingSnapshot
  snapshotOffsets : NodeId → Option ℕ
  snapshotDirty : Bool
  durableLogLen : ℕ
  baseDigest : Option StableState
  walLen : ℕ
  walFile : Bool

/-- `HashMap::insert`. -/
def insertKey (map : NodeId → Option ℕ) (key : NodeId) (value : ℕ) : NodeId → Option ℕ :=
  fun other => if other = key then some value else map other

/-- `HashMap::remove`. -/
def removeKey (map : NodeId → Option ℕ) (key : NodeId) : NodeId → Option ℕ :=
  fun other => if other = key then none else map other

/-- Raft 5.4.1: the term decides, and with equal terms the length. -/
def logUpToDate (candidateTerm candidateIndex myTerm myIndex : ℕ) : Bool :=
  decide (myTerm < candidateTerm) ||
    (decide (candidateTerm = myTerm) && decide (myIndex ≤ candidateIndex))

namespace RaftNode

variable (n : RaftNode)

/-- The state `persist` writes. -/
def stableView : StableState where
  currentTerm := n.currentTerm
  votedFor := n.votedFor
  log := n.log
  commitIndex := n.commitIndex
  lastApplied := n.lastApplied
  bootCounter := n.bootCounter
  snapshot := n.snapshot

def snapshotIndex : ℕ := n.snapshot.elim 0 (·.index)

def lastIndex : ℕ :=
  match n.log.getLast? with
  | some entry => entry.index
  | none => n.snapshotIndex

/-- 0 stands for a term that is not known: index 0, the folded prefix, or past the end. -/
def termAt (index : ℕ) : ℕ :=
  if index = 0 then 0
  else
    match n.snapshot with
    | some snapshot =>
      if index = snapshot.index then snapshot.term
      else if index < snapshot.index then 0
      else (n.log[index - snapshot.index - 1]?).elim 0 (·.term)
    | none => (n.log[index - 1]?).elim 0 (·.term)

def lastLogTerm : ℕ := n.log.getLast?.elim 0 (·.term)

def quorum : ℕ := (n.peers.length + 1) / 2 + 1

def isLeader : Bool := decide (n.role = .leader) && n.fatal.isNone

def failStop (error : String) : RaftNode :=
  { n with fatal := some error, role := .follower, leaderId := none }

/-- xorshift64 on a `u64`. -/
def nextRandom : ℕ :=
  let x := n.rngState
  let x := x ^^^ ((x <<< 13) % 2 ^ 64)
  let x := x ^^^ (x >>> 7)
  let x := x ^^^ ((x <<< 17) % 2 ^ 64)
  if x = 0 then 0xa0761d6478bd642f ^^^ n.id else x

def resetElectionTimeout : RaftNode :=
  let base := max n.cfg.electionBase 2
  let x := n.nextRandom
  { n with rngState := x, electionTimeout := max (min (base + x % base) u32Max) 2,
           electionElapsed := 0 }

/-- `store_state` and `reset_wal`: the state file is replaced, the WAL emptied. -/
def storeBase (disk : Disk) : RaftNode × Option String :=
  let n := { n with walFile := false }
  match encodeStateBody n.stableView with
  | .error error => (n, some error)
  | .ok _ =>
    match disk.faults with
    | some error :: faults => ({ n with storage := some { disk with faults } }, some error)
    | faults =>
      ({ n with storage := some ⟨some n.stableView, some ⟨n.stableView, []⟩, faults.tail⟩,
                walLen := walHeaderLen, baseDigest := some n.stableView,
                snapshotDirty := false, durableLogLen := n.log.length }, none)

/-- `append_wal_frame`. A WAL without a header of its own is started afresh. -/
def appendWalFrame (disk : Disk) (record : WalRecord) (len : ℕ) :
    RaftNode × Option String :=
  match disk.faults with
  | some error :: faults =>
    ({ n with storage := some { disk with faults }, walFile := false }, some error)
  | faults =>
    let fresh := !n.walFile && decide (n.walLen < walHeaderLen)
    match n.baseDigest with
    | none => (n, some "Raft 로그 파일을 만들려면 기준 상태의 지문이 필요합니다")
    | some base =>
      let wal : Wal := if fresh then ⟨base, []⟩ else disk.wal.getD ⟨base, []⟩
      let walLen := if fresh then walHeaderLen else n.walLen
      ({ n with storage := some { disk with wal := some ⟨wal.header, wal.records ++ [record]⟩,
                                            faults := faults.tail },
                walLen := satAdd walLen len, walFile := true,
                durableLogLen := n.log.length }, none)

/-- Appends the change to the WAL, or rewrites the state file when the snapshot
changed, when there is no state file, or when the WAL would grow past its limit. -/
def persistAt (disk : Disk) : RaftNode × Option String :=
  let truncateTo := min n.durableLogLen n.log.length
  match encodeWalBody n.stableView truncateTo with
  | .error error => (n, some error)
  | .ok body =>
    if n.snapshotDirty ∨ n.baseDigest.isNone ∨ maxWalBytes < satAdd n.walLen (frameLen body) then
      n.storeBase disk
    else n.appendWalFrame disk ⟨n.stableView, truncateTo⟩ (frameLen body)

/-- False stops the node: it can no longer keep what it promises. -/
def persist : RaftNode × Bool :=
  match n.storage with
  | none => (n, true)
  | some disk =>
    match n.persistAt disk with
    | (n, none) => (n, true)
    | (n, some error) => (n.failStop s!"Raft 상태를 디스크에 저장하지 못했습니다: {error}", false)

/-- The error an operation returns when its `persist` failed. -/
def persistError (default : String) : String := n.fatal.getD default

def appliedEntriesAfterSnapshot : List LogEntry :=
  n.log.take (min (n.lastApplied - n.snapshotIndex) n.log.length)

/-- The snapshot takes the place of the first `remove` retained entries. -/
def foldLog (remove : ℕ) (snapshot : Snapshot) : RaftNode :=
  { n with log := n.log.drop remove, snapshot := some snapshot,
           snapshotOffsets := fun _ => none, durableLogLen := 0, snapshotDirty := true }

/-- Folds the applied prefix of the log into a snapshot the upper layer made. -/
def compact (data : Bytes) : RaftNode × Except String Unit :=
  if data = [] ∨ maxSnapshotBytes < data.length then
    (n, .error s!"Raft 스냅샷 크기는 1..={maxSnapshotBytes}바이트여야 합니다")
  else
    let previous := n.snapshotIndex
    let includedIndex := n.lastApplied
    if includedIndex ≤ previous ∨ n.commitIndex < includedIndex then
      (n, .error "Raft 스냅샷 위치가 적용 완료 범위를 벗어났습니다")
    else
      let includedTerm := n.termAt includedIndex
      if includedTerm = 0 then (n, .error "Raft 스냅샷 위치의 term을 찾을 수 없습니다")
      else
        let remove := includedIndex - previous
        if n.log.length < remove then
          (n, .error "Raft 스냅샷 로그 범위가 보유 로그를 벗어났습니다")
        else
          match (n.foldLog remove ⟨includedIndex, includedTerm, data⟩).persist with
          | (n, false) =>
            (n, .error (n.persistError "Raft 스냅샷을 디스크에 저장하지 못했습니다"))
          | (n, true) => (n, .ok ())

/-- The peers known to hold `index`, and this node. -/
def replicated (index : ℕ) : ℕ :=
  1 + n.peers.countP fun peer => decide (index ≤ (n.matchIndex peer).getD 0)

/-- The scan of `advance_commit`: `count` indexes from `low` up, highest first. -/
def commitScan (n : RaftNode) (low : ℕ) : (count : ℕ) → Option ℕ
  | 0 => none
  | count + 1 =>
    if n.termAt (low + count) = n.currentTerm ∧ n.quorum ≤ n.replicated (low + count) then
      some (low + count)
    else n.commitScan low count

/-- Raft 5.4.2: only an entry of the current term is committed by counting. -/
def advanceCommit : RaftNode :=
  let low := satAdd n.commitIndex 1
  match n.commitScan low (n.lastIndex + 1 - low) with
  | some index => { n with commitIndex := index }
  | none => n

/-- The entry loop of `append_for`: the batch ends at either size limit. -/
def appendBatch (count bytes : ℕ) : List LogEntry → List LogEntry
  | [] => []
  | entry :: rest =>
    let encoded := 8 + 8 + 4 + entry.data.length
    if count ≠ 0 ∧ (maxAppendEntries ≤ count ∨ maxAppendBytes < bytes + encoded) then []
    else if maxAppendBytes < encoded then []
    else entry :: appendBatch (count + 1) (bytes + encoded) rest

/-- The slice `snapshot.data[offset..end]` that goes to a peer next. -/
def snapshotRange (snapshot : Snapshot) (peer : NodeId) : ℕ × ℕ :=
  let requested := (n.snapshotOffsets peer).getD 0
  let offset := if requested ≤ snapshot.data.length then requested else 0
  (offset, min (offset + snapshotChunkBytes) snapshot.data.length)

def snapshotFor (snapshot : Snapshot) (peer : NodeId) : Output :=
  let (offset, stop) := n.snapshotRange snapshot peer
  ⟨peer, .installSnapshot n.currentTerm n.id snapshot.index snapshot.term offset
    ((snapshot.data.take stop).drop offset) (decide (stop = snapshot.data.length))⟩

/-- The replication message for a peer, or a snapshot chunk when the entry it
needs next is folded already. -/
def appendFor (peer : NodeId) : Output :=
  let next := (n.nextIndex peer).getD 1
  match n.snapshot.filter fun snapshot => decide (next ≤ snapshot.index) with
  | some snapshot => n.snapshotFor snapshot peer
  | none =>
    let prevLogIndex := next - 1
    ⟨peer, .appendEntries n.currentTerm n.id prevLogIndex (n.termAt prevLogIndex)
      (appendBatch 0 0 (n.log.filter fun entry => decide (next ≤ entry.index))) n.commitIndex⟩

def broadcastAppend : List Output := n.peers.map n.appendFor

/-- The no-op of a new leader. `None` when the log is full or the index overflows. -/
def becomeLeader : RaftNode :=
  let n := { n with role := .leader, leaderId := some n.id,
                    heartbeatElapsed := max n.cfg.heartbeat 1 }
  if maxLogEntries ≤ n.log.length then
    n.failStop "Raft 로그 상한 때문에 리더 no-op 항목을 기록할 수 없습니다"
  else
    match checkedAdd n.lastIndex 1 with
    | none => n.failStop "Raft 리더 no-op index 계산 범위를 넘었습니다"
    | some noopIndex =>
      let n : RaftNode := { n with log := n.log ++ [⟨n.currentTerm, noopIndex, []⟩] }
      match n.advanceCommit.persist with
      | (n, false) => n
      | (n, true) =>
        let next := satAdd n.lastIndex 1
        { n with nextIndex := fun peer => if peer ∈ n.peers then some next else none,
                 matchIndex := fun peer => if peer ∈ n.peers then some 0 else none,
                 snapshotOffsets := fun _ => none }

def startElection : RaftNode × List Output :=
  match checkedAdd n.currentTerm 1 with
  | none => (n.failStop "Raft term 계산 범위를 넘었습니다", [])
  | some nextTerm =>
    let n := { n with currentTerm := nextTerm, role := .candidate, votedFor := some n.id,
                      leaderId := none, votes := {n.id} }.resetElectionTimeout
    match n.persist with
    | (n, false) => (n, [])
    | (n, true) =>
      if n.quorum = 1 then (n.becomeLeader, n.becomeLeader.broadcastAppend)
      else
        (n, n.peers.map fun peer =>
          ⟨peer, .requestVote n.currentTerm n.id n.lastIndex n.lastLogTerm⟩)

def tick : RaftNode × List Output :=
  if n.fatal.isSome then (n, [])
  else
    match n.role with
    | .leader =>
      let n := { n with heartbeatElapsed := min (n.heartbeatElapsed + 1) u32Max }
      if max n.cfg.heartbeat 1 ≤ n.heartbeatElapsed then
        let n := { n with heartbeatElapsed := 0 }
        (n, n.broadcastAppend)
      else (n, [])
    | _ =>
      let n := { n with electionElapsed := min (n.electionElapsed + 1) u32Max }
      if n.electionTimeout ≤ n.electionElapsed then n.startElection else (n, [])

def forceReplicate : RaftNode × List Output :=
  if n.isLeader then
    let n := { n with heartbeatElapsed := 0 }
    (n, n.broadcastAppend)
  else (n, [])

/-- Entries for the proposed data, from `index` on. -/
def proposedEntries (term : ℕ) : (index : ℕ) → List Bytes → List LogEntry
  | _, [] => []
  | index, data :: rest => ⟨term, index, data⟩ :: proposedEntries term (index + 1) rest

/-- Encoded size of a proposal. -/
def proposalBytes (entries : List Bytes) : ℕ := (entries.map fun data => 8 + 8 + 4 + data.length).sum

/-- Appends every proposed entry or none. -/
def proposeBatch (entries : List Bytes) : RaftNode × Except String (List ℕ) :=
  if n.isLeader = false then (n, .error (n.persistError "현재 노드는 리더가 아닙니다"))
  else if entries = [] ∨ maxAppendEntries < entries.length then
    (n, .error s!"Raft 제안 배치는 1..={maxAppendEntries}개 항목이어야 합니다")
  else if entries.any fun data => data.isEmpty || decide (maxEntryBytes < data.length) then
    (n, .error s!"Raft 항목 크기는 1..={maxEntryBytes}바이트여야 합니다")
  else if maxAppendBytes < proposalBytes entries then
    (n, .error s!"Raft 제안 배치의 인코딩 크기는 {maxAppendBytes}바이트 이하여야 합니다")
  else if maxLogEntries < n.log.length + entries.length then
    (n, .error "Raft 로그 상한 도달: 스냅샷 또는 운영자 압축이 필요합니다")
  else
    match checkedAdd n.lastIndex 1 with
    | none => (n, .error "Raft log index 계산 범위를 넘었습니다")
    | some firstIndex =>
      match checkedAdd firstIndex (entries.length - 1) with
      | none => (n, .error "Raft log index 계산 범위를 넘었습니다")
      | some _ =>
        let added := proposedEntries n.currentTerm firstIndex entries
        let n : RaftNode := { n with log := n.log ++ added }
        match n.advanceCommit.persist with
        | (n, false) =>
          (n, .error (n.persistError "Raft 상태를 디스크에 저장하지 못했습니다"))
        | (n, true) => (n, .ok (added.map (·.index)))

variable (term : ℕ)

/-- The test of `handle_request_vote`. -/
def grantsVote (candidate : NodeId) (lastLogIndex lastLogTerm : ℕ) :
    Bool :=
  decide (term = n.currentTerm) && n.votedFor.all (· == candidate) &&
    logUpToDate lastLogTerm lastLogIndex n.lastLogTerm n.lastIndex

def handleRequestVote (candidate : NodeId)
    (lastLogIndex lastLogTerm : ℕ) : RaftNode × List Output :=
  if n.grantsVote term candidate lastLogIndex lastLogTerm then
    match ({ n with votedFor := some candidate }.resetElectionTimeout).persist with
    | (n, false) => (n, [])
    | (n, true) => (n, [⟨candidate, .requestVoteResp n.currentTerm true⟩])
  else (n, [⟨candidate, .requestVoteResp n.currentTerm false⟩])

variable (sender : NodeId)

def handleVoteResp (term : ℕ) (granted : Bool) :
    RaftNode × List Output :=
  if n.role ≠ .candidate ∨ term ≠ n.currentTerm then (n, [])
  else if granted then
    let n := { n with votes := insert sender n.votes }
    if n.quorum ≤ n.votes.card then (n.becomeLeader, n.becomeLeader.broadcastAppend) else (n, [])
  else (n, [])

variable (leader : NodeId)

def appendResponse (success : Bool) (matchIndex : ℕ) : Output :=
  ⟨leader, .appendEntriesResp n.currentTerm success matchIndex⟩

/-- How the entry loop of `handle_append` ends. -/
inductive MergeEnd where
  | done
  | reject
  | rewrite (index : ℕ)
  deriving DecidableEq

/-- The log while `handle_append` walks over a batch. -/
structure Merge where
  log : List LogEntry
  durableLogLen : ℕ
  changed : Bool
  stop : MergeEnd

/-- The entry loop of `handle_append`: an entry that is there already is
skipped, a conflicting one cuts the log off, and a committed one is never cut. -/
def mergeEntries (base commitIndex : ℕ) : List LogEntry → List LogEntry → ℕ → Bool → Merge
  | [], log, durable, changed => ⟨log, durable, changed, .done⟩
  | entry :: rest, log, durable, changed =>
    if entry.index < satAdd base 1 then ⟨log, durable, changed, .reject⟩
    else
      let offset := entry.index - satAdd base 1
      match log[offset]? with
      | some held =>
        if held.term ≠ entry.term ∨ held.data ≠ entry.data then
          if entry.index ≤ commitIndex then ⟨log, durable, changed, .rewrite entry.index⟩
          else mergeEntries base commitIndex rest (log.take offset ++ [entry])
            (min durable offset) true
        else mergeEntries base commitIndex rest log durable changed
      | none =>
        if offset = log.length then
          mergeEntries base commitIndex rest (log ++ [entry]) durable true
        else ⟨log, durable, changed, .reject⟩

/-- Every entry follows the one before it, the first one `expected`. -/
def contiguous : (expected : ℕ) → List LogEntry → Bool
  | _, [] => true
  | expected, entry :: rest =>
    decide (entry.index = expected) && contiguous (satAdd expected 1) rest

/-- The size tests a batch has to pass before anything else is looked at. -/
def oversizedBatch (entries : List LogEntry) : Bool :=
  entries.any (fun entry => decide (maxEntryBytes < entry.data.length)) ||
    decide (maxAppendBytes < (entries.map (·.data.length)).sum)

/-- Follows the leader's commit index as far as the own log goes. -/
def takeCommit (leaderCommit : ℕ) : RaftNode :=
  if n.commitIndex < leaderCommit then { n with commitIndex := min leaderCommit n.lastIndex }
  else n

/-- The end of `handle_append`, after the entry loop. -/
def appendMerged (lastNew : ℕ) (changed : Bool)
    (leaderCommit : ℕ) : RaftNode × List Output :=
  if maxLogEntries < n.log.length then
    (n.failStop "Raft 로그 항목 수가 허용 한도를 넘었습니다", [])
  else
    let n := n.takeCommit leaderCommit
    if changed then
      match n.persist with
      | (n, false) => (n, [])
      | (n, true) => (n, [n.appendResponse leader true lastNew])
    else (n, [n.appendResponse leader true lastNew])

/-- What `handle_append` does once the leader is recognised. -/
def appendAccepted (prevLogIndex prevLogTerm : ℕ)
    (entries : List LogEntry) (leaderCommit : ℕ) : RaftNode × List Output :=
  if n.lastIndex < prevLogIndex ∨ n.termAt prevLogIndex ≠ prevLogTerm then
    (n, [n.appendResponse leader false n.lastIndex])
  else if contiguous (satAdd prevLogIndex 1) entries = false then
    (n, [n.appendResponse leader false n.lastIndex])
  else
    let merge := mergeEntries n.snapshotIndex n.commitIndex entries n.log n.durableLogLen false
    let n := { n with log := merge.log, durableLogLen := merge.durableLogLen }
    match merge.stop with
    | .reject => (n, [n.appendResponse leader false n.lastIndex])
    | .rewrite index =>
      (n.failStop s!"Raft committed log rewrite attempt at index {index}", [])
    | .done =>
      n.appendMerged leader (entries.getLast?.elim prevLogIndex (·.index)) merge.changed leaderCommit

/-- A message from the leader of the current term ends any candidacy. -/
def observeLeader : RaftNode :=
  { n with role := .follower, leaderId := some leader }.resetElectionTimeout

/-- `handle_append` also drops a snapshot that another leader was sending. -/
def followLeader (term : ℕ) : RaftNode :=
  { n with incomingSnapshot := n.incomingSnapshot.filter fun incoming =>
      decide (incoming.leader = leader ∧ incoming.leaderTerm = term) }.observeLeader leader

def handleAppend (leader : NodeId) (prevLogIndex prevLogTerm : ℕ)
    (entries : List LogEntry) (leaderCommit : ℕ) : RaftNode × List Output :=
  if term < n.currentTerm then (n, [n.appendResponse leader false n.lastIndex])
  else if term ≠ n.currentTerm ∨ maxAppendEntries < entries.length then
    (n, [n.appendResponse leader false n.lastIndex])
  else if oversizedBatch entries then (n, [n.appendResponse leader false n.lastIndex])
  else
    (n.followLeader leader term).appendAccepted leader prevLogIndex prevLogTerm entries leaderCommit

def recordProgress (peer : NodeId) (index : ℕ) : RaftNode :=
  let bounded := max (min index n.lastIndex) ((n.matchIndex peer).getD 0)
  { n with matchIndex := insertKey n.matchIndex peer bounded,
           nextIndex := insertKey n.nextIndex peer (satAdd bounded 1) }.advanceCommit

def handleAppendResp (term : ℕ) (success : Bool)
    (matchIndex : ℕ) : RaftNode × List Output :=
  if n.role ≠ .leader ∨ term ≠ n.currentTerm then (n, [])
  else if success then
    let bounded := max (min matchIndex n.lastIndex) ((n.matchIndex sender).getD 0)
    let n := n.recordProgress sender matchIndex
    if bounded < n.lastIndex then (n, [n.appendFor sender]) else (n, [])
  else
    let next := (n.nextIndex sender).getD 1
    let fallback := max (next - 1) 1
    let hinted := max (satAdd matchIndex 1) 1
    let n := { n with nextIndex := insertKey n.nextIndex sender (min fallback hinted) }
    (n, [n.appendFor sender])

def snapshotResponse (lastIncludedIndex nextOffset : ℕ)
    (installed : Bool) : Output :=
  ⟨leader, .installSnapshotResp n.currentTerm lastIncludedIndex nextOffset installed⟩

/-- The part of `handle_install_snapshot` that adds a chunk to `incoming`. -/
def receiveChunk (incoming : IncomingSnapshot)
    (lastIncludedIndex offset : ℕ) (data : Bytes) (done : Bool) : RaftNode × List Output :=
  let n := { n with incomingSnapshot := some incoming }
  let expected := incoming.data.length
  if offset < expected then
    -- a chunk that was received before has to match what is held
    if incoming.data.length < offset + data.length ∨
        (incoming.data.take (offset + data.length)).drop offset ≠ data then
      ({ n with incomingSnapshot := none }, [n.snapshotResponse leader lastIncludedIndex 0 false])
    else (n, [n.snapshotResponse leader lastIncludedIndex expected false])
  else if offset ≠ expected ∨ (data = [] ∧ ¬(done = true ∧ 0 < offset)) ∨
      maxSnapshotBytes < incoming.data.length + data.length then
    (n, [n.snapshotResponse leader lastIncludedIndex expected false])
  else
    let incoming := { incoming with data := incoming.data ++ data, complete := done }
    let n := { n with incomingSnapshot := some incoming }
    if done then (n, [])
    else
      (n, [n.snapshotResponse leader lastIncludedIndex incoming.data.length false])

def handleInstallSnapshot (leader : NodeId)
    (lastIncludedIndex lastIncludedTerm offset : ℕ) (data : Bytes) (done : Bool) :
    RaftNode × List Output :=
  if term ≠ n.currentTerm ∨ lastIncludedIndex = 0 ∨ lastIncludedTerm = 0 ∨
      snapshotChunkBytes < data.length then
    (n, [n.snapshotResponse leader lastIncludedIndex 0 false])
  else
    let n := n.observeLeader leader
    if lastIncludedIndex ≤ n.lastApplied then
      ({ n with incomingSnapshot := none }, [n.snapshotResponse leader lastIncludedIndex 0 true])
    else
      match n.incomingSnapshot.filter fun incoming =>
          decide (incoming.leader = leader ∧ incoming.leaderTerm = term ∧
            incoming.index = lastIncludedIndex ∧ incoming.term = lastIncludedTerm) with
      | some incoming => n.receiveChunk leader incoming lastIncludedIndex offset data done
      | none =>
        if offset ≠ 0 then
          ({ n with incomingSnapshot := none },
            [n.snapshotResponse leader lastIncludedIndex 0 false])
        else
          n.receiveChunk leader ⟨leader, term, lastIncludedIndex, lastIncludedTerm, [], false⟩
            lastIncludedIndex offset data done

/-- A snapshot received whole from the leader the node still follows. -/
def completeIncoming : Option IncomingSnapshot :=
  n.incomingSnapshot.filter fun incoming =>
    incoming.complete && decide (incoming.leaderTerm = n.currentTerm) &&
      decide (n.leaderId = some incoming.leader)

def pendingSnapshot : Option Snapshot :=
  n.completeIncoming.map fun incoming => ⟨incoming.index, incoming.term, incoming.data⟩

/-- The log after installing a snapshot: the entries behind it stay when the
entry at its index is the one it ends with. -/
def logAfterInstall (index term : ℕ) : List LogEntry :=
  if n.termAt index = term then
    let remove := index - n.snapshotIndex
    if remove ≤ n.log.length then n.log.drop remove else []
  else []

/-- The received snapshot takes the place of the log it covers. -/
def installIncoming (incoming : IncomingSnapshot) : RaftNode :=
  { n with log := n.logAfterInstall incoming.index incoming.term,
           snapshot := some ⟨incoming.index, incoming.term, incoming.data⟩,
           commitIndex := max n.commitIndex incoming.index, lastApplied := incoming.index,
           durableLogLen := 0, snapshotDirty := true }

def finishSnapshotInstall (index : ℕ) : RaftNode × Except String Output :=
  match n.completeIncoming.filter fun incoming => decide (incoming.index = index) with
  | none => (n, .error "완료된 Raft 스냅샷 수신 상태가 없습니다")
  | some incoming =>
    match (n.installIncoming incoming).persist with
    | (n, false) =>
      (n, .error (n.persistError "Raft 스냅샷 설치 상태를 저장하지 못했습니다"))
    | (n, true) =>
      ({ n with incomingSnapshot := none },
        .ok (n.snapshotResponse incoming.leader incoming.index 0 true))

def handleInstallSnapshotResp (term lastIncludedIndex nextOffset : ℕ)
    (installed : Bool) : RaftNode × List Output :=
  if n.role ≠ .leader ∨ term ≠ n.currentTerm then (n, [])
  else
    match n.snapshot with
    | none => (n, [])
    | some snapshot =>
      if snapshot.index ≠ lastIncludedIndex then (n, [])
      else if installed then
        let n := { n with snapshotOffsets := removeKey n.snapshotOffsets sender }
        let bounded := max (min lastIncludedIndex n.lastIndex) ((n.matchIndex sender).getD 0)
        let n := n.recordProgress sender lastIncludedIndex
        if bounded < n.lastIndex then (n, [n.appendFor sender]) else (n, [])
      else
        let offset := if nextOffset ≤ snapshot.data.length then nextOffset else 0
        let n := { n with snapshotOffsets := insertKey n.snapshotOffsets sender offset }
        (n, [n.snapshotFor snapshot sender])

/-- The handler for each kind of message. -/
def dispatch : Msg → RaftNode × List Output
  | .requestVote term candidate lastLogIndex lastLogTerm =>
    n.handleRequestVote term candidate lastLogIndex lastLogTerm
  | .requestVoteResp term granted => n.handleVoteResp sender term granted
  | .appendEntries term leader prevLogIndex prevLogTerm entries leaderCommit =>
    n.handleAppend term leader prevLogIndex prevLogTerm entries leaderCommit
  | .appendEntriesResp term success matchIndex => n.handleAppendResp sender term success matchIndex
  | .installSnapshot term leader lastIncludedIndex lastIncludedTerm offset data done =>
    n.handleInstallSnapshot term leader lastIncludedIndex lastIncludedTerm offset data done
  | .installSnapshotResp term lastIncludedIndex nextOffset installed =>
    n.handleInstallSnapshotResp sender term lastIncludedIndex nextOffset installed

/-- A higher term makes any node a follower that has not voted. -/
def stepDown : RaftNode :=
  { n with currentTerm := term, role := .follower, votedFor := none, leaderId := none,
           incomingSnapshot := none }.resetElectionTimeout

/-- Entry point for a message from the authenticated `sender`. -/
def step (msg : Msg) : RaftNode × List Output :=
  if n.fatal.isSome ∨ sender ∉ n.peers then (n, [])
  else if msg.claimedSender.any (· != sender) then (n, [])
  else if n.currentTerm < msg.term then
    match (n.stepDown msg.term).persist with
    | (n, false) => (n, [])
    | (n, true) => n.dispatch sender msg
  else n.dispatch sender msg

def nextCommittedBatch (limit : ℕ) : List LogEntry :=
  if limit = 0 ∨ n.commitIndex ≤ n.lastApplied then []
  else
    let start := n.lastApplied - n.snapshotIndex
    let count := min (n.commitIndex - n.lastApplied) limit
    if start + count ≤ n.log.length then (n.log.drop start).take count else []

def markAppliedBatch (first last : ℕ) : RaftNode × Except String Unit :=
  if first ≠ satAdd n.lastApplied 1 ∨ last < first ∨ n.commitIndex < last then
    (n, .error "Raft applied index 순서 위반")
  else
    match ({ n with lastApplied := last } : RaftNode).persist with
    | (n, false) => (n, .error (n.persistError "Raft 상태를 디스크에 저장하지 못했습니다"))
    | (n, true) => (n, .ok ())

/-- Raises the boot counter above the clock `now` and writes it. -/
def nextBootSession (now : ℕ) : RaftNode × Except String ℕ :=
  match checkedAdd (max n.bootCounter now) 1 with
  | none => (n, .error "Raft 세션 카운터 계산 범위를 넘었습니다")
  | some next =>
    match ({ n with bootCounter := next } : RaftNode).persist with
    | (n, false) => (n, .error (n.persistError "Raft 세션 카운터를 디스크에 저장하지 못했습니다"))
    | (n, true) => (n, .ok next)

/-- The member list without this node, sorted and without repetitions. -/
def normalizedPeers (id : NodeId) (peers : List NodeId) : List NodeId :=
  ((peers.filter (· ≠ id)).insertionSort (· ≤ ·)).dedup

def fromStable (id : NodeId) (peers : List NodeId) (cfg : Config) (storage : Option Disk)
    (now : ℕ) (stable : StableState) : RaftNode :=
  resetElectionTimeout
    { id
      peers := normalizedPeers id peers
      role := .follower
      currentTerm := stable.currentTerm
      votedFor := stable.votedFor
      log := stable.log
      commitIndex := stable.commitIndex
      lastApplied := stable.lastApplied
      leaderId := none
      nextIndex := fun _ => none
      matchIndex := fun _ => none
      votes := ∅
      electionElapsed := 0
      heartbeatElapsed := 0
      electionTimeout := 0
      rngState := now ^^^ (((id <<< 17) ||| (id >>> 47)) % 2 ^ 64) ^^^ 0x9e3779b97f4a7c15
      cfg
      storage
      fatal := none
      bootCounter := stable.bootCounter
      snapshot := stable.snapshot
      incomingSnapshot := none
      snapshotOffsets := fun _ => none
      snapshotDirty := false
      durableLogLen := 0
      baseDigest := none
      walLen := 0
      walFile := false }

def newPersistent (id : NodeId) (peers : List NodeId) (cfg : Config) (disk : Disk) (now : ℕ) :
    RaftNode :=
  let loaded := disk.load
  { fromStable id peers cfg (some disk) now loaded.state with
    durableLogLen := loaded.state.log.length
    baseDigest := loaded.baseDigest
    walLen := loaded.walLen }

end RaftNode

end OnetDns.Raft
