import OnetDns.Lib.BigEndian
import OnetDns.Cluster.Types

/-!
# State file and write-ahead log formats

`encode_state`, `decode_state`, `encode_wal_frame`, `apply_wal_frame`,
`load_wal` and `load_state`. The cursor `pos` into a buffer is the list of
bytes that are still unread. SHA-256 comes from a third-party crate and is the
parameter `sha256`, taken of what the definitions ending in `Body` produce.
-/
namespace OnetDns.Raft
open BigEndian

def stateMagic : Bytes := [0x4f, 0x4e, 0x45, 0x54, 0x52, 0x41, 0x46, 0x54, 0x00, 0x00, 0x00, 0x01]

def walMagic : Bytes := [0x4f, 0x4e, 0x45, 0x54, 0x52, 0x41, 0x46, 0x54, 0x57, 0x41, 0x4c, 0x31]

def encodeVote : Option NodeId → Bytes
  | some id => 1 :: encode 8 id
  | none => 0 :: encode 8 0

def encodeEntry (entry : LogEntry) : Bytes :=
  encode 8 entry.term ++ encode 8 entry.index ++ encode 4 entry.data.length ++ entry.data

/-- The entry loop of `encode_state`, with the size test after every entry. -/
def encodeStateLog (out : Bytes) (expected : ℕ) : List LogEntry → Except String Bytes
  | [] => .ok out
  | entry :: rest =>
    if entry.index ≠ expected ∨ maxEntryBytes < entry.data.length then
      .error "Raft log index 또는 항목 크기가 올바르지 않습니다"
    else
      let out := out ++ encodeEntry entry
      if maxStateBytes - 32 < out.length then
        .error "Raft 상태 파일이 허용 크기를 넘었습니다"
      else encodeStateLog out (expected + 1) rest

variable (state : StableState)

def encodeStateHeader : Bytes :=
  let snapshotData := state.snapshot.elim [] (·.data)
  stateMagic ++ encode 8 state.currentTerm ++ encodeVote state.votedFor ++
    encode 8 state.commitIndex ++ encode 8 state.lastApplied ++ encode 8 state.bootCounter ++
    encode 8 state.snapshotIndex ++ encode 8 (state.snapshot.elim 0 (·.term)) ++
    encode 4 snapshotData.length ++ snapshotData ++ encode 4 state.log.length

/-- Everything of `encode_state` before the digest. -/
def encodeStateBody : Except String Bytes :=
  let snapshotIndex := state.snapshotIndex
  let snapshotTerm := state.snapshot.elim 0 (·.term)
  let snapshotData := state.snapshot.elim [] (·.data)
  match checkedAdd snapshotIndex state.log.length with
  | none => .error "Raft 영구 상태의 로그 위치가 범위를 넘었습니다"
  | some lastIndex =>
    if maxLogEntries < state.log.length ∨ lastIndex < state.commitIndex ∨
        state.lastApplied < snapshotIndex ∨ maxSnapshotBytes < snapshotData.length ∨
        decide (snapshotIndex = 0) ≠ snapshotData.isEmpty ∨
        decide (snapshotIndex = 0) ≠ decide (snapshotTerm = 0) then
      .error "Raft 영구 상태의 값 범위가 올바르지 않습니다"
    else if state.commitIndex < state.lastApplied then
      .error "Raft에서 마지막으로 적용한 로그 위치가 확정된 로그 위치보다 큽니다"
    else encodeStateLog (encodeStateHeader state) (snapshotIndex + 1) state.log

/-- The entry loop of `encode_wal_frame`. -/
def encodeWalEntries (expected : ℕ) : List LogEntry → Except String Bytes
  | [] => .ok []
  | entry :: rest =>
    if entry.index ≠ expected ∨ maxEntryBytes < entry.data.length then
      .error "Raft WAL 항목 index/크기가 올바르지 않습니다"
    else
      match encodeWalEntries (expected + 1) rest with
      | .error error => .error error
      | .ok out => .ok (encodeEntry entry ++ out)

def encodeWalHeader (truncateTo : ℕ) : Bytes :=
  encode 8 state.currentTerm ++ encodeVote state.votedFor ++ encode 8 state.commitIndex ++
    encode 8 state.lastApplied ++ encode 8 state.bootCounter ++ encode 8 truncateTo ++
    encode 4 (state.log.drop truncateTo).length

/-- The body of a WAL frame: the scalars and every entry from `truncateTo` on. -/
def encodeWalBody (truncateTo : ℕ) : Except String Bytes :=
  if state.log.length < truncateTo ∨ maxLogEntries < state.log.length then
    .error "Raft WAL 프레임 범위가 올바르지 않습니다"
  else
    match encodeWalEntries (state.snapshotIndex + truncateTo + 1) (state.log.drop truncateTo) with
    | .error error => .error error
    | .ok entries => .ok (encodeWalHeader state truncateTo ++ entries)

/-- Bytes a frame with this body takes in the file: length, body and digest. -/
def frameLen (body : Bytes) : ℕ := 4 + body.length + 32

def takeU64 (bytes : Bytes) : Except String (ℕ × Bytes) :=
  match read 8 bytes with
  | some result => .ok result
  | none => .error "Raft 상태 데이터가 중간에서 잘렸습니다"

def takeU32 (bytes : Bytes) : Except String (ℕ × Bytes) :=
  match read 4 bytes with
  | some result => .ok result
  | none => .error "Raft 상태 데이터가 중간에서 잘렸습니다"

/-- Flag byte and id of a vote, with the two errors of the caller. -/
def takeVote (missing invalid : String) (bytes : Bytes) : Except String (Option NodeId × Bytes) :=
  match bytes with
  | [] => .error missing
  | flag :: rest => do
    let (id, rest) ← takeU64 rest
    if flag = 0 then pure (none, rest)
    else if flag = 1 then pure (some id, rest)
    else throw invalid

/-- One entry at the expected index, with the two errors of the caller. -/
def takeEntry (invalid truncated : String) (expected : ℕ) (bytes : Bytes) :
    Except String (LogEntry × Bytes) := do
  let (term, bytes) ← takeU64 bytes
  let (index, bytes) ← takeU64 bytes
  let (len, bytes) ← takeU32 bytes
  if index ≠ expected ∨ maxEntryBytes < len then throw invalid
  else
    match take len bytes with
    | none => throw truncated
    | some (data, bytes) => pure (⟨term, index, data⟩, bytes)

/-- `count` entries in a row. -/
def takeEntries (invalid truncated : String) :
    (count expected : ℕ) → Bytes → Except String (List LogEntry × Bytes)
  | 0, _, bytes => pure ([], bytes)
  | count + 1, expected, bytes => do
    let (entry, bytes) ← takeEntry invalid truncated expected bytes
    let (rest, bytes) ← takeEntries invalid truncated count (expected + 1) bytes
    pure (entry :: rest, bytes)

/-- `decode_state` after its length, digest and magic tests. -/
def decodeStateFields (body : Bytes) : Except String StableState := do
  let (currentTerm, body) ← takeU64 body
  let (votedFor, body) ← takeVote "Raft 투표 상태 값이 빠져 있습니다"
    "Raft 투표 상태 값이 올바르지 않습니다" body
  let (commitIndex, body) ← takeU64 body
  let (lastApplied, body) ← takeU64 body
  let (bootCounter, body) ← takeU64 body
  let (snapshotIndex, body) ← takeU64 body
  let (snapshotTerm, body) ← takeU64 body
  let (snapshotLen, body) ← takeU32 body
  if maxSnapshotBytes < snapshotLen ∨ decide (snapshotIndex = 0) ≠ decide (snapshotLen = 0) ∨
      decide (snapshotIndex = 0) ≠ decide (snapshotTerm = 0) then
    throw "Raft 스냅샷 형식이 올바르지 않습니다"
  else
    match take snapshotLen body with
    | none => throw "Raft 스냅샷 데이터가 중간에서 잘렸습니다"
    | some (snapshotData, body) => do
      let (count, body) ← takeU32 body
      if maxLogEntries < count then throw "Raft 로그 항목이 허용 크기를 넘었습니다"
      else
        let (log, body) ← takeEntries "Raft log 형식이 올바르지 않습니다"
          "Raft 로그 데이터가 중간에서 잘렸습니다" count (snapshotIndex + 1) body
        match checkedAdd snapshotIndex count with
        | none => throw "Raft 로그 마지막 위치가 범위를 넘었습니다"
        | some lastIndex =>
          if body ≠ [] ∨ lastIndex < commitIndex ∨ commitIndex < lastApplied ∨
              lastApplied < snapshotIndex then
            throw "Raft 상태 파일에 불필요한 데이터가 있거나 값이 허용 범위를 벗어났습니다"
          else
            pure { currentTerm, votedFor, log, commitIndex, lastApplied, bootCounter,
                   snapshot := if snapshotIndex ≠ 0 then
                       some ⟨snapshotIndex, snapshotTerm, snapshotData⟩ else none }

/-- What `apply_wal_frame` may refuse before it touches the log. -/
def walFrameCheck (currentTerm : ℕ) (votedFor : Option NodeId)
    (commitIndex lastApplied bootCounter truncateTo count : ℕ) : Except String Unit :=
  if currentTerm < state.currentTerm ∨ commitIndex < state.commitIndex ∨
      lastApplied < state.lastApplied ∨ commitIndex < lastApplied ∨
      bootCounter < state.bootCounter then
    .error "Raft WAL 단조성 위반"
  else if currentTerm = state.currentTerm ∧ state.votedFor.isSome ∧ votedFor ≠ state.votedFor then
    .error "Raft WAL 동일 term 투표 변경"
  else if state.log.length < truncateTo ∨
      satAdd state.snapshotIndex truncateTo < state.commitIndex then
    .error "Raft WAL truncate 범위가 올바르지 않습니다"
  else
    match checkedAdd truncateTo count with
    | none => .error "Raft WAL 로그 길이 계산 범위를 넘었습니다"
    | some finalLen =>
      match checkedAdd state.snapshotIndex finalLen with
      | none => .error "Raft WAL 마지막 로그 위치가 범위를 넘었습니다"
      | some finalIndex =>
        if maxLogEntries < finalLen ∨ finalIndex < commitIndex ∨
            lastApplied < state.snapshotIndex then
          .error "Raft WAL 로그 범위가 올바르지 않습니다"
        else .ok ()

/-- Replays one frame over the state read so far. -/
def applyWalFrame (body : Bytes) : Except String StableState := do
  let (currentTerm, body) ← takeU64 body
  let (votedFor, body) ← takeVote "Raft WAL 투표 상태 값이 빠져 있습니다"
    "Raft 로그 파일의 투표 상태 값이 올바르지 않습니다" body
  let (commitIndex, body) ← takeU64 body
  let (lastApplied, body) ← takeU64 body
  let (bootCounter, body) ← takeU64 body
  let (truncateTo, body) ← takeU64 body
  let (count, body) ← takeU32 body
  walFrameCheck state currentTerm votedFor commitIndex lastApplied bootCounter truncateTo count
  let (entries, body) ← takeEntries "Raft WAL 항목 형식이 올바르지 않습니다"
    "Raft WAL 데이터가 중간에서 잘렸습니다" count (state.snapshotIndex + truncateTo + 1) body
  if body ≠ [] then throw "Raft 로그 파일 끝에 불필요한 데이터가 남아 있습니다"
  else
    pure { state with currentTerm, votedFor, commitIndex, lastApplied, bootCounter,
                      log := state.log.take truncateTo ++ entries }

section Hashed

variable (sha256 : Bytes → Bytes)

def encodeState (state : StableState) : Except String Bytes :=
  (encodeStateBody state).map fun body => body ++ sha256 body

def encodeWalFrame (state : StableState) (truncateTo : ℕ) : Except String Bytes :=
  (encodeWalBody state truncateTo).map fun body => encode 4 body.length ++ body ++ sha256 body

def decodeState (bytes : Bytes) : Except String StableState :=
  if bytes.length < stateMagic.length + 8 + 9 + 8 + 8 + 8 + 8 + 8 + 4 + 4 + 32 ∨
      maxStateBytes < bytes.length then
    .error "Raft 상태 파일의 크기가 올바르지 않습니다"
  else
    let body := bytes.take (bytes.length - 32)
    if sha256 body ≠ bytes.drop (bytes.length - 32) then
      .error "Raft 상태 파일의 검사합이 일치하지 않습니다"
    else if body.take stateMagic.length ≠ stateMagic then
      .error "Raft 상태 파일의 식별자 또는 버전이 현재 형식과 일치하지 않습니다"
    else decodeStateFields (body.drop stateMagic.length)

/-- The frame loop of `load_wal`. `valid` is the length of the prefix replayed
so far; every round consumes at least the four length bytes, so a fuel of the
number of unread bytes is never the reason to stop. -/
def loadFrames : (fuel : ℕ) → (bytes : Bytes) → (valid : ℕ) → StableState →
    Except String (StableState × ℕ)
  | 0, _, valid, state => .ok (state, valid)
  | fuel + 1, bytes, valid, state =>
    if bytes = [] then .ok (state, valid)
    else
      match read 4 bytes with
      | none => .ok (state, valid)
      | some (bodyLen, bytes) =>
        if bodyLen < minWalFrameBody ∨ maxWalBytes < bodyLen then
          .error "Raft WAL 프레임 길이가 올바르지 않습니다"
        else
          match take bodyLen bytes with
          | none => .ok (state, valid)
          | some (body, bytes) =>
            match take 32 bytes with
            | none => .ok (state, valid)
            | some (digest, bytes) =>
              if sha256 body ≠ digest then
                if bytes ≠ [] then
                  .error "Raft WAL 중간 프레임의 검사합이 일치하지 않습니다"
                else .ok (state, valid)
              else
                match applyWalFrame state body with
                | .error error => .error error
                | .ok state => loadFrames fuel bytes (valid + frameLen body) state

/-- `load_wal` on the contents of the file, `none` when there is no file. -/
def loadWal (wal : Option Bytes) (baseDigest : Bytes) (state : StableState) :
    Except String (StableState × ℕ) :=
  match wal with
  | none => .ok (state, 0)
  | some bytes =>
    if maxWalBytes < bytes.length then .error "Raft WAL 파일이 너무 큽니다"
    else if bytes.length < walHeaderLen ∨ bytes.take walMagic.length ≠ walMagic then
      .error "Raft WAL 헤더 손상"
    else if (bytes.take walHeaderLen).drop walMagic.length ≠ baseDigest then .ok (state, 0)
    else loadFrames sha256 bytes.length (bytes.drop walHeaderLen) walHeaderLen state

/-- The files at the storage path: the state file and its WAL. -/
structure Files where
  base : Option Bytes
  wal : Option Bytes

/-- What loading finds: the state, the digest the WAL has to name, its valid length. -/
structure LoadedFiles where
  state : StableState
  baseDigest : Option Bytes
  walLen : ℕ

def loadState (files : Files) : Except String LoadedFiles :=
  match files.base with
  | none => .ok ⟨{}, none, 0⟩
  | some bytes =>
    if maxStateBytes < bytes.length then .error "Raft 상태 파일이 허용 크기를 넘었습니다"
    else
      match decodeState sha256 bytes with
      | .error error => .error error
      | .ok state =>
        let baseDigest := bytes.drop (bytes.length - 32)
        match loadWal sha256 files.wal baseDigest state with
        | .error error => .error error
        | .ok (state, walLen) => .ok ⟨state, some baseDigest, walLen⟩

/-- The header `reset_wal` writes. -/
def walHeader (baseDigest : Bytes) : Bytes := walMagic ++ baseDigest

end Hashed

end OnetDns.Raft
