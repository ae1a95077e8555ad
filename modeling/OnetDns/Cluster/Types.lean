import Mathlib.Data.Finset.Card
import Mathlib.Data.List.Dedup
import Mathlib.Data.List.Sort
import Mathlib.Tactic

/-!
# Data model of the Raft state machine

The record and message types of `onetdns-cluster/src/raft.rs`, with the size
limits of that file. A `u64` or `usize` is a natural number, and the operations
whose overflow behaviour the source spells out (`checked_add`,
`saturating_add`) keep it. A `HashMap<NodeId, u64>` is a partial function, a
`HashSet<NodeId>` a finite set, a `Vec<u8>` a list of bytes.
-/
namespace OnetDns.Raft

abbrev NodeId := ℕ
abbrev Bytes := List UInt8

def u64Max : ℕ := 2 ^ 64 - 1
def u32Max : ℕ := 2 ^ 32 - 1

def checkedAdd (a b : ℕ) : Option ℕ := if a + b ≤ u64Max then some (a + b) else none

/-- `u64::saturating_add`. -/
def satAdd (a b : ℕ) : ℕ := min (a + b) u64Max

lemma checkedAdd_eq_some {a b c : ℕ} (h : checkedAdd a b = some c) :
    c = a + b ∧ a + b ≤ u64Max := by
  unfold checkedAdd at h
  split at h
  · exact ⟨(Option.some.inj h).symm, by assumption⟩
  · cases h

lemma satAdd_of_le {a b : ℕ} (h : a + b ≤ u64Max) : satAdd a b = a + b := min_eq_left h

lemma one_lt_u64Max : 1 < u64Max := by norm_num [u64Max]

lemma one_lt_satAdd {a : ℕ} (h : 0 < a) : 1 < satAdd a 1 :=
  lt_min (Nat.succ_lt_succ h) one_lt_u64Max

lemma le_satAdd {a : ℕ} (h : a ≤ u64Max) : a ≤ satAdd a 1 := le_min (Nat.le_succ a) h

lemma satAdd_le_add (a b : ℕ) : satAdd a b ≤ a + b := min_le_left _ _

/-- Header of the write-ahead log: 12 bytes of magic and a 32 byte digest. -/
def walHeaderLen : ℕ := 12 + 32
def minWalFrameBody : ℕ := 8 + 1 + 8 + 8 + 8 + 8 + 8 + 4
def maxWalBytes : ℕ := 4 * 1024 * 1024
def maxStateBytes : ℕ := 64 * 1024 * 1024
def maxLogEntries : ℕ := 100000
def snapshotChunkBytes : ℕ := 256 * 1024
def maxSnapshotBytes : ℕ := 2 * 1024 * 1024
def maxEntryBytes : ℕ := 256 * 1024
def maxAppendEntries : ℕ := 256
def maxAppendBytes : ℕ := 512 * 1024

inductive Role where
  | follower
  | candidate
  | leader
  deriving DecidableEq

/-- One entry of the replicated log. An empty `data` is a leader's no-op. -/
structure LogEntry where
  term : ℕ
  index : ℕ
  data : Bytes
  deriving DecidableEq

/-- The state after every entry up to `index`, folded into `data`. -/
structure Snapshot where
  index : ℕ
  term : ℕ
  data : Bytes
  deriving DecidableEq

inductive Msg where
  | requestVote (term : ℕ) (candidate : NodeId) (lastLogIndex lastLogTerm : ℕ)
  | requestVoteResp (term : ℕ) (granted : Bool)
  | appendEntries (term : ℕ) (leader : NodeId) (prevLogIndex prevLogTerm : ℕ)
      (entries : List LogEntry) (leaderCommit : ℕ)
  | appendEntriesResp (term : ℕ) (success : Bool) (matchIndex : ℕ)
  | installSnapshot (term : ℕ) (leader : NodeId) (lastIncludedIndex lastIncludedTerm : ℕ)
      (offset : ℕ) (data : Bytes) (done : Bool)
  | installSnapshotResp (term : ℕ) (lastIncludedIndex nextOffset : ℕ) (installed : Bool)
  deriving DecidableEq

namespace Msg

/-- The term every message carries. -/
def term : Msg → ℕ
  | requestVote t _ _ _ => t
  | requestVoteResp t _ => t
  | appendEntries t _ _ _ _ _ => t
  | appendEntriesResp t _ _ => t
  | installSnapshot t _ _ _ _ _ _ => t
  | installSnapshotResp t _ _ _ => t

/-- The sender a request names in its own body; responses name none. -/
def claimedSender : Msg → Option NodeId
  | requestVote _ candidate _ _ => some candidate
  | appendEntries _ leader _ _ _ _ => some leader
  | installSnapshot _ leader _ _ _ _ _ => some leader
  | _ => none

end Msg

/-- A message the state machine asks its transport to send. -/
structure Output where
  dest : NodeId
  msg : Msg

/-- Timing, counted in ticks. -/
structure Config where
  electionBase : ℕ := 10
  heartbeat : ℕ := 3

/-- What has to survive a restart. -/
structure StableState where
  currentTerm : ℕ := 0
  votedFor : Option NodeId := none
  log : List LogEntry := []
  commitIndex : ℕ := 0
  lastApplied : ℕ := 0
  bootCounter : ℕ := 0
  snapshot : Option Snapshot := none
  deriving DecidableEq

namespace StableState

/-- Last index folded into the snapshot, 0 without one. -/
def snapshotIndex (s : StableState) : ℕ := s.snapshot.elim 0 (·.index)

end StableState

/-- A snapshot being received in chunks, with the leader and term it comes from. -/
structure IncomingSnapshot where
  leader : NodeId
  leaderTerm : ℕ
  index : ℕ
  term : ℕ
  data : Bytes
  complete : Bool
  deriving DecidableEq

end OnetDns.Raft
