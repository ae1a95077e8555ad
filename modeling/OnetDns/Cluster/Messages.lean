import OnetDns.Cluster.Roundtrip
import OnetDns.Cluster.Safety
import OnetDns.Lib.PrefixCode

/-!
# Messages on the wire

`try_encode_msg` and `decode_msg` of `onetdns-cluster/src/transport.rs`. The cursor `pos` is the list of
bytes that are still unread.
-/
namespace OnetDns.Raft
open BigEndian hiding take
open List hiding count take
open PrefixCode

def maxRaftFrame : ℕ := 1024 * 1024
def maxRaftEntries : ℕ := 4096
def maxRaftEntryBytes : ℕ := 256 * 1024

def encodeEntries (out : Bytes) : List LogEntry → Option Bytes
  | [] => some out
  | entry :: rest =>
    if maxRaftEntryBytes < entry.data.length then none
    else
      let out := out ++ encodeEntry entry
      if maxRaftFrame - 64 < out.length then none else encodeEntries out rest

def tryEncodeMsg : Msg → Option Bytes
  | .requestVote term candidate lastLogIndex lastLogTerm =>
    some (1 :: [term, candidate, lastLogIndex, lastLogTerm].flatMap (encode 8))
  | .requestVoteResp term granted => some (2 :: (encode 8 term ++ [granted.toUInt8]))
  | .appendEntries term leader prevLogIndex prevLogTerm entries leaderCommit =>
    if maxRaftEntries < entries.length then none
    else encodeEntries (3 :: ([term, leader, prevLogIndex, prevLogTerm, leaderCommit].flatMap (encode 8)
      ++ encode 4 entries.length)) entries
  | .appendEntriesResp term success matchIndex =>
    some (4 :: (encode 8 term ++ success.toUInt8 :: encode 8 matchIndex))
  | .installSnapshot term leader lastIndex lastTerm offset data done =>
    if snapshotChunkBytes < data.length then none
    else some (5 :: ([term, leader, lastIndex, lastTerm, offset].flatMap (encode 8) ++
      done.toUInt8 :: (encode 4 data.length ++ data)))
  | .installSnapshotResp term lastIndex nextOffset installed =>
    some (6 :: ([term, lastIndex, nextOffset].flatMap (encode 8) ++ [installed.toUInt8]))

def getU64 : Parser UInt8 ℕ := read 8

def getU32 : Parser UInt8 ℕ := read 4

def getBool : Parser UInt8 Bool := do
  match ← item with
  | 0 => return false
  | 1 => return true
  | _ => fail

def getEntries : (count expected : ℕ) → Parser UInt8 (List LogEntry)
  | 0, _ => return []
  | n + 1, expected => do
    let term ← getU64
    let index ← getU64
    let len ← getU32
    PrefixCode.guard (len ≤ maxRaftEntryBytes ∧ index = expected)
    let next ← checkedAdd expected 1
    let data ← take len
    return ⟨term, index, data⟩ :: (← getEntries n next)

/-- What stands behind the tag. -/
def getMsg : UInt8 → Parser UInt8 Msg
  | 1 => return .requestVote (← getU64) (← getU64) (← getU64) (← getU64)
  | 2 => return .requestVoteResp (← getU64) (← getBool)
  | 3 => do
    let (term, leader, prevLogIndex, prevLogTerm, leaderCommit) :=
      (← getU64, ← getU64, ← getU64, ← getU64, ← getU64)
    let count ← getU32
    PrefixCode.guard (count ≤ maxRaftEntries ∧ count ≤ (← get).length / 20)
    let entries ← getEntries count (← checkedAdd prevLogIndex 1)
    return .appendEntries term leader prevLogIndex prevLogTerm entries leaderCommit
  | 4 => return .appendEntriesResp (← getU64) (← getBool) (← getU64)
  | 5 => do
    let (term, leader, lastIndex, lastTerm, offset) :=
      (← getU64, ← getU64, ← getU64, ← getU64, ← getU64)
    let done ← getBool
    let len ← getU32
    PrefixCode.guard (len ≤ snapshotChunkBytes)
    return .installSnapshot term leader lastIndex lastTerm offset (← take len) done
  | 6 => return .installSnapshotResp (← getU64) (← getU64) (← getU64) (← getBool)
  | _ => fail

def decodeMsg (bytes : Bytes) : Option Msg :=
  if maxRaftFrame < bytes.length then none
  else do
    let (message, rest) ← (item >>= getMsg) bytes
    if rest = [] then message else none

def Msg.numbers : Msg → List ℕ
  | .requestVote term candidate lastLogIndex lastLogTerm => [term, candidate, lastLogIndex, lastLogTerm]
  | .requestVoteResp term _ => [term]
  | .appendEntries term leader prevLogIndex prevLogTerm entries leaderCommit =>
    [term, leader, prevLogIndex, prevLogTerm, leaderCommit, prevLogIndex + 1 + entries.length] ++
      entries.map (·.term)
  | .appendEntriesResp term _ matchIndex => [term, matchIndex]
  | .installSnapshot term leader lastIndex lastTerm offset _ _ =>
    [term, leader, lastIndex, lastTerm, offset]
  | .installSnapshotResp term lastIndex nextOffset _ => [term, lastIndex, nextOffset]

/-- The numbers fit their types, and entries are numbered one by one. -/
def Msg.Numbered (m : Msg) : Prop :=
  (∀ n ∈ m.numbers, n ≤ u64Max) ∧ ∀ term leader prev prevTerm entries commit,
    m = .appendEntries term leader prev prevTerm entries commit →
      ∀ k e, entries[k]? = some e → e.index = prev + 1 + k

variable {n expected : ℕ} {entries : List LogEntry} {b : Bytes}

lemma reads_u64 (h : n ≤ u64Max) : Reads getU64 (encode 8 n) n :=
  read_encode (lt_of_le_of_lt h (by norm_num [u64Max]))

lemma reads_u32 (h : n ≤ u32Max) : Reads getU32 (encode 4 n) n :=
  read_encode (lt_of_le_of_lt h (by norm_num [u32Max]))

lemma reads_bool (flag : Bool) : Reads getBool [flag.toUInt8] flag := by
  cases flag <;> exact fun _ => rfl

lemma reads_checked (h : n + 1 ≤ u64Max) : Reads (liftM (checkedAdd n 1)) ([] : Bytes) (n + 1) := by
  rw [checkedAdd, if_pos h]
  exact fun _ => rfl

lemma reads_entries (h : EntriesOk expected entries) (hlast : expected + entries.length ≤ u64Max) :
    Reads (getEntries entries.length expected) (entries.flatMap encodeEntry) entries := by
  induction entries generalizing expected with
  | nil => exact reads_pure []
  | cons e entries ih =>
    obtain ⟨he, hrest⟩ := h
    rw [length_cons] at hlast
    rw [flatMap_cons, encodeEntry, append_assoc, append_assoc, append_assoc]
    refine (reads_u64 he.term).bind ((reads_u64 he.index_le).bind
      ((reads_u32 (he.data.trans maxEntryBytes_le)).bind ?_))
    exact (reads_guard ⟨he.data, he.index⟩).bind ((reads_checked (by omega)).bind
      ((reads_take rfl).bind ((ih hrest (by omega)).last rfl)))

lemma encodeEntries_eq {out : Bytes} (h : encodeEntries out entries = some b) :
    b = out ++ entries.flatMap encodeEntry ∧ (∀ e ∈ entries, e.data.length ≤ maxRaftEntryBytes) ∧
      b.length ≤ max out.length (maxRaftFrame - 64) := by
  induction entries generalizing out with
  | nil =>
    cases h
    simp
  | cons e entries ih =>
    rw [encodeEntries] at h
    split_ifs at h with hdata
    dsimp only at h
    split_ifs at h with hout
    obtain ⟨rfl, hall, hlen⟩ := ih h
    refine ⟨by simp, forall_mem_cons.mpr ⟨not_lt.mp hdata, hall⟩, ?_⟩
    omega

lemma entries_length (entries : List LogEntry) : 20 * entries.length ≤ (entries.flatMap encodeEntry).length := by
  induction entries with
  | nil => simp
  | cons e entries ih =>
    rw [flatMap_cons, length_append, length_cons, encodeEntry]
    simp only [length_append, encode_length]
    omega

theorem Msg.Numbered.reads {m : Msg} (h : m.Numbered) (he : tryEncodeMsg m = some b) :
    b.length ≤ maxRaftFrame ∧ Reads (item >>= getMsg) b m := by
  obtain ⟨hn, hi⟩ := h
  cases m with
  | requestVote =>
    cases he
    simp only [numbers, forall_mem_cons] at hn
    refine ⟨by simp [maxRaftFrame], (reads_item 1).bind ?_⟩
    exact (reads_u64 hn.1).bind ((reads_u64 hn.2.1).bind ((reads_u64 hn.2.2.1).bind
      ((reads_u64 hn.2.2.2.1).bind (reads_pure _))))
  | requestVoteResp =>
    cases he
    refine ⟨by simp [maxRaftFrame], (reads_item 2).bind ?_⟩
    exact (reads_u64 (hn _ mem_cons_self)).bind ((reads_bool _).last rfl)
  | appendEntries term leader prev prevTerm entries commit =>
    rw [tryEncodeMsg] at he
    split_ifs at he with hcount
    obtain ⟨rfl, hdata, hlen⟩ := encodeEntries_eq he
    simp only [numbers, cons_append, forall_mem_cons, nil_append] at hn
    obtain ⟨ht, hl, hp, hpt, hc, hlast, hterms⟩ := hn
    have hok : EntriesOk (prev + 1) entries := entriesOk_of_index (hi _ _ _ _ _ _ rfl)
      (by simpa using hterms) hdata (by omega)
    refine ⟨hlen.trans (by simp [maxRaftFrame]), (reads_item 3).bind ?_⟩
    refine (reads_u64 ht).bind ((reads_u64 hl).bind ((reads_u64 hp).bind ((reads_u64 hpt).bind
      ((reads_u64 hc).bind ((reads_u32 ((not_lt.mp hcount).trans (by decide))).bind ?_)))))
    refine reads_get fun rest => (reads_guard ⟨not_lt.mp hcount, ?_⟩).bind ((reads_checked
      ((Nat.le_add_right _ _).trans hlast)).bind ((reads_entries hok hlast).last rfl))
    have := entries_length entries
    rw [length_append]
    omega
  | appendEntriesResp =>
    cases he
    simp only [numbers, forall_mem_cons] at hn
    refine ⟨by simp [maxRaftFrame], (reads_item 4).bind ?_⟩
    exact (reads_u64 hn.1).bind ((reads_bool _).bind ((reads_u64 hn.2.1).last rfl))
  | installSnapshot _ _ _ _ _ data =>
    rw [tryEncodeMsg] at he
    split_ifs at he with hdata
    cases he
    simp only [numbers, forall_mem_cons] at hn
    refine ⟨?_, (reads_item 5).bind ?_⟩
    · simp [maxRaftFrame, snapshotChunkBytes] at hdata ⊢
      omega
    · exact (reads_u64 hn.1).bind ((reads_u64 hn.2.1).bind ((reads_u64 hn.2.2.1).bind
        ((reads_u64 hn.2.2.2.1).bind ((reads_u64 hn.2.2.2.2.1).bind ((reads_bool _).bind
        ((reads_u32 ((not_lt.mp hdata).trans (by decide))).bind ((reads_guard (not_lt.mp hdata)).bind
        ((reads_take rfl).last rfl))))))))
  | installSnapshotResp =>
    cases he
    simp only [numbers, forall_mem_cons] at hn
    refine ⟨by simp [maxRaftFrame], (reads_item 6).bind ?_⟩
    exact (reads_u64 hn.1).bind ((reads_u64 hn.2.1).bind ((reads_u64 hn.2.2.1).bind
      ((reads_bool _).last rfl)))

/-- A numbered message is read back, and the messages of members are numbered as long as their numbers
fit. -/
theorem messages_read_back :
    (∀ m b, m.Numbered → tryEncodeMsg m = some b → decodeMsg b = some m) ∧
    ∀ members cfg now actions, ∀ p ∈ ((Cluster.start members cfg now).run actions).sent,
      p.sender ∈ members → (∀ n ∈ p.msg.numbers, n ≤ u64Max) → p.msg.Numbered := by
  constructor
  · intro m b h he
    obtain ⟨hlen, hreads⟩ := h.reads he
    have hread := hreads []
    rw [append_nil] at hread
    rw [decodeMsg, if_neg (not_lt.mpr hlen), hread]
    rfl
  · intro members cfg now actions p hp hsender hn
    obtain ⟨s, -, h, -, -⟩ := run_rel False members cfg now actions [] nofun
    have hrel := h.packets p hp (mem_toFinset.mpr hsender)
    refine ⟨hn, fun term leader prev prevTerm entries commit hm k e he => ?_⟩
    rw [hm] at hrel
    have := (hrel.entry_at he).1
    omega

theorem messages_read_back_trio :
    ∃ b, tryEncodeMsg (noOpTo 2).msg = some b ∧ decodeMsg b = some (noOpTo 2).msg := by
  have hnumbered := messages_read_back.2 [1, 2, 3] (fun _ => ⟨2, 1⟩) (fun _ => 7) sendBoth (noOpTo 2)
    (by decide +kernel) (by decide) (by decide)
  exact ⟨_, rfl, messages_read_back.1 _ _ hnumbered rfl⟩

end OnetDns.Raft
