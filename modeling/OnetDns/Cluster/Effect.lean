import OnetDns.Cluster.SimCluster

/-!
# What an operation can do to a node

Every operation has one of six effects. Only folding and installing change the
snapshot, only applying and installing change the applied index, only a chunk
adds to a transfer, and only an election makes a leader. What holds of whole
runs of a single node is derived from this list.
-/
namespace OnetDns.Raft
open Consensus List Option

variable {n m k : RaftNode} {outs : List Output}

/-- A piece of a snapshot. -/
def Msg.isChunk : Msg → Bool
  | .installSnapshot .. => true
  | _ => false

/-- What no operation takes back. -/
structure Kept (n m : RaftNode) : Prop where
  ident : m.id = n.id
  peers : m.peers = n.peers
  cfg : m.cfg = n.cfg
  term : n.currentTerm ≤ m.currentTerm
  commit : n.commitIndex ≤ m.commitIndex
  fatal : n.fatal.isSome → m.fatal.isSome
  durable : n.durableLogLen ≤ n.log.length → m.durableLogLen ≤ m.log.length

/-- The snapshot and the applied index stay as well, and no transfer is added to. -/
structure Steady (n m : RaftNode) : Prop extends Kept n m where
  snapshot : m.snapshot = n.snapshot
  applied : m.lastApplied = n.lastApplied
  forgets : ∀ inc, m.incomingSnapshot = some inc → n.incomingSnapshot = some inc

/-- The offsets of the transfers lie inside the snapshot. -/
def OffsetsOk (n : RaftNode) : Prop :=
  ∀ u offset, n.snapshotOffsets u = some offset →
    ∃ snapshot, n.snapshot = some snapshot ∧ offset ≤ snapshot.data.length

/-- Steady, and a leader only if it was the leader of the same term before. -/
structure Quiet (n m : RaftNode) : Prop extends Steady n m where
  office : m.role = .leader → n.role = .leader ∧ m.currentTerm = n.currentTerm ∧
    (OffsetsOk n → OffsetsOk m)

open Quiet

/-- The pieces among the messages are pieces of a leader's own snapshot. -/
def SendsOwn (m : RaftNode) (outs : List Output) : Prop :=
  ∀ o ∈ outs, o.msg.isChunk = true →
    m.role = .leader ∧ ∃ snapshot peer, m.snapshot = some snapshot ∧ o = m.snapshotFor snapshot peer

/-- No pieces among the messages. -/
def Plain (outs : List Output) : Prop := ∀ o ∈ outs, o.msg.isChunk = false

/-- A candidate took office, or stopped while doing so. -/
structure Elected (n m : RaftNode) : Prop extends Steady n m where
  running : n.fatal = none
  stopped : m.role ≠ .leader → m.fatal.isSome
  before : (n.role = .candidate ∧ m.currentTerm = n.currentTerm) ∨ n.currentTerm < m.currentTerm
  cleared : m.role = .leader → m.snapshotOffsets = fun _ => none

/-- The content of an `InstallSnapshot` message. -/
structure Chunk where
  term : ℕ
  leader : NodeId
  index : ℕ
  snapTerm : ℕ
  offset : ℕ
  data : Bytes
  done : Bool

def Chunk.msg (c : Chunk) : Msg :=
  .installSnapshot c.term c.leader c.index c.snapTerm c.offset c.data c.done

/-- A transfer that a chunk may leave behind. -/
inductive Chunked (n : RaftNode) (c : Chunk) : IncomingSnapshot → Prop
  /-- the chunk changed nothing -/
  | old {inc : IncomingSnapshot} (h : n.incomingSnapshot = some inc) : Chunked n c inc
  /-- a new transfer that the chunk could not start -/
  | fresh : Chunked n c ⟨c.leader, c.term, c.index, c.snapTerm, [], false⟩
  | first (h : c.offset = 0) : Chunked n c ⟨c.leader, c.term, c.index, c.snapTerm, c.data, c.done⟩
  | more {held : Bytes} {complete : Bool}
      (h : n.incomingSnapshot = some ⟨c.leader, c.term, c.index, c.snapTerm, held, complete⟩)
      (hoffset : c.offset = held.length) :
      Chunked n c ⟨c.leader, c.term, c.index, c.snapTerm, held ++ c.data, c.done⟩

/-- A chunk was handled. -/
structure Received (n m : RaftNode) (c : Chunk) : Prop extends Kept n m where
  snapshot : m.snapshot = n.snapshot
  applied : m.lastApplied = n.lastApplied
  role : m.role = .follower
  peer : c.leader ∈ n.peers
  chunked : ∀ inc, m.incomingSnapshot = some inc → Chunked n c inc

/-- The applied prefix was folded. -/
structure Folded (n m : RaftNode) (data : Bytes) : Prop extends Kept n m where
  term_eq : m.currentTerm = n.currentTerm
  applied : m.lastApplied = n.lastApplied
  commit_eq : m.commitIndex = n.commitIndex
  forgets : ∀ inc, m.incomingSnapshot = some inc → n.incomingSnapshot = some inc
  behind : n.snapshotIndex < n.lastApplied
  snapshot : m.snapshot = some ⟨n.lastApplied, n.termAt n.lastApplied, data⟩
  office : m.role = .leader → n.role = .leader ∧ m.snapshotOffsets = fun _ => none

/-- A transfer was installed. -/
structure Installed (n m : RaftNode) (inc : IncomingSnapshot) : Prop extends Kept n m where
  complete : n.completeIncoming = some inc
  term_eq : m.currentTerm = n.currentTerm
  applied : m.lastApplied = inc.index
  snapshot : m.snapshot = some ⟨inc.index, inc.term, inc.data⟩
  commit_eq : m.commitIndex = max n.commitIndex inc.index
  forgets : ∀ inc, m.incomingSnapshot = some inc → n.incomingSnapshot = some inc
  role : m.role = .leader → n.role = .leader

/-- A batch was marked as applied. -/
structure Applied (n m : RaftNode) (first last : ℕ) : Prop extends Kept n m where
  term_eq : m.currentTerm = n.currentTerm
  snapshot : m.snapshot = n.snapshot
  commit_eq : m.commitIndex = n.commitIndex
  forgets : ∀ inc, m.incomingSnapshot = some inc → n.incomingSnapshot = some inc
  next : first = satAdd n.lastApplied 1
  order : first ≤ last
  committed : last ≤ n.commitIndex
  applied : m.lastApplied = last
  office : m.role = .leader → n.role = .leader ∧ (OffsetsOk n → OffsetsOk m)

/-- The effects an input can have. -/
inductive Effect (n : RaftNode) (input : Input) (result : RaftNode × List Output) : Prop
  | quiet (h : Quiet n result.1) (sends : SendsOwn result.1 result.2)
  | elected (h : Elected n result.1) (sends : result.2 = result.1.broadcastAppend)
  | received (c : Chunk) (h : Received n result.1 c) (sends : Plain result.2)
      (origin : input = .message c.leader c.msg)
  | folded (data : Bytes) (h : Folded n result.1 data) (sends : result.2 = [])
      (origin : input = .call (.compact data))
  | installed (inc : IncomingSnapshot) (h : Installed n result.1 inc) (sends : Plain result.2)
      (origin : input = .call (.finishSnapshotInstall inc.index))
  | applied (first last : ℕ) (h : Applied n result.1 first last) (sends : result.2 = [])
      (origin : input = .call (.markAppliedBatch first last))

lemma Kept.refl (n : RaftNode) : Kept n n := ⟨rfl, rfl, rfl, le_rfl, le_rfl, id, id⟩

lemma Kept.trans (h : Kept n m) (h' : Kept m k) : Kept n k where
  ident := h'.ident.trans h.ident
  peers := h'.peers.trans h.peers
  cfg := h'.cfg.trans h.cfg
  term := h.term.trans h'.term
  commit := h.commit.trans h'.commit
  fatal hf := h'.fatal (h.fatal hf)
  durable hd := h'.durable (h.durable hd)

lemma Steady.refl (n : RaftNode) : Steady n n := ⟨.refl n, rfl, rfl, fun _ h => h⟩

lemma Steady.trans (h : Steady n m) (h' : Steady m k) : Steady n k where
  toKept := h.toKept.trans h'.toKept
  snapshot := h'.snapshot.trans h.snapshot
  applied := h'.applied.trans h.applied
  forgets inc hinc := h.forgets inc (h'.forgets inc hinc)

lemma Quiet.refl (n : RaftNode) : Quiet n n := ⟨.refl n, fun hr => ⟨hr, rfl, id⟩⟩

lemma Quiet.trans (h : Quiet n m) (h' : Quiet m k) : Quiet n k where
  toSteady := h.toSteady.trans h'.toSteady
  office hr := by
    obtain ⟨hm, ht, ho⟩ := h'.office hr
    obtain ⟨hn, ht', ho'⟩ := h.office hm
    exact ⟨hn, ht.trans ht', fun hok => ho (ho' hok)⟩

/-- Steady, and not a leader afterwards. -/
theorem Steady.quiet (h : Steady n m) (hr : m.role ≠ .leader) : Quiet n m :=
  ⟨h, fun hl => absurd hl hr⟩

/-- The fields that a change of log, role or progress leaves alone. -/
def RaftNode.frame (n : RaftNode) :=
  (n.id, n.peers, n.cfg, n.currentTerm, n.fatal, n.snapshot, n.lastApplied, n.incomingSnapshot,
    n.snapshotOffsets)

open RaftNode

lemma Quiet.of_frame (h : m.frame = n.frame) (hrole : m.role = .leader → n.role = .leader)
    (hcommit : n.commitIndex ≤ m.commitIndex)
    (hdurable : n.durableLogLen ≤ n.log.length → m.durableLogLen ≤ m.log.length) : Quiet n m := by
  simp only [frame, Prod.mk.injEq] at h
  obtain ⟨hid, hpeers, hcfg, hterm, hfatal, hsnap, happ, hinc, hoff⟩ := h
  refine ⟨⟨⟨hid, hpeers, hcfg, hterm.ge, hcommit, ?_, hdurable⟩, hsnap, happ, ?_⟩, ?_⟩
  · rw [hfatal]
    exact fun hf => hf
  · rw [hinc]
    exact fun _ hi => hi
  · refine fun hr => ⟨hrole hr, hterm, fun hok => ?_⟩
    rw [OffsetsOk, hoff, hsnap]
    exact hok

section

variable (n)

lemma Kept.failStop (error : String) : Kept n (n.failStop error) :=
  ⟨rfl, rfl, rfl, le_rfl, le_rfl, fun _ => rfl, id⟩

lemma Steady.failStop (error : String) : Steady n (n.failStop error) :=
  ⟨.failStop n error, rfl, rfl, fun _ h => h⟩

lemma Quiet.failStop (error : String) : Quiet n (n.failStop error) :=
  (Steady.failStop n error).quiet (by nofun)

lemma Quiet.withBooks {b : Books}
    (hb : b.durableLogLen = n.log.length ∨ b.durableLogLen = n.durableLogLen) :
    Quiet n (n.withBooks b) := by
  refine of_frame rfl (fun hr => hr) le_rfl fun hd => ?_
  change b.durableLogLen ≤ n.log.length
  omega

lemma persist_quiet :
    (∃ b, n.persist = (n.withBooks b, true) ∧ Quiet n (n.withBooks b)) ∨
    (∃ b error, n.persist = ((n.withBooks b).failStop error, false) ∧
      Quiet n ((n.withBooks b).failStop error)) := by
  obtain ⟨b, hb, hp | ⟨error, hp⟩⟩ := persist_eq n
  · exact .inl ⟨b, hp, withBooks n hb⟩
  · exact .inr ⟨b, error, hp, (withBooks n hb).trans (.failStop _ error)⟩

lemma advanceCommit_quiet (hlim : n.commitIndex ≤ u64Max) :
    Quiet n n.advanceCommit := by
  obtain ⟨index, heq, hindex⟩ := advanceCommit_eq n
  have hle : n.commitIndex ≤ index := by
    rcases hindex with rfl | ⟨hlow, _⟩
    · exact le_rfl
    · exact (le_satAdd hlim).trans hlow
  rw [heq]
  exact .of_frame rfl id hle id

end

lemma SendsOwn.of_plain (h : Plain outs) : SendsOwn m outs := by
  intro o ho hc
  rw [h o ho] at hc
  cases hc

lemma Effect.silent {input : Input} (h : Quiet n m) : Effect n input (m, []) := .quiet h nofun

lemma Effect.same {input : Input} : Effect n input (n, []) := .silent (.refl n)

lemma appendFor_chunk {peer : NodeId} (h : (n.appendFor peer).msg.isChunk = true) :
    ∃ snapshot, n.snapshot = some snapshot ∧ n.appendFor peer = n.snapshotFor snapshot peer := by
  unfold appendFor at h ⊢
  dsimp only at h ⊢
  split
  · rename_i snapshot hf
    exact ⟨snapshot, eq_some_of_filter_eq_some hf, rfl⟩
  · rename_i hf
    rw [hf] at h
    cases h

lemma sendsOwn_appendFor (hr : n.role = .leader) (peer : NodeId) :
    SendsOwn n [n.appendFor peer] := by
  intro o ho hc
  rw [mem_singleton] at ho
  subst ho
  obtain ⟨snapshot, hsnap, heq⟩ := appendFor_chunk hc
  exact ⟨hr, snapshot, peer, hsnap, heq⟩

lemma sendsOwn_broadcastAppend (hr : n.role = .leader) : SendsOwn n n.broadcastAppend := by
  intro o ho hc
  obtain ⟨peer, _, rfl⟩ := mem_map.mp ho
  exact sendsOwn_appendFor hr peer _ (mem_singleton.mpr rfl) hc

section

variable (n)

lemma becomeLeader_elected (hlim : n.commitIndex ≤ u64Max) :
    Steady n n.becomeLeader ∧ n.becomeLeader.currentTerm = n.currentTerm ∧
      (n.becomeLeader.role ≠ .leader → n.becomeLeader.fatal.isSome) ∧
      (n.becomeLeader.role = .leader → n.becomeLeader.snapshotOffsets = fun _ => none) := by
  unfold becomeLeader
  dsimp only
  split
  · exact ⟨⟨⟨rfl, rfl, rfl, le_rfl, le_rfl, fun _ => rfl, id⟩, rfl, rfl, fun _ h => h⟩, rfl,
      fun _ => rfl, by rintro ⟨⟩⟩
  split
  · exact ⟨⟨⟨rfl, rfl, rfl, le_rfl, le_rfl, fun _ => rfl, id⟩, rfl, rfl, fun _ h => h⟩, rfl,
      fun _ => rfl, by rintro ⟨⟩⟩
  rename_i noopIndex _
  set n₁ : RaftNode := { n with
    role := .leader, leaderId := some n.id, heartbeatElapsed := max n.cfg.heartbeat 1
    log := n.log ++ [⟨n.currentTerm, noopIndex, []⟩] }
  have hwrite : Steady n n₁ := by
    refine ⟨⟨rfl, rfl, rfl, le_rfl, le_rfl, id, fun hd => ?_⟩, rfl, rfl, fun _ h => h⟩
    change n.durableLogLen ≤ (n.log ++ _).length
    rw [length_append]
    omega
  have hcommit := advanceCommit_quiet n₁ hlim
  have hsame : n₁.advanceCommit.currentTerm = n.currentTerm ∧ n₁.advanceCommit.role = .leader := by
    obtain ⟨index, heq, _⟩ := advanceCommit_eq n₁
    rw [heq]
    exact ⟨rfl, rfl⟩
  rcases persist_quiet n₁.advanceCommit with ⟨b, hp, hq⟩ | ⟨b, error, hp, hq⟩
  · rw [hp]
    have hs := hwrite.trans (hcommit.toSteady.trans hq.toSteady)
    exact ⟨{ hs with }, hsame.1, fun hr => absurd hsame.2 hr, fun _ => rfl⟩
  · rw [hp]
    exact ⟨hwrite.trans (hcommit.toSteady.trans hq.toSteady), hsame.1, fun _ => rfl, by rintro ⟨⟩⟩

lemma startElection_effect (hrun : n.fatal = none) (hlim : n.commitIndex ≤ u64Max)
    (input : Input) : Effect n input n.startElection := by
  unfold startElection
  split
  · exact .silent (.failStop n _)
  rename_i nextTerm hnext
  obtain ⟨rfl, _⟩ := checkedAdd_eq_some hnext
  dsimp only
  set n₁ := resetElectionTimeout { n with
    currentTerm := n.currentTerm + 1, role := .candidate, votedFor := some n.id, leaderId := none,
    votes := {n.id} }
  have hstand : Steady n n₁ :=
    ⟨⟨rfl, rfl, rfl, Nat.le_succ _, le_rfl, id, id⟩, rfl, rfl, fun _ h => h⟩
  rcases persist_quiet n₁ with ⟨b, hp, hq⟩ | ⟨b, error, hp, hq⟩
  · rw [hp]
    dsimp only
    have hs := hstand.trans hq.toSteady
    split
    · obtain ⟨hsteady, hterm, hstop, hclear⟩ := becomeLeader_elected (n₁.withBooks b) hlim
      exact .elected ⟨hs.trans hsteady, hrun, hstop, .inr (hterm ▸ Nat.lt_succ_self _), hclear⟩ rfl
    · refine .quiet (hs.quiet (by rintro ⟨⟩)) (.of_plain fun o ho => ?_)
      obtain ⟨peer, _, rfl⟩ := mem_map.mp ho
      rfl
  · rw [hp]
    exact .silent ((hstand.trans hq.toSteady).quiet (by rintro ⟨⟩))

lemma handleVoteResp_effect (hrun : n.fatal = none) (hlim : n.commitIndex ≤ u64Max)
    (sender term : ℕ) (granted : Bool) (input : Input) : Effect n input (n.handleVoteResp sender term granted) := by
  unfold handleVoteResp
  split
  · exact .same
  rename_i hcond
  push Not at hcond
  split
  · dsimp only
    have hvote : Steady n { n with votes := insert sender n.votes } :=
      ⟨⟨rfl, rfl, rfl, le_rfl, le_rfl, id, id⟩, rfl, rfl, fun _ h => h⟩
    split
    · obtain ⟨hsteady, hterm, hstop, hclear⟩ :=
        becomeLeader_elected { n with votes := insert sender n.votes } hlim
      exact .elected ⟨hvote.trans hsteady, hrun, hstop, .inl ⟨hcond.1, hterm⟩, hclear⟩ rfl
    · exact .silent (hvote.quiet (by rw [hcond.1]; nofun))
  · exact .same

lemma handleRequestVote_effect (term candidate lastLogIndex lastLogTerm : ℕ)
    (input : Input) :
    Effect n input (n.handleRequestVote term candidate lastLogIndex lastLogTerm) := by
  unfold handleRequestVote
  split
  · have hvote : Quiet n (.resetElectionTimeout { n with votedFor := some candidate }) :=
      .of_frame rfl id le_rfl id
    rcases persist_quiet (.resetElectionTimeout { n with votedFor := some candidate }) with
      ⟨b, hp, hq⟩ | ⟨b, error, hp, hq⟩
    · rw [hp]
      exact .quiet (hvote.trans hq) (.of_plain (by simp [Plain, Msg.isChunk]))
    · rw [hp]
      exact .silent (hvote.trans hq)
  · exact .quiet (.refl n) (.of_plain (by simp [Plain, Msg.isChunk]))

lemma proposeBatch_quiet (hlim : n.commitIndex ≤ u64Max) (entries : List Bytes) :
    Quiet n (n.proposeBatch entries).1 := by
  unfold proposeBatch
  split
  · exact .refl n
  split
  · exact .refl n
  split
  · exact .refl n
  split
  · exact .refl n
  split
  · exact .refl n
  split
  · exact .refl n
  split
  · exact .refl n
  rename_i firstIndex _ _ _ _
  dsimp only
  set added := proposedEntries n.currentTerm firstIndex entries
  have hwrite : Quiet n { n with log := n.log ++ added } := by
    refine .of_frame rfl id le_rfl fun hd => ?_
    change n.durableLogLen ≤ (n.log ++ added).length
    rw [length_append]
    omega
  have hcommit := hwrite.trans (advanceCommit_quiet { n with log := n.log ++ added } hlim)
  rcases persist_quiet (.advanceCommit { n with log := n.log ++ added }) with
    ⟨b, hp, hq⟩ | ⟨b, error, hp, hq⟩
  · rw [hp]
    exact hcommit.trans hq
  · rw [hp]
    exact hcommit.trans hq

end

/-- Cutting the log off lowers the durable length with it. -/
theorem mergeEntries_durable (base commit : ℕ) (entries log : List LogEntry) (durable : ℕ)
    (changed : Bool) (h : durable ≤ log.length) :
    (mergeEntries base commit entries log durable changed).durableLogLen ≤
      (mergeEntries base commit entries log durable changed).log.length := by
  induction entries generalizing log durable changed with
  | nil => exact h
  | cons entry rest ih =>
    unfold mergeEntries
    split
    · exact h
    dsimp only
    split
    · split
      · split
        · exact h
        · refine ih _ _ _ ?_
          rw [length_append, length_take]
          omega
      · exact ih _ _ _ h
    · split
      · refine ih _ _ _ ?_
        rw [length_append]
        omega
      · exact h

lemma takeCommit_quiet (hle : n.commitIndex ≤ n.lastIndex) (leaderCommit : ℕ) :
    Quiet n (n.takeCommit leaderCommit) := by
  unfold takeCommit
  split
  · rename_i hlt
    exact .of_frame rfl id (le_min hlt.le hle) id
  · exact .refl n

lemma appendMerged_quiet (hle : n.commitIndex ≤ n.lastIndex) (leader lastNew : ℕ) (changed : Bool)
    (leaderCommit : ℕ) : Quiet n (n.appendMerged leader lastNew changed leaderCommit).1 ∧
      Plain (n.appendMerged leader lastNew changed leaderCommit).2 := by
  unfold appendMerged
  split
  · exact ⟨.failStop n _, nofun⟩
  dsimp only
  have hcommit := takeCommit_quiet hle leaderCommit
  split
  · rcases persist_quiet (n.takeCommit leaderCommit) with ⟨b, hp, hq⟩ | ⟨b, error, hp, hq⟩
    · rw [hp]
      exact ⟨hcommit.trans hq, by simp [Plain, appendResponse, Msg.isChunk]⟩
    · rw [hp]
      exact ⟨hcommit.trans hq, nofun⟩
  · exact ⟨hcommit, by simp [Plain, appendResponse, Msg.isChunk]⟩

section Append

variable {M : Finset NodeId} {strict : Prop} {s : History} {v : NodeId} {entries : List LogEntry}

variable {leader prev prevTerm leaderCommit : ℕ}

/-- A batch that goes through leaves the log at least as long as what is committed. -/
theorem CoreRel.commit_le_merged (hs : Sound M strict s) (h : CoreRel M strict s v n)
    (hmsg : AppendRel M strict s n.currentTerm leader prev prevTerm entries leaderCommit)
    (hprev : prev ≤ n.lastIndex) (hterm : n.termAt prev = prevTerm)
    (hcont : contiguous (satAdd prev 1) entries = true)
    (hdone : (mergeEntries n.snapshotIndex n.commitIndex entries n.log n.durableLogLen
      false).stop = .done) (durable : ℕ) :
    n.commitIndex ≤ lastIndex { n with
      log := (mergeEntries n.snapshotIndex n.commitIndex entries n.log n.durableLogLen false).log
      durableLogLen := durable } := by
  have hfull : FullLog (s.mem v).log n.snapshot n.log := h.mem.full
  rcases entries with _ | ⟨e, rest⟩
  · change n.commitIndex ≤ n.lastIndex
    rw [hfull.lastIndex_eq]
    exact h.mem.commit_le
  have hslice : Slice s n.currentTerm prev prevTerm (e :: rest) :=
    hmsg.content.resolve_right fun hc => by cases hc.2.2
  rcases (hslice.prefix_eq hs h hterm).2 with hz | ⟨hsnap, _⟩
  · rcases eq_zero_or_pos n.snapshotIndex with h0 | hpos
    · rcases hslice.merge_cases hs h hterm hprev (by omega) with hm | ⟨index, hm⟩
      · have hfull' : FullLog _ ({ n with
            durableLogLen := durable } : RaftNode).snapshot _ := hm.full
        rw [hfull'.lastIndex_eq]
        exact hm.commit_le
      · rw [hm] at hdone
        cases hdone
    -- such a batch is refused
    rw [contiguous, Bool.and_eq_true, decide_eq_true_eq] at hcont
    have hlow : e.index < satAdd n.snapshotIndex 1 := by
      rw [hcont.1, hz]
      exact one_lt_satAdd hpos
    rw [mergeEntries, if_pos hlow] at hdone
    cases hdone
  · rcases hslice.merge_cases hs h hterm hprev hsnap with hm | ⟨index, hm⟩
    · have hfull' : FullLog _ ({ n with
          durableLogLen := durable } : RaftNode).snapshot _ := hm.full
      rw [hfull'.lastIndex_eq]
      exact hm.commit_le
    · rw [hm] at hdone
      cases hdone

lemma CoreRel.appendAccepted_quiet (hs : Sound M strict s) (h : CoreRel M strict s v n)
    (hmsg : AppendRel M strict s n.currentTerm leader prev prevTerm entries leaderCommit) :
    Quiet n (n.appendAccepted leader prev prevTerm entries leaderCommit).1 ∧
      Plain (n.appendAccepted leader prev prevTerm entries leaderCommit).2 := by
  have hresp : ∀ (m : RaftNode) success index, Plain [m.appendResponse leader success index] := by
    simp [Plain, appendResponse, Msg.isChunk]
  unfold appendAccepted
  split
  · exact ⟨.refl n, hresp _ _ _⟩
  rename_i hfit
  push Not at hfit
  split
  · exact ⟨.refl n, hresp _ _ _⟩
  rename_i hcont
  rw [Bool.not_eq_false] at hcont
  dsimp only
  set merge := mergeEntries n.snapshotIndex n.commitIndex entries n.log n.durableLogLen false
  have hq : Quiet n { n with log := merge.log, durableLogLen := merge.durableLogLen } :=
    .of_frame rfl (fun hr => hr) le_rfl fun hd => mergeEntries_durable _ _ _ _ _ _ hd
  split
  · exact ⟨hq, hresp _ _ _⟩
  · exact ⟨hq.trans (.failStop _ _), nofun⟩
  rename_i hdone
  have hle := h.commit_le_merged hs hmsg hfit.1 hfit.2 hcont hdone merge.durableLogLen
  obtain ⟨hq', hplain⟩ := appendMerged_quiet
    (n := { n with log := merge.log, durableLogLen := merge.durableLogLen }) hle leader
    (entries.getLast?.elim prev (·.index)) merge.changed leaderCommit
  exact ⟨hq.trans hq', hplain⟩

lemma CoreRel.handleAppend_effect (hs : Sound M strict s) (h : CoreRel M strict s v n) {term : ℕ}
    (hmsg : AppendRel M strict s term leader prev prevTerm entries leaderCommit) (input : Input) :
    Effect n input (n.handleAppend term leader prev prevTerm entries leaderCommit) := by
  have hresp : SendsOwn n [n.appendResponse leader false n.lastIndex] :=
    .of_plain (by simp [Plain, appendResponse, Msg.isChunk])
  unfold handleAppend
  split
  · exact .quiet (.refl n) hresp
  split
  · exact .quiet (.refl n) hresp
  rename_i hcond
  push Not at hcond
  obtain ⟨rfl, _⟩ := hcond
  split
  · exact .quiet (.refl n) hresp
  have hforget : ∀ inc, (n.followLeader leader n.currentTerm).incomingSnapshot = some inc →
      n.incomingSnapshot = some inc := fun inc hinc => eq_some_of_filter_eq_some hinc
  have hcore : CoreRel M strict s v (n.followLeader leader n.currentTerm) :=
    h.of_eq rfl rfl rfl rfl hforget
  have hfollow : Quiet n (n.followLeader leader n.currentTerm) :=
    ⟨⟨⟨rfl, rfl, rfl, le_rfl, le_rfl, fun hf => hf, fun hd => hd⟩, rfl, rfl, hforget⟩, nofun⟩
  obtain ⟨hq, hplain⟩ := hcore.appendAccepted_quiet hs hmsg
  exact .quiet (hfollow.trans hq) (.of_plain hplain)

end Append

lemma recordProgress_quiet (hlim : n.commitIndex ≤ u64Max) (peer index : ℕ) :
    Quiet n (n.recordProgress peer index) := by
  have hq : ∀ matched next, Quiet n { n with matchIndex := matched, nextIndex := next } :=
    fun _ _ => .of_frame rfl id le_rfl id
  exact (hq _ _).trans (advanceCommit_quiet _ hlim)

lemma recordProgress_role (n : RaftNode) (peer index : ℕ) :
    (n.recordProgress peer index).role = n.role := by
  obtain ⟨_, heq, _⟩ := advanceCommit_eq { n with
    matchIndex := insertKey n.matchIndex peer (max (min index n.lastIndex) ((n.matchIndex peer).getD 0))
    nextIndex := insertKey n.nextIndex peer
      (satAdd (max (min index n.lastIndex) ((n.matchIndex peer).getD 0)) 1) }
  rw [recordProgress, heq]

lemma handleAppendResp_effect (hlim : n.commitIndex ≤ u64Max) (sender term : ℕ) (success : Bool)
    (index : ℕ) (input : Input) : Effect n input (n.handleAppendResp sender term success index) := by
  unfold handleAppendResp
  split
  · exact .same
  rename_i hcond
  push Not at hcond
  split
  · dsimp only
    have hq := recordProgress_quiet hlim sender index
    split
    · exact .quiet hq (sendsOwn_appendFor ((recordProgress_role n sender index).trans hcond.1) sender)
    · exact .silent hq
  have hq : ∀ next, Quiet n { n with nextIndex := next } := fun _ => .of_frame rfl id le_rfl id
  have hsend : ∀ next, SendsOwn { n with nextIndex := next }
      [appendFor { n with nextIndex := next } sender] :=
    fun next => sendsOwn_appendFor (n := { n with nextIndex := next }) hcond.1 sender
  exact .quiet (hq _) (hsend _)

lemma snapshotResponse_plain (n : RaftNode) (leader index next : ℕ) (installed : Bool) :
    Plain [n.snapshotResponse leader index next installed] := by
  simp [Plain, snapshotResponse, Msg.isChunk]

lemma receiveChunk_cases (n : RaftNode) (incoming : IncomingSnapshot) (c : Chunk) : ∃ transfer,
      (n.receiveChunk c.leader incoming c.index c.offset c.data c.done).1 =
        { n with incomingSnapshot := transfer } ∧
      (∀ inc, transfer = some inc → inc = incoming ∨ (c.offset = incoming.data.length ∧
        inc = { incoming with data := incoming.data ++ c.data, complete := c.done })) ∧
      Plain (n.receiveChunk c.leader incoming c.index c.offset c.data c.done).2 := by
  unfold receiveChunk
  dsimp only
  split
  · split
    · exact ⟨none, rfl, nofun, snapshotResponse_plain _ _ _ _ _⟩
    · exact ⟨some incoming, rfl, fun inc hinc => .inl (some.inj hinc).symm,
        snapshotResponse_plain _ _ _ _ _⟩
  split
  · exact ⟨some incoming, rfl, fun inc hinc => .inl (some.inj hinc).symm,
      snapshotResponse_plain _ _ _ _ _⟩
  rename_i hcond
  push Not at hcond
  split
  · exact ⟨some _, rfl, fun inc hinc => .inr ⟨hcond.1, (some.inj hinc).symm⟩, nofun⟩
  · exact ⟨some _, rfl, fun inc hinc => .inr ⟨hcond.1, (some.inj hinc).symm⟩,
      snapshotResponse_plain _ _ _ _ _⟩

lemma Received.of_transfer {c : Chunk} {transfer : Option IncomingSnapshot}
    (hpeer : c.leader ∈ n.peers) (h : ∀ inc, transfer = some inc → Chunked n c inc) :
    Received n { n.observeLeader c.leader with incomingSnapshot := transfer } c :=
  ⟨⟨rfl, rfl, rfl, le_rfl, le_rfl, id, id⟩, rfl, rfl, rfl, hpeer, h⟩

lemma handleInstallSnapshot_effect (n : RaftNode) (c : Chunk) (hpeer : c.leader ∈ n.peers)
    (input : Input) (hinput : input = .message c.leader c.msg) :
    Effect n input
      (n.handleInstallSnapshot c.term c.leader c.index c.snapTerm c.offset c.data c.done) := by
  unfold handleInstallSnapshot
  split
  · exact .quiet (.refl n) (.of_plain (snapshotResponse_plain _ _ _ _ _))
  dsimp only
  split
  · exact .received c (.of_transfer hpeer nofun) (snapshotResponse_plain _ _ _ _ _) hinput
  split
  · rename_i incoming hf
    obtain ⟨hin, hsame⟩ := filter_eq_some_iff.mp hf
    simp only [decide_eq_true_eq] at hsame
    obtain ⟨hl, ht, hi, hst⟩ := hsame
    obtain ⟨transfer, heq, hcases, hplain⟩ :=
      receiveChunk_cases (n.observeLeader c.leader) incoming c
    refine .received c ?_ hplain hinput
    rw [heq]
    refine .of_transfer hpeer fun inc hinc => ?_
    rcases hcases inc hinc with rfl | ⟨hoff, rfl⟩
    · exact .old hin
    · obtain ⟨leader, term, index, snapTerm, held, complete⟩ := incoming
      subst hl ht hi hst
      exact .more hin hoff
  · split
    · exact .received c (.of_transfer hpeer nofun) (snapshotResponse_plain _ _ _ _ _) hinput
    rename_i hzero
    rw [not_not] at hzero
    obtain ⟨transfer, heq, hcases, hplain⟩ := receiveChunk_cases (n.observeLeader c.leader)
      ⟨c.leader, c.term, c.index, c.snapTerm, [], false⟩ c
    refine .received c ?_ hplain hinput
    rw [heq]
    refine .of_transfer hpeer fun inc hinc => ?_
    rcases hcases inc hinc with rfl | ⟨_, rfl⟩
    · exact .fresh
    · exact .first hzero

lemma handleInstallSnapshotResp_effect (hlim : n.commitIndex ≤ u64Max) (sender term index next : ℕ)
    (installed : Bool) (input : Input) :
    Effect n input (n.handleInstallSnapshotResp sender term index next installed) := by
  unfold handleInstallSnapshotResp
  split
  · exact .same
  rename_i hcond
  push Not at hcond
  split
  · exact .same
  rename_i snapshot hsnap
  -- a table of offsets that is as good as the old one
  have hoffsets : ∀ offsets, (OffsetsOk n → OffsetsOk { n with snapshotOffsets := offsets }) →
      Quiet n { n with snapshotOffsets := offsets } :=
    fun offsets hok => ⟨⟨⟨rfl, rfl, rfl, le_rfl, le_rfl, id, id⟩, rfl, rfl, fun _ h => h⟩,
      fun hr => ⟨hr, rfl, hok⟩⟩
  split
  · exact .same
  split
  · dsimp only
    set n₁ : RaftNode := { n with snapshotOffsets := removeKey n.snapshotOffsets sender }
    have hremove : Quiet n n₁ := by
      refine hoffsets _ fun hok u offset hu => ?_
      simp only [removeKey] at hu
      split at hu
      · cases hu
      · exact hok u offset hu
    have hq := hremove.trans (recordProgress_quiet (n := n₁) hlim sender index)
    split
    · exact .quiet hq (sendsOwn_appendFor ((recordProgress_role n₁ sender index).trans hcond.1) sender)
    · exact .silent hq
  set offset := if next ≤ snapshot.data.length then next else 0 with hoffset
  have hle : offset ≤ snapshot.data.length := by
    rw [hoffset]
    split <;> omega
  refine .quiet (hoffsets _ fun hok u o hu => ?_) ?_
  · simp only [insertKey] at hu
    split at hu
    · exact ⟨snapshot, hsnap, some.inj hu ▸ hle⟩
    · exact hok u o hu
  · intro o ho _
    rw [mem_singleton] at ho
    exact ⟨hcond.1, snapshot, sender, hsnap, ho⟩

lemma compact_effect (n : RaftNode) (data : Bytes) :
    Effect n (.call (.compact data)) ((n.compact data).1, []) := by
  unfold compact
  split
  · exact .same
  dsimp only
  split
  · exact .same
  rename_i hrange
  push Not at hrange
  split
  · exact .same
  split
  · exact .same
  set n₁ := n.foldLog (n.lastApplied - n.snapshotIndex)
    ⟨n.lastApplied, n.termAt n.lastApplied, data⟩
  have hfold : Folded n n₁ data :=
    ⟨⟨rfl, rfl, rfl, le_rfl, le_rfl, id, fun _ => Nat.zero_le _⟩, rfl, rfl, rfl, fun _ h => h,
      hrange.1, rfl, fun hr => ⟨hr, rfl⟩⟩
  obtain ⟨b, hb, hp | ⟨error, hp⟩⟩ := persist_eq n₁
  · rw [hp]
    have hq := withBooks n₁ hb
    exact .folded data ⟨hfold.toKept.trans hq.toKept, rfl, rfl, rfl, fun _ h => h, hrange.1, rfl,
      fun hr => ⟨hr, rfl⟩⟩ rfl rfl
  · rw [hp]
    have hq := (withBooks n₁ hb).trans (.failStop _ error)
    exact .folded data ⟨hfold.toKept.trans hq.toKept, rfl, rfl, rfl, fun _ h => h, hrange.1, rfl,
      nofun⟩ rfl rfl

lemma installIncoming_kept (n : RaftNode) (inc : IncomingSnapshot) :
    Kept n (n.installIncoming inc) :=
  ⟨rfl, rfl, rfl, le_rfl, le_max_left _ _, id, fun _ => Nat.zero_le _⟩

lemma finishSnapshotInstall_effect (n : RaftNode) (index : ℕ) :
    Effect n (.call (.finishSnapshotInstall index)) (n.perform (.finishSnapshotInstall index)) := by
  cases hf : n.completeIncoming.filter fun incoming => decide (incoming.index = index) with
  | none =>
    rw [perform_finish_of_none hf]
    exact .same
  | some inc =>
    obtain ⟨hin, hidx⟩ := filter_eq_some_iff.mp hf
    rw [decide_eq_true_eq] at hidx
    subst hidx
    rw [perform_finish_of_some hf]
    obtain ⟨b, hb, hp | ⟨error, hp⟩⟩ := persist_eq (n.installIncoming inc)
    · rw [hp]
      have hk := (installIncoming_kept n inc).trans (withBooks (n.installIncoming inc) hb).toKept
      exact .installed inc ⟨{ hk with }, hin, rfl, rfl, rfl, rfl, nofun, fun hr => hr⟩ (snapshotResponse_plain _ _ _ _ _) rfl
    · rw [hp]
      have hq := (withBooks (n.installIncoming inc) hb).trans (.failStop _ error)
      exact .installed inc ⟨(installIncoming_kept n inc).trans hq.toKept, hin, rfl, rfl, rfl, rfl,
        fun _ h => h, nofun⟩ nofun rfl

lemma Kept.running (h : Kept n m) (hrun : m.fatal = none) : n.fatal = none := by
  rw [← not_isSome_iff_eq_none] at hrun ⊢
  exact fun hf => hrun (h.fatal hf)

/-- A quiet change before a tick or a message belongs to its effect. -/
theorem Effect.after_quiet {input : Input} {result : RaftNode × List Output} (hq : Quiet n m)
    (hcand : m.role = .candidate → n.role = .candidate ∧ m.currentTerm = n.currentTerm)
    (hinput : ∀ call, input = .call call → call = .tick) (h : Effect m input result) :
    Effect n input result := by
  cases h with
  | quiet h sends => exact .quiet (hq.trans h) sends
  | elected h sends =>
    refine .elected ⟨hq.toSteady.trans h.toSteady, hq.running h.running, h.stopped, ?_, h.cleared⟩
      sends
    rcases h.before with ⟨hr, ht⟩ | hlt
    · exact .inl ⟨(hcand hr).1, ht.trans (hcand hr).2⟩
    · exact .inr (hq.term.trans_lt hlt)
  | received c h sends origin =>
    refine .received c ⟨hq.toKept.trans h.toKept, h.snapshot.trans hq.snapshot,
      h.applied.trans hq.applied, h.role, hq.peers ▸ h.peer, fun inc hinc => ?_⟩ sends origin
    cases h.chunked inc hinc with
    | old hold => exact .old (hq.forgets _ hold)
    | fresh => exact .fresh
    | first hzero => exact .first hzero
    | more hold hoff => exact .more (hq.forgets _ hold) hoff
  | folded data h sends origin => cases hinput _ origin
  | installed inc h sends origin => cases hinput _ origin
  | applied first last h sends origin => cases hinput _ origin

lemma markAppliedBatch_effect (n : RaftNode) (first last : ℕ) :
    Effect n (.call (.markAppliedBatch first last)) ((n.markAppliedBatch first last).1, []) := by
  unfold markAppliedBatch
  split
  · exact .same
  rename_i hcond
  push Not at hcond
  set n₁ : RaftNode := { n with lastApplied := last }
  have hmark : Kept n n₁ := ⟨rfl, rfl, rfl, le_rfl, le_rfl, id, id⟩
  obtain ⟨b, hb, hp | ⟨error, hp⟩⟩ := persist_eq n₁
  · rw [hp]
    exact .applied first last ⟨hmark.trans (withBooks n₁ hb).toKept, rfl, rfl, rfl,
      fun _ h => h, hcond.1, hcond.2.1, hcond.2.2, rfl, fun hr => ⟨hr, id⟩⟩ rfl rfl
  · rw [hp]
    have hq := (withBooks n₁ hb).trans (.failStop _ error)
    exact .applied first last ⟨hmark.trans hq.toKept, rfl, rfl, rfl, fun _ h => h, hcond.1,
      hcond.2.1, hcond.2.2, rfl, nofun⟩ rfl rfl

lemma nextBootSession_quiet (n : RaftNode) (now : ℕ) : Quiet n (n.nextBootSession now).1 := by
  unfold nextBootSession
  split
  · exact .refl n
  rename_i next _
  have hcount : Quiet n { n with bootCounter := next } := .of_frame rfl id le_rfl id
  rcases persist_quiet { n with bootCounter := next } with ⟨b, hp, hq⟩ | ⟨b, error, hp, hq⟩
  · rw [hp]
    exact hcount.trans hq
  · rw [hp]
    exact hcount.trans hq

lemma tick_effect (n : RaftNode) (hlim : n.fatal = none → n.commitIndex ≤ u64Max) :
    Effect n (.call .tick) n.tick := by
  unfold RaftNode.tick
  split
  · exact .same
  rename_i hrun
  rw [Bool.not_eq_true, isSome_eq_false_iff, isNone_iff_eq_none] at hrun
  have hclock : ∀ heartbeat election,
      Quiet n { n with heartbeatElapsed := heartbeat, electionElapsed := election } :=
    fun _ _ => .of_frame rfl id le_rfl id
  split
  · rename_i hr
    dsimp only
    split
    · exact .quiet (hclock 0 n.electionElapsed)
        (sendsOwn_broadcastAppend (n := { n with heartbeatElapsed := 0 }) hr)
    · exact .silent (hclock _ n.electionElapsed)
  dsimp only
  split
  · have hq := hclock n.heartbeatElapsed (min (n.electionElapsed + 1) u32Max)
    refine .after_quiet hq (fun h => ⟨h, rfl⟩) (fun _ h => (Input.call.inj h).symm) ?_
    exact startElection_effect { n with electionElapsed := min (n.electionElapsed + 1) u32Max }
      hrun (hlim hrun) _
  · exact .silent (hclock n.heartbeatElapsed _)

lemma perform_effect (n : RaftNode) (hlim : n.fatal = none → n.commitIndex ≤ u64Max)
    (call : Call) : Effect n (.call call) (n.perform call) := by
  cases call with
  | tick => exact tick_effect n hlim
  | forceReplicate =>
    unfold perform forceReplicate
    dsimp only
    split
    · rename_i hlead
      rw [isLeader, Bool.and_eq_true, decide_eq_true_eq] at hlead
      exact .quiet (.of_frame rfl id le_rfl id)
        (sendsOwn_broadcastAppend (n := { n with heartbeatElapsed := 0 }) hlead.1)
    · exact .same
  | proposeBatch entries =>
    cases hf : n.fatal with
    | none => exact .silent (proposeBatch_quiet n (hlim hf) entries)
    | some error =>
      have : (n.proposeBatch entries).1 = n := by
        simp [proposeBatch, isLeader, hf]
      rw [perform, this]
      exact .same
  | markAppliedBatch first last => exact markAppliedBatch_effect n first last
  | compact data => exact compact_effect n data
  | finishSnapshotInstall index => exact finishSnapshotInstall_effect n index
  | nextBootSession now => exact .silent (nextBootSession_quiet n now)
  | failStop error => exact .silent (.failStop n error)
  | diskFaults faults => exact .silent (.of_frame rfl id le_rfl id)

section Step

variable {M : Finset NodeId} {strict : Prop} {s : History} {v : NodeId}

lemma CoreRel.dispatch_effect (hs : Sound M strict s) (h : CoreRel M strict s v n)
    (hrun : n.fatal = none) {sender : NodeId} (hsender : sender ∈ n.peers) {msg : Msg} (hclaim : msg.claimedSender.any (· != sender) = false)
    (hmsg : MsgRel M strict s sender v msg) :
    Effect n (.message sender msg) (n.dispatch sender msg) := by
  have hlim := h.commit_le_u64Max
  cases msg with
  | requestVote term candidate lastLogIndex lastLogTerm =>
    exact handleRequestVote_effect n term candidate lastLogIndex lastLogTerm _
  | requestVoteResp term granted => exact handleVoteResp_effect n hrun hlim sender term granted _
  | appendEntries term leader prevLogIndex prevLogTerm entries leaderCommit =>
    obtain rfl : leader = sender := by simpa [Msg.claimedSender] using hclaim
    exact h.handleAppend_effect hs hmsg _
  | appendEntriesResp term success matchIndex =>
    exact handleAppendResp_effect hlim sender term success matchIndex _
  | installSnapshot term leader index snapTerm offset data done =>
    obtain rfl : leader = sender := by simpa [Msg.claimedSender] using hclaim
    exact handleInstallSnapshot_effect n ⟨term, leader, index, snapTerm, offset, data, done⟩
      hsender _ rfl
  | installSnapshotResp term index nextOffset installed =>
    exact handleInstallSnapshotResp_effect hlim sender term index nextOffset installed _

lemma NodeRel.step_effect (hs : Sound M strict s) (h : NodeRel M strict s v n) {sender : NodeId}
    {msg : Msg} (hmsg : sender ∈ M → MsgRel M strict s sender v msg) :
    Effect n (.message sender msg) (n.step sender msg) := by
  unfold RaftNode.step
  split
  · exact .same
  rename_i hcond
  push Not at hcond
  have hrun : n.fatal = none := not_isSome_iff_eq_none.mp hcond.1
  split
  · exact .same
  rename_i hclaim
  rw [Bool.not_eq_true] at hclaim
  have hm := hmsg (h.mem_peers.mp hcond.2).1
  split
  · rename_i hlt
    have hdown : Quiet n (n.stepDown msg.term) :=
      ⟨⟨⟨rfl, rfl, rfl, hlt.le, le_rfl, fun hf => hf, fun hd => hd⟩, rfl, rfl, nofun⟩, nofun⟩
    obtain ⟨s₁, hstep, hcore⟩ := h.stepDown hs hlt
    have hs₁ := hs.step hstep
    rcases persist_quiet (n.stepDown msg.term) with ⟨b, hp, hq⟩ | ⟨b, error, hp, hq⟩
    · rw [hp]
      rcases hcore.persist hs₁ with ⟨b', hp', hcore'⟩ | ⟨b', error, hp', _⟩
      · rw [hp] at hp'
        rw [(Prod.mk.inj hp').1] at hq ⊢
        have hsave : Step M strict v s₁ (s₁.setDisk v (s₁.mem v)) := .save s₁
        refine .after_quiet (hdown.trans hq) (fun hr => by cases hr) (by nofun) ?_
        exact hcore'.dispatch_effect (hs₁.step hsave) hrun hcond.2 hclaim
          ((hm.mono (hstep.le hs.inv)).mono (hsave.le hs₁.inv))
      · rw [hp] at hp'
        cases (Prod.mk.inj hp').2
    · rw [hp]
      exact .silent (hdown.trans hq)
  · exact h.toCoreRel.dispatch_effect hs hrun hcond.2 hclaim hm

/-- Every input of a node that shows the history has an effect. -/
theorem handle_effect (hs : Sound M strict s)
    (h : NodeRel M strict s v n ∨ Stuck M strict s v n) (input : Input)
    (hmsg : ∀ sender msg, input = .message sender msg → sender ∈ M → MsgRel M strict s sender v msg) :
    Effect n input (n.handle input) := by
  cases input with
  | call call =>
    refine perform_effect n (fun hrun => ?_) call
    rcases h with h | h
    · exact h.toCoreRel.commit_le_u64Max
    · have := h.fatal
      rw [hrun] at this
      cases this
  | message sender msg =>
    rcases h with h | h
    · exact h.step_effect hs fun hsender => hmsg sender msg rfl hsender
    · have : n.step sender msg = (n, []) := by simp [RaftNode.step, h.fatal]
      rw [handle, this]
      exact .same

/-- An action gives one input to one member, restarts one, or concerns no member. -/
theorem ClusterRel.exec_cases {c : Cluster} (h : ClusterRel M strict s c) (action : Action) :
    (∃ v ∈ M, ∃ input, c.exec action = c.update v ((c.nodes v).handle input) ∧
      Effect (c.nodes v) input ((c.nodes v).handle input) ∧
      (∀ call, input = .call call → action = .call v call) ∧
      ∀ sender msg, input = .message sender msg → ⟨sender, v, msg⟩ ∈ c.sent) ∨
    (∃ v ∈ M, ∃ now, action = .restart v now ∧
      c.exec action = c.update v ((c.nodes v).restart now, [])) ∨
    (∃ v ∉ M, ∃ result, c.exec action = c.update v result) ∨ c.exec action = c := by
  cases action with
  | call id call =>
    by_cases hid : id ∈ M
    · refine .inl ⟨id, hid, .call call, rfl, handle_effect h.sound (h.nodes id hid) _ nofun, ?_,
        nofun⟩
      rintro _ ⟨⟩
      rfl
    · exact .inr (.inr (.inl ⟨id, hid, _, rfl⟩))
  | restart id now =>
    by_cases hid : id ∈ M
    · exact .inr (.inl ⟨id, hid, now, rfl, rfl⟩)
    · exact .inr (.inr (.inl ⟨id, hid, _, rfl⟩))
  | deliver place =>
    cases hp : c.sent[place]? with
    | none => exact .inr (.inr (.inr (Cluster.exec_deliver_none hp)))
    | some p =>
      have hmem := mem_of_getElem? hp
      rw [Cluster.exec_deliver hp]
      by_cases hid : p.dest ∈ M
      · refine .inl ⟨p.dest, hid, .message p.sender p.msg, rfl, ?_, nofun, ?_⟩
        · refine handle_effect h.sound (h.nodes _ hid) _ ?_
          rintro sender msg ⟨⟩ hsender
          exact h.packets p hmem hsender
        · rintro sender msg ⟨⟩
          exact hmem
      · exact .inr (.inr (.inl ⟨p.dest, hid, _, rfl⟩))

end Step

end OnetDns.Raft
