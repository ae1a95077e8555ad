import OnetDns.Cluster.Effect
import OnetDns.Cluster.Safety

/-!
# Sending a snapshot in pieces

A leader of a term has at most one snapshot for each index, so the table of all
snapshots that leaders had to send is a partial function of leader, term and
index. Every piece on the network is cut out of an entry of that table, and
what a follower puts together is a prefix of it.
-/
namespace OnetDns.Raft
open Consensus List Option Raft.Cluster RaftNode

variable {M : Finset NodeId} {s s' : History} {v : NodeId} {n m : RaftNode} {c : Cluster}

/-- The snapshots that leaders had to send, by leader, term and index. -/
abbrev Offers := NodeId → ℕ → ℕ → Option Snapshot

/-- One more snapshot of leader `v` in term `t`. -/
def Offers.offer (D : Offers) (v : NodeId) (t : ℕ) (snapshot : Snapshot) : Offers :=
  fun w u k => if w = v ∧ u = t ∧ k = snapshot.index then some snapshot else D w u k

/-- A chunk is cut out of the snapshot. -/
structure ChunkOf (snapshot : Snapshot) (chunk : Chunk) : Prop where
  term : chunk.snapTerm = snapshot.term
  content : ∃ stop, chunk.offset ≤ stop ∧ stop ≤ snapshot.data.length ∧
    chunk.data = (snapshot.data.take stop).drop chunk.offset ∧
    (chunk.done = true ↔ stop = snapshot.data.length)

/-- What was received is a prefix of the snapshot, and all of it at the end. -/
structure TransferOf (snapshot : Snapshot) (inc : IncomingSnapshot) : Prop where
  term : inc.term = snapshot.term
  received : inc.data <+: snapshot.data
  complete : inc.complete = true → inc.data = snapshot.data

lemma Chunk.msg_inj {a b : Chunk} (h : a.msg = b.msg) : a = b := by
  cases a
  cases b
  simpa only [msg, Msg.installSnapshot.injEq, mk.injEq] using h

lemma snapshotRange_le (n : RaftNode) (snapshot : Snapshot) (peer : NodeId) :
    (n.snapshotRange snapshot peer).1 ≤ (n.snapshotRange snapshot peer).2 ∧
      (n.snapshotRange snapshot peer).2 ≤ snapshot.data.length := by
  have hoffset : (n.snapshotRange snapshot peer).1 ≤ snapshot.data.length := by
    unfold snapshotRange
    dsimp only
    split
    · assumption
    · exact Nat.zero_le _
  exact ⟨le_min (Nat.le_add_right _ _) hoffset, min_le_right _ _⟩

lemma snapshotFor_chunk (n : RaftNode) (snapshot : Snapshot) (peer : NodeId) :
    ∃ chunk : Chunk, (n.snapshotFor snapshot peer).msg = chunk.msg ∧ chunk.term = n.currentTerm ∧
      chunk.index = snapshot.index ∧ ChunkOf snapshot chunk := by
  obtain ⟨hle, hlen⟩ := snapshotRange_le n snapshot peer
  unfold snapshotFor
  rcases hrange : n.snapshotRange snapshot peer with ⟨offset, stop⟩
  rw [hrange] at hle hlen
  exact ⟨⟨n.currentTerm, n.id, snapshot.index, snapshot.term, offset, _, _⟩, rfl, rfl, rfl, rfl,
    stop, hle, hlen, rfl, decide_eq_true_iff⟩

variable {snapshot : Snapshot}

/-- A piece that starts where the received bytes end continues them. -/
theorem ChunkOf.extend {chunk : Chunk} (h : ChunkOf snapshot chunk)
    {held : Bytes} (hheld : held <+: snapshot.data) (hoffset : chunk.offset = held.length) :
    TransferOf snapshot
      ⟨chunk.leader, chunk.term, chunk.index, chunk.snapTerm, held ++ chunk.data, chunk.done⟩ := by
  obtain ⟨stop, hstart, hstop, hdata, hdone⟩ := h.content
  have hjoin : held ++ chunk.data = snapshot.data.take stop := by
    have hfront : held = (snapshot.data.take stop).take chunk.offset := by
      rw [take_take, min_eq_left hstart, hoffset]
      exact (prefix_iff_eq_take.mp hheld)
    rw [hdata]
    conv_lhs => rw [hfront]
    exact take_append_drop _ _
  refine ⟨h.term, ?_, ?_⟩
  · rw [hjoin]
    exact take_prefix _ _
  · intro hc
    rw [hjoin, hdone.mp hc, take_length]

/-- A node and the table: a leader's snapshot is its latest entry, and a
transfer comes from an entry. -/
structure NodeOffers (D : Offers) (v : NodeId) (n : RaftNode) : Prop where
  current : n.role = .leader → ∀ snapshot, n.snapshot = some snapshot →
    D v n.currentTerm snapshot.index = some snapshot
  latest : n.role = .leader → ∀ k snapshot, D v n.currentTerm k = some snapshot →
    k ≤ n.snapshotIndex
  offsets : n.role = .leader → OffsetsOk n
  incoming : ∀ inc, n.incomingSnapshot = some inc →
    ∃ snapshot, D inc.leader inc.leaderTerm inc.index = some snapshot ∧ TransferOf snapshot inc

/-- A piece sent by `sender` comes from an entry. -/
def MsgOffers (D : Offers) (sender : NodeId) (msg : Msg) : Prop :=
  ∀ chunk : Chunk, msg = chunk.msg →
    ∃ snapshot, D sender chunk.term chunk.index = some snapshot ∧ ChunkOf snapshot chunk

/-- Only entries of `v` are added. -/
structure Grows (v : NodeId) (D D' : Offers) : Prop where
  mono : ∀ w t k snapshot, D w t k = some snapshot → D' w t k = some snapshot
  other : ∀ w, w ≠ v → D' w = D w

lemma Grows.refl (v : NodeId) (D : Offers) : Grows v D D := ⟨fun _ _ _ _ h => h, fun _ _ => rfl⟩

variable {D : Offers}

lemma Grows.offer {t : ℕ}
    (hfresh : D v t snapshot.index = none) : Grows v D (D.offer v t snapshot) where
  mono w u k sn h := by
    unfold Offers.offer
    split
    · rename_i heq
      obtain ⟨rfl, rfl, rfl⟩ := heq
      rw [hfresh] at h
      cases h
    · exact h
  other w hw := by
    funext u k
    simp [Offers.offer, hw]

lemma offer_self (D : Offers) (v : NodeId) (t : ℕ) (snapshot : Snapshot) :
    D.offer v t snapshot v t snapshot.index = some snapshot := by
  simp [Offers.offer]

lemma offer_cases {t : ℕ} {sn : Snapshot} {w : NodeId} {u k : ℕ}
    (h : D.offer v t snapshot w u k = some sn) :
    D w u k = some sn ∨ (w = v ∧ u = t ∧ k = snapshot.index ∧ sn = snapshot) := by
  unfold Offers.offer at h
  split at h
  · rename_i heq
    exact .inr ⟨heq.1, heq.2.1, heq.2.2, (some.inj h).symm⟩
  · exact .inl h

lemma NodeOffers.mono {D' : Offers} {u : NodeId} (h : NodeOffers D v n) (hg : Grows u D D')
    (hne : v ≠ u) : NodeOffers D' v n where
  current hr snapshot hs := hg.mono _ _ _ _ (h.current hr snapshot hs)
  latest hr k snapshot hk := h.latest hr k snapshot (by rw [← hg.other v hne]; exact hk)
  offsets := h.offsets
  incoming inc hinc := by
    obtain ⟨snapshot, hD, ht⟩ := h.incoming inc hinc
    exact ⟨snapshot, hg.mono _ _ _ _ hD, ht⟩

lemma MsgOffers.mono {D' : Offers} {u sender : NodeId} {msg : Msg} (h : MsgOffers D sender msg)
    (hg : Grows u D D') : MsgOffers D' sender msg := by
  intro chunk hc
  obtain ⟨snapshot, hD, hof⟩ := h chunk hc
  exact ⟨snapshot, hg.mono _ _ _ _ hD, hof⟩

lemma msgOffers_of_plain {sender : NodeId} {msg : Msg} (h : msg.isChunk = false) :
    MsgOffers D sender msg := by
  rintro chunk rfl
  cases h

lemma msgOffers_snapshotFor {peer : NodeId}
    (hD : D v n.currentTerm snapshot.index = some snapshot) :
    MsgOffers D v (n.snapshotFor snapshot peer).msg := by
  intro chunk hc
  obtain ⟨chunk', hmsg, hterm, hindex, hof⟩ := snapshotFor_chunk n snapshot peer
  obtain rfl : chunk' = chunk := Chunk.msg_inj (hmsg.symm.trans hc)
  exact ⟨snapshot, by rw [hterm, hindex]; exact hD, hof⟩

/-- Where an entry of the new table comes from: it is an old one, or the
snapshot of a leader or of a node that stopped while it was taking office. -/
def NewOffers (v : NodeId) (m : RaftNode) (outs : List Output) (D D' : Offers) : Prop :=
  ∀ w t k snapshot, D' w t k = some snapshot → D w t k = some snapshot ∨
    (w = v ∧ t = m.currentTerm ∧ k = snapshot.index ∧ m.snapshot = some snapshot ∧
      (m.role = .leader ∨ (m.fatal.isSome ∧ ∃ o ∈ outs, ∃ peer, o = m.snapshotFor snapshot peer)))

/-- The table after a step of `v`. -/
def Offering (D : Offers) (v : NodeId) (result : RaftNode × List Output) : Prop :=
  ∃ D', Grows v D D' ∧ NodeOffers D' v result.1 ∧
    (∀ o ∈ result.2, MsgOffers D' v o.msg) ∧ NewOffers v result.1 result.2 D D'

variable {result : RaftNode × List Output}

lemma Offering.of_follower (hr : result.1.role ≠ .leader) (houts : Plain result.2)
    (hinc : ∀ inc, result.1.incomingSnapshot = some inc → ∃ snapshot, D inc.leader inc.leaderTerm
      inc.index = some snapshot ∧ TransferOf snapshot inc) : Offering D v result :=
  ⟨D, .refl v D, ⟨fun h => absurd h hr, fun h => absurd h hr, fun h => absurd h hr, hinc⟩,
    fun o ho => msgOffers_of_plain (houts o ho), fun _ _ _ _ h => .inl h⟩

section

variable (h : NodeOffers D v n)
include h

lemma NodeOffers.forget
    (hf : ∀ inc, m.incomingSnapshot = some inc → n.incomingSnapshot = some inc) :
    ∀ inc, m.incomingSnapshot = some inc →
      ∃ snapshot, D inc.leader inc.leaderTerm inc.index = some snapshot ∧ TransferOf snapshot inc :=
  fun inc hinc => h.incoming inc (hf inc hinc)

lemma NodeOffers.quiet {outs : List Output} (hq : Quiet n m)
    (hsend : SendsOwn m outs) : Offering D v (m, outs) := by
  have hcurrent : m.role = .leader → ∀ snapshot, m.snapshot = some snapshot →
      D v m.currentTerm snapshot.index = some snapshot := by
    intro hr snapshot hs
    obtain ⟨hn, ht, _⟩ := hq.office hr
    rw [ht]
    exact h.current hn snapshot (hq.snapshot ▸ hs)
  refine ⟨D, .refl v D, ⟨hcurrent, ?_, ?_, h.forget hq.forgets⟩, ?_, fun _ _ _ _ h => .inl h⟩
  · intro hr k snapshot hk
    obtain ⟨hn, ht, _⟩ := hq.office hr
    rw [snapshotIndex, hq.snapshot]
    exact h.latest hn k snapshot (ht ▸ hk)
  · intro hr
    obtain ⟨hn, _, hok⟩ := hq.office hr
    exact hok (h.offsets hn)
  · intro o ho
    by_cases hc : o.msg.isChunk = true
    · obtain ⟨hr, snapshot, peer, hs, rfl⟩ := hsend o ho hc
      exact msgOffers_snapshotFor (hcurrent hr snapshot hs)
    · exact msgOffers_of_plain (by simpa using hc)

/-- A new leader, or one that failed to become it, has nothing in the table yet. -/
theorem NodeOffers.elected (he : Elected n m)
    (hfresh : ∀ k, D v m.currentTerm k = none) : Offering D v (m, m.broadcastAppend) := by
  have hchunk : ∀ o ∈ m.broadcastAppend, o.msg.isChunk = true →
      ∃ snapshot peer, m.snapshot = some snapshot ∧ o = m.snapshotFor snapshot peer := by
    intro o ho hc
    obtain ⟨peer, _, rfl⟩ := mem_map.mp ho
    obtain ⟨snapshot, hs, heq⟩ := appendFor_chunk hc
    exact ⟨snapshot, peer, hs, heq⟩
  by_cases hoffer : m.role = .leader ∨ ∃ o ∈ m.broadcastAppend, o.msg.isChunk = true
  · cases hs : m.snapshot with
    | none =>
      have hplain : Plain m.broadcastAppend := by
        intro o ho
        by_contra hc
        obtain ⟨snapshot, _, hs', _⟩ := hchunk o ho (by simpa using hc)
        rw [hs] at hs'
        cases hs'
      refine ⟨D, .refl v D, ⟨?_, ?_, ?_, h.forget he.forgets⟩,
        fun o ho => msgOffers_of_plain (hplain o ho), fun _ _ _ _ h => .inl h⟩
      · intro _ snapshot hs'
        rw [hs] at hs'
        cases hs'
      · intro _ k snapshot hk
        rw [hfresh k] at hk
        cases hk
      · intro hr u offset hu
        rw [he.cleared hr] at hu
        cases hu
    | some snapshot =>
      have hg : Grows v D (D.offer v m.currentTerm snapshot) := .offer (hfresh _)
      refine ⟨D.offer v m.currentTerm snapshot, hg, ⟨?_, ?_, ?_, ?_⟩, ?_, ?_⟩
      · intro _ sn hs'
        rw [hs] at hs'
        cases hs'
        exact offer_self D v _ _
      · intro _ k sn hk
        rcases offer_cases hk with hk | ⟨_, _, rfl, _⟩
        · rw [hfresh k] at hk
          cases hk
        · simp [snapshotIndex, hs]
      · intro hr u offset hu
        rw [he.cleared hr] at hu
        cases hu
      · intro inc hinc
        obtain ⟨sn, hD, ht⟩ := h.incoming inc (he.forgets inc hinc)
        exact ⟨sn, hg.mono _ _ _ _ hD, ht⟩
      · intro o ho
        by_cases hc : o.msg.isChunk = true
        · obtain ⟨sn, peer, hs', rfl⟩ := hchunk o ho hc
          rw [hs] at hs'
          cases hs'
          exact msgOffers_snapshotFor (offer_self D v _ _)
        · exact msgOffers_of_plain (by simpa using hc)
      · intro w t k sn hk
        rcases offer_cases hk with hk | ⟨rfl, rfl, rfl, rfl⟩
        · exact .inl hk
        refine .inr ⟨rfl, rfl, rfl, hs, ?_⟩
        by_cases hr : m.role = .leader
        · exact .inl hr
        obtain ⟨o, ho, hc⟩ := hoffer.resolve_left hr
        obtain ⟨sn, peer, hs', heq⟩ := hchunk o ho hc
        rw [hs] at hs'
        cases hs'
        exact .inr ⟨he.stopped hr, o, ho, peer, heq⟩
  · push Not at hoffer
    refine .of_follower hoffer.1 (fun o ho => ?_) (h.forget he.forgets)
    simpa using hoffer.2 o ho

lemma NodeOffers.folded {data : Bytes} (hf : Folded n m data) : Offering D v (m, []) := by
  by_cases hr : m.role = .leader
  · obtain ⟨hn, hoff⟩ := hf.office hr
    set snapshot : Snapshot := ⟨n.lastApplied, n.termAt n.lastApplied, data⟩ with hsn
    have hs : m.snapshot = some snapshot := hf.snapshot
    have hindex : m.snapshotIndex = n.lastApplied := by simp [snapshotIndex, hs, hsn]
    have hfresh : D v m.currentTerm snapshot.index = none := by
      rw [eq_none_iff_forall_ne_some]
      intro sn hk
      rw [hf.term_eq] at hk
      exact absurd (h.latest hn _ sn hk) (not_le.mpr hf.behind)
    have hg : Grows v D (D.offer v m.currentTerm snapshot) := .offer hfresh
    refine ⟨D.offer v m.currentTerm snapshot, hg, ⟨?_, ?_, ?_, ?_⟩, by simp, ?_⟩
    · intro _ sn hs'
      rw [hs] at hs'
      cases hs'
      exact offer_self D v _ _
    · intro _ k sn hk
      rw [hindex]
      rcases offer_cases hk with hk | ⟨_, _, rfl, _⟩
      · rw [hf.term_eq] at hk
        exact (h.latest hn k sn hk).trans hf.behind.le
      · exact le_rfl
    · intro _ u offset hu
      rw [hoff] at hu
      cases hu
    · intro inc hinc
      obtain ⟨sn, hD, ht⟩ := h.incoming inc (hf.forgets inc hinc)
      exact ⟨sn, hg.mono _ _ _ _ hD, ht⟩
    · intro w t k sn hk
      rcases offer_cases hk with hk | ⟨rfl, rfl, rfl, rfl⟩
      · exact .inl hk
      · exact .inr ⟨rfl, rfl, rfl, hs, .inl hr⟩
  · exact .of_follower hr (by simp [Plain]) (h.forget hf.forgets)

/-- A chunk of an entry keeps the transfer a prefix of that entry. -/
theorem NodeOffers.received {chunk : Chunk} {outs : List Output} (hr : Received n m chunk)
    (hplain : Plain outs) (hmsg : MsgOffers D chunk.leader chunk.msg) : Offering D v (m, outs) := by
  refine .of_follower (by rw [hr.role]; nofun) hplain fun inc hinc => ?_
  obtain ⟨snapshot, hD, hof⟩ := hmsg chunk rfl
  cases hr.chunked inc hinc with
  | old hold => exact h.incoming inc hold
  | fresh => exact ⟨snapshot, hD, hof.term, nil_prefix, nofun⟩
  | first hzero => exact ⟨snapshot, hD, hof.extend nil_prefix hzero⟩
  | more hold hoffset =>
    obtain ⟨sn, hD', ht⟩ := h.incoming _ hold
    rw [hD] at hD'
    cases hD'
    exact ⟨snapshot, hD, hof.extend ht.received hoffset⟩

end

/-- Entries belong to terms that their leader has won. -/
def OffersWon (s : History) (D : Offers) : Prop :=
  ∀ w t k snapshot, D w t k = some snapshot → ∃ e, s.election t = some e ∧ e.leader = w

/-- A node that takes office has no entries for its term. -/
theorem OffersWon.fresh {strict : Prop} (hs : Sound M strict s) (hwon : OffersWon s D)
    (hn : NodeRel M strict s v n) (he : Elected n m) (k : ℕ) : D v m.currentTerm k = none := by
  rw [eq_none_iff_forall_ne_some]
  intro snapshot hk
  obtain ⟨e, hel, hlead⟩ := hwon _ _ _ _ hk
  rcases he.before with ⟨hr, ht⟩ | hlt
  · rw [ht] at hel
    exact (hn.candidate hr).undecided e hel hlead
  -- whoever won a term has stood for it
  have hbid := (hs.inv.base _ e hel).1
  rw [hlead] at hbid
  have hle := (hs.inv.bid_disk _ _ _ hbid).trans (hs.inv.disk_le v)
  rw [hn.mem.term] at hle
  exact absurd hlt (not_lt.mpr hle)

/-- One input of a member. -/
theorem NodeOffers.handle {strict : Prop} (hs : Sound M strict s)
    (hwon : OffersWon s D) (h : NodeOffers D v n)
    (hn : NodeRel M strict s v n ∨ Stuck M strict s v n) {input : Input} (he : Effect n input result)
    (hmsg : ∀ sender msg, input = .message sender msg → sender ∈ M → MsgOffers D sender msg) :
    Offering D v result := by
  have hpeers : ∀ u ∈ n.peers, u ∈ M := by
    intro u hu
    have : n.peers.toFinset = M.erase v := hn.elim (fun h => h.peers.2) (fun h => h.peers.2)
    exact Finset.mem_of_mem_erase (this ▸ mem_toFinset.mpr hu)
  cases he with
  | quiet hq hsend => exact h.quiet hq hsend
  | elected hel hsend =>
    have hnode : NodeRel M strict s v n := hn.resolve_right fun hst => by
      have := hst.fatal
      rw [hel.running] at this
      cases this
    have := h.elected hel (hwon.fresh hs hnode hel)
    rwa [← hsend] at this
  | received chunk hr hplain horigin =>
    exact h.received hr hplain (hmsg _ _ horigin (hpeers _ hr.peer))
  | folded data hf hsend _ =>
    have := h.folded hf
    rwa [← hsend] at this
  | installed inc hi hplain _ =>
    refine .of_follower ?_ hplain (h.forget hi.forgets)
    intro hr
    -- a leader follows nobody, least of all itself
    have hlead := hi.role hr
    have hnode : NodeRel M strict s v n := hn.resolve_right fun hst => by
      rw [hst.role] at hlead
      cases hlead
    obtain ⟨hin, _, _, hid⟩ := completeIncoming_spec hi.complete
    rw [(hnode.leader hlead).leaderId] at hid
    exact (hnode.incoming inc hin).1 (some.inj hid).symm
  | applied first last ha hsend _ =>
    have hq : NodeOffers D v result.1 := by
      refine ⟨?_, ?_, ?_, h.forget ha.forgets⟩
      · intro hr snapshot hs'
        rw [ha.term_eq]
        exact h.current (ha.office hr).1 snapshot (ha.snapshot ▸ hs')
      · intro hr k snapshot hk
        rw [snapshotIndex, ha.snapshot]
        exact h.latest (ha.office hr).1 k snapshot (ha.term_eq ▸ hk)
      · exact fun hr => (ha.office hr).2 (h.offsets (ha.office hr).1)
    refine ⟨D, .refl v D, hq, ?_, fun _ _ _ _ h => .inl h⟩
    rw [hsend]
    simp

/-- The table and a run: every snapshot a leader had at some moment is in it,
and every entry was a snapshot of its leader at some moment. -/
structure Transfers (members : List NodeId) (cfg : NodeId → Config) (now : NodeId → ℕ)
    (actions : List Action) (s : History) (D : Offers) : Prop where
  rel : ClusterRel members.toFinset False s ((Cluster.start members cfg now).run actions)
  won : OffersWon s D
  member : ∀ w t k snapshot, D w t k = some snapshot → w ∈ members
  past : ∀ p, p <+: actions → ∀ w ∈ members,
    (((Cluster.start members cfg now).run p).nodes w).role = .leader →
    ∀ snapshot, (((Cluster.start members cfg now).run p).nodes w).snapshot = some snapshot →
    D w (((Cluster.start members cfg now).run p).nodes w).currentTerm snapshot.index = some snapshot
  seen : ∀ w t k snapshot, D w t k = some snapshot → ∃ p, p <+: actions ∧
    ((((Cluster.start members cfg now).run p).nodes w).role = .leader ∨
      (((Cluster.start members cfg now).run p).nodes w).fatal.isSome) ∧
    (((Cluster.start members cfg now).run p).nodes w).currentTerm = t ∧ k = snapshot.index ∧
    (((Cluster.start members cfg now).run p).nodes w).snapshot = some snapshot
  nodes : ∀ w ∈ members, NodeOffers D w (((Cluster.start members cfg now).run actions).nodes w)
  packets : ∀ p ∈ ((Cluster.start members cfg now).run actions).sent, p.sender ∈ members →
    MsgOffers D p.sender p.msg

section Run

variable {members : List NodeId} {cfg : NodeId → Config} {now : NodeId → ℕ} {actions : List Action}
  {action : Action} {D : Offers}

section

variable (h : Transfers members cfg now actions s D)
include h

/-- A step of a member adds what it has to offer. -/
theorem Transfers.update (hv : v ∈ members)
    (heq : (start members cfg now).run (actions ++ [action]) = ((start members cfg
      now).run actions).update v result)
    (hrel : ClusterRel members.toFinset False s' ((start members cfg now).run (actions ++
      [action]))) (hle : Le s s') (hoff : Offering D v result) :
    ∃ D', Transfers members cfg now (actions ++ [action]) s' D' := by
  obtain ⟨D', hg, hnode, houts, hnew⟩ := hoff
  have hself : ((start members cfg now).run (actions ++ [action])).nodes v = result.1 := by
    rw [heq]
    exact if_pos rfl
  have hnodes : ∀ w ∈ members,
      NodeOffers D' w (((start members cfg now).run (actions ++ [action])).nodes w) := by
    intro w hw
    by_cases hwv : w = v
    · rw [hwv, hself]
      exact hnode
    · rw [heq]
      simp only [Cluster.update, hwv]
      exact (h.nodes w hw).mono hg hwv
  refine ⟨D', hrel, ?_, ?_, ?_, ?_, hnodes, ?_⟩
  · intro w t k snapshot hk
    rcases hnew w t k snapshot hk with hold | ⟨rfl, rfl, rfl, hs, hlead | ⟨_, o, ho, peer, rfl⟩⟩
    · obtain ⟨e, hel, hl⟩ := h.won w t k snapshot hold
      exact ⟨e, hle.election _ _ hel, hl⟩
    · rw [← hself] at hlead ⊢
      exact ((hrel.leaderRel (mem_toFinset.mpr hv) hlead).leader hlead).won
    obtain ⟨chunk, hmsg, hterm, _⟩ := snapshotFor_chunk result.1 snapshot peer
    have hpacket := hrel.packets ⟨w, _, (result.1.snapshotFor snapshot peer).msg⟩
      (by rw [heq]; exact mem_append_right _ (mem_map.mpr ⟨_, ho, rfl⟩))
      (mem_toFinset.mpr hv)
    simp only [hmsg] at hpacket
    rw [← hterm]
    exact SnapshotRel.won hpacket
  · intro w t k snapshot hk
    rcases hnew w t k snapshot hk with hold | ⟨rfl, _⟩
    · exact h.member w t k snapshot hold
    · exact hv
  · intro p hp w hw hr snapshot hs
    rcases prefix_concat_iff.mp hp with rfl | hp
    · exact (hnodes w hw).current hr snapshot hs
    · exact hg.mono _ _ _ _ (h.past p hp w hw hr snapshot hs)
  · intro w t k snapshot hk
    rcases hnew w t k snapshot hk with hold | ⟨rfl, rfl, rfl, hs, hrole⟩
    · obtain ⟨p, hp, hrest⟩ := h.seen w t k snapshot hold
      exact ⟨p, hp.trans (prefix_append _ _), hrest⟩
    · refine ⟨actions ++ [action], prefix_rfl, ?_⟩
      rw [hself]
      exact ⟨hrole.imp_right And.left, rfl, rfl, hs⟩
  · intro p hp hsender
    rw [heq] at hp
    rcases mem_append.mp hp with hp | hp
    · exact (h.packets p hp hsender).mono hg
    · obtain ⟨o, ho, rfl⟩ := mem_map.mp hp
      exact houts o ho

/-- A step that changes no member and sends nothing in the name of one. -/
theorem Transfers.same
    (hrel : ClusterRel members.toFinset False s' ((start members cfg now).run (actions ++
      [action]))) (hle : Le s s')
    (hnodes : ∀ w ∈ members, ((start members cfg now).run (actions ++ [action])).nodes w =
      ((start members cfg now).run actions).nodes w)
    (hsent : ∀ p ∈ ((start members cfg now).run (actions ++ [action])).sent, p.sender ∈
      members → p ∈ ((start members cfg now).run actions).sent) :
    Transfers members cfg now (actions ++ [action]) s' D where
  rel := hrel
  won w t k snapshot hk := by
    obtain ⟨e, hel, hl⟩ := h.won w t k snapshot hk
    exact ⟨e, hle.election _ _ hel, hl⟩
  member := h.member
  past p hp w hw hr snapshot hs := by
    rcases prefix_concat_iff.mp hp with rfl | hp
    · rw [hnodes w hw] at hr hs ⊢
      exact (h.nodes w hw).current hr snapshot hs
    · exact h.past p hp w hw hr snapshot hs
  seen w t k snapshot hk := by
    obtain ⟨p, hp, hrest⟩ := h.seen w t k snapshot hk
    exact ⟨p, hp.trans (prefix_append _ _), hrest⟩
  nodes w hw := by
    rw [hnodes w hw]
    exact h.nodes w hw
  packets p hp hsender := h.packets p (hsent p hp hsender) hsender

lemma Transfers.exec (action : Action) :
    ∃ s' D', Transfers members cfg now (actions ++ [action]) s' D' := by
  have hrun : (start members cfg now).run (actions ++ [action]) =
      ((start members cfg now).run actions).exec action := run_append _ _ _
  obtain ⟨s', hrel, hle⟩ := h.rel.exec action nofun
  rw [← hrun] at hrel
  refine ⟨s', ?_⟩
  rcases h.rel.exec_cases action with ⟨v, hv, input, heq, heff, _, hsent⟩ |
      ⟨v, hv, time, _, heq⟩ |
      ⟨v, hv, result, heq⟩ | heq
  · have hv' := mem_toFinset.mp hv
    refine h.update hv' (hrun.trans heq) hrel hle ?_
    refine (h.nodes v hv').handle h.rel.sound h.won (h.rel.nodes v hv) heff ?_
    intro sender msg hin hsender
    exact h.packets _ (hsent sender msg hin) (mem_toFinset.mp hsender)
  · have hv' := mem_toFinset.mp hv
    exact h.update hv' (hrun.trans heq) hrel hle (.of_follower (by nofun) nofun nofun)
  · refine ⟨D, h.same hrel hle ?_ ?_⟩
    · intro w hw
      have hwv : w ≠ v := fun h => hv (h ▸ mem_toFinset.mpr hw)
      rw [hrun, heq]
      simp [Cluster.update, hwv]
    intro p hp hsender
    rw [hrun, heq] at hp
    rcases mem_append.mp hp with hp | hp
    · exact hp
    · obtain ⟨o, _, rfl⟩ := mem_map.mp hp
      exact absurd (mem_toFinset.mpr hsender) hv
  · refine ⟨D, h.same hrel hle (fun w _ => by rw [hrun, heq]) fun p hp _ => ?_⟩
    rw [hrun, heq] at hp
    exact hp

end

lemma run_transfers (members : List NodeId) (cfg : NodeId → Config) (now : NodeId → ℕ)
    (actions : List Action) : ∃ s D, Transfers members cfg now actions s D := by
  induction actions using reverseRecOn with
  | nil =>
    refine ⟨emptyHistory, fun _ _ _ => none, start_rel members cfg now, nofun, nofun, ?_, nofun, ?_,
      nofun⟩
    · intro p hp w _ hr
      rw [prefix_nil] at hp
      subst hp
      cases hr
    · exact fun w _ => ⟨nofun, nofun, nofun, nofun⟩
  | append_singleton actions action ih =>
    obtain ⟨s, D, h⟩ := ih
    exact h.exec action

end Run

/-- The snapshot of a leader of term `t` at one moment of a run. -/
def HadSnapshot (c : Cluster) (leader : NodeId) (t : ℕ) (snapshot : Snapshot) : Prop :=
  (c.nodes leader).role = .leader ∧ (c.nodes leader).currentTerm = t ∧
    (c.nodes leader).snapshot = some snapshot

/-- At every moment of every run: the bytes a member has received are a prefix
of a snapshot that the sender had in that term, and of every snapshot with that
index the sender ever had as the leader of that term; what is pending is such a
snapshot as a whole; and the offsets of a leader lie inside its snapshot, as do
the bounds of the slices it sends. -/
theorem snapshot_transfer (members : List NodeId) (cfg : NodeId → Config) (now : NodeId → ℕ)
    (actions : List Action) (i : NodeId) (hi : i ∈ members) :
    let moment := (Cluster.start members cfg now).run
    let n := (moment actions).nodes i
    (∀ inc, n.incomingSnapshot = some inc →
      (∃ p, p <+: actions ∧ ∃ snapshot,
        (((moment p).nodes inc.leader).role = .leader ∨
          ((moment p).nodes inc.leader).fatal.isSome) ∧
        ((moment p).nodes inc.leader).currentTerm = inc.leaderTerm ∧
        ((moment p).nodes inc.leader).snapshot = some snapshot ∧ snapshot.index = inc.index ∧
        TransferOf snapshot inc) ∧
      ∀ p, p <+: actions → ∀ snapshot, HadSnapshot (moment p) inc.leader inc.leaderTerm snapshot →
        snapshot.index = inc.index → TransferOf snapshot inc) ∧
    (∀ pending, n.pendingSnapshot = some pending → ∃ leader, n.leaderId = some leader ∧
      (∃ p, p <+: actions ∧ ((moment p).nodes leader).currentTerm = n.currentTerm ∧
        ((moment p).nodes leader).snapshot = some pending) ∧
      ∀ p, p <+: actions → ∀ snapshot, HadSnapshot (moment p) leader n.currentTerm snapshot →
        snapshot.index = pending.index → snapshot = pending) ∧
    (n.role = .leader → OffsetsOk n) ∧
    ∀ snapshot peer, (n.snapshotRange snapshot peer).1 ≤ (n.snapshotRange snapshot peer).2 ∧
      (n.snapshotRange snapshot peer).2 ≤ snapshot.data.length := by
  intro moment n
  obtain ⟨s, D, h⟩ := run_transfers members cfg now actions
  have hnode : NodeOffers D i n := h.nodes i hi
  -- the leader of the term has no other snapshot with this index
  have hunique : ∀ w t k snapshot, D w t k = some snapshot → ∀ p, p <+: actions → ∀ snapshot',
      HadSnapshot (moment p) w t snapshot' → snapshot'.index = k → snapshot' = snapshot := by
    rintro w t k snapshot hD p hp snapshot' ⟨hr, rfl, hs⟩ rfl
    have := h.past p hp w (h.member _ _ _ _ hD) hr snapshot' hs
    rw [hD] at this
    exact (some.inj this).symm
  refine ⟨?_, ?_, hnode.offsets, fun snapshot peer => snapshotRange_le n snapshot peer⟩
  · intro inc hinc
    obtain ⟨snapshot, hD, htrans⟩ := hnode.incoming inc hinc
    constructor
    · obtain ⟨p, hp, hrole, hterm, hindex, hs⟩ := h.seen _ _ _ _ hD
      exact ⟨p, hp, snapshot, hrole, hterm, hs, hindex.symm, htrans⟩
    · intro p hp snapshot' hhad hindex
      rw [hunique _ _ _ _ hD p hp snapshot' hhad hindex]
      exact htrans
  intro pending hpending
  obtain ⟨inc, hcomplete, rfl⟩ := map_eq_some_iff.mp hpending
  obtain ⟨hinc, hdone, hterm, hleader⟩ := completeIncoming_spec hcomplete
  obtain ⟨snapshot, hD, htrans⟩ := hnode.incoming inc hinc
  obtain ⟨p, hp, _, hpterm, hindex, hs⟩ := h.seen _ _ _ _ hD
  have hwhole : snapshot = ⟨inc.index, inc.term, inc.data⟩ := by
    rw [hindex, htrans.term, htrans.complete hdone]
  rw [hwhole] at hs hD
  refine ⟨inc.leader, hleader, ⟨p, hp, hpterm.trans hterm, hs⟩, ?_⟩
  intro p' hp' snapshot' hhad hindex'
  exact hunique _ _ _ _ hD p' hp' snapshot' (hterm ▸ hhad) hindex'

theorem snapshot_transfer_trio :
    ((trio.run sendFolded).nodes 3).pendingSnapshot = some ⟨1, 1, [7]⟩ ∧
      ∃ leader, ((trio.run sendFolded).nodes 3).leaderId = some leader ∧
        (∃ p, p <+: sendFolded ∧
          ((trio.run p).nodes leader).currentTerm = ((trio.run sendFolded).nodes 3).currentTerm ∧
          ((trio.run p).nodes leader).snapshot = some ⟨1, 1, [7]⟩) ∧
        ∀ p, p <+: sendFolded → ∀ snapshot,
          HadSnapshot (trio.run p) leader ((trio.run sendFolded).nodes 3).currentTerm snapshot →
          snapshot.index = 1 → snapshot = ⟨1, 1, [7]⟩ := by
  have hpending : ((trio.run sendFolded).nodes 3).pendingSnapshot = some ⟨1, 1, [7]⟩ := by
    decide +kernel
  exact ⟨hpending,
    (snapshot_transfer [1, 2, 3] _ _ sendFolded 3 (by decide)).2.1 ⟨1, 1, [7]⟩ hpending⟩

end OnetDns.Raft
