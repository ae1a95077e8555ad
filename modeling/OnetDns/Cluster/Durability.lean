import OnetDns.Cluster.Journal

/-!
# What a node finds after a crash

Loading the files of a node gives back the state of its last write, after any
sequence of inputs and restarts and whatever the messages say, as long as the
numbers in them fit their types. A crash inside a write costs that write at most.
-/
namespace OnetDns.Raft
open RaftNode

/-- What happens to one node. -/
inductive Event where
  | input (input : Input)
  | restart (now : ℕ)

def Event.Fits : Event → Prop
  | .input (.message _ msg) => msg.Fits
  | _ => True

variable {n : RaftNode}

namespace RaftNode

def happen (n : RaftNode) : Event → RaftNode
  | .input input => (n.handle input).1
  | .restart now => n.restart now

def after (n : RaftNode) (events : List Event) : RaftNode := events.foldl happen n

lemma Recorded.happen (h : n.Recorded) {event : Event} (hfits : event.Fits) :
    (n.happen event).Recorded := by
  cases event with
  | input input =>
    refine h.handle ?_
    rintro sender msg rfl
    exact hfits
  | restart now => exact h.restart now

lemma Recorded.after (h : n.Recorded) (events : List Event)
    (hfits : ∀ event ∈ events, event.Fits) : (n.after events).Recorded := by
  induction events generalizing n with
  | nil => exact h
  | cons event events ih =>
    exact ih (h.happen (hfits event List.mem_cons_self))
      fun e he => hfits e (List.mem_cons_of_mem _ he)

/-- A write that goes through leaves the whole state of the node behind. -/
theorem Ledger.persist_image {m : RaftNode} {disk : Disk} (h : n.Ledger disk)
    (hp : n.persist = (m, true)) : ∃ disk', m.storage = some disk' ∧ disk'.image = n.stableView := by
  have hat : n.persistAt disk = (m, none) := by
    simp only [persist, h.storage] at hp
    split at hp
    · rename_i k hk
      rw [hk, (Prod.mk.inj hp).1]
    · cases (Prod.mk.inj hp).2
  unfold persistAt at hat
  dsimp only at hat
  split at hat
  · cases (Prod.mk.inj hat).2
  split at hat
  · unfold storeBase at hat
    dsimp only at hat
    split at hat
    · cases (Prod.mk.inj hat).2
    split at hat
    · cases (Prod.mk.inj hat).2
    rw [← (Prod.mk.inj hat).1]
    refine ⟨_, rfl, ?_⟩
    rw [Disk.image, Disk.load_written]
    rfl
  rename_i hcond
  push Not at hcond
  unfold appendWalFrame at hat
  split at hat
  · cases (Prod.mk.inj hat).2
  have hdigest := h.digest
  have hlen := h.walLen
  have hintact := h.intact
  cases hintact with
  | empty _ => exact absurd hdigest (by simpa using hcond.2.1)
  | @written base records faults sound body chain size =>
    have hfresh : (!n.walFile && decide (n.walLen < walHeaderLen)) = false := by
      rw [Disk.load_written] at hlen
      rw [decide_eq_false (by rw [hlen]; exact not_lt.mpr (Nat.le_add_right _ _)), Bool.and_false]
    rw [hdigest] at hat
    simp only [hfresh, Bool.false_eq_true, if_false, Option.getD_some] at hat
    rw [← (Prod.mk.inj hat).1]
    refine ⟨_, rfl, ?_⟩
    rw [Disk.image, Disk.load_written, lastState_concat]

end RaftNode

/-- What the files of a node give back. -/
structure Durable (sha256 : Bytes → Bytes) (n : RaftNode) (disk : Disk) : Prop where
  storage : n.storage = some disk
  /-- loading finds the state of the last write -/
  loads : loadState sha256 (disk.files sha256) =
    .ok ⟨disk.image, disk.base.map (stateDigest sha256), disk.load.walLen⟩
  /-- which is the whole state of the node that made it -/
  stores : ∀ k m : RaftNode, k.books = n.books → k.persist = (m, true) →
    ∃ disk' : Disk, m.storage = some disk' ∧ disk'.image = k.stableView
  /-- a log that ends inside its last frame costs that frame -/
  cut : ∀ base records record, disk.wal = some ⟨base, records ++ [record]⟩ → ∀ length,
    walHeaderLen + framesLen records ≤ length →
    length < walHeaderLen + framesLen (records ++ [record]) →
    loadState sha256 ⟨(disk.files sha256).base, (disk.files sha256).wal.map (List.take length)⟩ =
      .ok ⟨lastState base records, some (stateDigest sha256 base), walHeaderLen + framesLen records⟩
  /-- a new state file counts although the log was not reset, unless it is the old one -/
  replaced : ∀ (st : StableState) (body : Bytes), st.Fits → encodeStateBody st = .ok body →
    (∀ base old, disk.base = some base → encodeStateBody base = .ok old →
      sha256 old = sha256 body → old = body) →
    ∃ walLen, loadState sha256 ⟨some (body ++ sha256 body), (disk.files sha256).wal⟩ =
      .ok ⟨if disk.base.map encodeStateBody = some (.ok body) then disk.image else st,
        some (sha256 body), walLen⟩

lemma RaftNode.Journaled.durable {sha256 : Bytes → Bytes}
    (hsha : ∀ bytes, (sha256 bytes).length = 32) {disk : Disk} (h : n.Journaled disk) :
    Durable sha256 n disk where
  storage := h.ledger.storage
  loads := h.ledger.intact.loadState_eq hsha
  stores := by
    intro k m hbooks hp
    have hk : k.Ledger disk := h.ledger.of_eq (congrArg Books.storage hbooks)
      (congrArg Books.baseDigest hbooks) (congrArg Books.walLen hbooks)
    exact hk.persist_image hp
  cut := by
    intro base records record hwal length hlow hhigh
    have hintact := h.ledger.intact
    cases hintact with
    | empty _ => cases hwal
    | written faults sound body chain size =>
      cases hwal
      exact loadState_cut hsha (.written faults sound body chain size) hlow hhigh
  replaced := fun st body hf hbody hcollision =>
    loadState_replaced hsha h.ledger.intact hbody hf hcollision

/-- In every run of a node, its files give back what was last written to them. -/
theorem durable_state (sha256 : Bytes → Bytes) (hsha : ∀ bytes, (sha256 bytes).length = 32)
    (id : NodeId) (hid : id ≤ u64Max) (peers : List NodeId) (cfg : Config) (now : ℕ)
    (events : List Event) (hfits : ∀ event ∈ events, event.Fits) :
    ∃ disk, Durable sha256 ((newPersistent id peers cfg {} now).after events) disk := by
  have hstart : (newPersistent id peers cfg {} now).Recorded :=
    newPersistent_recorded hid peers cfg (.empty []) now
  obtain ⟨disk, h⟩ := hstart.after events hfits
  exact ⟨disk, h.durable hsha⟩

/-- A follower receives two committed entries and a snapshot of the first one. It
applies that one itself and folds it, with the same result, and applies the second. -/
def foldBesideTransfer : List Event :=
  [.input (.message 1 (.appendEntries 1 1 0 0 [⟨1, 1, []⟩, ⟨1, 2, [9]⟩] 2)),
    .input (.message 1 (.installSnapshot 1 1 1 1 0 [7] true)),
    .input (.call (.markAppliedBatch 1 1)), .input (.call (.compact [7])),
    .input (.call (.markAppliedBatch 2 2))]

/-- SHA-256 of the state file and of the frame that the run above leaves. -/
def sha256Folded (bytes : Bytes) : Bytes :=
  if encodeStateBody
      { currentTerm := 1, log := [⟨1, 2, [9]⟩], commitIndex := 2, lastApplied := 1,
        snapshot := some ⟨1, 1, [7]⟩ } = .ok bytes then
    [0x66, 0xc9, 0x5f, 0x18, 0xbb, 0xe6, 0x71, 0x09, 0xfb, 0x76, 0x73, 0x33, 0xa5, 0x5c, 0x6f, 0x6b,
      0x62, 0x7e, 0x87, 0x43, 0x4b, 0x64, 0x68, 0x0e, 0x3b, 0x12, 0x64, 0x8c, 0xf9, 0xb0, 0x26, 0x84]
  else if encodeWalBody
      { currentTerm := 1, log := [⟨1, 2, [9]⟩], commitIndex := 2, lastApplied := 2,
        snapshot := some ⟨1, 1, [7]⟩ } 1 = .ok bytes then
    [0x9c, 0x90, 0x47, 0x4d, 0xdd, 0x43, 0xbe, 0xd5, 0x99, 0x85, 0x62, 0xb1, 0xcd, 0x55, 0x8f, 0x9b,
      0x45, 0xa0, 0x14, 0xe6, 0xe9, 0xd0, 0x97, 0xb6, 0x4e, 0xdd, 0x6c, 0x5a, 0x05, 0xf7, 0xd7, 0x5a]
  else List.replicate 32 0

theorem durable_state_folded :
    ∃ disk, Durable sha256Folded ((newPersistent 3 [1, 2, 3] ⟨2, 1⟩ {} 7).after foldBesideTransfer)
      disk := by
  refine durable_state sha256Folded ?_ 3 (by decide) [1, 2, 3] ⟨2, 1⟩ 7 foldBesideTransfer ?_
  · intro bytes
    unfold sha256Folded
    split
    · rfl
    split
    · rfl
    · exact List.length_replicate
  intro event he
  simp only [foldBesideTransfer, List.mem_cons, List.not_mem_nil, or_false] at he
  rcases he with rfl | rfl | rfl | rfl | rfl
  · refine ⟨by decide, ?_⟩
    decide
  · exact ⟨by decide, by decide⟩
  all_goals trivial

/-- The node that `finish_snapshot_install` writes, with its new state file next to the old log. -/
def replacedFiles (n : RaftNode) (incoming : IncomingSnapshot) : Files where
  base := (encodeState sha256Folded (n.installIncoming incoming).stableView).toOption
  wal := (n.storage.getD {}).files sha256Folded |>.wal

theorem replaced_by_same :
    (((newPersistent 3 [1, 2, 3] ⟨2, 1⟩ {} 7).after foldBesideTransfer).completeIncoming) =
      some ⟨1, 1, 1, 1, [7], true⟩ ∧
    ((((newPersistent 3 [1, 2, 3] ⟨2, 1⟩ {} 7).after foldBesideTransfer).installIncoming
      ⟨1, 1, 1, 1, [7], true⟩).persist).2 = true ∧
    (((newPersistent 3 [1, 2, 3] ⟨2, 1⟩ {} 7).after foldBesideTransfer).installIncoming
      ⟨1, 1, 1, 1, [7], true⟩).stableView.lastApplied = 1 ∧
    (loadState sha256Folded
      (replacedFiles ((newPersistent 3 [1, 2, 3] ⟨2, 1⟩ {} 7).after foldBesideTransfer)
      ⟨1, 1, 1, 1, [7], true⟩)).toOption.map (·.state.lastApplied) = some 2 := by
  decide +kernel

end OnetDns.Raft
