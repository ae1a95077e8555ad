import OnetDns.Cluster.WalFiles
import OnetDns.Cluster.SimElection

/-!
# The node and its journal

A node whose snapshot is the one in its state file may be ahead of its disk, but
only in a way that the next frame can express (`Ahead`): what the disk holds of
the log is kept up to `durable_log_len`, and everything the disk calls committed
lies below. A snapshot that is not on disk yet is written with the whole state.
No operation leaves these two cases, whatever messages arrive.
-/
namespace OnetDns.Raft
open List Bool Nat Disk

/-- The state `view` in memory can be written as a frame behind the state `st` on
disk, from entry `durable` of the log on. -/
structure Ahead (st view : StableState) (durable : ℕ) : Prop where
  sound : view.Sound
  term : st.currentTerm ≤ view.currentTerm
  vote : view.currentTerm = st.currentTerm → st.votedFor.isSome → view.votedFor = st.votedFor
  commit : st.commitIndex ≤ view.commitIndex
  applied : st.lastApplied ≤ view.lastApplied
  boot : st.bootCounter ≤ view.bootCounter
  snapshot : view.snapshot = st.snapshot
  durable_le : durable ≤ view.log.length
  held : durable ≤ st.log.length
  agree : view.log.take durable = st.log.take durable
  committed : st.commitIndex ≤ view.snapshotIndex + durable

variable {commit : ℕ}

namespace Ahead

variable {st view : StableState} {durable : ℕ}

lemma refl (h : view.Sound) : Ahead view view view.log.length :=
  ⟨h, le_rfl, fun _ _ => rfl, le_rfl, le_rfl, le_rfl, rfl, le_rfl, le_rfl, rfl, h.commit_le⟩

section

variable (h : Ahead st view durable)
include h

lemma replays {body : Bytes} (hbody : encodeWalBody view (min durable view.log.length) = .ok body) :
    Replays st ⟨view, min durable view.log.length⟩ := by
  have hmin : min durable view.log.length = durable := min_eq_left h.durable_le
  have hsnap : view.snapshotIndex = st.snapshotIndex := by
    rw [StableState.snapshotIndex, StableState.snapshotIndex, h.snapshot]
  rw [hmin] at hbody ⊢
  refine ⟨h.sound, ⟨body, hbody⟩, h.term, h.vote, h.commit, h.applied, h.boot, h.snapshot, h.held,
    h.agree, ?_⟩
  rw [← hsnap]
  exact h.committed

lemma withTerm {term : ℕ} {vote : Option NodeId} (hlt : view.currentTerm < term)
    (hterm : term ≤ u64Max) (hvote : ∀ id, vote = some id → id ≤ u64Max) :
    Ahead st { view with currentTerm := term, votedFor := vote } durable :=
  { h with
    sound := { h.sound with term := hterm, vote := hvote }
    term := h.term.trans hlt.le
    vote := fun heq _ => absurd heq (h.term.trans_lt hlt).ne' }

lemma withVote {candidate : NodeId}
    (hfree : view.votedFor.all (· == candidate) = true) (hfits : candidate ≤ u64Max) :
    Ahead st { view with votedFor := some candidate } durable :=
  { h with
    sound := { h.sound with vote := fun id hid => Option.some.inj hid ▸ hfits }
    vote := by
      intro heq hsome
      have hvote := h.vote heq hsome
      obtain ⟨id, hid⟩ := Option.isSome_iff_exists.mp hsome
      rw [hid] at hvote
      rw [hvote] at hfree
      have : id = candidate := by simpa using hfree
      rw [hid, this] }

lemma withCommit (hlow : view.commitIndex ≤ commit)
    (hhigh : commit ≤ view.snapshotIndex + view.log.length) :
    Ahead st { view with commitIndex := commit } durable :=
  { h with
    sound := { h.sound with commit_le := hhigh, applied_le := h.sound.applied_le.trans hlow }
    commit := h.commit.trans hlow }

lemma withApplied {applied : ℕ} (hlow : view.lastApplied ≤ applied)
    (hhigh : applied ≤ view.commitIndex) : Ahead st { view with lastApplied := applied } durable :=
  { h with
    sound := { h.sound with applied_le := hhigh, snapshot_le := h.sound.snapshot_le.trans hlow }
    applied := h.applied.trans hlow }

lemma withBoot {boot : ℕ} (hlow : view.bootCounter ≤ boot)
    (hhigh : boot ≤ u64Max) : Ahead st { view with bootCounter := boot } durable :=
  { h with
    sound := { h.sound with boot := hhigh }
    boot := h.boot.trans hlow }

/-- Another log, the same up to entry `cut`, that keeps what is committed. -/
theorem withLog {log : List LogEntry} {cut : ℕ} (hcut : cut ≤ durable) (hle : cut ≤ log.length)
    (hagree : log.take cut = view.log.take cut)
    (hkept : view.commitIndex ≤ view.snapshotIndex + cut ∨ cut = durable)
    (hcommit : view.commitIndex ≤ view.snapshotIndex + log.length)
    (hterm : ∀ e ∈ log, e.term ≤ u64Max)
    (hindex : ∀ i e, log[i]? = some e → e.index = view.snapshotIndex + 1 + i)
    (hlast : view.snapshotIndex + log.length ≤ u64Max) : Ahead st { view with log := log } cut :=
  { h with
    sound := { h.sound with
      entries := hterm, index := hindex, last_le := hlast, commit_le := hcommit }
    durable_le := hle
    held := hcut.trans h.held
    agree := by
      calc log.take cut = view.log.take cut := hagree
        _ = (view.log.take durable).take cut := by rw [take_take, min_eq_left hcut]
        _ = (st.log.take durable).take cut := by rw [h.agree]
        _ = st.log.take cut := by rw [take_take, min_eq_left hcut]
    committed := by
      rcases hkept with hkept | rfl
      · exact h.commit.trans hkept
      · exact h.committed }

lemma append {added : List LogEntry} (hterm : ∀ e ∈ added, e.term ≤ u64Max)
    (hindex : ∀ i e, added[i]? = some e → e.index = view.snapshotIndex + view.log.length + 1 + i)
    (hlast : view.snapshotIndex + view.log.length + added.length ≤ u64Max) :
    Ahead st { view with log := view.log ++ added } durable := by
  have hdurable := h.durable_le
  have hcommit := h.sound.commit_le
  refine h.withLog le_rfl ?_ (take_append_of_le_length hdurable) (.inr rfl) ?_ ?_ ?_ ?_
  · rw [length_append]
    omega
  · rw [length_append]
    omega
  · intro e he
    rcases mem_append.mp he with he | he
    · exact h.sound.entries e he
    · exact hterm e he
  · intro i e he
    rcases lt_or_ge i view.log.length with hi | hi
    · rw [getElem?_append_left hi] at he
      exact h.sound.index i e he
    · rw [getElem?_append_right hi] at he
      have := hindex _ e he
      omega
  · rw [length_append]
    omega

end

end Ahead

/-- The numbers a node may write later fit their types. -/
structure RaftNode.Bounded (n : RaftNode) : Prop where
  fits : n.stableView.Fits
  ident : n.id ≤ u64Max
  incoming : ∀ inc, n.incomingSnapshot = some inc → 0 < inc.index ∧ inc.term ≤ u64Max

/-- An entry behind the last index there is. Such a log is never written. -/
structure RaftNode.Wedged (n : RaftNode) : Prop where
  full : n.snapshotIndex = u64Max
  durable : n.durableLogLen = 0
  first : ∃ e rest, n.log = e :: rest ∧ e.index ≤ u64Max

/-- What a node may look like when it is about to write, over the state on disk. -/
inductive RaftNode.Ready (st : StableState) (n : RaftNode) : Prop
  | ahead (clean : n.snapshotDirty = false) (h : Ahead st n.stableView n.durableLogLen)
  | dirty (h : n.snapshotDirty = true)
  | wedged (clean : n.snapshotDirty = false) (h : n.Wedged)

/-- The books of a node with intact files. -/
structure RaftNode.Ledger (n : RaftNode) (disk : Disk) : Prop where
  storage : n.storage = some disk
  intact : disk.Intact
  digest : n.baseDigest = disk.base
  walLen : n.walLen = disk.load.walLen

/-- What holds between operations: only a stopped node has something in memory
that no frame expresses. -/
structure RaftNode.Journaled (n : RaftNode) (disk : Disk) : Prop where
  ledger : n.Ledger disk
  bounded : n.Bounded
  ready : n.Ready disk.image
  running : n.fatal = none → n.snapshotDirty = false ∧ Ahead disk.image n.stableView n.durableLogLen

lemma Disk.Intact.setFaults {disk : Disk} (h : disk.Intact) (faults : List (Option String)) :
    ({ disk with faults } : Disk).Intact := by
  cases h with
  | empty _ => exact .empty faults
  | written _ sound body chain size => exact .written faults sound body chain size

namespace RaftNode

variable {n m : RaftNode} {disk : Disk}

lemma Journaled.of_ahead (hl : n.Ledger disk) (hb : n.Bounded) (hclean : n.snapshotDirty = false)
    (h : Ahead disk.image n.stableView n.durableLogLen) : n.Journaled disk :=
  ⟨hl, hb, .ahead hclean h, fun _ => ⟨hclean, h⟩⟩

lemma Ledger.of_eq (h : n.Ledger disk) (hs : m.storage = n.storage)
    (hd : m.baseDigest = n.baseDigest) (hw : m.walLen = n.walLen) : m.Ledger disk :=
  ⟨hs.trans h.storage, h.intact, hd.trans h.digest, hw.trans h.walLen⟩

lemma Ledger.setFaults (h : n.Ledger disk) (faults : List (Option String))
    (hs : m.storage = some { disk with faults }) (hd : m.baseDigest = n.baseDigest)
    (hw : m.walLen = n.walLen) : m.Ledger { disk with faults } :=
  ⟨hs, h.intact.setFaults faults, hd.trans h.digest, hw.trans h.walLen⟩

lemma Bounded.of_view (h : n.Bounded) (hview : m.stableView.Fits) (hid : m.id = n.id)
    (hinc : ∀ inc, m.incomingSnapshot = some inc → n.incomingSnapshot = some inc) : m.Bounded :=
  ⟨hview, hid ▸ h.ident, fun inc hi => h.incoming inc (hinc inc hi)⟩

/-- The index behind the last one cannot be written. -/
theorem Wedged.encode (h : n.Wedged) (body : Bytes) :
    encodeWalBody n.stableView (min n.durableLogLen n.log.length) ≠ .ok body := by
  obtain ⟨e, rest, hlog, hle⟩ := h.first
  intro hbody
  unfold encodeWalBody at hbody
  split at hbody
  · cases hbody
  split at hbody
  · cases hbody
  rename_i entries hentries
  have hindex := (encodeWalEntries_ok hentries).2.1 0 e (by
    change (n.log.drop _)[0]? = some e
    rw [h.durable, hlog]
    rfl)
  rw [show n.stableView.snapshotIndex = u64Max from h.full] at hindex
  omega

/-- The two ways a write of a node ends. -/
inductive Written (n : RaftNode) : Prop
  | ok (b : Books) (disk : Disk) (h : n.persist = (n.withBooks b, true))
      (ledger : (n.withBooks b).Ledger disk) (clean : b.snapshotDirty = false)
      (ahead : Ahead disk.image n.stableView b.durableLogLen)
  | failed (b : Books) (error : String) (disk : Disk)
      (h : n.persist = ((n.withBooks b).failStop error, false))
      (journaled : ((n.withBooks b).failStop error).Journaled disk)

lemma persist_ok (hs : n.storage = some disk) (h : n.persistAt disk = (m, none)) :
    n.persist = (m, true) := by
  simp only [persist, hs, h]

lemma persist_error {error : String} (hs : n.storage = some disk)
    (h : n.persistAt disk = (m, some error)) : ∃ text, n.persist = (m.failStop text, false) := by
  simp only [persist, hs, h]
  exact ⟨_, rfl⟩

/-- A write that fails leaves what was on disk, and a stopped node. -/
theorem Ready.written_error (hb : n.Bounded) (h : n.Ready disk.image) (hs : n.storage = some disk)
    {b : Books} {disk' : Disk} {error : String} (hp : n.persistAt disk = (n.withBooks b, some error))
    (hl : (n.withBooks b).Ledger disk') (himage : disk'.image = disk.image)
    (hdirty : b.snapshotDirty = n.snapshotDirty) (hdurable : b.durableLogLen = n.durableLogLen) :
    n.Written := by
  obtain ⟨text, htext⟩ := persist_error hs hp
  refine .failed b text disk' htext
    ⟨hl.of_eq rfl rfl rfl, hb.of_view hb.fits rfl (fun _ hi => hi), ?_, nofun⟩
  rw [himage]
  cases h with
  | ahead clean h =>
    refine .ahead (hdirty.trans clean) ?_
    change Ahead disk.image n.stableView b.durableLogLen
    rw [hdurable]
    exact h
  | dirty h => exact .dirty (hdirty.trans h)
  | wedged clean h => exact .wedged (hdirty.trans clean) ⟨h.full, hdurable.trans h.durable, h.first⟩

lemma Ready.written_base (hl : n.Ledger disk) (hb : n.Bounded) (h : n.Ready disk.image)
    (hp : n.persistAt disk = n.storeBase disk) : n.Written := by
  unfold storeBase at hp
  dsimp only at hp
  split at hp
  · exact h.written_error hb hl.storage (b := ⟨n.storage, _, _, _, _, false⟩) hp
      (hl.of_eq rfl rfl rfl) rfl rfl rfl
  rename_i body hbody
  split at hp
  · exact h.written_error hb hl.storage (b := ⟨_, _, _, _, _, _⟩) hp
      (hl.setFaults _ rfl rfl rfl) rfl rfl rfl
  have hsound : n.stableView.Sound := (encodeStateBody_ok hbody).sound hb.fits
  have hsize : walHeaderLen + framesLen [] ≤ maxWalBytes := by decide
  refine .ok ⟨_, _, _, _, _, _⟩ _ (persist_ok hl.storage hp)
    ⟨rfl, .written _ hsound ⟨body, hbody⟩ trivial hsize, rfl, ?_⟩ rfl ?_
  · rw [load_written]
    rfl
  · rw [Disk.image, load_written]
    exact .refl hsound

lemma Ready.written_frame (hl : n.Ledger disk) (hb : n.Bounded) (h : n.Ready disk.image)
    {body : Bytes}
    (hbody : encodeWalBody n.stableView (min n.durableLogLen n.log.length) = .ok body)
    (hclean : n.snapshotDirty = false) (hdigest : n.baseDigest.isSome)
    (hsize : satAdd n.walLen (frameLen body) ≤ maxWalBytes)
    (hp : n.persistAt disk = n.appendWalFrame disk ⟨n.stableView, min n.durableLogLen n.log.length⟩
      (frameLen body)) : n.Written := by
  unfold appendWalFrame at hp
  split at hp
  · exact h.written_error hb hl.storage (b := ⟨_, _, _, _, _, _⟩) hp
      (hl.setFaults _ rfl rfl rfl) rfl rfl rfl
  have hahead : Ahead disk.image n.stableView n.durableLogLen := by
    cases h with
    | ahead _ h => exact h
    | dirty h => exact absurd (hclean.symm.trans h) (by decide)
    | wedged _ h => exact absurd hbody (h.encode body)
  have hdisk := hl.intact
  have hbase := hl.digest
  have hlen := hl.walLen
  cases hdisk with
  | empty _ =>
    rw [hbase] at hdigest
    cases hdigest
  | @written base records old sound basebody chain size =>
    rw [load_written] at hlen
    rw [Disk.image, load_written] at hahead
    have hfresh : (!n.walFile && decide (n.walLen < walHeaderLen)) = false := by
      have : ¬ n.walLen < walHeaderLen := by
        rw [hlen]
        exact not_lt.mpr (le_add_right _ _)
      rw [decide_eq_false this, Bool.and_false]
    have hbound : n.walLen + frameLen body ≤ maxWalBytes := by
      have : maxWalBytes < u64Max := by decide
      rw [satAdd] at hsize
      omega
    have hrecord : WalRecord.len ⟨n.stableView, min n.durableLogLen n.log.length⟩ = frameLen body := by
      simp only [WalRecord.len, hbody]
    have hsum : n.walLen + frameLen body =
        walHeaderLen + framesLen (records ++ [⟨n.stableView, min n.durableLogLen n.log.length⟩]) := by
      rw [framesLen_concat, hrecord, hlen]
      exact add_assoc _ _ _
    have hchain := chain.concat (hahead.replays hbody)
    have hle : n.walLen + frameLen body ≤ u64Max := hbound.trans (by decide)
    rw [hbase] at hp
    simp only [hfresh, false_eq_true, if_false, Option.getD_some] at hp
    refine .ok ⟨_, _, _, _, _, _⟩ _ (persist_ok hl.storage hp)
      ⟨rfl, .written _ sound basebody hchain (hsum ▸ hbound), rfl, ?_⟩ hclean ?_
    · rw [load_written]
      change satAdd n.walLen (frameLen body) = _
      rw [satAdd_of_le hle, hsum]
    · rw [Disk.image, load_written, lastState_concat]
      exact .refl hahead.sound

/-- Every write either goes through or stops the node. -/
theorem Ready.written (hl : n.Ledger disk) (hb : n.Bounded) (h : n.Ready disk.image) :
    n.Written := by
  cases hbody : encodeWalBody n.stableView (min n.durableLogLen n.log.length) with
  | error error =>
    have hp : n.persistAt disk = (n, some error) := by
      simp only [persistAt, hbody]
    exact h.written_error hb hl.storage (b := n.books) hp hl rfl rfl rfl
  | ok body =>
    by_cases hcond : n.snapshotDirty ∨ n.baseDigest.isNone ∨
        maxWalBytes < satAdd n.walLen (frameLen body)
    · refine h.written_base hl hb ?_
      simp only [persistAt, hbody, if_pos hcond]
    have hp : n.persistAt disk = n.appendWalFrame disk
        ⟨n.stableView, min n.durableLogLen n.log.length⟩ (frameLen body) := by
      simp only [persistAt, hbody, if_neg hcond]
    push Not at hcond
    obtain ⟨hclean, hdigest, hsize⟩ := hcond
    refine h.written_frame hl hb hbody (by simpa using hclean) ?_ hsize hp
    rw [Option.isSome_iff_ne_none]
    simpa using hdigest

/-- A node with nothing in memory that a frame could not express. -/
structure Live (n : RaftNode) (disk : Disk) : Prop where
  ledger : n.Ledger disk
  bounded : n.Bounded
  clean : n.snapshotDirty = false
  ahead : Ahead disk.image n.stableView n.durableLogLen

/-- Between operations, for some contents of the files. -/
def Recorded (n : RaftNode) : Prop := ∃ disk, n.Journaled disk

lemma Live.recorded (h : n.Live disk) : n.Recorded :=
  ⟨disk, .of_ahead h.ledger h.bounded h.clean h.ahead⟩

lemma Journaled.live (h : n.Journaled disk) (hrun : n.fatal = none) : n.Live disk :=
  ⟨h.ledger, h.bounded, (h.running hrun).1, (h.running hrun).2⟩

/-- Everything the journal is about stays. -/
structure Same (n m : RaftNode) : Prop where
  view : m.stableView = n.stableView
  ident : m.id = n.id
  incoming : ∀ inc, m.incomingSnapshot = some inc → n.incomingSnapshot = some inc
  books : m.books = n.books

lemma Ledger.same (h : n.Ledger disk) (hs : Same n m) : m.Ledger disk :=
  h.of_eq (congrArg Books.storage hs.books) (congrArg Books.baseDigest hs.books)
    (congrArg Books.walLen hs.books)

lemma Bounded.same (h : n.Bounded) (hs : Same n m) : m.Bounded :=
  h.of_view (hs.view ▸ h.fits) hs.ident hs.incoming

lemma Live.same (h : n.Live disk) (hs : Same n m) : m.Live disk where
  ledger := h.ledger.same hs
  bounded := h.bounded.same hs
  clean := (congrArg Books.snapshotDirty hs.books).trans h.clean
  ahead := by
    rw [hs.view, show m.durableLogLen = n.durableLogLen from congrArg Books.durableLogLen hs.books]
    exact h.ahead

lemma Live.recorded_same (h : n.Live disk) (hs : Same n m) : m.Recorded := (h.same hs).recorded

lemma Ready.same {st : StableState} (h : n.Ready st) (hs : Same n m) : m.Ready st := by
  have hdirty : m.snapshotDirty = n.snapshotDirty := congrArg Books.snapshotDirty hs.books
  have hdurable : m.durableLogLen = n.durableLogLen := congrArg Books.durableLogLen hs.books
  cases h with
  | ahead clean h =>
    refine .ahead (hdirty.trans clean) ?_
    rw [hs.view, hdurable]
    exact h
  | dirty h => exact .dirty (hdirty.trans h)
  | wedged clean h =>
    refine .wedged (hdirty.trans clean) ⟨?_, hdurable.trans h.durable, ?_⟩
    · exact (congrArg StableState.snapshotIndex hs.view).trans h.full
    · rw [show m.log = n.log from congrArg StableState.log hs.view]
      exact h.first

lemma Journaled.failStop (h : n.Journaled disk) (error : String) :
    (n.failStop error).Journaled disk := by
  have hs : Same n (n.failStop error) := ⟨rfl, rfl, fun _ hi => hi, rfl⟩
  exact ⟨h.ledger.same hs, h.bounded.same hs, h.ready.same hs, nofun⟩

lemma Recorded.failStop (h : n.Recorded) (error : String) : (n.failStop error).Recorded := by
  obtain ⟨disk, h⟩ := h
  exact ⟨disk, h.failStop error⟩

/-- What comes after a write keeps the files if it does so in either outcome. -/
@[elab_as_elim]
theorem Written.elim {motive : RaftNode × Bool → Prop} (h : n.Written) (hb : n.Bounded)
    (hok : ∀ b disk, (n.withBooks b).Live disk → motive (n.withBooks b, true))
    (hno : ∀ m : RaftNode, m.Recorded → motive (m, false)) : motive n.persist := by
  cases h with
  | ok b disk h ledger clean ahead =>
    rw [h]
    exact hok b disk ⟨ledger, hb.of_view hb.fits rfl (fun _ hi => hi), clean, ahead⟩
  | failed b error disk h journaled =>
    rw [h]
    exact hno _ ⟨disk, journaled⟩

section

variable (h : n.Live disk)
include h

lemma Live.written : n.Written := Ready.written h.ledger h.bounded (.ahead h.clean h.ahead)

lemma Live.lastIndex_eq : n.lastIndex = n.snapshotIndex + n.log.length := by
  unfold lastIndex
  rcases eq_nil_or_concat n.log with hnil | ⟨front, e, hlog⟩
  · rw [hnil]
    rfl
  have hindex := h.ahead.sound.index front.length e (by
    change n.log[front.length]? = some e
    rw [hlog]
    simp)
  rw [hlog, concat_eq_append, getLast?_concat, length_append]
  change e.index = n.snapshotIndex + 1 + front.length at hindex
  simp only [length_singleton]
  omega

/-- Changes of memory that only concern the state to write. -/
theorem Live.change {view : StableState} (hview : m.stableView = view)
    (hahead : Ahead disk.image view m.durableLogLen) (hid : m.id = n.id)
    (hinc : ∀ inc, m.incomingSnapshot = some inc → n.incomingSnapshot = some inc)
    (hs : m.storage = n.storage) (hd : m.baseDigest = n.baseDigest) (hw : m.walLen = n.walLen)
    (hdirty : m.snapshotDirty = n.snapshotDirty) : m.Live disk := by
  subst hview
  exact ⟨h.ledger.of_eq hs hd hw, h.bounded.of_view hahead.sound.toFits hid hinc,
    hdirty.trans h.clean, hahead⟩

lemma Live.advanceCommit : n.advanceCommit.Live disk := by
  obtain ⟨index, heq, hindex⟩ := advanceCommit_eq n
  have hcommit := h.ahead.sound.commit_le
  have hlast := h.ahead.sound.last_le
  have hrange : n.commitIndex ≤ index ∧ index ≤ n.snapshotIndex + n.log.length := by
    rcases hindex with rfl | ⟨hlow, hhigh, _⟩
    · exact ⟨le_rfl, hcommit⟩
    · rw [h.lastIndex_eq] at hhigh
      exact ⟨(le_satAdd (hcommit.trans hlast)).trans hlow, hhigh⟩
  rw [heq]
  exact h.change rfl (h.ahead.withCommit hrange.1 hrange.2) rfl (fun _ hi => hi) rfl rfl rfl rfl

/-- Entries of the current term behind the log. -/
theorem Live.appendLog {added : List LogEntry}
    (hadded : ∀ i e, added[i]? = some e → e.index = n.lastIndex + 1 + i ∧ e.term = n.currentTerm)
    (hlast : n.lastIndex + added.length ≤ u64Max) :
    ({ n with log := n.log ++ added } : RaftNode).Live disk := by
  rw [h.lastIndex_eq] at hlast hadded
  refine h.change rfl (h.ahead.append ?_ ?_ hlast) rfl (fun _ hi => hi) rfl rfl rfl rfl
  · intro e he
    obtain ⟨i, hi⟩ := mem_iff_getElem?.mp he
    rw [(hadded i e hi).2]
    exact h.bounded.fits.term
  · exact fun i e he => (hadded i e he).1

lemma Live.becomeLeader : n.becomeLeader.Recorded := by
  unfold RaftNode.becomeLeader
  dsimp only
  set leader : RaftNode := { n with
    role := .leader, leaderId := some n.id, heartbeatElapsed := max n.cfg.heartbeat 1 }
  have hlead : leader.Live disk := h.same ⟨rfl, rfl, fun _ hi => hi, rfl⟩
  split
  · exact hlead.recorded.failStop _
  split
  · exact hlead.recorded.failStop _
  rename_i noopIndex hnext
  obtain ⟨rfl, hle⟩ := checkedAdd_eq_some hnext
  have hwrite : ({ leader with
      log := leader.log ++ [⟨leader.currentTerm, leader.lastIndex + 1, []⟩] } : RaftNode).Live disk := by
    refine hlead.appendLog ?_ hle
    intro i e he
    obtain ⟨rfl, rfl⟩ : i = 0 ∧ _ = e := by
      cases i with
      | zero => exact ⟨rfl, by simpa using he⟩
      | succ i => simp at he
    exact ⟨rfl, rfl⟩
  exact hwrite.advanceCommit.written.elim hwrite.advanceCommit.bounded
    (fun _ _ hlive => hlive.recorded_same ⟨rfl, rfl, fun _ hi => hi, rfl⟩) fun _ hm => hm

lemma Live.startElection : n.startElection.1.Recorded := by
  unfold RaftNode.startElection
  split
  · exact h.recorded.failStop _
  rename_i nextTerm hnext
  obtain ⟨rfl, hle⟩ := checkedAdd_eq_some hnext
  dsimp only
  set n₁ := resetElectionTimeout { n with
    currentTerm := n.currentTerm + 1, role := .candidate, votedFor := some n.id, leaderId := none,
    votes := {n.id} }
  have hstand : n₁.Live disk := by
    refine h.change rfl (h.ahead.withTerm (lt_succ_self _) hle ?_) rfl (fun _ hi => hi) rfl rfl
      rfl rfl
    intro id hid
    rw [← Option.some.inj hid]
    exact h.bounded.ident
  refine hstand.written.elim hstand.bounded (fun b disk' hlive => ?_) fun _ hm => hm
  dsimp only
  split
  · exact hlive.becomeLeader
  · exact hlive.recorded

lemma Live.tick : n.tick.1.Recorded := by
  unfold RaftNode.tick
  split
  · exact h.recorded
  split
  · dsimp only
    split
    · exact h.recorded_same ⟨rfl, rfl, fun _ hi => hi, rfl⟩
    · exact h.recorded_same ⟨rfl, rfl, fun _ hi => hi, rfl⟩
  dsimp only
  have hwait : ({ n with electionElapsed := min (n.electionElapsed + 1) u32Max } : RaftNode).Live
      disk := h.same ⟨rfl, rfl, fun _ hi => hi, rfl⟩
  split
  · exact hwait.startElection
  · exact hwait.recorded

lemma Live.proposeBatch (entries : List Bytes) : (n.proposeBatch entries).1.Recorded := by
  unfold RaftNode.proposeBatch
  split
  · exact h.recorded
  split
  · exact h.recorded
  split
  · exact h.recorded
  split
  · exact h.recorded
  split
  · exact h.recorded
  split
  · exact h.recorded
  rename_i firstIndex hfirst
  split
  · exact h.recorded
  rename_i lastIndex hlast
  obtain ⟨rfl, _⟩ := checkedAdd_eq_some hfirst
  obtain ⟨rfl, hle⟩ := checkedAdd_eq_some hlast
  dsimp only
  have hwrite : ({ n with
      log := n.log ++ proposedEntries n.currentTerm (n.lastIndex + 1) entries } : RaftNode).Live
      disk := by
    refine h.appendLog (fun i e he => ?_) ?_
    · exact proposedEntries_getElem? _ _ _ _ _ he
    · rw [proposedEntries_length]
      omega
  exact hwrite.advanceCommit.written.elim hwrite.advanceCommit.bounded (fun _ _ hlive => hlive.recorded) fun _ hm => hm

lemma Live.handleRequestVote (term : ℕ) {candidate : NodeId}
    (hfits : candidate ≤ u64Max) (lastLogIndex lastLogTerm : ℕ) :
    (n.handleRequestVote term candidate lastLogIndex lastLogTerm).1.Recorded := by
  unfold RaftNode.handleRequestVote
  split
  · rename_i hgrant
    have hfree : n.votedFor.all (· == candidate) = true := by
      unfold grantsVote at hgrant
      simp only [and_eq_true] at hgrant
      exact hgrant.1.2
    have hvote : (resetElectionTimeout { n with votedFor := some candidate }).Live disk :=
      h.change rfl (h.ahead.withVote hfree hfits) rfl (fun _ hi => hi) rfl rfl rfl rfl
    exact hvote.written.elim hvote.bounded (fun _ _ hlive => hlive.recorded) fun _ hm => hm
  · exact h.recorded

lemma Live.handleVoteResp (sender term : ℕ) (granted : Bool) :
    (n.handleVoteResp sender term granted).1.Recorded := by
  unfold RaftNode.handleVoteResp
  split
  · exact h.recorded
  split
  · dsimp only
    have hvote : ({ n with votes := insert sender n.votes } : RaftNode).Live disk :=
      h.same ⟨rfl, rfl, fun _ hi => hi, rfl⟩
    split
    · exact hvote.becomeLeader
    · exact hvote.recorded
  · exact h.recorded

lemma Live.recordProgress (peer index : ℕ) : (n.recordProgress peer index).Live disk := by
  refine advanceCommit (h.same ?_)
  exact ⟨rfl, rfl, fun _ hi => hi, rfl⟩

lemma Live.handleAppendResp (sender term : ℕ) (success : Bool) (index : ℕ) :
    (n.handleAppendResp sender term success index).1.Recorded := by
  unfold RaftNode.handleAppendResp
  split
  · exact h.recorded
  split
  · dsimp only
    split
    · exact (h.recordProgress sender index).recorded
    · exact (h.recordProgress sender index).recorded
  · exact h.recorded_same ⟨rfl, rfl, fun _ hi => hi, rfl⟩

lemma Live.handleInstallSnapshotResp (sender term index next : ℕ)
    (installed : Bool) : (n.handleInstallSnapshotResp sender term index next installed).1.Recorded := by
  unfold RaftNode.handleInstallSnapshotResp
  split
  · exact h.recorded
  split
  · exact h.recorded
  split
  · exact h.recorded
  split
  · dsimp only
    have hremove : ({ n with
        snapshotOffsets := removeKey n.snapshotOffsets sender } : RaftNode).Live disk :=
      h.same ⟨rfl, rfl, fun _ hi => hi, rfl⟩
    split
    · exact (hremove.recordProgress sender index).recorded
    · exact (hremove.recordProgress sender index).recorded
  · exact h.recorded_same ⟨rfl, rfl, fun _ hi => hi, rfl⟩

end

variable {entries : List LogEntry}

/-- The entry loop keeps a node writable, as long as there is an index behind the snapshot. -/
theorem mergeEntries_ahead {st : StableState} (view : StableState)
    (hbase : view.snapshotIndex < u64Max) {log : List LogEntry} {durable : ℕ} (changed : Bool)
    (hfits : ∀ e ∈ entries, e.term ≤ u64Max ∧ e.index ≤ u64Max)
    (h : Ahead st { view with log := log } durable) :
    Ahead st { view with
        log := (mergeEntries view.snapshotIndex view.commitIndex entries log durable changed).log }
      (mergeEntries view.snapshotIndex view.commitIndex entries log durable changed).durableLogLen := by
  induction entries generalizing log durable changed with
  | nil => exact h
  | cons entry rest ih =>
    have hrest : ∀ e ∈ rest, e.term ≤ u64Max ∧ e.index ≤ u64Max :=
      fun e he => hfits e (mem_cons_of_mem _ he)
    obtain ⟨hterm, hindex⟩ := hfits entry mem_cons_self
    have hsat : satAdd view.snapshotIndex 1 = view.snapshotIndex + 1 := satAdd_of_le hbase
    unfold mergeEntries
    rw [hsat]
    split
    · exact h
    dsimp only
    split
    · rename_i held hheld
      split
      · split
        · exact h
        refine ih true hrest ?_
        have hlt := (List.getElem?_eq_some_iff.mp hheld).1
        have hcut : (log.take (entry.index - (view.snapshotIndex + 1)) ++ [entry]).length =
            entry.index - (view.snapshotIndex + 1) + 1 := by
          simp only [length_append, length_take, length_singleton]
          omega
        refine h.withLog (min_le_left _ _) ?_ ?_ ?_ ?_ ?_ ?_ ?_
        · omega
        · rw [take_append_of_le_length (by rw [length_take]; omega), take_take,
            min_eq_left (min_le_right _ _)]
        · change view.commitIndex ≤ view.snapshotIndex + _ ∨ _
          omega
        · change view.commitIndex ≤ view.snapshotIndex + _
          omega
        · intro e he
          rcases mem_append.mp he with he | he
          · exact h.sound.entries e (mem_of_mem_take he)
          · rw [mem_singleton.mp he]
            exact hterm
        · intro i e he
          rcases lt_or_ge i (entry.index - (view.snapshotIndex + 1)) with hi | hi
          · rw [getElem?_append_left (by rw [length_take]; omega),
              getElem?_take_of_lt hi] at he
            exact h.sound.index i e he
          have hbound := (List.getElem?_eq_some_iff.mp he).1
          have hi' : i = entry.index - (view.snapshotIndex + 1) := by omega
          rw [getElem?_append_right (by rw [length_take]; omega), hi',
            length_take, min_eq_left hlt.le] at he
          have : entry = e := by simpa using he
          rw [← this]
          change entry.index = view.snapshotIndex + 1 + _
          omega
        · change view.snapshotIndex + _ ≤ u64Max
          omega
      · exact ih changed hrest h
    · split
      · refine ih true hrest ?_
        refine h.append (fun e he => ?_) (fun i e he => ?_) ?_
        · rw [mem_singleton.mp he]
          exact hterm
        · have hi : i = 0 := by
            have := (List.getElem?_eq_some_iff.mp he).1
            simp only [length_singleton] at this
            omega
          subst hi
          have : entry = e := by simpa using he
          rw [← this]
          change entry.index = view.snapshotIndex + log.length + 1 + 0
          omega
        · change view.snapshotIndex + log.length + 1 ≤ u64Max
          omega
      · exact h

lemma satAdd_last : satAdd u64Max 1 = u64Max := min_eq_right (le_succ _)

lemma contiguous_last (h : contiguous u64Max entries = true) : ∀ e ∈ entries, e.index = u64Max := by
  induction entries with
  | nil => nofun
  | cons entry rest ih =>
    simp only [contiguous, and_eq_true, decide_eq_true_eq] at h
    intro e he
    rcases mem_cons.mp he with rfl | he
    · exact h.1
    · exact ih h.2 e he

lemma mergeEntries_stuck (hcommit : u64Max ≤ commit)
    (h : ∀ e ∈ entries, e.index = u64Max) (held : LogEntry) (changed : Bool) :
    ∃ stop, stop ≠ .reject ∧
      mergeEntries u64Max commit entries [held] 0 changed = ⟨[held], 0, changed, stop⟩ := by
  induction entries with
  | nil => exact ⟨.done, by decide, rfl⟩
  | cons entry rest ih =>
    have hindex := h entry mem_cons_self
    obtain ⟨stop, hstop, heq⟩ := ih fun e he => h e (mem_cons_of_mem _ he)
    have hoffset : entry.index - satAdd u64Max 1 = 0 := by
      rw [satAdd_last]
      omega
    unfold mergeEntries
    rw [if_neg (by rw [satAdd_last]; omega)]
    simp only [hoffset, getElem?_cons_zero]
    split
    · rw [if_pos (by omega)]
      exact ⟨.rewrite entry.index, by rintro ⟨⟩, rfl⟩
    · exact ⟨stop, hstop, heq⟩

/-- Behind the last index there is, a batch is dropped or leaves a log that cannot be written. -/
theorem mergeEntries_last (hcommit : u64Max ≤ commit) {expected : ℕ}
    (hcont : contiguous expected entries = true) (hfits : ∀ e ∈ entries, e.index ≤ u64Max) :
    ∃ stop, mergeEntries u64Max commit entries [] 0 false = ⟨[], 0, false, stop⟩ ∨
      ∃ e ∈ entries, stop ≠ .reject ∧
        mergeEntries u64Max commit entries [] 0 false = ⟨[e], 0, true, stop⟩ := by
  cases entries with
  | nil => exact ⟨.done, .inl rfl⟩
  | cons entry rest =>
    have hindex := hfits entry mem_cons_self
    unfold mergeEntries
    split
    · exact ⟨.reject, .inl rfl⟩
    rename_i hlow
    have hlast : entry.index = u64Max := le_antisymm hindex (not_lt.mp hlow)
    have hrest : ∀ e ∈ rest, e.index = u64Max := by
      simp only [contiguous, and_eq_true, decide_eq_true_eq] at hcont
      rw [← hcont.1, hlast] at hcont
      exact contiguous_last hcont.2
    obtain ⟨stop, hstop, heq⟩ := mergeEntries_stuck hcommit hrest entry true
    refine ⟨stop, .inr ⟨entry, mem_cons_self, hstop, ?_⟩⟩
    have hoffset : entry.index - satAdd u64Max 1 = 0 := by
      rw [satAdd_last]
      omega
    simp only [hoffset]
    exact heq

lemma Live.takeCommit (h : n.Live disk) (leaderCommit : ℕ) : (n.takeCommit leaderCommit).Live disk := by
  unfold RaftNode.takeCommit
  split
  · have hcommit := h.ahead.sound.commit_le
    have hlast := h.lastIndex_eq
    change n.commitIndex ≤ n.snapshotIndex + n.log.length at hcommit
    have hlow : n.commitIndex ≤ min leaderCommit n.lastIndex := by omega
    have hhigh : min leaderCommit n.lastIndex ≤ n.snapshotIndex + n.log.length := by omega
    exact h.change rfl (h.ahead.withCommit hlow hhigh) rfl (fun _ hi => hi) rfl rfl rfl rfl
  · exact h

lemma Live.appendMerged (h : n.Live disk) (leader lastNew : ℕ) (changed : Bool)
    (leaderCommit : ℕ) : (n.appendMerged leader lastNew changed leaderCommit).1.Recorded := by
  unfold RaftNode.appendMerged
  split
  · exact h.recorded.failStop _
  dsimp only
  split
  · exact (h.takeCommit leaderCommit).written.elim (h.takeCommit leaderCommit).bounded (fun _ _ hlive => hlive.recorded) fun _ hm => hm
  · exact (h.takeCommit leaderCommit).recorded

lemma Ready.wedged_failStop (hl : n.Ledger disk) (hb : n.Bounded) (hclean : n.snapshotDirty = false)
    (h : n.Wedged) (error : String) : (n.failStop error).Recorded := by
  have hs : Same n (n.failStop error) := ⟨rfl, rfl, fun _ hi => hi, rfl⟩
  exact ⟨disk, hl.same hs, hb.same hs, .wedged hclean { h with }, nofun⟩

lemma Wedged.appendMerged (hl : n.Ledger disk) (hb : n.Bounded) (hclean : n.snapshotDirty = false)
    (h : n.Wedged) (leader lastNew leaderCommit : ℕ) :
    (n.appendMerged leader lastNew true leaderCommit).1.Recorded := by
  unfold RaftNode.appendMerged
  split
  · exact Ready.wedged_failStop hl hb hclean h _
  obtain ⟨commit, hcommit⟩ : ∃ commit, n.takeCommit leaderCommit = { n with commitIndex := commit } := by
    unfold takeCommit
    split
    · exact ⟨_, rfl⟩
    · exact ⟨n.commitIndex, rfl⟩
  rw [hcommit, if_pos rfl]
  set k : RaftNode := { n with commitIndex := commit }
  have hkb : k.Bounded :=
    ⟨⟨hb.fits.term, hb.fits.vote, hb.fits.boot, hb.fits.entries, hb.fits.snapshot⟩, hb.ident,
      hb.incoming⟩
  have hwritten : k.Written := Ready.written (hl.of_eq rfl rfl rfl) hkb (.wedged hclean { h with })
  exact hwritten.elim hkb (fun _ _ hlive => hlive.recorded) fun _ hm => hm

section

variable (h : n.Live disk)
include h

lemma Live.appendAccepted (hfits : ∀ e ∈ entries, e.term ≤ u64Max ∧ e.index ≤ u64Max)
    (leader prev prevTerm : ℕ) (leaderCommit : ℕ) :
    (n.appendAccepted leader prev prevTerm entries leaderCommit).1.Recorded := by
  unfold RaftNode.appendAccepted
  split
  · exact h.recorded
  split
  · exact h.recorded
  rename_i hcont
  rw [not_eq_false] at hcont
  dsimp only
  have hlast : n.snapshotIndex + n.log.length ≤ u64Max := h.ahead.sound.last_le
  rcases lt_or_eq_of_le (le_of_add_right_le hlast) with hbase | hbase
  · have hmerge : Ahead disk.image { n.stableView with
          log := (mergeEntries n.snapshotIndex n.commitIndex entries n.log n.durableLogLen false).log }
        (mergeEntries n.snapshotIndex n.commitIndex entries n.log n.durableLogLen
          false).durableLogLen := mergeEntries_ahead n.stableView hbase false hfits h.ahead
    have hlive : ({ n with
        log := (mergeEntries n.snapshotIndex n.commitIndex entries n.log n.durableLogLen false).log
        durableLogLen := (mergeEntries n.snapshotIndex n.commitIndex entries n.log n.durableLogLen
          false).durableLogLen } : RaftNode).Live disk :=
      h.change rfl hmerge rfl (fun _ hi => hi) rfl rfl rfl rfl
    split
    · exact hlive.recorded
    · exact hlive.recorded.failStop _
    · exact hlive.appendMerged _ _ _ _
  -- the snapshot ends at the last index there is
  have hlog : n.log = [] := length_eq_zero_iff.mp (by omega)
  have hdurable : n.durableLogLen = 0 := by
    have hle : n.durableLogLen ≤ n.log.length := h.ahead.durable_le
    rw [hlog] at hle
    exact le_zero.mp hle
  have hcommit : u64Max ≤ n.commitIndex := by
    have hs : n.snapshotIndex ≤ n.lastApplied := h.ahead.sound.snapshot_le
    have ha : n.lastApplied ≤ n.commitIndex := h.ahead.sound.applied_le
    omega
  rw [hbase, hlog, hdurable]
  obtain ⟨stop, hmerge | ⟨e, he, hstop, hmerge⟩⟩ :=
    mergeEntries_last hcommit hcont fun e he => (hfits e he).2
  · rw [hmerge]
    have hlive : ({ n with log := [], durableLogLen := 0 } : RaftNode).Live disk := by
      have : ({ n with log := [], durableLogLen := 0 } : RaftNode) = n := by
        rw [← hlog, ← hdurable]
      rw [this]
      exact h
    cases stop with
    | reject => exact hlive.recorded
    | rewrite index => exact hlive.recorded.failStop _
    | done => exact hlive.appendMerged _ _ _ _
  rw [hmerge]
  set k : RaftNode := { n with log := [e], durableLogLen := 0 }
  have hwedged : k.Wedged := ⟨hbase, rfl, e, [], rfl, (hfits e he).2⟩
  have hledger : k.Ledger disk := h.ledger.of_eq rfl rfl rfl
  have hbounded : k.Bounded := by
    have hf := h.bounded.fits
    refine { h.bounded with fits := { hf with entries := ?_ } }
    intro x hx
    rw [mem_singleton.mp hx]
    exact (hfits e he).1
  cases stop with
  | reject => exact absurd rfl hstop
  | rewrite index => exact Ready.wedged_failStop hledger hbounded h.clean hwedged _
  | done => exact hwedged.appendMerged hledger hbounded h.clean _ _ _

lemma Live.observeLeader (leader : NodeId) : (n.observeLeader leader).Live disk :=
  h.same ⟨rfl, rfl, fun _ hi => hi, rfl⟩

lemma Live.handleAppend (hfits : ∀ e ∈ entries, e.term ≤ u64Max ∧ e.index ≤ u64Max)
    (term leader prev prevTerm : ℕ) (leaderCommit : ℕ) :
    (n.handleAppend term leader prev prevTerm entries leaderCommit).1.Recorded := by
  unfold RaftNode.handleAppend
  split
  · exact h.recorded
  split
  · exact h.recorded
  split
  · exact h.recorded
  have hfollow : (n.followLeader leader term).Live disk := by
    refine h.same ⟨rfl, rfl, fun inc hi => ?_, rfl⟩
    exact Option.eq_some_of_filter_eq_some hi
  exact hfollow.appendAccepted hfits _ _ _ _

lemma Live.setIncoming {incoming : Option IncomingSnapshot}
    (hinc : ∀ inc, incoming = some inc → 0 < inc.index ∧ inc.term ≤ u64Max) :
    ({ n with incomingSnapshot := incoming } : RaftNode).Live disk :=
  ⟨h.ledger.of_eq rfl rfl rfl, ⟨h.bounded.fits, h.bounded.ident, hinc⟩, h.clean, h.ahead⟩

lemma Live.dropIncoming : ({ n with incomingSnapshot := none } : RaftNode).Live disk :=
  h.setIncoming nofun

lemma Live.receiveChunk (leader : NodeId) {incoming : IncomingSnapshot}
    (hinc : 0 < incoming.index ∧ incoming.term ≤ u64Max) (index offset : ℕ) (data : Bytes)
    (done : Bool) : (n.receiveChunk leader incoming index offset data done).1.Recorded := by
  have hheld : ({ n with incomingSnapshot := some incoming } : RaftNode).Live disk :=
    h.setIncoming fun inc hi => Option.some.inj hi ▸ hinc
  set longer : IncomingSnapshot := { incoming with data := incoming.data ++ data, complete := done }
  have hmore : ({ n with incomingSnapshot := some longer } : RaftNode).Live disk :=
    h.setIncoming fun inc hi => Option.some.inj hi ▸ hinc
  unfold RaftNode.receiveChunk
  dsimp only
  split
  · split
    · exact h.dropIncoming.recorded
    · exact hheld.recorded
  split
  · exact hheld.recorded
  split
  · exact hmore.recorded
  · exact hmore.recorded

lemma Live.handleInstallSnapshot (term leader : ℕ) (index : ℕ) {snapTerm : ℕ}
    (hfits : snapTerm ≤ u64Max) (offset : ℕ) (data : Bytes) (done : Bool) :
    (n.handleInstallSnapshot term leader index snapTerm offset data done).1.Recorded := by
  unfold RaftNode.handleInstallSnapshot
  split
  · exact h.recorded
  rename_i hcond
  push Not at hcond
  dsimp only
  have hlead := h.observeLeader leader
  split
  · exact hlead.dropIncoming.recorded
  split
  · rename_i incoming hheld
    have hinc := hlead.bounded.incoming incoming (Option.eq_some_of_filter_eq_some hheld)
    exact hlead.receiveChunk leader hinc _ _ _ _
  · split
    · exact hlead.dropIncoming.recorded
    · exact hlead.receiveChunk leader ⟨pos_of_ne_zero hcond.2.1, hfits⟩ _ _ _ _

end

end RaftNode

/-- The numbers of a message that a node may keep fit their types. -/
def Msg.Fits (msg : Msg) : Prop :=
  msg.term ≤ u64Max ∧
  match msg with
  | .requestVote _ candidate _ _ => candidate ≤ u64Max
  | .appendEntries _ _ _ _ entries _ => ∀ e ∈ entries, e.term ≤ u64Max ∧ e.index ≤ u64Max
  | .installSnapshot _ _ _ lastIncludedTerm _ _ _ => lastIncludedTerm ≤ u64Max
  | _ => True

namespace RaftNode

variable {n m : RaftNode} {disk : Disk}

lemma Live.dispatch (h : n.Live disk) (sender : NodeId) {msg : Msg} (hfits : msg.Fits) :
    (n.dispatch sender msg).1.Recorded := by
  cases msg with
  | requestVote term candidate index logTerm => exact h.handleRequestVote term hfits.2 index logTerm
  | requestVoteResp term granted => exact h.handleVoteResp sender term granted
  | appendEntries term leader prev prevTerm entries commit =>
    exact h.handleAppend hfits.2 term leader prev prevTerm commit
  | appendEntriesResp term success index => exact h.handleAppendResp sender term success index
  | installSnapshot term leader index snapTerm offset data done =>
    exact h.handleInstallSnapshot term leader index hfits.2 offset data done
  | installSnapshotResp term index next installed =>
    exact h.handleInstallSnapshotResp sender term index next installed

lemma Live.step (h : n.Live disk) (sender : NodeId) {msg : Msg} (hfits : msg.Fits) :
    (n.step sender msg).1.Recorded := by
  unfold RaftNode.step
  split
  · exact h.recorded
  split
  · exact h.recorded
  split
  · rename_i hterm
    have hdown : (n.stepDown msg.term).Live disk :=
      h.change rfl (h.ahead.withTerm hterm hfits.1 nofun) rfl nofun rfl rfl rfl rfl
    exact hdown.written.elim hdown.bounded (fun _ _ hlive => hlive.dispatch sender hfits)
      fun _ hm => hm
  · exact h.dispatch sender hfits

/-- A change of the numbers only, on a node that may be stopped. -/
theorem Ready.change {st : StableState} (h : n.Ready st)
    (hahead : Ahead st n.stableView n.durableLogLen → Ahead st m.stableView m.durableLogLen)
    (hlog : m.log = n.log) (hsnap : m.snapshot = n.snapshot) (hdurable : m.durableLogLen = n.durableLogLen)
    (hdirty : m.snapshotDirty = n.snapshotDirty) : m.Ready st := by
  cases h with
  | ahead clean h => exact .ahead (hdirty.trans clean) (hahead h)
  | dirty h => exact .dirty (hdirty.trans h)
  | wedged clean h =>
    refine .wedged (hdirty.trans clean) ⟨?_, hdurable.trans h.durable, hlog ▸ h.first⟩
    rw [snapshotIndex, hsnap]
    exact h.full

lemma Bounded.termAt_le (h : n.Bounded) (index : ℕ) : n.termAt index ≤ u64Max := by
  have hget : ∀ i : ℕ, (n.log[i]?).elim 0 (fun e : LogEntry => e.term) ≤ u64Max := by
    intro i
    cases he : n.log[i]? with
    | none => exact zero_le _
    | some e => exact h.fits.entries e (mem_of_getElem? he)
  unfold termAt
  split
  · exact zero_le _
  split
  · rename_i snapshot hsnap
    split
    · exact (h.fits.snapshot snapshot hsnap).2
    split
    · exact zero_le _
    · exact hget _
  · exact hget _

section

variable (h : n.Journaled disk)
include h

lemma Journaled.compact (data : Bytes) : (n.compact data).1.Recorded := by
  unfold RaftNode.compact
  split
  · exact ⟨disk, h⟩
  dsimp only
  split
  · exact ⟨disk, h⟩
  split
  · exact ⟨disk, h⟩
  split
  · exact ⟨disk, h⟩
  set k := n.foldLog (n.lastApplied - n.snapshotIndex) ⟨n.lastApplied, n.termAt n.lastApplied, data⟩
  have hbounded : k.Bounded := by
    have hf := h.bounded.fits
    refine { h.bounded with fits := { hf with
      entries := fun e he => hf.entries e (mem_of_mem_drop he), snapshot := ?_ } }
    intro sn hsn
    rw [← Option.some.inj hsn]
    exact ⟨by change 0 < n.lastApplied; omega, h.bounded.termAt_le _⟩
  have hwritten : k.Written := Ready.written (h.ledger.of_eq rfl rfl rfl) hbounded (.dirty rfl)
  exact hwritten.elim hbounded (fun _ _ hlive => hlive.recorded) fun _ hm => hm

lemma Journaled.finishSnapshotInstall (index : ℕ) : (n.finishSnapshotInstall index).1.Recorded := by
  unfold RaftNode.finishSnapshotInstall
  split
  · exact ⟨disk, h⟩
  rename_i inc hinc
  have hheld : n.incomingSnapshot = some inc :=
    Option.eq_some_of_filter_eq_some (Option.eq_some_of_filter_eq_some hinc)
  have hbounded : (n.installIncoming inc).Bounded := by
    have hf := h.bounded.fits
    refine { h.bounded with fits := { hf with entries := ?_, snapshot := ?_ } }
    · intro e he
      change e ∈ n.logAfterInstall inc.index inc.term at he
      refine hf.entries e ?_
      unfold logAfterInstall at he
      dsimp only at he
      split at he
      · split at he
        · exact mem_of_mem_drop he
        · cases he
      · cases he
    · intro sn hsn
      rw [← Option.some.inj hsn]
      exact h.bounded.incoming inc hheld
  have hwritten : (n.installIncoming inc).Written :=
    Ready.written (h.ledger.of_eq rfl rfl rfl) hbounded (.dirty rfl)
  exact hwritten.elim hbounded (fun _ _ hlive => hlive.dropIncoming.recorded) fun _ hm => hm

lemma Journaled.markAppliedBatch (first last : ℕ) : (n.markAppliedBatch first last).1.Recorded := by
  unfold RaftNode.markAppliedBatch
  split
  · exact ⟨disk, h⟩
  rename_i hcond
  push Not at hcond
  obtain ⟨hfirst, horder, hcommit⟩ := hcond
  set k : RaftNode := { n with lastApplied := last }
  have hbounded : k.Bounded := h.bounded.of_view
    ⟨h.bounded.fits.term, h.bounded.fits.vote, h.bounded.fits.boot, h.bounded.fits.entries,
      h.bounded.fits.snapshot⟩ rfl fun _ hi => hi
  have hready : k.Ready disk.image := by
    refine h.ready.change (fun ha => ?_) rfl rfl rfl rfl
    have happlied : n.lastApplied ≤ u64Max :=
      (ha.sound.applied_le.trans ha.sound.commit_le).trans ha.sound.last_le
    have hle := le_satAdd happlied
    have hlow : n.lastApplied ≤ last := by omega
    exact ha.withApplied hlow hcommit
  have hwritten : k.Written := Ready.written (h.ledger.of_eq rfl rfl rfl) hbounded hready
  exact hwritten.elim hbounded (fun _ _ hlive => hlive.recorded) fun _ hm => hm

lemma Journaled.nextBootSession (now : ℕ) : (n.nextBootSession now).1.Recorded := by
  unfold RaftNode.nextBootSession
  split
  · exact ⟨disk, h⟩
  rename_i next hnext
  obtain ⟨rfl, hle⟩ := checkedAdd_eq_some hnext
  set k : RaftNode := { n with bootCounter := max n.bootCounter now + 1 }
  have hbounded : k.Bounded := h.bounded.of_view
    ⟨h.bounded.fits.term, h.bounded.fits.vote, hle, h.bounded.fits.entries,
      h.bounded.fits.snapshot⟩ rfl fun _ hi => hi
  have hready : k.Ready disk.image := by
    refine h.ready.change (fun ha => ?_) rfl rfl rfl rfl
    have hlow : n.bootCounter ≤ max n.bootCounter now + 1 := by omega
    exact ha.withBoot hlow hle
  have hwritten : k.Written := Ready.written (h.ledger.of_eq rfl rfl rfl) hbounded hready
  exact hwritten.elim hbounded (fun _ _ hlive => hlive.recorded) fun _ hm => hm

lemma Journaled.setFaults (faults : List (Option String)) :
    (n.setFaults faults).Journaled { disk with faults } := by
  have hstorage : (n.setFaults faults).storage = some { disk with faults } := by
    simp only [RaftNode.setFaults, h.ledger.storage, Option.map_some]
  refine ⟨h.ledger.setFaults faults hstorage rfl rfl, h.bounded.of_view h.bounded.fits rfl
    (fun _ hi => hi), ?_, h.running⟩
  exact h.ready.change (fun ha => ha) rfl rfl rfl rfl

end

lemma Recorded.perform (h : n.Recorded) (call : Call) : (n.perform call).1.Recorded := by
  obtain ⟨disk, h⟩ := h
  cases call with
  | tick =>
    cases hf : n.fatal with
    | none => exact (h.live hf).tick
    | some error =>
      have : n.tick = (n, []) := by simp [tick, hf]
      rw [RaftNode.perform, this]
      exact ⟨disk, h⟩
  | forceReplicate =>
    change n.forceReplicate.1.Recorded
    unfold forceReplicate
    split
    · rename_i hlead
      have hf : n.fatal = none := by
        rw [isLeader, and_eq_true, Option.isNone_iff_eq_none] at hlead
        exact hlead.2
      exact (h.live hf).recorded_same ⟨rfl, rfl, fun _ hi => hi, rfl⟩
    · exact ⟨disk, h⟩
  | proposeBatch entries =>
    cases hf : n.fatal with
    | none => exact (h.live hf).proposeBatch entries
    | some error =>
      have hlead : n.isLeader = false := by simp [isLeader, hf]
      have : (n.proposeBatch entries).1 = n := by simp [proposeBatch, hlead]
      rw [RaftNode.perform, this]
      exact ⟨disk, h⟩
  | markAppliedBatch first last => exact h.markAppliedBatch first last
  | compact data => exact h.compact data
  | finishSnapshotInstall index =>
    have hfinish := h.finishSnapshotInstall index
    rw [RaftNode.perform]
    rcases hr : n.finishSnapshotInstall index with ⟨m, error | response⟩
    · rw [hr] at hfinish
      exact hfinish
    · rw [hr] at hfinish
      exact hfinish
  | nextBootSession now => exact h.nextBootSession now
  | failStop error => exact ⟨disk, h.failStop error⟩
  | diskFaults faults => exact ⟨_, h.setFaults faults⟩

/-- No input takes a node out of step with its files. -/
theorem Recorded.handle (h : n.Recorded) {input : Input}
    (hfits : ∀ sender msg, input = .message sender msg → msg.Fits) : (n.handle input).1.Recorded := by
  cases input with
  | call call => exact h.perform call
  | message sender msg =>
    obtain ⟨disk, h⟩ := h
    cases hf : n.fatal with
    | none => exact (h.live hf).step sender (hfits sender msg rfl)
    | some error =>
      have : n.step sender msg = (n, []) := by simp [step, hf]
      rw [RaftNode.handle, this]
      exact ⟨disk, h⟩

lemma newPersistent_recorded {id : NodeId} (hid : id ≤ u64Max) (peers : List NodeId) (cfg : Config)
    (hdisk : disk.Intact) (now : ℕ) : (newPersistent id peers cfg disk now).Recorded := by
  have hsound := hdisk.image_sound
  have hdigest : disk.load.baseDigest = disk.base := by
    cases hdisk with
    | empty _ => rfl
    | written _ _ _ _ _ => rw [load_written]
  exact ⟨disk, .of_ahead ⟨rfl, hdisk, hdigest, rfl⟩ ⟨hsound.toFits, hid, nofun⟩ rfl (.refl hsound)⟩

lemma Recorded.restart (h : n.Recorded) (now : ℕ) : (n.restart now).Recorded := by
  obtain ⟨disk, h⟩ := h
  rw [RaftNode.restart, h.ledger.storage]
  exact newPersistent_recorded h.bounded.ident _ _ h.ledger.intact now

end RaftNode

end OnetDns.Raft
