import OnetDns.Cluster.Node

/-!
# What `persist` does

Either everything that has to survive is on disk and only the node's own books
about its files have changed, or the files still hold what they held and the
node has stopped. Every other operation is specified through these two cases.
-/
namespace OnetDns.Raft

/-- The fields in which a node keeps track of its files. -/
structure Books where
  storage : Option Disk
  snapshotDirty : Bool
  durableLogLen : ℕ
  baseDigest : Option StableState
  walLen : ℕ
  walFile : Bool

namespace RaftNode

def withBooks (n : RaftNode) (b : Books) : RaftNode :=
  { n with storage := b.storage, snapshotDirty := b.snapshotDirty,
           durableLogLen := b.durableLogLen, baseDigest := b.baseDigest, walLen := b.walLen,
           walFile := b.walFile }

def books (n : RaftNode) : Books :=
  ⟨n.storage, n.snapshotDirty, n.durableLogLen, n.baseDigest, n.walLen, n.walFile⟩

/-- Whatever the files are, a write changes the books, and stops the node if it fails. -/
theorem persist_eq (n : RaftNode) :
    ∃ b : Books, (b.durableLogLen = n.log.length ∨ b.durableLogLen = n.durableLogLen) ∧
      (n.persist = (n.withBooks b, true) ∨
        ∃ error, n.persist = ((n.withBooks b).failStop error, false)) := by
  unfold persist
  split
  · exact ⟨n.books, .inr rfl, .inl rfl⟩
  rename_i disk _
  have hat : ∃ b : Books, (b.durableLogLen = n.log.length ∨ b.durableLogLen = n.durableLogLen) ∧
      (n.persistAt disk).1 = n.withBooks b := by
    unfold persistAt storeBase appendWalFrame
    dsimp only
    split
    · exact ⟨n.books, .inr rfl, rfl⟩
    split
    · split
      · exact ⟨⟨_, _, _, _, _, _⟩, .inr rfl, rfl⟩
      · split
        · exact ⟨⟨_, _, _, _, _, _⟩, .inr rfl, rfl⟩
        · exact ⟨⟨_, _, _, _, _, _⟩, .inl rfl, rfl⟩
    split
    · exact ⟨⟨_, _, _, _, _, _⟩, .inr rfl, rfl⟩
    · split
      · exact ⟨n.books, .inr rfl, rfl⟩
      · exact ⟨⟨_, _, _, _, _, _⟩, .inl rfl, rfl⟩
  obtain ⟨b, hb, heq⟩ := hat
  refine ⟨b, hb, ?_⟩
  split
  · rename_i m hp
    rw [hp] at heq
    exact .inl (by rw [← heq])
  · rename_i m error hp
    rw [hp] at heq
    exact .inr ⟨_, by rw [← heq]⟩

/-- The files are the ones the books speak of. -/
structure DiskOk (b : Books) (disk : Disk) : Prop where
  storage : b.storage = some disk
  digest : ∀ base, b.baseDigest = some base → disk.base = some base
  wal : b.walFile = true ∨ walHeaderLen ≤ b.walLen →
    ∃ wal, disk.wal = some wal ∧ disk.base = some wal.header

variable {disk : Disk}

lemma image_of_wal {wal : Wal} (hw : disk.wal = some wal) (hb : disk.base = some wal.header) :
    disk.image = (wal.records.getLast?.map (·.state)).getD wal.header := by
  simp [Disk.image, Disk.load, hw, hb]

/-- The outcome of a write, for a caller that stops the node when it fails. -/
structure Stored (n : RaftNode) (disk : Disk) (result : RaftNode × Option String) : Prop where
  books : ∃ b, result.1 = n.withBooks b
  ok : result.2 = none → result.1.durableLogLen = n.log.length ∧
    ∃ disk', DiskOk result.1.books disk' ∧ disk'.image = n.stableView
  failed : ∀ e, result.2 = some e → result.1.snapshotDirty = n.snapshotDirty ∧
    result.1.durableLogLen = n.durableLogLen ∧
    ∃ disk', DiskOk result.1.books disk' ∧ disk'.image = disk.image

variable {n : RaftNode}

section

variable (h : DiskOk n.books disk)
include h

lemma storeBase_stored : Stored n disk (n.storeBase disk) := by
  unfold storeBase
  dsimp only
  split
  · refine ⟨⟨⟨_, _, _, _, _, _⟩, rfl⟩, nofun, fun e _ => ?_⟩
    exact ⟨rfl, rfl, disk, ⟨h.storage, h.digest, fun hw => h.wal (.inr (by simpa [books] using hw))⟩,
      rfl⟩
  split
  · rename_i faults _
    refine ⟨⟨⟨_, _, _, _, _, _⟩, rfl⟩, nofun, fun e _ => ?_⟩
    exact ⟨rfl, rfl, { disk with faults },
      ⟨rfl, h.digest, fun hw => h.wal (.inr (by simpa [books] using hw))⟩, rfl⟩
  refine ⟨⟨⟨_, _, _, _, _, _⟩, rfl⟩, fun _ => ⟨rfl, _, ⟨rfl, ?_, ?_⟩, ?_⟩, nofun⟩
  · intro base hb
    exact hb
  · exact fun _ => ⟨_, rfl, rfl⟩
  · simp [Disk.image, Disk.load]
    rfl

lemma appendWalFrame_stored (hd : n.baseDigest.isSome) (truncateTo len : ℕ) :
    Stored n disk (n.appendWalFrame disk ⟨n.stableView, truncateTo⟩ len) := by
  unfold appendWalFrame
  split
  · rename_i faults _
    refine ⟨⟨⟨_, _, _, _, _, _⟩, rfl⟩, nofun, fun e _ => ?_⟩
    exact ⟨rfl, rfl, { disk with faults },
      ⟨rfl, h.digest, fun hw => h.wal (.inr (by simpa [books] using hw))⟩, rfl⟩
  split
  · rename_i hnone
    simp [hnone] at hd
  rename_i base hbase
  have hb := h.digest base hbase
  set wal : Wal := if (!n.walFile && decide (n.walLen < walHeaderLen)) = true then ⟨base, []⟩
    else disk.wal.getD ⟨base, []⟩ with hwal
  have hheader : wal.header = base := by
    rw [hwal]
    split
    · rfl
    rename_i hfresh
    obtain ⟨w, hw, hwb⟩ := h.wal (by
      rcases hf : n.walFile with _ | _
      · exact .inr (by simpa [books, hf] using hfresh)
      · exact .inl hf)
    rw [hw]
    exact Option.some.inj (hwb.symm.trans hb)
  refine ⟨⟨⟨_, _, _, _, _, _⟩, rfl⟩, fun _ => ⟨rfl, _, ⟨rfl, ?_, ?_⟩, ?_⟩, nofun⟩
  · exact fun b' hb' => h.digest b' hb'
  · exact fun _ => ⟨_, rfl, by rw [hheader]; exact hb⟩
  · rw [image_of_wal rfl (by rw [hheader]; exact hb)]
    simp

lemma persistAt_stored : Stored n disk (n.persistAt disk) := by
  unfold persistAt
  dsimp only
  split
  · exact ⟨⟨n.books, rfl⟩, nofun, fun _ _ => ⟨rfl, rfl, disk, h, rfl⟩⟩
  split
  · exact storeBase_stored h
  rename_i hc
  refine appendWalFrame_stored h ?_ _ _
  cases hb : n.baseDigest with
  | none => simp [hb] at hc
  | some base => rfl

/-- The two ways `persist` ends for a node with files. -/
theorem persist_cases : (∃ b disk', n.persist = (n.withBooks b, true) ∧ DiskOk b disk' ∧
      disk'.image = n.stableView ∧ b.durableLogLen = n.log.length) ∨
    (∃ b disk' error, n.persist = ((n.withBooks b).failStop error, false) ∧
      DiskOk b disk' ∧ disk'.image = disk.image ∧
      b.snapshotDirty = n.snapshotDirty ∧ b.durableLogLen = n.durableLogLen) := by
  have hstore : n.storage = some disk := h.storage
  obtain ⟨⟨b, hb⟩, hok, hfail⟩ := persistAt_stored h
  rcases hp : n.persistAt disk with ⟨m, r⟩
  rw [hp] at hb hok hfail
  subst hb
  cases r with
  | none =>
    obtain ⟨hl, disk', hd, hi⟩ := hok rfl
    exact .inl ⟨b, disk', by simp [persist, hstore, hp], hd, hi, hl⟩
  | some e =>
    obtain ⟨hs, hl, disk', hd, hi⟩ := hfail e rfl
    exact .inr ⟨b, disk', _, by simp [persist, hstore, hp]; rfl, hd, hi, hs, hl⟩

end

end RaftNode

end OnetDns.Raft
