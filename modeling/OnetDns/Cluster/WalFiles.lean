import OnetDns.Cluster.Roundtrip

/-!
# The files behind a disk

`Disk` keeps the states that were written. Here are the bytes of its two files,
and what `load_state` makes of them: of all of them, of a write-ahead log that
ends inside its last frame, and of a state file that was replaced while the log
still belongs to the one before it.
-/
namespace OnetDns.Raft
open BigEndian List Option

/-- Every frame continues the one before it, the first one the state file. -/
def Chain : StableState → List WalRecord → Prop
  | _, [] => True
  | prev, record :: rest => Replays prev record ∧ Chain record.state rest

def lastState : StableState → List WalRecord → StableState
  | base, [] => base
  | _, record :: rest => lastState record.state rest

lemma lastState_eq (base : StableState) (records : List WalRecord) :
    (records.getLast?.map (·.state)).getD base = lastState base records := by
  induction records generalizing base with
  | nil => rfl
  | cons record rest ih =>
    rw [lastState, ← ih record.state, getLast?_cons]
    cases rest.getLast? with
    | none => rfl
    | some last => rfl

lemma lastState_concat (base : StableState) (records : List WalRecord) (record : WalRecord) :
    lastState base (records ++ [record]) = record.state := by
  rw [← lastState_eq]
  simp

variable {records : List WalRecord} {base : StableState} {record : WalRecord}

lemma Chain.concat (h : Chain base records) (hr : Replays (lastState base records) record) :
    Chain base (records ++ [record]) := by
  induction records generalizing base with
  | nil => exact ⟨hr, trivial⟩
  | cons next rest ih => exact ⟨h.1, ih h.2 hr⟩

lemma Chain.front (h : Chain base (records ++ [record])) : Chain base records := by
  induction records generalizing base with
  | nil => trivial
  | cons next rest ih => exact ⟨h.1, ih h.2⟩

lemma Chain.last
    (h : Chain base (records ++ [record])) : Replays (lastState base records) record := by
  induction records generalizing base with
  | nil => exact h.1
  | cons next rest ih => exact ih h.2

lemma Chain.sound (h : Chain base records) (hb : base.Sound) : (lastState base records).Sound := by
  induction records generalizing base with
  | nil => exact hb
  | cons next rest ih => exact ih h.2 h.1.sound

/-- Bytes of the log after its header. -/
def framesLen (records : List WalRecord) : ℕ := (records.map WalRecord.len).sum

lemma framesLen_concat (records : List WalRecord) (record : WalRecord) :
    framesLen (records ++ [record]) = framesLen records + record.len := by
  simp [framesLen]

/-- Files in which every write went through. -/
inductive Disk.Intact : Disk → Prop
  | empty (faults : List (Option String)) : Disk.Intact ⟨none, none, faults⟩
  | written {base : StableState} {records : List WalRecord} (faults : List (Option String))
      (sound : base.Sound) (body : ∃ body, encodeStateBody base = .ok body)
      (chain : Chain base records) (size : walHeaderLen + framesLen records ≤ maxWalBytes) :
      Disk.Intact ⟨some base, some ⟨base, records⟩, faults⟩

lemma Disk.load_written (base : StableState) (records : List WalRecord)
    (faults : List (Option String)) :
    Disk.load ⟨some base, some ⟨base, records⟩, faults⟩ =
      ⟨lastState base records, some base, walHeaderLen + framesLen records⟩ := by
  simp only [load, if_true, lastState_eq, framesLen]

variable {disk : Disk}

lemma Disk.Intact.image_sound (h : disk.Intact) : disk.image.Sound := by
  cases h with
  | empty faults => exact StableState.sound_empty
  | written faults sound body chain size =>
    rw [image, load_written]
    exact chain.sound sound

section Hashed

variable (sha256 : Bytes → Bytes)

def WalRecord.bytes (record : WalRecord) : Bytes :=
  (encodeWalFrame sha256 record.state record.truncateTo).toOption.getD []

open WalRecord

def frameOf (body : Bytes) : Bytes := encode 4 body.length ++ (body ++ sha256 body)

def stateDigest (st : StableState) : Bytes := ((encodeStateBody st).map sha256).toOption.getD []

def Wal.bytes (wal : Wal) : Bytes :=
  walHeader (stateDigest sha256 wal.header) ++ wal.records.flatMap (WalRecord.bytes sha256)

/-- The files at the storage path. -/
def Disk.files (disk : Disk) : Files where
  base := disk.base.bind fun st => (encodeState sha256 st).toOption
  wal := disk.wal.map (Wal.bytes sha256)

variable {sha256} (hsha : ∀ bytes, (sha256 bytes).length = 32)
include hsha

omit hsha in
lemma Replays.bytes_eq {prev : StableState} (h : Replays prev record) :
    ∃ body, encodeWalBody record.state record.truncateTo = .ok body ∧
      record.bytes sha256 = frameOf sha256 body ∧ record.len = frameLen body ∧
      minWalFrameBody ≤ body.length := by
  obtain ⟨body, hbody⟩ := h.body
  refine ⟨body, hbody, ?_, ?_, ?_⟩
  · simp [bytes, encodeWalFrame, hbody, Except.map, Except.toOption, frameOf]
  · simp only [WalRecord.len, hbody]
  · obtain ⟨_, _, rfl, _⟩ := encodeWalBody_ok hbody
    rw [length_append, encodeWalHeader_length]
    omega

lemma frameOf_length (body : Bytes) : (frameOf sha256 body).length = frameLen body := by
  simp only [frameOf, length_append, encode_length, hsha, frameLen]
  omega

variable {st : StableState} {body : Bytes}

/-- A whole frame is replayed, and the loop goes on behind it. -/
theorem loadFrames_frame {prev : StableState} (hmin : minWalFrameBody ≤ body.length)
    (hmax : body.length ≤ maxWalBytes) (happly : applyWalFrame prev body = .ok st) (fuel valid : ℕ)
    (rest : Bytes) :
    loadFrames sha256 (fuel + 1) (frameOf sha256 body ++ rest) valid prev =
      loadFrames sha256 fuel rest (valid + frameLen body) st := by
  have hread : read 4 (frameOf sha256 body ++ rest) =
      some (body.length, body ++ (sha256 body ++ rest)) := by
    rw [frameOf, append_assoc, append_assoc]
    refine read_encode ?_ _
    have : maxWalBytes < 256 ^ 4 := by decide
    omega
  have hne : frameOf sha256 body ++ rest ≠ [] := by
    intro hnil
    have := congrArg length hnil
    rw [length_append, frameOf_length hsha] at this
    simp [frameLen] at this
  have hlen : ¬ (body.length < minWalFrameBody ∨ maxWalBytes < body.length) := by
    omega
  rw [loadFrames, if_neg hne]
  simp only [hread, if_neg hlen, take_append (rfl : body.length = body.length),
    take_append (hsha body), ne_eq, not_true_eq_false, if_false, happly]

/-- The loop stops in front of a frame that is not whole. -/
theorem loadFrames_torn (hmin : minWalFrameBody ≤ body.length) (hmax : body.length ≤ maxWalBytes)
    {kept : ℕ} (hcut : kept < frameLen body) (fuel valid : ℕ) (st : StableState) :
    loadFrames sha256 fuel ((frameOf sha256 body).take kept) valid st = .ok (st, valid) := by
  cases fuel with
  | zero => rfl
  | succ fuel =>
    rw [loadFrames]
    split
    · rfl
    have hlen : ((frameOf sha256 body).take kept).length = kept := by
      rw [length_take, frameOf_length hsha]
      omega
    by_cases hhead : kept < 4
    · have hread : read 4 ((frameOf sha256 body).take kept) = none := by
        rw [BigEndian.read, take_eq_none (by omega)]
        rfl
      rw [hread]
    have htake : (frameOf sha256 body).take kept =
        encode 4 body.length ++ (body ++ sha256 body).take (kept - 4) := by
      rw [frameOf, List.take_append, encode_length, take_of_length_le (by simp; omega)]
    have hread : read 4 ((frameOf sha256 body).take kept) =
        some (body.length, (body ++ sha256 body).take (kept - 4)) := by
      rw [htake]
      refine read_encode ?_ _
      have : maxWalBytes < 256 ^ 4 := by decide
      omega
    have hrange : ¬ (body.length < minWalFrameBody ∨ maxWalBytes < body.length) := by
      omega
    simp only [hread, if_neg hrange]
    by_cases hbody : kept - 4 < body.length
    · rw [take_eq_none (by rw [length_take]; omega)]
    have hrest : (body ++ sha256 body).take (kept - 4) =
        body ++ (sha256 body).take (kept - 4 - body.length) := by
      rw [List.take_append, take_of_length_le (by omega)]
    have hshort : ((sha256 body).take (kept - 4 - body.length)).length < 32 := by
      rw [length_take]
      simp only [frameLen] at hcut
      omega
    rw [hrest, take_append rfl]
    simp only [take_eq_none hshort]

lemma Chain.loadFrames_eq (h : Chain base records) (hmax : framesLen records ≤ maxWalBytes)
    {fuel : ℕ} (hfuel : records.length ≤ fuel) (valid : ℕ) (rest : Bytes) :
    loadFrames sha256 fuel (records.flatMap (bytes sha256) ++ rest) valid base =
      loadFrames sha256 (fuel - records.length) rest (valid + framesLen records)
        (lastState base records) := by
  induction records generalizing base fuel valid with
  | nil => rfl
  | cons record records ih =>
    obtain ⟨body, hbody, hbytes, hlen, hmin⟩ := h.1.bytes_eq
    obtain ⟨fuel, rfl⟩ : ∃ k, fuel = k + 1 := ⟨fuel - 1, by simp at hfuel; omega⟩
    have hsum : framesLen (record :: records) = frameLen body + framesLen records := by
      simp [framesLen, hlen]
    have hle : body.length ≤ frameLen body := by
      simp only [frameLen]
      omega
    rw [flatMap_cons, hbytes, append_assoc, loadFrames_frame hsha hmin (by omega)
      (h.1.applyWalFrame_ok hbody), ih h.2 (by omega) (by simpa using hfuel), hsum, lastState,
      length_cons, Nat.add_sub_add_right, add_assoc]

lemma Chain.length_le (h : Chain base records) :
    records.length ≤ (records.flatMap (bytes sha256)).length ∧
      (records.flatMap (bytes sha256)).length = framesLen records := by
  induction records generalizing base with
  | nil => exact ⟨le_rfl, rfl⟩
  | cons record records ih =>
    obtain ⟨body, _, hbytes, hlen, _⟩ := h.1.bytes_eq
    obtain ⟨hle, heq⟩ := ih h.2
    have hsum : framesLen (record :: records) = frameLen body + framesLen records := by
      simp [framesLen, hlen]
    have hpos : 1 ≤ frameLen body := by
      simp only [frameLen]
      omega
    rw [flatMap_cons, length_append, hbytes, frameOf_length hsha, length_cons]
    omega

variable {digest : Bytes}

omit hsha in
lemma walHeader_length (h : digest.length = 32) : (walHeader digest).length = walHeaderLen := by
  simp only [walHeader, length_append, h]
  rfl

omit hsha in
/-- The header passes its test, whatever follows it. -/
theorem loadWal_header {rest : Bytes} (h : digest.length = 32)
    (hmax : walHeaderLen + rest.length ≤ maxWalBytes) (base : Bytes) (st : StableState) :
    loadWal sha256 (some (walHeader digest ++ rest)) base st =
      if digest ≠ base then .ok (st, 0)
      else loadFrames sha256 (walHeaderLen + rest.length) rest walHeaderLen st := by
  have hlen : (walHeader digest ++ rest).length = walHeaderLen + rest.length := by
    rw [length_append, walHeader_length h]
  have hmagic : (walHeader digest ++ rest).take walMagic.length = walMagic := by
    rw [walHeader, append_assoc]
    exact take_left
  have hhead : (walHeader digest ++ rest).take walHeaderLen = walHeader digest :=
    take_left' (walHeader_length h)
  have hrest : (walHeader digest ++ rest).drop walHeaderLen = rest :=
    drop_left' (walHeader_length h)
  have hdigest : (walHeader digest).drop walMagic.length = digest := drop_left
  have hok : ¬ ((walHeader digest ++ rest).length < walHeaderLen ∨
      (walHeader digest ++ rest).take walMagic.length ≠ walMagic) := by
    rw [hlen, hmagic, not_or, not_not]
    exact ⟨by omega, rfl⟩
  rw [loadWal, hlen, if_neg (by omega), ← hlen, if_neg hok, hhead, hdigest, hrest, hlen]

/-- The log of the state file itself, with a part of a frame at its end. -/
theorem Chain.loadWal_own (h : Chain base records) (hdigest : digest.length = 32) (torn : Bytes)
    (hmax : walHeaderLen + framesLen records + torn.length ≤ maxWalBytes)
    (htorn : ∀ fuel valid st, loadFrames sha256 fuel torn valid st = .ok (st, valid)) :
    loadWal sha256
        (some (walHeader digest ++ (records.flatMap (bytes sha256) ++ torn))) digest base =
      .ok (lastState base records, walHeaderLen + framesLen records) := by
  obtain ⟨hle, heq⟩ := h.length_le hsha
  have hlen : (records.flatMap (bytes sha256) ++ torn).length =
      framesLen records + torn.length := by
    rw [length_append, heq]
  rw [loadWal_header hdigest (by omega), if_neg (by simp),
    h.loadFrames_eq hsha (by omega) (by omega), htorn]

omit hsha in
lemma stateDigest_eq (h : encodeStateBody st = .ok body) : stateDigest sha256 st = sha256 body := by
  simp [stateDigest, h, Except.map, Except.toOption]

/-- Loading a state file, whatever its log is. -/
theorem loadState_base (h : encodeStateBody st = .ok body) (hf : st.Fits) (wal : Option Bytes) :
    loadState sha256 ⟨some (body ++ sha256 body), wal⟩ =
      (loadWal sha256 wal (sha256 body) st).map fun loaded =>
        ⟨loaded.1, some (sha256 body), loaded.2⟩ := by
  have hlen : (body ++ sha256 body).length = body.length + 32 := by
    rw [length_append, hsha]
  have hmax : ¬ maxStateBytes < (body ++ sha256 body).length := by
    have := (encodeStateBody_ok h).length_le
    have hbig : 32 ≤ maxStateBytes := by decide
    omega
  have hdigest : (body ++ sha256 body).drop ((body ++ sha256 body).length - 32) = sha256 body := by
    rw [hlen]
    exact drop_left
  rw [loadState]
  simp only [if_neg hmax, decodeState_ok sha256 hsha h hf, hdigest]
  cases loadWal sha256 wal (sha256 body) st with
  | error error => rfl
  | ok loaded => rfl

omit hsha in
lemma files_written (h : encodeStateBody base = .ok body)
    (records : List WalRecord) (faults : List (Option String)) :
    Disk.files sha256 ⟨some base, some ⟨base, records⟩, faults⟩ = ⟨some (body ++ sha256 body),
        some (walHeader (sha256 body) ++ records.flatMap (bytes sha256))⟩ := by
  simp [Disk.files, encodeState, h, Except.map, Except.toOption, Wal.bytes, stateDigest]

omit hsha in
lemma loadFrames_nil (fuel valid : ℕ) (st : StableState) :
    loadFrames sha256 fuel [] valid st = .ok (st, valid) := by
  cases fuel <;> rfl

/-- Loading the files yields the state of the last write. -/
theorem Disk.Intact.loadState_eq (h : disk.Intact) : loadState sha256 (disk.files sha256) =
      .ok ⟨disk.image, disk.base.map (stateDigest sha256), disk.load.walLen⟩ := by
  cases h with
  | empty faults => rfl
  | @written base records faults sound body chain size =>
    obtain ⟨body, hbody⟩ := body
    have hown := chain.loadWal_own hsha (hsha body) [] (by simpa using size) loadFrames_nil
    rw [append_nil] at hown
    rw [files_written hbody, loadState_base hsha hbody sound.toFits, hown, image,
      load_written, map_some, stateDigest_eq hbody]
    rfl

/-- A log that ends inside its last frame yields the state before that frame. -/
theorem loadState_cut {faults : List (Option String)}
    (h : Disk.Intact ⟨some base, some ⟨base, records ++ [record]⟩, faults⟩) {cut : ℕ}
    (hlow : walHeaderLen + framesLen records ≤ cut)
    (hhigh : cut < walHeaderLen + framesLen (records ++ [record])) :
    loadState sha256
        ⟨(Disk.files sha256 ⟨some base, some ⟨base, records ++ [record]⟩, faults⟩).base,
          (Disk.files sha256 ⟨some base, some ⟨base, records ++ [record]⟩, faults⟩).wal.map
            (List.take cut)⟩ = .ok ⟨lastState base records, some (stateDigest sha256 base),
        walHeaderLen + framesLen records⟩ := by
  cases h with
  | written _ sound body chain size =>
    obtain ⟨body, hbody⟩ := body
    obtain ⟨frame, _, hbytes, hlen, hmin⟩ := chain.last.bytes_eq
    rw [framesLen_concat] at size hhigh
    have hframe : frame.length ≤ frameLen frame := by
      simp only [frameLen]
      omega
    have hfront := (chain.front.length_le hsha).2
    have htake : (walHeader (sha256 body) ++ (records ++ [record]).flatMap
        (bytes sha256)).take cut = walHeader (sha256 body) ++
          (records.flatMap (bytes sha256) ++
            (frameOf sha256 frame).take (cut - walHeaderLen - framesLen records)) := by
      have hheader : (walHeader (sha256 body)).length ≤ cut := by
        rw [walHeader_length (hsha body)]
        omega
      rw [flatMap_append, flatMap_singleton, hbytes, List.take_append,
        take_of_length_le hheader, walHeader_length (hsha body), List.take_append, hfront,
        take_of_length_le (by omega)]
    have hown := chain.front.loadWal_own hsha (hsha body)
      ((frameOf sha256 frame).take (cut - walHeaderLen - framesLen records))
      (by rw [length_take]; omega)
      (fun fuel valid st => loadFrames_torn hsha hmin (by omega) (by omega) fuel valid st)
    rw [files_written hbody, map_some, htake, loadState_base hsha hbody sound.toFits, hown,
      stateDigest_eq hbody]
    rfl

/-- A new state file next to the log of the one before: its digest tells that
the log is not its own, unless the file is the same byte for byte. -/
theorem loadState_replaced (h : disk.Intact) (hbody : encodeStateBody st = .ok body) (hf : st.Fits)
    (hcollision : ∀ base old, disk.base = some base → encodeStateBody base = .ok old → sha256 old =
      sha256 body → old = body) :
    ∃ walLen, loadState sha256 ⟨some (body ++ sha256 body), (disk.files sha256).wal⟩ =
      .ok ⟨if disk.base.map encodeStateBody = some (.ok body) then disk.image else st,
        some (sha256 body), walLen⟩ := by
  cases h with
  | empty faults => exact ⟨0, loadState_base hsha hbody hf none⟩
  | @written base records faults sound old chain size =>
    obtain ⟨old, hold⟩ := old
    have hlen := (chain.length_le hsha).2
    by_cases hsame : old = body
    · subst hsame
      refine ⟨walHeaderLen + framesLen records, ?_⟩
      have hload := (Disk.Intact.written faults sound ⟨old, hold⟩ chain size).loadState_eq hsha
      rw [files_written hold] at hload ⊢
      rw [hload, Disk.load_written, map_some, map_some, hold, if_pos rfl, stateDigest_eq hold]
    have hne : sha256 old ≠ sha256 body := fun heq => hsame (hcollision base old rfl hold heq)
    refine ⟨0, ?_⟩
    rw [files_written hold, loadState_base hsha hbody hf,
      loadWal_header (hsha old) (by omega), if_pos hne, map_some, hold,
      if_neg (by simpa using hsame)]
    rfl

end Hashed

end OnetDns.Raft
