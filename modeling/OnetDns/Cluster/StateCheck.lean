import OnetDns.Lib.Checked
import OnetDns.Cluster.Roundtrip

/-!
# The reader of the state file, with its arithmetic checked

`decode_state` with the positions it counts, every index and every sum checked. It is next to
`decodeState`, which takes bytes from the front of a list and counts without a bound. The two differ
in one place only: the index that the entry loop expects may leave the range of `u64`.
-/
namespace OnetDns.Raft.StateFile
open BigEndian Checked Guarded Nat

abbrev Result := Except (Fault String)

/-- `body.get(pos..end)` for the next `len` bytes, with the two errors of the caller. -/
def takeBytes (position truncated : String) (bytes : Bytes) (len pos : ℕ) : Result (Bytes × ℕ) := do
  let stop ← orRefuse position (checkedAdd pos len)
  let front ← orRefuse truncated (range bytes pos stop)
  return (front, stop)

/-- A number of `width` bytes. -/
def takeNumber (width : ℕ) (position format : String) (bytes : Bytes) (pos : ℕ) :
    Result (ℕ × ℕ) := do
  let (front, stop) ←
    takeBytes position "Raft 상태 데이터가 중간에서 잘렸습니다" bytes width pos
  if front.length ≠ width then refuse format else return (decode front, stop)

def takeU64 : Bytes → ℕ → Result (ℕ × ℕ) :=
  takeNumber 8 "Raft 상태 파일에서 64비트 값을 읽을 위치를 계산할 수 없습니다"
    "Raft 상태 파일의 64비트 값 형식이 올바르지 않습니다"

def takeU32 : Bytes → ℕ → Result (ℕ × ℕ) :=
  takeNumber 4 "Raft 상태 파일에서 32비트 값을 읽을 위치를 계산할 수 없습니다"
    "Raft 상태 파일의 32비트 값 형식이 올바르지 않습니다"

def takeVote (bytes : Bytes) (pos : ℕ) : Result (Option NodeId × ℕ) := do
  let flag ← orRefuse "Raft 투표 상태 값이 빠져 있습니다" bytes[pos]?
  let pos ← add u64Max pos 1
  let (id, pos) ← takeU64 bytes pos
  if flag = 0 then return (none, pos)
  else if flag = 1 then return (some id, pos)
  else refuse "Raft 투표 상태 값이 올바르지 않습니다"

/-- A round of the entry loop. -/
def takeEntry (bytes : Bytes) (snapshotIndex position pos : ℕ) : Result (LogEntry × ℕ) := do
  let (term, pos) ← takeU64 bytes pos
  let (index, pos) ← takeU64 bytes pos
  let (len, pos) ← takeU32 bytes pos
  let sum ← add u64Max snapshotIndex position
  let expected ← add u64Max sum 1
  if index ≠ expected ∨ maxEntryBytes < len then refuse "Raft log 형식이 올바르지 않습니다"
  else
    let (data, pos) ← takeBytes "Raft 로그 항목의 길이를 계산할 수 없습니다"
      "Raft 로그 데이터가 중간에서 잘렸습니다" bytes len pos
    return (⟨term, index, data⟩, pos)

/-- The entry loop: `count` rounds from `position` on. -/
def takeEntries (bytes : Bytes) (snapshotIndex : ℕ) :
    (count position pos : ℕ) → Result (List LogEntry × ℕ)
  | 0, _, pos => return ([], pos)
  | count + 1, position, pos => do
    let (entry, pos) ← takeEntry bytes snapshotIndex position pos
    let (rest, pos) ← takeEntries bytes snapshotIndex count (position + 1) pos
    return (entry :: rest, pos)

/-- The fields behind the magic. -/
def decodeFields (body : Bytes) (pos : ℕ) : Result StableState := do
  let (currentTerm, pos) ← takeU64 body pos
  let (votedFor, pos) ← takeVote body pos
  let (commitIndex, pos) ← takeU64 body pos
  let (lastApplied, pos) ← takeU64 body pos
  let (bootCounter, pos) ← takeU64 body pos
  let (snapshotIndex, pos) ← takeU64 body pos
  let (snapshotTerm, pos) ← takeU64 body pos
  let (snapshotLen, pos) ← takeU32 body pos
  if maxSnapshotBytes < snapshotLen ∨ decide (snapshotIndex = 0) ≠ decide (snapshotLen = 0) ∨
      decide (snapshotIndex = 0) ≠ decide (snapshotTerm = 0) then
    refuse "Raft 스냅샷 형식이 올바르지 않습니다"
  else
    let (snapshotData, pos) ← takeBytes "Raft 스냅샷 길이를 계산할 수 없습니다"
      "Raft 스냅샷 데이터가 중간에서 잘렸습니다" body snapshotLen pos
    let (count, pos) ← takeU32 body pos
    if maxLogEntries < count then refuse "Raft 로그 항목이 허용 크기를 넘었습니다"
    else
      let (log, pos) ← takeEntries body snapshotIndex count 0 pos
      let lastIndex ← orRefuse "Raft 로그 마지막 위치가 범위를 넘었습니다"
        (checkedAdd snapshotIndex count)
      if pos ≠ body.length ∨ lastIndex < commitIndex ∨ commitIndex < lastApplied ∨
          lastApplied < snapshotIndex then
        refuse "Raft 상태 파일에 불필요한 데이터가 있거나 값이 허용 범위를 벗어났습니다"
      else
        return { currentTerm, votedFor, log, commitIndex, lastApplied, bootCounter,
                 snapshot := if snapshotIndex ≠ 0 then
                     some ⟨snapshotIndex, snapshotTerm, snapshotData⟩ else none }

def decodeState (sha256 : Bytes → Bytes) (bytes : Bytes) : Result StableState :=
  if bytes.length < stateMagic.length + 8 + 9 + 8 + 8 + 8 + 8 + 8 + 4 + 4 + 32 ∨
      maxStateBytes < bytes.length then
    refuse "Raft 상태 파일의 크기가 올바르지 않습니다"
  else do
    let cut ← sub bytes.length 32
    let body ← slice bytes 0 cut
    let stored ← slice bytes cut bytes.length
    if sha256 body ≠ stored then refuse "Raft 상태 파일의 검사합이 일치하지 않습니다"
    else if range body 0 stateMagic.length ≠ some stateMagic then
      refuse "Raft 상태 파일의 식별자 또는 버전이 현재 형식과 일치하지 않습니다"
    else
      let pos ← add u64Max 0 stateMagic.length
      decodeFields body pos

variable {n width : ℕ}

lemma read_inv {bytes rest : Bytes} (h : read width bytes = some (n, rest)) :
    bytes = encode width n ++ rest ∧ n < 256 ^ width := by
  unfold BigEndian.read take at h
  split_ifs at h with hlen
  · obtain ⟨rfl, rfl⟩ := h
    have hwidth : (bytes.take width).length = width := List.length_take_of_le hlen
    have hencode := encode_decode (bytes.take width)
    have hlt := decode_lt (bytes.take width)
    rw [hwidth] at hencode hlt
    exact ⟨by rw [hencode, List.take_append_drop], hlt⟩
  · cases h

lemma takeU64_eq (bytes : Bytes) : Raft.takeU64 bytes =
    (read 8 bytes).elim (.error "Raft 상태 데이터가 중간에서 잘렸습니다") .ok := by
  rw [Raft.takeU64]
  cases read 8 bytes with
  | none => rfl
  | some result => rfl

lemma takeU32_eq (bytes : Bytes) : Raft.takeU32 bytes =
    (read 4 bytes).elim (.error "Raft 상태 데이터가 중간에서 잘렸습니다") .ok := by
  rw [Raft.takeU32]
  cases read 4 bytes with
  | none => rfl
  | some result => rfl

lemma elim_inv {bytes rest : Bytes} {error : String}
    (h : (read width bytes).elim (Except.error error) Except.ok = .ok (n, rest)) :
    bytes = encode width n ++ rest ∧ n < 256 ^ width := by
  cases hread : read width bytes with
  | none =>
    rw [hread] at h
    cases h
  | some result =>
    rw [hread] at h
    cases h
    exact read_inv hread

lemma takeU64_inv {bytes rest : Bytes} (h : Raft.takeU64 bytes = .ok (n, rest)) :
    bytes = encode 8 n ++ rest ∧ n ≤ u64Max := by
  rw [takeU64_eq] at h
  exact ⟨(elim_inv h).1, le_of_lt_succ (elim_inv h).2⟩

lemma takeU32_inv {bytes rest : Bytes} (h : Raft.takeU32 bytes = .ok (n, rest)) :
    bytes = encode 4 n ++ rest ∧ n ≤ u32Max := by
  rw [takeU32_eq] at h
  exact ⟨(elim_inv h).1, le_of_lt_succ (elim_inv h).2⟩

lemma take_inv {bytes front rest : Bytes} (h : take width bytes = some (front, rest)) :
    bytes = front ++ rest ∧ front.length = width := by
  rw [take] at h
  split_ifs at h with hlen
  obtain ⟨rfl, rfl⟩ := h
  exact ⟨(List.take_append_drop width bytes).symm, List.length_take_of_le hlen⟩

/-- The cursor stands where the unread bytes begin. -/
def Reads {α : Type} (bytes : Bytes) (p : α × ℕ) (q : α × Bytes) : Prop :=
  p.1 = q.1 ∧ p.2 ≤ bytes.length ∧ q.2 = bytes.drop p.2

section Reading

variable {α β γ : Type} {P : Prop} {bytes : Bytes} {pos : ℕ}

lemma Simulates.cursor {R : β → γ → Prop} {x : Result (α × ℕ)} {y : Except String (α × Bytes)}
    {f : α × ℕ → Result β} {g : α × Bytes → Except String γ}
    (h : Checked.Simulates P (Reads bytes) x y)
    (hf : ∀ a pos, pos ≤ bytes.length → y = .ok (a, bytes.drop pos) → Checked.Simulates P R (f (a,
      pos)) (g (a, bytes.drop pos))) : Checked.Simulates P R (x >>= f) (y >>= g) := by
  refine h.bind ?_
  rintro ⟨a, pos⟩ ⟨b, rest⟩ hy ⟨hvalue, hpos, hunread⟩
  obtain rfl : a = b := hvalue
  obtain rfl : rest = bytes.drop pos := hunread
  exact hf a pos hpos hy

lemma Simulates.cursor_eq {x : Result (α × ℕ)} {y : Except String (α × Bytes)} {a : α}
    {rest : Bytes} {f : α × ℕ → Result β} {r : Result β} (h : Checked.Simulates P (Reads bytes) x y)
    (hy : y = .ok (a, rest))
    (hf : ∀ pos, pos ≤ bytes.length → rest = bytes.drop pos → f (a, pos) = r) : x >>= f = r := by
  obtain ⟨⟨b, pos⟩, rfl, hvalue, hpos, hunread⟩ := h.exists_eq hy
  obtain rfl : b = a := hvalue
  exact hf pos hpos hunread

variable (hsize : bytes.length ≤ maxStateBytes) (hpos : pos ≤ bytes.length)
include hsize hpos

variable {len : ℕ}

lemma checkedAdd_pos (hlen : len ≤ u32Max) : checkedAdd pos len = some (pos + len) := by
  have hmax : maxStateBytes + u32Max ≤ u64Max := by decide
  exact if_pos (by omega)

lemma takeBytes_eq (position truncated : String) (hlen : len ≤ u32Max) :
    takeBytes position truncated bytes len pos = (do
      let front ← orRefuse truncated (range bytes pos (pos + len)) return (front, pos + len)) := by
  rw [takeBytes, checkedAdd_pos hsize hpos hlen]
  rfl

lemma takeBytes_ok (position truncated : String) (hlen : len ≤ u32Max)
    {front rest : Bytes} (h : take len (bytes.drop pos) = some (front, rest)) :
    ∃ stop, takeBytes position truncated bytes len pos = .ok (front, stop) ∧
      stop ≤ bytes.length ∧ rest = bytes.drop stop := by
  obtain ⟨hbytes, hfront⟩ := take_inv h
  have hroom : pos + len ≤ bytes.length := by
    have := congrArg List.length hbytes
    rw [List.length_drop, List.length_append] at this
    omega
  have hrange : range bytes pos (pos + len) = some front := by
    refine range_eq_some.mpr ⟨le_add_right _ _, hroom, ?_⟩
    rw [hbytes, Nat.add_sub_cancel_left, List.take_left' hfront]
  refine ⟨pos + len, ?_, hroom, ?_⟩
  · rw [takeBytes_eq hsize hpos position truncated hlen, hrange]
    rfl
  · rw [← List.drop_drop, hbytes, List.drop_left' hfront]

lemma takeBytes_truncated (position truncated : String) (hlen : len ≤ u32Max)
    (h : take len (bytes.drop pos) = none) :
    takeBytes position truncated bytes len pos = refuse truncated := by
  have hshort : ¬pos + len ≤ bytes.length := by
    intro hroom
    rw [take, if_pos (by rw [List.length_drop]; omega)] at h
    cases h
  have hrange : range bytes pos (pos + len) = none := if_neg fun hroom => hshort hroom.2
  rw [takeBytes_eq hsize hpos position truncated hlen, hrange]
  rfl

lemma takeNumber_simulates (hwidth : width ≤ u32Max) (position format : String) :
    Checked.Simulates P (Reads bytes) (takeNumber width position format bytes pos)
      ((read width (bytes.drop pos)).elim (.error "Raft 상태 데이터가 중간에서 잘렸습니다") .ok) := by
  unfold BigEndian.read
  cases htake : take width (bytes.drop pos) with
  | none =>
    rw [takeNumber, takeBytes_truncated hsize hpos position _ hwidth htake]
    exact .refused _
  | some found =>
    obtain ⟨front, rest⟩ := found
    obtain ⟨stop, hok, hstop, hrest⟩ := takeBytes_ok hsize hpos position
      "Raft 상태 데이터가 중간에서 잘렸습니다" hwidth htake
    have hnumber : takeNumber width position format bytes pos = .ok (decode front, stop) := by
      rw [takeNumber, hok]
      exact if_neg (not_not.mpr (take_inv htake).2)
    rw [hnumber]
    exact .ok ⟨rfl, hstop, hrest⟩

lemma takeU64_simulates :
    Checked.Simulates P (Reads bytes) (takeU64 bytes pos) (Raft.takeU64 (bytes.drop pos)) := by
  rw [takeU64_eq]
  exact takeNumber_simulates hsize hpos (by decide) _ _

lemma takeU32_simulates :
    Checked.Simulates P (Reads bytes) (takeU32 bytes pos) (Raft.takeU32 (bytes.drop pos)) := by
  rw [takeU32_eq]
  exact takeNumber_simulates hsize hpos (by decide) _ _

lemma takeVote_simulates :
    Checked.Simulates P (Reads bytes) (takeVote bytes pos) (Raft.takeVote "Raft 투표 상태 값이 빠져 있습니다"
      "Raft 투표 상태 값이 올바르지 않습니다" (bytes.drop pos)) := by
  cases h : bytes.drop pos with
  | nil =>
    have hnone : bytes[pos]? = none := List.getElem?_eq_none (List.drop_eq_nil_iff.mp h)
    rw [takeVote, hnone]
    exact .refused _
  | cons flag rest =>
    have hlt : pos < bytes.length := by
      have := congrArg List.length h
      rw [List.length_drop, List.length_cons] at this
      omega
    have hcons := List.drop_eq_getElem_cons hlt
    rw [h, List.cons.injEq] at hcons
    have hsome : bytes[pos]? = some flag := by rw [List.getElem?_eq_getElem hlt, hcons.1]
    have hadd : (add u64Max pos 1 : Result ℕ) = .ok (pos + 1) := by
      have hmax : maxStateBytes + 1 ≤ u64Max := by decide
      exact add_ok (by omega)
    rw [takeVote, hsome, hcons.2]
    simp only [hadd]
    refine Simulates.cursor (takeU64_simulates hsize hlt) fun id pos hpos _ => ?_
    by_cases h0 : flag = 0
    · simp only [h0]
      exact .ok ⟨rfl, hpos, rfl⟩
    by_cases h1 : flag = 1
    · simp only [if_neg h0, if_pos h1]
      exact .ok ⟨rfl, hpos, rfl⟩
    · simp only [if_neg h0, if_neg h1]
      exact .refused _

end Reading

variable {expected : ℕ}

lemma takeEntry_inv {invalid truncated : String} {bytes rest : Bytes}
    {entry : LogEntry} (h : Raft.takeEntry invalid truncated expected bytes = .ok (entry, rest)) :
    bytes = encodeEntry entry ++ rest ∧ EntryOk expected entry := by
  obtain ⟨⟨term, bytes₁⟩, hterm, h₁⟩ := bind_inv h
  obtain ⟨⟨index, bytes₂⟩, hindex, h₂⟩ := bind_inv h₁
  obtain ⟨⟨len, bytes₃⟩, hlen, h₃⟩ := bind_inv h₂
  obtain ⟨rfl, htermle⟩ := takeU64_inv hterm
  obtain ⟨rfl, hindexle⟩ := takeU64_inv hindex
  obtain ⟨rfl, _⟩ := takeU32_inv hlen
  dsimp only at h₃
  split at h₃
  case isTrue => cases h₃
  case isFalse hok =>
    rw [not_or, not_not] at hok
    split at h₃
    case h_1 => cases h₃
    case h_2 data after htake =>
      cases h₃
      obtain ⟨rfl, hdata⟩ := take_inv htake
      refine ⟨?_, hok.1, htermle, hindexle, ?_⟩
      · simp only [encodeEntry, List.append_assoc, hdata]
      · exact hdata.trans_le (not_lt.mp hok.2)

variable {entries : List LogEntry}

/-- The entries of a list have the indexes from `first` on. -/
theorem takeEntries_inv {invalid truncated : String} {count : ℕ} {bytes rest : Bytes}
    (h : Raft.takeEntries invalid truncated count expected bytes = .ok (entries, rest)) :
    entries.length = count ∧ EntriesOk expected entries := by
  induction count generalizing expected bytes entries rest with
  | zero =>
    cases h
    exact ⟨rfl, trivial⟩
  | succ count ih =>
    obtain ⟨⟨entry, bytes₁⟩, hentry, h₁⟩ := bind_inv h
    obtain ⟨⟨entries, bytes₂⟩, hentries, h₂⟩ := bind_inv h₁
    cases h₂
    obtain ⟨hlen, hok⟩ := ih hentries
    exact ⟨congrArg (· + 1) hlen, (takeEntry_inv hentry).2, hok⟩

lemma index_of_entriesOk (h : EntriesOk expected entries)
    {i : ℕ} {e : LogEntry} (hi : entries[i]? = some e) : e.index = expected + i := by
  induction entries generalizing expected i with
  | nil => cases hi
  | cons head rest ih =>
    cases i with
    | zero =>
      cases hi
      exact h.1.index
    | succ i =>
      have := ih h.2 hi
      omega

/-- Entries up to the highest index there is, and the numbers of one more. -/
def Overruns (snapshotIndex position count : ℕ) (bytes : Bytes) : Prop :=
  ∃ entries rest, bytes = entries.flatMap encodeEntry ++ rest ∧
    EntriesOk (snapshotIndex + position + 1) entries ∧
    snapshotIndex + position + entries.length = u64Max ∧ entries.length < count ∧ 20 ≤ rest.length

variable {position : ℕ}

lemma Overruns.cons {snapshotIndex count : ℕ} {entry : LogEntry} {rest : Bytes}
    (hentry : EntryOk (snapshotIndex + position + 1) entry)
    (h : Overruns snapshotIndex (position + 1) count rest) :
    Overruns snapshotIndex position (count + 1) (encodeEntry entry ++ rest) := by
  obtain ⟨entries, after, rfl, hok, hlast, hcount, hroom⟩ := h
  refine ⟨entry :: entries, after, ?_, ⟨hentry, hok⟩, ?_, ?_, hroom⟩
  · rw [List.flatMap_cons, List.append_assoc]
  · rw [List.length_cons]
    omega
  · exact succ_lt_succ hcount

section Entries

variable {bytes : Bytes} {pos snapshotIndex : ℕ} (hsize : bytes.length ≤ maxStateBytes)
include hsize

/-- An entry is read alike, up to the highest index. -/
theorem takeEntry_simulates (hpos : pos ≤ bytes.length)
    (hindex : snapshotIndex + position ≤ u64Max) :
    Checked.Simulates (snapshotIndex + position = u64Max ∧ 20 ≤ (bytes.drop pos).length) (Reads bytes)
      (takeEntry bytes snapshotIndex position pos)
      (Raft.takeEntry "Raft log 형식이 올바르지 않습니다" "Raft 로그 데이터가 중간에서 잘렸습니다"
        (snapshotIndex + position + 1) (bytes.drop pos)) := by
  refine Simulates.cursor (takeU64_simulates hsize hpos) fun term pos₁ hpos₁ hterm => ?_
  refine Simulates.cursor (takeU64_simulates hsize hpos₁) fun index pos₂ hpos₂ hidx => ?_
  refine Simulates.cursor (takeU32_simulates hsize hpos₂) fun len pos₃ hpos₃ hlen => ?_
  have hroom : 20 ≤ (bytes.drop pos).length := by
    rw [(takeU64_inv hterm).1, (takeU64_inv hidx).1, (takeU32_inv hlen).1]
    simp only [List.length_append, encode_length]
    omega
  simp only [add_ok hindex, bind, Except.bind]
  by_cases hlast : snapshotIndex + position = u64Max
  · have hbad : index ≠ snapshotIndex + position + 1 := by
      have := (takeU64_inv hidx).2
      omega
    rw [add_overflow (by omega), if_pos (.inl hbad)]
    exact .overflow _ ⟨hlast, hroom⟩
  rw [add_ok (by omega)]
  refine .ite (fun _ => .refused _) fun _ => ?_
  have hlenle : len ≤ u32Max := (takeU32_inv hlen).2
  cases htake : take len (bytes.drop pos₃) with
  | none =>
    rw [takeBytes_truncated hsize hpos₃ _ _ hlenle htake]
    exact .refused _
  | some found =>
    obtain ⟨stop, hok, hstop, hrest⟩ := takeBytes_ok hsize hpos₃
      "Raft 로그 항목의 길이를 계산할 수 없습니다" "Raft 로그 데이터가 중간에서 잘렸습니다" hlenle htake
    rw [hok]
    exact .ok ⟨rfl, hstop, hrest⟩

lemma takeEntries_simulates (count : ℕ) (hpos : pos ≤ bytes.length)
    (hindex : snapshotIndex + position ≤ u64Max) :
    Checked.Simulates (Overruns snapshotIndex position count (bytes.drop pos)) (Reads bytes)
      (takeEntries bytes snapshotIndex count position pos)
      (Raft.takeEntries "Raft log 형식이 올바르지 않습니다" "Raft 로그 데이터가 중간에서 잘렸습니다"
        count (snapshotIndex + position + 1) (bytes.drop pos)) := by
  induction count generalizing position pos with
  | zero => exact .ok ⟨rfl, hpos, rfl⟩
  | succ count ih =>
    have hnone : snapshotIndex + position = u64Max ∧ 20 ≤ (bytes.drop pos).length →
        Overruns snapshotIndex position (count + 1) (bytes.drop pos) := fun h =>
      ⟨[], bytes.drop pos, rfl, trivial, h.1, succ_pos _, h.2⟩
    refine Simulates.cursor ((takeEntry_simulates hsize hpos hindex).mono hnone) fun entry pos₁ hpos₁ hentry => ?_
    obtain ⟨hbytes, hok⟩ := takeEntry_inv hentry
    have hnext : snapshotIndex + (position + 1) ≤ u64Max := by
      have := hok.index
      have := hok.index_le
      omega
    have hrest := (ih hpos₁ hnext).mono fun h => hbytes ▸ h.cons hok
    exact Simulates.cursor hrest fun rest pos₂ hpos₂ _ => .ok ⟨rfl, hpos₂, rfl⟩

end Entries

section Overflow

variable {α : Type} {bytes rest : Bytes} {pos : ℕ} (hsize : bytes.length ≤ maxStateBytes)
  (hpos : pos ≤ bytes.length)
include hsize hpos

variable {r : Result α}

lemma takeU64_at {f : ℕ × ℕ → Result α} (hn : n ≤ u64Max)
    (hbytes : bytes.drop pos = encode 8 n ++ rest)
    (hf : ∀ stop, stop ≤ bytes.length → rest = bytes.drop stop → f (n, stop) = r) :
    takeU64 bytes pos >>= f = r :=
  Simulates.cursor_eq (takeU64_simulates (P := False) hsize hpos) (by rw [hbytes]; exact takeU64_encode hn rest) hf

lemma takeU32_at {f : ℕ × ℕ → Result α} (hn : n ≤ u32Max)
    (hbytes : bytes.drop pos = encode 4 n ++ rest)
    (hf : ∀ stop, stop ≤ bytes.length → rest = bytes.drop stop → f (n, stop) = r) :
    takeU32 bytes pos >>= f = r :=
  Simulates.cursor_eq (takeU32_simulates (P := False) hsize hpos) (by rw [hbytes]; exact takeU32_encode hn rest) hf

lemma takeVote_at {flag : UInt8} {id : ℕ} {f : Option NodeId × ℕ → Result α}
    (hflag : flag = 0 ∨ flag = 1) (hid : id ≤ u64Max)
    (hbytes : bytes.drop pos = flag :: (encode 8 id ++ rest))
    (hf : ∀ vote stop, stop ≤ bytes.length → rest = bytes.drop stop → f (vote, stop) = r) :
    takeVote bytes pos >>= f = r := by
  have hvote : Raft.takeVote "Raft 투표 상태 값이 빠져 있습니다" "Raft 투표 상태 값이 올바르지 않습니다"
      (bytes.drop pos) = .ok (if flag = 0 then none else some id, rest) := by
    rw [hbytes, Raft.takeVote]
    simp only [takeU64_encode hid]
    rcases hflag with rfl | rfl
    · rfl
    · rfl
  exact Simulates.cursor_eq (takeVote_simulates (P := False) hsize hpos) hvote (hf _)

lemma takeBytes_at (position truncated : String) {front : Bytes} {f : Bytes × ℕ → Result α} (hfront : front.length ≤ u32Max) (hbytes : bytes.drop pos = front ++ rest)
    (hf : ∀ stop, stop ≤ bytes.length → rest = bytes.drop stop → f (front, stop) = r) :
    takeBytes position truncated bytes front.length pos >>= f = r := by
  obtain ⟨stop, hok, hstop, hrest⟩ := takeBytes_ok hsize hpos position truncated hfront
    (by rw [hbytes]; exact take_append rfl rest)
  rw [hok]
  exact hf stop hstop hrest

lemma takeEntry_overflow {snapshotIndex : ℕ} (hlast : snapshotIndex + position = u64Max)
    (hroom : 20 ≤ (bytes.drop pos).length) :
    takeEntry bytes snapshotIndex position pos = .error .overflow := by
  have hread : ∀ (width p : ℕ), width ≤ (bytes.drop p).length →
      read width (bytes.drop p) =
        some (decode ((bytes.drop p).take width), (bytes.drop p).drop width) := by
    intro width p hle
    rw [BigEndian.read, take, if_pos hle]
    rfl
  have h₀ : 8 ≤ (bytes.drop pos).length := by omega
  refine Simulates.cursor_eq (takeU64_simulates (P := False) hsize hpos)
    (by rw [takeU64_eq, hread 8 pos h₀]; rfl) fun p₁ hp₁ h₁ => ?_
  have hlen₁ : 12 ≤ (bytes.drop p₁).length := by
    rw [← h₁, List.length_drop]
    omega
  refine Simulates.cursor_eq (takeU64_simulates (P := False) hsize hp₁)
    (by rw [takeU64_eq, hread 8 p₁ (by omega)]; rfl) fun p₂ hp₂ h₂ => ?_
  have hlen₂ : 4 ≤ (bytes.drop p₂).length := by
    rw [← h₂, List.length_drop]
    omega
  refine Simulates.cursor_eq (takeU32_simulates (P := False) hsize hp₂)
    (by rw [takeU32_eq, hread 4 p₂ hlen₂]; rfl) fun p₃ _ _ => ?_
  simp only [add_ok hlast.le, bind, Except.bind]
  rw [add_overflow (by omega)]

end Overflow

section Overflow

variable {bytes : Bytes} {snapshotIndex : ℕ} (hsize : bytes.length ≤ maxStateBytes)
include hsize

lemma takeEntries_overflow {rest : Bytes} {count pos : ℕ} (hpos : pos ≤ bytes.length)
    (hbytes : bytes.drop pos = entries.flatMap encodeEntry ++ rest)
    (hok : EntriesOk (snapshotIndex + position + 1) entries)
    (hlast : snapshotIndex + position + entries.length = u64Max) (hcount : entries.length < count)
    (hroom : 20 ≤ rest.length) :
    takeEntries bytes snapshotIndex count position pos = .error .overflow := by
  induction entries generalizing position count pos with
  | nil =>
    obtain ⟨count, rfl⟩ := Nat.exists_eq_add_of_lt hcount
    have hover : takeEntry bytes snapshotIndex position pos = .error .overflow :=
      takeEntry_overflow hsize hpos hlast (by rw [hbytes]; exact hroom)
    rw [takeEntries, hover]
    rfl
  | cons entry entries ih =>
    obtain ⟨count, rfl⟩ := Nat.exists_eq_add_of_lt hcount
    rw [List.length_cons] at hlast hcount
    rw [List.flatMap_cons, List.append_assoc] at hbytes
    have hbelow : snapshotIndex + position ≤ u64Max := by omega
    have hentry : Raft.takeEntry "Raft log 형식이 올바르지 않습니다"
        "Raft 로그 데이터가 중간에서 잘렸습니다" (snapshotIndex + position + 1) (bytes.drop pos) =
        .ok (entry, entries.flatMap encodeEntry ++ rest) := by
      rw [hbytes]
      exact takeEntry_encode _ _ hok.1 _
    refine Simulates.cursor_eq (takeEntry_simulates hsize hpos hbelow) hentry fun stop hstop hrest => ?_
    have hover : takeEntries bytes snapshotIndex (entries.length + 1 + count) (position + 1) stop =
        .error .overflow := ih hstop hrest.symm hok.2 (by omega) (by omega)
    dsimp only
    rw [List.length_cons, hover]
    rfl

end Overflow

/-- What stands between the magic and the entries. -/
structure Header where
  currentTerm : ℕ
  voteFlag : UInt8
  voteId : ℕ
  commitIndex : ℕ
  lastApplied : ℕ
  bootCounter : ℕ
  snapshotIndex : ℕ
  snapshotTerm : ℕ
  snapshotData : Bytes
  count : ℕ

namespace Header

def bytes (h : Header) (rest : Bytes) : Bytes :=
  encode 8 h.currentTerm ++ (h.voteFlag :: (encode 8 h.voteId ++ (encode 8 h.commitIndex ++
    (encode 8 h.lastApplied ++ (encode 8 h.bootCounter ++ (encode 8 h.snapshotIndex ++
      (encode 8 h.snapshotTerm ++ (encode 4 h.snapshotData.length ++ (h.snapshotData ++
        (encode 4 h.count ++ rest))))))))))

/-- A header that is read without an error. -/
structure Ok (h : Header) : Prop where
  currentTerm : h.currentTerm ≤ u64Max
  voteFlag : h.voteFlag = 0 ∨ h.voteFlag = 1
  voteId : h.voteId ≤ u64Max
  commitIndex : h.commitIndex ≤ u64Max
  lastApplied : h.lastApplied ≤ u64Max
  bootCounter : h.bootCounter ≤ u64Max
  snapshotIndex : h.snapshotIndex ≤ u64Max
  snapshotTerm : h.snapshotTerm ≤ u64Max
  size : h.snapshotData.length ≤ maxSnapshotBytes
  empty : h.snapshotIndex = 0 ↔ h.snapshotData.length = 0
  unset : h.snapshotIndex = 0 ↔ h.snapshotTerm = 0
  count_le : h.count ≤ maxLogEntries

end Header

/-- Fields whose entries go on behind the highest index. -/
def FieldsOverrun (bytes : Bytes) : Prop :=
  ∃ (header : Header) (rest : Bytes), bytes = header.bytes rest ∧ header.Ok ∧
    Overruns header.snapshotIndex 0 header.count rest

/-- The indexes and positions that a state file promises. -/
structure Ordered (st : StableState) : Prop where
  index : ∀ i e, st.log[i]? = some e → e.index = st.snapshotIndex + 1 + i
  snapshot_le : st.snapshotIndex ≤ st.lastApplied
  applied_le : st.lastApplied ≤ st.commitIndex
  commit_le : st.commitIndex ≤ st.snapshotIndex + st.log.length

lemma takeVote_inv {missing invalid : String} {bytes rest : Bytes} {vote : Option NodeId}
    (h : Raft.takeVote missing invalid bytes = .ok (vote, rest)) :
    ∃ flag id, bytes = flag :: (encode 8 id ++ rest) ∧ (flag = 0 ∨ flag = 1) ∧ id ≤ u64Max := by
  cases bytes with
  | nil => cases h
  | cons flag bytes =>
    obtain ⟨⟨id, after⟩, hid, h₁⟩ := bind_inv h
    obtain ⟨rfl, hle⟩ := takeU64_inv hid
    split_ifs at h₁ with h0 h1
    · cases h₁
      exact ⟨flag, id, rfl, .inl h0, hle⟩
    · cases h₁
      exact ⟨flag, id, rfl, .inr h1, hle⟩

section Fields

variable {bytes : Bytes} {pos : ℕ} (hsize : bytes.length ≤ maxStateBytes) (hpos : pos ≤ bytes.length)
include hsize hpos

lemma decodeFields_simulates :
    Checked.Simulates (FieldsOverrun (bytes.drop pos)) (fun a b => a = b ∧ Ordered a)
      (decodeFields bytes pos) (decodeStateFields (bytes.drop pos)) := by
  refine Simulates.cursor (takeU64_simulates hsize hpos) fun currentTerm p₁ hp₁ h₁ => ?_
  refine Simulates.cursor (takeVote_simulates hsize hp₁) fun votedFor p₂ hp₂ h₂ => ?_
  refine Simulates.cursor (takeU64_simulates hsize hp₂) fun commitIndex p₃ hp₃ h₃ => ?_
  refine Simulates.cursor (takeU64_simulates hsize hp₃) fun lastApplied p₄ hp₄ h₄ => ?_
  refine Simulates.cursor (takeU64_simulates hsize hp₄) fun bootCounter p₅ hp₅ h₅ => ?_
  refine Simulates.cursor (takeU64_simulates hsize hp₅) fun snapshotIndex p₆ hp₆ h₆ => ?_
  refine Simulates.cursor (takeU64_simulates hsize hp₆) fun snapshotTerm p₇ hp₇ h₇ => ?_
  refine Simulates.cursor (takeU32_simulates hsize hp₇) fun snapshotLen p₈ hp₈ h₈ => ?_
  obtain ⟨flag, id, hvote, hflag, hid⟩ := takeVote_inv h₂
  have hindex := (takeU64_inv h₆).2
  have hlen := (takeU32_inv h₈).2
  refine .ite (fun _ => .refused _) fun hformat => ?_
  rw [not_or, not_or, not_not, not_not, decide_eq_decide, decide_eq_decide, not_lt] at hformat
  cases hdata : take snapshotLen (bytes.drop p₈) with
  | none =>
    rw [takeBytes_truncated hsize hp₈ _ _ hlen hdata]
    exact .refused _
  | some found =>
    obtain ⟨data, after⟩ := found
    obtain ⟨p₉, hok, hp₉, rfl⟩ := takeBytes_ok hsize hp₈ "Raft 스냅샷 길이를 계산할 수 없습니다"
      "Raft 스냅샷 데이터가 중간에서 잘렸습니다" hlen hdata
    obtain ⟨hfront, rfl⟩ := take_inv hdata
    rw [hok]
    obtain ⟨snapshot, hsnapshot⟩ : ∃ s, s = if snapshotIndex ≠ 0 then
        some (⟨snapshotIndex, snapshotTerm, data⟩ : Snapshot) else none := ⟨_, rfl⟩
    have hsnap : snapshot.elim 0 (·.index) = snapshotIndex := by
      rw [hsnapshot]
      split_ifs with h0
      · rfl
      · exact (not_not.mp h0).symm
    refine Simulates.cursor (takeU32_simulates hsize hp₉) fun count p₁₀ hp₁₀ h₁₀ => ?_
    simp only [← hsnapshot]
    refine .ite (fun _ => .refused _) fun hcount => ?_
    have hover : Overruns snapshotIndex 0 count (bytes.drop p₁₀) → FieldsOverrun (bytes.drop pos) := by
      intro h
      refine ⟨⟨currentTerm, flag, id, commitIndex, lastApplied, bootCounter, snapshotIndex,
        snapshotTerm, data, count⟩, bytes.drop p₁₀, ?_, ?_, h⟩
      · rw [(takeU64_inv h₁).1, hvote, (takeU64_inv h₃).1, (takeU64_inv h₄).1, (takeU64_inv h₅).1,
          (takeU64_inv h₆).1, (takeU64_inv h₇).1, (takeU32_inv h₈).1, hfront, (takeU32_inv h₁₀).1]
        rfl
      · exact ⟨(takeU64_inv h₁).2, hflag, hid, (takeU64_inv h₃).2, (takeU64_inv h₄).2,
          (takeU64_inv h₅).2, hindex, (takeU64_inv h₇).2, hformat.1, hformat.2.1, hformat.2.2,
          not_lt.mp hcount⟩
    refine Simulates.cursor ((takeEntries_simulates hsize count hp₁₀ hindex).mono hover)
      fun log p₁₁ hp₁₁ hlog => ?_
    obtain ⟨hloglen, hentries⟩ := takeEntries_inv hlog
    cases hlast : checkedAdd snapshotIndex count with
    | none => exact .refused _
    | some lastIndex =>
      obtain ⟨rfl, -⟩ := checkedAdd_eq_some hlast
      have hend : p₁₁ ≠ bytes.length ↔ bytes.drop p₁₁ ≠ [] := by
        rw [Ne, Ne, List.drop_eq_nil_iff]
        omega
      simp only [hend]
      refine .ite (fun _ => .refused _) fun hbad => ?_
      rw [not_or, not_or, not_or, not_lt, not_lt, not_lt] at hbad
      refine .ok ⟨rfl, fun i e he => ?_, hsnap.trans_le hbad.2.2.2, hbad.2.2.1, ?_⟩
      · rw [StableState.snapshotIndex, hsnap]
        exact index_of_entriesOk hentries he
      · rw [StableState.snapshotIndex, hsnap, hloglen]
        exact hbad.2.1

lemma decodeFields_overflow (h : FieldsOverrun (bytes.drop pos)) :
    decodeFields bytes pos = .error .overflow := by
  obtain ⟨header, rest, hbytes, hok, entries, after, rfl, hentries, hlast, hcount, hroom⟩ := h
  refine takeU64_at hsize hpos hok.currentTerm hbytes fun p₁ hp₁ h₁ => ?_
  refine takeVote_at hsize hp₁ hok.voteFlag hok.voteId h₁.symm fun _ p₂ hp₂ h₂ => ?_
  refine takeU64_at hsize hp₂ hok.commitIndex h₂.symm fun p₃ hp₃ h₃ => ?_
  refine takeU64_at hsize hp₃ hok.lastApplied h₃.symm fun p₄ hp₄ h₄ => ?_
  refine takeU64_at hsize hp₄ hok.bootCounter h₄.symm fun p₅ hp₅ h₅ => ?_
  refine takeU64_at hsize hp₅ hok.snapshotIndex h₅.symm fun p₆ hp₆ h₆ => ?_
  refine takeU64_at hsize hp₆ hok.snapshotTerm h₆.symm fun p₇ hp₇ h₇ => ?_
  have hlen : header.snapshotData.length ≤ u32Max := hok.size.trans (by decide)
  refine takeU32_at hsize hp₇ hlen h₇.symm fun p₈ hp₈ h₈ => ?_
  have hformat : ¬(maxSnapshotBytes < header.snapshotData.length ∨
      decide (header.snapshotIndex = 0) ≠ decide (header.snapshotData.length = 0) ∨
      decide (header.snapshotIndex = 0) ≠ decide (header.snapshotTerm = 0)) := by
    rw [not_or, not_or, not_not, not_not, decide_eq_decide, decide_eq_decide, not_lt]
    exact ⟨hok.size, hok.empty, hok.unset⟩
  dsimp only
  rw [if_neg hformat]
  refine takeBytes_at hsize hp₈ _ _ hlen h₈.symm fun p₉ hp₉ h₉ => ?_
  refine takeU32_at hsize hp₉ (hok.count_le.trans (by decide)) h₉.symm fun p₁₀ hp₁₀ h₁₀ => ?_
  have hover : takeEntries bytes header.snapshotIndex header.count 0 p₁₀ = .error .overflow :=
    takeEntries_overflow hsize hp₁₀ h₁₀.symm hentries hlast hcount hroom
  rw [if_neg (not_lt.mpr hok.count_le), hover]
  rfl

end Fields

section File

variable (sha256 : Bytes → Bytes)

/-- Files whose entry loop comes to an entry behind the highest index there is: everything before
that entry is read without an error, and the numbers of that entry are there. -/
def Overflowing (bytes : Bytes) : Prop :=
  ∃ fields, bytes = stateMagic ++ fields ++ sha256 (stateMagic ++ fields) ∧
    bytes.length ≤ maxStateBytes ∧ FieldsOverrun fields

lemma Header.bytes_length_le (h : Header) (rest : Bytes) :
    65 + rest.length ≤ (h.bytes rest).length := by
  simp only [bytes, List.length_append, List.length_cons, encode_length]
  omega

/-- The tests in front of the fields. -/
theorem decodeState_eq (bytes : Bytes) :
    decodeState sha256 bytes =
      if bytes.length < stateMagic.length + 8 + 9 + 8 + 8 + 8 + 8 + 8 + 4 + 4 + 32 ∨
          maxStateBytes < bytes.length then
        refuse "Raft 상태 파일의 크기가 올바르지 않습니다"
      else if sha256 (bytes.take (bytes.length - 32)) ≠ bytes.drop (bytes.length - 32) then
        refuse "Raft 상태 파일의 검사합이 일치하지 않습니다"
      else if (bytes.take (bytes.length - 32)).take stateMagic.length ≠ stateMagic then
        refuse "Raft 상태 파일의 식별자 또는 버전이 현재 형식과 일치하지 않습니다"
      else decodeFields (bytes.take (bytes.length - 32)) stateMagic.length := by
  refine ite_congr rfl (fun _ => rfl) fun hsize => ?_
  rw [not_or, not_lt] at hsize
  have hmin : 109 ≤ bytes.length := hsize.1
  set cut := bytes.length - 32 with hcut
  have hbody : (slice bytes 0 cut : Result Bytes) = .ok (bytes.take cut) := by
    rw [slice, range, if_pos ⟨zero_le _, sub_le _ _⟩, List.drop_zero, Nat.sub_zero]
  have hstored : (slice bytes cut bytes.length : Result Bytes) = .ok (bytes.drop cut) := by
    have hlen : (bytes.drop cut).length = bytes.length - cut := List.length_drop
    rw [slice, range, if_pos ⟨sub_le _ _, le_rfl⟩, List.take_of_length_le hlen.le]
  have hfront : range (bytes.take cut) 0 stateMagic.length =
      some ((bytes.take cut).take stateMagic.length) := by
    have hle : stateMagic.length ≤ (bytes.take cut).length := by
      rw [List.length_take_of_le (sub_le _ _)]
      exact (show stateMagic.length ≤ 77 by decide).trans (by omega)
    rw [range, if_pos ⟨zero_le _, hle⟩, List.drop_zero, Nat.sub_zero]
  rw [sub_ok (by omega)]
  simp only [bind, Except.bind, ← hcut, hbody, hstored, hfront, Option.some.injEq, ne_eq]
  rfl

/-- The two readers side by side on any bytes. -/
theorem decodeState_simulates (bytes : Bytes) :
    Checked.Simulates (Overflowing sha256 bytes) (fun a b => a = b ∧ Ordered a) (decodeState sha256 bytes)
      (Raft.decodeState sha256 bytes) := by
  rw [decodeState_eq]
  refine .ite (fun _ => .refused _) fun hsize => ?_
  refine .ite (fun _ => .refused _) fun hdigest => ?_
  refine .ite (fun _ => .refused _) fun hmagic => ?_
  rw [not_or, not_lt, not_lt] at hsize
  set body := bytes.take (bytes.length - 32)
  have hlen : stateMagic.length ≤ body.length := by
    have hmin : 109 ≤ bytes.length := hsize.1
    rw [List.length_take_of_le (sub_le _ _)]
    exact (show stateMagic.length ≤ 77 by decide).trans (by omega)
  have hle : body.length ≤ maxStateBytes :=
    (List.length_take_le _ _).trans ((sub_le _ _).trans hsize.2)
  refine (decodeFields_simulates hle hlen).mono fun hover => ?_
  have hsplit : stateMagic ++ body.drop stateMagic.length = body := by
    conv_rhs => rw [← List.take_append_drop stateMagic.length body, not_not.mp hmagic]
  refine ⟨body.drop stateMagic.length, ?_, hsize.2, hover⟩
  rw [hsplit, not_not.mp hdigest, List.take_append_drop]

variable (hsha : ∀ bytes, (sha256 bytes).length = 32)
include hsha

lemma decodeState_overflow {bytes : Bytes} (h : Overflowing sha256 bytes) :
    decodeState sha256 bytes = .error .overflow := by
  obtain ⟨fields, hbytes, hmax, hover⟩ := h
  set body := stateMagic ++ fields with hbody
  have hfields : body.drop stateMagic.length = fields := List.drop_left
  have hlong : 65 ≤ fields.length := by
    obtain ⟨header, rest, rfl, -⟩ := hover
    exact (le_add_right _ _).trans (header.bytes_length_le rest)
  have hlen : bytes.length = body.length + 32 := by rw [hbytes, List.length_append, hsha]
  have hmagic : stateMagic.length = 12 := by decide
  have hbodylen : body.length = 12 + fields.length := by rw [List.length_append, hmagic]
  have htake : bytes.take (bytes.length - 32) = body := by
    rw [hlen, Nat.add_sub_cancel, hbytes, List.take_left]
  have hdrop : bytes.drop (bytes.length - 32) = sha256 body := by
    rw [hlen, Nat.add_sub_cancel, hbytes, List.drop_left]
  rw [decodeState_eq, htake, hdrop, if_neg, if_neg (not_not.mpr rfl)]
  · exact decodeFields_overflow (by omega) (by omega) (by rw [hfields]; exact hover)
  · rw [not_or, not_lt, not_lt]
    exact ⟨by omega, hmax⟩

/-- A state that was written is read back. On any bytes the reader stays inside its arrays and its
numbers and returns an ordered state, or an error of its own, just when its entry loop does not come
to an entry behind the highest index. -/
theorem state_codec_exact :
    (∀ st bytes, st.Fits → encodeState sha256 st = .ok bytes → decodeState sha256 bytes = .ok st) ∧
      ∀ bytes, Meets Handled Ordered (decodeState sha256 bytes) ↔ ¬Overflowing sha256 bytes := by
  refine ⟨fun st bytes hfits hencode => ?_, fun bytes => ⟨fun h hover => ?_, fun h => ?_⟩⟩
  · unfold encodeState at hencode
    cases hbody : encodeStateBody st with
    | error error =>
      rw [hbody] at hencode
      cases hencode
    | ok body =>
      rw [hbody] at hencode
      cases hencode
      have hplain := decodeState_ok sha256 hsha hbody hfits
      obtain ⟨st', hok, rfl, -⟩ := (decodeState_simulates sha256 _).exists_eq hplain
      exact hok
  · obtain ⟨error, herror⟩ := h.errors _ (decodeState_overflow sha256 hsha hover)
    cases herror
  · exact (decodeState_simulates sha256 bytes).meets h fun _ _ h => h.2

end File

/-- A snapshot up to the highest index, and one entry more. -/
def fullFields : Bytes :=
  encode 8 1 ++ (0 :: encode 8 0) ++ encode 8 u64Max ++ encode 8 u64Max ++ encode 8 1 ++
    encode 8 u64Max ++ encode 8 1 ++ encode 4 1 ++ [1] ++ encode 4 1 ++ encode 8 1 ++ encode 8 0 ++
    encode 4 0

/-- Its SHA-256, with the magic in front. -/
def fullDigest : Bytes :=
  [0x17, 0x86, 0xd5, 0xed, 0xf0, 0x20, 0x1b, 0x69, 0x75, 0xcf, 0x76, 0xdf, 0x05, 0x3e,
    0x70, 0xcf, 0x1a, 0x47, 0x8d, 0xfe, 0x56, 0x32, 0xf5, 0xc6, 0x40, 0x70, 0x01, 0xe7,
    0x28, 0xd2, 0x6d, 0xe3]

/-- The file passes every test in front of the entry loop, which then overflows. -/
theorem fullFields_overflow : ¬∀ bytes, Meets Handled Ordered
    (decodeState (fun _ => fullDigest) bytes) := by
  intro h
  have hover : decodeState (fun _ => fullDigest) (stateMagic ++ fullFields ++ fullDigest) =
      .error .overflow := by decide +kernel
  obtain ⟨error, herror⟩ := (h _).errors _ hover
  cases herror

/-- A vote, a snapshot of four commands and two entries behind it, one of them committed. -/
def keptState : StableState where
  currentTerm := 3
  votedFor := some 2
  log := [⟨3, 5, [0x61]⟩, ⟨3, 6, [0x62, 0x63]⟩]
  commitIndex := 5
  lastApplied := 4
  bootCounter := 1
  snapshot := some ⟨4, 2, [0x7b, 0x7d]⟩

/-- What is written for it in front of the digest. -/
def keptBody : Bytes :=
  stateMagic ++ encode 8 3 ++ (1 :: encode 8 2) ++ encode 8 5 ++ encode 8 4 ++ encode 8 1 ++
    encode 8 4 ++ encode 8 2 ++ encode 4 2 ++ [0x7b, 0x7d] ++ encode 4 2 ++ encode 8 3 ++
    encode 8 5 ++ encode 4 1 ++ [0x61] ++ encode 8 3 ++ encode 8 6 ++ encode 4 2 ++ [0x62, 0x63]

/-- The SHA-256 of `keptBody`. -/
def keptDigest : Bytes :=
  [0xa3, 0x2e, 0x9c, 0xc1, 0x76, 0x20, 0x0d, 0xb7, 0x07, 0x0d, 0xdb, 0xb3, 0x98, 0xc5,
    0x67, 0x27, 0xd9, 0xa7, 0x93, 0x27, 0x12, 0x2f, 0x7d, 0x06, 0xdd, 0x6e, 0x87, 0xb1,
    0x39, 0x4b, 0xfa, 0xbc]

theorem state_codec_exact_kept :
    (keptState.Fits ∧ encodeState (fun _ => keptDigest) keptState = .ok (keptBody ++ keptDigest)) ∧
    decodeState (fun _ => keptDigest) (keptBody ++ keptDigest) = .ok keptState := by
  have hfits : keptState.Fits := by
    refine ⟨by decide, fun id hid => ?_, by decide, by decide +kernel, fun sn hsn => ?_⟩
    · obtain rfl := Option.some.inj hid
      decide
    · obtain rfl := Option.some.inj hsn
      exact ⟨by decide, by decide⟩
  have hencode : encodeState (fun _ => keptDigest) keptState = .ok (keptBody ++ keptDigest) := by
    decide +kernel
  exact ⟨⟨hfits, hencode⟩,
    (state_codec_exact (fun _ => keptDigest) fun _ => rfl).1 keptState _ hfits hencode⟩

end OnetDns.Raft.StateFile
