import OnetDns.Lib.BigEndian

/-!
# Admission of encrypted connections

`connection_limit.rs`: the bytes of a connection are collected until its first frame is there, a
ClientHello over any number of TLS records or a DNSCrypt query behind its length. What was collected
is read again before what the connection brings next.
-/
namespace OnetDns.Admission
open List
open BigEndian (decode encode decode_encode)

abbrev Bytes := List UInt8

def tlsRecordHeaderBytes : ℕ := 5
def maxTlsPlaintextRecordBytes : ℕ := 16 * 1024
def maxTlsClientHelloPrefixBytes : ℕ := 64 * 1024
def maxDnscryptTcpQueryBytes : ℕ := 8192
def minPrefixPoll : ℕ := 10
def maxPrefixPoll : ℕ := 250

inductive AdmissionProtocol
  | tls
  | dnscrypt

inductive AdmissionState
  | pending
  | ready

inductive IoError
  | invalidData (message : String)
  | timedOut
  | unexpectedEof
  | socket

def invalidAdmission {α : Type} (message : String) : Except IoError α :=
  .error (.invalidData message)

/-- What the loop over the records keeps: the first four bytes of the handshake message, the number
of its bytes, and its length once that is known. -/
structure Handshake where
  header : Bytes
  bytes : ℕ
  total : Option ℕ

def Handshake.start : Handshake := ⟨[], 0, none⟩

def Handshake.take (h : Handshake) (payload : Bytes) : Except IoError Handshake :=
  let header := if h.bytes < 4 then h.header ++ payload.take (4 - h.bytes) else h.header
  let bytes := h.bytes + payload.length
  if h.total = none ∧ 4 ≤ bytes then
    if header.head? ≠ some 1 then
      invalidAdmission "첫 TLS handshake는 ClientHello여야 합니다"
    else
      let total := 4 + decode (header.drop 1)
      if maxTlsClientHelloPrefixBytes < total + tlsRecordHeaderBytes then
        invalidAdmission "TLS ClientHello 길이가 64 KiB를 넘습니다"
      else .ok ⟨header, bytes, some total⟩
  else .ok ⟨header, bytes, h.total⟩

/-- The loop over the records. -/
def scanRecords (h : Handshake) : Bytes → Except IoError AdmissionState
  | kind :: major :: _ :: high :: low :: rest =>
    if kind ≠ 22 ∨ major ≠ 3 then
      invalidAdmission "첫 TLS 메시지는 handshake record여야 합니다"
    else if decode [high, low] = 0 ∨ maxTlsPlaintextRecordBytes < decode [high, low] then
      invalidAdmission "TLS record 길이가 허용 범위를 벗어납니다"
    else if rest.length < decode [high, low] then .ok .pending
    else
      match h.take (rest.take (decode [high, low])) with
      | .error e => .error e
      | .ok h =>
        if h.total.any (· ≤ h.bytes) then .ok .ready
        else scanRecords h (rest.drop (decode [high, low]))
  | _ => .ok .pending
termination_by bytes => bytes.length

def tlsClientHelloPrefixState (held : Bytes) : Except IoError AdmissionState :=
  if maxTlsClientHelloPrefixBytes < held.length then
    invalidAdmission "TLS ClientHello prefix가 64 KiB를 넘습니다"
  else scanRecords .start held

def dnscryptPrefixState : Bytes → Except IoError AdmissionState
  | high :: low :: rest =>
    if decode [high, low] = 0 ∨ maxDnscryptTcpQueryBytes < decode [high, low] then
      invalidAdmission "DNSCrypt TCP frame 길이가 허용 범위를 벗어납니다"
    else if decode [high, low] ≤ rest.length then .ok .ready
    else .ok .pending
  | _ => .ok .pending

def encryptedPrefixState (held : Bytes) : AdmissionProtocol → Except IoError AdmissionState
  | .tls => tlsClientHelloPrefixState held
  | .dnscrypt => dnscryptPrefixState held

/-- A connection that waits for its first frame: what its peer has still to send, what was read of
it, and the times. -/
structure PendingEncryptedConnection where
  stream : Bytes
  held : Bytes
  protocol : AdmissionProtocol
  deadline : ℕ
  nextPoll : ℕ
  pollInterval : ℕ

/-- `with_deadline`. -/
def PendingEncryptedConnection.new (stream : Bytes) (protocol : AdmissionProtocol)
    (deadline now : ℕ) : PendingEncryptedConnection :=
  ⟨stream, [], protocol, deadline, now, minPrefixPoll⟩

/-- What a read of the socket does. It brings at least one byte, unless the peer has closed. -/
inductive Outcome
  | data (count : ℕ)
  | interrupted
  | failed

namespace PendingEncryptedConnection

def limit (c : PendingEncryptedConnection) : ℕ :=
  match c.protocol with
  | .tls => maxTlsClientHelloPrefixBytes
  | .dnscrypt => maxDnscryptTcpQueryBytes + 2

/-- The loop of `poll`. After the given reads the next one would block. -/
def collect (c : PendingEncryptedConnection) (later : ℕ) (outcomes : List Outcome) :
    Except IoError AdmissionState × PendingEncryptedConnection :=
  let remaining := c.limit - c.held.length
  if remaining = 0 then
    (invalidAdmission "암호화 TCP prefix 상한 안에 frame이 끝나지 않습니다", c)
  else
    match outcomes with
    | [] =>
      (.ok .pending,
        { c with
          nextPoll := later + c.pollInterval
          pollInterval := min (c.pollInterval * 2) maxPrefixPoll })
    | .interrupted :: outcomes => collect c later outcomes
    | .failed :: _ => (.error .socket, c)
    | .data count :: outcomes =>
      let read := min (count + 1) (min remaining 2048)
      if c.stream = [] then (.error .unexpectedEof, c)
      else
        let c := { c with
          stream := c.stream.drop read
          held := c.held ++ c.stream.take read
          pollInterval := minPrefixPoll }
        match encryptedPrefixState c.held c.protocol with
        | .error e => (.error e, c)
        | .ok .ready => (.ok .ready, c)
        | .ok .pending => collect c later outcomes

def poll (c : PendingEncryptedConnection) (now later : ℕ) (outcomes : List Outcome) :
    Except IoError AdmissionState × PendingEncryptedConnection :=
  if c.deadline ≤ now then (.error .timedOut, c)
  else
    match encryptedPrefixState c.held c.protocol with
    | .error e => (.error e, c)
    | .ok .ready => (.ok .ready, c)
    | .ok .pending => if now < c.nextPoll then (.ok .pending, c) else c.collect later outcomes

end PendingEncryptedConnection

structure PrefixedTcp where
  stream : Bytes
  held : Bytes
  offset : ℕ

/-- `into_ready`. -/
def PendingEncryptedConnection.intoReady (c : PendingEncryptedConnection) : PrefixedTcp :=
  ⟨c.stream, c.held, 0⟩

/-- `Read for PrefixedTcp`, into `room` bytes; the socket would bring `count + 1`. -/
def PrefixedTcp.read (t : PrefixedTcp) (room count : ℕ) : Bytes × PrefixedTcp :=
  if t.offset < t.held.length then
    let available := t.held.drop t.offset
    let count := min available.length room
    (available.take count, { t with offset := t.offset + count })
  else
    (t.stream.take (min (count + 1) room),
      { t with stream := t.stream.drop (min (count + 1) room) })

variable {held tail : Bytes} {h : Handshake}

lemma scanRecords_append (hverdict : scanRecords h held ≠ .ok .pending) (tail : Bytes) :
    scanRecords h (held ++ tail) = scanRecords h held := by
  fun_induction scanRecords h held with
  | case1 h kind major minor high low rest hkind =>
    simp only [cons_append]
    rw [scanRecords, if_pos hkind]
  | case2 h kind major minor high low rest hkind hlen =>
    simp only [cons_append]
    rw [scanRecords, if_neg hkind, if_pos hlen]
  | case3 => exact absurd rfl hverdict
  | case4 h kind major minor high low rest hkind hlen hrest e htake =>
    simp only [cons_append]
    rw [scanRecords, if_neg hkind, if_neg hlen, if_neg (by simp; omega),
      take_append_of_le_length (Nat.le_of_not_lt hrest), htake]
  | case5 h kind major minor high low rest hkind hlen hrest h' htake hall =>
    simp only [cons_append]
    rw [scanRecords, if_neg hkind, if_neg hlen, if_neg (by simp; omega),
      take_append_of_le_length (Nat.le_of_not_lt hrest), htake]
    exact if_pos hall
  | case6 h kind major minor high low rest hkind hlen hrest h' htake hall ih =>
    simp only [cons_append]
    rw [scanRecords, if_neg hkind, if_neg hlen, if_neg (by simp; omega),
      take_append_of_le_length (Nat.le_of_not_lt hrest), htake,
      drop_append_of_le_length (Nat.le_of_not_lt hrest), ← ih hverdict]
    exact if_neg hall
  | case7 => exact absurd rfl hverdict

lemma dnscryptPrefixState_append (hverdict : dnscryptPrefixState held ≠ .ok .pending)
    (tail : Bytes) : dnscryptPrefixState (held ++ tail) = dnscryptPrefixState held := by
  fun_cases dnscryptPrefixState held with
  | case1 high low rest hlen => exact if_pos hlen
  | case2 high low rest hlen hrest =>
    have hlong : decode [high, low] ≤ (rest ++ tail).length := by
      rw [length_append]
      omega
    exact (if_neg hlen).trans (if_pos hlong)
  | case3 high low rest hlen hrest => exact absurd ((if_neg hlen).trans (if_neg hrest)) hverdict
  | case4 held hshort => exact absurd (dnscryptPrefixState.eq_2 held hshort) hverdict

/-- A TLS record of a handshake. -/
structure Record where
  minor : UInt8
  payload : Bytes
  ne : payload ≠ []
  le : payload.length ≤ maxTlsPlaintextRecordBytes

def Record.wire (r : Record) : Bytes :=
  22 :: 3 :: r.minor :: (encode 2 r.payload.length ++ r.payload)

/-- A ClientHello that is not too long, without its header. -/
structure ClientHello where
  body : Bytes
  le : 4 + body.length + tlsRecordHeaderBytes ≤ maxTlsClientHelloPrefixBytes

def ClientHello.bytes (hello : ClientHello) : Bytes :=
  1 :: (encode 3 hello.body.length ++ hello.body)

/-- The end of the record that holds the `n`th byte of the payloads. -/
def endOf : ℕ → List Record → ℕ
  | _, [] => 0
  | n, r :: rs =>
    r.wire.length + if n ≤ r.payload.length then 0 else endOf (n - r.payload.length) rs

def Handshake.after (hello : ClientHello) (seen : Bytes) : Handshake :=
  ⟨seen.take 4, seen.length, if 4 ≤ seen.length then some hello.bytes.length else none⟩

variable {hello : ClientHello} {seen payload : Bytes}

lemma ClientHello.take_four (hseen : hello.bytes <+: seen) :
    seen.take 4 = 1 :: encode 3 hello.body.length := by
  obtain ⟨more, rfl⟩ := hseen
  simp [bytes]

lemma ClientHello.length_bytes (hello : ClientHello) :
    hello.bytes.length = 4 + hello.body.length := by
  simp [bytes]
  omega

/-- A payload that goes on with the ClientHello. -/
theorem Handshake.take_after {more : Bytes} (hholds : hello.bytes <+: seen ++ (payload ++ more)) :
    (after hello seen).take payload = .ok (after hello (seen ++ payload)) := by
  have hheader : (if seen.length < 4 then seen.take 4 ++ payload.take (4 - seen.length)
      else seen.take 4) = (seen ++ payload).take 4 := by
    rw [take_append]
    split
    · rfl
    · rw [Nat.sub_eq_zero_of_le (by omega), take_zero, append_nil]
  rw [take, after, after, hheader, length_append]
  by_cases hfour : 4 ≤ seen.length
  · simp only [hfour, if_true, reduceCtorEq, false_and, if_false]
    rw [if_pos (by omega)]
  simp only [hfour, if_false, true_and]
  by_cases hnow : 4 ≤ seen.length + payload.length
  · have hlong : 4 ≤ (seen ++ payload).length := by rwa [length_append]
    have hfront : (seen ++ payload).take 4 = 1 :: encode 3 hello.body.length := by
      rw [← hello.take_four hholds, ← append_assoc, take_append_of_le_length hlong]
    have hbody := hello.le
    have hsize : hello.body.length < 256 ^ 3 := by
      unfold maxTlsClientHelloPrefixBytes at hbody
      omega
    rw [if_pos hnow, if_pos hnow, hfront, head?_cons, if_neg (by simp), drop_one, tail_cons,
      decode_encode hsize, if_neg (not_lt.mpr hbody), hello.length_bytes]
  · rw [if_neg hnow, if_neg hnow]

lemma Record.wire_eq (r : Record) : ∃ high low,
    r.wire = 22 :: 3 :: r.minor :: high :: low :: r.payload ∧
      decode [high, low] = r.payload.length := by
  obtain ⟨high, low, hlen⟩ := length_eq_two.mp (BigEndian.encode_length 2 r.payload.length)
  have hsize := r.le
  unfold maxTlsPlaintextRecordBytes at hsize
  refine ⟨high, low, by rw [wire, hlen]; rfl, ?_⟩
  rw [← hlen, decode_encode (by omega)]

/-- The loop on a record and what follows, whole or not. -/
theorem scanRecords_record (h : Handshake) (r : Record) {high low : UInt8} (rest : Bytes)
    (hlen : decode [high, low] = r.payload.length) :
    scanRecords h (22 :: 3 :: r.minor :: high :: low :: rest) =
      if rest.length < r.payload.length then .ok .pending
      else match h.take (rest.take r.payload.length) with
        | .error e => .error e
        | .ok h =>
          if h.total.any (· ≤ h.bytes) then .ok .ready
          else scanRecords h (rest.drop r.payload.length) := by
  have hpos := length_pos_iff.mpr r.ne
  rw [scanRecords, hlen, if_neg (by decide), if_neg (by have := r.le; omega)]

lemma scanRecords_wire (h : Handshake) (r : Record) (rest : Bytes) :
    scanRecords h (r.wire ++ rest) = match h.take r.payload with
      | .error e => .error e
      | .ok h => if h.total.any (· ≤ h.bytes) then .ok .ready else scanRecords h rest := by
  obtain ⟨high, low, hwire, hlen⟩ := r.wire_eq
  have hall : ¬ (r.payload ++ rest).length < r.payload.length := by
    rw [length_append]
    omega
  rw [hwire]
  simp only [cons_append]
  rw [scanRecords_record h r _ hlen, if_neg hall, take_left, drop_left]

lemma scanRecords_part (h : Handshake) (r : Record) {k : ℕ} (hk : k < r.wire.length) :
    scanRecords h (r.wire.take k) = .ok .pending := by
  obtain ⟨high, low, hwire, hlen⟩ := r.wire_eq
  rw [hwire] at hk ⊢
  by_cases hshort : k < 5
  · interval_cases k <;> simp [scanRecords]
  obtain ⟨m, rfl⟩ := Nat.exists_eq_add_of_le' (Nat.le_of_not_lt hshort)
  simp only [take_succ_cons]
  rw [scanRecords_record h r _ hlen, if_pos]
  simp only [length_cons, length_take] at hk ⊢
  omega

/-- The loop on the first bytes of a stream of records, within a ClientHello. -/
theorem scanRecords_hello {records : List Record} (hlt : seen.length < hello.bytes.length)
    (hholds : hello.bytes <+: seen ++ records.flatMap (·.payload)) (rest : Bytes) (k : ℕ) :
    scanRecords (.after hello seen) ((records.flatMap (·.wire) ++ rest).take k) =
      .ok (if endOf (hello.bytes.length - seen.length) records ≤ k then .ready else .pending) := by
  induction records generalizing seen k with
  | nil =>
    rw [flatMap_nil, append_nil] at hholds
    exact absurd hholds.length_le (not_le.mpr hlt)
  | cons r rs ih =>
    rw [flatMap_cons] at hholds
    rw [flatMap_cons, append_assoc, endOf]
    by_cases hk : k < r.wire.length
    · rw [take_append_of_le_length hk.le, scanRecords_part _ r hk, if_neg (by omega)]
    rw [take_append, take_of_length_le (Nat.le_of_not_lt hk), scanRecords_wire,
      Handshake.take_after hholds]
    have hdone : ((Handshake.after hello (seen ++ r.payload)).total.any
        (· ≤ (Handshake.after hello (seen ++ r.payload)).bytes) = true) ↔
          hello.bytes.length - seen.length ≤ r.payload.length := by
      have := hello.length_bytes
      simp only [Handshake.after, length_append]
      split
      · simp only [Option.any_some, decide_eq_true_eq]
        omega
      · simp only [Option.any_none, Bool.false_eq_true, false_iff]
        omega
    dsimp only
    by_cases hend : hello.bytes.length - seen.length ≤ r.payload.length
    · rw [if_pos (hdone.mpr hend), if_pos hend, if_pos (by omega)]
    · rw [if_neg (fun hall => hend (hdone.mp hall)), if_neg hend,
        ih (by rw [length_append]; omega) (by rwa [append_assoc])]
      have hleft : hello.bytes.length - (seen ++ r.payload).length =
          hello.bytes.length - seen.length - r.payload.length := by
        rw [length_append]
        omega
      rw [hleft]
      congr 2
      rw [eq_iff_iff]
      omega

variable {protocol : AdmissionProtocol}

lemma ready_append (hready : encryptedPrefixState held protocol = .ok .ready)
    (hfit : (held ++ tail).length ≤ maxTlsClientHelloPrefixBytes) :
    encryptedPrefixState (held ++ tail) protocol = .ok .ready := by
  cases protocol with
  | tls =>
    have hshort : held.length ≤ (held ++ tail).length := (prefix_append held tail).length_le
    have hscan : scanRecords .start held = .ok .ready := by
      rwa [encryptedPrefixState, tlsClientHelloPrefixState,
        if_neg (not_lt.mpr (hshort.trans hfit))] at hready
    rw [encryptedPrefixState, tlsClientHelloPrefixState, if_neg (not_lt.mpr hfit),
      scanRecords_append (by rw [hscan]; simp), hscan]
  | dnscrypt =>
    rw [encryptedPrefixState] at hready ⊢
    rw [dnscryptPrefixState_append (by rw [hready]; simp), hready]

lemma error_append {e : IoError} (herror : encryptedPrefixState held protocol = .error e) :
    ∃ e, encryptedPrefixState (held ++ tail) protocol = .error e := by
  cases protocol with
  | tls =>
    rw [encryptedPrefixState, tlsClientHelloPrefixState] at herror ⊢
    by_cases hlong : maxTlsClientHelloPrefixBytes < (held ++ tail).length
    · exact ⟨_, if_pos hlong⟩
    have hshort : held.length ≤ (held ++ tail).length := (prefix_append held tail).length_le
    rw [if_neg (by omega)] at herror
    rw [if_neg hlong, scanRecords_append (by rw [herror]; simp), herror]
    exact ⟨e, rfl⟩
  | dnscrypt =>
    rw [encryptedPrefixState] at herror ⊢
    rw [dnscryptPrefixState_append (by rw [herror]; simp), herror]
    exact ⟨e, rfl⟩

namespace PendingEncryptedConnection

variable (c : PendingEncryptedConnection)

lemma collect_bytes (later : ℕ) (outcomes : List Outcome) :
    (c.collect later outcomes).2.held ++ (c.collect later outcomes).2.stream =
      c.held ++ c.stream := by
  have hread : ∀ (held stream : Bytes) (n : ℕ),
      held ++ stream.take n ++ stream.drop n = held ++ stream := by
    intro held stream n
    rw [append_assoc, take_append_drop]
  fun_induction collect c later outcomes with
  | case1 | case2 | case4 | case5 => rfl
  | case3 _ _ _ _ ih => exact ih
  | case6 | case7 => exact hread _ _ _
  | case8 _ _ _ _ _ _ _ _ _ ih => exact ih.trans (hread _ _ _)

lemma poll_bytes (now later : ℕ) (outcomes : List Outcome) :
    (c.poll now later outcomes).2.held ++ (c.poll now later outcomes).2.stream =
      c.held ++ c.stream := by
  unfold poll
  split
  · rfl
  split
  · rfl
  · rfl
  split
  · rfl
  · exact c.collect_bytes later outcomes

lemma collect_answer {answer : AdmissionState} (later : ℕ) (outcomes : List Outcome)
    (hpending : encryptedPrefixState c.held c.protocol = .ok .pending)
    (h : (c.collect later outcomes).1 = .ok answer) :
    encryptedPrefixState (c.collect later outcomes).2.held c.protocol = .ok answer := by
  fun_induction collect c later outcomes with
  | case1 | case4 | case5 | case6 => cases h
  | case2 =>
    cases h
    exact hpending
  | case3 _ _ _ _ ih => exact ih hpending h
  | case7 _ _ _ _ _ _ _ _ hready =>
    cases h
    exact hready
  | case8 _ _ _ _ _ _ _ _ hstate ih => exact ih hstate h

/-- What `poll` answers is the state of the bytes that it leaves. -/
theorem poll_answer {answer : AdmissionState} (now later : ℕ) (outcomes : List Outcome)
    (h : (c.poll now later outcomes).1 = .ok answer) :
    encryptedPrefixState (c.poll now later outcomes).2.held c.protocol = .ok answer := by
  unfold poll at h ⊢
  split at h
  · cases h
  rename_i hdeadline
  rw [if_neg hdeadline]
  split at h
  · cases h
  · cases h
    assumption
  rename_i hpending
  split at h
  · rename_i hearly
    cases h
    rwa [if_pos hearly]
  · rename_i hlate
    rw [if_neg hlate]
    exact c.collect_answer later outcomes hpending h

/-- One call of `poll`. -/
structure Call where
  now : ℕ
  later : ℕ
  outcomes : List Outcome

def polls (calls : List Call) : PendingEncryptedConnection :=
  calls.foldl (fun c call => (c.poll call.now call.later call.outcomes).2) c

lemma polls_bytes (calls : List Call) :
    (c.polls calls).held ++ (c.polls calls).stream = c.held ++ c.stream := by
  induction calls generalizing c with
  | nil => rfl
  | cons call calls ih => exact (ih _).trans (c.poll_bytes _ _ _)

end PendingEncryptedConnection

namespace PrefixedTcp

variable (t : PrefixedTcp) (room count : ℕ)

/-- What is still to be read. -/
def left : Bytes := t.held.drop t.offset ++ t.stream

lemma read_left : (t.read room count).1 ++ (t.read room count).2.left = t.left := by
  unfold read
  split
  · rw [left, left, ← append_assoc, ← drop_drop, take_append_drop]
  · rename_i hdone
    have hheld : t.held.drop t.offset = [] := drop_of_length_le (Nat.le_of_not_lt hdone)
    simp only [left, hheld, nil_append, take_append_drop]

lemma left_of_read_nil (hroom : 0 < room) (hnil : (t.read room count).1 = []) : t.left = [] := by
  unfold read at hnil
  split at hnil
  · rename_i hheld
    simp only [take_eq_nil_iff, length_drop, drop_eq_nil_iff] at hnil
    omega
  · rename_i hdone
    have hstream := (take_eq_nil_iff.mp hnil).resolve_left (by omega)
    rw [left, drop_of_length_le (Nat.le_of_not_lt hdone), hstream, append_nil]

/-- Reads into rooms of the given sizes. -/
def reads (t : PrefixedTcp) : List (ℕ × ℕ) → Bytes × PrefixedTcp
  | [] => ([], t)
  | (room, count) :: sizes =>
    let (bytes, t) := t.read room count
    let (more, t) := t.reads sizes
    (bytes ++ more, t)

lemma reads_left (sizes : List (ℕ × ℕ)) : (t.reads sizes).1 ++ (t.reads sizes).2.left = t.left := by
  induction sizes generalizing t with
  | nil => rfl
  | cons size sizes ih => rw [reads, append_assoc, ih, read_left]

end PrefixedTcp

/-- The state of what was collected never goes back on a verdict, it is ready from the end of the
record that holds the last byte of the ClientHello on, it is what `poll` answers, and the bytes
that were collected and those that follow are read once and in order. -/
theorem admission_exact :
    (∀ protocol held tail, encryptedPrefixState held protocol = .ok .ready →
      (held ++ tail).length ≤ maxTlsClientHelloPrefixBytes →
        encryptedPrefixState (held ++ tail) protocol = .ok .ready) ∧
    (∀ protocol held tail e, encryptedPrefixState held protocol = .error e →
      ∃ e, encryptedPrefixState (held ++ tail) protocol = .error e) ∧
    (∀ (hello : ClientHello) (records : List Record) rest k,
      hello.bytes <+: records.flatMap (·.payload) → k ≤ maxTlsClientHelloPrefixBytes →
        encryptedPrefixState ((records.flatMap (·.wire) ++ rest).take k) .tls =
          .ok (if endOf hello.bytes.length records ≤ k then .ready else .pending)) ∧
    (∀ (c : PendingEncryptedConnection) now later outcomes answer,
      (c.poll now later outcomes).1 = .ok answer →
        encryptedPrefixState (c.poll now later outcomes).2.held c.protocol = .ok answer) ∧
    ∀ stream protocol deadline now calls sizes,
      let t := ((PendingEncryptedConnection.new stream protocol deadline now).polls calls).intoReady
      (t.reads sizes).1 ++ (t.reads sizes).2.left = stream ∧
        ∀ room count, 0 < room → ((t.reads sizes).2.read room count).1 = [] →
          (t.reads sizes).1 = stream := by
  refine ⟨fun _ _ _ => ready_append, fun _ _ _ _ => error_append, ?_,
    fun c now later outcomes _ => c.poll_answer now later outcomes, ?_⟩
  · intro hello records rest k hholds hk
    have hlong : ¬ maxTlsClientHelloPrefixBytes <
        ((records.flatMap (·.wire) ++ rest).take k).length := by
      rw [length_take]
      omega
    rw [encryptedPrefixState, tlsClientHelloPrefixState, if_neg hlong]
    exact @scanRecords_hello hello [] records (by rw [hello.length_bytes, length_nil]; omega)
      hholds rest k
  · intro stream protocol deadline now calls sizes t
    have hstream : t.left = stream :=
      (PendingEncryptedConnection.new stream protocol deadline now).polls_bytes calls
    have hleft := (t.reads_left sizes).trans hstream
    refine ⟨hleft, fun room count hroom hnil => ?_⟩
    rwa [(t.reads sizes).2.left_of_read_nil room count hroom hnil, append_nil] at hleft

def splitHello : ClientHello := ⟨[7, 7, 7], by decide⟩

/-- A ClientHello in two records, the first of which holds a part of the header only. -/
def splitRecords : List Record :=
  [⟨1, [1, 0], by decide, by decide⟩, ⟨3, [0, 3, 7, 7, 7, 9], by decide, by decide⟩]

theorem admission_exact_split :
    encryptedPrefixState ((splitRecords.flatMap (·.wire)).take 17) .tls = .ok .pending ∧
      encryptedPrefixState (splitRecords.flatMap (·.wire)) .tls = .ok .ready := by
  have hsplit := admission_exact.2.2.1 splitHello splitRecords []
  exact ⟨hsplit 17 (by decide) (by decide), hsplit 18 (by decide) (by decide)⟩

end OnetDns.Admission
