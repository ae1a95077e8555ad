import Mathlib.Data.List.AList
import Mathlib.Tactic

/-!
# Data model of QUIC streams

The frames, limits and stream numbers of `onetdns-quic`. A `u64` or `usize` is a
natural number; a stream number keeps its kind in its two low bits, so that `id % 2`
is who opened the stream and `id / 2 % 2` its direction. A `HashMap<u64, V>` is an
association list.
-/
namespace OnetDns.Quic

abbrev Bytes := List UInt8
abbrev Map (V : Type) := AList fun _ : ℕ => V

def u64Max : ℕ := 2 ^ 64 - 1
def maxStreamReassembly : ℕ := 2 ^ 18
def maxConnectionReassembly : ℕ := 2 ^ 20
def maxConnectionSendBuffer : ℕ := 2 ^ 20
def maxPendingSendOps : ℕ := 512
def maxPendingFragments : ℕ := 256
def maxStreamsHard : ℕ := 256
def maxFlowControl : ℕ := 2 ^ 60
def streamFrameChunk : ℕ := 900

inductive QuicError where
  | tls
  | frame
  | flowControl
  | streamLimit
  | closed
  deriving DecidableEq

inductive Role where
  | server
  | client
  deriving DecidableEq

/-- The transport parameters that limit streams. -/
structure TransportParams where
  initialMaxData : ℕ
  initialMaxStreamDataBidiLocal : ℕ
  initialMaxStreamDataBidiRemote : ℕ
  initialMaxStreamDataUni : ℕ
  initialMaxStreamsBidi : ℕ
  initialMaxStreamsUni : ℕ

def normalizeLocalTransportParams (tp : TransportParams) : TransportParams where
  initialMaxData := min tp.initialMaxData maxConnectionReassembly
  initialMaxStreamDataBidiLocal := min (max tp.initialMaxStreamDataBidiLocal 1) maxStreamReassembly
  initialMaxStreamDataBidiRemote :=
    min (max tp.initialMaxStreamDataBidiRemote 1) maxStreamReassembly
  initialMaxStreamDataUni := min (max tp.initialMaxStreamDataUni 1) maxStreamReassembly
  initialMaxStreamsBidi := min tp.initialMaxStreamsBidi maxStreamsHard
  initialMaxStreamsUni := min tp.initialMaxStreamsUni maxStreamsHard

/-- The frames that a queue for application data can hold. -/
inductive Frame where
  | ping
  | stream (id offset : ℕ) (fin : Bool) (data : Bytes)
  | resetStream (id errorCode finalSize : ℕ)
  | stopSending (id errorCode : ℕ)
  | maxData (max : ℕ)
  | maxStreamData (id max : ℕ)
  | maxStreams (uni : Bool) (max : ℕ)
  | handshakeDone
  | pathChallenge (data : Bytes)
  | pathResponse (data : Bytes)
  deriving DecidableEq

def Frame.isRetransmittable : Frame → Bool
  | .ping => false
  | .pathResponse _ => false
  | _ => true

def Frame.bytes : Frame → ℕ
  | .stream _ _ _ data => data.length
  | _ => 0

def Frame.isStreamOf (id : ℕ) : Frame → Bool
  | .stream other _ _ _ => other == id
  | _ => false

/-- The low bit of the streams that this role opens. -/
def Role.initiator : Role → ℕ
  | .client => 0
  | .server => 1

def Role.peer : Role → Role
  | .client => .server
  | .server => .client

/-- Whether this side opens the stream. -/
def Role.opens (role : Role) (id : ℕ) : Bool := id % 2 == role.initiator

def isUni (id : ℕ) : Bool := id / 2 % 2 == 1

def streamNumber (id : ℕ) : ℕ := id / 4

@[simp] lemma Role.peer_peer (role : Role) : role.peer.peer = role := by cases role <;> rfl

lemma Role.peer_ne (role : Role) : role.peer ≠ role := by cases role <;> decide

lemma Role.eq_or_eq_peer (role x : Role) : x = role ∨ x = role.peer := by
  cases role <;> cases x <;> simp [peer]

/-- Stream numbers from `low` to `high`. -/
structure StreamRange where
  low : ℕ
  high : ℕ
  le : low ≤ high

/-- Ranges of stream numbers for each of the four kinds. -/
structure StreamRanges where
  kinds : Fin 4 → List StreamRange

namespace StreamRanges

def empty : StreamRanges := ⟨fun _ => []⟩

def kind (id : ℕ) : Fin 4 := ⟨id % 4, Nat.mod_lt _ (by decide)⟩

/-- `stream_range_contains`. -/
def contains (ranges : StreamRanges) (id : ℕ) : Bool :=
  (ranges.kinds (kind id)).any fun range =>
    range.low ≤ streamNumber id && streamNumber id ≤ range.high

/-- The loop of `mark_stream_range`: ranges that touch the new one become part of it. -/
def insertRange : List StreamRange → StreamRange → List StreamRange
  | [], new => [new]
  | range :: rest, new =>
    if range.high + 1 < new.low then range :: insertRange rest new
    else if new.high + 1 < range.low then new :: range :: rest
    else
      insertRange rest ⟨min new.low range.low, max new.high range.high,
        le_trans (min_le_left _ _) (le_trans new.le (le_max_left _ _))⟩

/-- `mark_stream_range`. -/
def mark (ranges : StreamRanges) (id : ℕ) : StreamRanges :=
  ⟨Function.update ranges.kinds (kind id)
    (insertRange (ranges.kinds (kind id)) ⟨streamNumber id, streamNumber id, le_rfl⟩)⟩

lemma mem_insertRange (ranges : List StreamRange) (new : StreamRange) (n : ℕ) :
    (∃ range ∈ insertRange ranges new, range.low ≤ n ∧ n ≤ range.high) ↔
      (∃ range ∈ ranges, range.low ≤ n ∧ n ≤ range.high) ∨ (new.low ≤ n ∧ n ≤ new.high) := by
  induction ranges generalizing new with
  | nil => simp [insertRange]
  | cons range rest ih =>
    rw [insertRange]
    split
    · simp only [List.exists_mem_cons_iff, ih new, or_assoc]
    split
    · simp only [List.exists_mem_cons_iff]
      exact or_comm
    rw [ih]
    simp only [List.exists_mem_cons_iff]
    have hunion : (min new.low range.low ≤ n ∧ n ≤ max new.high range.high) ↔
        (range.low ≤ n ∧ n ≤ range.high) ∨ (new.low ≤ n ∧ n ≤ new.high) := by
      omega
    rw [hunion, or_left_comm, or_assoc]

variable (ranges : StreamRanges)

lemma contains_iff (id : ℕ) : ranges.contains id = true ↔ ∃ range ∈ ranges.kinds (kind id),
      range.low ≤ streamNumber id ∧ streamNumber id ≤ range.high := by
  simp [contains]

lemma contains_mark_iff (id other : ℕ) :
    (ranges.mark id).contains other = true ↔ ranges.contains other = true ∨ other = id := by
  rw [contains_iff, contains_iff, mark]
  by_cases hkind : kind other = kind id
  · simp only [hkind, Function.update_self]
    rw [mem_insertRange]
    have hmod : other % 4 = id % 4 := by simpa [kind] using hkind
    have hsame : (streamNumber id ≤ streamNumber other ∧ streamNumber other ≤ streamNumber id) ↔
        other = id := by
      unfold streamNumber
      omega
    rw [hsame]
  · have hne : other ≠ id := fun h => hkind (by rw [h])
    simp only [Function.update_of_ne hkind, hne, or_false]

@[simp] lemma contains_mark (id other : ℕ) :
    (ranges.mark id).contains other = (ranges.contains other || decide (other = id)) := by
  rw [Bool.eq_iff_iff, contains_mark_iff, Bool.or_eq_true, decide_eq_true_eq]

end StreamRanges

end OnetDns.Quic
