import OnetDns.Quic.Receive
import OnetDns.Quic.Slices

/-!
# Delivery of streams

The receiving half of a connection, without its accounts: how far each stream has got,
whether its end is known, and the events that wait to be read. Fed with slices of what was
sent, a stream makes available its bytes in order, and tells its end with the last of them.
-/
namespace OnetDns.Quic
open List Option Function AList

namespace IsSlice

variable {whole data : Bytes} {offset : ℕ}

lemma agrees (h : IsSlice whole offset data) :
    Reasm.Agrees (fun i => whole[i]?.getD 0) ⟨offset, data⟩ := by
  intro i b hb
  simp [h.getElem? hb]

lemma of_agrees (hle : offset + data.length ≤ whole.length)
    (h : Reasm.Agrees (fun i => whole[i]?.getD 0) ⟨offset, data⟩) : IsSlice whole offset data := by
  have hpiece : (whole.drop offset).take data.length = data := by
    apply ext_getElem
    · rw [length_take, length_drop]
      omega
    intro i _ hi
    have hb := h i data[i] (getElem?_eq_getElem hi)
    simp only [getElem?_eq_getElem (show offset + i < whole.length by omega), getD_some] at hb
    rw [getElem_take, getElem_drop, hb]
  refine ⟨whole.take offset, (whole.drop offset).drop data.length, ?_, ?_⟩
  · calc whole = whole.take offset ++ whole.drop offset := (take_append_drop _ _).symm
      _ = whole.take offset ++ ((whole.drop offset).take data.length ++
          (whole.drop offset).drop data.length) := by rw [take_append_drop data.length]
      _ = _ := by rw [hpiece]
  · rw [length_take]
    omega

lemma take_append (h : IsSlice whole offset data) :
    whole.take (offset + data.length) = whole.take offset ++ data := by
  obtain ⟨before, after, rfl, rfl⟩ := h
  rw [take_left, ← append_assoc, ← length_append, take_left]

end IsSlice

namespace Reasm

lemma push_ok {r r' : Reasm} (h : r.Wf) {offset limit : ℕ} {data out : Bytes}
    (hpush : r.push offset data limit = .ok (out, r')) :
    (out = [] ∧ r' = r) ∨ r.recvOffset < offset + data.length ∧
      Advanced r ⟨max offset r.recvOffset, data.drop (max offset r.recvOffset - offset)⟩ out r' := by
  unfold push at hpush
  simp only at hpush
  split at hpush
  · cases hpush
  split at hpush
  · cases hpush
    exact .inl ⟨rfl, rfl⟩
  split at hpush
  · cases hpush
  split at hpush
  · cases hpush
  · have hspec := @advance_spec r h
      ⟨max offset r.recvOffset, data.drop (max offset r.recvOffset - offset)⟩ (le_max_right _ _)
    rw [Except.ok.inj hpush] at hspec
    exact .inr ⟨by omega, hspec⟩

/-- A reassembly that has the first bytes of a whole, and pieces of the rest. -/
structure Follows (r : Reasm) (whole : Bytes) : Prop where
  wf : r.Wf
  pending : ∀ f ∈ r.pending, IsSlice whole f.offset f.data
  le : r.recvOffset ≤ whole.length

lemma follows_empty (whole : Bytes) : empty.Follows whole := ⟨wf_empty, nofun, Nat.zero_le _⟩

lemma Follows.extend {r : Reasm} {whole : Bytes} (h : r.Follows whole) (more : Bytes) :
    r.Follows (whole ++ more) where
  wf := h.wf
  pending f hf := (h.pending f hf).extend more
  le := by
    rw [length_append]
    exact h.le.trans (Nat.le_add_right _ _)

/-- A slice of the whole brings the reassembly forward by the bytes that come next. -/
theorem Follows.push {r r' : Reasm} {whole data out : Bytes} (h : r.Follows whole)
    {offset limit : ℕ} (hdata : IsSlice whole offset data)
    (hpush : r.push offset data limit = .ok (out, r')) :
    r'.Follows whole ∧ whole.take r'.recvOffset = whole.take r.recvOffset ++ out ∧
      r.recvOffset ≤ r'.recvOffset := by
  rcases push_ok h.wf hpush with ⟨rfl, rfl⟩ | ⟨hnew, hadvanced⟩
  · exact ⟨h, by rw [append_nil], le_rfl⟩
  set start := max offset r.recvOffset
  have hpiece : IsSlice whole start (data.drop (start - offset)) := by
    have hcut := hdata.cut (start - offset) data.length (by omega)
    rwa [take_of_length_le (by simp), Nat.add_sub_cancel' (le_max_left _ _)] at hcut
  obtain ⟨hle, hwithin⟩ := hadvanced.limit whole.length h.le hpiece.le_length
    fun f hf => (h.pending f hf).le_length
  obtain ⟨hout, hpending⟩ := hadvanced.content _ hpiece.agrees fun f hf => (h.pending f hf).agrees
  have hslice : IsSlice whole r.recvOffset out :=
    .of_agrees (by rw [← hadvanced.recvOffset]; exact hle) hout
  refine ⟨⟨hadvanced.wf, fun f hf => .of_agrees (hwithin f hf) (hpending f hf), hle⟩, ?_, ?_⟩
  · rw [hadvanced.recvOffset, hslice.take_append]
  · rw [hadvanced.recvOffset]
    exact Nat.le_add_right _ _

end Reasm

/-- What a stream has got, without the accounts. -/
structure StreamView where
  asm : Reasm
  finOffset : Option ℕ
  done : Bool
  highestOffset : ℕ

def StreamRecv.view (s : StreamRecv) : StreamView := ⟨s.asm, s.finOffset, s.done, s.highestOffset⟩

namespace StreamView

/-- Whether everything up to the end is there. -/
def complete (v : StreamView) : Bool := v.finOffset == some v.asm.recvOffset

/-- A frame counts before it is looked at. -/
def charged (v : StreamView) (stop : ℕ) : StreamView :=
  { v with highestOffset := max v.highestOffset stop }

/-- A frame that the stream takes, with the bytes that it makes available. -/
structure Takes (v : StreamView) (offset : ℕ) (fin : Bool) (data newly : Bytes)
    (v' : StreamView) : Prop where
  push : ∃ limit, v.asm.push offset data limit = .ok (newly, v'.asm)
  fin : v'.finOffset = if fin then some (offset + data.length) else v.finOffset
  done : v'.done = (v.done || v'.complete)
  highest : v'.highestOffset = max v.highestOffset (offset + data.length)

/-- A stream that has got the first bytes of what was sent, and knows no end but the true one. -/
structure Follows (v : StreamView) (whole : Bytes) (ended : Bool) (got : Bytes) : Prop where
  asm : v.asm.Follows whole
  got : got = whole.take v.asm.recvOffset
  fin : ∀ n, v.finOffset = some n → ended = true ∧ n = whole.length
  done : v.done = v.complete
  highest : v.highestOffset ≤ whole.length

variable {v v' : StreamView} {whole data newly got : Bytes} {ended : Bool}

lemma Follows.complete_iff (h : v.Follows whole ended got) :
    v.complete = true ↔ v.finOffset.isSome = true ∧ v.asm.recvOffset = whole.length := by
  rw [complete, beq_iff_eq]
  constructor
  · intro hfin
    exact ⟨by rw [hfin]; rfl, (h.fin _ hfin).2⟩
  · rintro ⟨hsome, hoffset⟩
    obtain ⟨n, hn⟩ := isSome_iff_exists.mp hsome
    rw [hn, (h.fin n hn).2, hoffset]

lemma Follows.charged (h : v.Follows whole ended got) {stop : ℕ} (hstop : stop ≤ whole.length) :
    (v.charged stop).Follows whole ended got :=
  { h with highest := max_le h.highest hstop }

lemma Follows.takes (h : v.Follows whole ended got) {offset : ℕ} {fin : Bool}
    (hdata : IsSlice whole offset data)
    (hfin : fin = true → ended = true ∧ offset + data.length = whole.length)
    (htakes : v.Takes offset fin data newly v') : v'.Follows whole ended (got ++ newly) := by
  obtain ⟨limit, hpush⟩ := htakes.push
  obtain ⟨hasm, htake, hle⟩ := h.asm.push hdata hpush
  have hend : ∀ n, v'.finOffset = some n → ended = true ∧ n = whole.length := by
    intro n hn
    rw [htakes.fin] at hn
    split at hn
    · rename_i htrue
      rw [← some.inj hn]
      exact hfin htrue
    · exact h.fin n hn
  refine ⟨hasm, by rw [h.got, htake], hend, ?_, htakes.highest ▸ max_le h.highest hdata.le_length⟩
  rw [htakes.done]
  -- a stream that was complete before stays so: there is nothing behind its end
  cases hdone : v.done with
  | false => rfl
  | true =>
    rw [h.done, h.complete_iff] at hdone
    have hlast := hasm.le
    have hoffset : v'.asm.recvOffset = whole.length := by omega
    symm
    rw [Bool.true_or, complete, beq_iff_eq, htakes.fin, hoffset]
    split
    · rename_i htrue
      rw [(hfin htrue).2]
    · obtain ⟨n, hn⟩ := isSome_iff_exists.mp hdone.1
      rw [hn, (h.fin n hn).2]

end StreamView

variable {finNow : Bool}

lemma StreamRecv.accept_ok {s s' : StreamRecv} {offset limit : ℕ} {fin : Bool}
    {data newly : Bytes} {whole : Option Bytes}
    (h : s.accept offset fin data limit = (.ok (newly, finNow, whole), s'))
    (hstop : offset + data.length ≤ s.highestOffset) :
    s.view.Takes offset fin data newly s'.view ∧ finNow = s'.view.complete := by
  unfold accept at h
  split at h
  · cases h
  rename_i out asm hpush
  split at h
  · cases h
  unfold finish at h
  split at h
  · cases h
  rename_i stream hclose
  have hstream : stream.asm = asm ∧ stream.done = s.done ∧ stream.highestOffset = s.highestOffset ∧
      stream.finOffset = if fin then some (offset + data.length) else s.finOffset := by
    cases fin with
    | false =>
      cases hclose
      exact ⟨rfl, rfl, rfl, rfl⟩
    | true =>
      simp only [if_true, close] at hclose
      split at hclose
      · cases hclose
      split at hclose
      · cases hclose
      · cases hclose
        exact ⟨rfl, rfl, rfl, rfl⟩
  obtain ⟨hasm, hdone, hhighest, hfin⟩ := hstream
  simp only at h
  split at h
  · rename_i hnow
    cases h
    rw [Bool.and_eq_true] at hnow
    refine ⟨⟨⟨limit, ?_⟩, hfin, ?_, hhighest.trans (max_eq_left hstop).symm⟩, rfl⟩
    · rw [view, hpush, view, hasm]
    · simp [view, StreamView.complete, hnow.1]
  rename_i hnow
  cases h
  refine ⟨⟨⟨limit, ?_⟩, hfin, ?_, hhighest.trans (max_eq_left hstop).symm⟩, rfl⟩
  · rw [view, hpush, view, hasm]
  simp only [view, StreamView.complete, hdone]
  rw [hdone] at hnow
  cases hend : s.done with
  | true => rfl
  | false =>
    rw [hend] at hnow
    simpa using hnow

/-- How often the end of a stream is told. -/
def Pieces.fins (events : Pieces) (id : ℕ) : ℕ := events.countP fun e => e.1 = id && e.2.2

open Pieces

namespace Pieces

lemma bytes_concat (events more : Pieces) (id : ℕ) :
    Pieces.bytes (events ++ more) id = events.bytes id ++ more.bytes id := by
  rw [bytes, filter_append, flatMap_append]
  rfl

lemma fins_concat (events more : Pieces) (id : ℕ) :
    Pieces.fins (events ++ more) id = events.fins id + more.fins id :=
  countP_append

lemma fins_eq_zero {events : Pieces} {id : ℕ} (h : ∀ e ∈ events, e.1 ≠ id) :
    events.fins id = 0 := by
  rw [fins, countP_eq_zero]
  intro e he
  simp [h e he]

lemma bytes_eq_nil {events : Pieces} {id : ℕ} (h : ∀ e ∈ events, e.1 ≠ id) :
    events.bytes id = [] := by
  have hnone : events.filter (·.1 = id) = [] := by
    rw [filter_eq_nil_iff]
    intro e he
    simp [h e he]
  rw [bytes, hnone]
  rfl

end Pieces

namespace Connection

def view (c : Connection) (id : ℕ) : Option StreamView := (c.streams.lookup id).map StreamRecv.view

/-- The event of a frame that was taken. -/
def eventOf (id : ℕ) (newly : Bytes) (finNow : Bool) : Pieces :=
  if newly.isEmpty && !finNow then [] else [(id, newly, finNow)]

lemma bytes_eventOf (id : ℕ) (newly : Bytes) (finNow : Bool) (other : ℕ) :
    (eventOf id newly finNow).bytes other = if id = other then newly else [] := by
  unfold eventOf
  split
  · rename_i hnone
    rw [Bool.and_eq_true, List.isEmpty_iff] at hnone
    rw [hnone.1, ite_self]
    rfl
  · by_cases h : id = other <;> simp [Pieces.bytes, h]

lemma fins_eventOf (id : ℕ) (newly : Bytes) (finNow : Bool) (other : ℕ) :
    (eventOf id newly finNow).fins other = if id = other ∧ finNow = true then 1 else 0 := by
  unfold eventOf
  split
  · rename_i hnone
    rw [Bool.and_eq_true, Bool.not_eq_true'] at hnone
    simp [Pieces.fins, hnone.2]
  · simp [Pieces.fins]

lemma mem_eventOf {id : ℕ} {newly : Bytes} {e : ℕ × Bytes × Bool}
    (h : e ∈ eventOf id newly finNow) : e = (id, newly, finNow) := by
  unfold eventOf at h
  split at h
  · cases h
  · exact mem_singleton.mp h

variable (c : Connection)

lemma streams_ensureRecvStreamCredit (id limit : ℕ) :
    (c.ensureRecvStreamCredit id limit).streams = c.streams ∧
      (c.ensureRecvStreamCredit id limit).closedRecvRanges = c.closedRecvRanges := by
  unfold ensureRecvStreamCredit
  split
  · exact ⟨rfl, rfl⟩
  · simp only
    split <;> exact ⟨rfl, rfl⟩

/-- What a frame of a stream does that `on_stream` takes. -/
structure Took (c : Connection) (id offset : ℕ) (fin : Bool) (data : Bytes) (c' : Connection) :
    Prop where
  isOpen : c.recvStreamClosed id = false
  closedRecvRanges : c'.closedRecvRanges = c.closedRecvRanges
  taken : ∃ newly v, (c.streamAt id).view.Takes offset fin data newly v ∧
    c'.view = Function.update c.view id (some v) ∧
    c'.readable = c.readable ++ eventOf id newly v.complete

/-- What is left of a frame that `on_stream` refuses: at most it counts. -/
structure Refused (c : Connection) (id stop : ℕ) (c' : Connection) : Prop where
  closedRecvRanges : c'.closedRecvRanges = c.closedRecvRanges
  readable : c'.readable = c.readable
  view : c'.view = c.view ∨
    c.recvStreamClosed id = false ∧
      ∃ n ≤ stop, c'.view = Function.update c.view id (some ((c.streamAt id).view.charged n))

lemma view_insert {c c' : Connection} {id : ℕ} {s : StreamRecv}
    (hstreams : ∀ other, other ≠ id → c'.streams.lookup other = c.streams.lookup other)
    (hs : c'.streams.lookup id = some s) : c'.view = Function.update c.view id (some s.view) := by
  funext other
  by_cases hother : other = id
  · rw [hother, update_self, view, hs]
    rfl
  · rw [update_of_ne hother, view, hstreams other hother, view]

section OnStream

variable {c : Connection} {id offset : ℕ} {fin : Bool} {data : Bytes}

lemma settle_cases {c' : Connection} {limit : ℕ} {s : StreamRecv}
    (hopen : c.recvStreamClosed id = false)
    (hstreams : ∀ other, other ≠ id → c'.streams.lookup other = c.streams.lookup other)
    (hranges : c'.closedRecvRanges = c.closedRecvRanges) (hreadable : c'.readable = c.readable)
    (hs : s.view = (c.streamAt id).view.charged (offset + data.length)) (hwf : s.Wf)
    (hlimit : s.highestOffset ≤ limit)
    (hend : fin = true → s.highestOffset ≤ offset + data.length ∧ s.finOffset.any (· ≠ offset +
      data.length) = false) :
    Took c id offset fin data (c'.settle id limit (s.accept offset fin data limit)).2 ∨
      (c'.settle id limit (s.accept offset fin data limit)).1 ≠ .ok () ∧
        Refused c id (offset + data.length)
          (c'.settle id limit (s.accept offset fin data limit)).2 := by
  have hstop : offset + data.length ≤ s.highestOffset := by
    rw [show s.highestOffset = s.view.highestOffset from rfl, hs]
    exact le_max_right _ _
  have hrefused : ∀ e, Refused c id (offset + data.length) (c'.settle id limit (.error e, s)).2 := by
    intro e
    refine ⟨hranges, hreadable, .inr ⟨hopen, _, le_rfl, ?_⟩⟩
    rw [← hs]
    refine view_insert (fun other hother => ?_) (lookup_insert _)
    exact (lookup_insert_ne hother).trans (hstreams other hother)
  rcases StreamRecv.accept_cases hwf fin hstop hlimit with
    ⟨haccept, -⟩ | ⟨haccept, -⟩ | ⟨newly, asm, haccept, -, hdeliver⟩
  · rw [haccept]
    exact .inr ⟨nofun, hrefused _⟩
  · rw [haccept]
    exact .inr ⟨nofun, hrefused _⟩
  rcases StreamRecv.finish_cases hdeliver.wf newly fin (offset + data.length) with
    ⟨-, htrue, hwrong⟩ | ⟨finNow, whole, s', hfinish, -⟩
  · obtain ⟨hhighest, hsame⟩ := hend htrue
    have hrecv := hdeliver.wf.recvOffset
    rw [hdeliver.highestOffset] at hrecv hwrong
    rcases hwrong with hwrong | hwrong | hwrong
    · omega
    · omega
    · rw [show (s.deliver newly asm).finOffset = s.finOffset from rfl, hsame] at hwrong
      cases hwrong
  rw [haccept, hfinish]
  rw [hfinish] at haccept
  obtain ⟨htakes, hnow⟩ := StreamRecv.accept_ok haccept hstop
  rw [hs] at htakes
  obtain ⟨-, hclosed⟩ := streams_ensureRecvStreamCredit
    { c' with streams := c'.streams.insert id s' } id limit
  refine .inl ⟨hopen, hclosed.trans hranges, newly, s'.view, ⟨htakes.push, htakes.fin,
    htakes.done, ?_⟩, ?_, ?_⟩
  · have hhighest := htakes.highest
    simp only [StreamView.charged, max_assoc, max_self] at hhighest
    exact hhighest
  · refine view_insert (fun other hother => ?_) ?_
    · simp only [settle, publish, streams_ensureRecvStreamCredit]
      exact (lookup_insert_ne hother).trans (hstreams other hother)
    · simp only [settle, publish, streams_ensureRecvStreamCredit]
      exact lookup_insert _
  · simp only [settle, publish, readable_ensureRecvStreamCredit, eventOf, hnow, hreadable]

/-- `on_stream` takes a frame or leaves the stream where it was. -/
theorem onStream_cases
    (hwf : c.recvStreamClosed id = false → (c.streamAt id).Wf ∧ (c.streamAt id).highestOffset ≤
      c.recvLimit id)
    (hend : c.recvStreamClosed id = false → fin = true → (c.streamAt id).highestOffset ≤ offset +
      data.length ∧ (c.streamAt id).finOffset.any (· ≠ offset + data.length) = false) :
    c.recvStreamClosed id = true ∧ (c.onStream id offset fin data).2 = c ∨
      Took c id offset fin data (c.onStream id offset fin data).2 ∨
      (c.onStream id offset fin data).1 ≠ .ok () ∧
        Refused c id (offset + data.length) (c.onStream id offset fin data).2 := by
  have hsame : Refused c id (offset + data.length) c := ⟨rfl, rfl, .inl rfl⟩
  have hentered : c.recvStreamClosed id = false →
      Refused c id (offset + data.length) (c.entered id) := by
    intro hopen
    refine ⟨rfl, rfl, .inr ⟨hopen, 0, Nat.zero_le _, ?_⟩⟩
    rw [show (c.streamAt id).view.charged 0 = (c.streamAt id).view by
      simp [StreamView.charged]]
    exact view_insert (fun other hother => lookup_insert_ne hother) (lookup_insert _)
  unfold onStream
  split
  · exact .inl ⟨‹_›, rfl⟩
  rename_i hopen
  rw [Bool.not_eq_true] at hopen
  obtain ⟨hwf, hhighest⟩ := hwf hopen
  right
  unfold recvStreamProperties
  split
  · exact .inr ⟨nofun, hsame⟩
  rename_i hprops
  split at hprops
  · cases hprops
    split
    · exact .inr ⟨nofun, hsame⟩
    split
    · exact .inr ⟨nofun, hsame⟩
    rw [receiveData_eq]
    split
    · exact .inr ⟨nofun, hentered hopen⟩
    split
    · exact .inr ⟨nofun, hentered hopen⟩
    rename_i hcharge
    obtain ⟨⟨total, buffered, rfl⟩, rfl⟩ := charge_inv hcharge
    refine settle_cases hopen (fun other hother => lookup_insert_ne hother) rfl rfl rfl ?_ ?_ ?_
    · exact ⟨hwf.asm, hwf.recvOffset.trans (le_max_left _ _),
        fun f hf => (hwf.pending f hf).trans (le_max_left _ _), hwf.buf⟩
    · exact max_le hhighest (by omega)
    · exact fun hfin => ⟨max_le (hend hopen hfin).1 le_rfl, (hend hopen hfin).2⟩
  · cases hprops

end OnStream

/-- The streams are where they were, apart from the accounts. -/
def SameStreams (c c' : Connection) : Prop :=
  c'.view = c.view ∧ c'.closedRecvRanges = c.closedRecvRanges

lemma SameStreams.of_eq {c c' : Connection} (hstreams : c'.streams = c.streams)
    (hranges : c'.closedRecvRanges = c.closedRecvRanges) : SameStreams c c' := by
  refine ⟨?_, hranges⟩
  funext id
  rw [view, hstreams, view]

lemma SameStreams.trans {c c' c'' : Connection} (h : SameStreams c c')
    (h' : SameStreams c' c'') : SameStreams c c'' := ⟨h'.1.trans h.1, h'.2.trans h.2⟩

lemma SameStreams.recvStreamClosed {c c' : Connection} (h : SameStreams c c') (id : ℕ) :
    c'.recvStreamClosed id = c.recvStreamClosed id := by
  rw [Connection.recvStreamClosed, h.2, Connection.recvStreamClosed]

lemma sameStreams_replenishConnectionCredit (consumed : ℕ) :
    SameStreams c (c.replenishConnectionCredit consumed) := by
  unfold replenishConnectionCredit
  split <;> exact ⟨rfl, rfl⟩

lemma sameStreams_replenishRecvCredit (consumed : ℕ) (peer uni : Bool) :
    SameStreams c (c.replenishRecvCredit consumed peer uni) := by
  refine (sameStreams_replenishConnectionCredit c consumed).trans ?_
  unfold replenishRecvCredit
  split
  · exact ⟨rfl, rfl⟩
  · split <;> exact ⟨rfl, rfl⟩

lemma sameStreams_extendRecvStreamCredit (id consumed : ℕ) :
    SameStreams c (c.extendRecvStreamCredit id consumed) := by
  unfold extendRecvStreamCredit
  split
  · exact ⟨rfl, rfl⟩
  split
  · exact ⟨rfl, rfl⟩
  · simp only
    split <;> exact ⟨rfl, rfl⟩

lemma sameStreams_consume (finished : List ℕ) (c : Connection) (id consumed : ℕ) :
    SameStreams c (c.consume finished id consumed) := by
  have hread : SameStreams c (c.emptied id consumed) := by
    refine ⟨?_, rfl⟩
    funext other
    simp only [view, emptied]
    cases hlookup : c.streams.lookup id with
    | none => rfl
    | some stream =>
      by_cases hother : other = id
      · rw [hother, lookup_insert, hlookup]
        rfl
      · rw [lookup_insert_ne hother]
  have hcredit := hread.trans (sameStreams_replenishConnectionCredit _ consumed)
  rw [consume_eq]
  split
  · exact hcredit
  · exact hcredit.trans (sameStreams_extendRecvStreamCredit _ id consumed)

/-- The streams with those in `ids` taken out and closed. -/
structure Released (c c' : Connection) (ids : List ℕ) : Prop where
  view : ∀ id, c'.view id = if id ∈ ids then none else c.view id
  closed : ∀ id, c'.recvStreamClosed id =
    (c.recvStreamClosed id || decide (id ∈ ids) && (c.view id).isSome)

lemma released_releaseRecvStream (id : ℕ) : Released c (c.releaseRecvStream id) [id] := by
  unfold releaseRecvStream
  split
  · rename_i hnone
    have hview : c.view id = none := by rw [view, hnone]; rfl
    refine ⟨fun other => ?_, fun other => ?_⟩
    · split
      · rename_i hother
        rw [mem_singleton.mp hother, hview]
      · rfl
    · by_cases hother : other = id
      · simp [hother, hview]
      · simp [hother]
  rename_i stream hsome
  have hview : c.view id = some stream.view := by rw [view, hsome]; rfl
  simp only [dropStream]
  obtain ⟨hsame, hranges⟩ := sameStreams_replenishRecvCredit
    { c with
      recvBuffered := c.recvBuffered - (stream.highestOffset - stream.appConsumed)
      streams := c.streams.erase id
      localStreamMax := c.localStreamMax.erase id
      closedRecvRanges := c.closedRecvRanges.mark id }
    (stream.highestOffset - stream.appConsumed) (c.role.peer.opens id) (isUni id)
  refine ⟨fun other => ?_, fun other => ?_⟩
  · rw [hsame]
    simp only [view, mem_singleton]
    split
    · rename_i hother
      rw [hother, lookup_erase]
      rfl
    · rename_i hother
      rw [lookup_erase_ne hother]
  · rw [recvStreamClosed, hranges, recvStreamClosed]
    by_cases hother : other = id
    · simp [hother, hview]
    · simp [hother]

lemma Released.trans {c c' c'' : Connection} {ids more : List ℕ} (h : Released c c' ids)
    (h' : Released c' c'' more) : Released c c'' (ids ++ more) where
  view id := by
    rw [h'.view, h.view]
    by_cases hid : id ∈ ids <;> by_cases hmore : id ∈ more <;> simp [hid]
  closed id := by
    rw [h'.closed, h.closed, h.view]
    by_cases hid : id ∈ ids <;> by_cases hmore : id ∈ more <;> simp [hid]

lemma released_foldl (ids : List ℕ) : Released c (ids.foldl releaseRecvStream c) ids := by
  induction ids generalizing c with
  | nil => exact ⟨fun _ => rfl, fun _ => by simp⟩
  | cons id rest ih => exact (released_releaseRecvStream c id).trans (ih _)

/-- Reading takes out the streams whose end is read. -/
theorem released_takeReadable :
    Released c c.takeReadable ((c.readable.filter (·.2.2)).map Prod.fst).dedup := by
  set finished := ((c.readable.filter (·.2.2)).map Prod.fst).dedup
  have hread : ∀ (ids : List ℕ) (d : Connection), SameStreams d
      (ids.foldl (fun c' id => c'.consume finished id (eventBytes c.readable id)) d) := by
    intro ids
    induction ids with
    | nil => exact fun d => ⟨rfl, rfl⟩
    | cons id rest ih => exact fun d => (sameStreams_consume _ d id _).trans (ih _)
  have hsame := hread (c.readable.map Prod.fst).dedup { c with readable := [] }
  obtain ⟨hview, hclosed⟩ := released_foldl ((c.readable.map Prod.fst).dedup.foldl
    (fun c' id => c'.consume finished id (eventBytes c.readable id)) { c with readable := [] })
    finished
  rw [hsame.1] at hview hclosed
  exact ⟨hview, fun id => (hclosed id).trans (by rw [hsame.recvStreamClosed]; rfl)⟩

/-- The events tell the first bytes of each stream, and its end with the last of them. -/
structure Truthful (sends events : Pieces) : Prop where
  bytes : ∀ id, events.bytes id <+: sends.bytes id
  fin : ∀ n e, events[n]? = some e → e.2.2 = true →
    sends.ended e.1 = true ∧ Pieces.bytes (events.take (n + 1)) e.1 = sends.bytes e.1

/-- The streams of a connection have got what the events tell. -/
structure Following (c : Connection) (sends events : Pieces) : Prop where
  streams : ∀ id v, c.view id = some v →
    v.Follows (sends.bytes id) (sends.ended id) (events.bytes id)
  idle : ∀ id, c.view id = none → c.recvStreamClosed id = false → ∀ e ∈ events, e.1 ≠ id

/-- The end of a stream is told once, when the stream is complete. -/
structure Counted (c : Connection) (events : Pieces) : Prop where
  streams : ∀ id v, c.view id = some v → events.fins id = if v.done then 1 else 0
  closed : ∀ id, c.recvStreamClosed id = true → events.fins id = 1

/-- What was sent, after one more request or none. -/
inductive SendsMore (sends : Pieces) : Pieces → Prop
  | same : SendsMore sends sends
  | more {id : ℕ} (data : Bytes) (fin : Bool) (hopen : sends.Open id) :
    SendsMore sends (sends ++ [(id, data, fin)])

variable {c c' : Connection} {sends sends' events : Pieces}

lemma Truthful.mono (h : Truthful sends events) (hmore : SendsMore sends sends') :
    Truthful sends' events := by
  cases hmore with
  | same => exact h
  | more data fin hopen =>
    refine ⟨fun id => ?_, fun n e he hfin => ?_⟩
    · rw [bytes_append]
      exact (h.bytes id).trans (prefix_append _ _)
    · obtain ⟨hended, hbytes⟩ := h.fin n e he hfin
      rw [bytes_of_ended hopen hended, ended_append, hended]
      exact ⟨rfl, hbytes⟩

lemma Truthful.event (h : Truthful sends events) {id : ℕ} {newly : Bytes}
    (hbytes : events.bytes id ++ newly <+: sends.bytes id)
    (hfin : finNow = true → sends.ended id = true ∧ events.bytes id ++ newly = sends.bytes id) :
    Truthful sends (events ++ eventOf id newly finNow) := by
  refine ⟨fun other => ?_, fun n e he hend => ?_⟩
  · rw [bytes_concat, bytes_eventOf]
    split
    · rename_i hother
      rw [← hother]
      exact hbytes
    · rw [append_nil]
      exact h.bytes other
  rw [getElem?_append] at he
  split at he
  · rw [take_append_of_le_length (by omega)]
    exact h.fin n e he hend
  have hlast := mem_eventOf (mem_of_getElem? he)
  subst hlast
  obtain ⟨hended, hall⟩ := hfin hend
  refine ⟨hended, ?_⟩
  have hlen : (eventOf id newly finNow).length ≤ 1 := by
    unfold eventOf
    split <;> simp
  rw [take_of_length_le (by rw [length_append]; omega), bytes_concat,
    bytes_eventOf, if_pos rfl, hall]

lemma Following.mono (h : Following c sends events) (hmore : SendsMore sends sends') :
    Following c sends' events := by
  cases hmore with
  | same => exact h
  | @more id data fin hopen =>
    refine ⟨fun other v hv => ?_, h.idle⟩
    obtain ⟨hasm, hgot, hfin, hdone, hhighest⟩ := h.streams other v hv
    refine ⟨?_, ?_, fun n hn => ?_, hdone, ?_⟩
    · rw [bytes_append]
      exact hasm.extend _
    · rw [bytes_append, take_append_of_le_length hasm.le]
      exact hgot
    · obtain ⟨hended, hlen⟩ := hfin n hn
      rw [bytes_of_ended hopen hended, ended_append, hended]
      exact ⟨rfl, hlen⟩
    · rw [bytes_append, length_append]
      exact hhighest.trans (Nat.le_add_right _ _)

lemma Following.same (h : Following c sends events) (hsame : SameStreams c c') :
    Following c' sends events where
  streams id v hv := h.streams id v (hsame.1 ▸ hv)
  idle id hv hopen := h.idle id (hsame.1 ▸ hv) (hsame.recvStreamClosed id ▸ hopen)

lemma Counted.same (h : Counted c events) (hsame : SameStreams c c') : Counted c' events where
  streams id v hv := h.streams id v (hsame.1 ▸ hv)
  closed id hclosed := h.closed id (hsame.recvStreamClosed id ▸ hclosed)

lemma Following.known (h : Following c sends events) {e : ℕ × Bytes × Bool} (he : e ∈ events) :
    c.recvStreamClosed e.1 = true ∨ (c.view e.1).isSome = true := by
  by_contra hnot
  rw [not_or, Bool.not_eq_true, Bool.not_eq_true, isSome_eq_false_iff, isNone_iff_eq_none] at hnot
  exact h.idle e.1 hnot.2 hnot.1 e he rfl

lemma mem_finished {events : Pieces} {id : ℕ} :
    id ∈ ((events.filter (·.2.2)).map Prod.fst).dedup ↔ ∃ e ∈ events, e.2.2 = true ∧ e.1 = id := by
  simp [and_assoc]

lemma Following.takeReadable (h : Following c sends events) (hsub : ∀ e ∈ c.readable, e ∈ events) :
    Following c.takeReadable sends events := by
  have hreleased := released_takeReadable c
  refine ⟨fun id v hv => ?_, fun id hv hopen => ?_⟩
  · rw [hreleased.view] at hv
    split at hv
    · cases hv
    · exact h.streams id v hv
  rw [hreleased.closed, Bool.or_eq_false_iff] at hopen
  rw [hreleased.view] at hv
  split at hv
  · rename_i hfinished
    obtain ⟨e, he, -, rfl⟩ := mem_finished.mp hfinished
    rcases h.known (hsub e he) with hclosed | hsome
    · rw [hopen.1] at hclosed
      cases hclosed
    · rw [hsome] at hopen
      simp [hfinished] at hopen
  · exact h.idle id hv hopen.1

lemma Counted.takeReadable (h : Counted c events) (hsub : ∀ e ∈ c.readable, e ∈ events)
    (honce : ∀ id, events.fins id ≤ 1) : Counted c.takeReadable events := by
  have hreleased := released_takeReadable c
  refine ⟨fun id v hv => ?_, fun id hclosed => ?_⟩
  · rw [hreleased.view] at hv
    split at hv
    · cases hv
    · exact h.streams id v hv
  rw [hreleased.closed, Bool.or_eq_true, Bool.and_eq_true, decide_eq_true_eq] at hclosed
  rcases hclosed with hclosed | ⟨hfinished, -⟩
  · exact h.closed id hclosed
  obtain ⟨e, he, hfin, rfl⟩ := mem_finished.mp hfinished
  have hpos : 0 < events.fins e.1 := by
    rw [Pieces.fins, countP_pos_iff]
    exact ⟨e, hsub e he, by simp [hfin]⟩
  have := honce e.1
  omega

/-- A stream before its first frame. -/
theorem Following.streamAt (h : Following c sends events) {id : ℕ}
    (hopen : c.recvStreamClosed id = false) :
    (c.streamAt id).view.Follows (sends.bytes id) (sends.ended id) (events.bytes id) := by
  cases hview : c.view id with
  | some v =>
    obtain ⟨s, hs, rfl⟩ := map_eq_some_iff.mp hview
    rw [Connection.streamAt, hs]
    exact h.streams id s.view hview
  | none =>
    have hnone : c.streams.lookup id = none := map_eq_none_iff.mp hview
    rw [Connection.streamAt, hnone, bytes_eq_nil (h.idle id hview hopen)]
    exact ⟨Reasm.follows_empty _, rfl, (by intro n hn; cases hn), rfl, Nat.zero_le _⟩

lemma Following.refused (h : Following c sends events) {id stop : ℕ}
    (hrefused : Refused c id stop c') (hstop : stop ≤ (sends.bytes id).length) :
    Following c' sends events := by
  rcases hrefused.view with hview | ⟨hopen, n, hn, hview⟩
  · exact h.same ⟨hview, hrefused.closedRecvRanges⟩
  refine ⟨fun other v hv => ?_, fun other hv hother => ?_⟩
  · rw [hview] at hv
    by_cases hid : other = id
    · subst hid
      rw [update_self] at hv
      rw [← some.inj hv]
      exact (h.streamAt hopen).charged (hn.trans hstop)
    · rw [update_of_ne hid] at hv
      exact h.streams other v hv
  rw [hview] at hv
  have hne : other ≠ id := by
    rintro rfl
    rw [update_self] at hv
    cases hv
  rw [update_of_ne hne] at hv
  rw [recvStreamClosed, hrefused.closedRecvRanges] at hother
  exact h.idle other hv hother

/-- The end of a stream is told when the stream is complete, also before its first frame. -/
theorem Counted.streamAt (h : Counted c events) (hfollowing : Following c sends events) {id : ℕ}
    (hopen : c.recvStreamClosed id = false) :
    events.fins id = if (c.streamAt id).done then 1 else 0 := by
  cases hview : c.view id with
  | some v =>
    obtain ⟨s, hs, rfl⟩ := map_eq_some_iff.mp hview
    rw [streamAt_of_lookup hs]
    exact h.streams id s.view hview
  | none =>
    have hnone : c.streams.lookup id = none := map_eq_none_iff.mp hview
    rw [Connection.streamAt, hnone, fins_eq_zero (hfollowing.idle id hview hopen)]
    rfl

lemma Counted.le_one (h : Counted c events) (hfollowing : Following c sends events) (id : ℕ) :
    events.fins id ≤ 1 := by
  by_cases hclosed : c.recvStreamClosed id = true
  · exact (h.closed id hclosed).le
  · rw [h.streamAt hfollowing (by simpa using hclosed)]
    split <;> simp

lemma Counted.refused (h : Counted c events) (hfollowing : Following c sends events)
    {id stop : ℕ} (hrefused : Refused c id stop c') : Counted c' events := by
  rcases hrefused.view with hview | ⟨hopen, n, -, hview⟩
  · exact h.same ⟨hview, hrefused.closedRecvRanges⟩
  refine ⟨fun other v hv => ?_, fun other hclosed => ?_⟩
  · rw [hview] at hv
    by_cases hid : other = id
    · subst hid
      rw [update_self] at hv
      rw [← some.inj hv]
      exact h.streamAt hfollowing hopen
    · rw [update_of_ne hid] at hv
      exact h.streams other v hv
  · rw [recvStreamClosed, hrefused.closedRecvRanges] at hclosed
    exact h.closed other hclosed

section Took

variable {id offset : ℕ} {fin : Bool} {data newly : Bytes} {v : StreamView}

/-- A slice of what was sent makes available the bytes that come next. -/
theorem Following.took (h : Following c sends events) (htruthful : Truthful sends events)
    (hdata : IsSlice (sends.bytes id) offset data)
    (hfin : fin = true → sends.ended id = true ∧ offset + data.length = (sends.bytes id).length)
    (hopen : c.recvStreamClosed id = false) (hranges : c'.closedRecvRanges = c.closedRecvRanges)
    (htakes : (c.streamAt id).view.Takes offset fin data newly v)
    (hview : c'.view = Function.update c.view id (some v)) :
    Truthful sends (events ++ eventOf id newly v.complete) ∧
      Following c' sends (events ++ eventOf id newly v.complete) := by
  have hv := (h.streamAt hopen).takes hdata hfin htakes
  have hgot := hv.got
  refine ⟨htruthful.event ?_ fun hcomplete => ?_, fun other w hw => ?_, fun other hw hother => ?_⟩
  · rw [hgot]
    exact take_prefix _ _
  · obtain ⟨hsome, hoffset⟩ := hv.complete_iff.mp hcomplete
    obtain ⟨n, hn⟩ := isSome_iff_exists.mp hsome
    refine ⟨(hv.fin n hn).1, ?_⟩
    rw [hgot, hoffset, take_length]
  · rw [bytes_concat, bytes_eventOf]
    rw [hview] at hw
    split
    · rename_i hid
      subst hid
      rw [update_self] at hw
      rw [← some.inj hw]
      exact hv
    · rename_i hid
      rw [update_of_ne (Ne.symm hid)] at hw
      rw [append_nil]
      exact h.streams other w hw
  · rw [hview] at hw
    have hne : other ≠ id := by
      rintro rfl
      rw [update_self] at hw
      cases hw
    rw [update_of_ne hne] at hw
    intro e he
    rcases mem_append.mp he with he | he
    · rw [recvStreamClosed, hranges] at hother
      exact h.idle other hw hother e he
    · rw [mem_eventOf he]
      exact Ne.symm hne

/-- A frame of a stream that was not complete tells the end at most once. -/
theorem Counted.took (h : Counted c events) (hfollowing : Following c sends events)
    (hopen : c.recvStreamClosed id = false) (hranges : c'.closedRecvRanges = c.closedRecvRanges)
    (htakes : (c.streamAt id).view.Takes offset fin data newly v)
    (hview : c'.view = Function.update c.view id (some v)) (hnew : (c.streamAt id).done = false) :
    Counted c' (events ++ eventOf id newly v.complete) := by
  have hzero : events.fins id = 0 := by
    rw [h.streamAt hfollowing hopen, hnew]
    rfl
  have hdone : v.done = v.complete := by
    rw [htakes.done, StreamRecv.view, hnew, Bool.false_or]
  refine ⟨fun other w hw => ?_, fun other hclosed => ?_⟩
  · rw [fins_concat, fins_eventOf]
    rw [hview] at hw
    by_cases hid : id = other
    · subst hid
      rw [update_self] at hw
      rw [← some.inj hw, hzero, hdone]
      simp
    · rw [update_of_ne (Ne.symm hid)] at hw
      simp [hid, h.streams other w hw]
  · rw [recvStreamClosed, hranges] at hclosed
    have hne : id ≠ other := by
      rintro rfl
      rw [recvStreamClosed, hclosed] at hopen
      cases hopen
    rw [fins_concat, fins_eventOf]
    simp [hne, h.closed other hclosed]

end Took

end Connection

end OnetDns.Quic
