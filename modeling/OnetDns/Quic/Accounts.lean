import OnetDns.Lib.Ledger
import OnetDns.Quic.Limits

/-!
# Accounts of the receiving half

`recvBuffered` counts what was received and not read, `recvTotalHighest` how far all
streams have got, and `localMaxData` what the peer may send. The three move together:
what is read or dropped is given back as credit, so that a peer within its credit can
never fill the buffers.
-/
namespace OnetDns.Quic
open List Option AList Function Nat Ledger

/-- What was received of a stream and not read. -/
def StreamRecv.unread (s : StreamRecv) : ℕ := s.highestOffset - s.appConsumed

open StreamRecv

namespace Connection

/-- A stream that is open. `due` are the bytes that wait to be read. -/
structure StreamInv (c : Connection) (due : ℕ → ℕ) (id : ℕ) (s : StreamRecv) : Prop where
  isOpen : c.recvStreamClosed id = false
  wf : s.asm.Wf
  recvOffset : s.asm.recvOffset ≤ s.highestOffset
  pending : ∀ f ∈ s.asm.pending, f.stop ≤ s.highestOffset
  buf : s.buf.length ≤ s.asm.recvOffset
  consumed : s.appConsumed + due id ≤ s.asm.recvOffset
  limit : s.highestOffset ≤ c.recvLimit id

/-- The accounts of a connection. `seen` is how far each stream has got, closed ones included, and
`owed` the credit that is still to be given back. -/
structure Accounts (c : Connection) (due : ℕ → ℕ) (owed : ℕ) (seen : ℕ →₀ ℕ) : Prop where
  streams : ∀ id s, c.streams.lookup id = some s → StreamInv c due id s
  idle : ∀ id, id ∉ c.streams → due id = 0
  seenOpen : ∀ id s, c.streams.lookup id = some s → seen id = s.highestOffset
  seenNew : ∀ id, id ∉ c.streams → c.recvStreamClosed id = false → seen id = 0
  total : c.recvTotalHighest = seen.degree
  buffered : c.recvBuffered = Ledger.total StreamRecv.unread c.streams
  totalLe : c.recvTotalHighest ≤ c.localMaxData
  credit : c.localMaxData + c.recvBuffered + owed ≤ maxConnectionReassembly + c.recvTotalHighest
  held : c.recvBuffered + owed ≤ c.recvTotalHighest
  maxData : c.localMaxData ≤ maxFlowControl
  bidi : c.localMaxStreamsBidi ≤ maxFlowControl
  uni : c.localMaxStreamsUni ≤ maxFlowControl
  tpBidiLocal : c.baseTp.initialMaxStreamDataBidiLocal ≤ maxStreamReassembly
  tpBidiRemote : c.baseTp.initialMaxStreamDataBidiRemote ≤ maxStreamReassembly
  tpUni : c.baseTp.initialMaxStreamDataUni ≤ maxStreamReassembly

variable {c : Connection} {due : ℕ → ℕ}

lemma Accounts.buffered_le {owed : ℕ} {seen : ℕ →₀ ℕ}
    (h : Accounts c due owed seen) : c.recvBuffered ≤ maxConnectionReassembly := by
  have := h.credit
  have := h.totalLe
  omega

variable {id : ℕ} {s : StreamRecv} {due' : ℕ → ℕ}

lemma StreamInv.mono (h : StreamInv c due id s) (hdue : due' id ≤ due id) : StreamInv c due' id s :=
  { h with consumed := le_trans (Nat.add_le_add_left hdue _) h.consumed }

lemma Accounts.mono {owed : ℕ} {seen : ℕ →₀ ℕ}
    (h : Accounts c due owed seen) (hdue : ∀ id, due' id ≤ due id) : Accounts c due' owed seen :=
  { h with
    streams := fun id s hs => (h.streams id s hs).mono (hdue id)
    idle := fun id hid => eq_zero_of_le_zero (h.idle id hid ▸ hdue id) }

/-- The stream as it is, or as it would start. -/
def streamAt (c : Connection) (id : ℕ) : StreamRecv := (c.streams.lookup id).getD .default

lemma streamAt_of_notMem (h : id ∉ c.streams) : c.streamAt id = .default := by
  rw [streamAt, lookup_eq_none.mpr h, getD_none]

lemma lookup_of_mem (h : id ∈ c.streams) : c.streams.lookup id = some (c.streamAt id) := by
  obtain ⟨s, hs⟩ := isSome_iff_exists.mp (lookup_isSome.mpr h)
  rw [streamAt, hs, getD_some]

lemma streamAt_of_lookup (h : c.streams.lookup id = some s) : c.streamAt id = s := by
  rw [streamAt, h, getD_some]

section

variable {c : Connection} {due : ℕ → ℕ} {owed : ℕ} {seen : ℕ →₀ ℕ}

section

variable (h : Accounts c due owed seen)
include h

lemma Accounts.streamAt
    (hopen : c.recvStreamClosed id = false) : StreamInv c due id (c.streamAt id) := by
  by_cases hid : id ∈ c.streams
  · exact h.streams id _ (lookup_of_mem hid)
  · rw [streamAt_of_notMem hid]
    refine ⟨hopen, Reasm.wf_empty, le_rfl, nofun, zero_le _, ?_, zero_le _⟩
    rw [h.idle id hid]
    exact le_rfl

lemma Accounts.seen_streamAt
    (hopen : c.recvStreamClosed id = false) : seen id = (c.streamAt id).highestOffset := by
  by_cases hid : id ∈ c.streams
  · exact h.seenOpen id _ (lookup_of_mem hid)
  · rw [streamAt_of_notMem hid, h.seenNew id hid hopen]
    rfl

lemma Accounts.total_erase (id : ℕ) :
    c.recvBuffered = (c.streamAt id).unread +
      Ledger.total StreamRecv.unread (c.streams.erase id) := by
  rw [h.buffered]
  by_cases hid : id ∈ c.streams
  · exact Ledger.total_erase (lookup_of_mem hid)
  · rw [streamAt_of_notMem hid, total_erase_of_notMem _ hid]
    simp [StreamRecv.default, StreamRecv.unread]

lemma Accounts.update {owed' buffered total : ℕ} (hs : StreamInv c due' id s)
    (hdue : ∀ other, other ≠ id → due' other = due other)
    (hbuffered : buffered + (c.streamAt id).unread = c.recvBuffered + s.unread)
    (htotal : total + (c.streamAt id).highestOffset = c.recvTotalHighest + s.highestOffset)
    (htotalLe : total ≤ c.localMaxData)
    (hcredit : c.localMaxData + buffered + owed' ≤ maxConnectionReassembly + total)
    (hheld : buffered + owed' ≤ total) :
    Accounts { c with
      streams := c.streams.insert id s, recvBuffered := buffered, recvTotalHighest := total }
      due' owed' (seen.update id s.highestOffset) where
  streams other t ht := by
    by_cases hother : other = id
    · subst hother
      rw [lookup_insert] at ht
      cases ht
      exact { hs with }
    · rw [lookup_insert_ne hother] at ht
      exact { (h.streams other t ht).mono (hdue other hother).le with }
  idle other hother := by
    rw [mem_insert, not_or] at hother
    rw [hdue other hother.1]
    exact h.idle other hother.2
  seenOpen other t ht := by
    by_cases hother : other = id
    · subst hother
      rw [lookup_insert] at ht
      cases ht
      rw [Finsupp.update_apply, if_pos rfl]
    · rw [lookup_insert_ne hother] at ht
      rw [Finsupp.update_apply, if_neg hother]
      exact h.seenOpen other t ht
  seenNew other hother hopen := by
    rw [mem_insert, not_or] at hother
    rw [Finsupp.update_apply, if_neg hother.1]
    exact h.seenNew other hother.2 hopen
  total := by
    have hdegree := degree_update seen id s.highestOffset
    rw [h.seen_streamAt hs.isOpen, ← h.total] at hdegree
    simp only
    omega
  buffered := by
    rw [total_insert]
    have := h.total_erase id
    simp only
    omega
  totalLe := htotalLe
  credit := hcredit
  held := hheld
  __ := h

lemma Accounts.replenishConnectionCredit : Grows c (c.replenishConnectionCredit owed) ∧
      Accounts (c.replenishConnectionCredit owed) due 0 seen := by
  unfold Connection.replenishConnectionCredit
  split
  · rename_i hzero
    subst hzero
    exact ⟨.refl c, h⟩
  have hmax := h.maxData
  have hraise : c.localMaxData ≤ min (c.localMaxData + owed) maxFlowControl := by omega
  have hgrows : Grows c { c with localMaxData := min (c.localMaxData + owed) maxFlowControl } :=
    { Grows.refl c with maxData := hraise, frames := fun f hf => .inl hf }
  refine ⟨hgrows.queue le_rfl, { h with
    streams := fun id s hs => { h.streams id s hs with }
    totalLe := h.totalLe.trans hraise
    credit := ?_
    held := ?_
    maxData := min_le_right _ _ }⟩
  · have := h.credit
    simp only [queue]
    omega
  · have := h.held
    simp only [queue]
    omega

lemma Accounts.replenishRecvCredit (peer uni : Bool) :
    Grows c (c.replenishRecvCredit owed peer uni) ∧
      Accounts (c.replenishRecvCredit owed peer uni) due 0 seen := by
  obtain ⟨hgrows, haccounts⟩ := h.replenishConnectionCredit
  unfold Connection.replenishRecvCredit
  split
  · exact ⟨hgrows, haccounts⟩
  set c₁ := c.replenishConnectionCredit owed
  have hbidi := haccounts.bidi
  have huni := haccounts.uni
  split
  · have hraise : Grows c₁ { c₁ with
        localMaxStreamsUni := min (c₁.localMaxStreamsUni + 1) maxFlowControl } :=
      { Grows.refl c₁ with uni := le_min (le_succ _) huni, frames := fun f hf => .inl hf }
    refine ⟨hgrows.trans (hraise.queue (f := .maxStreams true _) le_rfl), { haccounts with
      streams := fun id s hs => { haccounts.streams id s hs with }
      uni := min_le_right _ _ }⟩
  have hraise : Grows c₁ { c₁ with
      localMaxStreamsBidi := min (c₁.localMaxStreamsBidi + 1) maxFlowControl } :=
    { Grows.refl c₁ with bidi := le_min (le_succ _) hbidi, frames := fun f hf => .inl hf }
  refine ⟨hgrows.trans (hraise.queue (f := .maxStreams false _) le_rfl), { haccounts with
    streams := fun id s hs => { haccounts.streams id s hs with }
    bidi := min_le_right _ _ }⟩

end

lemma recvLimit_insert_le {limit : ℕ} (h : c.recvLimit id ≤ max limit (c.initialRecvLimit id))
    (other : ℕ) : c.recvLimit other ≤
      ({ c with localStreamMax := c.localStreamMax.insert id limit } : Connection).recvLimit other := by
  by_cases hother : other = id
  · subst hother
    refine h.trans_eq ?_
    rw [recvLimit, lookup_insert]
    rfl
  · rw [recvLimit, recvLimit, lookup_insert_ne hother]
    rfl

section

variable (h : Accounts c due owed seen)
include h

lemma Accounts.raiseStream {limit : ℕ}
    (hlimit : c.recvLimit id ≤ max limit (c.initialRecvLimit id)) :
    Grows c { c with localStreamMax := c.localStreamMax.insert id limit } ∧
      ({ c with localStreamMax := c.localStreamMax.insert id limit } : Connection).Told
        (.maxStreamData id limit) ∧
      Accounts { c with localStreamMax := c.localStreamMax.insert id limit } due owed seen := by
  have hle := recvLimit_insert_le hlimit
  refine ⟨{ Grows.refl c with limit := fun other => .inr (hle other), frames := fun f hf => .inl hf },
    ?_, { h with
      streams := fun other s hs =>
        { h.streams other s hs with limit := (h.streams other s hs).limit.trans (hle other) } }⟩
  refine .inr ?_
  rw [recvLimit, lookup_insert]
  exact le_max_left _ _

lemma Accounts.queue (f : Frame) : Accounts (c.queue f) due owed seen :=
  { h with streams := fun id s hs => { h.streams id s hs with } }

lemma Accounts.extendRecvStreamCredit (id consumed : ℕ) :
    Grows c (c.extendRecvStreamCredit id consumed) ∧
      Accounts (c.extendRecvStreamCredit id consumed) due owed seen := by
  unfold Connection.extendRecvStreamCredit
  split
  · exact ⟨.refl c, h⟩
  split
  · exact ⟨.refl c, h⟩
  rename_i current hcurrent
  simp only
  split
  · have hlimit : c.recvLimit id ≤
        max (min (current + consumed) maxFlowControl) (c.initialRecvLimit id) := by
      rw [recvLimit, hcurrent, getD_some]
      omega
    obtain ⟨hgrows, htold, haccounts⟩ := h.raiseStream hlimit
    exact ⟨hgrows.queue htold, haccounts.queue _⟩
  · exact ⟨.refl c, h⟩

lemma Accounts.ensureRecvStreamCredit (id : ℕ) :
    Grows c (c.ensureRecvStreamCredit id (c.recvLimit id)) ∧
      Accounts (c.ensureRecvStreamCredit id (c.recvLimit id)) due owed seen := by
  unfold Connection.ensureRecvStreamCredit
  split
  · exact ⟨.refl c, h⟩
  have hlimit : c.recvLimit id ≤
      max (max (c.recvLimit id) maxStreamReassembly) (c.initialRecvLimit id) := by
    omega
  obtain ⟨hgrows, htold, haccounts⟩ := h.raiseStream hlimit
  simp only
  split
  · exact ⟨hgrows.queue htold, haccounts.queue _⟩
  · exact ⟨hgrows, haccounts⟩

end

/-- The stream without its buffers; its credit is not given back yet. -/
def closeStream (c : Connection) (id unread total : ℕ) : Connection :=
  { c with
    recvTotalHighest := total
    recvBuffered := c.recvBuffered - unread
    streams := c.streams.erase id
    localStreamMax := c.localStreamMax.erase id
    closedRecvRanges := c.closedRecvRanges.mark id }

lemma recvStreamClosed_closeStream (id unread total other : ℕ) :
    (c.closeStream id unread total).recvStreamClosed other =
      (c.recvStreamClosed other || decide (other = id)) :=
  StreamRanges.contains_mark _ _ _

lemma recvLimit_closeStream {other : ℕ} (unread total : ℕ) (h : other ≠ id) :
    (c.closeStream id unread total).recvLimit other = c.recvLimit other := by
  have hlookup : (c.closeStream id unread total).localStreamMax.lookup other =
      c.localStreamMax.lookup other := lookup_erase_ne h
  rw [recvLimit, hlookup]
  rfl

lemma grows_closeStream (id unread total : ℕ) : Grows c (c.closeStream id unread total) where
  role := rfl
  baseTp := rfl
  maxData := le_rfl
  bidi := le_rfl
  uni := le_rfl
  closed other hother := by
    rw [recvStreamClosed_closeStream, hother, Bool.true_or]
  limit other := by
    by_cases hother : other = id
    · rw [recvStreamClosed_closeStream, hother]
      simp
    · right
      rw [recvLimit_closeStream _ _ hother]
  opened _ h := h
  frames f hf := .inl hf

/-- A stream leaves with its final size; what was not read of it is owed to the peer. -/
theorem Accounts.closeStream (h : Accounts c due 0 seen) {finalSize : ℕ}
    (hopen : c.recvStreamClosed id = false) (hdue : due id = 0)
    (hfinal : (c.streamAt id).highestOffset ≤ finalSize)
    (htotal : c.recvTotalHighest + (finalSize - (c.streamAt id).highestOffset) ≤ c.localMaxData) :
    Accounts (c.closeStream id (c.streamAt id).unread
      (c.recvTotalHighest + (finalSize - (c.streamAt id).highestOffset))) due
      (finalSize - (c.streamAt id).appConsumed) (seen.update id finalSize) := by
  have hbuffered := h.total_erase id
  have hcredit := h.credit
  have hheld := h.held
  simp only [unread] at hbuffered
  refine { h with
    streams := fun other t ht => ?_
    idle := fun other hother => ?_
    seenOpen := fun other t ht => ?_
    seenNew := fun other hother hother' => ?_
    total := ?_
    buffered := ?_
    totalLe := htotal
    credit := ?_
    held := ?_ }
  · have hother : other ≠ id := by
      rintro rfl
      rw [Connection.closeStream, lookup_erase] at ht
      cases ht
    rw [Connection.closeStream, lookup_erase_ne hother] at ht
    have hinv := h.streams other t ht
    refine { hinv with isOpen := ?_, limit := ?_ }
    · rw [recvStreamClosed_closeStream, hinv.isOpen]
      simpa using hother
    · rw [recvLimit_closeStream _ _ hother]
      exact hinv.limit
  · by_cases hid : other = id
    · rw [hid, hdue]
    · refine h.idle other fun hmem => hother ?_
      exact mem_erase.mpr ⟨hid, hmem⟩
  · have hother : other ≠ id := by
      rintro rfl
      rw [Connection.closeStream, lookup_erase] at ht
      cases ht
    rw [Connection.closeStream, lookup_erase_ne hother] at ht
    rw [Finsupp.update_apply, if_neg hother]
    exact h.seenOpen other t ht
  · rw [recvStreamClosed_closeStream, Bool.or_eq_false_iff, decide_eq_false_iff_not] at hother'
    rw [Finsupp.update_apply, if_neg hother'.2]
    exact h.seenNew other (fun hmem => hother (mem_erase.mpr ⟨hother'.2, hmem⟩)) hother'.1
  · have hdegree := degree_update seen id finalSize
    rw [h.seen_streamAt hopen, ← h.total] at hdegree
    simp only [Connection.closeStream]
    omega
  · simp only [Connection.closeStream, unread]
    omega
  · simp only [Connection.closeStream, unread]
    omega
  · simp only [Connection.closeStream, unread]
    omega

lemma dropStream_eq (c : Connection) (id unread credit : ℕ) :
    c.dropStream id unread credit =
      (c.closeStream id unread c.recvTotalHighest).replenishRecvCredit credit
        (c.role.peer.opens id) (isUni id) := rfl

section

variable (h : Accounts c due 0 seen)
include h

lemma Accounts.releaseRecvStream (hdue : due id = 0) :
    Grows c (c.releaseRecvStream id) ∧ Accounts (c.releaseRecvStream id) due 0 seen := by
  unfold Connection.releaseRecvStream
  split
  · exact ⟨.refl c, h⟩
  rename_i s hs
  have hopen := (h.streams id s hs).isOpen
  have hat := streamAt_of_lookup hs
  have hclose := h.closeStream hopen hdue le_rfl (by rw [Nat.sub_self]; exact h.totalLe)
  have hseen : seen.update id (c.streamAt id).highestOffset = seen := by
    rw [← h.seen_streamAt hopen, Finsupp.update_self]
  rw [hseen, Nat.sub_self, hat] at hclose
  obtain ⟨hgrows, haccounts⟩ := hclose.replenishRecvCredit (c.role.peer.opens id) (isUni id)
  exact ⟨(grows_closeStream _ _ _).trans hgrows, haccounts⟩

lemma Accounts.releaseAll (ids : List ℕ) (hdue : ∀ id ∈ ids, due id = 0) :
    Grows c (ids.foldl Connection.releaseRecvStream c) ∧
      Accounts (ids.foldl Connection.releaseRecvStream c) due 0 seen := by
  induction ids generalizing c with
  | nil => exact ⟨.refl c, h⟩
  | cons id rest ih =>
    rw [forall_mem_cons] at hdue
    obtain ⟨hgrows, haccounts⟩ := h.releaseRecvStream hdue.1
    obtain ⟨hgrows', haccounts'⟩ := ih haccounts hdue.2
    exact ⟨hgrows.trans hgrows', haccounts'⟩

lemma Accounts.read (hs : c.streams.lookup id = some s) :
    Accounts { c with
      streams := c.streams.insert id
        { s with buf := [], appConsumed := min (s.appConsumed + due id) s.highestOffset }
      recvBuffered := c.recvBuffered - due id } (Function.update due id 0) (due id) seen := by
  have hinv := h.streams id s hs
  have hat := streamAt_of_lookup hs
  have hconsumed := hinv.consumed
  have hrecv := hinv.recvOffset
  have hheld := h.held
  have hcredit := h.credit
  have hbuffered := h.total_erase id
  simp only [hat, unread] at hbuffered
  have hseen : seen.update id s.highestOffset = seen := by
    rw [← h.seenOpen id s hs, Finsupp.update_self]
  rw [← hseen]
  refine h.update { hinv with
      buf := zero_le _
      consumed := ?_ } (fun other hother => update_of_ne hother _ _) ?_ ?_ h.totalLe ?_ ?_
  · rw [update_self]
    simp only
    omega
  · rw [hat]
    simp only [unread]
    omega
  · rw [hat]
  · omega
  · omega

lemma Accounts.consume (finished : List ℕ) (id : ℕ) : Grows c (c.consume finished id (due id)) ∧
      Accounts (c.consume finished id (due id)) (Function.update due id 0) 0 seen := by
  have hread : Accounts (c.emptied id (due id)) (Function.update due id 0) (due id) seen := by
    cases hs : c.streams.lookup id with
    | none =>
      have hzero := h.idle id (lookup_eq_none.mp hs)
      have hsame : Function.update due id 0 = due := by
        rw [← hzero, update_eq_self]
      simp only [emptied, hs, hzero, hsame]
      exact h
    | some s =>
      simp only [emptied, hs]
      exact h.read hs
  have hgrows : Grows c (c.emptied id (due id)) :=
    { Grows.refl c with frames := fun f hf => .inl hf }
  obtain ⟨hgrows', haccounts⟩ := hread.replenishConnectionCredit
  rw [consume_eq]
  split
  · exact ⟨hgrows.trans hgrows', haccounts⟩
  · obtain ⟨hgrows'', haccounts'⟩ := haccounts.extendRecvStreamCredit id (due id)
    exact ⟨hgrows.trans (hgrows'.trans hgrows''), haccounts'⟩

lemma Accounts.consumeAll (finished : List ℕ) {bytes : ℕ → ℕ}
    {ids : List ℕ} (hids : ids.Nodup) (hbytes : ∀ id ∈ ids, bytes id = due id) :
    Grows c (ids.foldl (fun c id => c.consume finished id (bytes id)) c) ∧
      Accounts (ids.foldl (fun c id => c.consume finished id (bytes id)) c)
        (fun id => if id ∈ ids then 0 else due id) 0 seen := by
  induction ids generalizing c due with
  | nil => exact ⟨.refl c, by simpa using h⟩
  | cons id rest ih =>
    rw [forall_mem_cons] at hbytes
    rw [nodup_cons] at hids
    obtain ⟨hgrows, haccounts⟩ := h.consume finished id
    rw [← hbytes.1] at hgrows haccounts
    have hrest : ∀ other ∈ rest, bytes other = Function.update due id 0 other := by
      intro other hother
      have hne : other ≠ id := fun heq => hids.1 (heq ▸ hother)
      rw [update_of_ne hne]
      exact hbytes.2 other hother
    obtain ⟨hgrows', haccounts'⟩ := ih haccounts hids.2 hrest
    refine ⟨hgrows.trans hgrows', haccounts'.mono fun other => ?_⟩
    by_cases heq : other = id
    · simp [heq]
    · simp [heq]

end

lemma eventBytes_of_notMem {events : List (ℕ × Bytes × Bool)}
    (h : id ∉ events.map Prod.fst) : eventBytes events id = 0 := by
  have hnone : events.filter (·.1 = id) = [] := by
    rw [filter_eq_nil_iff]
    intro event hevent
    simp only [decide_eq_true_eq]
    rintro rfl
    exact h (mem_map_of_mem hevent)
  rw [eventBytes, hnone]
  rfl

lemma readable_replenishConnectionCredit (c : Connection) (consumed : ℕ) :
    (c.replenishConnectionCredit consumed).readable = c.readable := by
  unfold replenishConnectionCredit
  split <;> rfl

lemma readable_extendRecvStreamCredit (c : Connection) (id consumed : ℕ) :
    (c.extendRecvStreamCredit id consumed).readable = c.readable := by
  unfold extendRecvStreamCredit
  split
  · rfl
  split
  · rfl
  · simp only
    split <;> rfl

lemma readable_consume (finished : List ℕ) (c : Connection) (id consumed : ℕ) :
    (c.consume finished id consumed).readable = c.readable := by
  unfold consume
  simp only
  split
  · rw [readable_replenishConnectionCredit]
  · rw [readable_extendRecvStreamCredit, readable_replenishConnectionCredit]

lemma readable_replenishRecvCredit (c : Connection) (consumed : ℕ) (peer uni : Bool) :
    (c.replenishRecvCredit consumed peer uni).readable = c.readable := by
  rw [← readable_replenishConnectionCredit c consumed]
  unfold replenishRecvCredit
  split
  · rfl
  · split <;> rfl

lemma readable_releaseRecvStream (c : Connection) (id : ℕ) :
    (c.releaseRecvStream id).readable = c.readable := by
  unfold releaseRecvStream
  split
  · rfl
  · rw [dropStream_eq, readable_replenishRecvCredit]
    rfl

lemma foldl_readable {α : Type*} {step : Connection → α → Connection}
    (h : ∀ c a, (step c a).readable = c.readable) (items : List α) (c : Connection) :
    (items.foldl step c).readable = c.readable := by
  induction items generalizing c with
  | nil => rfl
  | cons a rest ih => rw [foldl_cons, ih, h]

lemma readable_takeReadable (c : Connection) : c.takeReadable.readable = [] := by
  unfold takeReadable
  rw [foldl_readable readable_releaseRecvStream, foldl_readable fun c id => readable_consume _ c id _]

lemma Accounts.takeReadable (h : Accounts c (eventBytes c.readable) 0 seen) :
    Grows c c.takeReadable ∧ Accounts c.takeReadable (eventBytes c.takeReadable.readable) 0 seen := by
  set ids := (c.readable.map Prod.fst).dedup
  set finished := ((c.readable.filter (·.2.2)).map Prod.fst).dedup
  have hstart : Accounts { c with readable := [] } (eventBytes c.readable) 0 seen :=
    { h with streams := fun id s hs => { h.streams id s hs with } }
  obtain ⟨hgrows, hread⟩ := hstart.consumeAll finished (nodup_dedup _) fun id _ => rfl
  have hzero : Accounts (ids.foldl (fun c' id => c'.consume finished id (eventBytes c.readable id))
      { c with readable := [] }) (fun _ => 0) 0 seen := by
    refine hread.mono fun id => zero_le _
  obtain ⟨hgrows', hreleased⟩ := hzero.releaseAll finished fun _ _ => rfl
  rw [readable_takeReadable]
  have hfirst : Grows c { c with readable := [] } := { Grows.refl c with }
  have hall := hfirst.trans (hgrows.trans hgrows')
  exact ⟨{ hall with },
    { hreleased with streams := fun id s hs => { hreleased.streams id s hs with } }⟩

lemma eventBytes_filter_le (keep : ℕ × Bytes × Bool → Bool) (events : List (ℕ × Bytes × Bool))
    (id : ℕ) : eventBytes (events.filter keep) id ≤ eventBytes events id := by
  refine Sublist.sum_le_sum ?_ fun _ _ => zero_le _
  exact (filter_sublist.filter _).map _

lemma eventBytes_filter_eq_zero {keep : ℕ × Bytes × Bool → Bool}
    {events : List (ℕ × Bytes × Bool)} (h : ∀ event, event.1 = id → keep event = false) :
    eventBytes (events.filter keep) id = 0 := by
  refine eventBytes_of_notMem fun hmem => ?_
  obtain ⟨event, hevent, rfl⟩ := mem_map.mp hmem
  have := (mem_filter.mp hevent).2
  rw [h event rfl] at this
  cases this

lemma Accounts.takeStreamRequests (h : Accounts c (eventBytes c.readable) 0 seen) :
    Grows c c.takeStreamRequests ∧
      Accounts c.takeStreamRequests (eventBytes c.takeStreamRequests.readable) 0 seen := by
  set ids := c.completedStreams.map Prod.fst
  set kept := c.readable.filter (·.1 ∉ ids)
  have hreadable : c.takeStreamRequests.readable = kept := by
    unfold Connection.takeStreamRequests
    rw [foldl_readable readable_releaseRecvStream]
  have hstart : Accounts { c with completedStreams := [], readable := kept } (eventBytes kept) 0
      seen := by
    have hmono := h.mono fun id => eventBytes_filter_le (·.1 ∉ ids) c.readable id
    exact { hmono with streams := fun id s hs => { hmono.streams id s hs with } }
  obtain ⟨hgrows, hreleased⟩ := hstart.releaseAll ids fun id hid =>
    eventBytes_filter_eq_zero fun event hevent => by simp [hevent, hid]
  have hfirst : Grows c { c with completedStreams := [], readable := kept } := { Grows.refl c with }
  rw [hreadable]
  exact ⟨hfirst.trans hgrows, hreleased⟩

/-- How a frame of the peer moves the accounts: `seen` grows for its stream only, and up to the end
of the frame. -/
structure Moved (c c' : Connection) (seen : ℕ →₀ ℕ) (id stop : ℕ) : Prop where
  grows : Grows c c'
  accounts : ∃ seen' : ℕ →₀ ℕ, Accounts c' (eventBytes c'.readable) 0 seen' ∧
    ∀ other, seen' other = seen other ∨ other = id ∧ seen' other = stop

section

variable (h : Accounts c (eventBytes c.readable) 0 seen)
include h

lemma Accounts.moved (id stop : ℕ) : Moved c c seen id stop := ⟨.refl c, seen, h, fun _ => .inl rfl⟩

lemma Accounts.resetStream {errorCode finalSize : ℕ} (hopen : c.recvStreamClosed id = false)
    (hfinal : (c.streamAt id).highestOffset ≤ finalSize)
    (htotal : c.recvTotalHighest + (finalSize - (c.streamAt id).highestOffset) ≤ c.localMaxData) :
    Moved c (c.resetStream id errorCode finalSize) seen id finalSize := by
  set kept := c.readable.filter (·.1 ≠ id)
  set base : Connection := { c with
    readable := kept
    completedStreams := c.completedStreams.filter (·.1 ≠ id)
    resetStreams := c.resetStreams ++ [(id, errorCode)] }
  have hstart : Accounts base (eventBytes kept) 0 seen := by
    have hmono := h.mono fun other => eventBytes_filter_le (·.1 ≠ id) c.readable other
    exact { hmono with streams := fun other s hs => { hmono.streams other s hs with } }
  have hdue : eventBytes kept id = 0 :=
    eventBytes_filter_eq_zero fun event hevent => by simp [hevent]
  have hclose := hstart.closeStream hopen hdue hfinal htotal
  obtain ⟨hgrows, haccounts⟩ := hclose.replenishRecvCredit (c.role.peer.opens id) (isUni id)
  have hfirst : Grows c base := { Grows.refl c with }
  refine ⟨hfirst.trans ((grows_closeStream _ _ _).trans hgrows), seen.update id finalSize, ?_,
    fun other => ?_⟩
  · have hreadable : (c.resetStream id errorCode finalSize).readable = kept :=
      readable_replenishRecvCredit _ _ _ _
    rw [hreadable]
    exact haccounts
  · by_cases hother : other = id
    · exact .inr ⟨hother, by rw [Finsupp.update_apply, if_pos hother]⟩
    · exact .inl (by rw [Finsupp.update_apply, if_neg hother])

lemma Accounts.onResetStream (id errorCode finalSize : ℕ) :
    Moved c (c.onResetStream id errorCode finalSize).2 seen id finalSize := by
  have hsame := h.moved id finalSize
  unfold Connection.onResetStream
  split
  · exact hsame
  rename_i hopen
  split
  · exact hsame
  simp only
  split
  · exact hsame
  split
  · exact hsame
  split
  · exact hsame
  rename_i hfinal
  split
  · exact hsame
  rename_i htotal
  exact h.resetStream (by simpa using hopen) (not_lt.mp (not_or.mp hfinal).2) (not_lt.mp htotal)

end

end

end Connection

end OnetDns.Quic
