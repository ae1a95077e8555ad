import OnetDns.Quic.Accounts

/-!
# Receiving a frame

`on_stream` within a limit: what it does to the stream, to the accounts, and which
errors are possible. Besides data that contradicts itself, only the bounds on open
streams and on fragments of a stream can refuse a frame that is within the limits.
-/
namespace OnetDns.Quic
open Function List

/-- A stream between two frames. -/
structure StreamRecv.Wf (s : StreamRecv) : Prop where
  asm : s.asm.Wf
  recvOffset : s.asm.recvOffset ≤ s.highestOffset
  pending : ∀ f ∈ s.asm.pending, f.stop ≤ s.highestOffset
  buf : s.buf.length ≤ s.asm.recvOffset

open StreamRecv

/-- A stream after `accept`. -/
structure StreamRecv.Accepted (s s' : StreamRecv) (delivered : ℕ) : Prop where
  wf : s'.Wf
  highestOffset : s'.highestOffset = s.highestOffset
  appConsumed : s'.appConsumed = s.appConsumed
  recvOffset : s.asm.recvOffset + delivered = s'.asm.recvOffset

variable {s : StreamRecv}

lemma StreamRecv.Accepted.refl (h : s.Wf) : s.Accepted s 0 := ⟨h, rfl, rfl, rfl⟩

variable {s' : StreamRecv}

lemma StreamRecv.Accepted.trans {s'' : StreamRecv} {n : ℕ} (h : s.Accepted s' n)
    (h' : s'.Accepted s'' 0) : s.Accepted s'' n :=
  ⟨h'.wf, h'.highestOffset.trans h.highestOffset, h'.appConsumed.trans h.appConsumed,
    h.recvOffset.trans h'.recvOffset⟩

variable {newly : Bytes}

lemma StreamRecv.deliver_accepted (h : s.Wf) {piece : Fragment} {asm : Reasm}
    (hpush : Reasm.Advanced s.asm piece newly asm) (hpiece : piece.stop ≤ s.highestOffset) :
    s.Accepted (s.deliver newly asm) newly.length := by
  obtain ⟨hrecv, hpending⟩ := hpush.limit s.highestOffset h.recvOffset hpiece h.pending
  refine ⟨⟨hpush.wf, hrecv, hpending, ?_⟩, rfl, rfl, hpush.recvOffset.symm⟩
  have hbuf := h.buf
  have hoffset := hpush.recvOffset
  simp only [deliver, length_append]
  omega

lemma StreamRecv.deliver_nothing (h : s.Wf) : s.Accepted (s.deliver [] s.asm) 0 := by
  refine ⟨{ h with buf := ?_ }, rfl, rfl, rfl⟩
  simpa [deliver] using h.buf

/-- The cases of `accept`, for a frame that ends in front of what the stream is charged for. -/
theorem StreamRecv.accept_cases (h : s.Wf) {offset limit : ℕ} {data : Bytes} (fin : Bool)
    (hstop : offset + data.length ≤ s.highestOffset) (hlimit : s.highestOffset ≤ limit) :
    (s.accept offset fin data limit = (.error .frame, s) ∧ ¬s.asm.Fits offset data) ∨
    (s.accept offset fin data limit = (.error .flowControl, s) ∧
      s.asm.crowded offset (offset + data.length) = true) ∨
    ∃ newly asm, s.accept offset fin data limit =
        (s.deliver newly asm).finish newly fin (offset + data.length) ∧
      s.asm.push offset data limit = .ok (newly, asm) ∧
      s.Accepted (s.deliver newly asm) newly.length := by
  have hpending : ∀ f ∈ s.asm.pending, f.stop ≤ limit := fun f hf => (h.pending f hf).trans hlimit
  have hroom : ∀ newly asm, s.Accepted (s.deliver newly asm) newly.length →
      ¬limit < s.buf.length + newly.length := by
    intro newly asm haccepted
    have hbuf := haccepted.wf.buf
    have hrecv := haccepted.wf.recvOffset
    simp only [deliver, length_append] at hbuf hrecv
    omega
  rcases Reasm.push_cases h.asm (hstop.trans hlimit) hpending with
    ⟨hpush, hfits⟩ | ⟨hpush, hcrowded⟩ | ⟨hpush, -⟩ | ⟨newly, asm, hpush, hnew, hadvanced⟩
  · exact .inl ⟨by rw [accept, hpush], hfits⟩
  · exact .inr (.inl ⟨by rw [accept, hpush], hcrowded⟩)
  · have haccepted := deliver_nothing h
    refine .inr (.inr ⟨[], s.asm, ?_, hpush, haccepted⟩)
    rw [accept, hpush]
    simp only
    rw [if_neg (hroom [] s.asm haccepted)]
  have hpiece : (⟨max offset s.asm.recvOffset,
      data.drop (max offset s.asm.recvOffset - offset)⟩ : Fragment).stop ≤ s.highestOffset := by
    simp only [Fragment.stop, length_drop]
    omega
  have haccepted := deliver_accepted h hadvanced hpiece
  refine .inr (.inr ⟨newly, asm, ?_, hpush, haccepted⟩)
  rw [accept, hpush]
  simp only
  rw [if_neg (hroom newly asm haccepted)]

lemma StreamRecv.finish_cases (h : s.Wf) (newly : Bytes) (fin : Bool) (stop : ℕ) :
    (s.finish newly fin stop = (.error .frame, s) ∧ fin = true ∧
      (stop < s.highestOffset ∨ stop < s.asm.recvOffset ∨ s.finOffset.any (· ≠ stop) = true)) ∨
    ∃ finNow whole s', s.finish newly fin stop = (.ok (newly, finNow, whole), s') ∧
      s.Accepted s' 0 ∧ s'.asm = s.asm ∧ s'.finOffset = (if fin then some stop else s.finOffset) ∧
      finNow = (s'.finOffset == some s'.asm.recvOffset) := by
  have hdone : ∀ t : StreamRecv, t.Wf → t.asm = s.asm → t.highestOffset = s.highestOffset →
      t.appConsumed = s.appConsumed →
      s.Accepted t 0 ∧ s.Accepted { t with done := true, buf := [] } 0 := by
    intro t ht hasm hhighest hconsumed
    exact ⟨⟨ht, hhighest, hconsumed, by rw [hasm, add_zero]⟩,
      ⟨{ ht with buf := Nat.zero_le _ }, hhighest, hconsumed, by rw [hasm, add_zero]⟩⟩
  unfold finish
  cases fin with
  | false =>
    obtain ⟨hsame, hcleared⟩ := hdone s h rfl rfl rfl
    refine .inr ?_
    simp only [Bool.false_eq_true, if_false]
    split
    · exact ⟨_, _, _, rfl, hcleared, rfl, rfl, rfl⟩
    · exact ⟨_, _, _, rfl, hsame, rfl, rfl, rfl⟩
  | true =>
    simp only [if_true]
    unfold close
    by_cases hearly : stop < s.highestOffset ∨ stop < s.asm.recvOffset
    · exact .inl ⟨by rw [if_pos hearly], trivial, hearly.imp_right .inl⟩
    rw [if_neg hearly]
    by_cases hother : s.finOffset.any (· ≠ stop) = true
    · exact .inl ⟨by rw [if_pos hother], trivial, .inr (.inr hother)⟩
    rw [if_neg hother]
    obtain ⟨hsame, hcleared⟩ := hdone { s with finOffset := some stop } { h with } rfl rfl rfl
    refine .inr ?_
    simp only
    split
    · exact ⟨_, _, _, rfl, hcleared, rfl, rfl, rfl⟩
    · exact ⟨_, _, _, rfl, hsame, rfl, rfl, rfl⟩

namespace Connection

variable {c : Connection} {due : ℕ → ℕ} {seen : ℕ →₀ ℕ} {id stop : ℕ} {s : StreamRecv}

lemma StreamInv.streamWf (h : StreamInv c due id s) : s.Wf := { h with asm := h.wf }

/-- The frames that `on_stream` refuses although the peer may send them: one more stream than may
be open at once, or one more fragment than a stream may wait with. -/
structure Refusal (c : Connection) (id offset stop : ℕ) (result : Except QuicError Unit) : Prop where
  flowControl : result = .error .flowControl → (c.streamAt id).asm.crowded offset stop = true
  streamLimit : result = .error .streamLimit →
    id ∉ c.streams ∧ maxStreamsHard ≤ c.streams.keys.length

/-- The peer may send this much on the stream. -/
structure Within (c : Connection) (id stop : ℕ) : Prop where
  mayReceive : c.mayReceive id = true
  limit : stop ≤ c.recvLimit id
  total : c.recvTotalHighest + (stop - (c.streamAt id).highestOffset) ≤ c.localMaxData

lemma refusal_of_ok (id offset stop : ℕ) : Refusal c id offset stop (.ok ()) := ⟨nofun, nofun⟩

lemma refusal_of_frame (id offset stop : ℕ) : Refusal c id offset stop (.error .frame) :=
  ⟨nofun, nofun⟩

lemma eventBytes_append (events events' : List (ℕ × Bytes × Bool)) (id : ℕ) :
    eventBytes (events ++ events') id = eventBytes events id + eventBytes events' id := by
  simp [eventBytes]

lemma readable_ensureRecvStreamCredit (c : Connection) (id limit : ℕ) :
    (c.ensureRecvStreamCredit id limit).readable = c.readable := by
  unfold ensureRecvStreamCredit
  split
  · rfl
  · simp only
    split <;> rfl

/-- The bytes of a stream become readable. -/
theorem Accounts.publish
    (h : Accounts c (Function.update (eventBytes c.readable) id (eventBytes c.readable id +
      newly.length)) 0 seen) (finNow : Bool) (whole : Option Bytes) :
    Grows c (c.publish id (c.recvLimit id) newly finNow whole) ∧
      Accounts (c.publish id (c.recvLimit id) newly finNow whole)
        (eventBytes (c.publish id (c.recvLimit id) newly finNow whole).readable) 0 seen := by
  obtain ⟨hgrows, haccounts⟩ := h.ensureRecvStreamCredit id
  have hevents : eventBytes (c.publish id (c.recvLimit id) newly finNow whole).readable =
      Function.update (eventBytes c.readable) id (eventBytes c.readable id + newly.length) := by
    funext other
    rw [Connection.publish]
    rw [readable_ensureRecvStreamCredit, eventBytes_append]
    by_cases hother : other = id
    · subst hother
      rw [update_self]
      split
      · rename_i hnone
        rw [Bool.and_eq_true, List.isEmpty_iff] at hnone
        rw [hnone.1]
        rfl
      · simp [eventBytes]
    · rw [update_of_ne hother]
      split
      · rfl
      · simp [eventBytes, Ne.symm hother]
  rw [hevents]
  exact ⟨{ hgrows with },
    { haccounts with streams := fun other s hs => { haccounts.streams other s hs with } }⟩

lemma Accounts.enter (h : Accounts c due 0 seen) (hopen : c.recvStreamClosed id = false) :
    Accounts { c with streams := c.streams.insert id (c.streamAt id) } due 0 seen := by
  have hupdate : Accounts { c with streams := c.streams.insert id (c.streamAt id) } due 0
      (seen.update id (c.streamAt id).highestOffset) :=
    h.update (h.streamAt hopen) (fun _ _ => rfl) rfl rfl h.totalLe h.credit h.held
  rw [← h.seen_streamAt hopen, Finsupp.update_self] at hupdate
  exact hupdate

/-- What `charge` leaves for the rest of `on_stream`. -/
structure Charged (c c' : Connection) (due : ℕ → ℕ) (seen : ℕ →₀ ℕ) (id stop : ℕ)
    (s : StreamRecv) : Prop where
  grows : Grows c c'
  readable : c'.readable = c.readable
  recvLimit : c'.recvLimit id = c.recvLimit id
  wf : s.Wf
  highestOffset : s.highestOffset = max (c.streamAt id).highestOffset stop
  asm : s.asm = (c.streamAt id).asm
  finOffset : s.finOffset = (c.streamAt id).finOffset
  accounts : ∀ s' n, s.Accepted s' n →
    Accounts { c' with streams := c'.streams.insert id s' }
      (Function.update due id (due id + n)) 0 (seen.update id s.highestOffset)

lemma StreamInv.accepted {n : ℕ} (h : StreamInv c due id s)
    (haccepted : s.Accepted s' n) : StreamInv c (Function.update due id (due id + n)) id s' where
  isOpen := h.isOpen
  wf := haccepted.wf.asm
  recvOffset := haccepted.wf.recvOffset
  pending := haccepted.wf.pending
  buf := haccepted.wf.buf
  consumed := by
    have hconsumed := h.consumed
    have hrecv := haccepted.recvOffset
    rw [update_self, haccepted.appConsumed]
    omega
  limit := by
    rw [haccepted.highestOffset]
    exact h.limit

variable {c' : Connection}

lemma Accounts.charge (h : Accounts c due 0 seen) (hopen : c.recvStreamClosed id = false)
    (hlimit : stop ≤ c.recvLimit id) (hcharge : c.charge (c.streamAt id) stop = some (c', s)) :
    Charged c c' due seen id stop s := by
  have hinv := h.streamAt hopen
  have hother : ∀ n other, other ≠ id → Function.update due id (due id + n) other = due other :=
    fun n other hne => update_of_ne hne _ _
  have hcredit := h.credit
  have hheld := h.held
  unfold Connection.charge at hcharge
  split at hcharge
  · rename_i hold
    cases hcharge
    refine ⟨.refl c, rfl, rfl, hinv.streamWf, (max_eq_left hold).symm, rfl, rfl,
      fun s' n haccepted => ?_⟩
    rw [← haccepted.highestOffset]
    refine h.update (hinv.accepted haccepted) (hother n) ?_ ?_ h.totalLe h.credit h.held
    · rw [unread, unread, haccepted.highestOffset, haccepted.appConsumed]
    · rw [haccepted.highestOffset]
  simp only at hcharge
  split at hcharge
  · cases hcharge
  rename_i hroom
  cases hcharge
  rw [not_or, not_lt] at hroom
  have hconsumed := hinv.consumed
  have hrecv := hinv.recvOffset
  have hraised : StreamInv c due id { c.streamAt id with highestOffset := stop } :=
    { hinv with
      recvOffset := hinv.recvOffset.trans (by simp only; omega)
      pending := fun f hf => (hinv.pending f hf).trans (by simp only; omega)
      limit := hlimit }
  refine ⟨{ Grows.refl c with }, rfl, rfl, hraised.streamWf,
    by simp only; omega, rfl, rfl, fun s' n haccepted => ?_⟩
  have hhighest := haccepted.highestOffset
  simp only at hhighest
  have hseen : seen.update id stop = seen.update id s'.highestOffset := by rw [hhighest]
  simp only
  rw [hseen]
  refine h.update (hraised.accepted haccepted) (hother n) ?_ ?_ hroom.1 ?_ ?_
  · rw [unread, unread, haccepted.appConsumed]
    simp only
    omega
  · omega
  · omega
  · omega

lemma charge_isSome (h : Accounts c due 0 seen) (hwithin : Within c id stop) :
    (c.charge (c.streamAt id) stop).isSome = true := by
  have hcredit := h.credit
  have htotal := hwithin.total
  unfold charge
  split
  · rfl
  · rw [if_neg]
    · rfl
    · omega

lemma streamAt_enter (c : Connection) (id : ℕ) (s : StreamRecv) :
    ({ c with streams := c.streams.insert id s } : Connection).streamAt id = s := by
  rw [streamAt, AList.lookup_insert, Option.getD_some]

lemma seen_update {highest : ℕ} (hid : seen id = highest) (other : ℕ) :
    seen.update id (max highest stop) other = seen other ∨
      other = id ∧ seen.update id (max highest stop) other = stop := by
  rw [Finsupp.update_apply]
  by_cases hother : other = id
  · rw [if_pos hother]
    rcases le_total stop highest with hle | hle
    · rw [max_eq_left hle, hother, hid]
      exact .inl rfl
    · rw [max_eq_right hle]
      exact .inr ⟨hother, rfl⟩
  · rw [if_neg hother]
    exact .inl rfl

/-- The connection with an entry for the stream. -/
def entered (c : Connection) (id : ℕ) : Connection :=
  { c with streams := c.streams.insert id (c.streamAt id) }

lemma receiveData_eq (c : Connection) (id offset : ℕ) (fin : Bool) (data : Bytes) (limit : ℕ) :
    c.receiveData id offset fin data limit =
      if (c.streamAt id).finOffset.any (· < offset + data.length) then (.error .frame, c.entered id)
      else
        match (c.entered id).charge (c.streamAt id) (offset + data.length) with
        | none => (.error .flowControl, c.entered id)
        | some (c, stream) => c.settle id limit (stream.accept offset fin data limit) := rfl

lemma streamAt_entered (c : Connection) (id : ℕ) :
    (c.entered id).streamAt id = c.streamAt id := streamAt_enter c id _

section Settle

variable {c₀ : Connection} {id offset : ℕ} {data : Bytes} {s : StreamRecv}

/-- The stream goes back, and nothing of it becomes readable. -/
theorem Charged.store {stop n : ℕ} (h : Charged c₀ c (eventBytes c₀.readable) seen id stop s) (haccepted : s.Accepted s' n) :
    Grows c₀ { c with streams := c.streams.insert id s' } ∧
      Accounts { c with streams := c.streams.insert id s' } (eventBytes c.readable) 0
        (seen.update id s.highestOffset) := by
  refine ⟨h.grows.trans { Grows.refl c with }, (h.accounts s' n haccepted).mono fun other => ?_⟩
  rw [h.readable]
  by_cases hother : other = id
  · rw [hother, update_self]
    exact Nat.le_add_right _ _
  · rw [update_of_ne hother]

lemma Charged.publish {stop : ℕ} (h : Charged c₀ c (eventBytes c₀.readable) seen id stop s)
    (haccepted : s.Accepted s' newly.length) (finNow : Bool) (whole : Option Bytes)
    (hc' : c' = ({ c with streams := c.streams.insert id s' } : Connection).publish id
      (c₀.recvLimit id) newly finNow whole) :
    Grows c₀ c' ∧ Accounts c' (eventBytes c'.readable) 0 (seen.update id s.highestOffset) := by
  set d : Connection := { c with streams := c.streams.insert id s' }
  have hgrows : Grows c₀ d := h.grows.trans { Grows.refl c with }
  have haccounts := h.accounts s' newly.length haccepted
  have hreadable : d.readable = c₀.readable := h.readable
  have hlimit : d.recvLimit id = c₀.recvLimit id := h.recvLimit
  rw [← hreadable] at haccounts
  obtain ⟨hgrows', haccounts'⟩ := Accounts.publish haccounts finNow whole
  rw [hlimit, ← hc'] at hgrows' haccounts'
  exact ⟨hgrows.trans hgrows', haccounts'⟩

/-- The rest of `on_stream` once the frame is charged for. -/
theorem Charged.settle (fin : Bool)
    (h : Charged c₀ c (eventBytes c₀.readable) seen id (offset + data.length) s)
    (hstop : offset + data.length ≤ c₀.recvLimit id)
    (hhighest : (c₀.streamAt id).highestOffset ≤ c₀.recvLimit id) :
    Grows c₀ (c.settle id (c₀.recvLimit id) (s.accept offset fin data (c₀.recvLimit id))).2 ∧
    Accounts (c.settle id (c₀.recvLimit id) (s.accept offset fin data (c₀.recvLimit id))).2
      (eventBytes (c.settle id (c₀.recvLimit id)
        (s.accept offset fin data (c₀.recvLimit id))).2.readable) 0
      (seen.update id s.highestOffset) ∧
    Refusal c₀ id offset (offset + data.length)
      (c.settle id (c₀.recvLimit id) (s.accept offset fin data (c₀.recvLimit id))).1 := by
  have hle : offset + data.length ≤ s.highestOffset := by
    rw [h.highestOffset]
    exact le_max_right _ _
  have hlimit : s.highestOffset ≤ c₀.recvLimit id := by
    rw [h.highestOffset]
    exact max_le hhighest hstop
  rcases accept_cases h.wf fin hle hlimit with
    ⟨haccept, -⟩ | ⟨haccept, hcrowded⟩ | ⟨newly, asm, haccept, -, hdeliver⟩
  · obtain ⟨hgrows, haccounts⟩ := h.store (.refl h.wf)
    rw [haccept]
    exact ⟨hgrows, haccounts, refusal_of_frame _ _ _⟩
  · obtain ⟨hgrows, haccounts⟩ := h.store (.refl h.wf)
    rw [haccept]
    rw [h.asm] at hcrowded
    exact ⟨hgrows, haccounts, fun _ => hcrowded, nofun⟩
  rcases finish_cases hdeliver.wf newly fin (offset + data.length) with
    ⟨hfinish, -, -⟩ | ⟨finNow, whole, s', hfinish, hfinished, -, -, -⟩
  · obtain ⟨hgrows, haccounts⟩ := h.store hdeliver
    rw [haccept, hfinish]
    exact ⟨hgrows, haccounts, refusal_of_frame _ _ _⟩
  · obtain ⟨hgrows, haccounts⟩ := h.publish (hdeliver.trans hfinished) finNow whole rfl
    rw [haccept, hfinish]
    exact ⟨hgrows, haccounts, refusal_of_ok _ _ _⟩

end Settle

lemma Accounts.receiveData (h : Accounts c (eventBytes c.readable) 0 seen) {offset : ℕ}
    {data : Bytes} (fin : Bool) (hopen : c.recvStreamClosed id = false)
    (hlimit : offset + data.length ≤ c.recvLimit id) :
    Moved c (c.receiveData id offset fin data (c.recvLimit id)).2 seen id (offset + data.length) ∧
      (Within c id (offset + data.length) → Refusal c id offset (offset + data.length)
        (c.receiveData id offset fin data (c.recvLimit id)).1) := by
  have henter : Accounts (c.entered id) (eventBytes c.readable) 0 seen := h.enter hopen
  have hgrows : Grows c (c.entered id) := { Grows.refl c with }
  have hat := streamAt_entered c id
  have hseen : seen id = (c.streamAt id).highestOffset := h.seen_streamAt hopen
  have hmoved : Moved c (c.entered id) seen id (offset + data.length) :=
    ⟨hgrows, seen, henter, fun _ => .inl rfl⟩
  rw [receiveData_eq]
  split
  · exact ⟨hmoved, fun _ => refusal_of_frame _ _ _⟩
  split
  · rename_i hcharge
    refine ⟨hmoved, fun hwithin => ?_⟩
    have hwithin' : Within (c.entered id) id (offset + data.length) :=
      ⟨hwithin.mayReceive, hwithin.limit, by rw [hat]; exact hwithin.total⟩
    have hsome := charge_isSome henter hwithin'
    rw [hat, hcharge] at hsome
    cases hsome
  rename_i c' s hcharge
  rw [← hat] at hcharge
  have hcharged := henter.charge hopen hlimit hcharge
  have hhighest : ((c.entered id).streamAt id).highestOffset ≤ (c.entered id).recvLimit id :=
    (henter.streamAt hopen).limit
  obtain ⟨hsettled, haccounts, hrefusal⟩ := hcharged.settle fin hlimit hhighest
  refine ⟨⟨hgrows.trans hsettled, _, haccounts, fun other => ?_⟩, fun _ => ?_⟩
  · rw [hcharged.highestOffset, hat]
    exact seen_update hseen other
  refine ⟨fun hflow => ?_, fun hstream => ?_⟩
  · rw [← hat]
    exact hrefusal.flowControl hflow
  · have hmem : id ∈ (c.entered id).streams := (AList.mem_insert _).mpr (.inl rfl)
    exact absurd hmem (hrefusal.streamLimit hstream).1

lemma Accounts.onStream (h : Accounts c (eventBytes c.readable) 0 seen) (id offset : ℕ)
    (fin : Bool) (data : Bytes) :
    Moved c (c.onStream id offset fin data).2 seen id (offset + data.length) ∧
      (Within c id (offset + data.length) → Refusal c id offset (offset + data.length)
        (c.onStream id offset fin data).1) := by
  have hsame := h.moved id (offset + data.length)
  unfold Connection.onStream
  split
  · exact ⟨hsame, fun _ => refusal_of_ok _ _ _⟩
  rename_i hopen
  rw [Bool.not_eq_true] at hopen
  unfold recvStreamProperties
  by_cases hmay : c.mayReceive id = true
  · rw [if_pos hmay]
    simp only
    split
    · exact ⟨hsame, fun hwithin => absurd hwithin.limit (by omega)⟩
    split
    · rename_i hfull
      exact ⟨hsame, fun _ => ⟨nofun, fun _ => hfull⟩⟩
    · exact h.receiveData fin hopen (by omega)
  · rw [if_neg hmay]
    exact ⟨hsame, fun hwithin => absurd hwithin.mayReceive hmay⟩

/-- What `on_reset_stream` refuses of a peer within its limits: a reset on top of as many as may
wait for the application. -/
theorem onResetStream_refusal {finalSize : ℕ} (hwithin : Within c id finalSize) (errorCode : ℕ) :
    (c.onResetStream id errorCode finalSize).1 ≠ .error .flowControl ∧
      ((c.onResetStream id errorCode finalSize).1 = .error .streamLimit →
        maxStreamsHard ≤ c.resetStreams.length) := by
  unfold onResetStream
  split
  · exact ⟨nofun, nofun⟩
  unfold recvStreamProperties
  rw [if_pos hwithin.mayReceive]
  simp only
  rw [if_neg (by have := hwithin.limit; omega)]
  split
  · rename_i hfull
    exact ⟨nofun, fun _ => hfull⟩
  split
  · exact ⟨nofun, nofun⟩
  split
  · rename_i hover
    exact absurd hover (not_lt.mpr hwithin.total)
  · exact ⟨nofun, nofun⟩

lemma Accounts.quiet (h : Accounts c (eventBytes c.readable) 0 seen)
    (hquiet : Quiet c c') : Accounts c' (eventBytes c'.readable) 0 seen := by
  have hclosed := hquiet.recvStreamClosed
  have hlimit := hquiet.recvLimit
  obtain ⟨hrole, htp, hstreams, -, htotal, hbuffered, hmax, -, hbidi, huni, hreadable, -, -⟩ := hquiet
  rw [hreadable]
  refine ⟨fun id s hs => ?_, ?_, ?_, ?_, ?_, ?_, ?_, ?_, ?_, ?_, ?_, ?_, ?_, ?_, ?_⟩
  · rw [hstreams] at hs
    have hinv := h.streams id s hs
    exact { hinv with isOpen := by rw [hclosed, hinv.isOpen], limit := by rw [hlimit]; exact hinv.limit }
  · rw [hstreams]
    exact h.idle
  · rw [hstreams]
    exact h.seenOpen
  · intro id hid hopen
    rw [hstreams] at hid
    rw [hclosed] at hopen
    exact h.seenNew id hid hopen
  · rw [htotal, h.total]
  · rw [hbuffered, hstreams, h.buffered]
  · rw [htotal, hmax]
    exact h.totalLe
  · rw [htotal, hmax, hbuffered]
    exact h.credit
  · rw [htotal, hbuffered]
    exact h.held
  · rw [hmax]
    exact h.maxData
  · rw [hbidi]
    exact h.bidi
  · rw [huni]
    exact h.uni
  · rw [htp]
    exact h.tpBidiLocal
  · rw [htp]
    exact h.tpBidiRemote
  · rw [htp]
    exact h.tpUni

lemma Accounts.openWindow (h : Accounts c (eventBytes c.readable) 0 seen) :
    Grows c c.openWindow ∧ Accounts c.openWindow (eventBytes c.openWindow.readable) 0 seen := by
  unfold Connection.openWindow
  split
  · rename_i hlow
    have hraise : Grows c { c with localMaxData := maxConnectionReassembly } :=
      { Grows.refl c with maxData := hlow.le, frames := fun f hf => .inl hf }
    refine ⟨hraise.queue le_rfl, { h with
      streams := fun id s hs => { h.streams id s hs with }
      totalLe := h.totalLe.trans hlow.le
      credit := ?_
      maxData := ?_ }⟩
    · have := h.held
      simp only [Connection.queue]
      omega
    · exact Nat.pow_le_pow_right (by norm_num) (by norm_num)
  · exact ⟨.refl c, h⟩

/-- What `completeHandshake` does besides: the queues of early data. -/
theorem quiet_completeHandshake (c : Connection) (earlyAccepted : Bool) :
    c.handshakeComplete = true ∧ c.completeHandshake earlyAccepted = c ∨
      Quiet (({ c with handshakeComplete := true } : Connection).openWindow)
        (c.completeHandshake earlyAccepted) := by
  unfold completeHandshake
  split
  · exact .inl ⟨‹_›, rfl⟩
  right
  simp only
  set d := ({ c with handshakeComplete := true } : Connection).openWindow
  split
  · exact quiet_queue d rfl
  split
  · refine { Quiet.refl d with frames := fun f hf => .inl ?_ }
    rcases hf with hf | hf | hf | hf | ⟨packet, hpacket, -⟩ | hf
    · rcases mem_append.mp hf with hf | hf
      · exact .inl hf
      · exact .inr (.inr (.inl hf))
    · cases hf
    · cases hf
    · cases hf
    · cases hpacket
    · exact .inr (.inr (.inr (.inr (.inr hf))))
  · refine { Quiet.refl d with frames := fun f hf => .inl ?_ }
    rcases hf with hf | hf | hf | hf
    · rcases mem_append.mp hf with hf | hf
      · exact .inl hf
      · exact .inr (.inl hf)
    · cases hf
    · cases hf
    · exact .inr (.inr (.inr hf))

end Connection

end OnetDns.Quic
