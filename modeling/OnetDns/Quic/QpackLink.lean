import OnetDns.Quic.QpackSync

/-!
# Two ends of a connection

The encoder of one end and the decoder of the other, with the bytes under way on the two
instruction streams, which arrive in order and in any pieces, and the sections, which may
arrive at any time and in any order. Whatever the two do, no instruction is refused and every
section reads as the headers it was made from.
-/
namespace OnetDns.Quic.Qpack

open OnetDns.Instructions List Option DynamicTable Decoder

/-- An encoder and the decoder of its peer. -/
structure Link where
  enc : Encoder
  dec : Decoder
  encStream : Bytes
  decStream : Bytes
  sections : List (List Field × Bytes)

/-- What may happen. A write to a stream may fail, and then its bytes are restored; a stream
number is below `2 ^ 62`, as a QUIC frame cannot carry a larger one. -/
inductive Event where
  | settings
  | encode (headers : List Field) (sent : Bool)
  | encoderPiece (len : ℕ)
  | decode (index : ℕ) (streamId : Fin (2 ^ 62))
  | flush (sent : Bool)
  | decoderPiece (len : ℕ)

namespace Link

/-- Both ends before the settings are exchanged. -/
def start (cap : ℕ) : Link := ⟨{}, Decoder.new cap, [], [], []⟩

/-- `none` when an instruction stream is rejected. -/
def step (cap : ℕ) (l : Link) : Event → Option Link
  | .settings => some { l with enc := l.enc.setPeerMaxCapacity cap }
  | .encode headers sent =>
    let (enc, bytes, told) := l.enc.encodeFieldSection headers
    some { l with
      enc := if sent then enc else enc.restoreEncoderStream told
      encStream := if sent then l.encStream ++ told else l.encStream
      sections := l.sections ++ [(headers, bytes)] }
  | .encoderPiece len => do
    let dec ← l.dec.onEncoderStream (l.encStream.take len)
    some { l with dec, encStream := l.encStream.drop len }
  | .decode index streamId =>
    match l.sections[index]? with
    | none => some l
    | some (_, bytes) => some { l with dec := (l.dec.decodeFieldSection streamId bytes).1 }
  | .flush sent =>
    let (dec, out) := l.dec.takeDecoderStream
    some { l with
      dec := if sent then dec else dec.restoreDecoderStream out
      decStream := if sent then l.decStream ++ out else l.decStream }
  | .decoderPiece len => do
    let enc ← l.enc.onDecoderStream (l.decStream.take len)
    some { l with enc, decStream := l.decStream.drop len }

def run (cap : ℕ) (l : Link) (events : List Event) : Option Link := events.foldlM (step cap) l

/-- The piece of the decoder stream, if one arrives, is within the limit of the buffer. -/
def Fits (l : Link) : Event → Prop
  | .decoderPiece len => l.enc.decBuf.length + (l.decStream.take len).length ≤ maxBuffer
  | _ => True

instance (l : Link) : (e : Event) → Decidable (l.Fits e)
  | .settings => .isTrue trivial
  | .encode _ _ => .isTrue trivial
  | .encoderPiece _ => .isTrue trivial
  | .decode _ _ => .isTrue trivial
  | .flush _ => .isTrue trivial
  | .decoderPiece _ => inferInstanceAs (Decidable (_ ≤ _))

/-- Every piece of the decoder stream is. -/
def AllFit (cap : ℕ) : Link → List Event → Prop
  | _, [] => True
  | l, e :: events => l.Fits e ∧ ∀ l' ∈ l.step cap e, AllFit cap l' events

instance decidableAllFit (cap : ℕ) : (l : Link) → (events : List Event) →
    Decidable (AllFit cap l events)
  | _, [] => .isTrue trivial
  | l, e :: events =>
    haveI : Decidable (∀ l' ∈ l.step cap e, AllFit cap l' events) :=
      match h : l.step cap e with
      | none => .isTrue fun l' hl' => by cases hl'
      | some l₁ =>
        haveI := decidableAllFit cap l₁ events
        decidable_of_iff (AllFit cap l₁ events) (by simp)
    inferInstanceAs (Decidable (_ ∧ _))

/-- The bytes of the encoder stream that the decoder has not taken. -/
def told (l : Link) : Bytes := l.dec.encBuf ++ (l.encStream ++ l.enc.out)

/-- The bytes of the decoder stream that the encoder has not taken. -/
def acked (l : Link) : Bytes := l.enc.decBuf ++ (l.decStream ++ l.dec.out)

/-- The two ends are synchronised: the bytes under way lead each end to where the other
is. -/
structure Synced (cap : ℕ) (l : Link) : Prop where
  tidy : l.enc.Tidy cap
  cap_eq : l.dec.maxCapacity = cap
  sound : l.dec.table.Sound cap
  pending : drain (lookInstruction cap) l.dec.table l.told = some (l.enc.table, [])
  short : l.told.length ≤ 3 + l.enc.table.size
  quiet : l.enc.capacitySent = false → l.told = []
  acks : drain (lookAcknowledgement l.enc.table.insertCount) l.enc.knownReceived l.acked =
    some (l.dec.table.insertCount, [])
  reads : ∀ s ∈ l.sections, Within s.1 → ∃ ric ≤ l.dec.table.insertCount,
    Reads cap (l.enc.table.entries.take ric) s.1 s.2

lemma start_synced (cap : ℕ) : Synced cap (start cap) where
  tidy := ⟨rfl, rfl, le_rfl, Nat.zero_le _, Nat.zero_le _, fun h => absurd h (by simp [start]),
    fun _ => rfl⟩
  cap_eq := rfl
  sound := sound_empty cap
  pending := rfl
  short := Nat.zero_le _
  quiet _ := rfl
  acks := rfl
  reads := by simp [start]

section Kept

variable {cap : ℕ} {l : Link}

section

variable (h : Synced cap l)
include h

lemma Synced.slides : l.dec.table.Slides l.enc.table := (drain_sound h.sound h.pending).2

lemma Synced.prefix_entries : l.dec.table.insertCount = l.dec.table.entries.length ∧
      l.dec.table.entries <+: l.enc.table.entries := by
  obtain ⟨added, dropped, heq, hcount⟩ := h.slides
  have hold := DynamicTable.Slides.oldest_eq h.sound.counted heq hcount
  have hcounted := h.sound.counted
  have henc := h.tidy.counted
  simp only [DynamicTable.oldest] at hold
  have hnone : dropped = [] := length_eq_zero_iff.1 (by omega)
  subst hnone
  exact ⟨by omega, added, heq⟩

lemma Synced.insertCount_le :
    l.dec.table.insertCount ≤ l.enc.table.insertCount := h.slides.insertCount_le

lemma Synced.insertCount_small : l.enc.table.insertCount ≤ 128 := by
  have hlen := overhead_mul_length_le l.enc.table.entries
  have hfits := h.tidy.fits
  have hours := h.tidy.ours
  rw [← h.tidy.sized] at hlen
  rw [h.tidy.counted]
  simp only [entryOverhead, ourMaxCapacity] at hlen hours
  omega

end

lemma acknowledged_le {insertCount known known' : ℕ} {buf rest : Bytes}
    (h : drain (lookAcknowledgement insertCount) known buf = some (known', rest)) :
    known ≤ known' := by
  refine drain_keeps (P := fun k => known ≤ k) (lookAcknowledgement_stable insertCount)
    (fun s buf s' rest hs hlook => ?_) le_rfl h
  obtain ⟨ack, -, happly⟩ := lookWith_take_iff.1 hlook
  cases ack with
  | processed streamId => exact hs.trans (some.inj happly).le
  | cancel streamId => exact hs.trans (some.inj happly).le
  | increment inc =>
    simp only [acknowledge] at happly
    split_ifs at happly
    have := some.inj happly
    omega

lemma Synced.known_le (h : Synced cap l) : l.enc.knownReceived ≤ l.dec.table.insertCount :=
  acknowledged_le h.acks

/-- An encoder that has inserted more refuses no acknowledgement it would have taken. -/
theorem acknowledge_mono {insertCount insertCount' known : ℕ} {buf : Bytes} {r : ℕ × Bytes}
    (hle : insertCount ≤ insertCount')
    (h : drain (lookAcknowledgement insertCount) known buf = some r) :
    drain (lookAcknowledgement insertCount') known buf = some r := by
  refine drain_mono (lookAcknowledgement_stable insertCount)
    (lookAcknowledgement_stable insertCount') (fun s buf s' rest hlook => ?_)
    (fun s buf hlook => ?_) h
  · obtain ⟨ack, hread, happly⟩ := lookWith_take_iff.1 hlook
    refine lookWith_take_iff.2 ⟨ack, hread, ?_⟩
    cases ack with
    | processed streamId => exact happly
    | cancel streamId => exact happly
    | increment inc =>
      simp only [acknowledge] at happly ⊢
      split_ifs at happly with h₁ h₂
      rw [if_neg h₁, if_neg (by omega)]
      exact happly
  · simp only [lookAcknowledgement, lookWith] at hlook ⊢
    split at hlook <;> try contradiction
    · rfl
    · split at hlook <;> contradiction

section

variable (h : Synced cap l)
include h

lemma Synced.settings : Synced cap { l with enc := l.enc.setPeerMaxCapacity cap } := by
  by_cases hset : 0 < min cap ourMaxCapacity ∧ l.enc.capacitySent = false
  · have hempty := h.tidy.unsent hset.2
    have hquiet := h.quiet hset.2
    have hold := h.pending
    set ours := min cap ourMaxCapacity
    have hle : ours ≤ cap := min_le_left _ _
    have hle' : ours ≤ ourMaxCapacity := min_le_right _ _
    have hdec : l.dec.table = l.enc.table := by
      rw [hquiet] at hold
      exact (Prod.mk.inj (some.inj hold)).1
    have henc : l.enc.setPeerMaxCapacity cap =
        { l.enc with
          peerMaxCapacity := cap
          out := l.enc.out ++ pushInt ours 5 0x20
          table := l.enc.table.setCapacity ours
          capacitySent := true } := by
      exact if_pos hset
    have htable : l.enc.table.setCapacity ours = { capacity := ours } := by
      rw [hempty]
      rfl
    have htold : l.dec.encBuf ++ (l.encStream ++ (l.enc.out ++ pushInt ours 5 0x20)) =
        pushInt ours 5 0x20 := by
      have : l.told ++ pushInt ours 5 0x20 = pushInt ours 5 0x20 := by rw [hquiet]; rfl
      simpa [told] using this
    rw [henc]
    refine ⟨⟨?_, ?_, ?_, ?_, ?_, fun _ => rfl, fun h => by cases h⟩, h.cap_eq, h.sound, ?_, ?_,
      fun h => (by cases h), ?_, ?_⟩
    · simp [htable]
    · simp [htable]
    · simp [htable]
    · simpa [htable] using hle'
    · simpa [htable] using hle
    · rw [told, htold, hdec]
      refine drain_one (lookInstruction_stable cap) ?_
      have := @look_capacityBytes ours l.enc.table cap [] hle
        (by simp only [ourMaxCapacity] at hle'; omega)
      rwa [append_nil] at this
    · rw [told, htold]
      have := @pushInt_length_le ours 5 0x20 (by simp only [ourMaxCapacity] at hle'; omega)
      omega
    · have hacks := h.acks
      rw [hempty] at hacks
      rw [htable]
      exact hacks
    · intro s hs hwithin
      obtain ⟨ric, hric, hreads⟩ := h.reads s hs hwithin
      rw [hempty] at hreads
      rw [htable]
      exact ⟨ric, hric, hreads⟩
  · have henc : l.enc.setPeerMaxCapacity cap = { l.enc with peerMaxCapacity := cap } := by
      exact if_neg hset
    rw [henc]
    have ht := h.tidy
    exact { h with tidy := { ht with peer := fun _ => rfl } }

/-- Planning keeps the ends synchronised, whether or not its instructions were sent. -/
theorem Synced.grown {enc enc' : Encoder} {stream : Bytes}
    (hgrown : Encoder.Grown cap l.enc enc) (hout : stream ++ enc'.out = l.encStream ++ enc.out)
    (henc : enc' = { enc with out := enc'.out }) :
    Synced cap { l with enc := enc', encStream := stream } := by
  obtain ⟨told, htold, hdrain, hlen⟩ := hgrown.told
  have hbytes : l.dec.encBuf ++ (stream ++ enc'.out) = l.told ++ told := by
    rw [hout, htold, Link.told]
    simp
  have htable : enc'.table = enc.table := by rw [henc]
  have hknown : enc'.knownReceived = l.enc.knownReceived := by rw [henc]; exact hgrown.known
  have hbuf : enc'.decBuf = l.enc.decBuf := by rw [henc]; exact hgrown.buffer
  have hsent : enc'.capacitySent = l.enc.capacitySent := by rw [henc]; exact hgrown.sent
  have ht := hgrown.tidy
  refine ⟨⟨?_, ?_, ?_, ?_, ?_, ?_, ?_⟩, h.cap_eq, h.sound, ?_, ?_, ?_, ?_, ?_⟩
  · rw [henc]; exact ht.counted
  · rw [henc]; exact ht.sized
  · rw [henc]; exact ht.fits
  · rw [henc]; exact ht.ours
  · rw [henc]; exact ht.allowed
  · rw [henc]; exact ht.peer
  · rw [henc]; exact ht.unsent
  · simp only [Link.told]
    rw [hbytes, drain_append (lookInstruction_stable cap), h.pending, htable]
    exact hdrain
  · simp only [Link.told]
    rw [hbytes, length_append, htable]
    have := h.short
    omega
  · intro hfalse
    have hold := hsent ▸ hfalse
    have hempty := ht.unsent (hgrown.sent.trans hold)
    have hsize : enc.table.size = 0 := by rw [hempty]
    simp only [Link.told]
    rw [hbytes, h.quiet hold]
    exact length_eq_zero_iff.1 (by simp only [nil_append]; omega)
  · simp only [acked, htable, hknown, hbuf]
    refine acknowledge_mono ?_ h.acks
    rw [h.tidy.counted, ht.counted]
    exact hgrown.entries.length_le
  · intro s hs hwithin
    obtain ⟨ric, hric, hreads⟩ := h.reads s hs hwithin
    refine ⟨ric, hric, ?_⟩
    obtain ⟨rest, hrest⟩ := hgrown.entries
    have hle : ric ≤ l.enc.table.entries.length := by
      have := h.insertCount_le
      rw [h.tidy.counted] at this
      omega
    rwa [htable, ← hrest, take_append_of_le_length hle]

lemma Synced.encode (headers : List Field) (sent : Bool) :
    ∃ l', l.step cap (.encode headers sent) = some l' ∧ Synced cap l' := by
  refine ⟨_, rfl, ?_⟩
  obtain ⟨hgrown, hplans⟩ := Encoder.planFields_spec h.tidy headers
  set planned := l.enc.planFields headers
  have hsynced : Synced cap
      { l with
        enc := if sent then { planned.1 with out := [] } else planned.1
        encStream := if sent then l.encStream ++ planned.1.out else l.encStream } := by
    refine h.grown hgrown ?_ ?_
    · cases sent <;> simp
    · cases sent <;> rfl
  have hrestored : (Encoder.restoreEncoderStream { planned.1 with out := [] } planned.1.out) =
      planned.1 := by
    simp [Encoder.restoreEncoderStream]
  simp only [hrestored]
  refine { hsynced with reads := ?_ }
  intro s hs hwithin
  rcases mem_append.1 hs with hold | hnew
  · exact hsynced.reads s hold hwithin
  rw [mem_singleton] at hnew
  subst hnew
  have hknown := h.known_le
  have htable : (if sent then { planned.1 with out := [] } else planned.1).table =
      planned.1.table := by cases sent <;> rfl
  have hsmall := hsynced.insertCount_small
  have hle := hsynced.insertCount_le
  simp only [htable] at hsmall hle ⊢
  refine ⟨requiredOf planned.2, (requiredOf_le hplans).trans hknown, ?_⟩
  refine reads_sectionBytes hplans (hknown.trans hle) hgrown.tidy.counted (by omega) ?_ hwithin
  intro hpos
  refine hgrown.tidy.peer ?_
  -- a plan that requires an entry was made by a table with a capacity
  have hreq := requiredOf_le hplans
  have hlen := overhead_mul_length_le planned.1.table.entries
  have hcounted := hgrown.tidy.counted
  have hfits := hgrown.tidy.fits
  rw [← hgrown.tidy.sized] at hlen
  simp only [entryOverhead] at hlen
  omega

lemma Synced.encoderPiece (len : ℕ) :
    ∃ l', l.step cap (.encoderPiece len) = some l' ∧ Synced cap l' := by
  have hstable := lookInstruction_stable cap
  have hcut : l.told = (l.dec.encBuf ++ l.encStream.take len) ++
      (l.encStream.drop len ++ l.enc.out) := by
    rw [told]
    simp only [append_assoc]
    rw [← append_assoc (l.encStream.take len), take_append_drop]
  have hpending := h.pending
  rw [hcut, drain_append hstable] at hpending
  obtain ⟨⟨t, rest⟩, hdrain, hpending⟩ := bind_eq_some_iff.1 hpending
  obtain ⟨hsound, hslides⟩ := drain_sound h.sound hdrain
  have hslides' := (drain_sound hsound hpending).2
  have hshort := h.short
  have hsize : l.enc.table.size ≤ 4096 := h.tidy.fits.trans h.tidy.ours
  have hlens := congrArg length hcut
  have hroom : ¬ maxBuffer < l.dec.encBuf.length + (l.encStream.take len).length := by
    simp only [length_append, maxBuffer] at hlens ⊢
    omega
  set inserted := t.insertCount - l.dec.table.insertCount
  have hstep : l.dec.onEncoderStream (l.encStream.take len) = some
      { l.dec with
        table := t
        encBuf := rest
        out := l.dec.out ++ if 0 < inserted then pushInt inserted 6 0 else [] } := by
    have hdrain' : drain (lookInstruction l.dec.maxCapacity) l.dec.table
        (l.dec.encBuf ++ l.encStream.take len) = some (t, rest) := by rw [h.cap_eq]; exact hdrain
    rw [onEncoderStream, if_neg hroom, hdrain']
    rfl
  refine ⟨{ l with
    dec := { l.dec with
      table := t
      encBuf := rest
      out := l.dec.out ++ if 0 < inserted then pushInt inserted 6 0 else [] }
    encStream := l.encStream.drop len }, by rw [step, hstep]; rfl, ?_⟩
  have hcount := hslides.insertCount_le
  have hcount' := hslides'.insertCount_le
  have hsmall := h.insertCount_small
  refine ⟨h.tidy, h.cap_eq, hsound, hpending, ?_, ?_, ?_, ?_⟩
  · have hrest := drain_length hstable hdrain
    simp only [told, length_append] at hlens hshort hrest ⊢
    omega
  · intro hfalse
    have hnone := h.quiet hfalse
    rw [hcut] at hnone
    obtain ⟨hfirst, hsecond⟩ := append_eq_nil_iff.1 hnone
    rw [hfirst] at hdrain
    obtain ⟨-, hrest⟩ := Prod.mk.inj (some.inj hdrain)
    simp only [← hrest]
    exact hsecond
  · have hacked : l.enc.decBuf ++ (l.decStream ++ (l.dec.out ++
        if 0 < inserted then pushInt inserted 6 0 else [])) =
        l.acked ++ if 0 < inserted then pushInt inserted 6 0 else [] := by
      simp [acked]
    simp only [acked]
    rw [hacked, drain_append (lookAcknowledgement_stable _), h.acks]
    split_ifs with hpos
    · refine drain_one (lookAcknowledgement_stable _) ?_
      have hlook := @look_increment l.enc.table.insertCount l.dec.table.insertCount inserted []
        hpos (by omega) (by omega)
      rw [append_nil, show l.dec.table.insertCount + inserted = t.insertCount by omega] at hlook
      exact hlook
    · have heq : t.insertCount = l.dec.table.insertCount := by omega
      simp [heq]
  · intro s hs hwithin
    obtain ⟨ric, hric, hreads⟩ := h.reads s hs hwithin
    exact ⟨ric, hric.trans hcount, hreads⟩

lemma Synced.append_out {more : Bytes}
    (hmore : drain (lookAcknowledgement l.enc.table.insertCount) l.dec.table.insertCount more = some
      (l.dec.table.insertCount, [])) :
    Synced cap { l with dec := { l.dec with out := l.dec.out ++ more } } := by
  refine { h with acks := ?_ }
  have hacked : l.enc.decBuf ++ (l.decStream ++ (l.dec.out ++ more)) = l.acked ++ more := by
    simp [acked]
  simp only [acked]
  rw [hacked, drain_append (lookAcknowledgement_stable _), h.acks]
  exact hmore

lemma Synced.decode (index : ℕ) (streamId : Fin (2 ^ 62)) :
    ∃ l', l.step cap (.decode index streamId) = some l' ∧ Synced cap l' := by
  simp only [step]
  split
  · exact ⟨l, rfl, h⟩
  refine ⟨_, rfl, ?_⟩
  simp only [decodeFieldSection]
  split
  · refine h.append_out ?_
    split_ifs
    · refine drain_one (lookAcknowledgement_stable _) ?_
      have hlook := @look_processed l.enc.table.insertCount l.dec.table.insertCount streamId.val
        [] (by have := streamId.isLt; omega)
      rwa [append_nil] at hlook
    · exact drain_nil _
  · exact h

lemma Synced.flush (sent : Bool) : ∃ l', l.step cap (.flush sent) = some l' ∧ Synced cap l' := by
  refine ⟨_, rfl, ?_⟩
  have hacked : l.enc.decBuf ++ ((if sent then l.decStream ++ l.dec.out else l.decStream) ++
      (if sent then { l.dec with out := [] }
        else restoreDecoderStream { l.dec with out := [] } l.dec.out).out) = l.acked := by
    cases sent <;> simp [acked, restoreDecoderStream]
  have hdec : (if sent then { l.dec with out := [] }
      else restoreDecoderStream { l.dec with out := [] } l.dec.out) =
      { l.dec with out := if sent then [] else l.dec.out } := by
    cases sent <;> simp [restoreDecoderStream]
  rw [hdec] at hacked
  rw [hdec]
  refine { h with acks := ?_ }
  simp only [acked]
  rw [hacked]
  exact h.acks

lemma Synced.decoderPiece {len : ℕ} (hfits : l.Fits (.decoderPiece len)) :
    ∃ l', l.step cap (.decoderPiece len) = some l' ∧ Synced cap l' := by
  have hcut : l.acked = (l.enc.decBuf ++ l.decStream.take len) ++
      (l.decStream.drop len ++ l.dec.out) := by
    rw [acked]
    simp only [append_assoc]
    rw [← append_assoc (l.decStream.take len), take_append_drop]
  have hacks := h.acks
  rw [hcut, drain_append (lookAcknowledgement_stable _)] at hacks
  obtain ⟨⟨known, rest⟩, hdrain, hacks⟩ := bind_eq_some_iff.1 hacks
  have hstep : l.enc.onDecoderStream (l.decStream.take len) =
      some { l.enc with knownReceived := known, decBuf := rest } := by
    rw [Encoder.onDecoderStream, if_neg (by simpa [Fits] using hfits), hdrain]
    rfl
  refine ⟨{ l with
    enc := { l.enc with knownReceived := known, decBuf := rest }
    decStream := l.decStream.drop len }, by rw [step, hstep]; rfl, ?_⟩
  have ht := h.tidy
  exact { h with tidy := { ht with }, acks := hacks }

lemma Synced.step {e : Event} (hfits : l.Fits e) :
    ∃ l', l.step cap e = some l' ∧ Synced cap l' := by
  cases e with
  | settings => exact ⟨_, rfl, h.settings⟩
  | encode headers sent => exact h.encode headers sent
  | encoderPiece len => exact h.encoderPiece len
  | decode index streamId => exact h.decode index streamId
  | flush sent => exact h.flush sent
  | decoderPiece len => exact h.decoderPiece hfits

lemma Synced.run {events : List Event} (hfits : AllFit cap l events) :
    ∃ l', l.run cap events = some l' ∧ Synced cap l' := by
  induction events generalizing l with
  | nil => exact ⟨l, rfl, h⟩
  | cons e events ih =>
    obtain ⟨l₁, hstep, hsynced⟩ := h.step hfits.1
    obtain ⟨l', hrun, hsynced'⟩ := ih hsynced (hfits.2 l₁ hstep)
    exact ⟨l', by simpa [run, hstep] using hrun, hsynced'⟩

/-- Every section reads as its headers. -/
theorem Synced.readSection {s : List Field × Bytes} (hs : s ∈ l.sections)
    (hwithin : Within s.1) : (l.dec.readSection s.2).1 = .done s.1 := by
  obtain ⟨ric, hric, hreads⟩ := h.reads s hs hwithin
  obtain ⟨hcount, hpre⟩ := h.prefix_entries
  have hmax : l.dec.table.insertCount ≤ l.dec.maxEntries := by
    rw [hcount, maxEntries, h.cap_eq]
    exact h.sound.length_le
  refine hreads l.dec h.cap_eq hcount hmax ?_
  obtain ⟨rest, hrest⟩ := hpre
  rw [← hrest, take_append_of_le_length (by omega)]
  exact take_prefix _ _

end

end Kept

end Link

lemma Decoder.receive_feed (d : Decoder) (pieces : List Bytes) :
    (d.receive pieces).map (fun d => (d.table, d.encBuf)) =
      pieces.foldlM (feed (lookInstruction d.maxCapacity) maxBuffer) (d.table, d.encBuf) := by
  induction pieces generalizing d with
  | nil => rfl
  | cons piece pieces ih =>
    simp only [receive, foldlM_cons, feed, onEncoderStream]
    split_ifs with hroom
    · rfl
    · cases hdrain : drain (lookInstruction d.maxCapacity) d.table (d.encBuf ++ piece) with
      | none => rfl
      | some r => exact ih _

/-- The encoder after it took the pieces of the decoder stream one after another. -/
def Encoder.receive (e : Encoder) (pieces : List Bytes) : Option Encoder :=
  pieces.foldlM Encoder.onDecoderStream e

lemma Encoder.receive_feed (e : Encoder) (pieces : List Bytes) :
    (e.receive pieces).map (fun e' => (e'.table, e'.knownReceived, e'.decBuf)) =
      (pieces.foldlM (feed (lookAcknowledgement e.table.insertCount) maxBuffer)
        (e.knownReceived, e.decBuf)).map fun r => (e.table, r) := by
  induction pieces generalizing e with
  | nil => rfl
  | cons piece pieces ih =>
    simp only [receive, foldlM_cons, feed, onDecoderStream]
    split_ifs with hroom
    · rfl
    · cases hdrain : drain (lookAcknowledgement e.table.insertCount) e.knownReceived
          (e.decBuf ++ piece) with
      | none => rfl
      | some r => exact ih _

/-- For every course of events at the two ends, no instruction stream is rejected and every
section within the limits reads as its headers whenever it is delivered; and the cuts in an
instruction stream do not matter to the tables. -/
theorem qpack_synchronised (cap : ℕ) (events : List Event)
    (hfits : Link.AllFit cap (Link.start cap) events) :
    (∃ l, (Link.start cap).run cap events = some l ∧
      ∀ s ∈ l.sections, Within s.1 → ∀ streamId,
        (l.dec.decodeFieldSection streamId s.2).2 = .done s.1) ∧
    (∀ pieces pieces' : List Bytes, pieces.flatten = pieces'.flatten →
      AllFit (lookInstruction cap) maxBuffer ({}, []) pieces →
      AllFit (lookInstruction cap) maxBuffer ({}, []) pieces' →
      ((Decoder.new cap).receive pieces).map Decoder.table =
        ((Decoder.new cap).receive pieces').map Decoder.table) ∧
    ∀ (e : Encoder) (pieces pieces' : List Bytes), e.decBuf = [] →
      pieces.flatten = pieces'.flatten →
      AllFit (lookAcknowledgement e.table.insertCount) maxBuffer (e.knownReceived, []) pieces →
      AllFit (lookAcknowledgement e.table.insertCount) maxBuffer (e.knownReceived, []) pieces' →
      (e.receive pieces).map (fun e' => (e'.table, e'.knownReceived)) =
        (e.receive pieces').map fun e' => (e'.table, e'.knownReceived) := by
  refine ⟨?_, fun pieces pieces' hflat hfit hfit' => ?_,
    fun e pieces pieces' hbuf hflat hfit hfit' => ?_⟩
  · obtain ⟨l, hrun, hsynced⟩ := (Link.start_synced cap).run hfits
    refine ⟨l, hrun, fun s hs hwithin streamId => ?_⟩
    rw [Decoder.decodeFieldSection_snd]
    exact hsynced.readSection hs hwithin
  · have heq : ((Decoder.new cap).receive pieces).map (fun d => (d.table, d.encBuf)) =
        ((Decoder.new cap).receive pieces').map (fun d => (d.table, d.encBuf)) := by
      rw [Decoder.receive_feed, Decoder.receive_feed]
      have h := foldlM_feed (lookInstruction_stable cap) (drain_nil _) hfit
      have h' := foldlM_feed (lookInstruction_stable cap) (drain_nil _) hfit'
      rw [hflat] at h
      exact h.trans h'.symm
    simpa [Function.comp_def] using congrArg (Option.map Prod.fst) heq
  · have heq : (e.receive pieces).map (fun e' => (e'.table, e'.knownReceived, e'.decBuf)) =
        (e.receive pieces').map (fun e' => (e'.table, e'.knownReceived, e'.decBuf)) := by
      rw [Encoder.receive_feed, Encoder.receive_feed, hbuf]
      have h := foldlM_feed (lookAcknowledgement_stable _) (drain_nil _) hfit
      have h' := foldlM_feed (lookAcknowledgement_stable _) (drain_nil _) hfit'
      rw [hflat] at h
      rw [h.trans h'.symm]
    simpa [Function.comp_def] using congrArg (Option.map fun r => (r.1, r.2.1)) heq

/-- A request is encoded twice, the second time from the table. -/
def exchange : List Event :=
  [.settings, .encode [([97], [98])] true, .encoderPiece 3, .encoderPiece 100, .flush true,
    .decoderPiece 1, .encode [([97], [98])] true, .decode 1 0]

/-- An encoder whose two entries are not acknowledged yet. -/
def twoSent : Encoder := { table := ⟨[([97], [98]), ([99], [100])], 2, 128, 68⟩ }

theorem qpack_synchronised_exchange :
    (∃ l, (Link.start 128).run 128 exchange = some l ∧ ∀ s ∈ l.sections, Within s.1 →
      ∀ streamId, (l.dec.decodeFieldSection streamId s.2).2 = .done s.1) ∧
    ((Decoder.new 128).receive [[0x3F, 97, 0x41], [97, 1, 98]]).map Decoder.table =
      ((Decoder.new 128).receive [[0x3F, 97, 0x41, 97, 1, 98]]).map Decoder.table ∧
    (twoSent.receive [[1], [1]]).map (fun e => (e.table, e.knownReceived)) =
      (twoSent.receive [[1, 1]]).map fun e => (e.table, e.knownReceived) := by
  obtain ⟨hrun, hdec, henc⟩ := qpack_synchronised 128 exchange (by decide +kernel)
  exact ⟨hrun, hdec _ _ rfl (by decide +kernel) (by decide +kernel),
    henc twoSent _ _ rfl rfl (by decide +kernel) (by decide +kernel)⟩

end OnetDns.Quic.Qpack
