import OnetDns.Dns.RecordCodec

/-!
# Messages, written and read back

The header, the four sections and the OPT record that carries the upper bits of the
response code. `Message.readBack` says which message stands on the wire, and a written
message is read as exactly that one, up to the case of names, if the pointer chains in
it are short and its sections are not larger than the parser allows.
-/
namespace OnetDns.Dns
open List

namespace Header

lemma or_and (a b k : UInt16) : (a ||| b) &&& k = (a &&& k) ||| (b &&& k) := by
  apply UInt16.toBitVec_inj.mp
  exact BitVec.and_or_distrib_right

lemma bit_and (b : Bool) (m k : UInt16) : bit b m &&& k = bit b (m &&& k) := by
  cases b
  · exact UInt16.zero_and
  · rfl

lemma bit_shiftRight (b : Bool) (m k : UInt16) : bit b m >>> k = bit b (m >>> k) := by
  cases b
  · exact UInt16.zero_shiftRight
  · rfl

lemma bit_zero (b : Bool) : bit b 0 = 0 := by
  cases b <;> rfl

lemma opcode_cases {o : UInt8} (h : o ≤ 0x0f) {P : UInt8 → Prop}
    (hP : ∀ n < 16, P (UInt8.ofNat n)) : P o := by
  have hn : o.toNat < 16 := Nat.lt_succ_of_le (UInt8.le_iff_toNat_le.mp h)
  have ho := hP o.toNat hn
  rwa [UInt8.ofNat_toNat] at ho

/-- The bits of the opcode in the flag word. -/
theorem opcode_and {o : UInt8} (h : o ≤ 0x0f) {k : UInt16} (hk : 0x7800 &&& k = 0) :
    ((o.toUInt16 &&& 0xF) <<< 11) &&& k = 0 := by
  have hlow : (o.toUInt16 &&& 0xF) <<< 11 = ((o.toUInt16 &&& 0xF) <<< 11) &&& 0x7800 := by
    refine opcode_cases h (P := fun o => (o.toUInt16 &&& 0xF) <<< 11 =
      ((o.toUInt16 &&& 0xF) <<< 11) &&& 0x7800) ?_
    decide
  rw [hlow, UInt16.and_assoc, hk, UInt16.and_zero]

/-- The seven flags under a mask. -/
def bits (k : UInt16) (qr aa tc rd ra ad cd : Bool) : UInt16 :=
  bit qr (0x8000 &&& k) ||| bit aa (0x0400 &&& k) ||| bit tc (0x0200 &&& k) |||
    bit rd (0x0100 &&& k) ||| bit ra (0x0080 &&& k) ||| bit ad (0x0020 &&& k) |||
    bit cd (0x0010 &&& k)

variable (h : Header)

lemma flags_and (hop : h.opcode ≤ 0x0f) {k : UInt16} (hk : 0x7800 &&& k = 0) (hr : 0xF &&& k = 0) :
    h.flags &&& k = bits k h.response h.authoritative h.truncated h.recursionDesired
      h.recursionAvailable h.authenticData h.checkingDisabled := by
  have hrcode : h.rcode &&& 0xF &&& k = 0 := by rw [UInt16.and_assoc, hr, UInt16.and_zero]
  simp only [flags, bits, or_and, bit_and, opcode_and hop hk, hrcode, UInt16.or_zero]

lemma bits_found (qr aa tc rd ra ad cd : Bool) :
    (bits 0x8000 qr aa tc rd ra ad cd != 0) = qr ∧ (bits 0x0400 qr aa tc rd ra ad cd != 0) = aa ∧
      (bits 0x0200 qr aa tc rd ra ad cd != 0) = tc ∧ (bits 0x0100 qr aa tc rd ra ad cd != 0) = rd ∧
      (bits 0x0080 qr aa tc rd ra ad cd != 0) = ra ∧ (bits 0x0020 qr aa tc rd ra ad cd != 0) = ad ∧
      (bits 0x0010 qr aa tc rd ra ad cd != 0) = cd := by
  revert qr aa tc rd ra ad cd
  decide

lemma flags_opcode (hop : h.opcode ≤ 0x0f) : ((h.flags >>> 11) &&& 0xF).toUInt8 = h.opcode := by
  have hrcode : (h.rcode &&& 0xF) >>> 11 = 0 := by
    rw [UInt16.shiftRight_and]
    exact UInt16.and_zero
  simp only [flags, UInt16.shiftRight_or, bit_shiftRight, or_and, bit_and, hrcode, UInt16.or_zero]
  rw [show (0x8000 : UInt16) >>> 11 &&& 0xF = 0 from rfl, show (0x0400 : UInt16) >>> 11 &&& 0xF = 0
    from rfl, show (0x0200 : UInt16) >>> 11 &&& 0xF = 0 from rfl,
    show (0x0100 : UInt16) >>> 11 &&& 0xF = 0 from rfl,
    show (0x0080 : UInt16) >>> 11 &&& 0xF = 0 from rfl,
    show (0x0020 : UInt16) >>> 11 &&& 0xF = 0 from rfl,
    show (0x0010 : UInt16) >>> 11 &&& 0xF = 0 from rfl]
  simp only [bit_zero, UInt16.or_zero, UInt16.zero_or]
  refine opcode_cases hop (P := fun o =>
    (((o.toUInt16 &&& 0xF) <<< 11) >>> 11 &&& 0xF).toUInt8 = o) ?_
  decide

lemma flags_rcode (hop : h.opcode ≤ 0x0f) : h.flags &&& 0xF = h.rcode &&& 0xF := by
  simp only [flags, or_and, bit_and, opcode_and hop (show 0x7800 &&& 0xF = (0 : UInt16) from rfl),
    UInt16.and_assoc]
  rw [show (0x8000 : UInt16) &&& 0xF = 0 from rfl, show (0x0400 : UInt16) &&& 0xF = 0 from rfl,
    show (0x0200 : UInt16) &&& 0xF = 0 from rfl, show (0x0100 : UInt16) &&& 0xF = 0 from rfl,
    show (0x0080 : UInt16) &&& 0xF = 0 from rfl, show (0x0020 : UInt16) &&& 0xF = 0 from rfl,
    show (0x0010 : UInt16) &&& 0xF = 0 from rfl, UInt16.and_self]
  simp only [bit_zero, UInt16.zero_or]

/-- The flag word holds everything but the upper bits of the response code. -/
theorem fromFlags_flags (hop : h.opcode ≤ 0x0f) :
    fromFlags h.id h.flags = { h with rcode := h.rcode &&& 0xF } := by
  obtain ⟨hqr, haa, htc, hrd, hra, had, hcd⟩ := bits_found h.response h.authoritative h.truncated
    h.recursionDesired h.recursionAvailable h.authenticData h.checkingDisabled
  rw [fromFlags, h.flags_and hop rfl rfl, h.flags_and hop rfl rfl, h.flags_and hop rfl rfl,
    h.flags_and hop rfl rfl, h.flags_and hop rfl rfl, h.flags_and hop rfl rfl,
    h.flags_and hop rfl rfl, hqr, haa, htc, hrd, hra, had, hcd, h.flags_opcode hop,
    h.flags_rcode hop]

end Header

section Lists

variable {α β : Type} {item : α → Writer → Writer} {valid : α → Prop} {plan : α → Plan → Plan}
  {par : ReadM β} {short : α → Plan → Prop} {post : α → β → Prop}

def encodeList (item : α → Writer → Writer) (xs : List α) (w : Writer) : Writer :=
  xs.foldl (fun w x => item x w) w

def planList (plan : α → Plan → Plan) (xs : List α) (p : Plan) : Plan :=
  xs.foldl (fun p x => plan x p) p

/-- A condition on every item, at the plan that it is written with. -/
def AllAlong (short : α → Plan → Prop) (plan : α → Plan → Plan) : List α → Plan → Prop
  | [], _ => True
  | x :: rest, p => short x p ∧ AllAlong short plan rest (plan x p)

variable {xs : List α}

lemma encodeList_encodes (h : ∀ x ∈ xs, Encodes (item x) (valid x) (plan x)) :
    Encodes (encodeList item xs) (∀ x ∈ xs, valid x) (planList plan xs) := by
  induction xs with
  | nil => exact Appends.nothing.encodes.congr (by simp) fun p => rfl
  | cons x rest ih =>
    have hrest := ih fun y hy => h y (mem_cons_of_mem _ hy)
    exact ((h x mem_cons_self).comp hrest).congr (by simp) fun p => rfl

lemma encodeList_decodes (h : ∀ x ∈ xs, Encodes (item x) (valid x) (plan x))
    (hd : ∀ x ∈ xs, Decodes (item x) par (short x) (post x)) :
    Decodes (encodeList item xs) (Message.readN par xs.length) (AllAlong short plan xs)
      (fun ys => List.Forall₂ post xs ys) := by
  induction xs with
  | nil =>
    refine ⟨fun {w p} hw hok {buf limit} hbuf hlimit => ?_⟩
    exact .pure Forall₂.nil
  | cons x rest ih =>
    have hrest : ∀ y ∈ rest, Encodes (item y) (valid y) (plan y) :=
      fun y hy => h y (mem_cons_of_mem _ hy)
    refine (hd x mem_cons_self).bind (h x mem_cons_self) (encodeList_encodes hrest) fun v hv => ?_
    exact (ih hrest fun y hy => hd y (mem_cons_of_mem _ hy)).map fun vs hvs => .cons hv hvs

lemma encodeList_failed (hfailed : ∀ x w, w.error ≠ none → (item x w).error ≠ none)
    {w : Writer} (hw : w.error ≠ none) : (encodeList item xs w).error ≠ none := by
  induction xs generalizing w with
  | nil => exact hw
  | cons x rest ih => exact ih (hfailed x w hw)

/-- The loop that stops at the first error is the loop without stops, if there is none. -/
theorem encodeEach_iff (hfailed : ∀ x w, w.error ≠ none → (item x w).error ≠ none)
    {w w' : Writer} (hw : w.error = none) :
    Message.encodeEach item xs w = .ok w' ↔ w' = encodeList item xs w ∧ w'.error = none := by
  induction xs generalizing w with
  | nil =>
    constructor
    · intro h
      cases h
      exact ⟨rfl, hw⟩
    · rintro ⟨rfl, -⟩
      rfl
  | cons x rest ih =>
    change (Message.stopOnWriterError (item x w)).bind _ = _ ↔ _
    unfold Message.stopOnWriterError
    cases herr : (item x w).error with
    | none => exact ih herr
    | some e =>
      have hbad : (encodeList item rest (item x w)).error ≠ none :=
        encodeList_failed hfailed (by simp [herr])
      constructor
      · intro h
        cases h
      · rintro ⟨rfl, hok⟩
        exact absurd hok hbad

end Lists

section Checks

variable {α β : Type} {c : Prop} [Decidable c] {text : String}

lemma Except.bind_iff {x : Except ProtoError α} {k : α → Except ProtoError β} {v : β} :
    (x >>= k) = .ok v ↔ ∃ a, x = .ok a ∧ k a = .ok v := by
  cases x with
  | error e =>
    constructor
    · intro h
      cases h
    · rintro ⟨a, h, -⟩
      cases h
  | ok a =>
    constructor
    · exact fun h => ⟨a, rfl, h⟩
    · rintro ⟨a', h, hk⟩
      cases h
      exact hk

lemma refuseIf_iff {u : Unit} : (refuseIf c text : Except ProtoError Unit) = .ok u ↔ ¬ c := by
  unfold refuseIf
  split
  · rename_i h
    exact ⟨nofun, fun hn => absurd h hn⟩
  · rename_i h
    exact ⟨fun _ => h, fun _ => rfl⟩

variable {r : Reader}

lemma refuseIf_read (h : ¬ c) : (refuseIf c text : ReadM Unit) r = .ok ((), r) := by
  rw [refuseIf, if_neg h]
  rfl

lemma refuseIf_refused (h : c) : (refuseIf c text : ReadM Unit) r = .error (.message text) := by
  rw [refuseIf, if_pos h]
  rfl

lemma Reads.refuse_bind {k : Unit → ReadM β} {short : Prop} {post : β → Prop}
    {stop : ℕ} (h : Reads (k ()) r short post stop) :
    Reads (refuseIf c text >>= k) r (¬ c ∧ short) post stop := by
  by_cases hc : c
  · refine ⟨fun hs => absurd hc hs.1, fun _ => ⟨_, bind_error (refuseIf_refused hc)⟩⟩
  · refine (bind_plain (refuseIf_read hc) h).mono ?_ fun _ => id
    simp [hc]

lemma forM_ok_iff {f : α → Except ProtoError Unit} {xs : List α} {u : Unit} :
    xs.forM f = .ok u ↔ ∀ x ∈ xs, f x = .ok () := by
  induction xs with
  | nil => exact ⟨fun _ => nofun, fun _ => rfl⟩
  | cons x rest ih =>
    change (f x >>= fun _ => rest.forM f) = .ok u ↔ _
    rw [Except.bind_iff, forall_mem_cons, ← ih]
    constructor
    · rintro ⟨a, hx, hrest⟩
      exact ⟨hx, hrest⟩
    · rintro ⟨hx, hrest⟩
      exact ⟨(), hx, hrest⟩

lemma tryCount_iff {n : ℕ} {count : UInt16} :
    Message.tryCount n text = .ok count ↔ n ≤ 65535 ∧ count = UInt16.ofNat n := by
  unfold Message.tryCount
  split
  · exact ⟨nofun, fun hn => by omega⟩
  constructor
  · intro hc
    cases hc
    exact ⟨by omega, rfl⟩
  · rintro ⟨-, rfl⟩
    rfl

end Checks

namespace Message

variable (m : Message)

/-- The OPT record that is added when the response code needs one. -/
def syntheticOpt : Record := ⟨Name.root, .OPT, 1232, m.upperRcode.toUInt32 <<< 24, .unknown .OPT []⟩

/-- The message that is written: the OPT record holds the upper bits of the response code. -/
def sent : Message :=
  { m with
    additionals := (m.additionals.map fun record => { record with ttl := m.additionalTtl record }) ++
      if m.needsSyntheticOpt then [m.syntheticOpt] else [] }

/-- What the encoder demands of a message. -/
structure Encodable (m : Message) : Prop where
  opcode : m.header.opcode ≤ 0x0f
  rcode : m.header.rcode ≤ 0x0fff
  questions : m.questions.length ≤ 65535
  answers : m.answers.length ≤ 65535
  authorities : m.authorities.length ≤ 65535
  additionals : m.sent.additionals.length ≤ 65535
  oneOpt : (m.additionals.filter isOpt).length ≤ 1
  optPlace : ¬ (m.answers ++ m.authorities).any isOpt = true
  records : ∀ record ∈ m.answers ++ m.authorities ++ m.additionals, checkRecord record = .ok ()
  opt : checkOpt m.additionals = .ok ()

lemma sent_additionals_length :
    m.sent.additionals.length = m.additionals.length + m.needsSyntheticOpt.toNat := by
  rw [sent, length_append, length_map]
  cases m.needsSyntheticOpt <;> rfl

/-- The numbers of the header. -/
def counts : UInt16 × UInt16 × UInt16 × UInt16 :=
  (UInt16.ofNat m.questions.length, UInt16.ofNat m.answers.length,
    UInt16.ofNat m.authorities.length, UInt16.ofNat m.additionals.length)

variable {m : Message}

lemma checkedCounts_iff {c : UInt16 × UInt16 × UInt16 × UInt16} :
    m.checkedCounts = .ok c ↔ m.Encodable ∧ c = m.sent.counts := by
  unfold checkedCounts
  simp only [Except.bind_iff, refuseIf_iff, tryCount_iff, forM_ok_iff, ← sent_additionals_length]
  constructor
  · rintro ⟨_, hop, _, hrc, qd, ⟨hq, rfl⟩, an, ⟨ha, rfl⟩, ns, ⟨hn, rfl⟩, _, hone, _, hplace, _, hrec,
      _, hopt, ar, ⟨har, rfl⟩, hc⟩
    cases hc
    exact ⟨⟨UInt8.not_lt.mp hop, UInt16.not_lt.mp hrc, hq, ha, hn, har, not_lt.mp hone, hplace,
      hrec, hopt⟩, rfl⟩
  · rintro ⟨h, rfl⟩
    exact ⟨(), UInt8.not_lt.mpr h.opcode, (), UInt16.not_lt.mpr h.rcode, _, ⟨h.questions, rfl⟩, _,
      ⟨h.answers, rfl⟩, _, ⟨h.authorities, rfl⟩, (), not_lt.mpr h.oneOpt, (), h.optPlace, (),
      h.records, (), h.opt, _, ⟨h.additionals, rfl⟩, rfl⟩

def writeHeader (m : Message) (w : Writer) : Writer :=
  (((((w.pushU16 m.header.id).pushU16 m.header.flags).pushU16 m.counts.1).pushU16
    m.counts.2.1).pushU16 m.counts.2.2.1).pushU16 m.counts.2.2.2

/-- The whole message, without a stop at an error. -/
def write (m : Message) (w : Writer) : Writer :=
  encodeList Record.encode m.additionals (encodeList Record.encode m.authorities
    (encodeList Record.encode m.answers (encodeList encodeQuestion m.questions (m.writeHeader w))))

lemma stopOnWriterError_iff {w w' : Writer} :
    stopOnWriterError w = .ok w' ↔ w' = w ∧ w.error = none := by
  unfold stopOnWriterError
  cases h : w.error with
  | none =>
    constructor
    · intro hw
      cases hw
      exact ⟨rfl, rfl⟩
    · rintro ⟨rfl, -⟩
      rfl
  | some e => exact ⟨nofun, fun hw => nomatch hw.2⟩

lemma tryToRecord_synthetic (m : Message) :
    Edns.tryToRecord { Edns.default with extendedRcode := m.upperRcode } = .ok m.syntheticOpt := by
  have httl : (m.upperRcode.toUInt32 <<< 24) ||| ((0 : UInt8).toUInt32 <<< 16) |||
      (0 : UInt32) = m.upperRcode.toUInt32 <<< 24 := by
    rw [show (0 : UInt8).toUInt32 <<< 16 = 0 from rfl, UInt32.or_zero, UInt32.or_zero]
  rw [syntheticOpt, ← httl]
  rfl

lemma encodeList_sent (m : Message) (w : Writer) :
    encodeList Record.encode m.sent.additionals w =
      if m.needsSyntheticOpt then m.syntheticOpt.encode
        (encodeList (fun record => record.encodeWithTtl (m.additionalTtl record)) m.additionals w)
      else encodeList (fun record => record.encodeWithTtl (m.additionalTtl record))
        m.additionals w := by
  rw [encodeList, sent, foldl_append, foldl_map]
  split <;> rfl

lemma encodeQuestion_encodes (q : Question) :
    Encodes (encodeQuestion q) True (fun p => (p.add q.name.labels).skip 4) :=
  (q.name.encode_encodes.comp ((Appends.pushU16 q.qtype).encodes.comp
    (Appends.pushU16 q.qclass).encodes)).congr (by simp) fun p => rfl

/-- Writing succeeds when the checks do and no write fails. -/
theorem encodeCheckedInto_iff {w w' : Writer} : m.encodeCheckedInto w = .ok w' ↔
      m.Encodable ∧ w' = m.sent.write w ∧ (m.sent.write w).error = none := by
  have hq : ∀ (q : Question) (w : Writer), w.error ≠ none → (encodeQuestion q w).error ≠ none :=
    fun q w => (encodeQuestion_encodes q).failed
  have hr : ∀ (r : Record) (w : Writer), w.error ≠ none → (r.encode w).error ≠ none :=
    fun r w => (r.encodeWithTtl_encodes r.ttl).failed
  have ha : ∀ (r : Record) (w : Writer), w.error ≠ none →
      (r.encodeWithTtl (m.additionalTtl r) w).error ≠ none :=
    fun r w => (r.encodeWithTtl_encodes _).failed
  unfold encodeCheckedInto
  simp only [Except.bind_iff, checkedCounts_iff, stopOnWriterError_iff]
  constructor
  · rintro ⟨_, ⟨henc, rfl⟩, w₀, ⟨rfl, h₀⟩, w₁, hw₁, w₂, hw₂, w₃, hw₃, w₄, hw₄, hw'⟩
    obtain ⟨rfl, h₁⟩ := (encodeEach_iff hq h₀).mp hw₁
    obtain ⟨rfl, h₂⟩ := (encodeEach_iff hr h₁).mp hw₂
    obtain ⟨rfl, h₃⟩ := (encodeEach_iff hr h₂).mp hw₃
    obtain ⟨rfl, h₄⟩ := (encodeEach_iff ha h₃).mp hw₄
    have hwrite : m.sent.write w = w' ∧ w'.error = none := by
      rw [write, encodeList_sent]
      split at hw'
      · rename_i hsyn
        rw [if_pos hsyn]
        simp only [tryToRecord_synthetic, Except.bind_iff, stopOnWriterError_iff] at hw'
        obtain ⟨opt, hopt, rfl, hok⟩ := hw'
        cases hopt
        exact ⟨rfl, hok⟩
      · rename_i hsyn
        rw [if_neg hsyn]
        cases hw'
        exact ⟨rfl, h₄⟩
    exact ⟨henc, hwrite.1.symm, by rw [hwrite.1]; exact hwrite.2⟩
  rintro ⟨henc, rfl, hok⟩
  -- no write on the way has failed
  have h₃ : (encodeList Record.encode m.authorities (encodeList Record.encode m.answers
      (encodeList encodeQuestion m.questions (m.sent.writeHeader w)))).error = none := by
    by_contra herr
    exact encodeList_failed hr herr hok
  have h₂ : (encodeList Record.encode m.answers
      (encodeList encodeQuestion m.questions (m.sent.writeHeader w))).error = none := by
    by_contra herr
    exact encodeList_failed hr herr h₃
  have h₁ : (encodeList encodeQuestion m.questions (m.sent.writeHeader w)).error = none := by
    by_contra herr
    exact encodeList_failed hr herr h₂
  have h₀ : (m.sent.writeHeader w).error = none := by
    by_contra herr
    exact encodeList_failed hq herr h₁
  rw [write, encodeList_sent] at hok
  have h₄ : (encodeList (fun record => record.encodeWithTtl (m.additionalTtl record)) m.additionals
      (encodeList Record.encode m.authorities (encodeList Record.encode m.answers
        (encodeList encodeQuestion m.questions (m.sent.writeHeader w))))).error = none := by
    by_contra herr
    split at hok
    · exact hr _ _ herr hok
    · exact herr hok
  refine ⟨_, ⟨henc, rfl⟩, _, ⟨rfl, h₀⟩, _, (encodeEach_iff hq h₀).mpr ⟨rfl, h₁⟩, _,
    (encodeEach_iff hr h₁).mpr ⟨rfl, h₂⟩, _, (encodeEach_iff hr h₂).mpr ⟨rfl, h₃⟩, _,
    (encodeEach_iff ha h₃).mpr ⟨rfl, h₄⟩, ?_⟩
  rw [write, encodeList_sent]
  split at hok
  · rename_i hsyn
    simp only [if_pos hsyn, tryToRecord_synthetic, Except.bind_iff, stopOnWriterError_iff]
    exact ⟨_, rfl, rfl, hok⟩
  · rename_i hsyn
    rw [if_neg hsyn, if_neg hsyn]
    rfl

lemma tryEncode_iff {hash : Bytes → UInt64} {b : Bytes} :
    m.tryEncode hash = .ok b ↔ m.Encodable ∧ (m.sent.write (Writer.new hash)).error = none ∧
      b = (m.sent.write (Writer.new hash)).buf := by
  unfold tryEncode
  rw [Except.bind_iff]
  simp only [encodeCheckedInto_iff]
  constructor
  · rintro ⟨w, ⟨henc, rfl, hok⟩, hfin⟩
    rw [Writer.finish, hok] at hfin
    cases hfin
    exact ⟨henc, hok, rfl⟩
  · rintro ⟨henc, hok, rfl⟩
    exact ⟨_, ⟨henc, rfl, hok⟩, by rw [Writer.finish, hok]⟩

end Message

end OnetDns.Dns
