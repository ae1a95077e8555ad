import OnetDns.Dns.Roundtrip

/-!
# Writing a message that was read

Whatever `Message::parse` accepts passes every check of the encoder, and the message
that is written then is the parsed one itself. The names that the encoder does not
compress can make it larger than the one that was received, so the size is the only
thing that can stand in the way.
-/
namespace OnetDns.Dns
open List Nat Record

variable {r' : Reader} {α : Type} {r : Reader}

lemma pure_inv {v a : α} (h : (Pure.pure v : ReadM α) r = .ok (a, r')) : a = v ∧ r' = r := by
  cases h
  exact ⟨rfl, rfl⟩

lemma bytes_inv {n : ℕ} {v : Bytes} (h : Reader.bytes n r = .ok (v, r')) :
    v.length = n ∧ r' = { r with pos := r.pos + n } := by
  unfold Reader.bytes at h
  split at h
  · cases h
  split at h
  · cases h
  · cases h
    refine ⟨?_, rfl⟩
    rw [length_take, length_drop]
    omega

lemma u8_moves {v : UInt8} (h : Reader.u8 r = .ok (v, r')) : r'.pos = r.pos + 1 := by
  unfold Reader.u8 at h
  split at h
  · cases h
  split at h
  · cases h
    rfl
  · cases h

lemma u16_moves {v : UInt16} (h : Reader.u16 r = .ok (v, r')) : r'.pos = r.pos + 2 := by
  obtain ⟨hi, r₁, hhi, h⟩ := bind_inv h
  obtain ⟨lo, r₂, hlo, h⟩ := bind_inv h
  obtain ⟨-, rfl⟩ := pure_inv h
  rw [u8_moves hlo, u8_moves hhi]

lemma readCharString_inv {s : Bytes} (h : readCharString r = .ok (s, r')) :
    s.length ≤ 255 ∧ r'.pos = r.pos + (charString s).length := by
  obtain ⟨n, r₁, hn, h⟩ := bind_inv h
  obtain ⟨hlen, rfl⟩ := bytes_inv h
  have := n.toNat_lt
  have := u8_moves hn
  rw [charString_length]
  exact ⟨by omega, by simp only; omega⟩

lemma readChunks_inv {stop fuel : ℕ} {chunks : List Bytes}
    (h : readChunks stop fuel r = .ok (chunks, r')) :
    (∀ c ∈ chunks, c.length ≤ 255) ∧ (chunks = [] → r' = r) ∧
      r'.pos = r.pos + (chunks.flatMap charString).length := by
  induction fuel generalizing chunks r with
  | zero =>
    obtain ⟨rfl, rfl⟩ := pure_inv h
    exact ⟨by simp, fun _ => rfl, rfl⟩
  | succ fuel ih =>
    rw [readChunks, get_bind] at h
    split at h
    · obtain ⟨chunk, r₁, hchunk, h⟩ := bind_inv h
      obtain ⟨rest, r₂, hrest, h⟩ := bind_inv h
      obtain ⟨rfl, rfl⟩ := pure_inv h
      obtain ⟨hlen, hpos⟩ := readCharString_inv hchunk
      obtain ⟨hlens, -, hmoves⟩ := ih hrest
      refine ⟨forall_mem_cons.mpr ⟨hlen, hlens⟩, nofun, ?_⟩
      rw [hmoves, hpos, flatMap_cons, length_append, add_assoc]
    · obtain ⟨rfl, rfl⟩ := pure_inv h
      exact ⟨by simp, fun _ => rfl, rfl⟩

lemma readParams_inv {stop fuel : ℕ} {params : List (UInt16 × Bytes)}
    (h : readParams stop fuel r = .ok (params, r')) : (∀ param ∈ params, param.2.length ≤ 65535) ∧
      r'.pos = r.pos + (params.flatMap paramBytes).length := by
  induction fuel generalizing params r with
  | zero =>
    obtain ⟨rfl, rfl⟩ := pure_inv h
    exact ⟨nofun, rfl⟩
  | succ fuel ih =>
    rw [readParams, get_bind] at h
    split at h
    · obtain ⟨key, r₁, hkey, h⟩ := bind_inv h
      obtain ⟨plen, r₂, hplen, h⟩ := bind_inv h
      obtain ⟨value, r₃, hvalue, h⟩ := bind_inv h
      obtain ⟨rest, r₄, hrest, h⟩ := bind_inv h
      obtain ⟨rfl, rfl⟩ := pure_inv h
      obtain ⟨hlen, rfl⟩ := bytes_inv hvalue
      obtain ⟨hlens, hmoves⟩ := ih hrest
      have hle : value.length ≤ 65535 := hlen ▸ le_of_lt_succ plen.toNat_lt
      refine ⟨forall_mem_cons.mpr ⟨hle, hlens⟩, ?_⟩
      rw [hmoves, u16_moves hplen, u16_moves hkey, flatMap_cons, length_append, paramBytes_length]
      simp only
      omega
    · obtain ⟨rfl, rfl⟩ := pure_inv h
      exact ⟨nofun, rfl⟩

variable {x : RData} {rdlen : ℕ}

namespace RData

/-- What `parse` guarantees about the data it returns. -/
structure Parsed (rtype : RecordType) (r r' : Reader) (x : RData) : Prop where
  type : x.recordType = rtype
  fits : x.Fits
  natural : x.Natural
  supported : x.Supported
  empty : x.plain = some [] → r'.pos = r.pos

lemma parsePlainLabels_moves {fuel total : ℕ} {labels : List Bytes}
    (h : Name.parsePlainLabels fuel total r = .ok (labels, r')) :
    r'.pos = r.pos + wireLen labels := by
  induction fuel generalizing total labels r with
  | zero => cases h
  | succ fuel ih =>
    obtain ⟨len, r₁, hlen, h⟩ := bind_inv h
    split at h
    · obtain ⟨rfl, rfl⟩ := pure_inv h
      exact u8_moves hlen
    split at h
    · cases h
    split at h
    · cases h
    obtain ⟨label, r₂, hlabel, h⟩ := bind_inv h
    obtain ⟨rest, r₃, hrest, h⟩ := bind_inv h
    obtain ⟨rfl, rfl⟩ := pure_inv h
    obtain ⟨hsize, rfl⟩ := bytes_inv hlabel
    rw [ih hrest, ← hsize, u8_moves hlen, wireLen_cons]
    simp only
    omega

lemma parseUncompressed_moves {n : Name}
    (h : Name.parseUncompressed r = .ok (n, r')) : r'.pos = r.pos + n.wire.length := by
  obtain ⟨labels, r₁, hlabels, h⟩ := bind_inv h
  rw [Name.fromLabels] at h
  split_ifs at h
  · cases h
    exact (parsePlainLabels_moves hlabels).trans (by rw [Name.wire, wireOf_length])
  all_goals cases h

lemma parseSvcb_inv {s : Svcb} (h : parseSvcb rdlen r = .ok (s, r')) :
    (validateSvcbParams s.priority s.params = .ok () ∧ ∀ param ∈ s.params, param.2.length ≤ 65535) ∧
    r'.pos = r.pos + (2 + s.target.wire.length + (s.params.flatMap paramBytes).length) := by
  rw [parseSvcb, get_bind] at h
  obtain ⟨priority, r₁, hpriority, h⟩ := bind_inv h
  obtain ⟨target, r₂, htarget, h⟩ := bind_inv h
  obtain ⟨params, r₃, hparams, h⟩ := bind_inv h
  obtain ⟨u, r₄, hvalid, h⟩ := bind_inv h
  obtain ⟨rfl, rfl⟩ := pure_inv h
  obtain ⟨hlens, hmoves⟩ := readParams_inv hparams
  cases hv : validateSvcbParams priority params with
  | error e =>
    rw [hv] at hvalid
    cases hvalid
  | ok u =>
    rw [hv] at hvalid
    cases hvalid
    refine ⟨⟨rfl, hlens⟩, ?_⟩
    rw [hmoves, parseUncompressed_moves htarget, u16_moves hpriority]
    simp only
    omega

lemma parseNaptr_inv {n : Naptr} (h : parseNaptr r = .ok (n, r')) : (naptr n).Fits := by
  obtain ⟨order, r₁, -, h⟩ := bind_inv h
  obtain ⟨preference, r₂, -, h⟩ := bind_inv h
  obtain ⟨flags, r₃, hflags, h⟩ := bind_inv h
  obtain ⟨services, r₄, hservices, h⟩ := bind_inv h
  obtain ⟨regexp, r₅, hregexp, h⟩ := bind_inv h
  obtain ⟨replacement, r₆, -, h⟩ := bind_inv h
  obtain ⟨rfl, rfl⟩ := pure_inv h
  exact ⟨(readCharString_inv hflags).1, (readCharString_inv hservices).1,
    (readCharString_inv hregexp).1⟩

lemma eq_of_plain_nil (h : x.plain = some []) : x = .txt [] ∨ ∃ rtype, x = .unknown rtype [] := by
  cases x with
  | txt chunks =>
    left
    cases chunks with
    | nil => rfl
    | cons c rest => simp [plain, charString] at h
  | unknown rtype bytes =>
    right
    cases h
    exact ⟨rtype, rfl⟩
  | a ip =>
    have hlen := ip.length_eq
    cases h' : ip.bytes with
    | nil => simp [h'] at hlen
    | cons b rest => simp [plain, h'] at h
  | aaaa ip =>
    have hlen := ip.length_eq
    cases h' : ip.bytes with
    | nil => simp [h'] at hlen
    | cons b rest => simp [plain, h'] at h
  | dname n => simp [plain, Name.wire, wireOf] at h
  | srv priority weight port target => simp [plain, Name.wire, wireOf] at h
  | caa flags tag value => simp [plain] at h
  | tlsa usage selector matching data => simp [plain] at h
  | sshfp algorithm fpType fingerprint => simp [plain] at h
  | naptr n => simp [plain, charString] at h
  | uri priority weight target =>
    have hlen := congrArg (Option.map length) h
    simp [plain] at hlen
  | svcb s => simp [plain, Name.wire, wireOf] at h
  | https s => simp [plain, Name.wire, wireOf] at h
  | ns n => cases h
  | cname n => cases h
  | ptr n => cases h
  | mx preference exchange => cases h
  | soa s => cases h

/-- Data of a type that is neither `TXT` nor unknown. -/
structure Typed (rtype : RecordType) (x : RData) : Prop where
  type : x.recordType = rtype
  fits : x.Fits := by trivial
  natural : x.Natural := by trivial
  supported : x.Supported := by trivial
  not_txt : ∀ chunks, x ≠ .txt chunks := by rintro _ ⟨⟩
  not_unknown : ∀ t bytes, x ≠ .unknown t bytes := by rintro _ _ ⟨⟩

variable {rtype : RecordType} {r : Reader}

lemma Typed.parsed (h : Typed rtype x) : Parsed rtype r r' x := by
  refine ⟨h.type, h.fits, h.natural, h.supported, fun hplain => ?_⟩
  rcases eq_of_plain_nil hplain with rfl | ⟨t, rfl⟩
  · exact absurd rfl (h.not_txt [])
  · exact absurd rfl (h.not_unknown t [])

lemma Typed.pure {v : RData} (h : (Pure.pure v : ReadM RData) r = .ok (x, r'))
    (hv : Typed rtype v) : Typed rtype x := by
  obtain ⟨rfl, rfl⟩ := pure_inv h
  exact hv

lemma Typed.bind {first : ReadM α} {next : α → ReadM RData} (h : (first >>= next) r = .ok (x, r'))
    (hnext : ∀ a {r₁}, next a r₁ = .ok (x, r') → Typed rtype x) : Typed rtype x := by
  obtain ⟨a, r₁, -, h⟩ := bind_inv h
  exact hnext a h

lemma parse_inv (h : parse rtype rdlen r = .ok (x, r')) : Parsed rtype r r' x := by
  by_cases htyped : rtype ∈ typedTypes
  · simp only [typedTypes, mem_cons, not_mem_nil, or_false] at htyped
    rcases htyped with rfl | rfl | rfl | rfl | rfl | rfl | rfl | rfl | rfl | rfl | rfl | rfl | rfl |
      rfl | rfl | rfl | rfl
    all_goals try exact (Typed.bind h fun _ _ h => .pure h { type := rfl }).parsed
    all_goals try exact (Typed.bind h fun _ _ h => .bind h fun _ _ h => .bind h fun _ _ h =>
      .pure h { type := rfl }).parsed
    all_goals try exact (Typed.bind h fun _ _ h => .bind h fun _ _ h => .bind h fun _ _ h =>
      .bind h fun _ _ h => .pure h { type := rfl }).parsed
    · exact (Typed.bind h fun _ _ h => .bind h fun _ _ h => .pure h { type := rfl }).parsed
    · -- TXT: no chunk means that nothing was read
      obtain ⟨r₀, r₁, hget, h⟩ := bind_inv h
      cases hget
      obtain ⟨chunks, r₂, hchunks, h⟩ := bind_inv h
      obtain ⟨rfl, rfl⟩ := pure_inv h
      obtain ⟨hlen, hempty, -⟩ := readChunks_inv hchunks
      refine ⟨rfl, hlen, trivial, trivial, fun hplain => ?_⟩
      rcases eq_of_plain_nil hplain with heq | ⟨t, heq⟩
      · cases heq
        rw [hempty rfl]
      · cases heq
    · obtain ⟨flags, r₁, -, h⟩ := bind_inv h
      obtain ⟨tagLen, r₂, -, h⟩ := bind_inv h
      obtain ⟨tag, r₃, htag, h⟩ := bind_inv h
      have hfits : tag.length ≤ 255 := (bytes_inv htag).1.trans_le (le_of_lt_succ tagLen.toNat_lt)
      exact (Typed.bind h fun _ _ h => .pure h { type := rfl, fits := hfits }).parsed
    · obtain ⟨n, r₁, hn, h⟩ := bind_inv h
      exact (Typed.pure h { type := rfl, fits := parseNaptr_inv hn }).parsed
    all_goals
      obtain ⟨s, r₁, hs, h⟩ := bind_inv h
      exact (Typed.pure h { type := rfl, fits := (parseSvcb_inv hs).1 }).parsed
  · rw [parse_untyped htyped] at h
    split at h
    · cases h
    rename_i hsup
    obtain ⟨bytes, r₁, hbytes, h⟩ := bind_inv h
    obtain ⟨rfl, rfl⟩ := pure_inv h
    obtain ⟨hlen, rfl⟩ := bytes_inv hbytes
    refine ⟨rfl, trivial, htyped, by simpa [Supported] using hsup, fun hplain => ?_⟩
    cases hplain
    simp [← hlen]

end RData

namespace Record

/-- What `parse` guarantees about a record of a section. -/
structure Parsed (updateSection : UpdateSection) (r : Record) : Prop where
  type : r.rtype = r.rdata.recordType
  fits : r.rdata.Fits
  natural : r.Natural updateSection
  supported : r.Empty updateSection ∨ r.rdata.Supported
  same : r.readBack updateSection r.ttl = r

lemma parsed_of_data {updateSection : UpdateSection} {record : Record}
    (h : parseData updateSection record.rtype record.class' rdlen r = .ok (record.rdata, r')) :
    Parsed updateSection record := by
  unfold parseData at h
  dsimp only at h
  split at h
  · cases h
  by_cases hempty : rdlen = 0 ∧ record.class' ∈ updateSection.emptyClasses
  · simp only [if_pos hempty] at h
    change (if r.pos ≠ r.pos + rdlen then _ else Except.ok (RData.unknown record.rtype [], _)) =
      _ at h
    split at h
    · cases h
    have hdata : record.rdata = .unknown record.rtype [] := by
      simp only [Except.ok.injEq, Prod.mk.injEq] at h
      exact h.1.symm
    have hnone : record.Empty updateSection := ⟨hempty.2, by rw [hdata]; rfl⟩
    refine ⟨by rw [hdata]; rfl, by rw [hdata]; trivial, .inr hnone, .inl hnone, ?_⟩
    rw [readBack, if_pos hnone, ← hdata]
  simp only [if_neg hempty] at h
  split at h
  · cases h
  rename_i rdata r₁ hdata
  split at h
  · cases h
  obtain ⟨rfl, -⟩ := h
  have hparsed := RData.parse_inv hdata
  -- data of no bytes is read only where it is not left out
  have hnot : ¬ record.Empty updateSection := by
    rintro ⟨hclass, hplain⟩
    have hsame : r₁.pos = r.pos := hparsed.empty hplain
    exact hempty ⟨by omega, hclass⟩
  refine ⟨hparsed.type.symm, hparsed.fits, .inl hparsed.natural, .inr hparsed.supported, ?_⟩
  rw [readBack, if_neg hnot]

lemma parse_inv {updateSection : UpdateSection} {record : Record}
    (h : parse updateSection r = .ok (record, r')) : Parsed updateSection record := by
  obtain ⟨name, r₁, -, h⟩ := bind_inv h
  obtain ⟨rtype, r₂, -, h⟩ := bind_inv h
  obtain ⟨class', r₃, -, h⟩ := bind_inv h
  obtain ⟨ttl, r₄, -, h⟩ := bind_inv h
  obtain ⟨rdlen, r₅, -, h⟩ := bind_inv h
  obtain ⟨rdata, r₆, hdata, h⟩ := bind_inv h
  obtain ⟨rfl, rfl⟩ := pure_inv h
  exact parsed_of_data hdata

end Record

lemma readN_inv {item : ReadM α} {P : α → Prop}
    (h : ∀ {r r' x}, item r = .ok (x, r') → P x) {n : ℕ} {xs : List α}
    (hread : Message.readN item n r = .ok (xs, r')) : xs.length = n ∧ ∀ x ∈ xs, P x := by
  induction n generalizing xs r with
  | zero =>
    obtain ⟨rfl, rfl⟩ := pure_inv hread
    exact ⟨rfl, nofun⟩
  | succ n ih =>
    obtain ⟨x, r₁, hx, hread⟩ := bind_inv hread
    obtain ⟨rest, r₂, hrest, hread⟩ := bind_inv hread
    obtain ⟨rfl, rfl⟩ := pure_inv hread
    obtain ⟨hlen, hP⟩ := ih hrest
    refine ⟨by rw [length_cons, hlen], ?_⟩
    intro y hy
    rcases mem_cons.mp hy with rfl | hy
    · exact h hx
    · exact hP y hy

namespace Message

/-- What `parse` guarantees about a message. -/
structure Parsed (m : Message) : Prop where
  opcode : m.header.opcode ≤ 0x0f
  sizes : m.questions.length ≤ maxSectionItems ∧ m.answers.length ≤ maxSectionItems ∧
    m.authorities.length ≤ maxSectionItems ∧ m.additionals.length ≤ maxSectionItems
  answers : ∀ r ∈ m.answers, r.Parsed m.header.answerSection
  authorities : ∀ r ∈ m.authorities, r.Parsed m.header.authoritySection
  additionals : ∀ r ∈ m.additionals, r.Parsed .none
  optPlace : ¬ (m.answers ++ m.authorities).any isOpt = true
  header : ∃ low : UInt16, low ≤ 0xF ∧
    withExtendedRcode { m.header with rcode := low } m.additionals = .ok m.header

lemma withExtendedRcode_inv {header header' : Header} {additionals : List Record}
    (h : withExtendedRcode header additionals = .ok header') :
    header' = { header with rcode := header'.rcode } := by
  unfold withExtendedRcode at h
  split at h
  · cases h
    rfl
  · rw [Except.bind_iff] at h
    obtain ⟨extended, -, h⟩ := h
    cases h
    rfl
  · cases h

lemma refuseIf_inv {c : Prop} [Decidable c] {text : String} {u : Unit}
    (h : (refuseIf c text : ReadM Unit) r = .ok (u, r')) : ¬ c ∧ r' = r := by
  by_cases hc : c
  · rw [refuseIf_refused hc] at h
    cases h
  · rw [refuseIf_read hc] at h
    cases h
    exact ⟨hc, rfl⟩

lemma liftM_inv {x : Except ProtoError α} {a : α}
    (h : (liftM x : ReadM α) r = .ok (a, r')) : x = .ok a := by
  cases x with
  | error e => cases h
  | ok b =>
    cases h
    rfl

lemma fromFlags_opcode (id f : UInt16) : (Header.fromFlags id f).opcode ≤ 0x0f := by
  change ((f >>> 11) &&& 0xF).toUInt8 ≤ 0x0f
  rw [UInt8.le_iff_toNat_le, UInt16.toNat_toUInt8, UInt16.toNat_and,
    show (0xF : UInt16).toNat = 2 ^ 4 - 1 from rfl, and_two_pow_sub_one_eq_mod]
  change _ ≤ 15
  omega

lemma and_le (a : UInt16) : a &&& 0xF ≤ 0xF := by
  rw [UInt16.le_iff_toNat_le, UInt16.toNat_and, show (0xF : UInt16).toNat = 2 ^ 4 - 1 from rfl,
    and_two_pow_sub_one_eq_mod]
  omega

lemma not_countsImpossible {qd an ns ar remaining : ℕ}
    (h : ¬ countsImpossible qd an ns ar remaining = true) :
    qd ≤ maxSectionItems ∧ an ≤ maxSectionItems ∧ ns ≤ maxSectionItems ∧ ar ≤ maxSectionItems := by
  simp only [countsImpossible, Bool.or_eq_true, decide_eq_true_eq, not_or, not_lt] at h
  exact ⟨h.1.1.1.1.1, h.1.1.1.1.2, h.1.1.1.2, h.1.1.2⟩

variable {m : Message}

lemma parse_inv {b : Bytes} (h : parse b = .ok m) : m.Parsed := by
  unfold parse at h
  split at h
  · cases h
  change Prod.fst <$> parseBody (.new b) = _ at h
  cases hbody : parseBody (.new b) with
  | error e =>
    rw [hbody] at h
    cases h
  | ok res =>
    obtain ⟨m', r'⟩ := res
    rw [hbody] at h
    cases h
    obtain ⟨id, r₁, -, hbody⟩ := bind_inv hbody
    obtain ⟨flags, r₂, -, hbody⟩ := bind_inv hbody
    obtain ⟨qd, r₃, -, hbody⟩ := bind_inv hbody
    obtain ⟨an, r₄, -, hbody⟩ := bind_inv hbody
    obtain ⟨ns, r₅, -, hbody⟩ := bind_inv hbody
    obtain ⟨ar, r₆, -, hbody⟩ := bind_inv hbody
    rw [get_bind] at hbody
    obtain ⟨_, r₇, hcounts, hbody⟩ := bind_inv hbody
    obtain ⟨questions, r₈, hquestions, hbody⟩ := bind_inv hbody
    obtain ⟨answers, r₉, hanswers, hbody⟩ := bind_inv hbody
    obtain ⟨authorities, r₁₀, hauthorities, hbody⟩ := bind_inv hbody
    obtain ⟨_, r₁₁, hplace, hbody⟩ := bind_inv hbody
    obtain ⟨additionals, r₁₂, hadditionals, hbody⟩ := bind_inv hbody
    rw [get_bind] at hbody
    obtain ⟨_, r₁₃, -, hbody⟩ := bind_inv hbody
    obtain ⟨header, r₁₄, hheader, hbody⟩ := bind_inv hbody
    obtain ⟨rfl, rfl⟩ := pure_inv hbody
    replace hheader := liftM_inv hheader
    have hsame := withExtendedRcode_inv hheader
    obtain ⟨hq, ha, hn, hr⟩ := not_countsImpossible (refuseIf_inv hcounts).1
    obtain ⟨hlq, -⟩ := readN_inv (P := fun _ => True) (fun _ => trivial) hquestions
    obtain ⟨hla, hPa⟩ := readN_inv parse_inv hanswers
    obtain ⟨hln, hPn⟩ := readN_inv parse_inv hauthorities
    obtain ⟨hlr, hPr⟩ := readN_inv parse_inv hadditionals
    refine ⟨?_, ⟨hlq ▸ hq, hla ▸ ha, hln ▸ hn, hlr ▸ hr⟩, ?_, ?_, hPr, (refuseIf_inv hplace).1,
      flags &&& 0xF, and_le flags, ?_⟩
    · rw [hsame]
      exact fromFlags_opcode id flags
    · rw [hsame]
      exact hPa
    · rw [hsame]
      exact hPn
    · rw [show ({ header with rcode := flags &&& 0xF } : Header) = .fromFlags id flags by
        rw [hsame]; rfl]
      exact hheader

lemma validate_of_fits (h : x.Fits) : x.validate = .ok () := by
  cases x with
  | svcb s => exact h.1
  | https s => exact h.1
  | _ => rfl

lemma checkRecord_of_parsed {updateSection : Record.UpdateSection} {r : Record}
    (h : r.Parsed updateSection) : checkRecord r = .ok () := by
  rw [checkRecord, if_neg (not_not.mpr h.type)]
  exact validate_of_fits h.fits

/-- The upper byte of a TTL, and the others. -/
theorem ttl_join (ttl : UInt32) :
    (ttl &&& (0x00ffffff : UInt32)) ||| ((ttl >>> 24).toUInt8.toUInt32 <<< 24) = ttl := by
  have ht := ttl.toNat_lt
  have hlow : ttl.toNat &&& 16777215 = ttl.toNat % 16777216 :=
    and_two_pow_sub_one_eq_mod ttl.toNat 24
  have hor := two_pow_add_eq_or_of_lt (show ttl.toNat % 16777216 < 2 ^ 24 by omega)
  apply UInt32.toNat.inj
  simp only [UInt32.toNat_or, UInt32.toNat_and, UInt32.toNat_shiftLeft, UInt32.toNat_shiftRight,
    UInt8.toNat_toUInt32, UInt32.toNat_toUInt8, UInt32.reduceToNat, shiftRight_eq_div_pow,
    shiftLeft_eq, hlow]
  rw [mod_eq_of_lt (show ttl.toNat / 16777216 < 256 by omega),
    mod_eq_of_lt (show ttl.toNat / 16777216 * 16777216 < 4294967296 by omega), Nat.or_comm,
    mul_comm, ← hor]
  omega

/-- The upper eight of twelve bits. -/
theorem upper_join {low : UInt16} (h : low ≤ 0xF) (u : UInt8) :
    (((low ||| (u.toUInt16 <<< 4)) >>> 4) &&& 0xff).toUInt8 = u ∧
      low ||| (u.toUInt16 <<< 4) ≤ 0x0fff := by
  have hl : low.toNat < 2 ^ 4 := lt_succ_of_le (UInt16.le_iff_toNat_le.mp h)
  have hu := u.toNat_lt
  have hor := two_pow_add_eq_or_of_lt hl u.toNat
  have hval : (low ||| (u.toUInt16 <<< 4)).toNat = 16 * u.toNat + low.toNat := by
    simp only [UInt16.toNat_or, UInt16.toNat_shiftLeft, UInt8.toNat_toUInt16, UInt16.reduceToNat,
      shiftLeft_eq]
    rw [mod_eq_of_lt (show u.toNat * 16 < 65536 by omega), Nat.or_comm, mul_comm, ← hor]
  constructor
  · apply UInt8.toNat.inj
    rw [UInt16.toNat_toUInt8, UInt16.toNat_and, UInt16.toNat_shiftRight, hval,
      show (0xff : UInt16).toNat = 2 ^ 8 - 1 from rfl, and_two_pow_sub_one_eq_mod,
      shiftRight_eq_div_pow]
    change (16 * u.toNat + low.toNat) / 2 ^ 4 % 2 ^ 8 % 2 ^ 8 = u.toNat
    omega
  · rw [UInt16.le_iff_toNat_le]
    change _ ≤ 4095
    omega

lemma validateRecord_inv {opt : Record} {extended : UInt8}
    (h : Edns.validateRecord opt = .ok extended) :
    opt.name.isRoot = true ∧ extended = (opt.ttl >>> 24).toUInt8 ∧
      ∃ edns, Edns.tryFromRecord opt = .ok edns := by
  unfold Edns.validateRecord at h
  simp only [Except.bind_iff] at h
  obtain ⟨⟨ttl, raw⟩, hparts, options, hoptions, h⟩ := h
  cases h
  have hedns : ∃ edns, Edns.tryFromRecord opt = .ok edns := by
    unfold Edns.tryFromRecord
    simp only [Except.bind_iff]
    exact ⟨_, _, hparts, options, hoptions, rfl⟩
  unfold Edns.recordParts at hparts
  split at hparts
  · cases hparts
  split at hparts
  · cases hparts
  rename_i hroot
  split at hparts
  · cases hparts
    exact ⟨by simpa using hroot, rfl, hedns⟩
  · cases hparts

section

variable (h : m.Parsed)
include h

/-- How the response code of a parsed message is put together. -/
theorem parsed_rcode : (m.additionals.filter isOpt = [] ∧ m.header.rcode ≤ 0xF) ∨
      ∃ opt, m.additionals.filter isOpt = [opt] ∧ opt.name.isRoot = true ∧
        (∃ edns, Edns.tryFromRecord opt = .ok edns) ∧ m.header.rcode ≤ 0x0fff ∧
        m.upperRcode = (opt.ttl >>> 24).toUInt8 := by
  obtain ⟨low, hlow, hheader⟩ := h.header
  unfold withExtendedRcode at hheader
  split at hheader
  · rename_i hnone
    left
    have hrcode := congrArg Header.rcode (Except.ok.inj hheader)
    exact ⟨hnone, hrcode ▸ hlow⟩
  · rename_i opt hone
    right
    rw [Except.bind_iff] at hheader
    obtain ⟨extended, hvalid, hheader⟩ := hheader
    have hrcode : low ||| (extended.toUInt16 <<< 4) = m.header.rcode :=
      congrArg Header.rcode (Except.ok.inj hheader)
    obtain ⟨hroot, rfl, hedns⟩ := validateRecord_inv hvalid
    obtain ⟨hupper, hle⟩ := upper_join hlow (opt.ttl >>> 24).toUInt8
    refine ⟨opt, hone, hroot, hedns, hrcode ▸ hle, ?_⟩
    rw [upperRcode, ← hrcode, hupper]
  · cases hheader

/-- A parsed message is written as it is. -/
theorem sent_of_parsed : m.sent = m := by
  have hkeep : ∀ {records : List Record}, (∀ r ∈ records, m.additionalTtl r = r.ttl) →
      (records.map fun r => { r with ttl := m.additionalTtl r }) = records := by
    intro records hrecords
    rw [map_congr_left fun r hr => by rw [hrecords r hr], map_id']
  have hadditionals : m.sent.additionals = m.additionals := by
    change (m.additionals.map fun r => { r with ttl := m.additionalTtl r }) ++
      (if m.needsSyntheticOpt then [m.syntheticOpt] else []) = _
    rcases parsed_rcode h with ⟨hnone, hrcode⟩ | ⟨opt, hone, -, -, -, hupper⟩
    · have hneeds : ¬ m.needsSyntheticOpt = true := by
        simp only [needsSyntheticOpt, Bool.and_eq_true, decide_eq_true_eq, not_and]
        intro hgt
        exact absurd hgt (UInt16.not_lt.mpr hrcode)
      rw [if_neg hneeds, append_nil, hkeep]
      intro r hr
      have hnot : r.rtype ≠ .OPT := fun hopt => by
        have hmem : r ∈ m.additionals.filter isOpt := mem_filter.mpr ⟨hr, by simpa [isOpt]⟩
        rw [hnone] at hmem
        cases hmem
      rw [additionalTtl, if_neg hnot]
    · have hneeds : ¬ m.needsSyntheticOpt = true := by simp [needsSyntheticOpt, hone]
      rw [if_neg hneeds, append_nil, hkeep]
      intro r hr
      unfold additionalTtl
      split
      · have hmem : r ∈ m.additionals.filter isOpt := mem_filter.mpr ⟨hr, by simpa [isOpt]⟩
        rw [hone] at hmem
        rw [mem_singleton.mp hmem, hupper, ttl_join]
      · rfl
  rw [show m.sent = { m with additionals := m.sent.additionals } from rfl, hadditionals]

lemma readBack_of_parsed : m.readBack = m := by
  have hsame : ∀ {updateSection : Record.UpdateSection} {records : List Record},
      (∀ r ∈ records, r.Parsed updateSection) →
      (records.map fun r => r.readBack updateSection r.ttl) = records := by
    intro updateSection records hrecords
    rw [map_congr_left fun r hr => (hrecords r hr).same, map_id']
  rw [readBack, sent_of_parsed h, hsame h.answers, hsame h.authorities]

/-- A parsed message passes the checks of the encoder. -/
theorem encodable_of_parsed : m.Encodable := by
  obtain ⟨hq, ha, hn, hr⟩ := h.sizes
  have hsmall : maxSectionItems ≤ 65535 := by decide
  have hrecords : ∀ r ∈ m.answers ++ m.authorities ++ m.additionals, checkRecord r = .ok () := by
    intro r hr
    rcases mem_append.mp hr with hr | hr
    · rcases mem_append.mp hr with hr | hr
      · exact checkRecord_of_parsed (h.answers r hr)
      · exact checkRecord_of_parsed (h.authorities r hr)
    · exact checkRecord_of_parsed (h.additionals r hr)
  have hlen : m.sent.additionals.length ≤ 65535 := by
    rw [sent_of_parsed h]
    omega
  have hopcode := h.opcode
  rcases parsed_rcode h with ⟨hnone, hrcode⟩ | ⟨opt, hone, hroot, ⟨edns, hedns⟩, hrcode, -⟩
  · have hfind : m.additionals.find? isOpt = none := by rw [← head?_filter, hnone]; rfl
    refine ⟨hopcode, UInt16.le_trans hrcode (by decide), by omega, by omega, by omega, hlen,
      by rw [hnone]; decide, h.optPlace, hrecords, ?_⟩
    rw [checkOpt, hfind]
  have hfind : m.additionals.find? isOpt = some opt := by rw [← head?_filter, hone]; rfl
  refine ⟨hopcode, hrcode, by omega, by omega, by omega, hlen, by rw [hone]; exact le_rfl,
    h.optPlace, hrecords, ?_⟩
  rw [checkOpt, hfind]
  simp only [Except.bind_iff, refuseIf_iff]
  exact ⟨(), by simp [hroot], edns, hedns, rfl⟩

lemma fits_of_parsed : m.Fits :=
  ⟨⟨fun r hr => (h.answers r hr).fits, fun r hr => (h.authorities r hr).fits⟩,
    fun r hr => (h.additionals r hr).fits⟩

lemma natural_of_parsed : m.Natural :=
  ⟨fun r hr => (h.answers r hr).natural, fun r hr => (h.authorities r hr).natural,
    fun r hr => (h.additionals r hr).natural⟩

end

/-- The pointer chains of the names in a record. -/
def recordShort (r : Record) (p : Plan) : Prop :=
  p.links r.name.labels ≤ maxJumps ∧ r.rdata.Short ((p.add r.name.labels).skip 10)

/-- No name of the message takes more pointers than the parser follows when the message is
written. -/
structure ShortChains (m : Message) : Prop where
  questions : AllAlong questionShort questionPlan m.questions (Plan.empty.skip 12)
  answers : AllAlong recordShort Record.plan m.answers m.questionsPlan
  authorities : AllAlong recordShort Record.plan m.authorities m.answersPlan
  additionals : AllAlong recordShort Record.plan m.additionals m.authoritiesPlan

lemma readable_of_short {updateSection : Record.UpdateSection} {records : List Record}
    (h : ∀ r ∈ records, r.Parsed updateSection) {p : Plan}
    (hshort : AllAlong recordShort Record.plan records p) :
    AllAlong (Record.Readable updateSection) Record.plan records p := by
  induction records generalizing p with
  | nil => trivial
  | cons r rest ih =>
    refine ⟨⟨hshort.1.1, ?_⟩, ih (fun r hr => h r (mem_cons_of_mem _ hr)) hshort.2⟩
    rcases (h r mem_cons_self).supported with hempty | hsup
    · exact .inl hempty
    · exact .inr ⟨hsup, hshort.1.2⟩

/-- A parsed message can be written exactly when it is not too large, and if its pointer chains
are short it is then read as the same message up to the case of names. -/
theorem parsed_reencode {b : Bytes} {m : Message} (hparse : parse b = .ok m)
    (hash : Bytes → UInt64) :
    ((∃ b', m.tryEncode hash = .ok b') ↔ m.plan.size ≤ maxDnsWireLen) ∧
      ∀ b', m.tryEncode hash = .ok b' → m.ShortChains →
        ∃ m', parse b' = .ok m' ∧ m'.lower = m.lower := by
  have h := parse_inv hparse
  have hsent := sent_of_parsed h
  have hwrite := m.write_encodes
  constructor
  · simp only [tryEncode_iff, hsent]
    constructor
    · rintro ⟨b', -, hok, -⟩
      exact (hwrite.of_ok (ready_new hash) hok).2.1
    · intro hsize
      exact ⟨_, encodable_of_parsed h,
        (hwrite.done (ready_new hash) (fits_of_parsed h) hsize).ready.error, rfl⟩
  intro b' hencode hshort
  have hreadable : m.sent.Readable := by
    rw [hsent]
    exact ⟨h.sizes, hshort.questions, readable_of_short h.answers hshort.answers,
      readable_of_short h.authorities hshort.authorities,
      readable_of_short h.additionals hshort.additionals⟩
  obtain ⟨m', hm', hlower⟩ := (parse_written (natural_of_parsed h) hencode).1 hreadable
  rw [readBack_of_parsed h] at hlower
  exact ⟨m', hm', hlower⟩

/-- A name of 255 bytes. -/
def longName : Name where
  labels := [List.replicate 63 97, List.replicate 63 97, List.replicate 63 97, List.replicate 61 97]
  label_len := by simp
  wire_len := by decide

/-- A DNAME record whose two names point to the question. -/
def bulkyRecordWire : Bytes := [0xC0, 12, 0, 39, 0, 1, 0, 0, 0, 60, 0, 2, 0xC0, 12]

def bulkyRecord : Record := ⟨longName, .DNAME, 1, 60, .dname longName⟩

variable (count : ℕ)

def bulkyHeader : Bytes :=
  be16 7 ++ (be16 0x8000 ++ (be16 1 ++ (be16 (UInt16.ofNat count) ++ (be16 0 ++ be16 0))))

/-- A response with `count` such records. -/
def bulkyWire : Bytes :=
  bulkyHeader count ++ (longName.wire ++ ((be16 39 ++ be16 1) ++
    (List.replicate count bulkyRecordWire).flatten))

def bulky : Message where
  header := ⟨7, true, 0, false, false, false, false, false, false, 0⟩
  questions := [⟨longName, .DNAME, 1⟩]
  answers := List.replicate count bulkyRecord
  authorities := []
  additionals := []

section Bulky

variable {buf : Bytes} {pos limit : ℕ}

section

variable (hname : Spells buf 12 longName.labels 0 267)
include hname

lemma parse_pointer (h : Holds buf pos [0xC0, 12]) (hpos : 267 ≤ pos) (hl : pos + 2 ≤ limit) :
    Name.parse ⟨buf, pos, limit⟩ = .ok (longName, ⟨buf, pos + 2, limit⟩) := by
  have hspells : Spells buf pos longName.labels 1 (pos + 2) :=
    .jump h.get_head rfl h.tail.get_head (show 12 < pos by omega) hname
  exact (parse_of_spells (r := ⟨buf, pos, limit⟩) hspells longName.wire_len hl).1 (by decide)

lemma parse_bulkyRecord
    (h : Holds buf pos bulkyRecordWire) (hpos : 267 ≤ pos) (hl : pos + 14 ≤ limit) :
    Record.parse .none ⟨buf, pos, limit⟩ = .ok (bulkyRecord, ⟨buf, pos + 14, limit⟩) := by
  have hbytes : bulkyRecordWire = [0xC0, 12] ++ (be16 39 ++ (be16 1 ++ (be32 60 ++ (be16 2 ++
      [0xC0, 12])))) := by decide
  rw [hbytes] at h
  have h₁ : Holds buf (pos + 2) _ := h.right
  have h₂ : Holds buf (pos + 4) _ := h₁.right
  have h₃ : Holds buf (pos + 6) _ := h₂.right
  have h₄ : Holds buf (pos + 10) _ := h₃.right
  have h₅ : Holds buf (pos + 12) _ := h₄.right
  have hdata : Record.parseData .none 39 1 2 ⟨buf, pos + 12, limit⟩ =
      .ok (.dname longName, ⟨buf, pos + 14, limit⟩) := by
    have hparse : RData.parse 39 2 ⟨buf, pos + 12, pos + 12 + 2⟩ =
        .ok (.dname longName, ⟨buf, pos + 12 + 2, pos + 12 + 2⟩) :=
      bind_ok (parse_pointer hname h₅ (by omega) le_rfl)
    rw [Record.parseData]
    simp only [false_and, if_false, if_neg (show ¬ limit < pos + 12 + 2 by omega),
      OfNat.ofNat_ne_zero, hparse, ne_eq, not_true_eq_false]
  refine (bind_ok (parse_pointer hname h.left hpos (by omega))).trans ?_
  refine (u16_at h₁ (by omega)).trans ?_
  refine (u16_at h₂ (by omega)).trans ?_
  refine (u32_at h₃ (by omega)).trans ?_
  refine (u16_at h₄ (by omega)).trans ?_
  exact bind_ok hdata

lemma readN_bulky {count : ℕ} (h : Holds buf pos (List.replicate count bulkyRecordWire).flatten)
    (hpos : 267 ≤ pos) (hl : pos + 14 * count ≤ limit) :
    readN (Record.parse .none) count ⟨buf, pos, limit⟩ =
      .ok (List.replicate count bulkyRecord, ⟨buf, pos + 14 * count, limit⟩) := by
  induction count generalizing pos with
  | zero => rfl
  | succ count ih =>
    have hrest : Holds buf (pos + 14) _ := h.right
    rw [readN, bind_ok (parse_bulkyRecord hname h.left hpos (by omega)),
      bind_ok (ih hrest (by omega) (by omega)),
      show pos + 14 + 14 * count = pos + 14 * (count + 1) by omega]
    rfl

end

end Bulky

lemma bulky_parse {count : ℕ} (hcount : count ≤ maxSectionItems) :
    parse (bulkyWire count) = .ok (bulky count) := by
  have hsmall : count ≤ 4096 := hcount
  have hlong : longName.wire.length = 255 := wireOf_length _
  have hflat : (replicate count bulkyRecordWire).flatten.length = 14 * count := by
    rw [length_flatten, map_replicate, sum_replicate, mul_comm]
    rfl
  have hlen : (bulkyWire count).length = 271 + 14 * count := by
    rw [bulkyWire, length_append, length_append, length_append, hlong, hflat]
    change 12 + (255 + (4 + 14 * count)) = _
    omega
  have hnat : (UInt16.ofNat count).toNat = count := toNat_ofNat_le16 (by omega)
  set buf := bulkyWire count with hbuf
  have hall : Holds buf 0 (bulkyHeader count ++ (longName.wire ++ ((be16 39 ++ be16 1) ++
      (replicate count bulkyRecordWire).flatten))) :=
    ⟨[], [], by rw [hbuf]; simp [bulkyWire], rfl⟩
  have hheader := hall.left
  have hbody : Holds buf 12 _ := hall.right
  have hflags : Holds buf 2 _ := hheader.right
  have hqd : Holds buf 4 _ := hflags.right
  have han : Holds buf 6 _ := hqd.right
  have hns : Holds buf 8 _ := han.right
  have har : Holds buf 10 _ := hns.right
  have hrest : Holds buf (12 + longName.wire.length) _ := hbody.right
  rw [hlong] at hrest
  have hclass : Holds buf 269 _ := hrest.left.right
  have hrecords : Holds buf 271 _ := hrest.right
  have hname : Spells buf 12 longName.labels 0 267 := spells_of_holds longName.label_len hbody.left
  have hquestion : parseQuestion ⟨buf, 12, buf.length⟩ =
      .ok (⟨longName, .DNAME, 1⟩, ⟨buf, 271, buf.length⟩) := by
    have hparse := Name.parse_restores longName hbody.left
      (show 12 + longName.wire.length ≤ buf.length by omega)
    rw [hlong] at hparse
    refine (bind_ok hparse).trans ?_
    refine (u16_at hrest.left (by omega)).trans ?_
    exact bind_ok (u16_restores _ hclass (by rw [be16_length]; omega))
  have hpossible : ¬ countsImpossible 1 count 0 0 (buf.length - 12) = true := by
    simp only [countsImpossible, Bool.or_eq_true, decide_eq_true_eq]
    have hmax : maxSectionItems = 4096 := rfl
    omega
  have hread : parseBody ⟨buf, 0, buf.length⟩ =
      .ok (bulky count, ⟨buf, buf.length, buf.length⟩) := by
    unfold parseBody
    rw [u16_at hheader (by omega), u16_at hflags (by omega),
      u16_at hqd (by omega), u16_at han (by omega),
      u16_at hns (by omega), bind_ok (u16_restores _ har (by rw [be16_length]; omega)), get_bind, hnat]
    refine (bind_ok (refuseIf_read hpossible)).trans ?_
    refine (bind_ok ((bind_ok hquestion).trans rfl)).trans ?_
    refine (bind_ok (readN_bulky hname hrecords (by omega) (by omega))).trans ?_
    refine (bind_ok (v := []) rfl).trans ?_
    refine (bind_ok (refuseIf_read ?_)).trans ?_
    · simp only [bulkyRecord, isOpt, append_nil, any_replicate]
      split <;> simp [show ¬ RecordType.DNAME = .OPT by decide]
    refine (bind_ok (v := []) rfl).trans ?_
    rw [get_bind, ← hlen]
    refine (bind_ok (refuseIf_read (by simp [Reader.remaining]))).trans ?_
    rfl
  rw [parse, if_neg (by rw [hlen]; change ¬ 65535 < _; omega)]
  change Prod.fst <$> parseBody ⟨buf, 0, buf.length⟩ = _
  rw [hread]
  rfl

/-- Written again, each of its records takes at least 266 bytes. -/
theorem bulky_size : count * 266 ≤ (bulky count).plan.size := by
  have hrecord : ∀ r ∈ (bulky count).answers, ∀ p, p.size + 266 ≤ (r.plan p).size := by
    intro r hr p
    rw [eq_of_mem_replicate hr]
    have hname := one_le_cost p longName.labels
    change p.size + 266 ≤ p.size + p.cost longName.labels + 10 + longName.wire.length
    rw [show longName.wire.length = 255 from wireOf_length _]
    omega
  have hsize := planList_size hrecord (bulky count).questionsPlan
  change _ + (replicate count bulkyRecord).length * 266 ≤ (bulky count).plan.size at hsize
  rw [length_replicate] at hsize
  omega

/-- Two records, the names of which all point to the question, are written and read again. -/
theorem parsed_reencode_bulky : ∃ b', (bulky 2).tryEncode (fun _ => 0) = .ok b' ∧
    ∃ m', parse b' = .ok m' ∧ m'.lower = (bulky 2).lower := by
  obtain ⟨hwrite, hread⟩ :=
    parsed_reencode (bulky_parse (show 2 ≤ maxSectionItems by decide)) fun _ => 0
  obtain ⟨b', hb'⟩ := hwrite.mpr (by decide +kernel)
  exact ⟨b', hb', hread b' hb' ⟨⟨Nat.zero_le _, trivial⟩, ⟨⟨by decide +kernel, trivial⟩,
    ⟨by decide +kernel, trivial⟩, trivial⟩, trivial, trivial⟩⟩

/-- A response of less than four kilobytes that cannot be written again: the encoder does not
compress the names of DNAME records. -/
theorem bulky_not_encodable : (bulkyWire 250).length = 3771 ∧
    parse (bulkyWire 250) = .ok (bulky 250) ∧
    ∀ hash b', (bulky 250).tryEncode hash ≠ .ok b' := by
  have hparse := bulky_parse (show 250 ≤ maxSectionItems by decide)
  refine ⟨by decide +kernel, hparse, ?_⟩
  intro hash b' hencode
  obtain ⟨-, hok, -⟩ := tryEncode_iff.mp hencode
  have hfit := ((bulky 250).write_encodes.of_ok (ready_new hash) hok).2.1
  have hsize := bulky_size 250
  change (bulky 250).plan.size ≤ 65535 at hfit
  omega

end Message

end OnetDns.Dns
