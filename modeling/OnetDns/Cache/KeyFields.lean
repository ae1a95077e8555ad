import OnetDns.Cache.RequestKey
import OnetDns.Dns.Reading

/-!
# What a key stands for

Two requests with keys have the same key exactly when they agree on the flags, the
question and the EDNS parameters that the answer may depend on.
-/
namespace OnetDns.Cache
open Dns BigEndian List Option

/-- The length of the key that `fromRequest` checks before it builds it. -/
def keyLen (question : Question) (edns : Option KeyEdns) : ℕ :=
  1 + 2 + question.name.canonicalKey.length + 4 + 1 +
    (edns.map fun edns => 6 + edns.semanticOptionBytes).getD 0

variable {m : Message}

lemma fromRequest_eq_some {k : Bytes} :
    fromRequest m = some k ↔ ¬ refused m = true ∧ ∃ question edns,
      m.questions.head? = some question ∧ m.additionals.head?.mapM KeyEdns.ofRecord = some edns ∧
      keyLen question edns ≤ maxCachedRequestWire ∧
      k = keyBytes m.header question question.name.canonicalKey edns := by
  have hname : ∀ n : Name, n.canonicalKeyInto 255 = some n.canonicalKey := fun n =>
    if_neg (not_lt.mpr n.wire_len)
  rw [fromRequest]
  split
  case isTrue hrefused => simp [hrefused]
  case isFalse hrefused =>
    simp only [bind_eq_bind, bind_eq_some_iff, hname, some.injEq, exists_eq_left', hrefused]
    constructor
    · rintro ⟨question, hquestion, edns, hedns, h⟩
      split at h
      case isTrue => cases h
      case isFalse hlen =>
        cases h
        exact ⟨Bool.noConfusion, question, edns, hquestion, hedns, not_lt.mp hlen, rfl⟩
    · rintro ⟨-, question, edns, hquestion, hedns, hlen, rfl⟩
      exact ⟨question, hquestion, edns, hedns, if_neg (not_lt.mpr hlen)⟩

def semanticOptions (options : List (UInt16 × Bytes)) : List (UInt16 × Bytes) :=
  options.filter fun option => option.1 ≠ ednsPadding

/-- The two loops over the raw options see what `Edns` sees. -/
structure OptionsRead (fuel : ℕ) (raw : Bytes) (count count' : UInt16)
    (options : List (UInt16 × Bytes)) : Prop where
  visited : Edns.visitOptions fuel raw = .ok options
  short : ∀ option ∈ options, option.2.length ≤ 65535
  copied : copyOptions fuel raw = (semanticOptions options).flatMap paramBytes
  counted : count'.toNat = count.toNat + (semanticOptions options).length

lemma countOptions_inv {fuel : ℕ} {raw : Bytes} {count count' : UInt16} {size size' : ℕ}
    (h : countOptions fuel raw count size = some (count', size')) :
    ∃ options, OptionsRead fuel raw count count' options := by
  induction fuel generalizing raw count size with
  | zero =>
    cases raw with
    | nil =>
      cases h
      exact ⟨[], rfl, nofun, rfl, rfl⟩
    | cons c rest => cases h
  | succ fuel ih =>
    rcases raw with _ | ⟨c₀, _ | ⟨c₁, _ | ⟨l₀, _ | ⟨l₁, rest⟩⟩⟩⟩
    · cases h
      exact ⟨[], rfl, nofun, rfl, rfl⟩
    · cases h
    · cases h
    · cases h
    simp only [countOptions] at h
    split at h
    · cases h
    rename_i hlen
    set len := (ofBe16 [l₀, l₁]).toNat with hlenDef
    have htake : (rest.take len).length = len := length_take_of_le (not_lt.mp hlen)
    have hlt : len < 65536 := (ofBe16 [l₀, l₁]).toNat_lt
    have hvisited : ∀ options, Edns.visitOptions fuel (rest.drop len) = .ok options →
        Edns.visitOptions (fuel + 1) (c₀ :: c₁ :: l₀ :: l₁ :: rest) =
          .ok ((ofBe16 [c₀, c₁], rest.take len) :: options) := by
      intro options hrest
      simp only [Edns.visitOptions, refuseIf, ← hlenDef, if_neg hlen, hrest]
      rfl
    have hshort : ∀ options : List (UInt16 × Bytes), (∀ option ∈ options, option.2.length ≤ 65535) →
        ∀ option ∈ (ofBe16 [c₀, c₁], rest.take len) :: options, option.2.length ≤ 65535 := by
      intro options hoptions
      refine forall_mem_cons.mpr ⟨?_, hoptions⟩
      change (rest.take len).length ≤ 65535
      omega
    split at h
    case isTrue hpadding =>
      obtain ⟨options, hread⟩ := ih h
      refine ⟨_, hvisited options hread.visited, hshort options hread.short, ?_, ?_⟩
      · simp [copyOptions, hpadding, semanticOptions, hread.copied, ← hlenDef]
      · simp [hread.counted, semanticOptions, hpadding]
    case isFalse hsemantic =>
      split at h
      · cases h
      rename_i hcount
      obtain ⟨options, hread⟩ := ih h
      have hkept : semanticOptions ((ofBe16 [c₀, c₁], rest.take len) :: options) =
          (ofBe16 [c₀, c₁], rest.take len) :: semanticOptions options := by
        simp [semanticOptions, hsemantic]
      refine ⟨_, hvisited options hread.visited, hshort options hread.short, ?_, ?_⟩
      · simp only [copyOptions, ← hlenDef, if_neg hsemantic, hread.copied, hkept,
          flatMap_cons, paramBytes, htake, append_assoc]
      have hbound := count.toNat_lt
      have hcount' : count.toNat ≠ 65535 := fun h => hcount (UInt16.toNat.inj h)
      have hsucc : (count + 1).toNat = count.toNat + 1 := by
        change (count.toNat + 1) % 65536 = _
        omega
      rw [hread.counted, hkept, length_cons]
      omega

lemma be16_injective {a b : UInt16} (h : be16 a = be16 b) : a = b := by
  rw [← ofBe16_be16 a, h, ofBe16_be16]

lemma paramBytes_append_inj {a b : UInt16 × Bytes} (ha : a.2.length ≤ 65535)
    (hb : b.2.length ≤ 65535) {x y : Bytes} (h : paramBytes a ++ x = paramBytes b ++ y) :
    a = b ∧ x = y := by
  simp only [paramBytes, append_assoc] at h
  obtain ⟨hcode, h⟩ := append_inj h rfl
  obtain ⟨hlen, h⟩ := append_inj h rfl
  have hsame : a.2.length = b.2.length := by
    have hnat := congrArg UInt16.toNat (be16_injective hlen)
    rw [UInt16.toNat_ofNat', UInt16.toNat_ofNat'] at hnat
    omega
  obtain ⟨hdata, rfl⟩ := append_inj h hsame
  exact ⟨Prod.ext (be16_injective hcode) hdata, rfl⟩

/-- Options are read back from their bytes in one way. -/
theorem flatMap_paramBytes_inj {a b : List (UInt16 × Bytes)}
    (ha : ∀ option ∈ a, option.2.length ≤ 65535) (hb : ∀ option ∈ b, option.2.length ≤ 65535)
    (h : a.flatMap paramBytes = b.flatMap paramBytes) : a = b := by
  induction a generalizing b with
  | nil =>
    cases b with
    | nil => rfl
    | cons y b => simp [paramBytes, be16, encode] at h
  | cons x a ih =>
    cases b with
    | nil => simp [paramBytes, be16, encode] at h
    | cons y b =>
      obtain ⟨rfl, hrest⟩ := paramBytes_append_inj (ha x mem_cons_self) (hb y mem_cons_self) h
      rw [ih (fun o ho => ha o (mem_cons_of_mem _ ho))
        (fun o ho => hb o (mem_cons_of_mem _ ho)) hrest]

/-- The part of the EDNS parameters that an answer may depend on. -/
structure SemanticEdns where
  udpPayload : UInt16
  version : UInt8
  dnssecOk : Bool
  options : List (UInt16 × Bytes)

def SemanticEdns.of (edns : Edns) : SemanticEdns :=
  ⟨edns.udpPayload, edns.version, edns.dnssecOk, semanticOptions edns.options⟩

/-- The part of a request that an answer may depend on, with the name in lower case. -/
structure RequestFields where
  recursionDesired : Bool
  authenticData : Bool
  checkingDisabled : Bool
  question : Option (List Bytes × RecordType × DnsClass)
  edns : Option (Except ProtoError SemanticEdns)

def requestFields (m : Message) : RequestFields where
  recursionDesired := m.header.recursionDesired
  authenticData := m.header.authenticData
  checkingDisabled := m.header.checkingDisabled
  question := m.questions.head?.map fun question =>
    (lowerLabels question.name.labels, question.qtype, question.qclass)
  edns := m.additionals.head?.map fun record => (Edns.tryFromRecord record).map SemanticEdns.of

/-- What the end of the key says. -/
def SemanticEdns.bytes (edns : SemanticEdns) : Bytes :=
  be16 edns.udpPayload ++ ([edns.version] ++ ([edns.dnssecOk.toUInt8] ++
    (be16 (UInt16.ofNat edns.options.length) ++ edns.options.flatMap paramBytes)))

lemma SemanticEdns.bytes_inj {a b : SemanticEdns}
    (ha : ∀ option ∈ a.options, option.2.length ≤ 65535)
    (hb : ∀ option ∈ b.options, option.2.length ≤ 65535) (h : a.bytes = b.bytes) : a = b := by
  obtain ⟨hpayload, h⟩ := append_inj h rfl
  obtain ⟨hversion, h⟩ := append_inj h rfl
  obtain ⟨hdo, h⟩ := append_inj h rfl
  obtain ⟨-, h⟩ := append_inj h rfl
  have hbool : ∀ x y : Bool, x.toUInt8 = y.toUInt8 → x = y := by decide
  cases a
  cases b
  simp only [mk.injEq]
  exact ⟨be16_injective hpayload, singleton_injective hversion,
    hbool _ _ (singleton_injective hdo), flatMap_paramBytes_inj ha hb h⟩

lemma KeyEdns.ofRecord_inv {record : Record} {edns : KeyEdns} (hopt : record.rtype = .OPT)
    (h : KeyEdns.ofRecord record = some edns) :
    ∃ fields, (Edns.tryFromRecord record).map SemanticEdns.of = .ok fields ∧
      edns.bytes = fields.bytes ∧ ∀ option ∈ fields.options, option.2.length ≤ 65535 := by
  rw [ofRecord] at h
  split at h
  case isTrue => cases h
  case isFalse hroot =>
    split at h
    case h_2 => cases h
    case h_1 rtype raw hdata =>
      simp only [bind_eq_bind, bind_eq_some_iff, Option.pure_def, some.injEq, Prod.exists] at h
      obtain ⟨count, size, hcount, rfl⟩ := h
      obtain ⟨options, hread⟩ := countOptions_inv hcount
      have hparts : Edns.recordParts record = .ok (record.ttl, raw) := by
        rw [Edns.recordParts, if_neg (not_not.mpr hopt), if_neg hroot, hdata]
      have hversion : ((record.ttl >>> 16) &&& 0xff).toUInt8 = (record.ttl >>> 16).toUInt8 := by
        apply UInt8.toNat.inj
        rw [UInt32.toNat_toUInt8, UInt32.toNat_toUInt8]
        change ((record.ttl >>> 16).toNat &&& (2 ^ 8 - 1)) % 2 ^ 8 = _
        rw [Nat.and_two_pow_sub_one_eq_mod, Nat.mod_mod]
      refine ⟨⟨record.class', (record.ttl >>> 16).toUInt8, record.ttl &&& 0x8000 != 0,
        semanticOptions options⟩, ?_, ?_, ?_⟩
      · rw [Edns.tryFromRecord, hparts]
        change Except.map SemanticEdns.of (Edns.visitOptions raw.length raw >>= _) = _
        rw [hread.visited]
        rfl
      · have hlen : .ofNat (semanticOptions options).length = count := by
          rw [← UInt16.ofNat_toNat (x := count), hread.counted]
          simp
        simp only [bytes, SemanticEdns.bytes, hread.copied, hversion, hlen, append_assoc]
      · intro option hoption
        exact hread.short option (mem_of_mem_filter hoption)

lemma semanticFlags_inj {rd ad cd rd' ad' cd' : Bool}
    (h : semanticFlags rd ad cd = semanticFlags rd' ad' cd') : rd = rd' ∧ ad = ad' ∧ cd = cd' := by
  revert rd ad cd rd' ad' cd'
  decide

lemma additionals_of_key (h : ¬ refused m = true) {record : Record}
    (hrecord : m.additionals.head? = some record) : record.rtype = .OPT := by
  simp only [refused, Bool.or_eq_true, not_or, List.any_eq_true, bne_iff_ne, not_exists, not_and,
    not_not] at h
  exact h.2 record (mem_of_mem_head? hrecord)

lemma key_of_fields {k : Bytes} (h : fromRequest m = some k) :
    ∃ (question : Question) (edns : Option SemanticEdns),
      requestFields m = ⟨m.header.recursionDesired, m.header.authenticData,
        m.header.checkingDisabled,
        some (lowerLabels question.name.labels, question.qtype, question.qclass), edns.map .ok⟩ ∧
      (∀ fields ∈ edns, ∀ option ∈ fields.options, option.2.length ≤ 65535) ∧
      k = [1] ++ (be16 (semanticFlags m.header.recursionDesired m.header.authenticData
        m.header.checkingDisabled) ++ (wireOf (lowerLabels question.name.labels) ++
        (be16 question.qtype ++ (be16 question.qclass ++ ([edns.isSome.toUInt8] ++
        (edns.map SemanticEdns.bytes).getD []))))) := by
  obtain ⟨hrefused, question, edns, hquestion, hedns, -, rfl⟩ := fromRequest_eq_some.mp h
  cases hhead : m.additionals.head? with
  | none =>
    rw [hhead] at hedns
    cases hedns
    refine ⟨question, none, ?_, nofun, ?_⟩
    · simp [requestFields, hquestion, hhead]
    · simp [keyBytes, Name.canonicalKey]
  | some record =>
    rw [hhead] at hedns
    simp only [mapM_some, Option.map_eq_map, map_eq_some_iff] at hedns
    obtain ⟨edns, hedns, rfl⟩ := hedns
    obtain ⟨fields, hfields, hbytes, hshort⟩ :=
      KeyEdns.ofRecord_inv (additionals_of_key hrefused hhead) hedns
    refine ⟨question, some fields, ?_, ?_, ?_⟩
    · simp [requestFields, hquestion, hhead, hfields]
    · intro fields' hfields'
      cases hfields'
      exact hshort
    · simp [keyBytes, Name.canonicalKey, hbytes]

/-- Keys are equal exactly when the fields are. -/
theorem key_eq_iff {m₁ m₂ : Message} {k₁ k₂ : Bytes} (h₁ : fromRequest m₁ = some k₁)
    (h₂ : fromRequest m₂ = some k₂) : k₁ = k₂ ↔ requestFields m₁ = requestFields m₂ := by
  obtain ⟨q₁, edns₁, hfields₁, hshort₁, rfl⟩ := key_of_fields h₁
  obtain ⟨q₂, edns₂, hfields₂, hshort₂, rfl⟩ := key_of_fields h₂
  rw [hfields₁, hfields₂]
  constructor
  · intro h
    obtain ⟨-, h⟩ := append_inj h rfl
    obtain ⟨hflags, h⟩ := append_inj h rfl
    obtain ⟨hname, h⟩ := wireOf_append_inj (lower_label_len q₁.name.label_len)
      (lower_label_len q₂.name.label_len) h
    obtain ⟨hqtype, h⟩ := append_inj h rfl
    obtain ⟨hqclass, h⟩ := append_inj h rfl
    obtain ⟨hsome, h⟩ := append_inj h rfl
    obtain ⟨hrd, had, hcd⟩ := semanticFlags_inj (be16_injective hflags)
    have hedns : edns₁ = edns₂ := by
      cases edns₁ with
      | none =>
        cases edns₂ with
        | none => rfl
        | some b => exact absurd hsome (show [(0 : UInt8)] ≠ [1] by decide)
      | some a =>
        cases edns₂ with
        | none => exact absurd hsome (show [(1 : UInt8)] ≠ [0] by decide)
        | some b =>
          rw [SemanticEdns.bytes_inj (hshort₁ a rfl) (hshort₂ b rfl) h]
    rw [hrd, had, hcd, hname, be16_injective hqtype, be16_injective hqclass, hedns]
  · intro h
    simp only [RequestFields.mk.injEq, some.injEq, Prod.mk.injEq] at h
    obtain ⟨hrd, had, hcd, ⟨hname, hqtype, hqclass⟩, hedns⟩ := h
    have hedns : edns₁ = edns₂ := map_injective (fun _ _ => Except.ok.inj) hedns
    rw [hrd, had, hcd, hname, hqtype, hqclass, hedns]

end OnetDns.Cache
