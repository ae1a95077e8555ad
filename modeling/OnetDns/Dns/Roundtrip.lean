import OnetDns.Dns.MessageCodec

/-!
# A written message, read back

`Message.readBack` is the message that stands on the wire. What `tryEncode` returns is
read as this message, up to the case of names, or refused.
-/
namespace OnetDns.Dns
open List Record Nat Appends

/-- The lower four and the upper eight bits make up the code. -/
theorem rcode_join {r : UInt16} (h : r ≤ 0x0fff) :
    (r &&& (0xF : UInt16)) ||| ((((r >>> 4) &&& 0xff).toUInt8).toUInt16 <<< 4) = r := by
  have hn : r.toNat < 4096 := lt_succ_of_le (UInt16.le_iff_toNat_le.mp h)
  have hlow : r.toNat &&& 15 = r.toNat % 16 := and_two_pow_sub_one_eq_mod r.toNat 4
  have hhigh : r.toNat / 16 &&& 255 = r.toNat / 16 := by
    rw [show (255 : ℕ) = 2 ^ 8 - 1 from rfl, and_two_pow_sub_one_eq_mod]
    omega
  apply UInt16.toNat.inj
  simp only [UInt16.toNat_or, UInt16.toNat_and, UInt16.toNat_shiftLeft, UInt16.toNat_shiftRight,
    UInt8.toNat_toUInt16, UInt16.toNat_toUInt8, UInt16.reduceToNat, shiftRight_eq_div_pow,
    shiftLeft_eq, hlow, hhigh]
  rw [mod_eq_of_lt (show r.toNat / 16 < 256 by omega),
    Nat.mod_eq_of_lt (show r.toNat / 16 * 16 < 65536 by omega), Nat.or_comm]
  have hor := two_pow_add_eq_or_of_lt (show r.toNat % 16 < 2 ^ 4 by omega) (r.toNat / 16)
  rw [mul_comm, ← hor]
  omega

lemma upper_of_ttl (ttl : UInt32) (u : UInt8) :
    (((ttl &&& (0x00ffffff : UInt32)) ||| (u.toUInt32 <<< 24)) >>> 24).toUInt8 = u := by
  have hlow : (ttl &&& (0x00ffffff : UInt32)) >>> 24 = 0 := by
    rw [UInt32.shiftRight_and]
    exact UInt32.and_zero
  rw [UInt32.shiftRight_or, hlow, UInt32.zero_or]
  apply UInt8.toNat.inj
  have hu := u.toNat_lt
  simp only [UInt32.toNat_toUInt8, UInt32.toNat_shiftRight, UInt32.toNat_shiftLeft,
    UInt8.toNat_toUInt32, UInt32.reduceToNat,
    reduceMod]
  omega

namespace Edns

lemma isRoot_lower (n : Name) : n.lower.isRoot = n.isRoot := by
  cases h : n.labels <;> simp [Name.isRoot, Name.lower, lowerLabels]

lemma recordParts_lower (rec : Record) : recordParts rec.lower = recordParts rec := by
  unfold recordParts
  simp only [lower, isRoot_lower]
  cases rec.rdata <;> rfl

lemma validateRecord_lower {rec rec' : Record} (h : rec'.lower = rec.lower) :
    validateRecord rec' = validateRecord rec := by
  unfold validateRecord
  rw [← recordParts_lower rec', h, recordParts_lower]

/-- An OPT record that passes the check of the encoder passes that of the parser, with
any TTL. -/
theorem validateRecord_of_parts {rec : Record} {edns : Edns} (h : tryFromRecord rec = .ok edns)
    (ttl : UInt32) : validateRecord { rec with ttl } = .ok (ttl >>> 24).toUInt8 := by
  unfold tryFromRecord at h
  simp only [Except.bind_iff] at h
  obtain ⟨⟨ttl', raw⟩, hparts, options, hoptions, -⟩ := h
  have hparts' : recordParts { rec with ttl } = .ok (ttl, raw) := by
    unfold recordParts at hparts ⊢
    split at hparts
    · cases hparts
    split at hparts
    · cases hparts
    rename_i htype hroot
    rw [if_neg htype, if_neg hroot]
    cases hdata : rec.rdata with
    | unknown rtype bytes =>
      rw [hdata] at hparts
      cases hparts
      rfl
    | _ =>
      rw [hdata] at hparts
      cases hparts
  unfold validateRecord
  simp only [hparts', Except.bind_iff]
  exact ⟨_, rfl, options, hoptions, rfl⟩

end Edns

namespace Message

/-- Every name in lower case. -/
def lower (m : Message) : Message :=
  { m with
    questions := m.questions.map fun q => { q with name := q.name.lower }
    answers := m.answers.map Record.lower
    authorities := m.authorities.map Record.lower
    additionals := m.additionals.map Record.lower }

/-- The message that is read: the OPT record holds the upper bits of the response code, and
records without data in a section of an UPDATE message are raw. -/
def readBack (m : Message) : Message :=
  { m.sent with
    answers := m.answers.map fun r => r.readBack m.header.answerSection r.ttl
    authorities := m.authorities.map fun r => r.readBack m.header.authoritySection r.ttl }

/-- Every record has the variant that the parser builds for its type. -/
structure Natural (m : Message) : Prop where
  answers : ∀ r ∈ m.answers, r.Natural m.header.answerSection
  authorities : ∀ r ∈ m.authorities, r.Natural m.header.authoritySection
  additionals : ∀ r ∈ m.additionals, r.Natural .none

def questionPlan (q : Question) (p : Plan) : Plan := (p.add q.name.labels).skip 4

def questionShort (q : Question) (p : Plan) : Prop := p.links q.name.labels ≤ maxJumps

def questionsPlan (m : Message) : Plan := planList questionPlan m.questions (Plan.empty.skip 12)
def answersPlan (m : Message) : Plan := planList Record.plan m.answers m.questionsPlan
def authoritiesPlan (m : Message) : Plan := planList Record.plan m.authorities m.answersPlan

def plan (m : Message) : Plan := planList Record.plan m.additionals m.authoritiesPlan

/-- What the parser demands of a message that was written: sections that are not too large,
types it knows how to keep, and pointer chains that are not too long. -/
structure Readable (m : Message) : Prop where
  sizes : m.questions.length ≤ maxSectionItems ∧ m.answers.length ≤ maxSectionItems ∧
    m.authorities.length ≤ maxSectionItems ∧ m.additionals.length ≤ maxSectionItems
  questions : AllAlong questionShort questionPlan m.questions (Plan.empty.skip 12)
  answers : AllAlong (Record.Readable m.header.answerSection) Record.plan m.answers m.questionsPlan
  authorities : AllAlong (Record.Readable m.header.authoritySection) Record.plan m.authorities
    m.answersPlan
  additionals : AllAlong (Record.Readable .none) Record.plan m.additionals m.authoritiesPlan

lemma checkRecord_type {r : Record} (h : checkRecord r = .ok ()) :
    r.rtype = r.rdata.recordType := by
  unfold checkRecord at h
  split at h
  · cases h
  · rename_i htype
    exact not_not.mp htype

variable (r : Record)

/-- Outside of UPDATE sections nothing is left out. -/
theorem readBack_none : r.readBack .none r.ttl = r := by
  have h : ¬ r.Empty .none := fun h => absurd h.1 not_mem_nil
  rw [Record.readBack, if_neg h]

variable {m : Message}

lemma forall_sent {P : Record → Prop} (h : ∀ r ∈ m.additionals, P r)
    (httl : ∀ r ttl, P r → P { r with ttl }) (hopt : P m.syntheticOpt) :
    ∀ r ∈ m.sent.additionals, P r := by
  intro r hr
  rcases mem_append.mp hr with hr | hr
  · obtain ⟨r', hr', rfl⟩ := mem_map.mp hr
    exact httl r' _ (h r' hr')
  · split at hr
    · rw [mem_singleton.mp hr]
      exact hopt
    · cases hr

lemma sent_types (h : m.Encodable) : (∀ r ∈ m.answers, r.rtype = r.rdata.recordType) ∧
      (∀ r ∈ m.authorities, r.rtype = r.rdata.recordType) ∧
      ∀ r ∈ m.sent.additionals, r.rtype = r.rdata.recordType := by
  have htype : ∀ r ∈ m.answers ++ m.authorities ++ m.additionals, r.rtype = r.rdata.recordType :=
    fun r hr => checkRecord_type (h.records r hr)
  refine ⟨fun r hr => htype r (by simp [hr]), fun r hr => htype r (by simp [hr]), ?_⟩
  exact forall_sent (fun r hr => htype r (by simp [hr])) (fun _ _ => id) rfl

lemma sent_natural (h : m.Natural) : ∀ r ∈ m.sent.additionals, r.Natural .none := by
  refine forall_sent h.additionals (fun _ _ => id) (.inl ?_)
  change .OPT ∉ RData.typedTypes
  decide

/-- The OPT record of the message that is written: that of the message, or the added one. -/
theorem sent_opt (h : m.Encodable) : (m.sent.additionals.filter isOpt = [] ∧ m.header.rcode ≤ 0xf) ∨
      ∃ opt, m.sent.additionals.filter isOpt = [opt] ∧
        Edns.validateRecord opt = .ok m.upperRcode := by
  have hfilter : (m.additionals.map fun r => { r with ttl := m.additionalTtl r }).filter isOpt =
      (m.additionals.filter isOpt).map fun r => { r with ttl := m.additionalTtl r } := by
    rw [filter_map]
    rfl
  have hsyn : isOpt m.syntheticOpt = true := rfl
  rw [show m.sent.additionals = (m.additionals.map fun r => { r with ttl := m.additionalTtl r }) ++
    (if m.needsSyntheticOpt then [m.syntheticOpt] else []) from rfl, filter_append, hfilter]
  cases hopts : m.additionals.filter isOpt with
  | nil =>
    by_cases hneeds : m.needsSyntheticOpt = true
    · refine .inr ⟨m.syntheticOpt, ?_, ?_⟩
      · rw [if_pos hneeds]
        simp [hsyn]
      have hvalid : Edns.validateRecord m.syntheticOpt =
          .ok ((m.upperRcode.toUInt32 <<< 24) >>> 24).toUInt8 := rfl
      have hupper := upper_of_ttl 0 m.upperRcode
      rw [show (0 : UInt32) &&& (0x00ffffff : UInt32) = 0 from rfl, UInt32.zero_or] at hupper
      rw [hvalid, hupper]
    · refine .inl ⟨?_, ?_⟩
      · rw [if_neg hneeds]
        rfl
      · simp only [needsSyntheticOpt, hopts, length_nil, beq_self_eq_true, Bool.and_true,
          decide_eq_true_eq] at hneeds
        exact UInt16.not_lt.mp hneeds
  | cons opt rest =>
    have hrest : rest = [] := by
      have hone := h.oneOpt
      rw [hopts] at hone
      exact eq_nil_of_length_eq_zero (by simpa using hone)
    subst hrest
    have hneeds : ¬ m.needsSyntheticOpt = true := by simp [needsSyntheticOpt, hopts]
    have hmem : opt ∈ m.additionals.filter isOpt := by simp [hopts]
    have htype : opt.rtype = .OPT := by simpa [isOpt] using (mem_filter.mp hmem).2
    have hfind : m.additionals.find? isOpt = some opt := by
      rw [← head?_filter, hopts]
      rfl
    have hcheck := h.opt
    unfold checkOpt at hcheck
    rw [hfind] at hcheck
    simp only [Except.bind_iff] at hcheck
    obtain ⟨-, -, edns, hedns, -⟩ := hcheck
    refine .inr ⟨{ opt with ttl := m.additionalTtl opt }, ?_, ?_⟩
    · rw [if_neg hneeds]
      rfl
    · rw [Edns.validateRecord_of_parts hedns, additionalTtl, if_pos htype, upper_of_ttl]

/-- The parser puts the response code together again. -/
theorem withExtendedRcode_sent (h : m.Encodable) {read : List Record}
    (hread : read.map Record.lower = m.sent.additionals.map Record.lower) :
    withExtendedRcode { m.header with rcode := m.header.rcode &&& 0xF } read = .ok m.header := by
  have hfilter : (read.filter isOpt).map Record.lower =
      (m.sent.additionals.filter isOpt).map .lower := by
    have hcomp : isOpt ∘ .lower = isOpt := rfl
    rw [← hcomp, ← filter_map, ← filter_map, hread]
  unfold withExtendedRcode
  rcases sent_opt h with ⟨hnone, hrcode⟩ | ⟨opt, hone, hvalid⟩
  · rw [hnone] at hfilter
    rw [map_eq_nil_iff.mp hfilter]
    have hlow : m.header.rcode &&& 0xF = m.header.rcode := by
      apply UInt16.toNat.inj
      have hle := UInt16.le_iff_toNat_le.mp hrcode
      rw [UInt16.toNat_and, show (0xF : UInt16).toNat = 2 ^ 4 - 1 from rfl,
        and_two_pow_sub_one_eq_mod]
      simp only [UInt16.reduceToNat] at hle
      omega
    simp only [hlow]
  rw [hone] at hfilter
  obtain ⟨opt', hopt'⟩ : ∃ opt', read.filter isOpt = [opt'] := by
    have hlen := congrArg length hfilter
    rw [length_map] at hlen
    exact length_eq_one_iff.mp hlen
  rw [hopt'] at hfilter ⊢
  have hlower : opt'.lower = opt.lower := by simpa using hfilter
  simp only [Edns.validateRecord_lower hlower, hvalid, Except.bind_iff]
  refine ⟨_, rfl, ?_⟩
  have hjoin := rcode_join h.rcode
  change Except.ok _ = _
  rw [show m.upperRcode = ((m.header.rcode >>> 4) &&& 0xff).toUInt8 from rfl]
  simp only [hjoin]

lemma encode_encodes : Encodes r.encode r.rdata.Fits r.plan := r.encodeWithTtl_encodes r.ttl

def headerBytes (m : Message) : Bytes :=
  be16 m.header.id ++ (be16 m.header.flags ++ (be16 m.counts.1 ++ (be16 m.counts.2.1 ++
    (be16 m.counts.2.2.1 ++ be16 m.counts.2.2.2))))

lemma writeHeader_appends (m : Message) : Appends m.writeHeader True m.headerBytes :=
  ((pushU16 _).comp ((pushU16 _).comp ((pushU16 _).comp
    ((pushU16 _).comp ((pushU16 _).comp (.pushU16 _)))))).congr (by simp) rfl

lemma headerBytes_length (m : Message) : m.headerBytes.length = 12 := by
  simp only [headerBytes, length_append, be16_length]

/-- Every record fits the format. -/
def Fits (m : Message) : Prop :=
  ((∀ r ∈ m.answers, r.rdata.Fits) ∧ ∀ r ∈ m.authorities, r.rdata.Fits) ∧
    ∀ r ∈ m.additionals, r.rdata.Fits

lemma write_encodes (m : Message) : Encodes m.write m.Fits
    (fun p => planList Record.plan m.additionals (planList Record.plan m.authorities
      (planList Record.plan m.answers (planList questionPlan m.questions (p.skip 12))))) := by
  have hheader : Encodes m.writeHeader True (·.skip 12) :=
    m.writeHeader_appends.encodes.congr Iff.rfl fun p => by rw [headerBytes_length]
  have hquestions : Encodes (encodeList encodeQuestion m.questions) (∀ q ∈ m.questions, True)
      (planList questionPlan m.questions) :=
    encodeList_encodes fun q _ => encodeQuestion_encodes q
  have hrecords : ∀ rs : List Record, Encodes (encodeList encode rs)
      (∀ r ∈ rs, r.rdata.Fits) (planList Record.plan rs) :=
    fun rs => encodeList_encodes fun r _ => encode_encodes r
  exact ((((hheader.comp hquestions).comp (hrecords m.answers)).comp
    (hrecords m.authorities)).comp (hrecords m.additionals)).congr (by simp [Fits]) fun p => rfl

/-- Items of a least size. -/
theorem planList_size {α : Type} {plan : α → Plan → Plan} {c : ℕ} {xs : List α}
    (h : ∀ x ∈ xs, ∀ p, p.size + c ≤ (plan x p).size) (p : Plan) :
    p.size + xs.length * c ≤ (planList plan xs p).size := by
  induction xs generalizing p with
  | nil =>
    change p.size + 0 * c ≤ p.size
    omega
  | cons x rest ih =>
    have hx := h x mem_cons_self p
    have hrest := ih (fun y hy => h y (mem_cons_of_mem _ hy)) (plan x p)
    change p.size + (rest.length + 1) * c ≤ (planList plan rest (plan x p)).size
    rw [add_mul]
    omega

lemma record_size (p : Plan) : p.size + 11 ≤ (r.plan p).size := by
  have hname := one_le_cost p r.name.labels
  have hdata := r.rdata.encode_encodes.grows ((p.add r.name.labels).skip 10)
  change p.size + p.cost r.name.labels + 10 ≤ _ at hdata
  change _ ≤ (r.rdata.plan ((p.add r.name.labels).skip 10)).size
  omega

lemma question_size (q : Question) (p : Plan) : p.size + 5 ≤ (questionPlan q p).size := by
  have hname := one_le_cost p q.name.labels
  change p.size + 5 ≤ p.size + p.cost q.name.labels + 4
  omega

/-- A message is large enough for its counts. -/
theorem plan_size (m : Message) : 12 + m.questions.length * 5 +
    (m.answers.length + m.authorities.length + m.additionals.length) * 11 ≤ m.plan.size := by
  have h₁ := planList_size (fun q (_ : q ∈ m.questions) => question_size q) (Plan.empty.skip 12)
  have h₂ := planList_size (fun r (_ : r ∈ m.answers) => record_size r) m.questionsPlan
  have h₃ := planList_size (fun r (_ : r ∈ m.authorities) => record_size r) m.answersPlan
  have h₄ := planList_size (fun r (_ : r ∈ m.additionals) => record_size r) m.authoritiesPlan
  change 12 + m.questions.length * 5 ≤ m.questionsPlan.size at h₁
  change _ ≤ m.answersPlan.size at h₂
  change _ ≤ m.authoritiesPlan.size at h₃
  change _ ≤ m.plan.size at h₄
  omega

lemma question_decodes (q : Question) :
    Decodes (encodeQuestion q) parseQuestion (questionShort q)
      (fun q' => ({ q' with name := q'.name.lower } : Question) = { q with name := q.name.lower }) := by
  have hrest : ∀ name, name.lower = q.name.lower →
      Decodes (fun w => (w.pushU16 q.qtype).pushU16 q.qclass) (do
        let qtype ← Reader.u16
        let qclass ← Reader.u16
        return (⟨name, qtype, qclass⟩ : Question)) (fun _ => True)
        (fun q' => ({ q' with name := q'.name.lower } : Question) =
          { q with name := q.name.lower }) := by
    intro name hname
    have hfields : Restores (do
        let qtype ← Reader.u16
        let qclass ← Reader.u16
        return (⟨name, qtype, qclass⟩ : Question)) (be16 q.qtype ++ be16 q.qclass)
        ⟨name, q.qtype, q.qclass⟩ := (u16_restores _).bind ((u16_restores _).last rfl)
    refine (((pushU16 q.qtype).comp (.pushU16 q.qclass)).decodes hfields).mono ?_
    rintro _ rfl
    simp only [hname]
  exact q.name.decodes.then_plain q.name.encode_encodes
    ((pushU16 q.qtype).encodes.comp (pushU16 q.qclass).encodes) hrest

lemma map_of_forall₂ {α β γ : Type} {f : α → γ} {g : β → γ} {xs : List α} {ys : List β}
    (h : List.Forall₂ (fun x y => g y = f x) xs ys) : ys.map g = xs.map f := by
  induction h with
  | nil => rfl
  | cons h _ ih => rw [map_cons, map_cons, h, ih]

lemma records_decodes {updateSection : Record.UpdateSection} {rs : List Record}
    (htype : ∀ r ∈ rs, r.rtype = r.rdata.recordType) (hnat : ∀ r ∈ rs, r.Natural updateSection) :
    Decodes (encodeList Record.encode rs) (readN (Record.parse updateSection) rs.length)
      (AllAlong (Record.Readable updateSection) Record.plan rs)
      (fun read => read.map Record.lower =
        rs.map fun r => (r.readBack updateSection r.ttl).lower) := by
  have hrecord : ∀ r ∈ rs, Decodes r.encode (Record.parse updateSection)
      (Record.Readable updateSection r)
      (fun r' => r'.lower = (r.readBack updateSection r.ttl).lower) :=
    fun r hr => Record.decodes (htype r hr) (hnat r hr) r.ttl
  exact (encodeList_decodes (fun r _ => encode_encodes r) hrecord).mono fun read => map_of_forall₂

lemma questions_decodes (qs : List Question) :
    Decodes (encodeList encodeQuestion qs) (readN parseQuestion qs.length)
      (AllAlong questionShort questionPlan qs)
      (fun read => (read.map fun q => ({ q with name := q.name.lower } : Question)) =
        qs.map fun q => { q with name := q.name.lower }) := by
  exact (encodeList_decodes (fun q _ => encodeQuestion_encodes q)
    fun q _ => question_decodes q).mono fun read => map_of_forall₂

/-- The counts are refused only for sections that are too large. -/
theorem countsImpossible_iff {size : ℕ} (h : m.plan.size = size) :
    ¬ countsImpossible m.questions.length m.answers.length m.authorities.length
        m.additionals.length (size - 12) = true ↔
      m.questions.length ≤ maxSectionItems ∧ m.answers.length ≤ maxSectionItems ∧
        m.authorities.length ≤ maxSectionItems ∧ m.additionals.length ≤ maxSectionItems := by
  have hsize := m.plan_size
  simp only [countsImpossible, Bool.or_eq_true, decide_eq_true_eq, not_or, not_lt]
  constructor
  · rintro ⟨⟨⟨⟨⟨hq, ha⟩, hn⟩, hr⟩, -⟩, -⟩
    exact ⟨hq, ha, hn, hr⟩
  · rintro ⟨hq, ha, hn, hr⟩
    exact ⟨⟨⟨⟨⟨hq, ha⟩, hn⟩, hr⟩, by omega⟩, by omega⟩

/-- What a message has to satisfy to be read as it was written. -/
structure Sound (m : Message) : Prop where
  opcode : m.header.opcode ≤ 0x0f
  lengths : m.questions.length ≤ 65535 ∧ m.answers.length ≤ 65535 ∧
    m.authorities.length ≤ 65535 ∧ m.additionals.length ≤ 65535
  types : (∀ r ∈ m.answers, r.rtype = r.rdata.recordType) ∧
    (∀ r ∈ m.authorities, r.rtype = r.rdata.recordType) ∧
    ∀ r ∈ m.additionals, r.rtype = r.rdata.recordType
  natural : m.Natural
  optPlace : ¬ (m.answers ++ m.authorities).any isOpt = true
  rcode : ∀ read : List Record, read.map Record.lower = m.additionals.map Record.lower →
    withExtendedRcode { m.header with rcode := m.header.rcode &&& 0xF } read = .ok m.header

def readSections (m : Message) : Message :=
  { m with
    answers := m.answers.map fun r => r.readBack m.header.answerSection r.ttl
    authorities := m.authorities.map fun r => r.readBack m.header.authoritySection r.ttl }

lemma any_isOpt_lower {read rs : List Record} {updateSection : Record.UpdateSection}
    (h : read.map Record.lower = rs.map fun r => (r.readBack updateSection r.ttl).lower) :
    read.any isOpt = rs.any isOpt := by
  have hread : (read.map .lower).any isOpt = read.any isOpt := by rw [any_map]; rfl
  have hrs : (rs.map fun r => (r.readBack updateSection r.ttl).lower).any isOpt = rs.any isOpt := by
    rw [any_map]
    rfl
  rw [← hread, h, hrs]

lemma parseBody_reads (h : m.Sound) {w : Writer} (hw : Ready w .empty)
    (hok : (m.write w).error = none) :
    Reads parseBody (Reader.new (m.write w).buf) m.Readable
      (fun m' => m'.lower = m.readSections.lower) (m.write w).buf.length := by
  have hrec : ∀ (r : Record) (w : Writer), w.error ≠ none → (r.encode w).error ≠ none :=
    fun r w => (encode_encodes r).failed
  have hrecords : ∀ rs : List Record, Encodes (encodeList Record.encode rs)
      (∀ r ∈ rs, r.rdata.Fits) (planList Record.plan rs) :=
    fun rs => encodeList_encodes fun r _ => encode_encodes r
  have hquestions : Encodes (encodeList encodeQuestion m.questions) (∀ q ∈ m.questions, True)
      (planList questionPlan m.questions) :=
    encodeList_encodes fun q _ => encodeQuestion_encodes q
  -- the writers after the header and after each section
  set w₁ := m.writeHeader w with hw₁
  set w₂ := encodeList encodeQuestion m.questions w₁
  set w₃ := encodeList Record.encode m.answers w₂
  set w₄ := encodeList Record.encode m.authorities w₃
  have hwrite : m.write w = encodeList Record.encode m.additionals w₄ := rfl
  rw [hwrite] at hok ⊢
  set w₅ := encodeList Record.encode m.additionals w₄
  have h₄ : w₄.error = none := by
    by_contra herr
    exact encodeList_failed hrec herr hok
  have h₃ : w₃.error = none := by
    by_contra herr
    exact encodeList_failed hrec herr h₄
  have h₂ : w₂.error = none := by
    by_contra herr
    exact encodeList_failed hrec herr h₃
  have h₁ : w₁.error = none := by
    by_contra herr
    exact hquestions.failed herr h₂
  obtain ⟨-, hroom, hd₁⟩ := m.writeHeader_appends.encodes.of_ok hw h₁
  obtain ⟨-, -, hd₂⟩ := hquestions.of_ok hd₁.ready h₂
  obtain ⟨-, -, hd₃⟩ := (hrecords m.answers).of_ok hd₂.ready h₃
  obtain ⟨-, -, hd₄⟩ := (hrecords m.authorities).of_ok hd₃.ready h₄
  obtain ⟨-, -, hd₅⟩ := (hrecords m.additionals).of_ok hd₄.ready hok
  have hpre : ∀ {w w' : Writer} {p : Plan}, Written w p w' → w.buf <+: w'.buf := by
    rintro w w' p ⟨-, -, out, hout⟩
    exact ⟨out, hout.symm⟩
  have p₄ := hpre hd₅
  have p₃ := (hpre hd₄).trans p₄
  have p₂ := (hpre hd₃).trans p₃
  have p₁ := (hpre hd₂).trans p₂
  -- the header
  have hempty : w.buf = [] := eq_nil_of_length_eq_zero hw.agrees.size
  have hheader : w₁.buf = m.headerBytes := by
    rw [hw₁, m.writeHeader_appends.done hw.error trivial (by rw [hw.agrees.size]; exact hroom),
      hempty]
    rfl
  have hlen₁ : w₁.buf.length = 12 := by rw [hheader, headerBytes_length]
  have hlimit : 12 ≤ w₅.buf.length := hlen₁ ▸ p₁.length_le
  have hholds : Holds w₅.buf 0 m.headerBytes := by
    obtain ⟨more, hmore⟩ := p₁
    exact ⟨[], more, by rw [← hmore, hheader]; rfl, rfl⟩
  obtain ⟨hlq, hla, hln, hlr⟩ := h.lengths
  refine .bind_front (u16_restores _) hholds (by rw [be16_length]; omega) fun hholds => ?_
  refine .bind_front (u16_restores _) hholds (by simp only [be16_length]; omega) fun hholds => ?_
  refine .bind_front (u16_restores _) hholds (by simp only [be16_length]; omega) fun hholds => ?_
  refine .bind_front (u16_restores _) hholds (by simp only [be16_length]; omega) fun hholds => ?_
  refine .bind_front (u16_restores _) hholds (by simp only [be16_length]; omega) fun hholds => ?_
  refine .bind_plain (u16_restores _ hholds (by simp only [be16_length]; omega)) ?_
  refine .get_bind ?_
  simp only [counts, toNat_ofNat_le16 hlq, toNat_ofNat_le16 hla, toNat_ofNat_le16 hln,
    toNat_ofNat_le16 hlr, m.header.fromFlags_flags h.opcode]
  have hsize : m.plan.size = w₅.buf.length := hd₅.ready.agrees.size.symm
  have hcounts := countsImpossible_iff hsize
  -- the sections
  have hq := (questions_decodes m.questions).reads hd₁.ready h₂ p₂ p₂.length_le
  have ha := (records_decodes h.types.1 h.natural.answers).reads hd₂.ready h₃ p₃ p₃.length_le
  have hn := (records_decodes h.types.2.1 h.natural.authorities).reads hd₃.ready h₄ p₄ p₄.length_le
  have hr := (records_decodes h.types.2.2 h.natural.additionals).reads hd₄.ready hok
    (prefix_refl _) le_rfl
  rw [hlen₁] at hq
  refine (Reads.refuse_bind (hq.bind fun questions hquestions => ha.bind fun answers hanswers =>
    hn.bind fun authorities hauthorities => .bind_plain (refuseIf_read ?_)
      (hr.bind fun additionals hadditionals => (?_ : Reads _ _ True _ _)))).mono ?_ fun _ => id
  · rw [any_append, any_isOpt_lower hanswers, any_isOpt_lower hauthorities, ← any_append]
    exact h.optPlace
  · have hlower : additionals.map Record.lower = m.additionals.map .lower := by
      rw [hadditionals]
      simp only [readBack_none]
    refine .get_bind ?_
    refine ⟨fun _ => ⟨⟨m.header, questions, answers, authorities, additionals⟩, ?_, ?_⟩,
      fun hn => absurd trivial hn⟩
    · rw [bind_ok (refuseIf_read (by simp [Reader.remaining])), h.rcode additionals hlower]
      rfl
    · simp only [lower, readSections, hquestions, hanswers, hauthorities, hlower, map_map]
      rfl
  · change ¬countsImpossible _ _ _ _ (w₅.buf.length - 12) = true ∧ _ ↔ _
    rw [hcounts]
    constructor
    · rintro ⟨hsizes, hq, ha, hn, hr, -⟩
      exact ⟨hsizes, hq, ha, hn, hr⟩
    · rintro ⟨hsizes, hq, ha, hn, hr⟩
      exact ⟨hsizes, hq, ha, hn, hr, trivial⟩

lemma ready_new (hash : Bytes → UInt64) : Ready (Writer.new hash) .empty :=
  ⟨agrees_new hash _, rfl, le_rfl, zero_le _⟩

lemma sent_sound (hnat : m.Natural) (h : m.Encodable) : m.sent.Sound := by
  obtain ⟨hanswers, hauthorities, hadditionals⟩ := sent_types h
  exact ⟨h.opcode, ⟨h.questions, h.answers, h.authorities, h.additionals⟩,
    ⟨hanswers, hauthorities, hadditionals⟩, ⟨hnat.answers, hnat.authorities, sent_natural hnat⟩,
    h.optPlace, fun _ => withExtendedRcode_sent h⟩

/-- A written message is read as `readBack` says, or refused if it is not `Readable`. -/
theorem parse_written {hash : Bytes → UInt64} {b : Bytes} (hnat : m.Natural)
    (h : m.tryEncode hash = .ok b) :
    (m.sent.Readable → ∃ m', parse b = .ok m' ∧ m'.lower = m.readBack.lower) ∧
      (¬ m.sent.Readable → ∃ e, parse b = .error e) := by
  obtain ⟨henc, hok, rfl⟩ := tryEncode_iff.mp h
  have hreads := parseBody_reads (sent_sound hnat henc) (ready_new hash) hok
  obtain ⟨-, -, hwritten⟩ := m.sent.write_encodes.of_ok (ready_new hash) hok
  have hsize : ¬ maxDnsWireLen < (m.sent.write (.new hash)).buf.length := by
    rw [not_lt, hwritten.ready.agrees.size]
    exact hwritten.ready.room.trans hwritten.ready.limit
  constructor
  · intro hreadable
    obtain ⟨m', hm', hlower⟩ := hreads.ok hreadable
    refine ⟨m', ?_, hlower⟩
    rw [parse, if_neg hsize]
    change Prod.fst <$> parseBody _ = _
    rw [hm']
    rfl
  intro hreadable
  obtain ⟨e, he⟩ := hreads.error hreadable
  refine ⟨e, ?_⟩
  rw [parse, if_neg hsize]
  change Prod.fst <$> parseBody _ = _
  rw [he]
  rfl

/-- What is read from a written message is the message itself up to the case of names, with the
upper bits of the response code in the TTL of its OPT record, an OPT record added if it has
none and the response code needs it, and raw data where an UPDATE section allows none. -/
theorem message_roundtrip {hash : Bytes → UInt64} {m m' : Message} {b : Bytes} (hnat : m.Natural)
    (hencode : m.tryEncode hash = .ok b) (hparse : parse b = .ok m') :
    m'.lower = m.readBack.lower := by
  obtain ⟨hread, hrefused⟩ := parse_written hnat hencode
  by_cases hreadable : m.sent.Readable
  · obtain ⟨m'', hm'', hlower⟩ := hread hreadable
    rw [hm''] at hparse
    cases hparse
    exact hlower
  · obtain ⟨e, he⟩ := hrefused hreadable
    rw [he] at hparse
    cases hparse

/-- A query whose OPT record claims an extended response code that the header does not have. -/
def strayRcode : Message where
  header := ⟨7, false, 0, false, false, true, false, false, false, 0⟩
  questions := [⟨Name.root, .NS, 1⟩]
  answers := []
  authorities := []
  additionals := [⟨Name.root, .OPT, 1232, 0x01000000, .unknown .OPT []⟩]

lemma strayRcode_natural : strayRcode.Natural := by
  refine ⟨nofun, nofun, fun r hr => .inl ?_⟩
  rw [mem_singleton.mp hr]
  change .OPT ∉ RData.typedTypes
  decide

def strayRcodeWire : Bytes :=
  [0, 7, 1, 0, 0, 1, 0, 0, 0, 0, 0, 1, 0, 0, 2, 0, 1, 0, 0, 41, 4, 208, 0, 0, 0, 0, 0, 0]

lemma ok_of_toOption {α : Type} {x : Except ProtoError α} {a : α} (h : x.toOption = some a) :
    x = .ok a := by
  cases x with
  | error e => cases h
  | ok b =>
    cases h
    rfl

lemma strayRcode_encode : strayRcode.tryEncode (fun _ => 0) = .ok strayRcodeWire :=
  ok_of_toOption (by decide +kernel)

def strayRcodeRead : Message :=
  { strayRcode with additionals := [⟨Name.root, .OPT, 1232, 0, .unknown .OPT []⟩] }

lemma strayRcode_parse : parse strayRcodeWire = .ok strayRcodeRead :=
  ok_of_toOption (by decide +kernel)

theorem message_roundtrip_stray : strayRcodeRead.lower = strayRcode.readBack.lower :=
  message_roundtrip strayRcode_natural strayRcode_encode strayRcode_parse

def emptyTxt : Message where
  header := ⟨7, false, 5, false, false, false, false, false, false, 0⟩
  questions := [⟨Name.root, .SOA, 1⟩]
  answers := [⟨Name.root, .TXT, 255, 0, .txt []⟩]
  authorities := []
  additionals := []

/-- What is read is another message, although no OPT record is added. -/
def Altered (m : Message) : Prop :=
  m.Natural ∧ m.needsSyntheticOpt = false ∧
    ∃ b m', m.tryEncode (fun _ => 0) = .ok b ∧ parse b = .ok m' ∧ m'.lower ≠ m.lower

/-- The OPT record gets another TTL, and the TXT record is not read as one. -/
theorem strayRcode_changed : strayRcode.Altered ∧ emptyTxt.Altered := by
  refine ⟨⟨strayRcode_natural, rfl, strayRcodeWire, strayRcodeRead, strayRcode_encode,
    strayRcode_parse, by decide +kernel⟩, ⟨forall_mem_singleton.mpr (.inl trivial), nofun, nofun⟩, rfl,
    [0, 7, 40, 0, 0, 1, 0, 1, 0, 0, 0, 0, 0, 0, 6, 0, 1, 0, 0, 16, 0, 255, 0, 0, 0, 0, 0, 0],
    { emptyTxt with answers := [⟨Name.root, .TXT, 255, 0, .unknown .TXT []⟩] }, ?_, ?_,
    by decide +kernel⟩
  · exact ok_of_toOption (by decide +kernel)
  · exact ok_of_toOption (by decide +kernel)

end Message

end OnetDns.Dns
