import OnetDns.Quic.QpackTiming

/-!
# An encoder and a decoder

The encoder never evicts an entry and refers only to entries whose arrival the decoder has
acknowledged. So the decoder's table is a prefix of the encoder's at every moment, the bytes
under way are what is missing to make them equal, and a section can be read from the moment
it is written.
-/
namespace OnetDns.Quic.Qpack

open OnetDns.Instructions List Option Nat DynamicTable

lemma readBytes_append (s rest : Bytes) : readBytes s.length (s ++ rest) = .done s rest := by
  simp [readBytes]

/-- A length under any flags that leave the Huffman mark clear, and the bytes behind it. -/
theorem readText_pushInt {bits flags : ℕ} {s rest : Bytes} (hbits : 1 ≤ bits ∧ bits ≤ 7)
    (hflags : flags % 2 ^ (bits + 1) = 0) (hbyte : flags + (2 ^ bits - 1) < 256)
    (hlen : s.length < 2 ^ 63) :
    readText bits (pushInt s.length bits flags ++ (s ++ rest)) = .done s rest := by
  have hpos : 0 < 2 ^ bits := by positivity
  have hdvd : flags % 2 ^ bits = 0 :=
    mod_eq_zero_of_dvd ((pow_dvd_pow 2 (by omega)).trans (dvd_of_mod_eq_zero hflags))
  have hint := @readStreamInt_pushInt bits flags s.length (s ++ rest) ⟨hbits.1, by omega⟩ hdvd hbyte
    hlen
  obtain ⟨tail, hcons⟩ := pushInt_cons s.length bits flags
  rw [hcons, cons_append] at hint ⊢
  have hmark : (UInt8.ofNat (flags + min s.length (2 ^ bits - 1))).toNat / 2 ^ bits % 2 ≠ 1 := by
    obtain ⟨c, hc⟩ := dvd_of_mod_eq_zero hflags
    set w := min s.length (2 ^ bits - 1)
    rw [UInt8.toNat_ofNat', mod_eq_of_lt (by omega : flags + w < 2 ^ 8), hc, pow_succ,
      mul_assoc, mul_add_div hpos, div_eq_of_lt (by omega : w < 2 ^ bits)]
    omega
  simp only [readText, hint, StreamParse.bind, readCoded, readBytes_append, hmark, decide_false,
    Bool.false_eq_true, if_false]

lemma readStreamString_pushString {s rest : Bytes} (hlen : s.length < 2 ^ 63) :
    readStreamString (pushString s ++ rest) = .done s rest := by
  rw [pushString, append_assoc]
  exact readText_pushInt (by omega) rfl (by norm_num) hlen

lemma readString_pushString {s rest : Bytes} (hlen : s.length < 2 ^ 63) :
    readString (pushString s ++ rest) = some (s, rest) := by
  rw [readString, readStreamString_pushString hlen]
  rfl

lemma readInt_pushInt {bits flags v : ℕ} {rest : Bytes} (hbits : 1 ≤ bits ∧ bits ≤ 8)
    (hflags : flags % 2 ^ bits = 0) (hbyte : flags + (2 ^ bits - 1) < 256) (hv : v < 2 ^ 63) :
    readInt bits (pushInt v bits flags ++ rest) = some (v, rest) := by
  rw [readInt, readStreamInt_pushInt hbits hflags hbyte hv]
  rfl

lemma pushInt_first {v bits flags : ℕ} (hbyte : flags + (2 ^ bits - 1) < 256) :
    ∃ b tail w, pushInt v bits flags = b :: tail ∧ b.toNat = flags + w ∧ w ≤ 2 ^ bits - 1 := by
  obtain ⟨tail, hcons⟩ := pushInt_cons v bits flags
  have hw : min v (2 ^ bits - 1) ≤ 2 ^ bits - 1 := min_le_right _ _
  refine ⟨_, tail, _, hcons, ?_, hw⟩
  rw [UInt8.toNat_ofNat', mod_eq_of_lt (by omega)]

lemma staticTable_length : staticTable.length = 99 := rfl

lemma staticFind_spec {name value : Bytes} {idx : ℕ} (h : staticFind name value = some idx) :
    idx < 99 ∧ staticEntry idx = some (name, value) := by
  obtain ⟨hlt, hp, -⟩ := findIdx?_eq_some_iff_getElem.1 h
  simp only [decide_eq_true_eq] at hp
  refine ⟨by rwa [staticTable_length] at hlt, ?_⟩
  rw [staticEntry, getElem?_eq_getElem hlt, map_some, hp.1, hp.2]

lemma staticFindName_spec {name : Bytes} {idx : ℕ} (h : staticFindName name = some idx) :
    idx < 99 ∧ ∃ value, staticEntry idx = some (name, value) := by
  obtain ⟨hlt, hp, -⟩ := findIdx?_eq_some_iff_getElem.1 h
  simp only [decide_eq_true_eq] at hp
  refine ⟨by rwa [staticTable_length] at hlt, ascii staticTable[idx].2, ?_⟩
  rw [staticEntry, getElem?_eq_getElem hlt, map_some, hp]

/-- The instruction of a new entry does to a table what inserting the entry does. -/
theorem look_insertBytes {maxCapacity : ℕ} {t t' : DynamicTable} {f : Field} {rest : Bytes}
    (hins : t.insert f = some t') (hname : f.1.length < 2 ^ 63) (hvalue : f.2.length < 2 ^ 63) :
    lookInstruction maxCapacity t (insertBytes f ++ rest) = .take t' rest := by
  rw [lookInstruction, lookWith_take_iff]
  cases hfind : staticFindName f.1 with
  | some idx =>
    obtain ⟨hidx, value, hentry⟩ := staticFindName_spec hfind
    refine ⟨.insertStatic idx f.2, ?_, by simp [apply, hentry, hins]⟩
    have hint := @readStreamInt_pushInt 6 0xC0 idx (pushString f.2 ++ rest) (by omega) rfl
      (by norm_num) (by omega)
    obtain ⟨b, tail, w, hcons, hb, hw⟩ := @pushInt_first idx 6 0xC0 (by norm_num)
    simp only [insertBytes, hfind, append_assoc]
    rw [hcons, cons_append] at hint ⊢
    rw [readInstruction_cons, readInstructionAs, if_pos (by omega), hint]
    simp only [StreamParse.bind, readStreamString_pushString hvalue]
    rw [if_pos (by omega)]
  | none =>
    refine ⟨.insertLiteral f.1 f.2, ?_, by simp [apply, hins]⟩
    have htext := @readText_pushInt 5 0x40 f.1 (pushString f.2 ++ rest) (by omega) rfl
      (by norm_num) hname
    obtain ⟨b, tail, w, hcons, hb, hw⟩ := @pushInt_first f.1.length 5 0x40 (by norm_num)
    simp only [insertBytes, hfind, append_assoc]
    rw [hcons, cons_append] at htext ⊢
    rw [readInstruction_cons, readInstructionAs, if_neg (by omega), if_pos (by omega), htext]
    simp only [StreamParse.bind, readStreamString_pushString hvalue]

variable {cap : ℕ} {t : DynamicTable}

lemma look_capacityBytes {maxCapacity : ℕ} {rest : Bytes}
    (hcap : cap ≤ maxCapacity) (hsmall : cap < 2 ^ 63) :
    lookInstruction maxCapacity t (pushInt cap 5 0x20 ++ rest) = .take (t.setCapacity cap) rest := by
  rw [lookInstruction, lookWith_take_iff]
  refine ⟨.setCapacity cap, ?_, by simp [apply, hcap]⟩
  have hint := @readStreamInt_pushInt 5 0x20 cap rest (by omega) rfl (by norm_num) hsmall
  obtain ⟨b, tail, w, hcons, hb, hw⟩ := @pushInt_first cap 5 0x20 (by norm_num)
  rw [hcons, cons_append] at hint ⊢
  rw [readInstruction_cons, readInstructionAs, if_neg (by omega), if_neg (by omega),
    if_pos (by omega), hint]
  rfl

lemma look_increment {insertCount known inc : ℕ} {rest : Bytes} (hpos : 0 < inc)
    (hle : known + inc ≤ insertCount) (hsmall : insertCount < 2 ^ 63) :
    lookAcknowledgement insertCount known (pushInt inc 6 0 ++ rest) = .take (known + inc) rest := by
  rw [lookAcknowledgement, lookWith_take_iff]
  refine ⟨.increment inc, ?_, ?_⟩
  · have hint := @readStreamInt_pushInt 6 0 inc rest (by omega) rfl (by norm_num) (by omega)
    obtain ⟨b, tail, w, hcons, hb, hw⟩ := @pushInt_first inc 6 0 (by norm_num)
    rw [hcons, cons_append] at hint ⊢
    rw [readAcknowledgement_cons, readAcknowledgementAs, if_neg (by omega), if_neg (by omega), hint]
    rfl
  · rw [acknowledge, if_neg (by simp only [u64Max]; omega), if_neg (by omega)]

lemma look_processed {insertCount known streamId : ℕ} {rest : Bytes} (hsmall : streamId < 2 ^ 63) :
    lookAcknowledgement insertCount known (pushInt streamId 7 0x80 ++ rest) = .take known rest := by
  rw [lookAcknowledgement, lookWith_take_iff]
  refine ⟨.processed streamId, ?_, rfl⟩
  have hint := @readStreamInt_pushInt 7 0x80 streamId rest (by omega) rfl (by norm_num) hsmall
  obtain ⟨b, tail, w, hcons, hb, hw⟩ := @pushInt_first streamId 7 0x80 (by norm_num)
  rw [hcons, cons_append] at hint ⊢
  rw [readAcknowledgement_cons, readAcknowledgementAs, if_pos (by omega), hint]
  rfl

def FieldPlan.line (base : ℕ) : FieldPlan → FieldLine
  | .static idx => .indexed (.static idx)
  | .dynamic abs => .indexed (.relative (base - 1 - abs))
  | .literalNameRef idx value => .named (.static idx) value
  | .literal name value => .literal name value

open FieldPlan

/-- A plan stands for a header, if the first `known` of the entries have arrived. -/
inductive FieldPlan.For (entries : List Field) (known : ℕ) (f : Field) : FieldPlan → Prop
  | static (idx : ℕ) (h : staticFind f.1 f.2 = some idx) : For entries known f (.static idx)
  | dynamic (abs : ℕ) (h : entries[abs]? = some f) (hknown : abs < known) :
    For entries known f (.dynamic abs)
  | literalNameRef (idx : ℕ) (h : staticFindName f.1 = some idx) :
    For entries known f (.literalNameRef idx f.2)
  | literal : For entries known f (.literal f.1 f.2)

lemma planLiteral_for (entries : List Field) (known : ℕ) (f : Field) :
    (planLiteral f).For entries known f := by
  simp only [planLiteral]
  split
  · exact .literalNameRef _ ‹_›
  · exact .literal

lemma FieldPlan.For.mono {entries entries' : List Field} {known : ℕ} {f : Field} {plan : FieldPlan}
    (h : plan.For entries known f) (hpre : entries <+: entries') : plan.For entries' known f := by
  cases h with
  | static idx h => exact .static idx h
  | dynamic abs h hknown =>
    obtain ⟨rest, rfl⟩ := hpre
    obtain ⟨hlt, -⟩ := List.getElem?_eq_some_iff.1 h
    exact .dynamic abs (by rw [getElem?_append_left hlt, h]) hknown
  | literalNameRef idx h => exact .literalNameRef idx h
  | literal => exact .literal

lemma readFieldLine_bytes {entries : List Field} {known base : ℕ} {f : Field}
    {plan : FieldPlan} {rest : Bytes} (hplan : plan.For entries known f)
    (hbase : base < 2 ^ 63) (hname : f.1.length < 2 ^ 63) (hvalue : f.2.length < 2 ^ 63) :
    readFieldLine (plan.bytes base ++ rest) = some (plan.line base, rest) := by
  cases hplan with
  | static idx h =>
    have hidx := (staticFind_spec h).1
    have hint := @readInt_pushInt 6 0xC0 idx rest (by omega) rfl (by norm_num) (by omega)
    obtain ⟨b, tail, w, hcons, hb, hw⟩ := @pushInt_first idx 6 0xC0 (by norm_num)
    simp only [bytes]
    rw [hcons, cons_append] at hint ⊢
    simp only [readFieldLine]
    rw [if_pos (by omega), hint]
    simp only [bind_eq_bind, bind_some]
    rw [if_pos (by omega)]
    rfl
  | dynamic abs h hknown =>
    have hint := @readInt_pushInt 6 0x80 (base - 1 - abs) rest (by omega) rfl (by norm_num)
      (by omega)
    obtain ⟨b, tail, w, hcons, hb, hw⟩ := @pushInt_first (base - 1 - abs) 6 0x80 (by norm_num)
    simp only [bytes]
    rw [hcons, cons_append] at hint ⊢
    simp only [readFieldLine]
    rw [if_pos (by omega), hint]
    simp only [bind_eq_bind, bind_some]
    rw [if_neg (by omega)]
    rfl
  | literalNameRef idx h =>
    have hidx := (staticFindName_spec h).1
    have hint := @readInt_pushInt 4 0x50 idx (pushString f.2 ++ rest) (by omega) rfl
      (by norm_num) (by omega)
    obtain ⟨b, tail, w, hcons, hb, hw⟩ := @pushInt_first idx 4 0x50 (by norm_num)
    simp only [bytes, append_assoc]
    rw [hcons, cons_append] at hint ⊢
    simp only [readFieldLine]
    rw [if_neg (by omega), if_pos (by omega), hint]
    simp only [bind_eq_bind, bind_some, readString_pushString hvalue]
    rw [if_pos (by omega)]
    rfl
  | literal =>
    have htext := @readText_pushInt 3 0x20 f.1 (pushString f.2 ++ rest) (by omega) rfl
      (by norm_num) hname
    obtain ⟨b, tail, w, hcons, hb, hw⟩ := @pushInt_first f.1.length 3 0x20 (by norm_num)
    simp only [bytes, append_assoc]
    rw [hcons, cons_append] at htext ⊢
    simp only [readFieldLine]
    rw [if_neg (by omega), if_neg (by omega), if_pos (by omega), htext]
    simp only [StreamParse.complete, bind_eq_bind, bind_some, readString_pushString hvalue]
    rfl

lemma FieldPlan.bytes_pos (base : ℕ) (plan : FieldPlan) : 0 < (plan.bytes base).length := by
  cases plan with
  | static idx =>
    obtain ⟨tail, hcons⟩ := pushInt_cons idx 6 0xC0
    simp [bytes, hcons]
  | dynamic abs =>
    obtain ⟨tail, hcons⟩ := pushInt_cons (base - 1 - abs) 6 0x80
    simp [bytes, hcons]
  | literalNameRef idx value =>
    obtain ⟨tail, hcons⟩ := pushInt_cons idx 4 0x50
    simp [bytes, hcons]
  | literal name value =>
    obtain ⟨tail, hcons⟩ := pushInt_cons name.length 3 0x20
    simp [bytes, hcons]

lemma length_lt_of_within {headers : List Field} (h : Within headers) {f : Field}
    (hf : f ∈ headers) : f.1.length < 2 ^ 63 ∧ f.2.length < 2 ^ 63 := by
  have hle : entrySize f ≤ totalSize headers :=
    single_le_sum (fun _ _ => zero_le _) _ (mem_map_of_mem hf)
  have := h.1
  simp only [entrySize, maxDecodedSize] at hle this
  omega

section Lines

variable {entries : List Field} {known base : ℕ} {headers : List Field} {plans : List FieldPlan}

/-- The lines of a section are read back. -/
theorem fieldLines_bytes (hbase : base < 2 ^ 63)
    (hplans : List.Forall₂ (FieldPlan.For entries known) headers plans)
    (hlen : ∀ f ∈ headers, f.1.length < 2 ^ 63 ∧ f.2.length < 2 ^ 63) {fuel : ℕ}
    (hfuel : (plans.flatMap (bytes base)).length ≤ fuel) :
    fieldLines fuel (plans.flatMap (bytes base)) = some (plans.map (FieldPlan.line base)) := by
  induction hplans generalizing fuel with
  | nil => cases fuel <;> rfl
  | @cons f plan headers plans hplan hplans ih =>
    have hpos := plan.bytes_pos base
    rw [flatMap_cons, length_append] at hfuel
    obtain ⟨fuel, rfl⟩ : ∃ n, fuel = n + 1 := ⟨fuel - 1, by omega⟩
    have hf := hlen f (by simp)
    have hline := @readFieldLine_bytes entries known base f plan
      (plans.flatMap (bytes base)) hplan hbase hf.1 hf.2
    have hrest : fieldLines fuel (plans.flatMap (bytes base)) =
        some (plans.map (FieldPlan.line base)) := ih (fun f h => hlen f (by simp [h])) (by omega)
    rw [flatMap_cons]
    cases hbytes : plan.bytes base ++ plans.flatMap (bytes base) with
    | nil => simp [hbytes] at hline; simp [readFieldLine] at hline
    | cons b buf =>
      rw [hbytes] at hline
      simp [fieldLines, hline, hrest]

lemma requiredOf_cons (plan : FieldPlan) (plans : List FieldPlan) :
    requiredOf (plan :: plans) =
      max (match plan with | .dynamic abs => abs + 1 | _ => 0) (requiredOf plans) := by
  have hfold : ∀ (l : List ℕ) (a : ℕ), l.foldl max a = max a (l.foldl max 0) := by
    intro l
    induction l with
    | nil => simp
    | cons x l ih =>
      intro a
      rw [foldl_cons, ih, foldl_cons, ih (max 0 x)]
      omega
  cases plan with
  | dynamic abs =>
    simp only [requiredOf, filterMap_cons, foldl_cons]
    rw [hfold]
    omega
  | static idx => simp [requiredOf]
  | literalNameRef idx value => simp [requiredOf]
  | literal name value => simp [requiredOf]

lemma requiredOf_le (hplans : List.Forall₂ (FieldPlan.For entries known) headers plans) :
    requiredOf plans ≤ known := by
  induction hplans with
  | nil => simp [requiredOf]
  | cons hplan hplans ih =>
    rw [requiredOf_cons]
    cases hplan with
    | static idx h => simpa using ih
    | dynamic abs h hknown => simp only; omega
    | literalNameRef idx h => simpa using ih
    | literal => simpa using ih

lemma resolve_lines (hplans : List.Forall₂ (FieldPlan.For entries known) headers plans)
    (hbase : known ≤ base) (hcount : t.insertCount = t.entries.length)
    {ric : ℕ} (hric : requiredOf plans ≤ ric) (htable : entries.take ric <+: t.entries) :
    (plans.map (FieldPlan.line base)).mapM (FieldLine.resolve t base) = some headers := by
  induction hplans with
  | nil => rfl
  | @cons f plan headers plans hplan hplans ih =>
    rw [requiredOf_cons] at hric
    have hrest := ih (by omega)
    have hhead : (plan.line base).resolve t base = some f := by
      cases hplan with
      | static idx h => exact (staticFind_spec h).2
      | dynamic abs h hknown =>
        have habs : base - (1 + (base - 1 - abs)) = abs := by omega
        have hget : t.entries[abs]? = some f := by
          obtain ⟨rest, hrest⟩ := htable
          have hlt : abs < ric := by simp only at hric; omega
          obtain ⟨hlen, -⟩ := List.getElem?_eq_some_iff.1 h
          rw [← hrest, getElem?_append_left (by simp; omega), getElem?_take_of_lt hlt, h]
        obtain ⟨hlen, -⟩ := List.getElem?_eq_some_iff.1 hget
        have hold : t.oldest = 0 := by simp only [oldest]; omega
        simp only [FieldPlan.line, FieldLine.resolve, Reference.lookup, Reference.absolute]
        rw [if_neg (by omega), habs, bind_some, getAbs_eq (by omega) (by omega),
          hold, Nat.sub_zero, hget]
      | literalNameRef idx h =>
        obtain ⟨-, value, hentry⟩ := staticFindName_spec h
        simp [FieldPlan.line, FieldLine.resolve, Reference.lookup, hentry]
      | literal => rfl
    simp [hhead, hrest]

end Lines

/-- The count comes back from its encoded form, as long as nothing was evicted. -/
theorem requiredInsertCount_encoded {maxEntries insertCount ric : ℕ} (hpos : 0 < ric)
    (hric : ric ≤ insertCount) (hcount : insertCount ≤ maxEntries) :
    requiredInsertCount maxEntries insertCount (ric % (2 * maxEntries) + 1) = some ric := by
  have hmod : ric % (2 * maxEntries) = ric := mod_eq_of_lt (by omega)
  rw [requiredInsertCount, if_neg (by omega), if_neg (by omega)]
  dsimp only
  rw [if_neg (by omega)]
  rcases lt_or_ge insertCount maxEntries with hlt | hge
  · have hdiv : (insertCount + maxEntries) / (2 * maxEntries) = 0 :=
      div_eq_of_lt (by omega)
    rw [hdiv, if_neg (by omega), if_neg (by omega)]
    congr 1
    omega
  have hdiv : (insertCount + maxEntries) / (2 * maxEntries) = 1 := by
    rw [show insertCount + maxEntries = 2 * maxEntries by omega]
    exact Nat.div_self (by omega)
  rw [hdiv, if_pos (by omega), if_neg (by omega), if_neg (by omega)]
  congr 1
  omega

lemma readBase_pushInt {ric base : ℕ} {rest : Bytes} (hle : ric ≤ base) (hbase : base < 2 ^ 63) :
    readBase ric (pushInt (base - ric) 7 0 ++ rest) = some (base, rest) := by
  have hint := @readInt_pushInt 7 0 (base - ric) rest (by omega) rfl (by norm_num) (by omega)
  obtain ⟨b, tail, w, hcons, hb, hw⟩ := @pushInt_first (base - ric) 7 0 (by norm_num)
  rw [hcons, cons_append] at hint ⊢
  simp only [readBase, hint, bind_eq_bind, bind_some]
  rw [if_neg (by omega), if_neg (by simp only [u64Max]; omega), Nat.add_sub_cancel' hle]

/-- A section reads as its headers at every decoder that has come as far as it requires. -/
def Reads (cap : ℕ) (entries : List Field) (headers : List Field) (bytes : Bytes) : Prop :=
  ∀ d : Decoder, d.maxCapacity = cap → d.table.insertCount = d.table.entries.length →
    d.table.insertCount ≤ d.maxEntries → entries <+: d.table.entries →
    (d.readSection bytes).1 = .done headers

variable {e : Encoder}

lemma reads_sectionBytes {known : ℕ} {headers : List Field} {plans : List FieldPlan}
    (hplans : List.Forall₂ (FieldPlan.For e.table.entries known) headers plans)
    (hknown : known ≤ e.table.insertCount) (hcount : e.table.insertCount = e.table.entries.length)
    (hsmall : e.table.insertCount < 2 ^ 60)
    (hcap : 0 < requiredOf plans → e.peerMaxCapacity = cap) (hwithin : Within headers) :
    Reads cap (e.table.entries.take (requiredOf plans)) headers (e.sectionBytes plans) := by
  intro d hdcap hdcount hdmax hpre
  have hric := requiredOf_le hplans
  have hreached : requiredOf plans ≤ d.table.insertCount := by
    have := hpre.length_le
    rw [length_take] at this
    omega
  refine Decoder.readSection_done_iff.2 ⟨requiredOf plans, e.table.insertCount,
    plans.map (FieldPlan.line e.table.insertCount), ?_, hreached,
    resolve_lines hplans hknown hdcount le_rfl hpre, hwithin⟩
  rw [Decoder.settle_eq_some_iff]
  simp only [Encoder.sectionBytes, if_pos (hric.trans hknown), append_assoc]
  have hlines := fieldLines_bytes (by omega : e.table.insertCount < 2 ^ 63) hplans
    (fun f hf => length_lt_of_within hwithin hf) le_rfl
  refine ⟨_, _, _, readInt_pushInt (by omega) rfl (by norm_num) ?_, ?_,
    readBase_pushInt (hric.trans hknown) (by omega), hlines⟩
  · split_ifs with hzero
    · norm_num
    · have := mod_le (requiredOf plans) (2 * (e.peerMaxCapacity / entryOverhead))
      omega
  · split_ifs with hzero
    · simp [requiredInsertCount, hzero]
    · rw [hcap (by omega), ← hdcap]
      exact requiredInsertCount_encoded (by omega) hreached hdmax

lemma evictAbove_fits {room size : ℕ} {entries : List Field} (h : size ≤ room) :
    evictAbove room entries size = (entries, size) := by
  cases entries with
  | nil => rfl
  | cons e entries => simp [evictAbove, not_lt.2 h]

lemma insert_eq_insertNoEvict {t t' : DynamicTable} {f : Field}
    (h : t.insertNoEvict f = some t') : t.insert f = some t' ∧ t.size + entrySize f ≤ t.capacity ∧
      t' = { t with
        entries := t.entries ++ [f]
        size := t.size + entrySize f
        insertCount := t.insertCount + 1 } := by
  simp only [insertNoEvict] at h
  split_ifs at h with hroom
  obtain rfl := some.inj h
  refine ⟨?_, by omega, rfl⟩
  rw [DynamicTable.insert, if_neg (by omega), evictAbove_fits (by omega)]
  rw [if_neg (by omega)]

lemma find_spec {f : Field} {abs : ℕ}
    (hcount : t.insertCount = t.entries.length) (h : t.find f = some abs) :
    t.entries[abs]? = some f := by
  obtain ⟨⟨g, i⟩, hfind, habs⟩ := map_eq_some_iff.1 h
  have hmem := mem_of_find?_eq_some hfind
  have hpred := find?_some hfind
  simp only [decide_eq_true_eq] at hpred
  rw [mem_reverse, mem_zipIdx_iff_getElem?] at hmem
  have hold : t.oldest = 0 := by simp only [oldest]; omega
  simp only [hold, zero_add] at habs hmem
  rw [← habs, ← hpred]
  exact hmem

lemma pushInt_length_le {v bits flags : ℕ} (hv : v < 2 ^ bits - 1 + 2 ^ 14) :
    (pushInt v bits flags).length ≤ 3 := by
  have htail : ∀ v < 2 ^ 14, (pushIntTail 9 v).length ≤ 2 := by
    intro v hv
    rw [pushIntTail]
    split_ifs
    · rw [pushIntTail, if_neg (by omega)]
      simp
    · simp
  simp only [pushInt]
  split_ifs with h
  · simp
  · have := htail (v - (2 ^ bits - 1)) (by omega)
    simp only [length_cons]
    omega

lemma insertBytes_length_le {f : Field} (h : entrySize f ≤ ourMaxCapacity) :
    (insertBytes f).length ≤ entrySize f := by
  simp only [entrySize, entryOverhead, ourMaxCapacity] at h ⊢
  have hvalue := @pushInt_length_le f.2.length 7 0 (by omega)
  have hname := @pushInt_length_le f.1.length 5 0x40 (by omega)
  simp only [insertBytes, pushString, length_append]
  cases hfind : staticFindName f.1 with
  | some idx =>
    have hidx := @pushInt_length_le idx 6 0xC0 (by have := (staticFindName_spec hfind).1; omega)
    simp only
    omega
  | none =>
    simp only [length_append]
    omega

namespace Encoder

/-- The encoder's table: nothing was evicted, and it stays within the capacity it chose. -/
structure Tidy (cap : ℕ) (e : Encoder) : Prop where
  counted : e.table.insertCount = e.table.entries.length
  sized : e.table.size = totalSize e.table.entries
  fits : e.table.size ≤ e.table.capacity
  ours : e.table.capacity ≤ ourMaxCapacity
  allowed : e.table.capacity ≤ cap
  peer : 0 < e.table.capacity → e.peerMaxCapacity = cap
  unsent : e.capacitySent = false → e.table = {}

/-- What planning does to an encoder: it appends entries to the table and their instructions
to the output. -/
structure Grown (cap : ℕ) (e e' : Encoder) : Prop where
  tidy : e'.Tidy cap
  peer : e'.peerMaxCapacity = e.peerMaxCapacity
  sent : e'.capacitySent = e.capacitySent
  known : e'.knownReceived = e.knownReceived
  buffer : e'.decBuf = e.decBuf
  entries : e.table.entries <+: e'.table.entries
  told : ∃ told, e'.out = e.out ++ told ∧
    drain (lookInstruction cap) e.table told = some (e'.table, []) ∧
    e.table.size + told.length ≤ e'.table.size

lemma Grown.refl (h : e.Tidy cap) : Grown cap e e :=
  ⟨h, rfl, rfl, rfl, rfl, prefix_rfl, [], by simp, by simp, by simp⟩

lemma Grown.trans {e' e'' : Encoder} (h : Grown cap e e')
    (h' : Grown cap e' e'') : Grown cap e e'' := by
  obtain ⟨told, hout, hdrain, hlen⟩ := h.told
  obtain ⟨told', hout', hdrain', hlen'⟩ := h'.told
  refine ⟨h'.tidy, h'.peer.trans h.peer, h'.sent.trans h.sent, h'.known.trans h.known,
    h'.buffer.trans h.buffer, h.entries.trans h'.entries, told ++ told', ?_, ?_, ?_⟩
  · rw [hout', hout, append_assoc]
  · rw [drain_append (lookInstruction_stable cap), hdrain]
    exact hdrain'
  · rw [length_append]
    omega

lemma insertNoEvict_grown {f : Field} (h : e.Tidy cap) (hins : e.table.insertNoEvict f = some t) :
    Grown cap e { e with table := t, out := e.out ++ insertBytes f } := by
  obtain ⟨hinsert, hroom, rfl⟩ := insert_eq_insertNoEvict hins
  have hsmall : entrySize f ≤ ourMaxCapacity := by have := h.ours; omega
  have hbytes := insertBytes_length_le hsmall
  have hlen : f.1.length < 2 ^ 63 ∧ f.2.length < 2 ^ 63 := by
    simp only [entrySize, ourMaxCapacity] at hsmall
    omega
  refine ⟨⟨?_, ?_, hroom, h.ours, h.allowed, h.peer, ?_⟩, rfl, rfl, rfl, rfl,
    prefix_append _ _, insertBytes f, rfl, ?_, ?_⟩
  · simp [h.counted]
  · simp [h.sized]
  · intro hsent
    have hempty := h.unsent hsent
    simp only [hempty, entrySize, entryOverhead] at hroom
    omega
  · refine drain_one (lookInstruction_stable cap) ?_
    have := @look_insertBytes cap e.table _ f [] hinsert hlen.1 hlen.2
    rwa [append_nil] at this
  · simp only
    omega

lemma planField_spec (h : e.Tidy cap) (f : Field) : Grown cap e (e.planField f).1 ∧
      (e.planField f).2.For (e.planField f).1.table.entries e.knownReceived f := by
  simp only [planField]
  split
  · exact ⟨.refl h, .static _ ‹_›⟩
  split_ifs with hcap
  · split
    · rename_i abs hfind
      refine ⟨.refl h, ?_⟩
      split_ifs with hknown
      · exact .dynamic abs (find_spec h.counted hfind) hknown
      · exact planLiteral_for _ _ f
    · split
      · exact ⟨insertNoEvict_grown h ‹_›, planLiteral_for _ _ f⟩
      · exact ⟨.refl h, planLiteral_for _ _ f⟩
  · exact ⟨.refl h, planLiteral_for _ _ f⟩

lemma planFields_spec (h : e.Tidy cap) (headers : List Field) :
    Grown cap e (e.planFields headers).1 ∧
      List.Forall₂ (FieldPlan.For (e.planFields headers).1.table.entries e.knownReceived)
        headers (e.planFields headers).2 := by
  induction headers generalizing e with
  | nil => exact ⟨.refl h, .nil⟩
  | cons f headers ih =>
    obtain ⟨hgrown, hfor⟩ := planField_spec h f
    obtain ⟨hgrown', hfors⟩ := ih hgrown.tidy
    rw [hgrown.known] at hfors
    exact ⟨hgrown.trans hgrown', .cons (hfor.mono hgrown'.entries) hfors⟩

end Encoder

end OnetDns.Quic.Qpack
