import OnetDns.Quic.QpackTable

/-!
# When a section is decoded

A field section may be read at any time after its Required Insert Count is reached. What it
says then depends on two things that move with the table: the count is reconstructed near
the number of entries inserted so far, and a reference is looked up in the table as it
stands, without a look at the count the section declared.
-/
namespace OnetDns.Quic.Qpack
open List Option

def fieldLines : ℕ → Bytes → Option (List FieldLine)
  | _, [] => some []
  | 0, _ :: _ => none
  | fuel + 1, b :: buf => do
    let (line, rest) ← readFieldLine (b :: buf)
    let lines ← fieldLines fuel rest
    some (line :: lines)

def FieldLine.dynamic : FieldLine → Option Reference
  | .indexed (.static _) => none
  | .indexed ref => some ref
  | .named (.static _) _ => none
  | .named ref _ => some ref
  | .literal _ _ => none

open FieldLine

def absoluteIndexes (base : ℕ) (lines : List FieldLine) : Option (List ℕ) :=
  (lines.filterMap FieldLine.dynamic).mapM (Reference.absolute base)

/-- The limits on a header list. -/
def Within (fields : List Field) : Prop :=
  totalSize fields ≤ maxDecodedSize ∧ fields.length ≤ maxFields

instance (fields : List Field) : Decidable (Within fields) := inferInstanceAs (Decidable (_ ∧ _))

lemma readFields_eq (t : DynamicTable) (base : ℕ) {fuel : ℕ} {buf : Bytes} {out : List Field}
    (hout : Within out) :
    readFields t base fuel buf out (totalSize out) =
      (fieldLines fuel buf).bind fun lines =>
        (lines.mapM (resolve t base)).bind fun fields =>
          if Within (out ++ fields) then some (out ++ fields) else none := by
  induction fuel generalizing buf out with
  | zero =>
    cases buf with
    | nil => simp [readFields, fieldLines, hout]
    | cons b buf => simp [readFields, fieldLines]
  | succ fuel ih =>
    cases buf with
    | nil => simp [readFields, fieldLines, hout]
    | cons b buf =>
      simp only [readFields, fieldLines]
      cases hline : readFieldLine (b :: buf) with
      | none => simp
      | some r =>
        obtain ⟨line, rest⟩ := r
        simp only [bind_eq_bind, bind_some]
        cases hfield : line.resolve t base with
        | none =>
          cases fieldLines fuel rest with
          | none => simp
          | some lines => simp [hfield]
        | some field =>
          simp only [bind_some]
          split_ifs with hlimit
          · have hout' : Within (out ++ [field]) := by
              simp only [Within, totalSize_append, totalSize_cons, totalSize_nil,
                length_append, length_cons, length_nil]
              omega
            have hsize : totalSize out + entrySize field = totalSize (out ++ [field]) := by
              simp
            rw [hsize, ih hout']
            cases fieldLines fuel rest with
            | none => simp
            | some lines =>
              cases hfields : lines.mapM (resolve t base) with
              | none => simp [hfields]
              | some fields => simp [hfield, hfields]
          · cases fieldLines fuel rest with
            | none => simp
            | some lines =>
              cases hfields : lines.mapM (resolve t base) with
              | none => simp [hfields]
              | some fields =>
                have hnot : ¬ Within (out ++ field :: fields) := by
                  simp only [Within, totalSize_append, totalSize_cons, length_append, length_cons]
                  omega
                simp [hfield, hfields, hnot]

variable {lines : List FieldLine} {fields : List Field} {base' : ℕ}

section References

variable {base : ℕ} {t t' : DynamicTable}

lemma FieldLine.resolve_dynamic {line : FieldLine} {ref : Reference}
    (hdyn : line.dynamic = some ref) :
    line.resolve t base =
      ((ref.absolute base).bind t.getAbs).map fun entry =>
        match line with
        | .named _ value => (entry.1, value)
        | _ => entry := by
  rcases line with (_ | _ | _) | ⟨_ | _ | _, _⟩ | _ <;>
    simp only [dynamic, some.injEq, reduceCtorEq] at hdyn <;> subst hdyn <;>
    simp [resolve, Reference.lookup]

lemma FieldLine.resolve_static {line : FieldLine} (hdyn : line.dynamic = none) :
    line.resolve t base = line.resolve t' base' := by
  rcases line with (_ | _ | _) | ⟨_ | _ | _, _⟩ | _ <;>
    simp only [dynamic, reduceCtorEq] at hdyn <;> rfl

lemma absoluteIndexes_of_resolve (h : lines.mapM (resolve t base) = some fields) :
    ∃ refs, absoluteIndexes base lines = some refs ∧ ∀ e ∈ refs, (t.getAbs e).isSome := by
  induction lines generalizing fields with
  | nil => exact ⟨[], rfl, by simp⟩
  | cons line lines ih =>
    rw [mapM_cons] at h
    obtain ⟨field, hfield, h⟩ := bind_eq_some_iff.1 h
    obtain ⟨rest, hrest, -⟩ := bind_eq_some_iff.1 h
    obtain ⟨refs, hrefs, hall⟩ := ih hrest
    cases hdyn : line.dynamic with
    | none => exact ⟨refs, by simpa [absoluteIndexes, hdyn] using hrefs, hall⟩
    | some ref =>
      rw [resolve_dynamic hdyn, map_eq_some_iff] at hfield
      obtain ⟨entry, hentry, -⟩ := hfield
      obtain ⟨e, he, hget⟩ := bind_eq_some_iff.1 hentry
      refine ⟨e :: refs, ?_, ?_⟩
      · simp only [absoluteIndexes, filterMap_cons, hdyn, mapM_cons, he] at hrefs ⊢
        simp [hrefs]
      · intro e' he'
        rcases mem_cons.1 he' with rfl | hmem
        · simp [hget]
        · exact hall e' hmem

/-- Lines say the same under two bases and two tables that agree on what they refer to. -/
theorem resolve_congr {refs : List ℕ} (hrefs : absoluteIndexes base lines = some refs)
    (hrefs' : absoluteIndexes base' lines = some refs)
    (hagree : ∀ e ∈ refs, t.getAbs e = t'.getAbs e) :
    lines.mapM (resolve t base) = lines.mapM (resolve t' base') := by
  induction lines generalizing refs with
  | nil => rfl
  | cons line lines ih =>
    cases hdyn : line.dynamic with
    | none =>
      have hrest := ih (by simpa [absoluteIndexes, hdyn] using hrefs)
        (by simpa [absoluteIndexes, hdyn] using hrefs') hagree
      rw [mapM_cons, mapM_cons, resolve_static hdyn, hrest]
    | some ref =>
      simp only [absoluteIndexes, filterMap_cons, hdyn, mapM_cons] at hrefs hrefs'
      obtain ⟨e, he, hrefs⟩ := bind_eq_some_iff.1 hrefs
      obtain ⟨rest, hrest, hcons⟩ := bind_eq_some_iff.1 hrefs
      obtain ⟨e', he', hrefs'⟩ := bind_eq_some_iff.1 hrefs'
      obtain ⟨rest', hrest', hcons'⟩ := bind_eq_some_iff.1 hrefs'
      obtain rfl := some.inj hcons
      obtain ⟨rfl, rfl⟩ := cons.inj (some.inj hcons')
      rw [mapM_cons, mapM_cons, resolve_dynamic hdyn,
        resolve_dynamic hdyn, he, he', bind_some, bind_some,
        hagree e' (by simp), ih hrest hrest' fun e h => hagree e (by simp [h])]

lemma Reference.absolute_inj {e : ℕ} {ref : Reference} (h : ref.absolute base = some e)
    (h' : ref.absolute base' = some e) : base = base' := by
  cases ref with
  | static idx => simp [absolute] at h
  | relative idx =>
    simp only [absolute] at h h'
    split_ifs at h h'
    simp only [some.injEq] at h h'
    omega
  | postBase idx =>
    simp only [absolute] at h h'
    split_ifs at h h'
    simp only [some.injEq] at h h'
    omega

/-- A reference tells the base it was made under. -/
theorem base_eq_of_absoluteIndexes {refs : List ℕ} (hrefs : absoluteIndexes base lines = some refs)
    (hrefs' : absoluteIndexes base' lines = some refs) (hne : refs ≠ []) : base = base' := by
  simp only [absoluteIndexes] at hrefs hrefs'
  cases hdyn : lines.filterMap dynamic with
  | nil =>
    rw [hdyn] at hrefs
    simp only [mapM_nil, Option.pure_def, some.injEq] at hrefs
    exact absurd hrefs.symm hne
  | cons ref rest =>
    rw [hdyn, mapM_cons] at hrefs hrefs'
    obtain ⟨e, he, hrefs⟩ := bind_eq_some_iff.1 hrefs
    obtain ⟨es, -, hcons⟩ := bind_eq_some_iff.1 hrefs
    obtain ⟨e', he', hrefs'⟩ := bind_eq_some_iff.1 hrefs'
    obtain ⟨es', -, hcons'⟩ := bind_eq_some_iff.1 hrefs'
    obtain rfl := some.inj hcons
    obtain ⟨rfl, rfl⟩ := cons.inj (some.inj hcons')
    exact Reference.absolute_inj he he'

lemma absoluteIndexes_nil_base
    (h : absoluteIndexes base lines = some []) : absoluteIndexes base' lines = some [] := by
  simp only [absoluteIndexes] at h ⊢
  cases hdyn : lines.filterMap dynamic with
  | nil => rfl
  | cons ref rest =>
    rw [hdyn, mapM_cons] at h
    obtain ⟨e, -, h⟩ := bind_eq_some_iff.1 h
    obtain ⟨es, -, h⟩ := bind_eq_some_iff.1 h
    cases h

end References

variable {ric : ℕ}

lemma requiredInsertCount_window {maxEntries insertCount encRic : ℕ} (hpos : encRic ≠ 0)
    (h : requiredInsertCount maxEntries insertCount encRic = some ric) :
    ric % (2 * maxEntries) = (encRic - 1) % (2 * maxEntries) ∧
      insertCount < ric + maxEntries ∧ ric ≤ insertCount + maxEntries := by
  simp only [requiredInsertCount, if_neg hpos] at h
  split_ifs at h with hzero hrange hover hlow hric hric
  all_goals
    obtain rfl := some.inj h
    set full := 2 * maxEntries
    set q := (insertCount + maxEntries) / full with hq
    have hdiv := Nat.div_add_mod (insertCount + maxEntries) full
    have hmod := Nat.mod_lt (insertCount + maxEntries) (show 0 < full by omega)
    rw [← hq, mul_comm] at hdiv
  · refine ⟨?_, by omega, by omega⟩
    obtain ⟨p, hp⟩ : ∃ p, q = p + 1 := by
      refine ⟨q - 1, ?_⟩
      rcases eq_zero_or_pos q with h0 | h0
      · simp only [h0] at hlow hover
        omega
      · omega
    have hsum : q * full + encRic - 1 - full = p * full + (encRic - 1) := by
      rw [hp, add_mul]
      omega
    rw [hsum, Nat.mul_add_mod']
  · refine ⟨?_, by omega, by omega⟩
    have hsum : q * full + encRic - 1 = q * full + (encRic - 1) := by omega
    rw [hsum, Nat.mul_add_mod']

lemma window_unique {maxEntries insertCount ric' : ℕ}
    (hmod : ric % (2 * maxEntries) = ric' % (2 * maxEntries))
    (hlow : insertCount < ric + maxEntries) (hhigh : ric ≤ insertCount + maxEntries)
    (hlow' : insertCount < ric' + maxEntries) (hhigh' : ric' ≤ insertCount + maxEntries) :
    ric = ric' := by
  set full := 2 * maxEntries
  have h := Nat.div_add_mod ric full
  have h' := Nat.div_add_mod ric' full
  rcases lt_trichotomy (ric / full) (ric' / full) with hlt | heq | hlt
  · have : full * (ric / full + 1) ≤ full * (ric' / full) := Nat.mul_le_mul_left _ hlt
    rw [mul_add] at this
    omega
  · rw [heq] at h
    omega
  · have : full * (ric' / full + 1) ≤ full * (ric / full) := Nat.mul_le_mul_left _ hlt
    rw [mul_add] at this
    omega

/-- The base follows the count at a distance that the bytes fix. -/
theorem readBase_shift {ric' base : ℕ} {buf rest rest' : Bytes}
    (h : readBase ric buf = some (base, rest)) (h' : readBase ric' buf = some (base', rest')) :
    rest = rest' ∧ base + ric' = base' + ric := by
  cases buf with
  | nil => simp [readBase] at h
  | cons sb buf =>
    simp only [readBase] at h h'
    obtain ⟨⟨delta, after⟩, hdelta, h⟩ := bind_eq_some_iff.1 h
    obtain ⟨⟨delta', after'⟩, hdelta', h'⟩ := bind_eq_some_iff.1 h'
    rw [hdelta] at hdelta'
    obtain ⟨rfl, rfl⟩ := Prod.mk.inj (some.inj hdelta')
    split_ifs at h h'
    · simp only [some.injEq, Prod.mk.injEq] at h h'
      exact ⟨h.2.symm.trans h'.2, by omega⟩
    · simp only [some.injEq, Prod.mk.injEq] at h h'
      exact ⟨h.2.symm.trans h'.2, by omega⟩

namespace Decoder

variable (d : Decoder)

variable (s : Bytes)

/-- The Required Insert Count, the base and the lines a decoder reads from a section, before
it looks at an entry. -/
def settle : Option (ℕ × ℕ × List FieldLine) := do
  let (encRic, rest) ← readInt 8 s
  let ric ← requiredInsertCount d.maxEntries d.table.insertCount encRic
  let (base, rest) ← readBase ric rest
  let lines ← fieldLines rest.length rest
  some (ric, base, lines)

/-- The entries a section refers to, by their absolute indexes. -/
def references : Option (List ℕ) := (d.settle s).bind fun r => absoluteIndexes r.2.1 r.2.2

/-- A section that refers to an entry at or beyond its own Required Insert Count. -/
def Overreaches : Prop :=
  ∃ ric base lines refs, d.settle s = some (ric, base, lines) ∧
    d.references s = some refs ∧ ∃ e ∈ refs, ric ≤ e

/-- Every entry a section refers to is below the insert count. -/
def Arrived : Prop := ∃ refs, d.references s = some refs ∧ ∀ e ∈ refs, e < d.table.insertCount

/-- The table has every entry a section refers to, and the headers it spells are within the
limits. -/
def Spells : Prop :=
  ∃ ric base lines fields, d.settle s = some (ric, base, lines) ∧
    lines.mapM (FieldLine.resolve d.table base) = some fields ∧ Within fields

lemma decodeFieldSection_snd (streamId : ℕ) (s : Bytes) :
    (d.decodeFieldSection streamId s).2 = (d.readSection s).1 := by
  simp only [decodeFieldSection]
  split
  · rename_i h
    rw [h]
  · rename_i h
    rw [h]

variable {d : Decoder} {s : Bytes} {d₁ d₂ : Decoder} {ric base : ℕ}

lemma settle_eq_some_iff : d.settle s = some (ric, base, lines) ↔
      ∃ encRic rest rest', readInt 8 s = some (encRic, rest) ∧
        requiredInsertCount d.maxEntries d.table.insertCount encRic = some ric ∧
        readBase ric rest = some (base, rest') ∧ fieldLines rest'.length rest' = some lines := by
  simp only [settle, bind_eq_bind, bind_eq_some_iff, Prod.exists, some.injEq, Prod.mk.injEq]
  constructor
  · rintro ⟨encRic, rest, hint, ric', hric, base', rest', hbase, lines', hlines, rfl, rfl, rfl⟩
    exact ⟨encRic, rest, rest', hint, hric, hbase, hlines⟩
  · rintro ⟨encRic, rest, rest', hint, hric, hbase, hlines⟩
    exact ⟨encRic, rest, hint, ric, hric, base, rest', hbase, lines, hlines, rfl, rfl, rfl⟩

/-- What `decode_field_section` answers, by what the section settles to. -/
theorem readSection_done_iff : (d.readSection s).1 = .done fields ↔
      ∃ ric base lines, d.settle s = some (ric, base, lines) ∧ ric ≤ d.table.insertCount ∧
        lines.mapM (resolve d.table base) = some fields ∧ Within fields := by
  have hempty : Within [] := by decide
  constructor
  · intro h
    simp only [readSection] at h
    split at h <;> try contradiction
    rename_i encRic rest hint
    split at h <;> try contradiction
    rename_i ric hric
    split_ifs at h with hblocked
    split at h <;> try contradiction
    rename_i base rest' hbase
    split at h <;> try contradiction
    rename_i out hout
    simp only [DecodeResult.done.injEq] at h
    subst h
    have heq := @readFields_eq d.table base rest'.length rest' [] hempty
    rw [totalSize_nil, hout] at heq
    obtain ⟨lines, hlines, heq⟩ := bind_eq_some_iff.1 heq.symm
    obtain ⟨fields', hfields, heq⟩ := bind_eq_some_iff.1 heq
    split_ifs at heq with hwithin
    simp only [some.injEq] at heq hwithin
    subst heq
    exact ⟨ric, base, lines, settle_eq_some_iff.2 ⟨encRic, rest, rest', hint, hric, hbase, hlines⟩,
      by omega, hfields, hwithin⟩
  · rintro ⟨ric, base, lines, hsettle, hreached, hfields, hwithin⟩
    obtain ⟨encRic, rest, rest', hint, hric, hbase, hlines⟩ := settle_eq_some_iff.1 hsettle
    have heq := @readFields_eq d.table base rest'.length rest' [] hempty
    simp only [totalSize_nil, hlines, bind_some, hfields, nil_append, if_pos hwithin] at heq
    simp only [readSection, hint, hric, if_neg (not_lt.2 hreached), hbase, heq]

lemma reached_of_not_blocked
    (hsettle : d.settle s = some (ric, base, lines)) (h : (d.readSection s).1 ≠ .blocked) :
    ric ≤ d.table.insertCount := by
  obtain ⟨encRic, rest, rest', hint, hric, hbase, hlines⟩ := settle_eq_some_iff.1 hsettle
  by_contra hlt
  exact h (by simp only [readSection, hint, hric, if_pos (not_le.1 hlt)])

/-- A section that does not wait is refused, or its table spells it. -/
theorem readSection_cases (h : (d.readSection s).1 ≠ .blocked) :
    (d.readSection s).1 = .error ∧ ¬ d.Spells s ∨
      ∃ fields, (d.readSection s).1 = .done fields ∧ d.Spells s := by
  cases hr : (d.readSection s).1 with
  | blocked => exact absurd hr h
  | done fields =>
    obtain ⟨ric, base, lines, hsettle, -, hfields, hwithin⟩ := readSection_done_iff.1 hr
    exact .inr ⟨fields, rfl, ric, base, lines, fields, hsettle, hfields, hwithin⟩
  | error =>
    refine .inl ⟨rfl, ?_⟩
    rintro ⟨ric, base, lines, fields, hsettle, hfields, hwithin⟩
    have := readSection_done_iff.2
      ⟨ric, base, lines, hsettle, reached_of_not_blocked hsettle h, hfields, hwithin⟩
    rw [hr] at this
    cases this

/-- Both decoders read the same lines, and the counts they reconstruct are near to how far
their tables have come. -/
theorem settle_both {ric₁ ric₂ base₁ base₂ : ℕ} {lines₁ lines₂ : List FieldLine}
    (hcap : d₁.maxCapacity = d₂.maxCapacity) (h₁ : d₁.settle s = some (ric₁, base₁, lines₁))
    (h₂ : d₂.settle s = some (ric₂, base₂, lines₂)) :
    lines₁ = lines₂ ∧ base₁ + ric₂ = base₂ + ric₁ ∧
      (ric₁ = 0 ∧ ric₂ = 0 ∨ ric₁ % (2 * d₂.maxEntries) = ric₂ % (2 * d₂.maxEntries) ∧
        d₂.table.insertCount < ric₂ + d₂.maxEntries ∧
        ric₂ ≤ d₂.table.insertCount + d₂.maxEntries) := by
  obtain ⟨enc, rest, after₁, hint, hric₁, hbase₁, hlines₁⟩ := settle_eq_some_iff.1 h₁
  obtain ⟨enc', rest', after₂, hint', hric₂, hbase₂, hlines₂⟩ := settle_eq_some_iff.1 h₂
  rw [hint] at hint'
  obtain ⟨rfl, rfl⟩ := Prod.mk.inj (some.inj hint')
  obtain ⟨rfl, hshift⟩ := readBase_shift hbase₁ hbase₂
  rw [hlines₁] at hlines₂
  refine ⟨some.inj hlines₂, hshift, ?_⟩
  by_cases hzero : enc = 0
  · simp only [requiredInsertCount, if_pos hzero, some.injEq] at hric₁ hric₂
    exact .inl ⟨hric₁.symm, hric₂.symm⟩
  obtain ⟨hmod₁, -, -⟩ := requiredInsertCount_window hzero hric₁
  obtain ⟨hmod₂, hlow, hhigh⟩ := requiredInsertCount_window hzero hric₂
  have hentries : d₁.maxEntries = d₂.maxEntries := by simp only [maxEntries, hcap]
  rw [hentries] at hmod₁
  exact .inr ⟨hmod₁.trans hmod₂.symm, hlow, hhigh⟩

/-- No entry that a section refers to at either decoder is evicted at either. -/
def Kept (d₁ d₂ : Decoder) (s : Bytes) : Prop :=
  ∀ d ∈ [d₁, d₂], ∀ refs, d.references s = some refs →
    ∀ e ∈ refs, d₁.table.oldest ≤ e ∧ d₂.table.oldest ≤ e

/-- The two decoders give one answer, and refuse what overreaches. -/
def Agree (d₁ d₂ : Decoder) (s : Bytes) : Prop :=
  (d₁.readSection s).1 = (d₂.readSection s).1 ∧
    ∀ d ∈ [d₁, d₂], d.Overreaches s → (d.readSection s).1 = .error

/-- A section that one of the tables spells refers to the same entries at both, and to none
at or beyond its Required Insert Count. -/
def Fixed (d₁ d₂ : Decoder) (s : Bytes) : Prop :=
  ∀ d ∈ [d₁, d₂], d.Spells s → d₁.references s = d₂.references s ∧ ¬ d.Overreaches s

/-- A section whose entries have all arrived at one of the tables refers to the same entries at
both, and to none at or beyond its Required Insert Count. -/
def Steady (d₁ d₂ : Decoder) (s : Bytes) : Prop :=
  ∀ d ∈ [d₁, d₂], d.Arrived s → d₁.references s = d₂.references s ∧ ¬ d.Overreaches s

lemma Spells.arrived (h : d.Spells s) : d.Arrived s := by
  obtain ⟨ric, base, lines, fields, hsettle, hfields, -⟩ := h
  obtain ⟨refs, habs, hheld⟩ := absoluteIndexes_of_resolve hfields
  refine ⟨refs, by simpa only [references, hsettle, bind_some] using habs, fun e he => ?_⟩
  obtain ⟨f, hf⟩ := isSome_iff_exists.1 (hheld e he)
  exact (DynamicTable.getAbs_isSome hf).2

lemma Kept.symm (h : Kept d₁ d₂ s) : Kept d₂ d₁ s := by
  intro d hd refs hrefs e he
  exact (h d (by simpa [or_comm] using hd) refs hrefs e he).symm

lemma agree_comm : Agree d₁ d₂ s ↔ Agree d₂ d₁ s := by
  simp only [Agree, mem_cons, not_mem_nil, or_false, forall_eq_or_imp, forall_eq]
  constructor <;> rintro ⟨h, h₁, h₂⟩ <;> exact ⟨h.symm, h₂, h₁⟩

lemma fixed_comm : Fixed d₁ d₂ s ↔ Fixed d₂ d₁ s := by
  simp only [Fixed, mem_cons, not_mem_nil, or_false, forall_eq_or_imp, forall_eq]
  constructor <;> rintro ⟨h₁, h₂⟩ <;>
    exact ⟨fun h => ⟨(h₂ h).1.symm, (h₂ h).2⟩, fun h => ⟨(h₁ h).1.symm, (h₁ h).2⟩⟩

/-- The second decoder is the first at a later moment of the encoder stream. -/
structure Later (d₁ d₂ : Decoder) : Prop where
  sound₁ : d₁.table.Sound d₁.maxCapacity
  sound₂ : d₂.table.Sound d₂.maxCapacity
  cap : d₁.maxCapacity = d₂.maxCapacity
  slides : d₁.table.Slides d₂.table

section Moments

variable {maxCapacity : ℕ} {d₁ d₂ : Decoder} {s : Bytes}

lemma references_eq (h : d.settle s = some (ric, base, lines)) :
    d.references s = absoluteIndexes base lines := by
  simp only [references, h, bind_some]

variable (h : Later d₁ d₂)
include h

/-- An entry below the count that is not evicted later pins the count down. -/
theorem Later.required_eq {ric₁ ric₂ base₁ base₂ e : ℕ} {lines₁ lines₂ : List FieldLine}
    (h₁ : d₁.settle s = some (ric₁, base₁, lines₁)) (h₂ : d₂.settle s = some (ric₂, base₂, lines₂))
    (hreached : ric₁ ≤ d₁.table.insertCount) (hbelow : e < ric₁) (hkept : d₂.table.oldest ≤ e) :
    ric₁ = ric₂ := by
  obtain ⟨-, -, ⟨hzero, -⟩ | ⟨hmod, hlow, hhigh⟩⟩ := settle_both h.cap h₁ h₂
  · omega
  have hlen := h.sound₂.length_le
  have hgrown := h.slides.insertCount_le
  have hentries : d₂.maxEntries = d₂.maxCapacity / entryOverhead := rfl
  simp only [DynamicTable.oldest] at hkept
  exact window_unique hmod (by omega) (by omega) hlow hhigh

/-- What the earlier table spells with the references of the later, the later spells too. -/
theorem Later.done_later (hkept : Kept d₁ d₂ s)
    (hblocked₂ : (d₂.readSection s).1 ≠ .blocked) (hdone : (d₁.readSection s).1 = .done fields)
    (hrefs : d₁.references s = d₂.references s) : (d₂.readSection s).1 = .done fields := by
  obtain ⟨ric₁, base₁, lines, h₁, -, hfields, hwithin⟩ := readSection_done_iff.1 hdone
  obtain ⟨refs, habs, hheld⟩ := absoluteIndexes_of_resolve hfields
  have hrefs₁ : d₁.references s = some refs := (references_eq h₁).trans habs
  have hrefs₂ : d₂.references s = some refs := hrefs ▸ hrefs₁
  obtain ⟨⟨ric₂, base₂, lines₂⟩, h₂, habs₂⟩ := bind_eq_some_iff.1 hrefs₂
  obtain ⟨rfl, -, -⟩ := settle_both h.cap h₁ h₂
  refine readSection_done_iff.2 ⟨ric₂, base₂, lines, h₂, reached_of_not_blocked h₂ hblocked₂, ?_,
    hwithin⟩
  rw [← hfields]
  refine resolve_congr habs₂ habs fun e he => ?_
  obtain ⟨f, hf⟩ := isSome_iff_exists.1 (hheld e he)
  exact h.slides.getAbs_eq h.sound₁.counted h.sound₂.counted
    (hkept d₁ (by simp) refs hrefs₁ e he).2 (DynamicTable.getAbs_isSome hf).2

/-- What the later table spells with references below its count that are those of the
earlier, the earlier spells too. -/
theorem Later.done_earlier (hkept : Kept d₁ d₂ s)
    (hblocked₁ : (d₁.readSection s).1 ≠ .blocked) (hdone : (d₂.readSection s).1 = .done fields)
    (hrefs : d₁.references s = d₂.references s) (hbelow : ¬ d₂.Overreaches s) :
    (d₁.readSection s).1 = .done fields := by
  obtain ⟨ric₂, base₂, lines, h₂, -, hfields, hwithin⟩ := readSection_done_iff.1 hdone
  obtain ⟨refs, habs, -⟩ := absoluteIndexes_of_resolve hfields
  have hrefs₂ : d₂.references s = some refs := (references_eq h₂).trans habs
  have hrefs₁ : d₁.references s = some refs := hrefs ▸ hrefs₂
  obtain ⟨⟨ric₁, base₁, lines₁⟩, h₁, habs₁⟩ := bind_eq_some_iff.1 hrefs₁
  dsimp only at habs₁
  obtain ⟨rfl, hshift, -⟩ := settle_both h.cap h₁ h₂
  have hreached := reached_of_not_blocked h₁ hblocked₁
  refine readSection_done_iff.2 ⟨ric₁, base₁, lines₁, h₁, hreached, ?_, hwithin⟩
  rw [← hfields]
  refine resolve_congr habs₁ habs fun e he => ?_
  have hbase := base_eq_of_absoluteIndexes habs₁ habs (ne_nil_of_mem he)
  have hlt : e < ric₂ := by
    by_contra hge
    exact hbelow ⟨ric₂, base₂, lines₁, refs, h₂, hrefs₂, e, he, by omega⟩
  exact (h.slides.getAbs_eq h.sound₁.counted h.sound₂.counted
    (hkept d₂ (by simp) refs hrefs₂ e he).2 (by omega)).symm

/-- Two honest readings of a section refer to the same entries. -/
theorem Later.references_eq_of_done (hkept : Kept d₁ d₂ s) {fields₁ fields₂ : List Field}
    (hdone₁ : (d₁.readSection s).1 = .done fields₁) (hdone₂ : (d₂.readSection s).1 = .done fields₂)
    (hbelow : ¬ d₁.Overreaches s) : d₁.references s = d₂.references s := by
  obtain ⟨ric₁, base₁, lines, h₁, hreached, hfields₁, -⟩ := readSection_done_iff.1 hdone₁
  obtain ⟨ric₂, base₂, lines₂, h₂, -, -, -⟩ := readSection_done_iff.1 hdone₂
  obtain ⟨rfl, hshift, -⟩ := settle_both h.cap h₁ h₂
  obtain ⟨refs, habs, -⟩ := absoluteIndexes_of_resolve hfields₁
  have hrefs₁ : d₁.references s = some refs := (references_eq h₁).trans habs
  rw [references_eq h₁, references_eq h₂]
  by_cases hnone : refs = []
  · subst hnone
    rw [habs, absoluteIndexes_nil_base habs]
  obtain ⟨e, he⟩ := exists_mem_of_ne_nil refs hnone
  have hlt : e < ric₁ := by
    by_contra hge
    exact hbelow ⟨ric₁, base₁, lines, refs, h₁, hrefs₁, e, he, by omega⟩
  have hric := h.required_eq h₁ h₂ hreached hlt (hkept d₁ (by simp) refs hrefs₁ e he).2
  rw [show base₁ = base₂ by omega]

lemma Later.agree_iff_fixed (hkept : Kept d₁ d₂ s) (hblocked₁ : (d₁.readSection s).1 ≠ .blocked)
    (hblocked₂ : (d₂.readSection s).1 ≠ .blocked) :
    Agree d₁ d₂ s ↔ Fixed d₁ d₂ s := by
  simp only [Agree, Fixed, mem_cons, not_mem_nil, or_false, forall_eq_or_imp, forall_eq]
  constructor
  · rintro ⟨heq, hover₁, hover₂⟩
    -- a table that spells the section makes both decoders answer with headers
    have hboth : ∀ fields, (d₁.readSection s).1 = .done fields →
        d₁.references s = d₂.references s ∧ ¬ d₁.Overreaches s ∧ ¬ d₂.Overreaches s := by
      intro fields hdone₁
      have hdone₂ := heq ▸ hdone₁
      have hnot₁ : ¬ d₁.Overreaches s := fun h => by simp [hover₁ h] at hdone₁
      have hnot₂ : ¬ d₂.Overreaches s := fun h => by simp [hover₂ h] at hdone₂
      exact ⟨h.references_eq_of_done hkept hdone₁ hdone₂ hnot₁, hnot₁, hnot₂⟩
    constructor
    · intro hspells
      obtain ⟨-, hnot⟩ | ⟨fields, hdone, -⟩ := readSection_cases hblocked₁
      · exact absurd hspells hnot
      · exact ⟨(hboth fields hdone).1, (hboth fields hdone).2.1⟩
    · intro hspells
      obtain ⟨-, hnot⟩ | ⟨fields, hdone, -⟩ := readSection_cases hblocked₂
      · exact absurd hspells hnot
      · exact ⟨(hboth fields (heq ▸ hdone)).1, (hboth fields (heq ▸ hdone)).2.2⟩
  · rintro ⟨hfixed₁, hfixed₂⟩
    obtain ⟨herr₁, hnot₁⟩ | ⟨fields, hdone₁, hspells₁⟩ := readSection_cases hblocked₁
    · obtain ⟨herr₂, -⟩ | ⟨fields, hdone₂, hspells₂⟩ := readSection_cases hblocked₂
      · exact ⟨herr₁.trans herr₂.symm, fun _ => herr₁, fun _ => herr₂⟩
      · obtain ⟨hrefs, hbelow⟩ := hfixed₂ hspells₂
        have := h.done_earlier hkept hblocked₁ hdone₂ hrefs hbelow
        rw [herr₁] at this
        cases this
    obtain ⟨hrefs, hbelow₁⟩ := hfixed₁ hspells₁
    have hdone₂ := h.done_later hkept hblocked₂ hdone₁ hrefs
    obtain ⟨herr₂, -⟩ | ⟨-, -, hspells₂⟩ := readSection_cases hblocked₂
    · rw [hdone₂] at herr₂
      cases herr₂
    · exact ⟨hdone₁.trans hdone₂.symm, fun h => absurd h hbelow₁,
        fun h => absurd h (hfixed₂ hspells₂).2⟩

end Moments

/-- More of one encoder stream is a later moment. -/
theorem later_of_receive {maxCapacity : ℕ} {chunks₁ chunks₂ : List Bytes} {d₁ d₂ : Decoder}
    (h₁ : (new maxCapacity).receive chunks₁ = some d₁)
    (h₂ : (new maxCapacity).receive chunks₂ = some d₂)
    (hpre : chunks₁.flatten <+: chunks₂.flatten) : Later d₁ d₂ := by
  obtain ⟨⟨hsound₁, hcap₁⟩, ⟨hsound₂, hcap₂⟩, hslides⟩ := receive_slides h₁ h₂ hpre
  exact ⟨hcap₁ ▸ hsound₁, hcap₂ ▸ hsound₂, hcap₁.trans hcap₂.symm, hslides⟩

/-- A capacity of 128 and the entry `a: b`. -/
def oneEntry : Bytes := [0x3f, 97, 0x41, 97, 1, 98]

/-- Then the entry `c: d`. -/
def twoEntries : Bytes := oneEntry ++ [0x41, 99, 1, 100]

/-- The decoder after the first entry. -/
def afterOne : Decoder := { table := ⟨[([97], [98])], 1, 128, 34⟩, maxCapacity := 128, out := [1] }

def afterTwo : Decoder :=
  { table := ⟨[([97], [98]), ([99], [100])], 2, 128, 68⟩, maxCapacity := 128, out := [2] }

/-- A section that requires one entry and refers to it. -/
def honestSection : Bytes := [2, 0, 0x80]

/-- A section that requires one entry and refers to the one after it. -/
def overreachingSection : Bytes := [2, 0, 0x10]

/-- A section that requires one entry and refers to the second one after it. -/
def farSection : Bytes := [2, 0, 0x11]

lemma kept_entries (s : Bytes) : Kept afterOne afterTwo s :=
  fun _ _ _ _ e _ => ⟨Nat.zero_le e, Nat.zero_le e⟩

end Decoder

end OnetDns.Quic.Qpack
