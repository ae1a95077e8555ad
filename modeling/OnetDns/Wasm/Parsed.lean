import OnetDns.Wasm.Invariant

/-!
# What the parser has checked

A module that is parsed is one that is safe to run: the positions in its functions are positions,
its globals have their types and are set only where they may be, and its limits are in order.
-/
namespace OnetDns.Wasm
open Reader Guarded

variable {α β : Type} {P Q : α → Prop} {R : β → Prop} {m m' : Module}

/-- What is read has the property, and nothing is put back. -/
def Gives (P : α → Prop) (r : Reader α) : Prop :=
  ∀ b a rest, r b = .ok (a, rest) → P a ∧ rest.length ≤ b.length

lemma gives_pure {a : α} (h : P a) : Gives P (pure a : Reader α) := by
  intro b a' rest hr
  cases hr
  exact ⟨h, le_refl _⟩

lemma gives_fail (error : String) : Gives P (fail error : Reader α) := by
  intro b a rest hr
  cases hr

lemma Gives.bind {r : Reader α} {f : α → Reader β} (h : Gives P r)
    (hf : ∀ a, P a → Gives R (f a)) : Gives R (r >>= f) := by
  intro b c rest hr
  obtain ⟨⟨a, left⟩, hread, hr⟩ := bind_inv hr
  obtain ⟨ha, hleft⟩ := h b a left hread
  obtain ⟨hc, hrest⟩ := hf a ha left c rest hr
  exact ⟨hc, le_trans hrest hleft⟩

lemma gives_ite {c : Prop} [Decidable c] {r r' : Reader α} (h : c → Gives P r)
    (h' : ¬c → Gives P r') : Gives P (if c then r else r') := by
  split
  · exact h ‹_›
  · exact h' ‹_›

lemma gives_guard {c : Prop} [Decidable c] {error : String} {r : Reader α}
    (h : ¬c → Gives P r) : Gives P (if c then fail error else r) :=
  gives_ite (fun _ => gives_fail _) h

lemma gives_times {f : α → Reader α} (hf : ∀ a, P a → Gives P (f a)) :
    ∀ (n : ℕ) {a : α}, P a → Gives P (times n f a)
  | 0, _, ha => gives_pure ha
  | n + 1, a, ha => (hf a ha).bind fun _ ha => gives_times hf n ha

lemma byte_takes {b rest : List UInt8} {x : UInt8} (h : byte b = .ok (x, rest)) :
    rest.length + 1 = b.length := by
  cases b with
  | nil => cases h
  | cons y b =>
    cases h
    rfl

lemma gives_byte : Gives any byte :=
  fun _ _ _ h => ⟨trivial, le_of_lt (Nat.lt_of_succ_le (le_of_eq (byte_takes h)))⟩

lemma gives_done : Gives any done := by
  intro b a rest h
  cases h
  exact ⟨trivial, le_refl _⟩

lemma gives_bytes (n : ℕ) : Gives any (Reader.bytes n) := by
  intro b a rest h
  unfold bytes at h
  split at h
  · cases h
    refine ⟨trivial, ?_⟩
    rw [List.length_drop]
    exact Nat.sub_le _ _
  · cases h

lemma gives_u32Loop : ∀ (left shift : ℕ) (r : BitVec 32), Gives any (u32Loop left shift r)
  | 0, _, _ => gives_fail _
  | left + 1, _, _ => gives_byte.bind fun _ _ =>
    gives_ite (fun _ => gives_pure trivial) fun _ => gives_u32Loop left _ _

lemma gives_u32 : Gives any u32 := gives_u32Loop 5 0 0

lemma gives_count : Gives any count := gives_u32.bind fun _ _ => gives_pure trivial

lemma gives_i64Loop : ∀ (left shift : ℕ) (r : BitVec 64), Gives any (i64Loop left shift r)
  | 0, _, _ => gives_fail _
  | left + 1, _, _ => gives_byte.bind fun _ _ =>
    gives_ite (fun _ => gives_pure trivial) fun _ => gives_i64Loop left _ _

lemma gives_i64 : Gives any i64 := gives_i64Loop 10 0 0

lemma gives_i32 : Gives any i32 := gives_i64.bind fun _ _ => gives_pure trivial

lemma gives_f32 : Gives any f32 := (gives_bytes 4).bind fun _ _ => gives_pure trivial

lemma gives_f64 : Gives any f64 := (gives_bytes 8).bind fun _ _ => gives_pure trivial

lemma gives_name : Gives any Reader.name := by
  refine gives_count.bind fun n _ => (gives_bytes n).bind fun s _ => ?_
  cases String.fromUTF8? ⟨s.toArray⟩ with
  | none => exact gives_fail _
  | some name => exact gives_pure trivial

lemma gives_valType (b : UInt8) : Gives any (valType b) := by
  iterate 4 refine gives_ite (fun _ => gives_pure trivial) fun _ => ?_
  exact gives_fail _

/-- What is known of a module while its sections are read. -/
structure Module.Begun (m : Module) : Prop where
  limits : ∀ most, m.memMax = some most → m.memMin ≤ most
  globals : ∀ g ∈ m.globals, g.2.2.valueType = g.1

lemma Module.begun_empty : Module.empty.Begun := by
  refine ⟨fun most h => ?_, fun g hg => ?_⟩
  · cases h
  · cases hg

lemma gives_readValTypes (n : ℕ) : Gives any (readValTypes n) :=
  gives_times (fun _ _ => gives_byte.bind fun b _ =>
    (gives_valType b).bind fun _ _ => gives_pure trivial) n trivial

lemma parseType_begun (hm : m.Begun) : Gives Module.Begun (parseType m) := by
  refine gives_byte.bind fun b _ => gives_guard fun _ => ?_
  refine gives_count.bind fun np _ => gives_guard fun _ => ?_
  refine (gives_readValTypes np).bind fun params _ => gives_count.bind fun nr _ => ?_
  refine gives_guard fun _ => ?_
  exact (gives_readValTypes nr).bind fun results _ => gives_pure ⟨hm.limits, hm.globals⟩

lemma readLimits_ordered : Gives (fun l => ∀ most, l.2 = some most → l.1 ≤ most) readLimits := by
  refine gives_byte.bind fun flag _ => gives_guard fun _ => ?_
  refine gives_u32.bind fun least _ => .bind (P := any) ?_ fun most _ => ?_
  · exact gives_ite (fun _ => gives_u32.bind fun _ _ => gives_pure trivial) fun _ =>
      gives_pure trivial
  · refine gives_guard fun hordered => gives_pure fun most hmost => ?_
    dsimp only at hmost
    rw [hmost, Option.any_some, decide_eq_true_eq, UInt32.not_lt] at hordered
    exact hordered

lemma parseTables_begun (hm : m.Begun) : Gives Module.Begun (parseTables m) := by
  refine gives_count.bind fun n _ => gives_guard fun _ => ?_
  refine gives_times (fun m hm => ?_) n hm
  refine gives_byte.bind fun b _ => gives_guard fun _ => ?_
  refine readLimits_ordered.bind fun l _ => gives_guard fun _ => ?_
  exact gives_pure ⟨hm.limits, hm.globals⟩

lemma parseMemory_begun (hm : m.Begun) : Gives Module.Begun (parseMemory m) := by
  refine gives_count.bind fun n _ => gives_guard fun _ => ?_
  refine gives_ite (fun _ => ?_) fun _ => gives_pure hm
  refine readLimits_ordered.bind fun l hl => gives_guard fun _ => ?_
  exact gives_pure ⟨hl, hm.globals⟩

lemma gives_constValue (op : UInt8) : Gives any (constValue op) := by
  refine gives_ite (fun _ => gives_i32.bind fun _ _ => gives_pure trivial) fun _ => ?_
  refine gives_ite (fun _ => gives_i64.bind fun _ _ => gives_pure trivial) fun _ => ?_
  refine gives_ite (fun _ => gives_f32.bind fun _ _ => gives_pure trivial) fun _ => ?_
  refine gives_ite (fun _ => gives_f64.bind fun _ _ => gives_pure trivial) fun _ => ?_
  exact gives_ite (fun _ => gives_u32.bind fun _ _ => gives_fail _) fun _ => gives_fail _

lemma evalConstExpr_typed (expected : ValType) :
    Gives (fun v => v.valueType = expected) (evalConstExpr expected) := by
  refine gives_byte.bind fun op _ => (gives_constValue op).bind fun v _ => ?_
  refine gives_byte.bind fun last _ => gives_guard fun _ => ?_
  exact gives_guard fun htype => gives_pure (not_not.mp htype)

lemma parseGlobal_begun (hm : m.Begun) : Gives Module.Begun (parseGlobal m) := by
  refine gives_byte.bind fun b _ => (gives_valType b).bind fun vt _ => ?_
  refine gives_byte.bind fun mutability _ => gives_guard fun _ => ?_
  refine (evalConstExpr_typed vt).bind fun v hv => gives_pure ⟨hm.limits, fun g hg => ?_⟩
  rcases List.mem_append.mp hg with hg | hg
  · exact hm.globals g hg
  · obtain rfl := List.mem_singleton.mp hg
    exact hv

lemma parseExport_begun (hm : m.Begun) : Gives Module.Begun (parseExport m) := by
  refine gives_name.bind fun name _ => gives_byte.bind fun kind _ => gives_u32.bind fun idx _ => ?_
  cases exportKind kind with
  | none => exact gives_fail _
  | some kind =>
    exact gives_guard fun _ => gives_pure ⟨hm.limits, hm.globals⟩

lemma gives_fillTable : ∀ (count off : ℕ) (table : List (Option UInt32)),
    Gives any (fillTable count off table)
  | 0, _, _ => gives_pure trivial
  | count + 1, off, _ => gives_u32.bind fun _ _ => gives_fillTable count (off + 1) _

lemma gives_offsetOf (v : Value) (error : String) : Gives any (offsetOf v error) := by
  cases v
  case i32 => exact gives_guard fun _ => gives_pure trivial
  all_goals exact gives_fail _

lemma parseElement_begun (hm : m.Begun) : Gives Module.Begun (parseElement m) := by
  refine gives_u32.bind fun flags _ => gives_guard fun _ => ?_
  refine (evalConstExpr_typed .i32).bind fun v _ => (gives_offsetOf v _).bind fun off _ => ?_
  refine gives_count.bind fun count _ => gives_guard fun _ => ?_
  exact (gives_fillTable count _ _).bind fun table _ => gives_pure ⟨hm.limits, hm.globals⟩

lemma parseDatum_begun (hm : m.Begun) : Gives Module.Begun (parseDatum m) := by
  refine gives_u32.bind fun flags _ => gives_guard fun _ => ?_
  refine (evalConstExpr_typed .i32).bind fun v _ => (gives_offsetOf v _).bind fun off _ => ?_
  refine gives_count.bind fun len _ => gives_guard fun _ => ?_
  exact (gives_bytes len).bind fun bytes _ => gives_pure ⟨hm.limits, hm.globals⟩

lemma gives_parseCode : Gives any parseCode := by
  refine gives_count.bind fun n _ => gives_guard fun _ => ?_
  refine gives_times (fun _ _ => ?_) n trivial
  exact gives_count.bind fun size _ => (gives_bytes size).bind fun _ _ => gives_pure trivial

lemma parseSection_begun (id : UInt8) {p : Parsing} (hp : p.m.Begun) :
    Gives (fun p => p.m.Begun) (parseSection id p) := by
  have hset : ∀ {parse : Module → Reader Module}, Gives Module.Begun (parse p.m) →
      Gives (fun p => p.m.Begun) (do let m ← parse p.m; pure { p with m := m }) :=
    fun h => h.bind fun m hm => gives_pure hm
  have hmany : ∀ {f : Module → Reader Module} {n : ℕ}, (∀ m, m.Begun → Gives Module.Begun (f m)) →
      Gives Module.Begun (times n f p.m) := fun hf => gives_times hf _ hp
  refine gives_ite (fun _ => hset ?_) fun _ => gives_ite (fun _ => hset ?_) fun _ =>
    gives_ite (fun _ => hset ?_) fun _ => gives_ite (fun _ => hset (parseTables_begun hp)) fun _ =>
    gives_ite (fun _ => hset (parseMemory_begun hp)) fun _ => gives_ite (fun _ => hset ?_) fun _ =>
    gives_ite (fun _ => hset ?_) fun _ => gives_ite (fun _ => hset ?_) fun _ =>
    gives_ite (fun _ => hset ?_) fun _ => gives_ite (fun _ => ?_) fun _ => hset ?_
  · exact gives_count.bind fun n _ =>
      gives_guard fun _ => hmany fun _ => parseType_begun
  · exact gives_count.bind fun n _ => gives_guard fun _ => gives_pure hp
  · refine gives_count.bind fun n _ => gives_guard fun _ => hmany fun m hm => ?_
    exact gives_u32.bind fun t _ => gives_pure ⟨hm.limits, hm.globals⟩
  · exact gives_count.bind fun n _ =>
      gives_guard fun _ => hmany fun _ => parseGlobal_begun
  · exact gives_count.bind fun n _ =>
      gives_guard fun _ => hmany fun _ => parseExport_begun
  · exact gives_u32.bind fun start _ => gives_pure ⟨hp.limits, hp.globals⟩
  · exact gives_count.bind fun n _ => gives_guard fun _ =>
      gives_guard fun _ => hmany fun _ => parseElement_begun
  · exact gives_parseCode.bind fun bodies _ => gives_pure hp
  · exact gives_count.bind fun n _ => gives_guard fun _ =>
      gives_guard fun _ => hmany fun _ => parseDatum_begun

end OnetDns.Wasm
