import OnetDns.Wasm.Parsed

/-!
# What has been decoded

The positions that are put into the instructions of a function are positions in it, as many turns
as there are bytes are enough for the loops of the parser, and a module that is parsed is checked.
-/
namespace OnetDns.Wasm
open Reader List Nat Guarded

variable {m : Module} {n n' budget : ℕ} {instr : Instr} {d : Decoding}

lemma Instr.Within.mono (h : instr.Within n) (hle : n ≤ n') : instr.Within n' := by
  cases instr with
  | block arity target => exact le_trans h hle
  | loop arity target => exact le_trans h hle
  | ifElse arity other target => exact ⟨le_trans h.1 hle, le_trans h.2 hle⟩
  | orElse target => exact le_trans h hle
  | _ => trivial

def WithinAll (instrs : List Instr) : Prop := ∀ instr ∈ instrs, instr.Within instrs.length

variable {instrs : List Instr}

lemma WithinAll.push (h : WithinAll instrs)
    (hinstr : instr.Within instrs.length) : WithinAll (instrs ++ [instr]) := by
  intro other hother
  have hle : instrs.length ≤ (instrs ++ [instr]).length := by
    rw [length_append]
    exact le_add_right _ _
  rcases mem_append.mp hother with hother | hother
  · exact (h other hother).mono hle
  · obtain rfl := mem_singleton.mp hother
    exact hinstr.mono hle

lemma forall_mem_modify {P : Instr → Prop} {f : Instr → Instr} (hf : ∀ a, P a → P (f a)) (h : ∀ a ∈ instrs, P a) (i : ℕ) : ∀ a ∈ instrs.modify i f, P a := by
  intro a ha
  obtain ⟨j, hj⟩ := mem_iff_getElem?.mp ha
  rw [getElem?_modify] at hj
  obtain ⟨b, hb, rfl⟩ := Option.map_eq_some_iff.mp hj
  have hP := h b (mem_of_getElem? hb)
  split
  · exact hf b hP
  · exact hP

lemma WithinAll.modify (h : WithinAll instrs) {f : Instr → Instr}
    (hf : ∀ a, a.Within instrs.length → (f a).Within instrs.length) (i : ℕ) :
    WithinAll (instrs.modify i f) := by
  intro a ha
  rw [length_modify]
  exact forall_mem_modify hf h i a ha

lemma setElse_within (h : instr.Within n) : (setElse n instr).Within n := by
  cases instr with
  | ifElse arity other target => exact ⟨le_refl _, h.2⟩
  | _ => exact h

lemma setStop_within (h : instr.Within n) : (setStop n instr).Within n := by
  cases instr with
  | block arity target => exact le_refl n
  | loop arity target => exact le_refl n
  | ifElse arity other target =>
    refine ⟨?_, le_refl _⟩
    split
    · exact le_refl _
    · exact h.1
  | _ => exact h

lemma setElseStop_within (h : instr.Within n) : (setElseStop n instr).Within n := by
  cases instr with
  | orElse target =>
    have hcases : (if target = 0 then n else target) ≤ n := by
      split
      · exact le_refl _
      · exact h
    exact hcases
  | _ => exact h

lemma length_closeBlock (idx : ℕ) (kind : CtrlKind) (instrs : List Instr) :
    (closeBlock idx kind instrs).length = instrs.length := by
  unfold closeBlock
  split
  · rw [length_append, length_map, ← length_append, take_append_drop, length_modify]
  · rw [length_modify]

lemma WithinAll.closeBlock (h : WithinAll instrs) (idx : ℕ)
    (kind : CtrlKind) : WithinAll (closeBlock idx kind instrs) := by
  have hmodify : WithinAll (instrs.modify idx (setStop instrs.length)) :=
    h.modify (fun _ => setStop_within) idx
  intro a ha
  rw [length_closeBlock]
  have hwithin : ∀ b ∈ instrs.modify idx (setStop instrs.length), b.Within instrs.length := by
    intro b hb
    have := hmodify b hb
    rwa [length_modify] at this
  unfold Wasm.closeBlock at ha
  split at ha
  · rcases mem_append.mp ha with ha | ha
    · exact hwithin a (mem_of_mem_take ha)
    · obtain ⟨b, hb, rfl⟩ := mem_map.mp ha
      exact setElseStop_within (hwithin b (mem_of_mem_drop hb))
  · exact hwithin a ha

lemma gives_blocktypeArity : Gives any blocktypeArity :=
  gives_byte.bind fun _ _ => gives_ite (fun _ => gives_pure trivial) fun _ =>
    gives_ite (fun _ => gives_pure trivial) fun _ => gives_fail _

lemma memIndex_within (error : String) (h : ∀ n, instr.Within n) :
    Gives (fun instr => ∀ n, instr.Within n) (memIndex error instr) :=
  gives_byte.bind fun _ _ => gives_guard fun _ => gives_pure h

lemma indexed_within {f : UInt32 → Instr} (h : ∀ i n, (f i).Within n) :
    Gives (fun instr => ∀ n, instr.Within n) (indexed f) :=
  gives_u32.bind fun i _ => gives_pure (h i)

lemma gives_brTargets (count : ℕ) : Gives any (brTargets count) :=
  gives_times (fun _ _ => gives_u32.bind fun _ _ => gives_pure trivial) count trivial

/-- An instruction that neither opens nor closes a block has no position in it. -/
theorem decodePlain_within (op : ℕ) :
    Gives (fun instr => ∀ n, instr.Within n) (decodePlain op) := by
  iterate 2 refine gives_ite (fun _ => gives_pure fun _ => trivial) fun _ => ?_
  iterate 2 refine gives_ite (fun _ => indexed_within fun _ _ => trivial) fun _ => ?_
  refine gives_ite (fun _ => gives_count.bind fun count _ => ?_) fun _ => ?_
  · exact gives_ite (fun _ => gives_fail _) fun _ =>
      (gives_brTargets count).bind fun targets _ => indexed_within fun _ _ => trivial
  refine gives_ite (fun _ => gives_pure fun _ => trivial) fun _ => ?_
  refine gives_ite (fun _ => indexed_within fun _ _ => trivial) fun _ => ?_
  refine gives_ite (fun _ => gives_u32.bind fun t _ => gives_byte.bind fun b _ => ?_) fun _ => ?_
  · exact gives_guard fun _ => gives_pure fun _ => trivial
  iterate 2 refine gives_ite (fun _ => gives_pure fun _ => trivial) fun _ => ?_
  refine gives_ite (fun _ => gives_u32.bind fun k _ => gives_guard fun _ => ?_) fun _ => ?_
  · exact gives_byte.bind fun b _ => (gives_valType b).bind fun _ _ => gives_pure fun _ => trivial
  iterate 5 refine gives_ite (fun _ => indexed_within fun _ _ => trivial) fun _ => ?_
  iterate 2
    refine gives_ite (fun _ => gives_u32.bind fun _ _ => indexed_within fun _ _ => trivial)
      fun _ => ?_
  iterate 2 refine gives_ite (fun _ => memIndex_within _ fun _ => trivial) fun _ => ?_
  refine gives_ite (fun _ => gives_i32.bind fun _ _ => gives_pure fun _ => trivial) fun _ => ?_
  refine gives_ite (fun _ => gives_i64.bind fun _ _ => gives_pure fun _ => trivial) fun _ => ?_
  refine gives_ite (fun _ => gives_f32.bind fun _ _ => gives_pure fun _ => trivial) fun _ => ?_
  refine gives_ite (fun _ => gives_f64.bind fun _ _ => gives_pure fun _ => trivial) fun _ => ?_
  refine gives_ite (fun _ => gives_pure fun _ => trivial) fun _ => ?_
  exact gives_ite (fun _ => gives_fail _) fun _ => gives_fail _

def Decoding.Within (d : Decoding) : Prop := WithinAll d.instrs

lemma Decoding.Within.opens (h : d.Within) (hinstr : instr.Within d.instrs.length)
    (kind : CtrlKind) : (d.opens instr kind).Within := .push h hinstr

lemma decodeElse_within (d : Decoding) : Gives (fun d' => d.Within → d'.Within) (decodeElse d) := by
  unfold decodeElse
  cases d.ctrl with
  | nil => exact gives_fail _
  | cons open' ctrl =>
    refine gives_guard fun _ => gives_pure fun h => ?_
    exact .push (.modify h (fun _ => setElse_within) _) (zero_le _)

lemma decodeEnd_within (h : d.Within) : (decodeEnd d).Within := by
  unfold decodeEnd
  cases d.ctrl with
  | nil => exact .push h trivial
  | cons open' ctrl => exact .push (.closeBlock h _ _) trivial

/-- What is decoded next is in order if all before it is. -/
theorem decodeOp_within (op : ℕ) (d : Decoding) :
    Gives (fun d' => d.Within → d'.Within) (decodeOp op d) := by
  refine gives_ite (fun _ => gives_blocktypeArity.bind fun _ _ => gives_pure fun h => h.opens ?_ _)
    fun _ => ?_
  · exact zero_le _
  refine gives_ite (fun _ => gives_blocktypeArity.bind fun _ _ => gives_pure fun h => h.opens ?_ _)
    fun _ => ?_
  · exact zero_le _
  refine gives_ite (fun _ => gives_blocktypeArity.bind fun _ _ => gives_pure fun h => h.opens ?_ _)
    fun _ => ?_
  · exact ⟨zero_le _, zero_le _⟩
  refine gives_ite (fun _ => decodeElse_within d) fun _ => ?_
  refine gives_ite (fun _ => gives_pure decodeEnd_within) fun _ => ?_
  exact (decodePlain_within op).bind fun instr hinstr =>
    gives_pure fun h => .push h (hinstr _)

lemma decodeLoop_within : ∀ (fuel : ℕ) {d : Decoding}, d.Within →
    Gives Decoding.Within (decodeLoop budget fuel d)
  | 0, _, h => gives_pure h
  | fuel + 1, d, h => by
    refine gives_done.bind fun done _ => gives_ite (fun _ => gives_pure h) fun _ => ?_
    refine gives_byte.bind fun op _ => (decodeOp_within op.toNat d).bind fun d hd => ?_
    refine gives_ite (fun _ => gives_pure (hd h)) fun _ => gives_guard fun _ => ?_
    exact decodeLoop_within fuel (hd h)

/-- What is known of a decoded body. -/
structure Body (budget : ℕ) (r : List ValType × List Instr) : Prop where
  within : WithinAll r.2
  size : r.2.length ≤ budget

lemma decodeFunctionBody_within (nparams fuel : ℕ) :
    Gives (Body budget) (decodeFunctionBody nparams budget fuel) := by
  refine gives_count.bind fun declarations _ => gives_guard fun _ => ?_
  refine .bind (P := any) (gives_times (fun locals _ => ?_) _ trivial) fun locals _ => ?_
  · refine gives_count.bind fun count _ => gives_byte.bind fun b _ => (gives_valType b).bind fun _ _ => ?_
    exact gives_guard fun _ => gives_pure trivial
  have hempty : Decoding.Within ⟨[], [], false⟩ := by
    intro instr hinstr
    cases hinstr
  refine (decodeLoop_within fuel hempty).bind fun d hd => ?_
  refine gives_guard fun hsize => gives_guard fun _ => ?_
  refine gives_done.bind fun _ _ => gives_ite (fun _ => ?_) fun _ => gives_fail _
  exact gives_pure ⟨hd, Nat.le_of_not_lt hsize⟩

lemma decodeFunction_within {body : List UInt8} {nparams : ℕ} {r : List ValType × List Instr}
    (h : decodeFunction body nparams budget = .ok r) : Body budget r := by
  obtain ⟨_, hbody, h⟩ := bind_inv h
  cases h
  exact (decodeFunctionBody_within nparams body.length body _ _ hbody).1

lemma decodeFunctions_bodies : ∀ {bodies : List (List UInt8 × UInt32)} {decoded : ℕ}
    {funcs : List Func}, decodeFunctions m bodies decoded = .ok funcs →
    ∀ f ∈ funcs, Body MAX_DECODED_INSTRUCTIONS (f.locals, f.body)
  | [], _, _, h, f, hf => by
    cases h
    cases hf
  | (body, typeIdx) :: rest, decoded, funcs, h, f, hf => by
    unfold decodeFunctions at h
    cases hft : m.types[typeIdx.toNat]? with
    | none =>
      rw [hft] at h
      cases h
    | some ft =>
      rw [hft] at h
      dsimp only at h
      split at h
      · cases h
      obtain ⟨r, hr, h⟩ := bind_inv h
      have hbody := decodeFunction_within hr
      split at h
      · cases h
      obtain ⟨others, hrest, h⟩ := bind_inv h
      cases h
      rcases mem_cons.mp hf with rfl | hf
      · exact ⟨hbody.within, le_trans hbody.size (sub_le _ _)⟩
      · exact decodeFunctions_bodies hrest f hf

lemma forM_ok {α : Type} {f : α → Except String Unit} : ∀ {xs : List α}, xs.forM f = .ok () →
    ∀ a ∈ xs, f a = .ok ()
  | [], _, a, ha => by cases ha
  | b :: xs, h, a, ha => by
    obtain ⟨_, hb, h⟩ := bind_inv h
    rcases mem_cons.mp ha with rfl | ha
    · exact hb
    · exact forM_ok h a ha

lemma validateInstr_setsMutable {locals : ℕ} (h : validateInstr m locals instr = .ok ()) :
    instr.SetsMutable m := by
  cases instr with
  | globalSet i =>
    dsimp only [validateInstr] at h
    cases hglobal : m.globals[i.toNat]? with
    | none =>
      rw [hglobal] at h
      cases h
    | some g =>
      obtain ⟨t, mutable, v⟩ := g
      rw [hglobal] at h
      dsimp only at h
      split at h
      · next hmutable => exact ⟨t, v, by rw [hglobal, hmutable]⟩
      · cases h
  | _ => trivial

lemma validateFunc_setsMutable {f : Func} (h : validateFunc m f = .ok ()) :
    ∀ instr ∈ f.body, instr.SetsMutable m := by
  intro instr hinstr
  unfold validateFunc at h
  cases hft : m.types[f.typeIdx.toNat]? with
  | none =>
    rw [hft] at h
    cases h
  | some ft =>
    rw [hft] at h
    exact validateInstr_setsMutable (forM_ok h instr hinstr)

lemma validateSemantics_funcs (h : validateSemantics m = .ok ()) :
    ∀ f ∈ m.funcs, validateFunc m f = .ok () := by
  unfold validateSemantics at h
  split at h
  · obtain ⟨_, -, h⟩ := bind_inv h
    split at h
    · exact forM_ok h
    · cases h
  · cases h

/-- What is read next is in order if all before it is. -/
theorem readSection_begun (p : Parsing) :
    Gives (fun p' => p.m.Begun → p'.m.Begun) (readSection p) := by
  refine gives_byte.bind fun id _ => gives_count.bind fun size _ => ?_
  refine (gives_bytes size).bind fun payload _ => gives_ite (fun _ => gives_pure fun hp => hp)
    fun _ => ?_
  refine gives_guard fun _ => gives_guard fun _ => ?_
  cases hread : parseSection id p payload with
  | error e => exact gives_fail _
  | ok r =>
    obtain ⟨p', rest⟩ := r
    refine gives_ite (fun _ => gives_pure fun hp => ?_) fun _ => gives_fail _
    have hp' := (parseSection_begun id hp payload p' rest hread).1
    exact ⟨hp'.limits, hp'.globals⟩

lemma readSections_begun : ∀ (fuel : ℕ) {p : Parsing}, p.m.Begun →
    Gives (fun p => p.m.Begun) (readSections fuel p)
  | 0, _, hp => gives_pure hp
  | fuel + 1, p, hp => by
    refine gives_done.bind fun _ _ => gives_ite (fun _ => gives_pure hp) fun _ => ?_
    exact (readSection_begun p).bind fun p' hp' => readSections_begun fuel (hp' hp)

lemma parseSections_begun (fuel : ℕ) : Gives (fun p => p.m.Begun) (parseSections fuel) := by
  refine (gives_bytes 4).bind fun _ _ => gives_guard fun _ => ?_
  refine (gives_bytes 4).bind fun _ _ => gives_guard fun _ => ?_
  exact readSections_begun fuel Module.begun_empty

/-- A module that is parsed is checked. -/
theorem parse_checked {bytes : List UInt8} (h : parse bytes = .ok m) : m.Checked := by
  unfold parse at h
  split at h
  · cases h
  obtain ⟨⟨p, rest⟩, hsections, h⟩ := bind_inv h
  have hp := (parseSections_begun bytes.length bytes p rest hsections).1
  change (if _ then _ else _) = _ at h
  split at h
  · cases h
  obtain ⟨funcs, hfuncs, h⟩ := bind_inv h
  obtain ⟨_, hvalid, h⟩ := bind_inv h
  cases h
  refine ⟨hp.limits, hp.globals, fun f hf => ?_⟩
  have hbody := decodeFunctions_bodies hfuncs f hf
  have hsets := validateFunc_setsMutable (validateSemantics_funcs hvalid f hf)
  exact ⟨hbody.within, hsets, hbody.size⟩

/-- As many turns as there are bytes are all the turns that there are. -/
theorem decodeLoop_enough : ∀ (fuel : ℕ) (d : Decoding) (b : List UInt8), b.length ≤ fuel →
    decodeLoop budget (fuel + 1) d b = decodeLoop budget fuel d b := by
  intro fuel
  induction fuel with
  | zero =>
    intro d b hb
    obtain rfl := length_eq_zero_iff.mp (le_zero.mp hb)
    rfl
  | succ fuel ih =>
    intro d b hb
    cases b with
    | nil => rfl
    | cons op rest =>
      change (decodeOp op.toNat d rest >>= fun r => _) = (decodeOp op.toNat d rest >>= fun r => _)
      cases hop : decodeOp op.toNat d rest with
      | error e => rfl
      | ok r =>
        obtain ⟨d', left⟩ := r
        have hleft := (decodeOp_within op.toNat d rest d' left hop).2
        have hlength : left.length ≤ fuel := le_trans hleft (le_of_succ_le_succ hb)
        change (if d'.ended then pure d' else if d'.instrs.length > budget then
            fail "WASM 디코딩 명령 수가 허용 한도를 넘었습니다"
            else decodeLoop budget (fuel + 1) d' : Reader Decoding) left =
          (if d'.ended then pure d' else if d'.instrs.length > budget then
            fail "WASM 디코딩 명령 수가 허용 한도를 넘었습니다"
            else decodeLoop budget fuel d' : Reader Decoding) left
        split
        · rfl
        · split
          · rfl
          · exact ih d' left hlength

lemma readSection_takes {p p' : Parsing} {x : UInt8} {b left : List UInt8}
    (h : readSection p (x :: b) = .ok (p', left)) : left.length ≤ b.length := by
  have hrest : Gives any (fun b => readSection p (x :: b)) := by
    refine gives_count.bind fun size _ => (gives_bytes size).bind fun payload _ => ?_
    refine gives_ite (fun _ => gives_pure trivial) fun _ => gives_guard fun _ => ?_
    refine gives_guard fun _ => ?_
    cases parseSection x p payload with
    | error e => exact gives_fail _
    | ok r => exact gives_ite (fun _ => gives_pure trivial) fun _ => gives_fail _
  exact (hrest b p' left h).2

lemma readSections_enough : ∀ (fuel : ℕ) (p : Parsing) (b : List UInt8), b.length ≤ fuel →
    readSections (fuel + 1) p b = readSections fuel p b := by
  intro fuel
  induction fuel with
  | zero =>
    intro p b hb
    obtain rfl := length_eq_zero_iff.mp (le_zero.mp hb)
    rfl
  | succ fuel ih =>
    intro p b hb
    cases b with
    | nil => rfl
    | cons x rest =>
      change (readSection p (x :: rest) >>= fun r => _) = (readSection p (x :: rest) >>= fun r => _)
      cases hread : readSection p (x :: rest) with
      | error e => rfl
      | ok r =>
        obtain ⟨p', left⟩ := r
        exact ih p' left (le_trans (readSection_takes hread) (le_of_succ_le_succ hb))

/-- Every turn of the two loops of `Module::parse` reads a byte, so they end on every input: turns beyond
the number of bytes change nothing. -/
theorem parsing_ends : (∀ d b n, decodeLoop budget (b.length + n) d b = decodeLoop budget b.length d b) ∧
    ∀ p b n, readSections (b.length + n) p b = readSections b.length p b := by
  refine ⟨fun d b n => ?_, fun p b n => ?_⟩
  · induction n with
    | zero => rfl
    | succ n ih => exact (decodeLoop_enough _ d b (Nat.le_add_right ..)).trans ih
  · induction n with
    | zero => rfl
    | succ n ih => exact (readSections_enough _ p b (Nat.le_add_right ..)).trans ih

end OnetDns.Wasm
