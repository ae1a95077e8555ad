import Mathlib.Data.List.Forall2
import OnetDns.Wasm.Steps

/-!
# What is safe to run

The facts about a module that its parser has checked, the invariant of an instance and of a call
that is going on, and that every instruction keeps it.
-/
namespace OnetDns.Wasm
open Guarded List

variable {m : Module} {M fuel : ℕ} {f : Func} {inst inst' : Instance} {x y : Activation}

/-- The positions in an instruction are not after some position. -/
def Instr.Within (n : ℕ) : Instr → Prop
  | .block _ target => target ≤ n
  | .loop _ target => target ≤ n
  | .ifElse _ other target => other ≤ n ∧ target ≤ n
  | .orElse target => target ≤ n
  | _ => True

def Instr.SetsMutable (m : Module) : Instr → Prop
  | .globalSet i => ∃ t v, m.globals[i.toNat]? = some (t, true, v)
  | _ => True

/-- What the parser has checked of a function. -/
structure Func.Checked (m : Module) (f : Func) : Prop where
  within : ∀ instr ∈ f.body, instr.Within f.body.length
  sets : ∀ instr ∈ f.body, instr.SetsMutable m
  size : f.body.length ≤ MAX_DECODED_INSTRUCTIONS

/-- What the parser has checked of a module. -/
structure Module.Checked (m : Module) : Prop where
  limits : ∀ most, m.memMax = some most → m.memMin ≤ most
  globals : ∀ g ∈ m.globals, g.2.2.valueType = g.1
  funcs : ∀ f ∈ m.funcs, f.Checked m

/-- A size of the memory that the module and the limit allow. -/
structure MemoryFits (m : Module) (M n : ℕ) : Prop where
  pages : PAGE ∣ n
  least : m.memMin.toNat * PAGE ≤ n
  limit : n ≤ M
  most : ∀ most, m.memMax = some most → n ≤ most.toNat * PAGE

/-- Every global has the type that it was declared with, and if it may not be changed, its first
value. -/
def GlobalsFit (m : Module) (globals : List Value) : Prop :=
  List.Forall₂ (fun g v => v.valueType = g.1 ∧ (g.2.1 = false → v = g.2.2)) m.globals globals

/-- The local variables have the types that the function declares. -/
def LocalsFit (m : Module) (idx : ℕ) (locals : List Value) : Prop :=
  ∃ f ft, m.funcs[idx]? = some f ∧ m.types[f.typeIdx.toNat]? = some ft ∧
    locals.map (·.valueType) = ft.params ++ f.locals

structure Visit.Safe (m : Module) (M : ℕ) (v : Visit) : Prop where
  memory : MemoryFits m M v.memory
  globals : GlobalsFit m v.globals
  locals : LocalsFit m v.funcIdx v.locals
  depth : 1 ≤ v.callDepth ∧ v.callDepth ≤ MAX_CALL_DEPTH

/-- The invariant of an instance that was given some fuel and a limit for its memory. -/
structure Instance.Safe (m : Module) (fuel M : ℕ) (inst : Instance) : Prop where
  memory : MemoryFits m M inst.memory.length
  limit : inst.memMaxBytes = M
  globals : GlobalsFit m inst.globals
  paid : inst.visits.length + inst.fuel = fuel
  visits : ∀ v ∈ inst.visits, v.Safe m M
  above : ∀ v ∈ inst.visits, v.memory ≤ inst.memory.length
  grown : (inst.visits.map (·.memory)).Pairwise (· ≥ ·)

/-- The invariant of a call. -/
structure Activation.Safe (m : Module) (fuel M : ℕ) (f : Func) (x : Activation) : Prop where
  inst : x.inst.Safe m fuel M
  locals : LocalsFit m x.funcIdx x.locals
  depth : 1 ≤ x.inst.callDepth ∧ x.inst.callDepth ≤ MAX_CALL_DEPTH
  labels : ∀ l ∈ x.labels, l.target ≤ f.body.length

open Activation

/-- What goes on as an instruction, or a whole call, is executed. -/
structure Instance.Goes (inst inst' : Instance) : Prop where
  memory : inst.memory.length ≤ inst'.memory.length
  fuel : inst'.fuel ≤ inst.fuel
  callDepth : inst'.callDepth = inst.callDepth
  visits : inst.visits <:+ inst'.visits

lemma Instance.Goes.refl (inst : Instance) : inst.Goes inst :=
  ⟨le_refl _, le_refl _, rfl, suffix_rfl⟩

lemma Instance.Goes.trans {inst'' : Instance} (h : inst.Goes inst') (h' : inst'.Goes inst'') :
    inst.Goes inst'' :=
  ⟨le_trans h.memory h'.memory, le_trans h'.fuel h.fuel, h'.callDepth.trans h.callDepth,
    h.visits.trans h'.visits⟩

namespace Activation.Safe

section

variable (h : x.Safe m fuel M f)
include h

lemma setStack (stack : Stack) : (x.setStack stack).Safe m fuel M f := { h with }

lemma setLabels {labels : List Label}
    (hlabels : ∀ l ∈ labels, l.target ≤ f.body.length) : (x.setLabels labels).Safe m fuel M f :=
  { h with labels := hlabels }

lemma enterBlock {target : ℕ} (htarget : target ≤ f.body.length)
    (arity endArity : ℕ) (isLoop : Bool) :
    (x.enterBlock arity endArity target isLoop).Safe m fuel M f := by
  refine h.setLabels fun l hl => ?_
  rcases mem_cons.mp hl with rfl | hl
  · exact htarget
  · exact h.labels l hl

lemma setLocals {locals : List Value}
    (hlocals : locals.map (·.valueType) = x.locals.map (·.valueType)) :
    (x.setLocals locals).Safe m fuel M f := by
  obtain ⟨f', ft, hf, hft, htypes⟩ := h.locals
  exact { h with locals := ⟨f', ft, hf, hft, hlocals.trans htypes⟩ }

lemma setGlobals {globals : List Value} (hglobals : GlobalsFit m globals) :
    (x.setGlobals globals).Safe m fuel M f :=
  { h with inst := { h.inst with globals := hglobals } }

lemma setMemory {memory : List UInt8}
    (hmemory : MemoryFits m M memory.length) (hle : x.inst.memory.length ≤ memory.length) :
    (x.setMemory memory).Safe m fuel M f :=
  { h with inst := { h.inst with
    memory := hmemory, above := fun v hv => le_trans (h.inst.above v hv) hle } }

lemma setPc (pc : ℕ) : ({ x with pc := pc } : Activation).Safe m fuel M f := { h with }

end

end Activation.Safe

/-- The call that an instruction leads to. -/
def Next.activation : Next → Activation
  | .go x => x
  | .leave x => x
  | .give x _ => x
  | .call x _ _ => x

/-- A call is left where it is. -/
def Next.At (pc : ℕ) : Next → Prop
  | .call x _ _ => x.pc = pc
  | _ => True

/-- The invariant is kept, and nothing is taken back. -/
structure Next.Fits (m : Module) (fuel M : ℕ) (f : Func) (x : Activation) (next : Next) : Prop where
  safe : next.activation.Safe m fuel M f
  goes : x.inst.Goes next.activation.inst
  at_call : next.At x.pc

lemma Activation.advance_safe (hy : y.Safe m fuel M f) (hgoes : x.inst.Goes y.inst)
    (hpc : y.pc < f.body.length) (hsize : f.body.length ≤ MAX_DECODED_INSTRUCTIONS) :
    Wasm.Safe (Next.Fits m fuel M f x) y.advance := by
  have hlimit : MAX_DECODED_INSTRUCTIONS < USIZE := by decide
  exact (add_safe (by omega)).bind fun pc _ => meets_pure ⟨hy.setPc pc, hgoes, trivial⟩

lemma Activation.push_safe (hy : y.Safe m fuel M f) (hgoes : x.inst.Goes y.inst)
    (hpc : y.pc < f.body.length) (hsize : f.body.length ≤ MAX_DECODED_INSTRUCTIONS) (v : Value) :
    Wasm.Safe (Next.Fits m fuel M f x) (y.push v) :=
  advance_safe (x := x) (hy.setStack (v :: y.stack)) hgoes hpc hsize

lemma doBranch_safe {n depth : ℕ} {stack : Stack} {labels : List Label}
    (hlabels : ∀ l ∈ labels, l.target ≤ n) (hn : n ≤ MAX_DECODED_INSTRUCTIONS)
    (hdepth : depth < 2 ^ 32) :
    Wasm.Safe (fun r => ∀ l ∈ r.2.2, l ∈ labels) (doBranch depth stack labels) := by
  have hlimit : MAX_DECODED_INSTRUCTIONS + 1 < USIZE := by decide
  have hword : 2 ^ 32 + 1 < USIZE := by decide
  refine (add_safe (by omega)).bind ?_
  rintro needed rfl
  refine meets_ite (fun _ => safe_trap _) fun hlength => ?_
  obtain ⟨label, hlabel⟩ : ∃ label, labels[depth]? = some label :=
    ⟨labels[depth], getElem?_eq_getElem (by omega)⟩
  rw [hlabel]
  refine (checkedAdd_safe _ _ _).bind ?_
  rintro required rfl
  refine meets_ite (fun _ => safe_trap _) fun hstack => ?_
  refine (sub_safe (by omega)).bind fun left _ => ?_
  have htarget := hlabels label (mem_of_getElem? hlabel)
  refine (add_safe (by omega)).bind fun pc _ => meets_pure ?_
  cases label.isLoop
  · exact fun l hl => mem_of_mem_drop hl
  · exact fun l hl => mem_of_mem_drop hl

lemma branch_safe (hy : y.Safe m fuel M f) (hgoes : x.inst.Goes y.inst)
    (hsize : f.body.length ≤ MAX_DECODED_INSTRUCTIONS) (depth : UInt32) :
    Wasm.Safe (Next.Fits m fuel M f x) (branch y depth.toNat) := by
  refine (doBranch_safe hy.labels hsize depth.toNat_lt).bind ?_
  rintro ⟨pc, stack, labels⟩ hlabels
  exact meets_pure ⟨{ hy with labels := fun l hl => hy.labels l (hlabels l hl) }, hgoes, trivial⟩

lemma setSlot_safe (slots : List Value) (i : ℕ) (v : Value) (missing mismatch : String) :
    Wasm.Safe (fun slots' => slots' = slots.set i v ∧
      ∃ slot, slots[i]? = some slot ∧ slot.valueType = v.valueType)
      (setSlot slots i v missing mismatch) := by
  unfold setSlot
  cases hslot : slots[i]? with
  | none => exact safe_trap _
  | some slot =>
    exact meets_ite (fun _ => safe_trap _) fun htype =>
      meets_pure ⟨rfl, slot, rfl, not_not.mp htype⟩

lemma map_set_of_type {slots : List Value} {i : ℕ} {slot v : Value} (hslot : slots[i]? = some slot)
    (htype : slot.valueType = v.valueType) :
    (slots.set i v).map (·.valueType) = slots.map (·.valueType) := by
  refine ext_getElem? fun j => ?_
  rw [getElem?_map, getElem?_map, getElem?_set]
  by_cases hij : i = j
  · subst hij
    obtain ⟨hi, _⟩ := List.getElem?_eq_some_iff.mp hslot
    rw [if_pos rfl, if_pos hi, hslot]
    exact congrArg some htype.symm
  · rw [if_neg hij]

lemma GlobalsFit.set {globals : List Value} (h : GlobalsFit m globals) {i : ℕ} {v slot : Value}
    {t : ValType} {first : Value} (hglobal : m.globals[i]? = some (t, true, first))
    (hslot : globals[i]? = some slot) (htype : slot.valueType = v.valueType) :
    GlobalsFit m (globals.set i v) := by
  rw [GlobalsFit, forall₂_iff_get] at h ⊢
  refine ⟨by rw [length_set]; exact h.1, fun j hj hj' => ?_⟩
  have hj'' : j < globals.length := by rwa [length_set] at hj'
  have hold := h.2 j hj hj''
  simp only [get_eq_getElem, getElem_set] at hold ⊢
  by_cases hij : i = j
  · subst hij
    rw [if_pos rfl]
    obtain ⟨_, hget⟩ := List.getElem?_eq_some_iff.mp hglobal
    obtain ⟨_, hget'⟩ := List.getElem?_eq_some_iff.mp hslot
    rw [hget, hget'] at hold
    rw [hget]
    refine ⟨htype.symm.trans hold.1, fun himmutable => ?_⟩
    cases himmutable
  · rw [if_neg hij]
    exact hold

lemma length_resize {mem : List UInt8} {n : ℕ} (h : mem.length ≤ n) : (resize mem n).length = n := by
  simp only [resize, length_append, length_take, length_replicate]
  omega

lemma grow_fits {mem : List UInt8} (h : MemoryFits m M mem.length) {delta : BitVec 32}
    {pages bytes : ℕ} (hpages : grownPages (mem.length / PAGE) delta = some pages)
    (hbytes : pageBytes pages = some bytes) (hlimit : bytes ≤ M)
    (hmost : ∀ most, m.memMax = some most → pages ≤ most.toNat) :
    MemoryFits m M (resize mem bytes).length ∧ mem.length ≤ (resize mem bytes).length := by
  have hadd : pages = mem.length / PAGE + delta.toNat := by
    unfold grownPages at hpages
    split at hpages
    · cases hpages
    · exact (Option.some.inj hpages).symm
  have hmul : bytes = pages * PAGE := by
    unfold pageBytes at hbytes
    split at hbytes
    · exact (Option.some.inj hbytes).symm
    · cases hbytes
  have hold : mem.length / PAGE * PAGE = mem.length := Nat.div_mul_cancel h.pages
  have hle : mem.length ≤ bytes := by
    rw [hmul, hadd, add_mul, hold]
    exact Nat.le_add_right _ _
  rw [length_resize hle]
  refine ⟨⟨?_, le_trans h.least hle, hlimit, fun most hsome => ?_⟩, hle⟩
  · rw [hmul]
    exact dvd_mul_left _ _
  · rw [hmul]
    exact Nat.mul_le_mul_right _ (hmost most hsome)

lemma Module.func_safe (m : Module) (idx : ℕ) :
    Wasm.Safe (fun f => m.funcs[idx]? = some f) (m.func idx) := by
  unfold func
  cases m.funcs[idx]? with
  | none => exact safe_trap _
  | some f => exact meets_pure rfl

lemma Module.ftype_safe (m : Module) (idx : ℕ) :
    Wasm.Safe (fun ft => ∃ f, m.funcs[idx]? = some f ∧ m.types[f.typeIdx.toNat]? = some ft)
      (m.ftype idx) := by
  refine (m.func_safe idx).bind fun f hf => ?_
  cases hft : m.types[f.typeIdx.toNat]? with
  | none => exact safe_trap _
  | some ft => exact meets_pure ⟨f, hf, hft⟩

lemma Module.tableFunc_safe (m : Module) (typeIdx place : ℕ) :
    Wasm.Safe any (m.tableFunc typeIdx place) := by
  unfold tableFunc
  cases (m.table[place]?).join with
  | none => exact safe_trap _
  | some callee =>
    refine (m.ftype_safe callee.toNat).bind fun cft _ => ?_
    cases m.types[typeIdx]? with
    | none => exact safe_trap _
    | some expected => exact meets_ite (fun _ => safe_trap _) fun _ => safe_pure

lemma returned_safe (resultType : Option ValType) (stack : Stack) :
    Wasm.Safe any (returned resultType stack) := by
  cases resultType with
  | none => exact safe_pure
  | some expected =>
    exact (pop_safe stack).bind fun r _ => meets_ite (fun _ => safe_trap _) fun _ => safe_pure

lemma finish_safe (resultType : Option ValType) (stack : Stack) :
    Wasm.Safe any (finish resultType stack) := by
  refine meets_ite (fun _ => safe_trap _) fun hlength => ?_
  refine (sub_safe (by omega)).bind fun _ _ => ?_
  exact meets_ite (fun _ => safe_trap _) fun _ => safe_pure

/-- What is grown has a size that the module and the limit allow. -/
theorem memGrow_safe (hx : x.Safe m fuel M f) (hpc : x.pc < f.body.length)
    (hsize : f.body.length ≤ MAX_DECODED_INSTRUCTIONS) (rt : Option ValType) :
    Wasm.Safe (Next.Fits m fuel M f x) (step m rt x .memGrow) := by
  refine (popI32_safe x.stack).bind ?_
  rintro ⟨delta, stack⟩ -
  have hy := hx.setStack stack
  refine meets_ite (fun _ => ?_) fun hwithin => ?_
  · exact push_safe hy (.refl x.inst) hpc hsize _
  cases hbytes : (grownPages (x.inst.memory.length / PAGE) delta).bind pageBytes with
  | none => exact absurd (.inl (by rw [hbytes]; rfl)) hwithin
  | some bytes =>
    obtain ⟨pages, hpages, hpage⟩ := Option.bind_eq_some_iff.mp hbytes
    have hfits := grow_fits hx.inst.memory hpages hpage (M := M) ?_ ?_
    · exact push_safe (hy.setMemory hfits.1 hfits.2)
        ⟨hfits.2, le_refl _, rfl, suffix_rfl⟩ hpc hsize _
    · refine Nat.le_of_not_lt fun hlt => hwithin (.inl ?_)
      rw [hbytes]
      exact decide_eq_true (hx.inst.limit ▸ hlt)
    · intro most hmost
      refine Nat.le_of_not_lt fun hlt => hwithin (.inr ?_)
      rw [hpages, hmost]
      exact decide_eq_true hlt

lemma step_safe (hx : x.Safe m fuel M f) {instr : Instr} (hinstr : f.body[x.pc]? = some instr)
    (hf : f.Checked m) (rt : Option ValType) :
    Wasm.Safe (Next.Fits m fuel M f x) (step m rt x instr) := by
  obtain ⟨hpc, hget⟩ := List.getElem?_eq_some_iff.mp hinstr
  have hmem : instr ∈ f.body := mem_of_getElem? hinstr
  have hwithin := hf.within instr hmem
  have hsets := hf.sets instr hmem
  have hsize := hf.size
  have hlimit : MAX_DECODED_INSTRUCTIONS + 1 < USIZE := by decide
  have hgoes := Instance.Goes.refl x.inst
  cases instr with
  | unreachable => exact safe_trap _
  | nop => exact advance_safe hx hgoes hpc hsize
  | block arity target =>
    exact advance_safe (hx.enterBlock hwithin _ _ _) hgoes hpc hsize
  | loop arity target =>
    exact advance_safe (hx.enterBlock (le_of_lt hpc) _ _ _) hgoes hpc hsize
  | ifElse arity other target =>
    refine (popI32_safe x.stack).bind ?_
    rintro ⟨cond, stack⟩ -
    have hy := (hx.setStack stack).enterBlock hwithin.2 arity arity false
    refine meets_ite (fun _ => ?_) fun _ => advance_safe hy hgoes hpc hsize
    have hother : other ≤ f.body.length := hwithin.1
    refine .bind (P := any) (meets_ite (fun _ => safe_pure) fun _ => ?_) fun pc _ =>
      meets_pure ⟨hy.setPc pc, hgoes, trivial⟩
    exact (add_safe (by omega)).mono fun _ _ => trivial
  | orElse target => exact meets_pure ⟨hx.setPc target, hgoes, trivial⟩
  | stop =>
    unfold step
    have hlabels := hx.labels
    cases hl : x.labels with
    | nil => exact safe_trap _
    | cons label labels =>
      rw [hl] at hlabels
      have hy := hx.setLabels fun l hmem => hlabels l (mem_cons_of_mem _ hmem)
      refine (checkedAdd_safe _ _ _).bind fun expected _ => meets_ite (fun _ => safe_trap _) fun _ => ?_
      exact meets_ite (fun _ => meets_pure ⟨hy, hgoes, trivial⟩) fun _ =>
        advance_safe hy hgoes hpc hsize
  | br depth => exact branch_safe hx hgoes hsize depth
  | brIf depth =>
    refine (popI32_safe x.stack).bind ?_
    rintro ⟨cond, stack⟩ -
    have hy := hx.setStack stack
    exact meets_ite (fun _ => branch_safe hy hgoes hsize depth) fun _ =>
      advance_safe hy hgoes hpc hsize
  | brTable targets default =>
    refine (popI32_safe x.stack).bind ?_
    rintro ⟨i, stack⟩ -
    exact branch_safe (hx.setStack stack) hgoes hsize _
  | ret => exact (returned_safe rt x.stack).bind fun values _ => meets_pure ⟨hx, hgoes, trivial⟩
  | call callee =>
    refine (m.ftype_safe callee.toNat).bind fun ft _ => (popArgs_safe _ x.stack).bind ?_
    rintro ⟨args, stack⟩ -
    exact meets_pure ⟨hx.setStack stack, hgoes, rfl⟩
  | callIndirect typeIdx =>
    refine (popI32_safe x.stack).bind ?_
    rintro ⟨place, stack⟩ -
    refine (m.tableFunc_safe _ _).bind ?_
    rintro ⟨callee, ft⟩ -
    refine (popArgs_safe _ stack).bind ?_
    rintro ⟨args, stack⟩ -
    exact meets_pure ⟨hx.setStack stack, hgoes, rfl⟩
  | drop =>
    refine (pop_safe x.stack).bind ?_
    rintro ⟨v, stack⟩ -
    exact advance_safe (hx.setStack stack) hgoes hpc hsize
  | select =>
    refine (popI32_safe x.stack).bind ?_
    rintro ⟨c, stack⟩ -
    refine (pop_safe stack).bind ?_
    rintro ⟨b, stack⟩ -
    refine (pop_safe stack).bind ?_
    rintro ⟨a, stack⟩ -
    exact meets_ite (fun _ => safe_trap _) fun _ =>
      push_safe (hx.setStack stack) hgoes hpc hsize _
  | localGet i =>
    dsimp only [step]
    cases x.locals[i.toNat]? with
    | none => exact safe_trap _
    | some v => exact push_safe hx hgoes hpc hsize v
  | localSet i =>
    refine (pop_safe x.stack).bind ?_
    rintro ⟨v, stack⟩ -
    refine (setSlot_safe _ _ v _ _).bind ?_
    rintro locals ⟨rfl, slot, hslot, htype⟩
    exact advance_safe ((hx.setStack stack).setLocals (map_set_of_type hslot htype)) hgoes hpc hsize
  | localTee i =>
    refine (pop_safe x.stack).bind ?_
    rintro ⟨v, stack⟩ -
    refine (setSlot_safe _ _ v _ _).bind ?_
    rintro locals ⟨rfl, slot, hslot, htype⟩
    exact advance_safe (hx.setLocals (map_set_of_type hslot htype)) hgoes hpc hsize
  | globalGet i =>
    dsimp only [step]
    cases x.inst.globals[i.toNat]? with
    | none => exact safe_trap _
    | some v => exact push_safe hx hgoes hpc hsize v
  | globalSet i =>
    obtain ⟨t, first, hglobal⟩ := hsets
    refine (pop_safe x.stack).bind ?_
    rintro ⟨v, stack⟩ -
    refine (setSlot_safe _ _ v _ _).bind ?_
    rintro globals ⟨rfl, slot, hslot, htype⟩
    have hglobals := hx.inst.globals.set hglobal hslot htype
    exact advance_safe ((hx.setStack stack).setGlobals hglobals)
      ⟨le_refl _, le_refl _, rfl, suffix_rfl⟩ hpc hsize
  | load op offset =>
    refine (popI32_safe x.stack).bind ?_
    rintro ⟨base, stack⟩ -
    refine (checkedAdd_safe _ _ _).bind fun addr _ => (execLoad_safe op _ addr).bind fun v _ => ?_
    exact push_safe (hx.setStack stack) hgoes hpc hsize v
  | store op offset =>
    refine (pop_safe x.stack).bind ?_
    rintro ⟨v, stack⟩ -
    refine (popI32_safe stack).bind ?_
    rintro ⟨base, stack⟩ -
    refine (checkedAdd_safe _ _ _).bind fun addr _ => (execStore_safe op _ addr v).bind fun memory hlength => ?_
    refine advance_safe ((hx.setStack stack).setMemory ?_ (le_of_eq hlength.symm))
      ⟨le_of_eq hlength.symm, le_refl _, rfl, suffix_rfl⟩ hpc hsize
    rw [hlength]
    exact hx.inst.memory
  | memSize => exact push_safe hx hgoes hpc hsize _
  | memGrow => exact memGrow_safe hx hpc hsize rt
  | i32Const v => exact push_safe hx hgoes hpc hsize _
  | i64Const v => exact push_safe hx hgoes hpc hsize _
  | f32Const v => exact push_safe hx hgoes hpc hsize _
  | f64Const v => exact push_safe hx hgoes hpc hsize _
  | num op =>
    refine (execNum_safe op x.stack).bind fun stack _ => ?_
    exact advance_safe (hx.setStack stack) hgoes hpc hsize

end OnetDns.Wasm
