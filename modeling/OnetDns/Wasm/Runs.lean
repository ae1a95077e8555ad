import OnetDns.Wasm.Invariant

/-!
# What is safe to call

Every call ends, with so many instructions at most as there is fuel, and what it ends with is a
result or a trap.
-/
namespace OnetDns.Wasm
open Guarded List

variable {m : Module} {M fuel n : ℕ} {f : Func} {inst inst' : Instance} {x y : Activation}

/-- An instruction is paid for once, and seen. -/
structure Activation.Charged (m : Module) (fuel M : ℕ) (f : Func) (x y : Activation) : Prop where
  safe : y.Safe m fuel M f
  goes : x.inst.Goes y.inst
  fuel : y.inst.fuel + 1 = x.inst.fuel
  pc : y.pc = x.pc

lemma Activation.Safe.visit (hx : x.Safe m fuel M f) : x.visit.Safe m M :=
  ⟨hx.inst.memory, hx.inst.globals, hx.locals, hx.depth⟩

lemma Activation.charge_safe (hx : x.Safe m fuel M f) (hfuel : x.inst.fuel ≠ 0) :
    Wasm.Safe (x.Charged m fuel M f) x.charge := by
  refine (sub_safe (by omega)).bind ?_
  rintro left rfl
  refine meets_pure ⟨⟨⟨hx.inst.memory, hx.inst.limit, hx.inst.globals, ?_, ?_, ?_, ?_⟩, hx.locals,
    hx.depth, hx.labels⟩, ⟨le_refl _, Nat.sub_le _ _, rfl, suffix_cons _ _⟩, ?_, rfl⟩
  · have hpaid := hx.inst.paid
    simp only [length_cons]
    omega
  · intro v hv
    rcases mem_cons.mp hv with rfl | hv
    · exact hx.visit
    · exact hx.inst.visits v hv
  · intro v hv
    rcases mem_cons.mp hv with rfl | hv
    · exact le_refl _
    · exact hx.inst.above v hv
  · rw [map_cons, pairwise_cons]
    refine ⟨fun size hsize => ?_, hx.inst.grown⟩
    obtain ⟨v, hv, rfl⟩ := mem_map.mp hsize
    exact hx.inst.above v hv
  · exact Nat.sub_add_cancel (by omega)

/-- It ends, with a result or a trap, and the invariant is kept. -/
structure Ends (m : Module) (fuel M : ℕ) (inst : Instance) (r : Exec (List Value) × Instance) :
    Prop where
  result : Safe any r.1
  safe : r.2.Safe m fuel M
  goes : inst.Goes r.2

def Outcome.Ends (m : Module) (fuel M : ℕ) (inst : Instance) (r : Outcome) : Prop :=
  ∃ end', r = some end' ∧ Wasm.Ends m fuel M inst end'

open Outcome

lemma Outcome.ends_some {r : Exec (List Value) × Instance} (h : Wasm.Ends m fuel M inst r) :
    Outcome.Ends m fuel M inst (some r) := ⟨r, rfl, h⟩

lemma Outcome.Ends.trans {r : Outcome} (hgoes : inst.Goes inst') (h : Outcome.Ends m fuel M inst' r) :
    Outcome.Ends m fuel M inst r := by
  obtain ⟨end', rfl, hend⟩ := h
  exact ⟨end', rfl, hend.result, hend.safe, hgoes.trans hend.goes⟩

lemma valueType_defaultVal (t : ValType) : (defaultVal t).valueType = t := by
  cases t <;> rfl

/-- What a function is called with. -/
structure Entered (m : Module) (idx : ℕ) (args : List Value) (f : Func) : Prop where
  func : m.funcs[idx]? = some f
  types : ∃ ft, m.types[f.typeIdx.toNat]? = some ft ∧ args.map (·.valueType) = ft.params

lemma enter_safe (m : Module) (idx : ℕ) (args : List Value) :
    Safe (fun r => Entered m idx args r.1) (enter m idx args) := by
  refine (m.ftype_safe idx).bind ?_
  rintro ft ⟨f, hf, hft⟩
  refine meets_ite (fun _ => safe_trap _) fun _ => meets_ite (fun _ => safe_trap _) fun htypes => ?_
  refine (m.func_safe idx).bind fun f' hf' => meets_pure ⟨hf', ft, ?_, not_not.mp htypes⟩
  obtain rfl := Option.some.inj (hf.symm.trans hf')
  exact hft

lemma Entered.locals {idx : ℕ} {args : List Value} (h : Entered m idx args f) :
    LocalsFit m idx (args ++ f.locals.map defaultVal) := by
  obtain ⟨ft, hft, hargs⟩ := h.types
  refine ⟨f, ft, h.func, hft, ?_⟩
  rw [map_append, map_map]
  congr 1
  exact (map_congr_left fun t _ => valueType_defaultVal t).trans (map_id _)

lemma start_safe (h : inst.Safe m fuel M) (hdepth : inst.callDepth < MAX_CALL_DEPTH) {idx : ℕ}
    {args : List Value} (hentered : Entered m idx args f) (rt : Option ValType) :
    (start inst idx f rt args).Safe m fuel M f := by
  refine ⟨{ h with }, hentered.locals, ⟨Nat.le_add_left _ _, hdepth⟩, fun l hl => ?_⟩
  obtain rfl := mem_singleton.mp hl
  exact le_refl _

/-- The depth of the calls is again what it was. -/
theorem leaveCall_ends {r : Exec (List Value) × Instance}
    (h : Ends m fuel M { inst with callDepth := inst.callDepth + 1 } r) :
    Ends m fuel M inst (leaveCall r.1 r.2) := by
  have hdepth : r.2.callDepth = inst.callDepth + 1 := h.goes.callDepth
  have hsub : sub r.2.callDepth 1 = .ok inst.callDepth := by
    rw [hdepth]
    rfl
  have hs := h.safe
  rw [leaveCall, hsub]
  exact ⟨h.result, { hs with }, h.goes.memory, h.goes.fuel, rfl, h.goes.visits⟩

/-- What is said of the runs of a function's body. -/
def RunsEnd (m : Module) (fuel M n : ℕ) : Prop :=
  ∀ {f : Func} {rt : Option ValType} {x : Activation}, f.Checked m → x.Safe m fuel M f →
    x.inst.fuel < n → Outcome.Ends m fuel M x.inst (run m n f.body rt x)

lemma invoke_ends (hm : m.Checked) (hrun : RunsEnd m fuel M n) (h : inst.Safe m fuel M)
    (hfuel : inst.fuel < n) (idx : ℕ) (args : List Value) :
    Outcome.Ends m fuel M inst (invoke m (run m n) idx args inst) := by
  unfold invoke
  split
  · exact ends_some ⟨safe_trap _, h, .refl inst⟩
  next hdepth =>
  have hsafe := enter_safe m idx args
  cases henter : enter m idx args with
  | error e => exact ends_some ⟨meets_error (hsafe.errors e henter), h, .refl inst⟩
  | ok entered =>
    obtain ⟨f, rt⟩ := entered
    have hentered : Entered m idx args f := hsafe.values _ henter
    have hf : f.Checked m := hm.funcs f (mem_of_getElem? hentered.func)
    have hstart := start_safe h (Nat.lt_of_not_le hdepth) hentered rt
    obtain ⟨r, hr, hends⟩ := @hrun f rt _ hf hstart hfuel
    exact ⟨_, congrArg (Option.map _) hr, leaveCall_ends hends⟩

/-- Every turn costs fuel, in every call. -/
theorem run_ends (hm : m.Checked) : ∀ n, RunsEnd m fuel M n := by
  intro n
  induction n with
  | zero =>
    intro f rt x _ _ hfuel
    exact absurd hfuel (Nat.not_lt_zero _)
  | succ n ih =>
    intro f rt x hf hx hfuel
    have hhere := Instance.Goes.refl x.inst
    unfold run
    cases x.overfull with
    | some error => exact ends_some ⟨safe_trap _, hx.inst, hhere⟩
    | none =>
      cases hinstr : f.body[x.pc]? with
      | none => exact ends_some ⟨finish_safe rt _, hx.inst, hhere⟩
      | some instr =>
        dsimp only
        split
        · exact ends_some ⟨safe_trap _, hx.inst, hhere⟩
        next hne =>
        have hcharge := Activation.charge_safe hx hne
        cases hy : x.charge with
        | error e => exact ends_some ⟨meets_error (hcharge.errors e hy), hx.inst, hhere⟩
        | ok y =>
          have hc := hcharge.values y hy
          have hstep := step_safe hc.safe (hc.pc ▸ hinstr) hf rt
          refine Outcome.Ends.trans hc.goes ?_
          have hleft : y.inst.fuel < n := by
            have := hc.fuel
            omega
          dsimp only
          cases hnext : step m rt y instr with
          | error e =>
            exact ends_some ⟨meets_error (hstep.errors e hnext), hc.safe.inst, .refl _⟩
          | ok next =>
            have hfits := hstep.values next hnext
            have hgoes := hfits.goes
            have hspent := lt_of_le_of_lt hgoes.fuel hleft
            cases next with
            | go z => exact (ih hf hfits.safe hspent).trans hgoes
            | leave z => exact ends_some ⟨finish_safe rt _, hfits.safe.inst, hgoes⟩
            | give z values => exact ends_some ⟨meets_ok trivial, hfits.safe.inst, hgoes⟩
            | call z callee args =>
              have hz : z.Safe m fuel M f := hfits.safe
              have hpc : z.pc = x.pc := hfits.at_call.trans hc.pc
              obtain ⟨⟨values, called⟩, hr, hends⟩ := invoke_ends hm ih hz.inst hspent callee args
              dsimp only
              rw [hr]
              have hback := hgoes.trans hends.goes
              cases values with
              | error e => exact ends_some ⟨hends.result, hends.safe, hback⟩
              | ok values =>
                obtain ⟨hlt, _⟩ := List.getElem?_eq_some_iff.mp hinstr
                have hlimit : MAX_DECODED_INSTRUCTIONS < USIZE := by decide
                have hsize := hf.size
                have hadd : add z.pc 1 = .ok (z.pc + 1) := by
                  rw [add, if_pos (by omega)]
                  rfl
                rw [hadd]
                refine Outcome.Ends.trans hback (ih hf ⟨hends.safe, hz.locals, ?_, hz.labels⟩ ?_)
                · rw [show called.callDepth = z.inst.callDepth from hends.goes.callDepth]
                  exact hz.depth
                · exact lt_of_le_of_lt hends.goes.fuel hspent

lemma invokeTop_ends (hm : m.Checked) (h : inst.Safe m fuel M) (idx : ℕ) (args : List Value) :
    Outcome.Ends m fuel M inst (invokeTop m idx args inst) :=
  invoke_ends hm (run_ends hm _) h (Nat.lt_succ_self _) idx args

end OnetDns.Wasm
