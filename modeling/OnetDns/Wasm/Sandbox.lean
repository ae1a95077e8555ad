import OnetDns.Wasm.Decoded
import OnetDns.Wasm.Runs

/-!
# The sandbox

What can be done with an instance from outside, and what is so after anything that is done: it has
ended, nothing has panicked, and the invariant holds.
-/
namespace OnetDns.Wasm
open Guarded List

variable {m : Module} {inst inst' : Instance} {M fuel : ℕ}

inductive Op where
  | callExport (name : String) (args : List Value)
  | writeMem (addr : ℕ) (data : List UInt8)
  | readMem (addr len : ℕ)

inductive Reply where
  | values (values : List Value)
  | written
  | bytes (bytes : List UInt8)

def Op.run (m : Module) (inst : Instance) : Op → Option (Exec Reply × Instance)
  | .callExport name args =>
    (Wasm.callExport m name args inst).map fun r => (r.1.map Reply.values, r.2)
  | .writeMem addr data =>
    match Wasm.writeMem addr data inst with
    | .error e => some (.error e, inst)
    | .ok inst => some (.ok .written, inst)
  | .readMem addr len => some ((Wasm.readMem addr len inst).map Reply.bytes, inst)

/-- Operations one after the other, and what there is after each. -/
def session (m : Module) : List Op → Instance → Option (List (Exec Reply × Instance))
  | [], _ => some []
  | op :: ops, inst => do
    let r ← op.run m inst
    let rs ← session m ops r.2
    pure (r :: rs)

lemma writeMem_safe (h : inst.Safe m fuel M) (addr : ℕ) (data : List UInt8) :
    Safe (fun inst' => inst'.Safe m fuel M ∧ inst.Goes inst') (writeMem addr data inst) := by
  refine (checkedAdd_safe _ _ _).bind ?_
  rintro stop rfl
  refine meets_ite (fun _ => safe_trap _) fun hstop => ?_
  refine (copyAt_safe (Nat.le_of_not_lt hstop)).bind fun memory hlength => meets_pure ?_
  refine ⟨⟨?_, h.limit, h.globals, h.paid, h.visits, ?_, h.grown⟩, ?_, le_refl _, rfl, suffix_rfl⟩
  · rw [hlength]
    exact h.memory
  · rw [hlength]
    exact h.above
  · exact le_of_eq hlength.symm

lemma readMem_safe (inst : Instance) (addr len : ℕ) : Safe any (readMem addr len inst) :=
  (checkedAdd_safe _ _ _).bind fun _ _ => meets_ite (fun _ => safe_pure) fun _ => safe_trap _

lemma callExport_ends (hm : m.Checked) (h : inst.Safe m fuel M) (name : String)
    (args : List Value) : Outcome.Ends m fuel M inst (callExport m name args inst) := by
  unfold callExport
  cases exportFunc m name with
  | none => exact Outcome.ends_some ⟨safe_trap _, h, .refl inst⟩
  | some idx => exact invokeTop_ends hm h idx args

/-- What an operation ends with: no panic, and an instance in order, in no call. -/
structure Replied (m : Module) (fuel M : ℕ) (inst : Instance) (r : Exec Reply × Instance) : Prop where
  result : Safe any r.1
  safe : r.2.Safe m fuel M
  goes : inst.Goes r.2

lemma Op.run_replied (hm : m.Checked) (h : inst.Safe m fuel M) (op : Op) :
    ∃ r, op.run m inst = some r ∧ Replied m fuel M inst r := by
  cases op with
  | callExport name args =>
    obtain ⟨r, hr, hends⟩ := callExport_ends hm h name args
    refine ⟨(r.1.map .values, r.2), ?_, hends.result.map fun _ _ => trivial, hends.safe, hends.goes⟩
    rw [run, hr]
    rfl
  | writeMem addr data =>
    have hwrite := writeMem_safe h addr data
    rw [run]
    cases hw : Wasm.writeMem addr data inst with
    | error e => exact ⟨_, rfl, meets_error (hwrite.errors e hw), h, .refl inst⟩
    | ok inst' =>
      obtain ⟨hsafe, hgoes⟩ := hwrite.values inst' hw
      exact ⟨_, rfl, meets_ok trivial, hsafe, hgoes⟩
  | readMem addr len =>
    exact ⟨_, rfl, (readMem_safe inst addr len).map fun _ _ => trivial, h, .refl inst⟩

lemma session_replied (hm : m.Checked) : ∀ (ops : List Op) {inst : Instance},
    inst.Safe m fuel M → ∃ rs, session m ops inst = some rs ∧ ∀ r ∈ rs, Replied m fuel M inst r
  | [], _, _ => ⟨[], rfl, fun _ hr => absurd hr not_mem_nil⟩
  | op :: ops, inst, h => by
    obtain ⟨r, hr, hreplied⟩ := op.run_replied hm h
    obtain ⟨rs, hrs, hall⟩ := session_replied hm ops hreplied.safe
    refine ⟨r :: rs, ?_, fun r' hr' => ?_⟩
    · rw [session, hr, Option.bind_eq_bind, Option.bind_some, hrs]
      rfl
    · rcases mem_cons.mp hr' with rfl | hr'
      · exact hreplied
      · have hrest := hall r' hr'
        exact ⟨hrest.result, hrest.safe, hreplied.goes.trans hrest.goes⟩

/-- The memory after one operation is no larger than after any later one. -/
theorem session_grows (hm : m.Checked) : ∀ (ops : List Op) {inst : Instance}
    {rs : List (Exec Reply × Instance)}, inst.Safe m fuel M → session m ops inst = some rs →
      (rs.map fun r => r.2.memory.length).Pairwise (· ≤ ·)
  | [], _, rs, _, hrs => by
    cases hrs
    exact Pairwise.nil
  | op :: ops, inst, rs, h, hrs => by
    obtain ⟨r, hr, hreplied⟩ := op.run_replied hm h
    obtain ⟨rest, hrest, hall⟩ := session_replied hm ops hreplied.safe
    rw [session, hr, Option.bind_eq_bind, Option.bind_some, hrest] at hrs
    cases hrs
    rw [map_cons, pairwise_cons]
    refine ⟨fun size hsize => ?_, session_grows hm ops hreplied.safe hrest⟩
    obtain ⟨r', hr', rfl⟩ := mem_map.mp hsize
    exact (hall r' hr').goes.memory

lemma loadDatum_safe {n : ℕ} {memory : List UInt8} (h : memory.length = n)
    (datum : UInt32 × List UInt8) :
    Safe (fun memory' => memory'.length = n) (loadDatum memory datum) := by
  refine meets_ite (fun _ => safe_trap _) fun hfits => ?_
  have hle : datum.1.toNat + datum.2.length ≤ memory.length := by
    rw [not_or] at hfits
    exact Nat.le_of_not_lt hfits.2
  exact (copyAt_safe hle).mono fun memory' hlength => hlength.trans h

/-- What is prepared is in order, and no instruction has been executed. -/
theorem prepare_safe (hm : m.Checked) (fuel M : UInt64) (state : InstanceState) :
    Safe (fun inst => inst.Safe m fuel.toNat M.toNat ∧ inst.callDepth = 0)
      (prepare m fuel M state) := by
  refine meets_ite (fun _ => safe_trap _) fun _ => meets_ite (fun _ => safe_trap _) fun hlimit => ?_
  have hlength : (resize (clear state.memory) (m.memMin.toNat * PAGE)).length =
      m.memMin.toNat * PAGE := length_resize (Nat.zero_le _)
  refine (meets_foldlM (fun memory datum h => loadDatum_safe h datum) m.data hlength).bind
    fun memory hmemory => meets_pure ⟨⟨?_, rfl, ?_, ?_, ?_, ?_, Pairwise.nil⟩, rfl⟩
  · rw [hmemory]
    refine ⟨dvd_mul_left _ _, le_refl _, Nat.le_of_not_lt hlimit, fun most hmost => ?_⟩
    exact Nat.mul_le_mul_right _ (UInt32.le_iff_toNat_le.mp (hm.limits most hmost))
  · have hcleared : clear state.globals = [] := take_zero
    rw [hcleared, nil_append, GlobalsFit, forall₂_map_right_iff, forall₂_same]
    exact fun g hg => ⟨hm.globals g hg, fun _ => rfl⟩
  · exact zero_add _
  · exact fun v hv => absurd hv not_mem_nil
  · exact fun v hv => absurd hv not_mem_nil

/-- What a new instance is: in order and in no call, unless a trap has stopped its start. -/
def Begins (m : Module) (fuel M : ℕ) (r : Exec Instance) : Prop :=
  Safe (fun inst => inst.Safe m fuel M ∧ inst.callDepth = 0) r

lemma instantiateWith_begins (hm : m.Checked) (fuel M : UInt64) (state : InstanceState) :
    ∃ r, instantiateWith m fuel M state = some r ∧ Begins m fuel.toNat M.toNat r := by
  have hsafe := prepare_safe hm fuel M state
  unfold instantiateWith
  cases hprepare : prepare m fuel M state with
  | error e => exact ⟨_, rfl, meets_error (hsafe.errors e hprepare)⟩
  | ok inst =>
    have hinst := hsafe.values inst hprepare
    cases m.start with
    | none => exact ⟨_, rfl, meets_ok hinst⟩
    | some start =>
      obtain ⟨⟨values, inst'⟩, hr, hends⟩ := invokeTop_ends hm hinst.1 start.toNat []
      dsimp only
      rw [hr]
      cases values with
      | error e => exact ⟨_, rfl, meets_error (hends.result.errors e rfl)⟩
      | ok values => exact ⟨_, rfl, meets_ok ⟨hends.safe, hends.goes.callDepth.trans hinst.2⟩⟩

/-- What is so of an instance whenever it is in no call. -/
structure Contained (m : Module) (fuel M : ℕ) (inst : Instance) : Prop where
  safe : inst.Safe m fuel M
  callDepth : inst.callDepth = 0
  executed : inst.visits.length ≤ fuel

lemma Instance.Safe.contained (h : inst.Safe m fuel M) (hdepth : inst.callDepth = 0) :
    Contained m fuel M inst :=
  ⟨h, hdepth, by have := h.paid; omega⟩

lemma not_panic {α : Type} {P : α → Prop} {r : Exec α} (h : Safe P r) : r ≠ .error .panic :=
  fun hpanic => h.errors _ hpanic rfl

/-- A module that is parsed can be run. Its start function ends, and so does every operation,
without a panic; the instance is in order after each, and nothing depends on the state that was
used before. -/
theorem parsed_module_contained {bytes : List UInt8} (h : parse bytes = .ok m) (fuel M : UInt64)
    (state : InstanceState) :
    instantiateWith m fuel M state = instantiateWith m fuel M .default ∧
    (∀ inst, prepare m fuel M state = .ok inst → ∀ idx args, ∃ r inst',
      invokeTop m idx args inst = some (r, inst') ∧ r ≠ .error .panic ∧
        Contained m fuel.toNat M.toNat inst') ∧
    ∃ r, instantiateWith m fuel M state = some r ∧ r ≠ .error .panic ∧
      ∀ inst, r = .ok inst → Contained m fuel.toNat M.toNat inst ∧
        ∀ ops, ∃ rs, session m ops inst = some rs ∧
          (rs.map fun r => r.2.memory.length).Pairwise (· ≤ ·) ∧
          ∀ r ∈ rs, r.1 ≠ .error .panic ∧ Contained m fuel.toNat M.toNat r.2 ∧
            inst.memory.length ≤ r.2.memory.length := by
  have hm : m.Checked := parse_checked h
  refine ⟨rfl, fun inst hinst idx args => ?_, ?_⟩
  · obtain ⟨hsafe, hdepth⟩ := (prepare_safe hm fuel M state).values inst hinst
    obtain ⟨⟨r, inst'⟩, hr, hends⟩ := invokeTop_ends hm hsafe idx args
    exact ⟨r, inst', hr, not_panic hends.result,
      hends.safe.contained (hends.goes.callDepth.trans hdepth)⟩
  obtain ⟨r, hr, hbegins⟩ := instantiateWith_begins hm fuel M state
  refine ⟨r, hr, not_panic hbegins, fun inst hinst => ?_⟩
  obtain ⟨hsafe, hdepth⟩ := hbegins.values inst hinst
  refine ⟨hsafe.contained hdepth, fun ops => ?_⟩
  obtain ⟨rs, hrs, hall⟩ := session_replied hm ops hsafe
  refine ⟨rs, hrs, session_grows hm ops hsafe hrs, fun r hr => ?_⟩
  have hreplied := hall r hr
  exact ⟨not_panic hreplied.result,
    hreplied.safe.contained (hreplied.goes.callDepth.trans hdepth), hreplied.goes.memory⟩

/-- A module with one page, a global that may not be changed, and a function `f` that calls itself:
the sum of the numbers up to its argument. -/
def sumModule : List UInt8 :=
  [0, 0x61, 0x73, 0x6d, 1, 0, 0, 0, 1, 6, 1, 0x60, 1, 0x7f, 1, 0x7f, 3, 2, 1, 0, 5, 3, 1, 0, 1,
    6, 6, 1, 0x7f, 0, 0x41, 7, 0x0b, 7, 5, 1, 1, 0x66, 0, 0, 10, 22, 1, 20, 0, 0x20, 0, 0x04, 0x7f,
    0x20, 0, 0x41, 1, 0x6b, 0x10, 0, 0x20, 0, 0x6a, 0x05, 0x41, 0, 0x0b, 0x0b]

def parsedSum : Module := {
  types := [⟨[.i32], [.i32]⟩]
  funcs := [⟨0, [], [.localGet 0, .ifElse 1 8 10, .localGet 0, .i32Const 1, .num 0x6b, .call 0,
    .localGet 0, .num 0x6a, .orElse 10, .i32Const 0, .stop, .stop]⟩]
  funcTypes := [0]
  exports := [("f", .func, 0)]
  memMin := 1
  memMax := none
  memoryDefined := true
  globals := [(.i32, false, .i32 7)]
  start := none
  table := []
  tableDefined := false
  data := [] }

theorem parsed_module_contained_sum :
    instantiateWith parsedSum 1000 65536 ⟨[], [.i32 9]⟩ =
        instantiateWith parsedSum 1000 65536 .default ∧
      ∃ r, instantiateWith parsedSum 1000 65536 ⟨[], [.i32 9]⟩ = some r ∧ r ≠ .error .panic :=
  have h := parsed_module_contained (show parse sumModule = .ok parsedSum by rfl) 1000 65536
    ⟨[], [.i32 9]⟩
  ⟨h.1, h.2.2.imp fun _ hr => ⟨hr.1, hr.2.1⟩⟩

end OnetDns.Wasm
