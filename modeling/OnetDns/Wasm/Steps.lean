import OnetDns.Lib.Guarded
import OnetDns.Wasm.Instance

/-!
# What one instruction does

No instruction panics, whatever is on the stacks, and none changes the type of a slot, sets a global
that may not be changed, shrinks the memory or lets it grow over its limits.
-/
namespace OnetDns.Wasm
open Guarded

variable {α : Type} {m : Module} {w n : ℕ} {P Q : α → Prop} {r : Exec α}

def Stop.isTrap (e : Stop) : Prop := e ≠ .panic

abbrev Safe (P : α → Prop) (r : Exec α) : Prop := Meets Stop.isTrap P r

def any : α → Prop := fun _ => True

lemma safe_trap (error : String) : Safe P (trap error : Exec α) := by
  refine meets_error fun h => ?_
  cases h

lemma safe_pure {a : α} : Safe any (pure a : Exec α) := meets_pure trivial

lemma checkedAdd_safe (a b : ℕ) (error : String) : Safe (fun c => c = a + b) (checkedAdd a b error) :=
  meets_ite (fun _ => meets_pure rfl) fun _ => safe_trap error

lemma add_safe {a b : ℕ} (h : a + b < USIZE) : Safe (fun c => c = a + b) (add a b) := by
  rw [add, if_pos h]
  exact meets_pure rfl

lemma sub_safe {a b : ℕ} (h : b ≤ a) : Safe (fun c => c = a - b) (sub a b) := by
  rw [sub, if_pos h]
  exact meets_pure rfl

lemma bytesOf_safe {b : List UInt8} (h : n ≤ b.length) : Safe any (bytesOf n b) := by
  rw [bytesOf, if_pos h]
  exact safe_pure

lemma copyAt_safe {mem bytes : List UInt8} {addr : ℕ} (h : addr + bytes.length ≤ mem.length) :
    Safe (fun mem' => mem'.length = mem.length) (copyAt mem addr bytes) := by
  rw [copyAt, if_pos h]
  refine meets_pure ?_
  simp only [List.length_append, List.length_take, List.length_drop]
  omega

variable (s : Stack)

lemma pop_safe : Safe any (pop s) := by
  cases s with
  | nil => exact safe_trap _
  | cons v s => exact safe_pure

lemma asI32_safe (v : Value) : Safe any (asI32 v) := by
  cases v
  case i32 => exact safe_pure
  all_goals exact safe_trap _

lemma asI64_safe (v : Value) : Safe any (asI64 v) := by
  cases v
  case i64 => exact safe_pure
  all_goals exact safe_trap _

lemma popI32_safe : Safe any (popI32 s) :=
  (pop_safe s).bind fun r _ => (asI32_safe r.1).bind fun _ _ => safe_pure

lemma popI64_safe : Safe any (popI64 s) :=
  (pop_safe s).bind fun r _ => (asI64_safe r.1).bind fun _ _ => safe_pure

lemma popArgs_safe (n : ℕ) (s : Stack) : Safe any (popArgs n s) :=
  meets_ite (fun _ => safe_trap _) fun _ => safe_pure

/-- The checks of a division are those that it needs. -/
theorem Division.run_safe (d : Division) (a b : BitVec w) : Safe any (d.run a b) := by
  cases d with
  | divS zero overflow =>
    refine meets_ite (fun _ => safe_trap zero) fun hb =>
      meets_ite (fun _ => safe_trap overflow) fun hrange => ?_
    rw [Wasm.divS, if_neg (by tauto)]
    exact safe_pure
  | divU zero =>
    refine meets_ite (fun _ => safe_trap zero) fun hb => ?_
    rw [Wasm.divU, if_neg hb]
    exact safe_pure
  | remS zero =>
    refine meets_ite (fun _ => safe_trap zero) fun hb => ?_
    rw [Wasm.remS, if_neg hb]
    exact safe_pure
  | remU zero =>
    refine meets_ite (fun _ => safe_trap zero) fun hb => ?_
    rw [Wasm.remU, if_neg hb]
    exact safe_pure

lemma NumOp.exec_safe (o : NumOp) (s : Stack) : Safe any (o.exec s) := by
  cases o with
  | i32Un f => exact (popI32_safe s).bind fun _ _ => safe_pure
  | i64Un f => exact (popI64_safe s).bind fun _ _ => safe_pure
  | i32Bin f => exact (popI32_safe s).bind fun b _ => (popI32_safe b.2).bind fun _ _ => safe_pure
  | i64Bin f => exact (popI64_safe s).bind fun b _ => (popI64_safe b.2).bind fun _ _ => safe_pure
  | i32Cmp f => exact (popI32_safe s).bind fun b _ => (popI32_safe b.2).bind fun _ _ => safe_pure
  | i64Cmp f => exact (popI64_safe s).bind fun b _ => (popI64_safe b.2).bind fun _ _ => safe_pure
  | i32Div d =>
    exact (popI32_safe s).bind fun b _ => (popI32_safe b.2).bind fun a _ =>
      (d.run_safe a.1 b.1).bind fun _ _ => safe_pure
  | i64Div d =>
    exact (popI64_safe s).bind fun b _ => (popI64_safe b.2).bind fun a _ =>
      (d.run_safe a.1 b.1).bind fun _ _ => safe_pure

variable (op : ℕ)

lemma execNum_safe (s : Stack) : Safe any (execNum op s) := by
  rw [execNum]
  cases numOp op with
  | none => exact safe_trap _
  | some o => exact o.exec_safe s

lemma loadBits_safe (w n : ℕ) (mem : List UInt8) (addr : ℕ) : Safe any (loadBits w n mem addr) := by
  refine (checkedAdd_safe addr n _).bind ?_
  rintro stop rfl
  refine meets_ite (fun h => (bytesOf_safe ?_).bind fun _ _ => safe_pure) fun _ => safe_trap _
  simp only [List.length_drop, List.length_take]
  omega

lemma loadAs_safe (w n : ℕ) (f : BitVec w → Value) (mem : List UInt8) (addr : ℕ) :
    Safe any (loadAs w n f mem addr) :=
  (loadBits_safe w n mem addr).bind fun _ _ => safe_pure

lemma execLoad_safe (mem : List UInt8) (addr : ℕ) : Safe any (execLoad op mem addr) := by
  unfold execLoad
  split
  all_goals first
    | exact loadAs_safe _ _ _ mem addr
    | exact safe_trap _

lemma storedBytes_safe (v : Value) : Safe any (storedBytes op v) := by
  have h32 : ∀ f : BitVec 32 → List UInt8, Safe any ((asI32 v).map f) :=
    fun f => (asI32_safe v).map fun _ _ => trivial
  have h64 : ∀ f : BitVec 64 → List UInt8, Safe any ((asI64 v).map f) :=
    fun f => (asI64_safe v).map fun _ _ => trivial
  unfold storedBytes
  split
  all_goals first
    | exact h32 _
    | exact h64 _
    | exact safe_trap _
    | (split <;> first | exact safe_pure | exact safe_trap _)

lemma execStore_safe (mem : List UInt8) (addr : ℕ) (v : Value) :
    Safe (fun mem' => mem'.length = mem.length) (execStore op mem addr v) := by
  refine (storedBytes_safe op v).bind fun bytes _ => (checkedAdd_safe addr bytes.length _).bind ?_
  rintro stop rfl
  exact meets_ite (fun _ => safe_trap _) fun h => copyAt_safe (Nat.le_of_not_lt h)

end OnetDns.Wasm
