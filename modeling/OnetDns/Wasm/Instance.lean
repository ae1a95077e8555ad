import OnetDns.Wasm.Decode

/-!
# Running a module

`Instance` of `onetdns-policy/src/wasmrt.rs`. A stack has its top first. Where the source would
panic, the model says so: an index or a slice out of range, an overflow, a division that has no
result, an `expect` of nothing. The source has no list of visits: for each instruction that is
executed, where that was and what there was to see.
-/
namespace OnetDns.Wasm

def MAX_CALL_DEPTH : ℕ := 128
def MAX_VALUE_STACK : ℕ := 4096
def MAX_LABEL_STACK : ℕ := 1024

/-- Why nothing is returned. -/
inductive Stop where
  | trap (error : String)
  | panic

abbrev Exec := Except Stop

def trap {α : Type} (error : String) : Exec α := .error (.trap error)

def panicked {α : Type} : Exec α := .error .panic

/-- `usize::MAX + 1`. -/
def USIZE : ℕ := 2 ^ 64

def checkedAdd (a b : ℕ) (error : String) : Exec ℕ :=
  if a + b < USIZE then pure (a + b) else trap error

/-- `+` of `usize`. -/
def add (a b : ℕ) : Exec ℕ := if a + b < USIZE then pure (a + b) else panicked

/-- `-` of an unsigned type. -/
def sub (a b : ℕ) : Exec ℕ := if b ≤ a then pure (a - b) else panicked

/-- `as usize` of an `i32`. -/
def asUsize (v : BitVec 32) : ℕ := (v.signExtend 64).toNat

variable {w : ℕ}

/-- `/` of a signed type. -/
def divS (a b : BitVec w) : Exec (BitVec w) :=
  if b = 0 ∨ a = BitVec.intMin w ∧ b = -1 then panicked else pure (a.sdiv b)

/-- `/` of an unsigned type. -/
def divU (a b : BitVec w) : Exec (BitVec w) := if b = 0 then panicked else pure (a / b)

/-- `wrapping_rem` of a signed type. -/
def remS (a b : BitVec w) : Exec (BitVec w) := if b = 0 then panicked else pure (a.srem b)

/-- `%` of an unsigned type. -/
def remU (a b : BitVec w) : Exec (BitVec w) := if b = 0 then panicked else pure (a % b)

/-- The positions of the bits, from the highest on. -/
def positions (w : ℕ) : List ℕ := (List.range w).reverse

def leadingZeros (v : BitVec w) : BitVec w :=
  BitVec.ofNat w ((positions w).takeWhile fun i => !v.getLsbD i).length

def trailingZeros (v : BitVec w) : BitVec w :=
  BitVec.ofNat w ((List.range w).takeWhile fun i => !v.getLsbD i).length

def countOnes (v : BitVec w) : BitVec w :=
  BitVec.ofNat w ((List.range w).countP fun i => v.getLsbD i)

/-- `wrapping_shl`, and the others: only as many bits of the distance count as the width needs. -/
def shl (a b : BitVec w) : BitVec w := a <<< (b.toNat % w)

def shrS (a b : BitVec w) : BitVec w := a.sshiftRight (b.toNat % w)

def shrU (a b : BitVec w) : BitVec w := a >>> (b.toNat % w)

def rotl (a b : BitVec w) : BitVec w := a.rotateLeft (b.toNat % w)

def rotr (a b : BitVec w) : BitVec w := a.rotateRight (b.toNat % w)

/-- `to_le_bytes`, of as many bytes as are asked for. -/
def toLeBytes : (n : ℕ) → BitVec w → List UInt8
  | 0, _ => []
  | n + 1, v => UInt8.ofBitVec (v.setWidth 8) :: toLeBytes n (v >>> 8)

/-- `mem[addr..addr + bytes.len()].copy_from_slice(bytes)`. -/
def copyAt (mem : List UInt8) (addr : ℕ) (bytes : List UInt8) : Exec (List UInt8) :=
  if addr + bytes.length ≤ mem.length then
    pure (mem.take addr ++ bytes ++ mem.drop (addr + bytes.length))
  else panicked

/-- `Vec::resize` with zeros. -/
def resize (mem : List UInt8) (n : ℕ) : List UInt8 :=
  mem.take n ++ List.replicate (n - mem.length) 0

/-- The first bytes of a slice, one after the other. -/
def bytesOf (n : ℕ) (b : List UInt8) : Exec (List UInt8) :=
  if n ≤ b.length then pure (b.take n) else panicked

abbrev Stack := List Value

def pop : Stack → Exec (Value × Stack)
  | [] => trap "스택 부족"
  | v :: s => pure (v, s)

def asI32 : Value → Exec (BitVec 32)
  | .i32 v => pure v
  | _ => trap "WASM 값의 형식이 올바르지 않습니다. 32비트 정수가 필요합니다"

def asI64 : Value → Exec (BitVec 64)
  | .i64 v => pure v
  | _ => trap "WASM 값의 형식이 올바르지 않습니다. 64비트 정수가 필요합니다"

def popI32 (s : Stack) : Exec (BitVec 32 × Stack) := do
  let (v, s) ← pop s
  let v ← asI32 v
  pure (v, s)

def popI64 (s : Stack) : Exec (BitVec 64 × Stack) := do
  let (v, s) ← pop s
  let v ← asI64 v
  pure (v, s)

/-- The arguments of a call, in their order. -/
def popArgs (n : ℕ) (s : Stack) : Exec (List Value × Stack) :=
  if s.length < n then trap "스택 부족" else pure ((s.take n).reverse, s.drop n)

def ofBool (b : Bool) : Value := .i32 (if b then 1 else 0)

/-- A division by zero has no result, nor has one whose result is too large. -/
inductive Division where
  | divS (zero overflow : String)
  | divU (zero : String)
  | remS (zero : String)
  | remU (zero : String)

def Division.run (a b : BitVec w) : Division → Exec (BitVec w)
  | .divS zero overflow =>
    if b = 0 then trap zero
    else if a = BitVec.intMin w ∧ b = -1 then trap overflow
    else Wasm.divS a b
  | .divU zero => if b = 0 then trap zero else Wasm.divU a b
  | .remS zero => if b = 0 then trap zero else Wasm.remS a b
  | .remU zero => if b = 0 then trap zero else Wasm.remU a b

/-- The ways in which operands are taken from the stack and a result is put there. -/
inductive NumOp where
  | i32Un (f : BitVec 32 → Value)
  | i64Un (f : BitVec 64 → Value)
  | i32Bin (f : BitVec 32 → BitVec 32 → BitVec 32)
  | i64Bin (f : BitVec 64 → BitVec 64 → BitVec 64)
  | i32Cmp (f : BitVec 32 → BitVec 32 → Bool)
  | i64Cmp (f : BitVec 64 → BitVec 64 → Bool)
  | i32Div (d : Division)
  | i64Div (d : Division)

def NumOp.exec (s : Stack) : NumOp → Exec Stack
  | .i32Un f => do
    let (a, s) ← popI32 s
    pure (f a :: s)
  | .i64Un f => do
    let (a, s) ← popI64 s
    pure (f a :: s)
  | .i32Bin f => do
    let (b, s) ← popI32 s
    let (a, s) ← popI32 s
    pure (.i32 (f a b) :: s)
  | .i64Bin f => do
    let (b, s) ← popI64 s
    let (a, s) ← popI64 s
    pure (.i64 (f a b) :: s)
  | .i32Cmp f => do
    let (b, s) ← popI32 s
    let (a, s) ← popI32 s
    pure (ofBool (f a b) :: s)
  | .i64Cmp f => do
    let (b, s) ← popI64 s
    let (a, s) ← popI64 s
    pure (ofBool (f a b) :: s)
  | .i32Div d => do
    let (b, s) ← popI32 s
    let (a, s) ← popI32 s
    let c ← d.run a b
    pure (.i32 c :: s)
  | .i64Div d => do
    let (b, s) ← popI64 s
    let (a, s) ← popI64 s
    let c ← d.run a b
    pure (.i64 c :: s)

/-- The operations on numbers, by their codes. -/
def numOp : ℕ → Option NumOp
  | 0x45 => some (.i32Un fun a => ofBool (a == 0))
  | 0x46 => some (.i32Cmp fun a b => a == b)
  | 0x47 => some (.i32Cmp fun a b => a != b)
  | 0x48 => some (.i32Cmp fun a b => a.slt b)
  | 0x49 => some (.i32Cmp fun a b => a.ult b)
  | 0x4a => some (.i32Cmp fun a b => b.slt a)
  | 0x4b => some (.i32Cmp fun a b => b.ult a)
  | 0x4c => some (.i32Cmp fun a b => a.sle b)
  | 0x4d => some (.i32Cmp fun a b => a.ule b)
  | 0x4e => some (.i32Cmp fun a b => b.sle a)
  | 0x4f => some (.i32Cmp fun a b => b.ule a)
  | 0x50 => some (.i64Un fun a => ofBool (a == 0))
  | 0x51 => some (.i64Cmp fun a b => a == b)
  | 0x52 => some (.i64Cmp fun a b => a != b)
  | 0x53 => some (.i64Cmp fun a b => a.slt b)
  | 0x54 => some (.i64Cmp fun a b => a.ult b)
  | 0x55 => some (.i64Cmp fun a b => b.slt a)
  | 0x56 => some (.i64Cmp fun a b => b.ult a)
  | 0x57 => some (.i64Cmp fun a b => a.sle b)
  | 0x58 => some (.i64Cmp fun a b => a.ule b)
  | 0x59 => some (.i64Cmp fun a b => b.sle a)
  | 0x5a => some (.i64Cmp fun a b => b.ule a)
  | 0x67 => some (.i32Un fun a => .i32 (leadingZeros a))
  | 0x68 => some (.i32Un fun a => .i32 (trailingZeros a))
  | 0x69 => some (.i32Un fun a => .i32 (countOnes a))
  | 0x6a => some (.i32Bin fun a b => a + b)
  | 0x6b => some (.i32Bin fun a b => a - b)
  | 0x6c => some (.i32Bin fun a b => a * b)
  | 0x6d => some (.i32Div (.divS "i32.div_s에서 0으로 나눌 수 없습니다"
      "i32.div_s 결과가 표현 범위를 넘었습니다"))
  | 0x6e => some (.i32Div (.divU "i32.div_u에서 0으로 나눌 수 없습니다"))
  | 0x6f => some (.i32Div (.remS "i32.rem_s에서 0으로 나머지를 계산할 수 없습니다"))
  | 0x70 => some (.i32Div (.remU "i32.rem_u에서 0으로 나머지를 계산할 수 없습니다"))
  | 0x71 => some (.i32Bin fun a b => a &&& b)
  | 0x72 => some (.i32Bin fun a b => a ||| b)
  | 0x73 => some (.i32Bin fun a b => a ^^^ b)
  | 0x74 => some (.i32Bin shl)
  | 0x75 => some (.i32Bin shrS)
  | 0x76 => some (.i32Bin shrU)
  | 0x77 => some (.i32Bin rotl)
  | 0x78 => some (.i32Bin rotr)
  | 0x79 => some (.i64Un fun a => .i64 (leadingZeros a))
  | 0x7a => some (.i64Un fun a => .i64 (trailingZeros a))
  | 0x7b => some (.i64Un fun a => .i64 (countOnes a))
  | 0x7c => some (.i64Bin fun a b => a + b)
  | 0x7d => some (.i64Bin fun a b => a - b)
  | 0x7e => some (.i64Bin fun a b => a * b)
  | 0x7f => some (.i64Div (.divS "i64.div_s에서 0으로 나눌 수 없습니다"
      "i64.div_s 결과가 표현 범위를 넘었습니다"))
  | 0x80 => some (.i64Div (.divU "i64.div_u에서 0으로 나눌 수 없습니다"))
  | 0x81 => some (.i64Div (.remS "i64.rem_s에서 0으로 나머지를 계산할 수 없습니다"))
  | 0x82 => some (.i64Div (.remU "i64.rem_u에서 0으로 나머지를 계산할 수 없습니다"))
  | 0x83 => some (.i64Bin fun a b => a &&& b)
  | 0x84 => some (.i64Bin fun a b => a ||| b)
  | 0x85 => some (.i64Bin fun a b => a ^^^ b)
  | 0x86 => some (.i64Bin shl)
  | 0x87 => some (.i64Bin shrS)
  | 0x88 => some (.i64Bin shrU)
  | 0x89 => some (.i64Bin rotl)
  | 0x8a => some (.i64Bin rotr)
  | 0xa7 => some (.i64Un fun a => .i32 (a.setWidth 32))
  | 0xac => some (.i32Un fun a => .i64 (a.signExtend 64))
  | 0xad => some (.i32Un fun a => .i64 (a.setWidth 64))
  | 0xc0 => some (.i32Un fun a => .i32 ((a.setWidth 8).signExtend 32))
  | 0xc1 => some (.i32Un fun a => .i32 ((a.setWidth 16).signExtend 32))
  | 0xc2 => some (.i64Un fun a => .i64 ((a.setWidth 8).signExtend 64))
  | 0xc3 => some (.i64Un fun a => .i64 ((a.setWidth 16).signExtend 64))
  | 0xc4 => some (.i64Un fun a => .i64 ((a.setWidth 32).signExtend 64))
  | _ => none

def execNum (op : ℕ) (s : Stack) : Exec Stack :=
  match numOp op with
  | some o => o.exec s
  | none => trap ("지원하지 않는 숫자 연산 코드 0x" ++ hexByte op)

/-- Some bytes of the memory, as a number. -/
def loadBits (w n : ℕ) (mem : List UInt8) (addr : ℕ) : Exec (BitVec w) := do
  let stop ← checkedAdd addr n "주소 계산 범위를 넘었습니다"
  if stop ≤ mem.length then do
    let b ← bytesOf n ((mem.take stop).drop addr)
    pure (fromLeBytes w b)
  else trap "load 허용 범위를 넘었습니다"

/-- A load of some bytes, and what is made of them. -/
def loadAs (w n : ℕ) (f : BitVec w → Value) (mem : List UInt8) (addr : ℕ) : Exec Value := do
  let v ← loadBits w n mem addr
  pure (f v)

def execLoad (op : ℕ) : (mem : List UInt8) → (addr : ℕ) → Exec Value :=
  match op with
  | 0x28 => loadAs 32 4 .i32
  | 0x29 => loadAs 64 8 .i64
  | 0x2a => loadAs 32 4 .f32
  | 0x2b => loadAs 64 8 .f64
  | 0x2c => loadAs 8 1 fun v => .i32 (v.signExtend 32)
  | 0x2d => loadAs 8 1 fun v => .i32 (v.setWidth 32)
  | 0x2e => loadAs 16 2 fun v => .i32 (v.signExtend 32)
  | 0x2f => loadAs 16 2 fun v => .i32 (v.setWidth 32)
  | 0x30 => loadAs 8 1 fun v => .i64 (v.signExtend 64)
  | 0x31 => loadAs 8 1 fun v => .i64 (v.setWidth 64)
  | 0x32 => loadAs 16 2 fun v => .i64 (v.signExtend 64)
  | 0x33 => loadAs 16 2 fun v => .i64 (v.setWidth 64)
  | 0x34 => loadAs 32 4 fun v => .i64 (v.signExtend 64)
  | 0x35 => loadAs 32 4 fun v => .i64 (v.setWidth 64)
  | other => fun _ _ => trap ("지원하지 않는 메모리 읽기 연산 0x" ++ hexByte other)

def storeBytes (mem : List UInt8) (addr : ℕ) (bytes : List UInt8) : Exec (List UInt8) := do
  let stop ← checkedAdd addr bytes.length "주소 계산 범위를 넘었습니다"
  if stop > mem.length then trap "store 허용 범위를 넘었습니다" else copyAt mem addr bytes

/-- The lowest bytes of an integer, or the bits of a number of floating point. -/
def storedBytes (op : ℕ) (v : Value) : Exec (List UInt8) :=
  match op with
  | 0x36 => (asI32 v).map (toLeBytes 4)
  | 0x37 => (asI64 v).map (toLeBytes 8)
  | 0x38 =>
    match v with
    | .f32 x => pure (toLeBytes 4 x)
    | _ => trap "f32 값이 필요합니다"
  | 0x39 =>
    match v with
    | .f64 x => pure (toLeBytes 8 x)
    | _ => trap "f64 값이 필요합니다"
  | 0x3a => (asI32 v).map (toLeBytes 1)
  | 0x3b => (asI32 v).map (toLeBytes 2)
  | 0x3c => (asI64 v).map (toLeBytes 1)
  | 0x3d => (asI64 v).map (toLeBytes 2)
  | 0x3e => (asI64 v).map (toLeBytes 4)
  | other => trap ("지원하지 않는 메모리 쓰기 연산 0x" ++ hexByte other)

def execStore (op : ℕ) (mem : List UInt8) (addr : ℕ) (v : Value) : Exec (List UInt8) := do
  let bytes ← storedBytes op v
  storeBytes mem addr bytes

/-- What there was when an instruction was executed. -/
structure Visit where
  funcIdx : ℕ
  pc : ℕ
  locals : List Value
  globals : List Value
  memory : ℕ
  callDepth : ℕ

structure Instance where
  memory : List UInt8
  memMaxBytes : ℕ
  globals : List Value
  fuel : ℕ
  callDepth : ℕ
  visits : List Visit

structure Label where
  arity : ℕ
  endArity : ℕ
  height : ℕ
  target : ℕ
  isLoop : Bool

/-- A call that is going on: `Frame`, and the local state of `run`. -/
structure Activation where
  inst : Instance
  funcIdx : ℕ
  locals : List Value
  stack : Stack
  labels : List Label
  pc : ℕ

/-- What an instruction leads to. -/
inductive Next where
  | go (x : Activation)
  | leave (x : Activation)
  | give (x : Activation) (values : List Value)
  | call (x : Activation) (callee : ℕ) (args : List Value)

namespace Activation

variable (x : Activation)

def setStack (stack : Stack) : Activation := { x with stack := stack }

def setLabels (labels : List Label) : Activation := { x with labels := labels }

def setLocals (locals : List Value) : Activation := { x with locals := locals }

def setGlobals (globals : List Value) : Activation :=
  { x with inst := { x.inst with globals := globals } }

def setMemory (memory : List UInt8) : Activation :=
  { x with inst := { x.inst with memory := memory } }

def enterBlock (arity endArity target : ℕ) (isLoop : Bool) : Activation :=
  x.setLabels (⟨arity, endArity, x.stack.length, target, isLoop⟩ :: x.labels)

def advance : Exec Next := do
  let pc ← add x.pc 1
  pure (.go { x with pc := pc })

def push (v : Value) : Exec Next := (x.setStack (v :: x.stack)).advance

end Activation

/-- `do_branch`: where it leads, and the two stacks there. -/
def doBranch (depth : ℕ) (stack : Stack) (labels : List Label) : Exec (ℕ × Stack × List Label) := do
  let needed ← add 1 depth
  if labels.length < needed then trap "WASM 분기 깊이가 현재 블록 깊이를 넘었습니다"
  else
    match labels[depth]? with
    | none => panicked
    | some label => do
      let required ←
        checkedAdd label.height label.arity "WASM 분기 스택 높이 계산이 넘쳤습니다"
      if stack.length < required then trap "branch 스택 부족"
      else do
        let left ← sub stack.length label.arity
        let kept := stack.take label.arity
        let below := (stack.drop label.arity).drop (left - label.height)
        let pc ← add label.target 1
        pure (pc, kept ++ below,
          if label.isLoop then labels.drop depth else labels.drop (depth + 1))

variable (x : Activation)

def branch (depth : ℕ) : Exec Next := do
  let (pc, stack, labels) ← doBranch depth x.stack x.labels
  pure (.go { x with pc := pc, stack := stack, labels := labels })

/-- The number of pages that `memory.grow` asks for. -/
def grownPages (old : ℕ) (delta : BitVec 32) : Option ℕ :=
  if delta.toInt < 0 ∨ old + delta.toNat ≥ USIZE then none else some (old + delta.toNat)

def pageBytes (pages : ℕ) : Option ℕ := if pages * PAGE < USIZE then some (pages * PAGE) else none

def setSlot (slots : List Value) (i : ℕ) (v : Value) (missing mismatch : String) :
    Exec (List Value) :=
  match slots[i]? with
  | none => trap missing
  | some slot => if slot.valueType ≠ v.valueType then trap mismatch else pure (slots.set i v)

namespace Module

variable (m : Module)

/-- `func`, and the body of a function. -/
def func (idx : ℕ) : Exec Func :=
  match m.funcs[idx]? with
  | none => trap "WASM 함수 번호가 허용 범위를 벗어났습니다"
  | some f => pure f

def ftype (idx : ℕ) : Exec FuncType := do
  let f ← m.func idx
  match m.types[f.typeIdx.toNat]? with
  | none => trap "WASM 타입 번호가 허용 범위를 벗어났습니다"
  | some ft => pure ft

def tableFunc (typeIdx place : ℕ) : Exec (ℕ × FuncType) :=
  match (m.table[place]?).join with
  | none => trap "table 인덱스 무효"
  | some callee => do
    let cft ← m.ftype callee.toNat
    match m.types[typeIdx]? with
    | none => trap "call_indirect 타입 인덱스 무효"
    | some expected =>
      if cft ≠ expected then trap "call_indirect 타입이 일치하지 않습니다" else pure (callee.toNat, cft)

end Module

/-- What `return` gives. -/
def returned (resultType : Option ValType) (stack : Stack) : Exec (List Value) :=
  match resultType with
  | none => pure []
  | some expected => do
    let (value, _) ← pop stack
    if value.valueType ≠ expected then
      trap "WASM 함수 반환 형식이 선언과 일치하지 않습니다"
    else pure [value]

/-- What is left on the stack when the loop is over. -/
def finish (resultType : Option ValType) (stack : Stack) : Exec (List Value) :=
  let arity := resultType.toList.length
  if stack.length ≠ arity then trap "WASM 함수 반환 스택 높이가 선언과 일치하지 않습니다"
  else do
    let _ ← sub stack.length arity
    let out := (stack.take arity).reverse
    if (out.map (·.valueType)).zip resultType.toList |>.any fun t => t.1 ≠ t.2 then
      trap "WASM 함수 반환 형식이 선언과 일치하지 않습니다"
    else pure out

variable (m : Module)

/-- The instructions of `run`; a call is left to `run`. -/
def step (resultType : Option ValType) (x : Activation) : Instr → Exec Next
  | .unreachable => trap "unreachable"
  | .nop => x.advance
  | .block arity stop =>
    (x.enterBlock arity arity stop false).advance
  | .loop arity _ =>
    (x.enterBlock 0 arity x.pc true).advance
  | .ifElse arity orElse stop => do
    let (cond, stack) ← popI32 x.stack
    let x := (x.setStack stack).enterBlock arity arity stop false
    if cond = 0 then do
      let pc ← (if orElse = stop then pure stop else add orElse 1)
      pure (.go { x with pc := pc })
    else x.advance
  | .orElse stop => pure (.go { x with pc := stop })
  | .stop =>
    match x.labels with
    | [] => trap "WASM end에 대응하는 제어 라벨이 없습니다"
    | label :: labels => do
      let expected ←
        checkedAdd label.height label.endArity "WASM 제어 스택 높이 계산이 넘쳤습니다"
      if x.stack.length ≠ expected then
        trap "WASM 블록 결과 스택 높이가 선언과 일치하지 않습니다"
      else if labels.isEmpty then pure (.leave (x.setLabels labels))
      else (x.setLabels labels).advance
  | .br depth => branch x depth.toNat
  | .brIf depth => do
    let (cond, stack) ← popI32 x.stack
    if cond ≠ 0 then branch (x.setStack stack) depth.toNat
    else (x.setStack stack).advance
  | .brTable targets default => do
    let (i, stack) ← popI32 x.stack
    branch (x.setStack stack) (targets.getD (asUsize i) default).toNat
  | .ret => do
    let values ← returned resultType x.stack
    pure (.give x values)
  | .call callee => do
    let ft ← m.ftype callee.toNat
    let (args, stack) ← popArgs ft.params.length x.stack
    pure (.call (x.setStack stack) callee.toNat args)
  | .callIndirect typeIdx => do
    let (place, stack) ← popI32 x.stack
    let (callee, ft) ← m.tableFunc typeIdx.toNat (asUsize place)
    let (args, stack) ← popArgs ft.params.length stack
    pure (.call (x.setStack stack) callee args)
  | .drop => do
    let (_, stack) ← pop x.stack
    (x.setStack stack).advance
  | .select => do
    let (c, stack) ← popI32 x.stack
    let (b, stack) ← pop stack
    let (a, stack) ← pop stack
    if a.valueType ≠ b.valueType then trap "WASM select 피연산자 형식이 일치하지 않습니다"
    else (x.setStack stack).push (if c ≠ 0 then a else b)
  | .localGet i =>
    match x.locals[i.toNat]? with
    | none => trap "local 인덱스"
    | some v => x.push v
  | .localSet i => do
    let (v, stack) ← pop x.stack
    let locals ←
      setSlot x.locals i.toNat v "local 인덱스" "WASM local.set 값 형식이 일치하지 않습니다"
    ((x.setStack stack).setLocals locals).advance
  | .localTee i => do
    let (v, _) ← pop x.stack
    let locals ←
      setSlot x.locals i.toNat v "local 인덱스" "WASM local.tee 값 형식이 일치하지 않습니다"
    (x.setLocals locals).advance
  | .globalGet i =>
    match x.inst.globals[i.toNat]? with
    | none => trap "global 인덱스"
    | some v => x.push v
  | .globalSet i => do
    let (v, stack) ← pop x.stack
    let globals ←
      setSlot x.inst.globals i.toNat v "global 인덱스" "WASM global.set 값 형식이 일치하지 않습니다"
    ((x.setStack stack).setGlobals globals).advance
  | .load op offset => do
    let (base, stack) ← popI32 x.stack
    let addr ← checkedAdd (asUsize base) offset.toNat "WASM load 유효 주소 계산이 넘쳤습니다"
    let v ← execLoad op x.inst.memory addr
    (x.setStack stack).push v
  | .store op offset => do
    let (v, stack) ← pop x.stack
    let (base, stack) ← popI32 stack
    let addr ← checkedAdd (asUsize base) offset.toNat "WASM store 유효 주소 계산이 넘쳤습니다"
    let memory ← execStore op x.inst.memory addr v
    ((x.setStack stack).setMemory memory).advance
  | .memSize => x.push (.i32 (BitVec.ofNat 32 (x.inst.memory.length / PAGE)))
  | .memGrow => do
    let (delta, stack) ← popI32 x.stack
    let old := x.inst.memory.length / PAGE
    let nextPages := grownPages old delta
    let newBytes := nextPages.bind pageBytes
    let x := x.setStack stack
    if newBytes.all (· > x.inst.memMaxBytes) ∨
        nextPages.any (fun pages => m.memMax.any (pages > ·.toNat)) then
      x.push (.i32 (-1))
    else
      match newBytes with
      | none => panicked
      | some bytes =>
        (x.setMemory (resize x.inst.memory bytes)).push (.i32 (BitVec.ofNat 32 old))
  | .i32Const v => x.push (.i32 v)
  | .i64Const v => x.push (.i64 v)
  | .f32Const v => x.push (.f32 v)
  | .f64Const v => x.push (.f64 v)
  | .num op => do
    let stack ← execNum op x.stack
    (x.setStack stack).advance

/-- The result of a call, unless its run is not over, and the instance after it. -/
abbrev Outcome := Option (Exec (List Value) × Instance)

/-- The checks of `invoke`: the function and its result type. -/
def enter (idx : ℕ) (args : List Value) : Exec (Func × Option ValType) := do
  let ft ← m.ftype idx
  if args.length ≠ ft.params.length then trap "인자 개수가 일치하지 않습니다"
  else if args.map (·.valueType) ≠ ft.params then
    trap "WASM 함수 인자 형식이 선언과 일치하지 않습니다"
  else do
    let f ← m.func idx
    pure (f, ft.results.head?)

/-- The state in which a function is started. -/
def start (inst : Instance) (idx : ℕ) (f : Func) (resultType : Option ValType)
    (args : List Value) : Activation := {
  inst := { inst with callDepth := inst.callDepth + 1 }
  funcIdx := idx
  locals := args ++ f.locals.map defaultVal
  stack := []
  labels := [⟨resultType.toList.length, resultType.toList.length, 0, f.body.length, false⟩]
  pc := 0 }

/-- `call_depth -= 1`. -/
def leaveCall (result : Exec (List Value)) (inst : Instance) : Exec (List Value) × Instance :=
  match sub inst.callDepth 1 with
  | .error e => (.error e, inst)
  | .ok depth => (result, { inst with callDepth := depth })

def invoke (run : List Instr → Option ValType → Activation → Outcome) (idx : ℕ)
    (args : List Value) (inst : Instance) : Outcome :=
  if inst.callDepth ≥ MAX_CALL_DEPTH then
    some (trap "WASM 호출 깊이가 허용 한도를 넘었습니다", inst)
  else
    match enter m idx args with
    | .error e => some (.error e, inst)
    | .ok (f, resultType) =>
      (run f.body resultType (start inst idx f resultType args)).map fun r => leaveCall r.1 r.2

def Activation.visit : Visit :=
  ⟨x.funcIdx, x.pc, x.locals, x.inst.globals, x.inst.memory.length, x.inst.callDepth⟩

/-- An instruction is paid for. -/
def Activation.charge : Exec Activation := do
  let fuel ← sub x.inst.fuel 1
  let visits := x.visit :: x.inst.visits
  pure { x with inst := { x.inst with fuel := fuel, visits := visits } }

/-- The limits that every turn of the loop checks. -/
def Activation.overfull : Option String :=
  if x.stack.length > MAX_VALUE_STACK then some "WASM 값 스택이 허용 한도를 넘었습니다"
  else if x.labels.length > MAX_LABEL_STACK then some "WASM 제어 스택이 허용 한도를 넘었습니다"
  else none

/-- The loop of `run`, for so many turns and calls one in the other. -/
def run (m : Module) : (n : ℕ) → List Instr → Option ValType → Activation → Outcome
  | 0, _, _, _ => none
  | n + 1, body, resultType, x =>
    match x.overfull with
    | some error => some (trap error, x.inst)
    | none =>
      match body[x.pc]? with
      | none => some (finish resultType x.stack, x.inst)
      | some instr =>
        if x.inst.fuel = 0 then some (trap "fuel 소진", x.inst)
        else
          match x.charge with
          | .error e => some (.error e, x.inst)
          | .ok x =>
            match step m resultType x instr with
            | .error e => some (.error e, x.inst)
            | .ok (.go x) => run m n body resultType x
            | .ok (.leave x) => some (finish resultType x.stack, x.inst)
            | .ok (.give x values) => some (.ok values, x.inst)
            | .ok (.call x callee args) =>
              match invoke m (run m n) callee args x.inst with
              | none => none
              | some (.error e, inst) => some (.error e, inst)
              | some (.ok values, inst) =>
                match add x.pc 1 with
                | .error e => some (.error e, inst)
                | .ok pc => run m n body resultType
                    { x with inst := inst, stack := values.reverse ++ x.stack, pc := pc }

/-- `invoke` from outside, with as many turns as there is fuel, and one more. -/
def invokeTop (idx : ℕ) (args : List Value) (inst : Instance) : Outcome :=
  invoke m (run m (inst.fuel + 1)) idx args inst

/-- What is used again of an instance. -/
structure InstanceState where
  memory : List UInt8
  globals : List Value

def InstanceState.default : InstanceState := ⟨[], []⟩

def clear {α : Type} (xs : List α) : List α := xs.take 0

/-- A data segment is put in the memory. -/
def loadDatum (memory : List UInt8) (datum : UInt32 × List UInt8) : Exec (List UInt8) :=
  if datum.1.toNat + datum.2.length ≥ USIZE ∨ datum.1.toNat + datum.2.length > memory.length then
    trap "data 세그먼트 메모리 허용 범위를 넘었습니다"
  else copyAt memory datum.1.toNat datum.2

/-- The instance before its start function. -/
def prepare (fuel memMaxBytes : UInt64) (state : InstanceState) : Exec Instance :=
  if m.memMin.toNat * PAGE ≥ USIZE then trap "초기 메모리 크기 계산 범위를 넘었습니다"
  else if m.memMin.toNat * PAGE > memMaxBytes.toNat then
    trap "WASM 초기 메모리가 허용 한도를 넘었습니다"
  else do
    let memory ← m.data.foldlM loadDatum (resize (clear state.memory) (m.memMin.toNat * PAGE))
    pure {
      memory := memory
      memMaxBytes := memMaxBytes.toNat
      globals := clear state.globals ++ m.globals.map (·.2.2)
      fuel := fuel.toNat
      callDepth := 0
      visits := [] }

/-- `instantiate_with`, whose start function has to return. -/
def instantiateWith (fuel memMaxBytes : UInt64) (state : InstanceState) :
    Option (Exec Instance) :=
  match prepare m fuel memMaxBytes state with
  | .error e => some (.error e)
  | .ok inst =>
    match m.start with
    | none => some (.ok inst)
    | some start =>
      match invokeTop m start.toNat [] inst with
      | none => none
      | some (.error e, _) => some (.error e)
      | some (.ok _, inst) => some (.ok inst)

def exportFunc (name : String) : Option ℕ :=
  match m.export? name with
  | some (.func, idx) => some idx.toNat
  | _ => none

def callExport (name : String) (args : List Value) (inst : Instance) : Outcome :=
  match exportFunc m name with
  | none => some (trap ("내보낸 함수 '" ++ name ++ "'을 찾을 수 없습니다"), inst)
  | some idx => invokeTop m idx args inst

def writeMem (addr : ℕ) (data : List UInt8) (inst : Instance) : Exec Instance := do
  let stop ← checkedAdd addr data.length "주소 계산 범위를 넘었습니다"
  if stop > inst.memory.length then trap "메모리 쓰기 허용 범위를 넘었습니다"
  else do
    let memory ← copyAt inst.memory addr data
    pure { inst with memory := memory }

def readMem (addr len : ℕ) (inst : Instance) : Exec (List UInt8) := do
  let stop ← checkedAdd addr len "메모리 읽기 주소 계산 범위를 넘었습니다"
  if stop ≤ inst.memory.length then pure ((inst.memory.take stop).drop addr)
  else trap "메모리 읽기 허용 범위를 넘었습니다"

end OnetDns.Wasm
