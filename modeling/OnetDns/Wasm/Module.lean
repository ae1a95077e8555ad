import Mathlib.Tactic

/-!
# WebAssembly modules

`Module` of `onetdns-policy/src/wasmrt.rs`: values and their types, the decoded instructions, the
cursor that goes over the bytes, and the parser with its limits. A number of floating point is
the bits it is stored as; nothing is calculated with it.
-/
namespace OnetDns.Wasm

def PAGE : ℕ := 65536
def MAX_MODULE_BYTES : ℕ := 16 * 1024 * 1024
def MAX_TYPES : ℕ := 16384
def MAX_FUNCTIONS : ℕ := 65536
def MAX_PARAMS : ℕ := 1024
def MAX_RESULTS : ℕ := 1
def MAX_TABLE_ELEMS : ℕ := 65536
def MAX_GLOBALS : ℕ := 65536
def MAX_DATA_BYTES : ℕ := 16 * 1024 * 1024
def MAX_DATA_SEGMENTS : ℕ := 4096
def MAX_EXPORTS : ℕ := 4096
def MAX_DECODED_INSTRUCTIONS : ℕ := 262144
def MAX_LOCALS_PER_FUNCTION : ℕ := 1024
def MAX_BR_TABLE_TARGETS : ℕ := 65536

inductive ValType where
  | i32
  | i64
  | f32
  | f64
  deriving DecidableEq

inductive Value where
  | i32 (v : BitVec 32)
  | i64 (v : BitVec 64)
  | f32 (bits : BitVec 32)
  | f64 (bits : BitVec 64)

def Value.valueType : Value → ValType
  | .i32 _ => .i32
  | .i64 _ => .i64
  | .f32 _ => .f32
  | .f64 _ => .f64

def defaultVal : ValType → Value
  | .i32 => .i32 0
  | .i64 => .i64 0
  | .f32 => .f32 0
  | .f64 => .f64 0

structure FuncType where
  params : List ValType
  results : List ValType
  deriving DecidableEq

/-- `Instr`; a position is the number it is. -/
inductive Instr where
  | unreachable
  | nop
  | block (arity stop : ℕ)
  | loop (arity stop : ℕ)
  | ifElse (arity orElse stop : ℕ)
  | orElse (stop : ℕ)
  | stop
  | br (depth : UInt32)
  | brIf (depth : UInt32)
  | brTable (targets : List UInt32) (default : UInt32)
  | ret
  | call (callee : UInt32)
  | callIndirect (typeIdx : UInt32)
  | drop
  | select
  | localGet (i : UInt32)
  | localSet (i : UInt32)
  | localTee (i : UInt32)
  | globalGet (i : UInt32)
  | globalSet (i : UInt32)
  | load (op : ℕ) (offset : UInt32)
  | store (op : ℕ) (offset : UInt32)
  | memSize
  | memGrow
  | i32Const (v : BitVec 32)
  | i64Const (v : BitVec 64)
  | f32Const (bits : BitVec 32)
  | f64Const (bits : BitVec 64)
  | num (op : ℕ)

/-- `Reader`, as what is left to read. -/
abbrev Reader := StateT (List UInt8) (Except String)

namespace Reader

def fail {α : Type} (error : String) : Reader α := fun _ => .error error

def done : Reader Bool := fun b => .ok (b.isEmpty, b)

def byte : Reader UInt8
  | [] => .error "EOF"
  | b :: rest => .ok (b, rest)

def bytes (n : ℕ) : Reader (List UInt8) := fun b =>
  if n ≤ b.length then .ok (b.take n, b.drop n) else .error "EOF"

/-- The loop of `u32`: a number is at most five bytes long. -/
def u32Loop : (left shift : ℕ) → BitVec 32 → Reader UInt32
  | 0, _, _ => fail "LEB128 u32 값이 허용 범위를 넘었습니다"
  | left + 1, shift, r => do
    let b ← byte
    let r := r ||| (b &&& 0x7f).toBitVec.setWidth 32 <<< shift
    if b &&& 0x80 = 0 then pure (.ofBitVec r) else u32Loop left (shift + 7) r

def u32 : Reader UInt32 := u32Loop 5 0 0

/-- A number of things, as a `usize`. -/
def count : Reader ℕ := do
  let n ← u32
  pure n.toNat

/-- The loop of `i64`, for at most ten bytes; the sign is that of the last one. -/
def i64Loop : (left shift : ℕ) → BitVec 64 → Reader (BitVec 64)
  | 0, _, _ => fail "LEB128 i64 값이 허용 범위를 넘었습니다"
  | left + 1, shift, r => do
    let b ← byte
    let r := r ||| (b &&& 0x7f).toBitVec.setWidth 64 <<< shift
    if b &&& 0x80 = 0 then
      pure (if shift + 7 < 64 ∧ b &&& 0x40 ≠ 0 then r ||| (-1 : BitVec 64) <<< (shift + 7) else r)
    else i64Loop left (shift + 7) r

def i64 : Reader (BitVec 64) := i64Loop 10 0 0

def i32 : Reader (BitVec 32) := do
  let v ← i64
  pure (v.setWidth 32)

end Reader

def fromLeBytes (w : ℕ) : List UInt8 → BitVec w
  | [] => 0
  | b :: rest => b.toBitVec.setWidth w ||| fromLeBytes w rest <<< 8

namespace Reader

def f32 : Reader (BitVec 32) := do
  let b ← bytes 4
  pure (fromLeBytes 32 b)

def f64 : Reader (BitVec 64) := do
  let b ← bytes 8
  pure (fromLeBytes 64 b)

def name : Reader String := do
  let n ← count
  let s ← bytes n
  match String.fromUTF8? ⟨s.toArray⟩ with
  | none => fail "비UTF-8 이름"
  | some name => pure name

/-- `n` times one after the other. -/
def times {α : Type} : ℕ → (α → Reader α) → α → Reader α
  | 0, _, a => pure a
  | n + 1, f, a => do
    let a ← f a
    times n f a

end Reader

open Reader

def hexDigits : List Char := "0123456789abcdef".toList

/-- A byte in two hexadecimal digits. -/
def hexByte (n : ℕ) : String :=
  String.ofList [hexDigits.getD (n / 16 % 16) '0', hexDigits.getD (n % 16) '0']

def valType (b : UInt8) : Reader ValType :=
  if b = 0x7f then pure .i32
  else if b = 0x7e then pure .i64
  else if b = 0x7d then pure .f32
  else if b = 0x7c then pure .f64
  else fail ("알 수 없는 valtype 0x" ++ hexByte b.toNat)

structure Func where
  typeIdx : UInt32
  locals : List ValType
  body : List Instr

inductive ExportKind where
  | func
  | memory
  | global
  | table

structure Module where
  types : List FuncType
  funcs : List Func
  funcTypes : List UInt32
  exports : List (String × ExportKind × UInt32)
  memMin : UInt32
  memMax : Option UInt32
  memoryDefined : Bool
  globals : List (ValType × Bool × Value)
  start : Option UInt32
  table : List (Option UInt32)
  tableDefined : Bool
  data : List (UInt32 × List UInt8)

def Module.empty : Module := {
  types := []
  funcs := []
  funcTypes := []
  exports := []
  memMin := 0
  memMax := none
  memoryDefined := false
  globals := []
  start := none
  table := []
  tableDefined := false
  data := [] }

variable (m : Module)

/-- `exports.get`. -/
def Module.export? (name : String) : Option (ExportKind × UInt32) :=
  (m.exports.find? fun e => e.1 = name).map (·.2)

def readValTypes (n : ℕ) : Reader (List ValType) :=
  times n (fun ts => do
    let b ← byte
    let t ← valType b
    pure (ts ++ [t])) []

def parseType : Reader Module := do
  let b ← byte
  if b ≠ 0x60 then fail "functype 형식이 올바르지 않습니다"
  else
    let np ← count
    if np > MAX_PARAMS then fail "함수 parameter 개수가 허용 한도를 넘었습니다"
    else
      let params ← readValTypes np
      let nr ← count
      if nr > MAX_RESULTS then fail "함수 result는 최대 하나만 지원합니다"
      else
        let results ← readValTypes nr
        pure { m with types := m.types ++ [⟨params, results⟩] }

def parseTypes : Reader Module := do
  let n ← count
  if n > MAX_TYPES then fail "type 개수가 허용 한도를 넘었습니다" else times n parseType m

def parseImports : Reader Module := do
  let n ← count
  if n ≠ 0 then fail "WASM import는 지원하지 않습니다" else pure m

def parseFunctions : Reader Module := do
  let n ← count
  if n > MAX_FUNCTIONS then fail "함수 개수가 허용 한도를 넘었습니다"
  else
    times n (fun m => do
      let t ← u32
      pure { m with funcTypes := m.funcTypes ++ [t] }) m

def readLimits : Reader (UInt32 × Option UInt32) := do
  let flag ← byte
  if flag > 1 then fail "잘못된 WASM limits flag"
  else
    let least ← u32
    let most ← (if flag = 1 then do
      let most ← u32
      pure (some most) else pure none)
    if most.any (· < least) then fail "WASM 최대 한도가 최소 한도보다 작습니다"
    else pure (least, most)

def parseTables : Reader Module := do
  let n ← count
  if n > 1 then fail "table은 하나만 지원"
  else
    times n (fun m => do
      let b ← byte
      if b ≠ 0x70 then fail "WASM table 요소 형식은 funcref여야 합니다"
      else
        let (least, most) ← readLimits
        if least.toNat > MAX_TABLE_ELEMS ∨ most.any (·.toNat > MAX_TABLE_ELEMS) then
          fail "WASM table 크기가 허용 한도를 넘었습니다"
        else pure { m with table := List.replicate least.toNat none, tableDefined := true }) m

def parseMemory : Reader Module := do
  let n ← count
  if n > 1 then fail "memory는 하나만 지원합니다"
  else if n > 0 then do
    let (least, most) ← readLimits
    if most.any (· < least) then fail "WASM 최대 메모리가 최소 메모리보다 작습니다"
    else pure { m with memMin := least, memMax := most, memoryDefined := true }
  else pure m

def constValue (op : UInt8) : Reader Value :=
  if op = 0x41 then do
    let v ← i32
    pure (.i32 v)
  else if op = 0x42 then do
    let v ← i64
    pure (.i64 v)
  else if op = 0x43 then do
    let v ← f32
    pure (.f32 v)
  else if op = 0x44 then do
    let v ← f64
    pure (.f64 v)
  else if op = 0x23 then do
    let _ ← u32
    fail "텍스트로벌 참조 const expr 지원하지 않습니다"
  else fail ("const expr opcode 0x" ++ hexByte op.toNat ++ " 지원하지 않습니다")

def evalConstExpr (expected : ValType) : Reader Value := do
  let op ← byte
  let v ← constValue op
  let last ← byte
  if last ≠ 0x0b then fail "상수 식의 끝 표시가 빠져 있습니다"
  else if v.valueType ≠ expected then
    fail "WASM 상수 식 결과 형식이 선언과 일치하지 않습니다"
  else pure v

def parseGlobal : Reader Module := do
  let b ← byte
  let vt ← valType b
  let mutability ← byte
  if mutability > 1 then fail "WASM global mutability 값이 올바르지 않습니다"
  else
    let v ← evalConstExpr vt
    pure { m with globals := m.globals ++ [(vt, mutability == 1, v)] }

def parseGlobals : Reader Module := do
  let n ← count
  if n > MAX_GLOBALS then fail "global 개수가 허용 한도를 넘었습니다" else times n parseGlobal m

def exportKind (kind : UInt8) : Option ExportKind :=
  if kind = 0 then some .func
  else if kind = 1 then some .table
  else if kind = 2 then some .memory
  else if kind = 3 then some .global
  else none

def parseExport : Reader Module := do
  let name ← Reader.name
  let kind ← byte
  let idx ← u32
  match exportKind kind with
  | none => fail "알 수 없는 export 종류"
  | some kind =>
    if (m.export? name).isSome then fail "WASM export 이름이 중복되었습니다"
    else pure { m with exports := m.exports ++ [(name, kind, idx)] }

def parseExports : Reader Module := do
  let n ← count
  if n > MAX_EXPORTS then fail "export 개수가 허용 한도를 넘었습니다" else times n parseExport m

def parseStart : Reader Module := do
  let start ← u32
  pure { m with start := some start }

/-- The functions of an element segment, from a place of the table on. -/
def fillTable : (count off : ℕ) → List (Option UInt32) → Reader (List (Option UInt32))
  | 0, _, table => pure table
  | count + 1, off, table => do
    let f ← u32
    fillTable count (off + 1) (table.set off (some f))

/-- `as_i32`, and a negative offset. -/
def offsetOf (v : Value) (error : String) : Reader UInt32 :=
  match v with
  | .i32 offset => if offset.toInt < 0 then fail error else pure (.ofBitVec offset)
  | _ => fail "WASM 값의 형식이 올바르지 않습니다. 32비트 정수가 필요합니다"

def parseElement : Reader Module := do
  let flags ← u32
  if flags ≠ 0 then fail "지원하지 않는 element 세그먼트 형식"
  else
    let v ← evalConstExpr .i32
    let off ← offsetOf v "WASM 요소 구간의 시작 위치가 음수입니다"
    let count ← count
    if off.toNat + count > m.table.length then fail "element 세그먼트 table 허용 범위를 넘었습니다"
    else
      let table ← fillTable count off.toNat m.table
      pure { m with table := table }

def parseElements : Reader Module := do
  let n ← count
  if n > MAX_TABLE_ELEMS then fail "element segment 개수가 허용 한도를 넘었습니다"
  else if n ≠ 0 ∧ m.tableDefined = false then
    fail "WASM element 세그먼트에 필요한 table이 없습니다"
  else times n parseElement m

def Module.dataBytes : ℕ := (m.data.map (·.2.length)).sum

def parseDatum : Reader Module := do
  let flags ← u32
  if flags ≠ 0 then fail "지원하지 않는 data 세그먼트 형식"
  else
    let v ← evalConstExpr .i32
    let off ← offsetOf v "WASM 데이터 구간의 시작 위치가 음수입니다"
    let len ← count
    if m.dataBytes + len > MAX_DATA_BYTES then
      fail "data 세그먼트 전체 크기가 허용 한도를 넘었습니다"
    else
      let bytes ← Reader.bytes len
      pure { m with data := m.data ++ [(off, bytes)] }

def parseData : Reader Module := do
  let n ← count
  if n > MAX_DATA_SEGMENTS then fail "data 세그먼트 개수가 허용 한도를 넘었습니다"
  else if n ≠ 0 ∧ m.memoryDefined = false then
    fail "WASM data 세그먼트에 필요한 memory가 없습니다"
  else times n parseDatum m

end OnetDns.Wasm
