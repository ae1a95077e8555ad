import OnetDns.Wasm.Module

/-!
# Decoding and parsing

The bodies of the functions, in which the instructions of control get the positions that they lead
to, then the sections of a module in their order, and the checks of `validate_semantics`.
-/
namespace OnetDns.Wasm
open Reader

/-- The blocks that are open, and what closes them. -/
inductive CtrlKind where
  | block
  | loop
  | ifOnly
  | ifElse
  deriving DecidableEq

structure Decoding where
  instrs : List Instr
  ctrl : List (ℕ × CtrlKind)
  ended : Bool

namespace Decoding

variable (d : Decoding)

def push (instr : Instr) : Decoding := { d with instrs := d.instrs ++ [instr] }

def opens (instr : Instr) (kind : CtrlKind) : Decoding :=
  { d with instrs := d.instrs ++ [instr], ctrl := (d.instrs.length, kind) :: d.ctrl }

end Decoding

def setElse (here : ℕ) : Instr → Instr
  | .ifElse arity _ stop => .ifElse arity here stop
  | instr => instr

def setStop (here : ℕ) : Instr → Instr
  | .block arity _ => .block arity here
  | .loop arity _ => .loop arity here
  | .ifElse arity orElse _ => .ifElse arity (if orElse = 0 then here else orElse) here
  | instr => instr

/-- An `else` that leads nowhere yet. -/
def setElseStop (here : ℕ) : Instr → Instr
  | .orElse stop => .orElse (if stop = 0 then here else stop)
  | instr => instr

/-- What an `end` does to the instructions of the block that it closes. -/
def closeBlock (idx : ℕ) (kind : CtrlKind) (instrs : List Instr) : List Instr :=
  let here := instrs.length
  let instrs := instrs.modify idx (setStop here)
  if kind = .ifOnly ∨ kind = .ifElse then
    instrs.take (idx + 1) ++ (instrs.drop (idx + 1)).map (setElseStop here)
  else instrs

def blocktypeArity : Reader ℕ := do
  let b ← byte
  if b = 0x40 then pure 0
  else if 0x7c ≤ b ∧ b ≤ 0x7f then pure 1
  else fail "멀티값/타입인덱스 블록타입 지원하지 않습니다"

def memIndex (error : String) (instr : Instr) : Reader Instr := do
  let b ← byte
  if b ≠ 0 then fail error else pure instr

def brTargets (count : ℕ) : Reader (List UInt32) :=
  times count (fun targets => do
    let t ← u32
    pure (targets ++ [t])) []

/-- The operations on numbers that are known. -/
def isNum (op : ℕ) : Bool :=
  (0x45 ≤ op && op ≤ 0x5a) || (0x67 ≤ op && op ≤ 0x8a) || op = 0xa7 ||
    (0xac ≤ op && op ≤ 0xad) || (0xc0 ≤ op && op ≤ 0xc4)

def indexed (instr : UInt32 → Instr) : Reader Instr := do
  let i ← u32
  pure (instr i)

/-- An instruction that neither opens nor closes a block. -/
def decodePlain (op : ℕ) : Reader Instr :=
  if op = 0x00 then pure .unreachable
  else if op = 0x01 then pure .nop
  else if op = 0x0c then indexed .br
  else if op = 0x0d then indexed .brIf
  else if op = 0x0e then do
    let count ← count
    if count > MAX_BR_TABLE_TARGETS then fail "WASM br_table의 분기 대상이 허용 한도를 넘었습니다"
    else
      let targets ← brTargets count
      indexed (.brTable targets)
  else if op = 0x0f then pure .ret
  else if op = 0x10 then indexed .call
  else if op = 0x11 then do
    let t ← u32
    let b ← byte
    if b ≠ 0 then fail "WASM call_indirect table 인덱스는 0이어야 합니다"
    else pure (.callIndirect t)
  else if op = 0x1a then pure .drop
  else if op = 0x1b then pure .select
  else if op = 0x1c then do
    let n ← u32
    if n ≠ 1 then fail "WASM typed select는 결과 형식 하나가 필요합니다"
    else
      let b ← byte
      let _ ← valType b
      pure .select
  else if op = 0x20 then indexed .localGet
  else if op = 0x21 then indexed .localSet
  else if op = 0x22 then indexed .localTee
  else if op = 0x23 then indexed .globalGet
  else if op = 0x24 then indexed .globalSet
  else if 0x28 ≤ op ∧ op ≤ 0x35 then do
    let _ ← u32
    indexed (.load op)
  else if 0x36 ≤ op ∧ op ≤ 0x3e then do
    let _ ← u32
    indexed (.store op)
  else if op = 0x3f then memIndex "WASM memory.size memory 인덱스는 0이어야 합니다" .memSize
  else if op = 0x40 then memIndex "WASM memory.grow memory 인덱스는 0이어야 합니다" .memGrow
  else if op = 0x41 then do
    let v ← i32
    pure (.i32Const v)
  else if op = 0x42 then do
    let v ← i64
    pure (.i64Const v)
  else if op = 0x43 then do
    let v ← f32
    pure (.f32Const v)
  else if op = 0x44 then do
    let v ← f64
    pure (.f64Const v)
  else if isNum op then pure (.num op)
  else if 0x45 ≤ op ∧ op ≤ 0xc4 then fail ("지원하지 않는 숫자 연산 코드 0x" ++ hexByte op)
  else fail ("지원하지 않는 연산 코드 0x" ++ hexByte op)

def decodeElse (d : Decoding) : Reader Decoding :=
  match d.ctrl with
  | [] => fail "if 없이 else가 나타났습니다"
  | (idx, kind) :: ctrl =>
    if kind ≠ .ifOnly then fail "WASM else 명령에 대응하는 if 블록이 없습니다"
    else pure { d with
      instrs := d.instrs.modify idx (setElse d.instrs.length) ++ [.orElse 0]
      ctrl := (idx, .ifElse) :: ctrl }

def decodeEnd (d : Decoding) : Decoding :=
  match d.ctrl with
  | [] => { d with instrs := d.instrs ++ [.stop], ended := true }
  | (idx, kind) :: ctrl =>
    { d with instrs := closeBlock idx kind d.instrs ++ [.stop], ctrl := ctrl }

def decodeOp (op : ℕ) (d : Decoding) : Reader Decoding :=
  if op = 0x02 then do
    let arity ← blocktypeArity
    pure (d.opens (.block arity 0) .block)
  else if op = 0x03 then do
    let arity ← blocktypeArity
    pure (d.opens (.loop arity 0) .loop)
  else if op = 0x04 then do
    let arity ← blocktypeArity
    pure (d.opens (.ifElse arity 0 0) .ifOnly)
  else if op = 0x05 then decodeElse d
  else if op = 0x0b then pure (decodeEnd d)
  else do
    let instr ← decodePlain op
    pure (d.push instr)

/-- The loop of `decode_function`. Every turn takes a byte, so that their number is enough. -/
def decodeLoop (budget : ℕ) : (fuel : ℕ) → Decoding → Reader Decoding
  | 0, d => pure d
  | fuel + 1, d => do
    if ← done then pure d
    else
      let op ← byte
      let d ← decodeOp op.toNat d
      if d.ended then pure d
      else if d.instrs.length > budget then
        fail "WASM 디코딩 명령 수가 허용 한도를 넘었습니다"
      else decodeLoop budget fuel d

/-- One declaration of local variables. -/
def decodeLocals (nparams : ℕ) (locals : List ValType) : Reader (List ValType) := do
  let count ← count
  let b ← byte
  let vt ← valType b
  if locals.length + count > MAX_LOCALS_PER_FUNCTION ∨
      locals.length + count + nparams > MAX_LOCALS_PER_FUNCTION then
    fail "함수 local 개수가 허용 한도를 넘었습니다"
  else pure (locals ++ List.replicate count vt)

def decodeFunctionBody (nparams budget fuel : ℕ) : Reader (List ValType × List Instr) := do
  let declarations ← count
  if declarations > MAX_LOCALS_PER_FUNCTION then
    fail "WASM local declaration 개수가 허용 한도를 넘었습니다"
  else
    let locals ← times declarations (decodeLocals nparams) []
    let d ← decodeLoop budget fuel ⟨[], [], false⟩
    if d.instrs.length > budget then fail "WASM 디코딩 명령 수가 허용 한도를 넘었습니다"
    else if d.ended = false then fail "WASM 함수 본문에 최종 end가 없습니다"
    else if ← done then pure (locals, d.instrs)
    else fail "WASM 함수의 최종 end 뒤에 데이터가 남았습니다"

def decodeFunction (body : List UInt8) (nparams budget : ℕ) :
    Except String (List ValType × List Instr) := do
  let (result, _) ← decodeFunctionBody nparams budget body.length body
  pure result

/-- The bodies of the code section. -/
def parseCode : Reader (List (List UInt8)) := do
  let n ← count
  if n > MAX_FUNCTIONS then fail "WASM 코드 본문 수가 허용 한도를 넘었습니다"
  else
    times n (fun bodies => do
      let size ← count
      let body ← bytes size
      pure (bodies ++ [body])) []

structure Parsing where
  m : Module
  bodies : List (List UInt8)
  last : UInt8

/-- What a section of some number adds to the module. -/
def parseSection (id : UInt8) (p : Parsing) : Reader Parsing :=
  let inModule := fun (parse : Module → Reader Module) => do
    let m ← parse p.m
    pure { p with m := m }
  if id = 1 then inModule parseTypes
  else if id = 2 then inModule parseImports
  else if id = 3 then inModule parseFunctions
  else if id = 4 then inModule parseTables
  else if id = 5 then inModule parseMemory
  else if id = 6 then inModule parseGlobals
  else if id = 7 then inModule parseExports
  else if id = 8 then inModule parseStart
  else if id = 9 then inModule parseElements
  else if id = 10 then do
    let bodies ← parseCode
    pure { p with bodies := p.bodies ++ bodies }
  else inModule parseData

/-- A section from its number on; one with the number 0 is passed over. -/
def readSection (p : Parsing) : Reader Parsing := do
  let id ← byte
  let size ← count
  let payload ← bytes size
  if id = 0 then pure p
  else if id > 11 then fail ("지원하지 않는 WASM section ID " ++ toString id.toNat)
  else if id ≤ p.last then
    fail "WASM 표준 section이 중복되었거나 순서가 올바르지 않습니다"
  else
    match parseSection id p payload with
    | .error error => fail error
    | .ok (p, rest) =>
      if rest.isEmpty then pure { p with last := id }
      else fail ("WASM section " ++ toString id.toNat ++ "에 해석되지 않은 바이트가 남았습니다")

/-- The loop over the sections. Every turn takes a byte, so that their number is enough. -/
def readSections : (fuel : ℕ) → Parsing → Reader Parsing
  | 0, p => pure p
  | fuel + 1, p => do
    if ← done then pure p
    else
      let p ← readSection p
      readSections fuel p

/-- The functions, each of which uses up some of the instructions that a module may have. -/
def decodeFunctions (m : Module) : List (List UInt8 × UInt32) → (decoded : ℕ) →
    Except String (List Func)
  | [], _ => pure []
  | (body, typeIdx) :: rest, decoded =>
    match m.types[typeIdx.toNat]? with
    | none => .error "WASM 함수가 존재하지 않는 타입을 참조합니다"
    | some ft =>
      if decoded > MAX_DECODED_INSTRUCTIONS then
        .error "WASM 디코딩 명령 수가 허용 한도를 넘었습니다"
      else do
        let (locals, instrs) ←
          decodeFunction body ft.params.length (MAX_DECODED_INSTRUCTIONS - decoded)
        if decoded + instrs.length > MAX_DECODED_INSTRUCTIONS then
          .error "WASM 디코딩 명령 수가 허용 한도를 넘었습니다"
        else do
          let funcs ← decodeFunctions m rest (decoded + instrs.length)
          pure (⟨typeIdx, locals, instrs⟩ :: funcs)

variable (m : Module)

def validExport (e : ExportKind × UInt32) : Bool :=
  match e.1 with
  | .func => e.2.toNat < m.funcs.length
  | .table => e.2 = 0 && m.tableDefined
  | .memory => e.2 = 0 && m.memoryDefined
  | .global => e.2.toNat < m.globals.length

def validateStart : Except String Unit :=
  match m.start with
  | none => pure ()
  | some start =>
    match m.funcs[start.toNat]? with
    | none => .error "WASM start 함수 인덱스가 허용 범위를 벗어났습니다"
    | some f =>
      match m.types[f.typeIdx.toNat]? with
      | none => .error "WASM start 함수 타입 인덱스가 허용 범위를 벗어났습니다"
      | some ty =>
        if ty.params.isEmpty && ty.results.isEmpty then pure ()
        else .error "WASM start 함수는 매개변수와 반환값이 없어야 합니다"

def validateLocal (localCount : ℕ) (i : UInt32) : Except String Unit :=
  if i.toNat < localCount then pure () else .error "WASM local 인덱스가 허용 범위를 벗어났습니다"

def validateMemory : Except String Unit :=
  if m.memoryDefined then pure () else .error "WASM 메모리 명령에 필요한 memory가 없습니다"

def validateInstr (localCount : ℕ) : Instr → Except String Unit
  | .call idx =>
    if idx.toNat < m.funcs.length then pure ()
    else .error "WASM call 함수 인덱스가 허용 범위를 벗어났습니다"
  | .callIndirect typeIdx =>
    if m.tableDefined = false then .error "WASM call_indirect에 필요한 table이 없습니다"
    else if typeIdx.toNat < m.types.length then pure ()
    else .error "WASM call_indirect 타입 인덱스가 허용 범위를 벗어났습니다"
  | .localGet i => validateLocal localCount i
  | .localSet i => validateLocal localCount i
  | .localTee i => validateLocal localCount i
  | .globalGet i =>
    if i.toNat < m.globals.length then pure ()
    else .error "WASM global 인덱스가 허용 범위를 벗어났습니다"
  | .globalSet i =>
    match m.globals[i.toNat]? with
    | some (_, mutable, _) =>
      if mutable then pure () else .error "WASM 불변 global을 변경할 수 없습니다"
    | none => .error "WASM global 인덱스가 허용 범위를 벗어났습니다"
  | .load .. => validateMemory m
  | .store .. => validateMemory m
  | .memSize => validateMemory m
  | .memGrow => validateMemory m
  | _ => pure ()

def validateFunc (f : Func) : Except String Unit :=
  match m.types[f.typeIdx.toNat]? with
  | none => .error "WASM 함수 타입 인덱스가 허용 범위를 벗어났습니다"
  | some ft => f.body.forM (validateInstr m (ft.params.length + f.locals.length))

def validateSemantics : Except String Unit := do
  if m.exports.all fun e => validExport m e.2 then
    validateStart m
    if m.table.all fun f => f.all (·.toNat < m.funcs.length) then m.funcs.forM (validateFunc m)
    else .error "WASM table이 존재하지 않는 함수를 참조합니다"
  else .error "WASM export가 존재하지 않는 정의를 참조합니다"

/-- The magic number, the version, and all sections. -/
def parseSections (fuel : ℕ) : Reader Parsing := do
  let magic ← bytes 4
  if magic ≠ [0, 0x61, 0x73, 0x6d] then fail "WASM 파일 식별자가 일치하지 않습니다"
  else
    let version ← bytes 4
    if version ≠ [1, 0, 0, 0] then fail "WASM 버전 != 1"
    else readSections fuel ⟨.empty, [], 0⟩

def parse (bytes : List UInt8) : Except String Module :=
  if bytes.length > MAX_MODULE_BYTES then .error "WASM 모듈 크기가 허용 한도를 넘었습니다"
  else do
    let (p, _) ← parseSections bytes.length bytes
    if p.bodies.length ≠ p.m.funcTypes.length then
      .error "code/function 섹션 개수가 일치하지 않습니다"
    else do
      let funcs ← decodeFunctions p.m (p.bodies.zip p.m.funcTypes) 0
      let m := { p.m with funcs := funcs }
      validateSemantics m
      pure m

end OnetDns.Wasm
