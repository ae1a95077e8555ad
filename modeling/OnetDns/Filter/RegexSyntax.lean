import Mathlib.Tactic

/-!
# Regular expressions as trees

`Ast` of `onetdns-filter/src/regex.rs` and the parser that reads a pattern into it. Recursion over
the pattern is bounded by fuel; a parse that runs out of it has no result.
-/
namespace OnetDns.Filter.Regex

inductive Ast where
  | empty
  | literal (b : UInt8)
  | anyChar (dotall : Bool)
  | charClass (negated : Bool) (ranges : List (UInt8 × UInt8))
  | concat (parts : List Ast)
  | alt (branches : List Ast)
  | repetition (node : Ast) (min : ℕ) (max : Option ℕ)
  | startAnchor (multiline : Bool)
  | endAnchor (multiline : Bool)
  | wordBoundary (want : Bool)

def MAX_REPEAT : ℕ := 1000
def MAX_PARSE_DEPTH : ℕ := 200

/-- Why there is no tree: an error of the source, or a bound of this model. -/
inductive Stop where
  | error (text : String)
  | outOfFuel

structure Flags where
  ci : Bool
  dotall : Bool
  multiline : Bool
  extended : Bool

structure Parser where
  s : List UInt8
  pos : ℕ
  depth : ℕ
  flags : Flags

def newline : UInt8 := 10

def byte (c : Char) : UInt8 := c.toUInt8

def isAsciiWhitespace (c : UInt8) : Bool := c = 32 || c = 9 || c = 10 || c = 12 || c = 13

def isAsciiDigit (c : UInt8) : Bool := byte '0' ≤ c && c ≤ byte '9'

def isFlagChar (c : UInt8) : Bool := c = byte 'i' || c = byte 's' || c = byte 'm' || c = byte 'x'

def WORD_RANGES : List (UInt8 × UInt8) :=
  [(byte '0', byte '9'), (byte 'A', byte 'Z'), (byte 'a', byte 'z'), (byte '_', byte '_')]

def SPACE_RANGES : List (UInt8 × UInt8) := [(9, 13), (32, 32)]

/-- The loop of `complement_ranges`, over ranges sorted by their start. -/
def complementFrom : (sorted : List (UInt8 × UInt8)) → (next : ℕ) → List (UInt8 × UInt8)
  | [], next => if next ≤ 255 then [(UInt8.ofNat next, 255)] else []
  | (lo, hi) :: rest, next =>
    (if lo.toNat > next then [(UInt8.ofNat next, UInt8.ofNat (lo.toNat - 1))] else []) ++
      complementFrom rest (max next (hi.toNat + 1))

def complementRanges (ranges : List (UInt8 × UInt8)) : List (UInt8 × UInt8) :=
  complementFrom (ranges.mergeSort fun a b => a.1 ≤ b.1) 0

namespace Parser

variable (p : Parser)

def peek : Option UInt8 := p.s[p.pos]?

def advance : Parser := { p with pos := p.pos + 1 }

def bump : Option UInt8 × Parser := (p.peek, if p.peek.isSome then p.advance else p)

def eat (b : UInt8) : Bool × Parser := if p.peek = some b then (true, p.advance) else (false, p)

/-- Past the rest of a comment; the fuel is what is left of the pattern. -/
def skipComment : (fuel : ℕ) → Parser → Parser
  | 0, p => p
  | fuel + 1, p =>
    match p.peek with
    | none => p
    | some c => if c = newline then p.advance else skipComment fuel p.advance

def skipLoop : (fuel : ℕ) → Parser → Parser
  | 0, p => p
  | fuel + 1, p =>
    match p.peek with
    | none => p
    | some c =>
      if c = byte '#' then skipLoop fuel (skipComment p.s.length p.advance)
      else if isAsciiWhitespace c then skipLoop fuel p.advance
      else p

def skipXWs : Parser := if p.flags.extended then skipLoop p.s.length p else p

def fold (b : UInt8) : UInt8 :=
  if p.flags.ci ∧ byte 'A' ≤ b ∧ b ≤ byte 'Z' then b + 0x20 else b

/-- The digits at the place of a parser, and where they end. -/
def uintLoop : (fuel : ℕ) → (n : ℕ) → Parser → ℕ × Parser
  | 0, n, p => (n, p)
  | fuel + 1, n, p =>
    match p.peek with
    | some c =>
      if isAsciiDigit c then
        uintLoop fuel (min (min (n * 10) (2 ^ 32 - 1) + (c.toNat - 48)) (2 ^ 32 - 1)) p.advance
      else (n, p)
    | none => (n, p)

def parseUint : Option ℕ × Parser :=
  let (n, q) := uintLoop p.s.length 0 p
  if q.pos = p.pos then (none, q) else (some n, q)

/-- The upper bound of `try_parse_bounds`: an inner `none` where it is open, and `none` where it is
no number. -/
def parseMax (comma : Bool) (min : ℕ) : Option (Option ℕ) × Parser :=
  if comma then
    if p.peek = some (byte '}') then (some none, p)
    else match p.parseUint with
      | (some m, q) => (some (some m), q)
      | (none, q) => (none, q)
  else (some (some min), p)

/-- `try_parse_bounds`, at the opening brace. -/
def tryParseBounds : Except Stop (Option (ℕ × Option ℕ) × Parser) :=
  let (min?, q) := p.bump.2.parseUint
  match min? with
  | none => .ok (none, p)
  | some min =>
    let (comma, q) := q.eat (byte ',')
    let (max?, q) := q.parseMax comma min
    match max? with
    | none => .ok (none, p)
    | some max =>
      let (closed, q) := q.eat (byte '}')
      if ¬closed then .ok (none, p)
      else if min > MAX_REPEAT ∨ max.any (· > MAX_REPEAT) then
        .error (.error "정규식 반복 횟수가 허용 한도를 넘었습니다")
      else if max.any (· < min) then .error (.error "반복 범위 역전")
      else .ok (some (min, max), q)

def parseEscape : Except Stop (Ast × Parser) :=
  match p.advance.bump with
  | (none, _) => .error (.error "패턴 끝의 백슬래시")
  | (some e, q) =>
    .ok (if e = byte 'd' then .charClass false [(byte '0', byte '9')]
      else if e = byte 'D' then .charClass true [(byte '0', byte '9')]
      else if e = byte 'w' then .charClass false WORD_RANGES
      else if e = byte 'W' then .charClass true WORD_RANGES
      else if e = byte 's' then .charClass false SPACE_RANGES
      else if e = byte 'S' then .charClass true SPACE_RANGES
      else if e = byte 'b' then .wordBoundary true
      else if e = byte 'B' then .wordBoundary false
      else if e = byte 'n' then .literal newline
      else if e = byte 't' then .literal 9
      else if e = byte 'r' then .literal 13
      else if e = byte 'f' then .literal 0x0c
      else if e = byte 'v' then .literal 0x0b
      else if e = byte '0' then .literal 0
      else .literal (p.fold e), q)

variable (ranges : List (UInt8 × UInt8))

/-- What an escape stands for in a class: a byte, or ranges that are added. -/
def classEscape (e : UInt8) : Option UInt8 × List (UInt8 × UInt8) :=
  if e = byte 'd' then (none, ranges ++ [(byte '0', byte '9')])
  else if e = byte 'w' then (none, ranges ++ WORD_RANGES)
  else if e = byte 's' then (none, ranges ++ SPACE_RANGES)
  else if e = byte 'D' then (none, ranges ++ complementRanges [(byte '0', byte '9')])
  else if e = byte 'W' then (none, ranges ++ complementRanges WORD_RANGES)
  else if e = byte 'S' then (none, ranges ++ complementRanges SPACE_RANGES)
  else if e = byte 'n' then (some newline, ranges)
  else if e = byte 't' then (some 9, ranges)
  else if e = byte 'r' then (some 13, ranges)
  else if e = byte 'f' then (some 0x0c, ranges)
  else if e = byte 'v' then (some 0x0b, ranges)
  else if e = byte '0' then (some 0, ranges)
  else if e = byte 'b' then (some 0x08, ranges)
  else (some e, ranges)

/-- `class_atom`: one byte of a class, or a named class whose ranges are added. -/
def classAtom :
    Except Stop (Option UInt8 × List (UInt8 × UInt8) × Parser) :=
  match p.bump with
  | (none, _) => .error (.error "닫히지 않은 문자 클래스")
  | (some c, q) =>
    if c ≠ byte '\\' then .ok (some c, ranges, q)
    else match q.bump with
      | (none, _) => .error (.error "잘못된 이스케이프")
      | (some e, q) =>
        let (c, ranges) := classEscape ranges e
        .ok (c, ranges, q)

def pushClassRange (lo hi : UInt8) : List (UInt8 × UInt8) :=
  let ranges := ranges ++ [(lo, hi)]
  if ¬p.flags.ci then ranges else
    let ua := max lo (byte 'A')
    let ub := min hi (byte 'Z')
    let ranges := if ua ≤ ub then ranges ++ [(ua + 0x20, ub + 0x20)] else ranges
    let la := max lo (byte 'a')
    let lb := min hi (byte 'z')
    if la ≤ lb then ranges ++ [(la - 0x20, lb - 0x20)] else ranges

/-- The loop of `parse_class`. -/
def classLoop : (fuel : ℕ) → (first : Bool) → (ranges : List (UInt8 × UInt8)) → Parser →
    Except Stop (List (UInt8 × UInt8) × Parser)
  | 0, _, _, _ => .error .outOfFuel
  | fuel + 1, first, ranges, p =>
    if p.peek = none then .error (.error "닫히지 않은 문자 클래스")
    else if p.peek = some (byte ']') ∧ ¬first then .ok (ranges, p.advance)
    else
      match p.classAtom ranges with
      | .error e => .error e
      | .ok (none, ranges, p) => classLoop fuel false ranges p
      | .ok (some lo, ranges, p) =>
        if p.peek = some (byte '-') ∧ p.s[p.pos + 1]? ≠ some (byte ']') ∧
            p.s[p.pos + 1]?.isSome then
          match p.advance.classAtom ranges with
          | .error e => .error e
          | .ok (some hi, ranges, q) =>
            if hi ≥ lo then classLoop fuel false (p.pushClassRange ranges lo hi) q
            else .error (.error "문자 클래스 범위 역전")
          | .ok (none, ranges, q) => classLoop fuel false (p.pushClassRange ranges lo lo) q
        else classLoop fuel false (p.pushClassRange ranges lo lo) p

def parseClass : Except Stop (Ast × Parser) :=
  let (negated, p) := p.advance.eat (byte '^')
  match classLoop (p.s.length + 1) true [] p with
  | .error e => .error e
  | .ok (ranges, p) =>
    if ranges.isEmpty then .error (.error "빈 문자 클래스") else .ok (.charClass negated ranges, p)

def setFlag (c : UInt8) (on : Bool) : Parser :=
  { p with flags :=
    if c = byte 'i' then { p.flags with ci := on }
    else if c = byte 's' then { p.flags with dotall := on }
    else if c = byte 'm' then { p.flags with multiline := on }
    else if c = byte 'x' then { p.flags with extended := on }
    else p.flags }

/-- `parse_flag_group`: whether a group follows to which the flags belong. -/
def parseFlagGroup : (fuel : ℕ) → (negate : Bool) → Parser → Except Stop (Bool × Parser)
  | 0, _, _ => .error .outOfFuel
  | fuel + 1, negate, p =>
    match p.peek with
    | none => .error (.error "지원하지 않는 그룹 플래그")
    | some c =>
      if c = byte '-' ∧ ¬negate then parseFlagGroup fuel true p.advance
      else if isFlagChar c then parseFlagGroup fuel negate (p.advance.setFlag c !negate)
      else if c = byte ':' then .ok (true, p.advance)
      else if c = byte ')' then .ok (false, p.advance)
      else .error (.error "지원하지 않는 그룹 플래그")

/-- The tree of some parts in a row. -/
def concatOf : List Ast → Ast
  | [] => .empty
  | [part] => part
  | parts => .concat parts

/-- The closing parenthesis of a group. -/
def close (inner : Ast) : Except Stop (Ast × Parser) :=
  match p.eat (byte ')') with
  | (true, p) => .ok (inner, p)
  | (false, _) => .error (.error "닫는 괄호가 없습니다")

mutual

def parseAlt : (fuel : ℕ) → Parser → Except Stop (Ast × Parser)
  | 0, _ => .error .outOfFuel
  | fuel + 1, p => do
    let (first, p) ← parseConcat fuel p
    let (rest, p) ← parseBranches fuel p
    return (if rest.isEmpty then first else .alt (first :: rest), p)

/-- The loop of `parse_alt`. -/
def parseBranches : (fuel : ℕ) → Parser → Except Stop (List Ast × Parser)
  | 0, _ => .error .outOfFuel
  | fuel + 1, p =>
    if p.peek = some (byte '|') then do
      let (branch, p) ← parseConcat fuel p.advance
      let (rest, p) ← parseBranches fuel p
      return (branch :: rest, p)
    else .ok ([], p)

def parseConcat : (fuel : ℕ) → Parser → Except Stop (Ast × Parser)
  | 0, _ => .error .outOfFuel
  | fuel + 1, p => do
    let (parts, p) ← parseParts fuel p
    return (concatOf parts, p)

/-- The loop of `parse_concat`. -/
def parseParts : (fuel : ℕ) → Parser → Except Stop (List Ast × Parser)
  | 0, _ => .error .outOfFuel
  | fuel + 1, p =>
    let p := p.skipXWs
    if p.peek = none ∨ p.peek = some (byte '|') ∨ p.peek = some (byte ')') then .ok ([], p)
    else do
      let (part, p) ← parseRepeat fuel p
      let (rest, p) ← parseParts fuel p
      return (part :: rest, p)

def parseRepeat : (fuel : ℕ) → Parser → Except Stop (Ast × Parser)
  | 0, _ => .error .outOfFuel
  | fuel + 1, p => do
    let (atom, p) ← parseAtom fuel p
    let p := p.skipXWs
    let (bounds, p) ← (
      if p.peek = some (byte '*') then .ok (some (0, none), p.advance)
      else if p.peek = some (byte '+') then .ok (some (1, none), p.advance)
      else if p.peek = some (byte '?') then .ok (some (0, some 1), p.advance)
      else if p.peek = some (byte '{') then p.tryParseBounds
      else .ok (none, p))
    match bounds with
    | none => return (atom, p)
    | some (min, max) => return (.repetition atom min max, (p.eat (byte '?')).2)

def parseAtom : (fuel : ℕ) → Parser → Except Stop (Ast × Parser)
  | 0, _ => .error .outOfFuel
  | fuel + 1, p =>
    match p.peek with
    | none => .ok (.empty, p)
    | some c =>
      if c = byte '(' then parseGroup fuel p
      else if c = byte '[' then p.parseClass
      else if c = byte '.' then .ok (.anyChar p.flags.dotall, p.advance)
      else if c = byte '^' then .ok (.startAnchor p.flags.multiline, p.advance)
      else if c = byte '$' then .ok (.endAnchor p.flags.multiline, p.advance)
      else if c = byte '\\' then p.parseEscape
      else if c = byte '*' ∨ c = byte '+' ∨ c = byte '?' then
        .error (.error "수량자 앞에 항이 없습니다")
      else .ok (.literal (p.fold c), p.advance)

/-- `parse_group`, with its bound on the depth. -/
def parseGroup : (fuel : ℕ) → Parser → Except Stop (Ast × Parser)
  | 0, _ => .error .outOfFuel
  | fuel + 1, p =>
    if p.depth + 1 > MAX_PARSE_DEPTH then .error (.error "정규식 중첩이 너무 깊음")
    else do
      let (inner, p) ← parseGroupInner fuel { p with depth := p.depth + 1 }
      return (inner, { p with depth := p.depth - 1 })

def parseGroupInner : (fuel : ℕ) → Parser → Except Stop (Ast × Parser)
  | 0, _ => .error .outOfFuel
  | fuel + 1, p =>
    let p := p.bump.2
    if p.peek = some (byte '?') then
      let p := p.advance
      match p.peek with
      | none => .error (.error "지원하지 않는 (?...) 그룹")
      | some c =>
        if c = byte ':' then do
          let (inner, p) ← parseAlt fuel p.advance
          p.close inner
        else if c = byte '-' ∨ isFlagChar c then do
          let saved := p.flags
          let (grouped, p) ← parseFlagGroup (p.s.length + 1) false p
          if grouped then do
            let (inner, p) ← parseAlt fuel p
            let (inner, p) ← p.close inner
            return (inner, { p with flags := saved })
          else .ok (.empty, p)
        else .error (.error "지원하지 않는 (?...) 그룹")
    else do
      let (inner, p) ← parseAlt fuel p
      p.close inner

end

end Parser

def parsePattern (fuel : ℕ) (pattern : List UInt8) : Except Stop Ast := do
  let (ast, p) ← Parser.parseAlt fuel
    { s := pattern, pos := 0, depth := 0, flags := ⟨false, false, false, false⟩ }
  if p.pos ≠ p.s.length then .error (.error "예상치 못한 문자") else .ok ast

end OnetDns.Filter.Regex
