import OnetDns.Filter.RegexSyntax

/-!
# The regular expression machine

The compiler of `onetdns-filter/src/regex.rs` from trees to flat code with back-patched branches,
and the machine that runs all threads of a program side by side. `none` is where the source would
index past an array, or where the search of one closure had more to do than each place once.
-/
namespace OnetDns.Filter.Regex

inductive Inst where
  | byte (b : UInt8)
  | any (dotall : Bool)
  | charClass (negated : Bool) (ranges : List (UInt8 × UInt8))
  | found
  | jmp (target : ℕ)
  | split (first second : ℕ)
  | start (multiline : Bool)
  | stop (multiline : Bool)
  | wordBoundary (want : Bool)
  deriving DecidableEq

def MAX_INSTS : ℕ := 200000

def emit (insts : List Inst) (inst : Inst) : Except Stop (List Inst) :=
  if insts.length ≥ MAX_INSTS then .error (.error "정규식이 너무 큼") else .ok (insts ++ [inst])

def times (compileNode : List Inst → Except Stop (List Inst)) :
    (count : ℕ) → List Inst → Except Stop (List Inst)
  | 0, insts => .ok insts
  | count + 1, insts => do
    let insts ← compileNode insts
    times compileNode count insts

/-- The optional repeats, and the places of the branches that wait for the common exit. -/
def optionals (compileNode : List Inst → Except Stop (List Inst)) :
    (count : ℕ) → List Inst → Except Stop (List Inst × List ℕ)
  | 0, insts => .ok (insts, [])
  | count + 1, insts => do
    let s := insts.length
    let insts ← emit insts (.split 0 0)
    let insts ← compileNode (insts.set s (.split insts.length 0))
    let (insts, splits) ← optionals compileNode count insts
    return (insts, s :: splits)

/-- The jumps at some places go to the end of the code. -/
def patchJumps (jmps : List ℕ) (insts : List Inst) : List Inst :=
  jmps.foldl (fun code j => code.set j (.jmp insts.length)) insts

/-- A branch gets its second target. -/
def patchSplit (stop : ℕ) (insts : List Inst) (s : ℕ) : List Inst :=
  match insts[s]? with
  | some (.split first _) => insts.set s (.split first stop)
  | _ => insts

/-- The branches at some places have the end of the code as their second target. -/
def patchSplits (splits : List ℕ) (insts : List Inst) : List Inst :=
  splits.foldl (patchSplit insts.length) insts

mutual

def compile : Ast → List Inst → Except Stop (List Inst)
  | .empty, insts => .ok insts
  | .literal b, insts => emit insts (.byte b)
  | .anyChar dotall, insts => emit insts (.any dotall)
  | .charClass negated ranges, insts => emit insts (.charClass negated ranges)
  | .startAnchor multiline, insts => emit insts (.start multiline)
  | .endAnchor multiline, insts => emit insts (.stop multiline)
  | .wordBoundary want, insts => emit insts (.wordBoundary want)
  | .concat parts, insts => compileParts parts insts
  | .alt branches, insts => do
    let (insts, jmps) ← compileBranches branches insts
    return patchJumps jmps insts
  | .repetition node min max, insts => do
    let insts ← times (compile node) min insts
    match max with
    | none => do
      let l1 := insts.length
      let insts ← emit insts (.split 0 0)
      let body := insts.length
      let insts ← compile node insts
      let insts ← emit insts (.jmp l1)
      return insts.set l1 (.split body insts.length)
    | some m => do
      let (insts, splits) ← optionals (compile node) (m - min) insts
      return patchSplits splits insts

def compileParts : List Ast → List Inst → Except Stop (List Inst)
  | [], insts => .ok insts
  | part :: rest, insts => do
    let insts ← compile part insts
    compileParts rest insts

/-- The branches of an alternation, and the places of the jumps that wait for its end. -/
def compileBranches : List Ast → List Inst → Except Stop (List Inst × List ℕ)
  | [], insts => .ok (insts, [])
  | [branch], insts => do
    let insts ← compile branch insts
    return (insts, [])
  | branch :: next :: rest, insts => do
    let split := insts.length
    let insts ← emit insts (.split 0 0)
    let l1 := insts.length
    let insts ← compile branch insts
    let j := insts.length
    let insts ← emit insts (.jmp 0)
    let (insts, jmps) ← compileBranches (next :: rest) (insts.set split (.split l1 insts.length))
    return (insts, j :: jmps)

end

mutual

def isStartAnchored : Ast → Bool
  | .startAnchor multiline => !multiline
  | .concat parts => firstStartAnchored parts
  | .alt branches => !branches.isEmpty && allStartAnchored branches
  | _ => false

/-- The first part that is not empty decides. -/
def firstStartAnchored : List Ast → Bool
  | [] => false
  | .empty :: rest => firstStartAnchored rest
  | part :: _ => isStartAnchored part

def allStartAnchored : List Ast → Bool
  | [] => true
  | branch :: rest => isStartAnchored branch && allStartAnchored rest

end

structure Prog where
  insts : List Inst
  startAnchored : Bool

def compileAst (ast : Ast) : Except Stop Prog := do
  let insts ← compile ast []
  let insts ← emit insts .found
  return { insts := insts, startAnchored := isStartAnchored ast }

structure SparseSet where
  gen : List ℕ
  cur : ℕ
  dense : List ℕ

namespace SparseSet

def new : SparseSet := ⟨[], 0, []⟩

variable (set : SparseSet)

def ensure (n : ℕ) : SparseSet :=
  { set with gen := set.gen ++ List.replicate (n - set.gen.length) 0 }

/-- `clear`: the generation moves on, and starts again once it is used up. -/
def clear : SparseSet :=
  if (set.cur + 1) % 2 ^ 32 = 0 then ⟨set.gen.map fun _ => 0, 1, []⟩
  else ⟨set.gen, (set.cur + 1) % 2 ^ 32, []⟩

def contains (pc : ℕ) : Option Bool := set.gen[pc]?.map (· = set.cur)

def insert (pc : ℕ) : SparseSet :=
  { set with gen := set.gen.set pc set.cur, dense := set.dense ++ [pc] }

end SparseSet

structure Scratch where
  clist : SparseSet
  nlist : SparseSet

def isWord (b : UInt8) : Bool :=
  (byte '0' ≤ b && b ≤ byte '9') || (byte 'A' ≤ b && b ≤ byte 'Z') ||
    (byte 'a' ≤ b && b ≤ byte 'z') || b = byte '_'

variable (input : List UInt8)

def wordBoundary (pos : ℕ) : Bool :=
  let before := decide (pos > 0) && (input[pos - 1]?).any isWord
  let after := (input[pos]?).any isWord
  before != after

def atStart (multiline : Bool) (pos : ℕ) : Bool :=
  pos = 0 || (multiline && input[pos - 1]? = some newline)

def atStop (multiline : Bool) (pos : ℕ) : Bool :=
  pos = input.length || (multiline && input[pos]? = some newline)

/-- Where an instruction goes without taking a byte, in the order in which it is followed. -/
def follows (pos pc : ℕ) : Inst → List ℕ
  | .jmp target => [target]
  | .split first second => [first, second]
  | .start multiline => if atStart input multiline pos then [pc + 1] else []
  | .stop multiline => if atStop input multiline pos then [pc + 1] else []
  | .wordBoundary want => if wordBoundary input pos = want then [pc + 1] else []
  | _ => []

/-- Whether a byte lies in one of the ranges of a class, or in none of them. -/
def inClass (negated : Bool) (ranges : List (UInt8 × UInt8)) (b : UInt8) : Bool :=
  (ranges.any fun (lo, hi) => lo ≤ b && b ≤ hi) != negated

def takes (byte : Option UInt8) : Inst → Bool
  | .byte b => byte = some b
  | .any dotall => byte.any fun b => dotall || b ≠ newline
  | .charClass negated ranges => byte.any (inClass negated ranges)
  | _ => false

namespace Prog

variable (prog : Prog) (input : List UInt8)

/-- The loop of `add_thread`. -/
def addLoop (pos : ℕ) : (fuel : ℕ) → (stack : List ℕ) → SparseSet → Option SparseSet
  | _, [], list => some list
  | 0, _ :: _, _ => none
  | fuel + 1, pc :: stack, list =>
    match list.contains pc with
    | none => none
    | some true => addLoop pos fuel stack list
    | some false =>
      match prog.insts[pc]? with
      | none => none
      | some inst => addLoop pos fuel (follows input pos pc inst ++ stack) (list.insert pc)

/-- `add_thread`. At most two places are pushed for each that is visited. -/
def addThread (list : SparseSet) (pc pos : ℕ) : Option SparseSet :=
  prog.addLoop input pos (2 * prog.insts.length + 1) [pc] list

/-- The loop over the threads of one position: whether one of them has found a match, and else the
threads of the next position. -/
def sweep (pos : ℕ) : (threads : List ℕ) → (nlist : SparseSet) → Option (Bool × SparseSet)
  | [], nlist => some (false, nlist)
  | pc :: threads, nlist =>
    match prog.insts[pc]? with
    | none => none
    | some .found => some (true, nlist)
    | some inst =>
      if takes input[pos]? inst then do
        let nlist ← prog.addThread input nlist (pc + 1) (pos + 1)
        sweep pos threads nlist
      else sweep pos threads nlist

/-- The loop of `run` over the positions that are left. -/
def runFrom : (left : ℕ) → (pos : ℕ) → Scratch → Option (Bool × Scratch)
  | 0, _, scratch => some (false, scratch)
  | left + 1, pos, scratch => do
    let clist ← (if pos = 0 ∨ ¬prog.startAnchored then prog.addThread input scratch.clist 0 pos
      else some scratch.clist)
    let (found, nlist) ← prog.sweep input pos clist.dense scratch.nlist.clear
    if found then return (true, ⟨clist, nlist⟩)
    runFrom left (pos + 1) ⟨nlist, clist⟩

def run (scratch : Scratch) : Option (Bool × Scratch) :=
  let n := prog.insts.length
  prog.runFrom input (input.length + 1) 0 ⟨(scratch.clist.ensure n).clear, scratch.nlist.ensure n⟩

end Prog

/-- `Regex::new`. -/
def regexNew (fuel : ℕ) (pattern : List UInt8) : Except Stop Prog := do
  let ast ← parsePattern fuel pattern
  compileAst ast

/-- The trees of some patterns, or the first error. -/
def parsePatterns (fuel : ℕ) : (patterns : List (List UInt8)) → Except Stop (List Ast)
  | [] => .ok []
  | pattern :: rest => do
    let ast ← parsePattern fuel pattern
    let asts ← parsePatterns fuel rest
    return ast :: asts

/-- `RegexSet::new`: no program at all for no patterns. -/
def regexSetNew (fuel : ℕ) (patterns : List (List UInt8)) : Except Stop (Option Prog) := do
  match ← parsePatterns fuel patterns with
  | [] => return none
  | [ast] => do
    let prog ← compileAst ast
    return some prog
  | asts => do
    let prog ← compileAst (.alt asts)
    return some prog

/-- `RegexSet::is_match`. -/
def regexSetRun (set : Option Prog) (input : List UInt8) (scratch : Scratch) :
    Option (Bool × Scratch) :=
  match set with
  | some prog => prog.run input scratch
  | none => some (false, scratch)

end OnetDns.Filter.Regex
