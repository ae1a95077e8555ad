import OnetDns.Filter.DomainTable
import OnetDns.Dns.Name

/-!
# Sets of domain names

`DomainSet` of `onetdns-filter/src/engine.rs`. A set holds names that match as a whole
and names that match with everything below them. Each of the two kinds is in a table
while rules are loaded and in a frozen map afterwards; the frozen map enters through
the operations that the set calls.
-/
namespace OnetDns.Filter

def noSource : UInt32 := 0xFFFFFFFF

/-- The text behind the first dot. -/
def afterDot (s : Str) : Option Str :=
  match s.dropWhile (· ≠ 46) with
  | [] => none
  | _ :: rest => some rest

lemma afterDot_length {s rest : Str} (h : afterDot s = some rest) : rest.length < s.length := by
  rw [afterDot] at h
  split at h
  case h_1 => cases h
  case h_2 dot tail heq =>
    cases h
    have hle := (List.dropWhile_sublist (fun b : UInt8 => decide (b ≠ 46)) (l := s)).length_le
    rw [heq, List.length_cons] at hle
    omega

/-- What a set needs of a frozen map. `forEachEntry` lists index, key and source. -/
class CompactMap (C : Type) where
  default : C
  tryFromTable : (Str → UInt64) → DomainTable → Except DomainTable C
  len : C → ℕ
  lookupExact : C → Str → Option (Str × ℕ)
  lookupSuffix : C → Str → Option (Str × ℕ)
  source : C → ℕ → Option UInt32
  forEachEntry : C → Except String (List (ℕ × Str × UInt32))

def CompactMap.isEmpty {C : Type} [CompactMap C] (map : C) : Bool := CompactMap.len map == 0

/-- Hit counters: one for every frozen name, and one for every name of a table. -/
structure HitCounters where
  dense : List ℕ
  sparse : List (Str × ℕ)

structure DomainMatch where
  key : Str
  source : UInt32
  isExact : Bool
  compactIndex : Option ℕ

structure DomainSet (C : Type) where
  exact : DomainTable
  suffixes : DomainTable
  exactCompact : C
  suffixCompact : C
  exactHits : Option HitCounters
  suffixHits : Option HitCounters
  entryCount : ℕ

namespace DomainSet

variable {C : Type} [CompactMap C]

def default (hasher : Str → UInt64) : DomainSet C :=
  ⟨.default hasher, .default hasher, CompactMap.default, CompactMap.default, none, none, 0⟩

variable (s : DomainSet C)

def isEmpty : Bool := s.entryCount == 0

variable (hasher : Str → UInt64)

/-- `compact`: freezes a table, or leaves it as it is. -/
def compact (map : DomainTable) (frozen : C) : DomainTable × C :=
  if map.isEmpty then (map, frozen)
  else
    match CompactMap.tryFromTable hasher map with
    | .ok built => (.default hasher, built)
    | .error fallback => (fallback, frozen)

def finalize (s : DomainSet C) : DomainSet C :=
  let (exact, exactCompact) := compact hasher s.exact s.exactCompact
  let (suffixes, suffixCompact) := compact hasher s.suffixes s.suffixCompact
  { s with exact, exactCompact, suffixes, suffixCompact }

/-- `HitCounters::new`. -/
def newCounters (frozen : C) (fallback : DomainTable) : HitCounters :=
  ⟨List.replicate (CompactMap.len frozen) 0, fallback.keys.map (·, 0)⟩

def enableHits (s : DomainSet C) : DomainSet C :=
  let s := s.finalize hasher
  { s with
    exactHits := some (newCounters s.exactCompact s.exact)
    suffixHits := some (newCounters s.suffixCompact s.suffixes) }

def compactMatch (found : Str × ℕ) (isExact : Bool) : DomainMatch :=
  ⟨found.1, noSource, isExact, some found.2⟩

/-- The loop over the suffixes behind a dot, the longest first. -/
def tableSuffix (table : DomainTable) (rest : Str) : Option DomainMatch :=
  match table.get rest with
  | some source => some ⟨rest, source, false, none⟩
  | none =>
    match _h : afterDot rest with
    | some shorter => tableSuffix table shorter
    | none => none
termination_by rest.length
decreasing_by exact afterDot_length _h

variable (normalized : Str)

/-- `matched_kv`: whole names first, then the longest suffix. -/
def matchedKv : Option DomainMatch :=
  if s.isEmpty then none
  else
    let exactTable : Option DomainMatch :=
      if s.exact.isEmpty then none
      else (s.exact.get normalized).map fun source => ⟨normalized, source, true, none⟩
    let exactCompact : Option DomainMatch :=
      if CompactMap.isEmpty s.exactCompact then none
      else (CompactMap.lookupExact s.exactCompact normalized).map (compactMatch · true)
    let suffixTable : Option DomainMatch :=
      if s.suffixes.isEmpty then none else tableSuffix s.suffixes normalized
    exactTable <|> exactCompact <|> suffixTable <|>
      (CompactMap.lookupSuffix s.suffixCompact normalized).map (compactMatch · false)

def matched : Option Str := (s.matchedKv normalized).map DomainMatch.key

def sourceOf : Option UInt32 := do
  let found ← s.matchedKv normalized
  match found.compactIndex with
  | some index =>
    if found.isExact then CompactMap.source s.exactCompact index
    else CompactMap.source s.suffixCompact index
  | none => some found.source

/-- `hit`: the matched rule. The counter that it raises is in `countHit`. -/
def hit : Option Str := do
  let found ← s.matchedKv normalized
  return found.key

end DomainSet

end OnetDns.Filter
