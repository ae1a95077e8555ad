import Mathlib.Data.List.AList
import OnetDns.Lib.Slab

/-!
# The map that forgets what was used longest ago

`LruMap` of `onetdns-core/src/lrumap.rs`. Nodes lie in an array; two links of each put them in
the order of use, a third one chains those whose keys have one digest. `none` is where the source
panics or its loop does not end. The digest function stands for the randomly seeded hasher, and
the array always grows when it has to.
-/
namespace OnetDns.Core

/-- `NIL`: no node. -/
def nil : ℕ := 2 ^ 32 - 1

structure Node (K V : Type) where
  key : K
  val : V
  prev : ℕ
  next : ℕ
  hashNext : ℕ

structure LruMap (K V : Type) where
  cap : ℕ
  map : AList fun _ : UInt32 => ℕ
  nodes : Slab (Node K V)
  head : ℕ
  tail : ℕ
  len : ℕ

namespace LruMap

variable {K V : Type}

def new (cap : ℕ) : Option (LruMap K V) :=
  let cap := max cap 1
  if cap < nil then some ⟨cap, ∅, .empty, nil, nil, 0⟩ else none

variable (m : LruMap K V)

def clear : LruMap K V := { m with map := ∅, nodes := .empty, head := nil, tail := nil, len := 0 }

variable (i : ℕ)

def node : Option (Node K V) := m.nodes.get i

def modify (change : Node K V → Node K V) : Option (LruMap K V) :=
  (m.node i).map fun n => { m with nodes := m.nodes.put i (change n) }

def setPrev (i prev : ℕ) : Option (LruMap K V) := m.modify i ({ · with prev })

def setNext (i next : ℕ) : Option (LruMap K V) := m.modify i ({ · with next })

def unlink : Option (LruMap K V) := do
  let n ← m.node i
  let m ← (if n.prev ≠ nil then m.setNext n.prev n.next else some { m with head := n.next })
  if n.next ≠ nil then m.setPrev n.next n.prev else some { m with tail := n.prev }

def pushFront : Option (LruMap K V) := do
  let oldHead := m.head
  let m ← m.setPrev i nil
  let m ← m.setNext i oldHead
  let m ← (if oldHead ≠ nil then m.setPrev oldHead i else some m)
  let m := { m with head := i }
  return if m.tail = nil then { m with tail := i } else m

def moveFront : Option (LruMap K V) :=
  if m.head = i then some m else do
    let m ← m.unlink i
    m.pushFront i

variable [DecidableEq K] (digest : K → UInt32)

/-- The loop of `find_index_with_hash` from a node on. -/
def findFrom (m : LruMap K V) (key : K) : (fuel : ℕ) → (index : ℕ) → Option (Option ℕ)
  | 0, _ => none
  | fuel + 1, index =>
    if index = nil then some none
    else do
      let n ← m.node index
      if n.key = key then some (some index) else findFrom m key fuel n.hashNext

variable (m : LruMap K V)

variable (key : K)

def findIndex : Option (Option ℕ) :=
  match m.map.lookup (digest key) with
  | none => some none
  | some index => m.findFrom key (m.nodes.slots.length + 1) index

def containsKey : Option Bool := (m.findIndex digest key).map Option.isSome

def peek : Option (Option V) := do
  match ← m.findIndex digest key with
  | none => return none
  | some i => return some (← m.node i).val

def get : Option (Option V × LruMap K V) := do
  match ← m.findIndex digest key with
  | none => return (none, m)
  | some i =>
    let m ← m.moveFront i
    return (some (← m.node i).val, m)

/-- `get_mut`, with what the caller does to the value. -/
def getMut (change : V → V) : Option (Option V × LruMap K V) := do
  match ← m.findIndex digest key with
  | none => return (none, m)
  | some i =>
    let m ← m.moveFront i
    let n ← m.node i
    let m ← m.modify i fun n => { n with val := change n.val }
    return (some n.val, m)

/-- The loop of `remove_index` that looks for the node before `index` in its chain. -/
def cutFrom (m : LruMap K V) (index hashNext : ℕ) : (fuel : ℕ) → (previous : ℕ) → Option (LruMap K V)
  | 0, _ => none
  | fuel + 1, previous => do
    let n ← m.node previous
    if n.hashNext = nil then none
    else if n.hashNext = index then m.modify previous ({ · with hashNext })
    else cutFrom m index hashNext fuel n.hashNext

/-- The part of `remove_index` that takes a node out of its chain. -/
def unchain (index : ℕ) (hash : UInt32) : Option (LruMap K V) := do
  let n ← m.node index
  let head ← m.map.lookup hash
  if head = index then
    let map := if n.hashNext = nil then m.map.erase hash else m.map.insert hash n.hashNext
    some { m with map }
  else m.cutFrom index n.hashNext (m.nodes.slots.length + 1) head

def removeIndex (index : ℕ) (hash : UInt32) : Option (Node K V × LruMap K V) := do
  let m ← m.unchain index hash
  let m ← m.unlink index
  let n ← m.node index
  if m.len = 0 then none else return (n, { m with len := m.len - 1, nodes := (m.nodes.take index).release index })

def pop : Option (Option V × LruMap K V) := do
  match ← m.findIndex digest key with
  | none => return (none, m)
  | some i =>
    let (n, m) ← m.removeIndex i (digest key)
    return (some n.val, m)

def popLru : Option (Option (K × V) × LruMap K V) :=
  if m.tail = nil then some (none, m)
  else do
    let last ← m.node m.tail
    let (n, m) ← m.removeIndex m.tail (digest last.key)
    return (some (n.key, n.val), m)

/-- The part of `put` that adds a node. -/
def add (val : V) : Option (LruMap K V) :=
  let hash := digest key
  let index := m.nodes.next
  if nil < index then none
  else
    { m with
      nodes := m.nodes.insert ⟨key, val, nil, nil, (m.map.lookup hash).getD nil⟩
      map := m.map.insert hash index
      len := m.len + 1 }.pushFront index

def put (val : V) : Option (LruMap K V) := do
  match ← m.findIndex digest key with
  | some i =>
    let m ← m.modify i ({ · with val })
    m.moveFront i
  | none =>
    let m ← (if m.cap ≤ m.len then (m.popLru digest).map Prod.snd else some m)
    m.add digest key val

inductive Op (K V : Type) where
  | put (key : K) (val : V)
  | get (key : K)
  | getMut (key : K) (change : V → V)
  | peek (key : K)
  | pop (key : K)
  | popLru
  | containsKey (key : K)
  | clear

inductive Answer (K V : Type) where
  | done
  | value (val : Option V)
  | entry (entry : Option (K × V))
  | flag (found : Bool)

def exec : Op K V → Option (Answer K V × LruMap K V)
  | .put key val => (m.put digest key val).map (.done, ·)
  | .get key => (m.get digest key).map (Prod.map .value id)
  | .getMut key change => (m.getMut digest key change).map (Prod.map .value id)
  | .peek key => (m.peek digest key).map (.value ·, m)
  | .pop key => (m.pop digest key).map (Prod.map .value id)
  | .popLru => (m.popLru digest).map (Prod.map .entry id)
  | .containsKey key => (m.containsKey digest key).map (.flag ·, m)
  | .clear => some (.done, m.clear)

/-- A sequence of operations, with what each returns. -/
def run (m : LruMap K V) : List (Op K V) → Option (List (Answer K V) × LruMap K V)
  | [] => some ([], m)
  | op :: rest => do
    let (answer, m) ← m.exec digest op
    let (answers, m) ← m.run rest
    return (answer :: answers, m)

end LruMap

/-- Entries, the one used last in front. -/
abbrev Recency (K V : Type) := List (K × V)

namespace Recency

variable {K V : Type} [DecidableEq K]

/-- The entries without the one of a key. -/
def drop (l : Recency K V) (key : K) : Recency K V := l.eraseP (·.1 = key)

def touch (l : Recency K V) (key : K) (change : V → V) : Recency K V :=
  match l.lookup key with
  | none => l
  | some val => (key, change val) :: l.drop key

def put (cap : ℕ) (l : Recency K V) (key : K) (val : V) : Recency K V :=
  match l.lookup key with
  | some _ => (key, val) :: l.drop key
  | none => (key, val) :: if cap ≤ l.length then l.dropLast else l

open LruMap in
def exec (cap : ℕ) (l : Recency K V) : Op K V → Answer K V × Recency K V
  | .put key val => (.done, l.put cap key val)
  | .get key => (.value (l.lookup key), l.touch key id)
  | .getMut key change => (.value (l.lookup key), l.touch key change)
  | .peek key => (.value (l.lookup key), l)
  | .pop key => (.value (l.lookup key), l.drop key)
  | .popLru => (.entry l.getLast?, l.dropLast)
  | .containsKey key => (.flag (l.lookup key).isSome, l)
  | .clear => (.done, [])

open LruMap in
def run (cap : ℕ) (l : Recency K V) : List (Op K V) → List (Answer K V) × Recency K V
  | [] => ([], l)
  | op :: rest =>
    let (answer, l) := l.exec cap op
    let (answers, l) := l.run cap rest
    (answer :: answers, l)

end Recency

end OnetDns.Core
