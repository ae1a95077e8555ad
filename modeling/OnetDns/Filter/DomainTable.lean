import OnetDns.Dns.Wire

/-!
# The table of domain names

`DomainTable` of `onetdns-filter/src/table.rs`: names in one text, entries that point
into it, and buckets of entries chained by their index. Names are kept as the bytes
of their text. An entry whose length is `deadLen` was removed.
-/
namespace OnetDns.Filter
open Dns

/-- Text as its UTF-8 bytes. -/
abbrev Str := Bytes

/-- `u32::MAX`, the mark of a removed entry and the bound of indices. -/
def deadLen : ℕ := 2 ^ 32 - 1

structure Entry where
  start : ℕ
  len : ℕ
  source : UInt32
  next : Option ℕ

structure DomainTable where
  text : Str
  entries : List Entry
  buckets : List (Option ℕ)
  hasher : Str → UInt64
  live : ℕ
  overflowed : Bool

namespace DomainTable

def default (hasher : Str → UInt64) : DomainTable := ⟨[], [], [], hasher, 0, false⟩

variable (t : DomainTable)

def isEmpty : Bool := t.live == 0

def slot (key : Str) : ℕ := (t.hasher key).toNat &&& (t.buckets.length - 1)

/-- `key_in`: the text of an entry. -/
def keyOf (entry : Entry) : Str := (t.text.drop entry.start).take entry.len

def isKey (key : Str) (entry : Entry) : Bool := entry.len ≠ deadLen && t.keyOf entry = key

/-- The walk along a bucket. Links go to older entries, so the number of entries is enough
fuel. -/
def findFrom (t : DomainTable) (key : Str) : (fuel : ℕ) → (cursor : Option ℕ) → Option ℕ
  | _, none => none
  | 0, some _ => none
  | fuel + 1, some index =>
    match t.entries[index]? with
    | none => none
    | some entry => if t.isKey key entry then some index else t.findFrom key fuel entry.next

/-- The index of the entry of a key. -/
def find (key : Str) : Option ℕ :=
  t.findFrom key t.entries.length (t.buckets[t.slot key]?.getD none)

/-- `get_key_value`, without the key, which the caller knows. -/
def get (key : Str) : Option UInt32 :=
  if t.buckets.isEmpty then none
  else (t.find key).bind fun index => t.entries[index]?.map Entry.source

/-- The entries that were not removed. -/
def iter : List (Str × UInt32) :=
  (t.entries.filter fun entry => entry.len ≠ deadLen).map fun entry => (t.keyOf entry, entry.source)

def keys : List Str := t.iter.map Prod.fst

end DomainTable

end OnetDns.Filter
