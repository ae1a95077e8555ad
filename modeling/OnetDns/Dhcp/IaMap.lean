import Mathlib.Tactic
import Mathlib.Data.List.AList
import Mathlib.Data.Finset.Basic

/-!
# Addresses by DUID and IAID

`IaMap` of `onetdns-bin/src/dhcp6.rs`. The first IA of a DUID is stored under the DUID; its other
IAs are stored under keys made of both names, and are linked in both directions, a link to itself
being the mark of an end. `none` is a panic: a link that leads to no value.
-/
namespace OnetDns.Dhcp6

def MIN_DUID_LEN : ℕ := 3
def MAX_DUID_LEN : ℕ := 130

abbrev Duid := List UInt8
abbrev Iaid := Vector UInt8 4

/-- `HashSet<u128>`. -/
abbrev Used := Finset ℕ

structure IaValue where
  ip : ℕ
  expiry : ℕ
  iaid : Iaid
  link : Iaid

def IaValue.new (ip expiry : ℕ) (iaid : Iaid) : IaValue := ⟨ip, expiry, iaid, iaid⟩

structure AdditionalIaValue where
  value : IaValue
  previous : Iaid

abbrev Primary := AList fun _ : Duid => IaValue
abbrev Additional := AList fun _ : List UInt8 => AdditionalIaValue

/-- A DUID that has no keys for other IAs. -/
def unfit (duid : Duid) : Prop := duid = [] ∨ duid.length > MAX_DUID_LEN

instance (duid : Duid) : Decidable (unfit duid) := inferInstanceAs (Decidable (_ ∨ _))

/-- `secondary_ia_key`, over a storage of zeros. -/
def secondaryIaKey (duid : Duid) (iaid : Iaid) : Option (List UInt8) :=
  if unfit duid then none
  else some (UInt8.ofNat duid.length ::
    (duid ++ List.replicate (MAX_DUID_LEN - duid.length) 0) ++ iaid.toList)

variable (additional : Additional)

def additionalAt (duid : Duid) (iaid : Iaid) : Option AdditionalIaValue :=
  (secondaryIaKey duid iaid).bind additional.lookup

/-- A value that has to be there is changed. -/
def relink (duid : Duid) (iaid : Iaid)
    (f : AdditionalIaValue → AdditionalIaValue) : Option Additional := do
  let key ← secondaryIaKey duid iaid
  let a ← additional.lookup key
  some (additional.insert key (f a))

/-- The first of the other IAs is taken out, to be the first of all. -/
def promote (duid : Duid) (head : Iaid) :
    Option (IaValue × Additional) := do
  let key ← secondaryIaKey duid head
  let promoted ← additional.lookup key
  let rest := additional.erase key
  if promoted.value.link ≠ promoted.value.iaid then
    let rest ← relink rest duid promoted.value.link fun next =>
      { next with previous := next.value.iaid }
    some (promoted.value, rest)
  else some (promoted.value, rest)

structure IaMap where
  primary : Primary
  additional : Additional

namespace IaMap

/-- `IaMap::default`. -/
def empty : IaMap := ⟨∅, ∅⟩

variable (m : IaMap)

variable (duid : Duid)

def get (iaid : Iaid) : Option IaValue := do
  let first ← m.primary.lookup duid
  if first.iaid = iaid then some first
  else (additionalAt m.additional duid iaid).map (·.value)

/-- `get_mut`, and what is done to the value. -/
def modify (iaid : Iaid) (f : IaValue → IaValue) : IaMap :=
  match m.primary.lookup duid with
  | none => m
  | some first =>
    if first.iaid = iaid then { m with primary := m.primary.insert duid (f first) }
    else
      match relink m.additional duid iaid fun a => { a with value := f a.value } with
      | none => m
      | some additional => { m with additional := additional }

def insert (duid : Duid) (value : IaValue) : Option (Option IaValue × IaMap) :=
  if unfit duid then some (none, m)
  else
    match m.primary.lookup duid with
    | none =>
      some (none, { m with primary := m.primary.insert duid { value with link := value.iaid } })
    | some first =>
      if first.iaid = value.iaid then
        some (some first,
          { m with primary := m.primary.insert duid { value with link := first.link } })
      else
        match secondaryIaKey duid value.iaid with
        | none => some (none, m)
        | some key =>
          match m.additional.lookup key with
          | some a =>
            let renewed := { a with value := { value with link := a.value.link } }
            some (some a.value, { m with additional := m.additional.insert key renewed })
          | none => do
            let primary := m.primary.insert duid { first with link := value.iaid }
            if first.link ≠ first.iaid then
              let additional ← relink m.additional duid first.link fun head =>
                { head with previous := value.iaid }
              some (none, ⟨primary,
                additional.insert key ⟨{ value with link := first.link }, value.iaid⟩⟩)
            else
              some (none, ⟨primary,
                m.additional.insert key ⟨{ value with link := value.iaid }, value.iaid⟩⟩)

/-- The second half of `remove`: another IA is taken out, between its neighbours. -/
def removeAdditional (iaid : Iaid) : Option (Option IaValue × IaMap) :=
  match secondaryIaKey duid iaid with
  | none => some (none, m)
  | some key =>
    match m.additional.lookup key with
    | none => some (none, m)
    | some removed => do
      let rest := m.additional.erase key
      let next := removed.value.link
      let (primary, rest) ← (
        if removed.previous = iaid then do
          let first ← m.primary.lookup duid
          let link := if next = iaid then first.iaid else next
          some (m.primary.insert duid { first with link := link }, rest)
        else do
          let rest ← relink rest duid removed.previous fun previous =>
            { previous with value := { previous.value with
              link := if next = iaid then previous.value.iaid else next } }
          some (m.primary, rest))
      let rest ← (
        if next ≠ iaid then
          relink rest duid next fun a => { a with
            previous := if removed.previous = iaid then a.value.iaid else removed.previous }
        else some rest)
      some (some removed.value, ⟨primary, rest⟩)

def remove (iaid : Iaid) : Option (Option IaValue × IaMap) :=
  match m.primary.lookup duid with
  | none => some (none, m)
  | some first =>
    if first.iaid = iaid then
      if first.link ≠ first.iaid then
        if unfit duid then some (none, { m with primary := m.primary.erase duid })
        else do
          let (promoted, additional) ← promote m.additional duid first.link
          some (some first, ⟨(m.primary.erase duid).insert duid promoted, additional⟩)
      else some (some first, { m with primary := m.primary.erase duid })
    else m.removeAdditional duid iaid

def len : ℕ := m.primary.entries.length + m.additional.entries.length

def isEmpty : Bool := m.primary.entries.isEmpty

def values : List IaValue := m.primary.entries.map (·.2) ++ m.additional.entries.map (·.2.value)

/-- The earliest expiry, or `u64::MAX`. -/
def nextExpiry : ℕ := (m.values.map (·.expiry)).foldr min (2 ^ 64 - 1)

/-- Whether a value with some address and expiry stays, and the addresses in use after that. -/
abbrev Test := (ip expiry : ℕ) → Used → Bool × Used

/-- The loop of the first pass: the first value that stays is the first of its DUID. -/
def promoteLoop (keep : Test) (duid : Duid) :
    (fuel : ℕ) → IaValue → Additional → Used → Option (Option IaValue × Additional × Used)
  | 0, _, _, _ => none
  | fuel + 1, first, additional, used =>
    let (kept, used) := keep first.ip first.expiry used
    if kept then some (some first, additional, used)
    else if first.link = first.iaid then some (none, additional, used)
    else do
      let (promoted, additional) ← promote additional duid first.link
      promoteLoop keep duid fuel promoted additional used

/-- The first pass, over the DUIDs. -/
def retainFirst (keep : Test) :
    List (Sigma fun _ : Duid => IaValue) → IaMap → Used → Option (IaMap × Used)
  | [], m, used => some (m, used)
  | ⟨duid, first⟩ :: rest, m, used => do
    let (kept, additional, used) ←
      promoteLoop keep duid (m.additional.entries.length + 1) first m.additional used
    let primary := match kept with
      | some value => m.primary.insert duid value
      | none => m.primary.erase duid
    retainFirst keep rest ⟨primary, additional⟩ used

/-- What is before an IA that goes gets its link: another IA, or the first one. -/
def leadPast (rest : Additional) (duid : Duid) (previous : Option Iaid) (first : IaValue)
    (next current : Iaid) : Option (IaValue × Additional) :=
  match previous with
  | some previous => do
    let rest ← relink rest duid previous fun a => { a with value := { a.value with
      link := if next ≠ current then next else previous } }
    some (first, rest)
  | none => some ({ first with link := if next ≠ current then next else first.iaid }, rest)

/-- The loop of the second pass: the other IAs of a DUID, one after the other. -/
def chainLoop (keep : Test) (duid : Duid) :
    (fuel : ℕ) → (previous : Option Iaid) → (current : Iaid) → (first : IaValue) → Additional →
      Used → Option (IaValue × Additional × Used)
  | 0, _, _, _, _, _ => none
  | fuel + 1, previous, current, first, additional, used => do
    let key ← secondaryIaKey duid current
    let entry ← additional.lookup key
    let next := entry.value.link
    let (kept, used) := keep entry.value.ip entry.value.expiry used
    if kept then
      if next ≠ current then
        chainLoop keep duid fuel (some current) next first additional used
      else some (first, additional, used)
    else
      let rest := additional.erase key
      let (first, rest) ← leadPast rest duid previous first next current
      if next ≠ current then
        let rest ← relink rest duid next fun a => { a with previous := previous.getD next }
        chainLoop keep duid fuel previous next first rest used
      else some (first, rest, used)

/-- The second pass, over the DUIDs that are left. -/
def retainMore (keep : Test) :
    List (Sigma fun _ : Duid => IaValue) → IaMap → Used → Option (IaMap × Used)
  | [], m, used => some (m, used)
  | ⟨duid, first⟩ :: rest, m, used =>
    if first.link = first.iaid then retainMore keep rest m used
    else do
      let (first, additional, used) ←
        chainLoop keep duid (m.additional.entries.length + 1) none first.link first m.additional used
      retainMore keep rest ⟨m.primary.insert duid first, additional⟩ used

/-- Both passes. -/
def sweep (keepFirst keepMore : Test) (used : Used) : Option (IaMap × Used) := do
  let (m, used) ← retainFirst keepFirst m.primary.entries m used
  retainMore keepMore m.primary.entries m used

/-- An address that is not in use yet is taken. -/
def take (valid : Bool) (ip : ℕ) (used : Used) : Bool × Used :=
  if valid ∧ ip ∉ used then (true, Insert.insert ip used) else (false, used)

def removeExpired (now : ℕ) (used : Used) : Option (IaMap × Used) :=
  let live : Test := fun ip expiry used =>
    if expiry > now then (true, used) else (false, used.erase ip)
  m.sweep live live used

def retainValid (now start stop : ℕ) (used : Used) : Option (IaMap × Used) :=
  m.sweep
    (fun ip expiry used =>
      take (expiry > now && start ≤ stop && start ≤ ip && ip ≤ stop) ip used)
    (fun ip expiry used => take (expiry > now && start ≤ ip && ip ≤ stop) ip used) used

end IaMap

end OnetDns.Dhcp6
