import OnetDns.Dhcp.IaMap
import OnetDns.Dhcp.LeasePool

/-!
# The pool of DHCPv6 leases

`Lease6Pool` of `onetdns-bin/src/dhcp6.rs`: the addresses leased and those offered, both by DUID and
IAID, and the set of addresses in use by either. Every reading of the clock is an argument, and
`none` is a panic. What is written to the lease file is left out; what is read from it is a list
of lines that are already split into their fields.
-/
namespace OnetDns.Dhcp6
open Dhcp (later never)

def MAX_LEASES : ℕ := 100000

def validDuid (duid : Duid) : Bool := MIN_DUID_LEN ≤ duid.length ∧ duid.length ≤ MAX_DUID_LEN

/-- `Ipv6Addr`, as the number it is. -/
abbrev Ipv6 := Fin (2 ^ 128)

structure Dhcp6Config where
  serverDuid : List UInt8
  rangeStart : Ipv6
  rangeStop : Ipv6
  dns : List Ipv6
  leaseSecs : UInt32

def leaseExpiry (now : ℕ) (lease : UInt32) : ℕ :=
  if lease = 0xffffffff then never else later now lease.toNat

/-- A line of the lease file that has the four fields it should have. -/
structure LeaseLine where
  duid : Duid
  iaid : Iaid
  ip : Ipv6
  expiry : UInt64

structure Loading where
  out : IaMap
  seenIps : Used
  malformed : Bool

/-- A line that makes the file one that is not read. -/
def Loading.spoil (s : Loading) : Loading := { s with malformed := true }

/-- One line of the file; `none` is one that does not have the four fields. -/
def loadLine (now : ℕ) (s : Loading) (line : Option LeaseLine) : Option Loading :=
  if s.out.len ≥ MAX_LEASES then some s.spoil
  else
    match line with
    | none => some s.spoil
    | some line =>
      if validDuid line.duid = false then some s.spoil
      else if line.expiry.toNat ≤ now then some s
      else if (s.out.get line.duid line.iaid).isSome then some s.spoil
      else if line.ip.val ∈ s.seenIps then some s.spoil
      else do
        let (_, out) ← s.out.insert line.duid (.new line.ip line.expiry.toNat line.iaid)
        some { s with out := out, seenIps := Insert.insert line.ip.val s.seenIps }

def loadLeases6 (now : ℕ) (lines : List (Option LeaseLine)) : Option IaMap := do
  let s ← lines.foldlM (loadLine now) ⟨.empty, ∅, false⟩
  some (if s.malformed then .empty else s.out)

structure Lease6Pool where
  start : ℕ
  stop : ℕ
  leaseSecs : UInt32
  leases : IaMap
  offers : IaMap
  used : Used
  exhausted : Bool
  allocationCursor : ℕ
  nextExpiry : ℕ

/-- `release_excess_capacity`, of which only the case of an empty map can be seen. -/
def IaMap.releaseExcessCapacity (m : IaMap) : IaMap := if m.isEmpty then .empty else m

namespace Lease6Pool

variable (p : Lease6Pool)

def dynamicEntries : ℕ := p.leases.len + p.offers.len

/-- The successor of an address in the range, which is a circle. -/
def next (candidate : ℕ) : ℕ := if candidate = p.stop then p.start else candidate + 1

/-- The loop of `seek_cursor_to_available`. -/
def seekLoop : (probes : ℕ) → (candidate : ℕ) → Option ℕ
  | 0, _ => none
  | probes + 1, candidate =>
    if candidate ∉ p.used then some candidate
    else if p.next candidate = p.start then none
    else seekLoop probes (p.next candidate)

def seekCursorToAvailable : Lease6Pool :=
  if p.start > p.stop then p
  else
    match p.seekLoop (p.used.card + 1) p.start with
    | some candidate => { p with allocationCursor := candidate }
    | none => p

/-- `Lease6Pool::new`, with the readings of the clock for the file and for the pool. -/
def new (cfg : Dhcp6Config) (file : ℕ) (lines : List (Option LeaseLine)) (now : ℕ) :
    Option Lease6Pool := do
  let leases ← loadLeases6 file lines
  let (leases, used) ← leases.retainValid now cfg.rangeStart cfg.rangeStop ∅
  let pool : Lease6Pool := {
    start := cfg.rangeStart
    stop := cfg.rangeStop
    leaseSecs := cfg.leaseSecs
    leases := leases
    offers := .empty
    used := used
    exhausted := false
    allocationCursor := cfg.rangeStart
    nextExpiry := leases.nextExpiry }
  some pool.seekCursorToAvailable

def reconfigure (cfg : Dhcp6Config) (now : ℕ) : Option Lease6Pool := do
  let (leases, used) ← p.leases.retainValid now cfg.rangeStart cfg.rangeStop ∅
  let pool : Lease6Pool := {
    start := cfg.rangeStart
    stop := cfg.rangeStop
    leaseSecs := cfg.leaseSecs
    leases := leases
    offers := .empty
    used := used
    exhausted := false
    allocationCursor := cfg.rangeStart
    nextExpiry := leases.nextExpiry }
  some pool.seekCursorToAvailable

/-- Where both maps are empty nothing is kept, and no address either. -/
def clear : Lease6Pool := { p with leases := .empty, offers := .empty, used := ∅ }

def cleanupExpired (now : ℕ) : Option Lease6Pool :=
  if now < p.nextExpiry then some p
  else do
    let (leases, used) ← p.leases.removeExpired now p.used
    let (offers, used) ← p.offers.removeExpired now used
    let swept := { p with
      leases := leases
      offers := offers
      used := used
      nextExpiry := min leases.nextExpiry offers.nextExpiry }
    if leases.isEmpty && offers.isEmpty then some swept.clear
    else some { swept with
      leases := leases.releaseExcessCapacity
      offers := offers.releaseExcessCapacity }

def noteAvailability (picked : Option ℕ) : Option ℕ × Lease6Pool :=
  (picked, { p with exhausted := picked.isNone })

/-- The loop of `allocate`: the address picked, and the one after it. -/
def searchLoop (initial : ℕ) : (probes : ℕ) → (candidate : ℕ) → Option (ℕ × ℕ)
  | 0, _ => none
  | probes + 1, candidate =>
    if candidate ∉ p.used then some (candidate, p.next candidate)
    else if p.next candidate = initial then none
    else searchLoop initial probes (p.next candidate)

/-- The address of an entry that is not over yet. -/
def unexpired (value : Option IaValue) (now : ℕ) : Option ℕ :=
  (value.filter fun value => value.expiry > now).map (·.ip)

/-- The part of `allocate` that looks for a new address. -/
def pick : Option ℕ × Lease6Pool :=
  if p.start > p.stop then p.noteAvailability none
  else
    let candidate := if p.allocationCursor ≥ p.start ∧ p.allocationCursor ≤ p.stop
      then p.allocationCursor else p.start
    match p.searchLoop candidate (p.used.card + 1) candidate with
    | some (picked, next) =>
      { p with allocationCursor := next }.noteAvailability (some picked)
    | none => p.noteAvailability none

variable (duid : Duid)

variable (iaid : Iaid)

def allocate (now : ℕ) : Option (Option ℕ × Lease6Pool) :=
  if unfit duid then some (none, p)
  else do
    let p ← p.cleanupExpired now
    let lease := p.leases.get duid iaid
    let offer := p.offers.get duid iaid
    match unexpired lease now, unexpired offer now with
    | some ip, _ => some (some ip, p)
    | none, some ip => some (some ip, p)
    | none, none =>
      if lease.isNone && offer.isNone && p.dynamicEntries ≥ MAX_LEASES then
        some (p.noteAvailability none)
      else some p.pick

/-- The address that an entry had is not in use any more, if the entry has another now. -/
def vacate (used : Used) (old : Option IaValue) (ip : ℕ) : Used :=
  match old with
  | some old => if old.ip ≠ ip then used.erase old.ip else used
  | none => used

def holdOffer (ip now : ℕ) : Option (Bool × Lease6Pool) :=
  if unfit duid then some (false, p)
  else if ip < p.start ∨ ip > p.stop then some (false, p)
  else do
    let p ← p.cleanupExpired now
    let ownOffer := (p.offers.get duid iaid).map (·.ip)
    if (p.leases.get duid iaid).any fun value => value.ip = ip ∧ value.expiry > now then
      some (true, p)
    else if ip ∈ p.used ∧ ownOffer ≠ some ip then some (false, p)
    else if ownOffer = none ∧ p.dynamicEntries ≥ MAX_LEASES then some (false, p)
    else
      let expiry := later now 60
      let (old, offers) ← p.offers.insert duid (.new ip expiry iaid)
      some (true, { p with
        offers := offers
        used := Insert.insert ip (vacate p.used old ip)
        nextExpiry := min p.nextExpiry expiry })

/-- The address of an entry that was taken out is not in use any more. -/
def giveBack (used : Used) (old : Option IaValue) : Used :=
  match old with
  | some old => used.erase old.ip
  | none => used

/-- `offers.remove`, with the address given back. -/
def dropOffer : Option Lease6Pool := do
  let (offer, offers) ← p.offers.remove duid iaid
  some { p with offers := offers, used := giveBack p.used offer }

/-- `leases.insert`, with the set of addresses and the next expiry adjusted. -/
def storeLease (ip expiry : ℕ) : Option Lease6Pool := do
  let (old, leases) ← p.leases.insert duid (.new ip expiry iaid)
  some { p with
    leases := leases
    used := Insert.insert ip (vacate p.used old ip)
    nextExpiry := min p.nextExpiry expiry }

/-- `commit_inner` without the file. -/
def commitInner (ip : ℕ) (requireOffer : Bool) (now : ℕ) :
    Option (Bool × Lease6Pool) :=
  if unfit duid then some (false, p)
  else do
    let p ← p.cleanupExpired now
    let ownIp := (p.leases.get duid iaid).map (·.ip)
    let offeredIp := unexpired (p.offers.get duid iaid) now
    if ip < p.start ∨ ip > p.stop then some (false, p)
    else if requireOffer ∧ offeredIp ≠ some ip ∧ ownIp ≠ some ip then some (false, p)
    else if ip ∈ p.used ∧ ownIp ≠ some ip ∧ offeredIp ≠ some ip then some (false, p)
    else if ownIp = none ∧ offeredIp = none ∧ p.dynamicEntries ≥ MAX_LEASES then some (false, p)
    else
      let p ← (if offeredIp.isSome then p.dropOffer duid iaid else some p)
      let p ← p.storeLease duid iaid ip (leaseExpiry now p.leaseSecs)
      some (true, p)

def commitOffer (ip now : ℕ) : Option (Bool × Lease6Pool) := p.commitInner duid iaid ip true now

def renew (ip now : ℕ) : Option (Bool × Lease6Pool) :=
  if unfit duid then some (false, p)
  else do
    let p ← p.cleanupExpired now
    match p.leases.get duid iaid with
    | none => some (false, p)
    | some value =>
      if value.ip ≠ ip ∨ value.expiry ≤ now then some (false, p)
      else
        let newExpiry := leaseExpiry now p.leaseSecs
        some (true, { p with
          leases := p.leases.modify duid iaid fun value => { value with expiry := newExpiry }
          nextExpiry := min p.nextExpiry newExpiry })

def offeredAddress (now : ℕ) : Option ℕ :=
  (unexpired (p.offers.get duid iaid) now).or (unexpired (p.leases.get duid iaid) now)

def leasedAddress (now : ℕ) : Option ℕ := unexpired (p.leases.get duid iaid) now

def releaseAddress (ip now : ℕ) : Option (Bool × Lease6Pool) :=
  if unfit duid then some (false, p)
  else if (p.leases.get duid iaid).any (fun value => value.ip = ip ∧ value.expiry > now) = false then
    some (false, p)
  else do
    let (released, leases) ← p.leases.remove duid iaid
    match released with
    | none => some (false, { p with leases := leases })
    | some released =>
      let freed := { p with leases := leases, used := p.used.erase released.ip }
      if leases.isEmpty && p.offers.isEmpty then some (true, freed.clear)
      else some (true, { freed with leases := leases.releaseExcessCapacity })

end Lease6Pool

end OnetDns.Dhcp6
