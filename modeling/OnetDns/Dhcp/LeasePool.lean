import OnetDns.Dhcp.Message
import OnetDns.Lib.Tally

/-!
# The pool of DHCPv4 leases

`LeasePool` of `onetdns-bin/src/dhcp.rs`: leases, offers, declined addresses and reservations, and
the index of how often each address is named by them. Every reading of the clock is an argument.
What is written to the lease files is left out; what is read from them is a list of lines that
are already split into their fields.
-/
namespace OnetDns.Dhcp
open Tally

def MAX_STATE_ENTRIES : ℕ := 100000

/-- `u64::MAX`. -/
def never : ℕ := 2 ^ 64 - 1

/-- `saturating_add` of `u64`. -/
def later (now secs : ℕ) : ℕ := min (now + secs) never

def leaseExpiry (now : ℕ) (lease : UInt32) : ℕ :=
  if lease = 0xffffffff then never else later now lease.toNat

structure Lease where
  mac : Mac
  ip : UInt32
  expiry : ℕ
  hostname : Option String
  deriving DecidableEq

structure Offer where
  ip : UInt32
  xid : UInt32
  expiry : ℕ

abbrev Leases := AList fun _ : ClientIdentity => Lease
abbrev Offers := AList fun _ : ClientIdentity => Offer
abbrev Declined := AList fun _ : UInt32 => ℕ
abbrev Reservations := AList fun _ : ClientIdentity => UInt32 × Option String
abbrev AddressUse := AList fun _ : UInt32 => ℕ

structure LeasePool where
  start : UInt32
  stop : UInt32
  leaseSecs : UInt32
  leases : Leases
  offers : Offers
  declined : Declined
  reservations : Reservations
  addressUse : AddressUse
  staticPersist : Option String
  subnetMask : UInt32
  serverIp : UInt32
  router : UInt32
  exhausted : Bool
  dynamicLimited : Bool
  reservationsLimited : Bool
  allocationCursor : UInt32
  nextExpiry : ℕ

variable (ip : UInt32)

def leaseAt (_ : ClientIdentity) (lease : Lease) : Bool := lease.ip = ip

def offerAt (_ : ClientIdentity) (offer : Offer) : Bool := offer.ip = ip

def declinedAt (declined : UInt32) (_ : ℕ) : Bool := declined = ip

def reservedAt (_ : ClientIdentity) (reserved : UInt32 × Option String) : Bool := reserved.1 = ip

def occupyIn (use : AddressUse) (ip : UInt32) : AddressUse :=
  use.insert ip (min ((use.lookup ip).getD 0 + 1) (2 ^ 32 - 1))

def vacateIn (use : AddressUse) (ip : UInt32) : AddressUse :=
  match use.lookup ip with
  | none => use
  | some count => if count ≤ 1 then use.erase ip else use.insert ip (count - 1)

/-- An entry that named `old` names `ip` now. -/
def moveIn (use : AddressUse) (old : Option UInt32) (ip : UInt32) : AddressUse :=
  match old with
  | some old => if old ≠ ip then occupyIn (vacateIn use old) ip else use
  | none => occupyIn use ip

/-- `retain` over a map whose dropped entries give their address back. -/
def retainIn {κ β : Type} [DecidableEq κ] (live : κ → β → Bool) (ip : κ → β → UInt32)
    (m : AList fun _ : κ => β) (use : AddressUse) : AddressUse :=
  (dropped live m).foldl (fun use entry => vacateIn use (ip entry.1 entry.2)) use

def earliest (expiries : List ℕ) : ℕ := expiries.foldr min never

namespace LeasePool

variable (p : LeasePool)

def net : UInt32 := p.serverIp &&& p.subnetMask

def bcast : UInt32 := p.net ||| ~~~p.subnetMask

/-- The addresses of the range that are never given out, with repetitions. -/
def serviceAddresses : List UInt32 :=
  [p.serverIp, p.router, p.net, p.bcast].filter fun ip => p.start ≤ ip ∧ ip ≤ p.stop

def dynamicEntries : ℕ := size p.leases + size p.offers + size p.declined

/-- `admit_state`: below the limit, and the flag that tells whether the limit was met. -/
def admitState (entries : ℕ) : Bool × Bool :=
  if entries < MAX_STATE_ENTRIES then (true, false) else (false, true)

def admitDynamicAfterRemoving (removing : ℕ) : Bool × LeasePool :=
  let (admitted, limited) := admitState (p.dynamicEntries - removing)
  (admitted, { p with dynamicLimited := limited })

/-- A slot is asked for, unless the step needs none. -/
def admitUnless (needless : Prop) [Decidable needless] (removing : ℕ) : Bool × LeasePool :=
  if needless then (true, p) else p.admitDynamicAfterRemoving removing

variable (identity : ClientIdentity)

variable (ip : UInt32)

def ownAddressReferences : ℕ :=
  share (leaseAt ip) p.leases identity + share (offerAt ip) p.offers identity +
    share (reservedAt ip) p.reservations identity

def addressUsedByOtherInner : Bool :=
  (p.addressUse.lookup ip).getD 0 > p.ownAddressReferences identity ip

def expiries : List ℕ :=
  p.leases.entries.map (·.2.expiry) ++ p.offers.entries.map (·.2.expiry) ++
    p.declined.entries.map (·.2)

def rebuildAddressUse : LeasePool :=
  let use := p.serviceAddresses.foldl occupyIn ∅
  let use := (p.leases.entries.map (·.2.ip)).foldl occupyIn use
  let use := (p.offers.entries.map (·.2.ip)).foldl occupyIn use
  let use := p.declined.keys.foldl occupyIn use
  let use := (p.reservations.entries.map (·.2.1)).foldl occupyIn use
  { p with addressUse := use, nextExpiry := earliest p.expiries }

variable (now : ℕ)

def cleanupExpired : LeasePool :=
  if now < p.nextExpiry then p else
    let use := retainIn (fun _ lease => now < lease.expiry) (fun _ lease => lease.ip) p.leases
      p.addressUse
    let use := retainIn (fun _ offer => now < offer.expiry) (fun _ offer => offer.ip) p.offers use
    let use := retainIn (fun _ expiry => now < expiry) (fun ip _ => ip) p.declined use
    let swept := { p with
      leases := keep (fun _ lease => now < lease.expiry) p.leases
      offers := keep (fun _ offer => now < offer.expiry) p.offers
      declined := keep (fun _ expiry => now < expiry) p.declined
      addressUse := use }
    { swept with nextExpiry := earliest swept.expiries }

def addressUsedByOther : Bool × LeasePool :=
  let p := p.cleanupExpired now
  (p.addressUsedByOtherInner identity ip, p)

/-- The successor of an address in the range, which is a circle. -/
def next (candidate : UInt32) : UInt32 := if candidate = p.stop then p.start else candidate + 1

/-- The loop of `pick_available`, and where it leaves the cursor. -/
def probe : (probes : ℕ) → (candidate : UInt32) → Option UInt32 × UInt32
  | 0, candidate => (none, candidate)
  | probes + 1, candidate =>
    if candidate ∈ p.addressUse then probe probes (p.next candidate)
    else (some candidate, p.next candidate)

def span : ℕ := p.stop.toNat - p.start.toNat + 1

def pickAvailable : Option UInt32 × LeasePool :=
  if p.start > p.stop then (none, p) else
    let probes := min p.span (size p.addressUse + 1)
    let candidate := if p.start ≤ p.allocationCursor ∧ p.allocationCursor ≤ p.stop
      then p.allocationCursor else p.start
    let (picked, cursor) := p.probe probes candidate
    (picked, { p with allocationCursor := cursor })

/-- `leases.remove`, with the address given back. -/
def dropLease : LeasePool :=
  match p.leases.lookup identity with
  | some lease =>
    { p with leases := p.leases.erase identity, addressUse := vacateIn p.addressUse lease.ip }
  | none => p

/-- `offers.remove`, with the address given back. -/
def dropOffer : LeasePool :=
  match p.offers.lookup identity with
  | some offer =>
    { p with offers := p.offers.erase identity, addressUse := vacateIn p.addressUse offer.ip }
  | none => p

/-- `leases.insert`, with the index and the next expiry adjusted. -/
def storeLease (lease : Lease) : LeasePool :=
  { p with
    leases := p.leases.insert identity lease
    addressUse := moveIn p.addressUse ((p.leases.lookup identity).map (·.ip)) lease.ip
    nextExpiry := min p.nextExpiry lease.expiry }

/-- `offers.insert`, with the index and the next expiry adjusted. -/
def storeOffer (offer : Offer) : LeasePool :=
  { p with
    offers := p.offers.insert identity offer
    addressUse := moveIn p.addressUse ((p.offers.lookup identity).map (·.ip)) offer.ip
    nextExpiry := min p.nextExpiry offer.expiry }

/-- `declined.insert`, with the index and the next expiry adjusted. -/
def storeDeclined (expiry : ℕ) : LeasePool :=
  { p with
    declined := p.declined.insert ip expiry
    addressUse := if ip ∈ p.declined then p.addressUse else occupyIn p.addressUse ip
    nextExpiry := min p.nextExpiry expiry }

/-- `reservations.insert`, with the index adjusted. -/
def storeReservation (hostname : Option String) :
    LeasePool :=
  { p with
    reservations := p.reservations.insert identity (ip, hostname)
    addressUse := moveIn p.addressUse ((p.reservations.lookup identity).map (·.1)) ip }

def validateReservationIp : Except String Unit :=
  if ip &&& p.subnetMask ≠ p.net then .error (showIpv4 ip ++ " 는 서버 서브넷 밖")
  else if ip = p.net ∨ ip = p.bcast then
    .error (showIpv4 ip ++ " 는 네트워크/브로드캐스트 주소")
  else if ip = p.serverIp ∨ ip = p.router then
    .error (showIpv4 ip ++ " 는 서버/게이트웨이 주소")
  else .ok ()

/-- The identities whose reservation is not valid or repeats an address, in the map's order. -/
def invalidReservations : (entries : List (Sigma fun _ : ClientIdentity => UInt32 × Option String)) →
    (seen : List UInt32) → List ClientIdentity
  | [], _ => []
  | ⟨identity, (ip, _)⟩ :: rest, seen =>
    if (p.validateReservationIp ip).isOk = false ∨ ip ∈ seen then
      identity :: invalidReservations rest seen
    else invalidReservations rest (ip :: seen)

def isReservedByOther (identity : ClientIdentity) : Bool :=
  p.reservations.entries.any fun e => e.2.1 = ip ∧ e.1 ≠ identity

/-- What `revalidate_loaded_state` asks of a lease, apart from the address being the first. No two
reservations are left with one address, so the owner it looks up is any that has the address. -/
def leaseAllowed (identity : ClientIdentity) (lease : Lease) : Bool :=
  let addressAllowed := match p.reservations.lookup identity with
    | some (reserved, _) => decide (reserved = lease.ip)
    | none => p.start ≤ lease.ip ∧ lease.ip ≤ p.stop ∧ lease.ip ≠ p.serverIp ∧
        lease.ip ≠ p.router ∧ lease.ip ≠ p.net ∧ lease.ip ≠ p.bcast
  decide (now < lease.expiry) && addressAllowed && !p.isReservedByOther lease.ip identity

/-- The `retain` of `revalidate_loaded_state`: of two leases of one address the first stays. -/
def retainedLeases (now : ℕ) : (entries : List (Sigma fun _ : ClientIdentity => Lease)) →
    (leaseIps : List UInt32) → List (Sigma fun _ : ClientIdentity => Lease)
  | [], _ => []
  | ⟨identity, lease⟩ :: rest, leaseIps =>
    if p.leaseAllowed now identity lease ∧ lease.ip ∉ leaseIps then
      ⟨identity, lease⟩ :: retainedLeases now rest (lease.ip :: leaseIps)
    else retainedLeases now rest leaseIps

def revalidateLoadedState : LeasePool :=
  let invalid := p.invalidReservations p.reservations.entries []
  let p := { p with reservations := keep (fun identity _ => identity ∉ invalid) p.reservations }
  let retained := p.retainedLeases now p.leases.entries []
  { p with leases := keep (fun identity lease => ⟨identity, lease⟩ ∈ retained) p.leases }

def holdOffer (xid ip : UInt32) (now : ℕ) : Bool × LeasePool :=
  let p := p.cleanupExpired now
  let (admitted, p) := p.admitUnless (identity ∈ p.offers) 0
  if admitted then (true, p.storeOffer identity ⟨ip, xid, later now 60⟩) else (false, p)

def consumeOffer (xid ip : UInt32) (now : ℕ) : Bool × LeasePool :=
  let p := p.cleanupExpired now
  let valid := (p.offers.lookup identity).any fun offer =>
    offer.ip = ip ∧ offer.xid = xid ∧ now < offer.expiry
  if valid then (true, p.dropOffer identity) else (false, p)

/-- Whether a client holds an address by an offer or by a live lease. -/
def owns : Bool :=
  ((p.offers.lookup identity).any fun offer => offer.ip = ip) ||
    (p.leases.lookup identity).any fun lease => lease.ip = ip ∧ now < lease.expiry

def decline : LeasePool :=
  let p := p.cleanupExpired now
  let owns := p.owns identity ip now
  let (admitted, p) := p.admitUnless (¬owns ∨ ip ∈ p.declined)
    ((p.leases.lookup identity).isSome.toNat + (p.offers.lookup identity).isSome.toNat)
  if admitted then
    let p := (p.dropLease identity).dropOffer identity
    if owns ∧ p.start ≤ ip ∧ ip ≤ p.stop then p.storeDeclined ip (later now 600) else p
  else p

def allocate : Option UInt32 × LeasePool :=
  match p.reservations.lookup identity with
  | some (ip, _) => (some ip, p)
  | none =>
    let p := p.cleanupExpired now
    match (p.offers.lookup identity).filter fun offer => now < offer.expiry with
    | some offer => (some offer.ip, p)
    | none =>
      match (p.leases.lookup identity).filter fun lease => now < lease.expiry with
      | some lease => (some lease.ip, p)
      | none =>
        let (admitted, p) := p.admitUnless False 0
        if admitted then
          let (picked, p) := p.pickAvailable
          (picked, { p with exhausted := picked.isNone })
        else (none, p)

def reservationIp : Option UInt32 := (p.reservations.lookup identity).map (·.1)

def addReservation (hostname : Option String)
    (now : ℕ) : Except String Unit × LeasePool :=
  if hostname.any fun value => !validHostname value then
    (.error "hostname 값은 1~255바이트이며 공백이나 제어문자를 포함할 수 없습니다", p)
  else match p.validateReservationIp ip with
  | .error e => (.error e, p)
  | .ok () =>
    if p.isReservedByOther ip identity then
      (.error ("IP " ++ showIpv4 ip ++ " 는 이미 다른 클라이언트 식별자에 예약됨"), p)
    else
      let (admitted, p) :=
        if identity ∈ p.reservations then (true, p) else
          let (admitted, limited) := admitState (size p.reservations)
          (admitted, { p with reservationsLimited := limited })
      if admitted then
        let stale := p.leases.entries.filter fun e =>
          e.2.ip = ip ∧ now < e.2.expiry ∧ e.1 ≠ identity
        let p := (stale.map (·.1)).foldl dropLease p
        (.ok (), p.storeReservation identity ip hostname)
      else
        (.error ("DHCPv4 고정 할당은 최대 " ++ toString MAX_STATE_ENTRIES ++ "개입니다"), p)

def removeReservation : Bool × LeasePool :=
  match p.reservations.lookup identity with
  | some (ip, _) =>
    (true, { p with reservations := p.reservations.erase identity,
                    addressUse := vacateIn p.addressUse ip })
  | none => (false, p)

/-- The part of `commit` and `insert` behind their checks. -/
def grant (lease : Lease) : Bool × LeasePool :=
  let (admitted, p) := p.admitUnless (identity ∈ p.leases) (p.offers.lookup identity).isSome.toNat
  if admitted then (true, (p.dropOffer identity).storeLease identity lease) else (false, p)

def commit (mac : Mac) (ip : UInt32) (hostname : Option String)
    (now : ℕ) : Bool × LeasePool :=
  if hostname.any fun value => !validHostname value then (false, p) else
    let hostname := ((p.reservations.lookup identity).bind (·.2)).or
      (hostname.or ((p.leases.lookup identity).bind (·.hostname)))
    (p.cleanupExpired now).grant identity ⟨mac, ip, leaseExpiry now p.leaseSecs, hostname⟩

def validateSyncedLeaseInner : Except String Unit :=
  match p.reservations.lookup identity with
  | some (reserved, _) =>
    if reserved ≠ ip then
      .error ("클라이언트 " ++ identity.toText ++ " 는 IP " ++ showIpv4 reserved ++
        " 에 고정되어 있습니다")
    else inUse
  | none =>
    if ip < p.start ∨ p.stop < ip then
      .error ("IP " ++ showIpv4 ip ++ " 는 DHCP 동적 범위 밖입니다")
    else inUse
where
  inUse : Except String Unit :=
    if p.addressUsedByOtherInner identity ip then
      .error ("IP " ++ showIpv4 ip ++ " 는 이미 다른 DHCP 상태가 사용 중입니다")
    else .ok ()

def insert (mac : Mac) (ip : UInt32) (expiryUnix : ℕ)
    (hostname : Option String) (now : ℕ) : Bool × LeasePool :=
  if hostname.any fun value => !validHostname value then (false, p) else
    let p := p.cleanupExpired now
    if expiryUnix ≤ now then (false, p)
    else match p.validateSyncedLeaseInner identity ip with
    | .error _ => (false, p)
    | .ok () =>
      if (p.leases.lookup identity).any fun existing =>
          expiryUnix ≤ existing.expiry ∧ existing.ip = ip then (false, p)
      else p.grant identity ⟨mac, ip, expiryUnix, hostname⟩

def release : LeasePool :=
  if (p.leases.lookup identity).any fun lease => lease.ip = ip then p.dropLease identity else p

end LeasePool
end OnetDns.Dhcp
