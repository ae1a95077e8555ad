import OnetDns.Dhcp.LeasePool

/-!
# The DHCPv4 server

How a pool is made and brought in line with a new configuration, and `handle`, which answers one
message of a client. One call reads the clock up to three times.
-/
namespace OnetDns.Dhcp
open Tally

/-- What a file holds: its lines after the header, each split into fields unless it has another
form. -/
inductive FileText (Line : Type) where
  | missing
  | failed (error : String)
  | body (lines : List (Option Line))

structure ReservationLine where
  identity : ClientIdentity
  ip : UInt32
  hostname : Option String

structure LeaseLine extends ReservationLine where
  mac : Mac
  expiry : ℕ

/-- The loop of `read_reservations`. -/
def readReservationLines (shown : String) : (lines : List (Option ReservationLine)) →
    (lineNo : ℕ) → (out : Reservations) → Except String Reservations
  | [], _, out => .ok out
  | line :: rest, lineNo, out =>
    if size out ≥ MAX_STATE_ENTRIES then
      .error ("DHCP 고정 할당 파일(" ++ shown ++ ")의 항목이 상한 " ++
        toString MAX_STATE_ENTRIES ++ "개를 넘습니다")
    else match line.filter fun l => l.hostname.all validHostname with
    | none => .error ("DHCP 고정 할당 파일(" ++ shown ++ ") " ++ toString lineNo ++
        "번째 줄의 형식이 올바르지 않습니다")
    | some l =>
      if l.identity ∈ out then
        .error ("DHCP 고정 할당 파일(" ++ shown ++ ") " ++ toString lineNo ++
          "번째 줄의 클라이언트가 앞에서 이미 나왔습니다")
      else readReservationLines shown rest (lineNo + 1) (out.insert l.identity (l.ip, l.hostname))

def readReservations (shown : String) : FileText ReservationLine → Except String Reservations
  | .missing => .ok ∅
  | .failed error => .error error
  | .body lines => readReservationLines shown lines 2 ∅

/-- The loop of `load_leases`: one line that is not as it has to be spoils the whole file. -/
def loadLeaseLines (now : ℕ) : (lines : List (Option LeaseLine)) → (out : Leases) → Option Leases
  | [], out => some out
  | line :: rest, out =>
    if size out ≥ MAX_STATE_ENTRIES then none
    else match line.filter fun l => l.hostname.all validHostname with
    | none => none
    | some l =>
      if l.expiry ≤ now then loadLeaseLines now rest out
      else if l.identity.mac?.any (· ≠ l.mac) ∨ l.identity ∈ out ∨
          out.entries.any (fun e => e.2.ip = l.ip) then none
      else loadLeaseLines now rest (out.insert l.identity ⟨l.mac, l.ip, l.expiry, l.hostname⟩)

def loadLeases (now : ℕ) : FileText LeaseLine → Leases
  | .body lines => (loadLeaseLines now lines ∅).getD ∅
  | _ => ∅

namespace LeasePool

/-- `LeasePool::new`, with the texts of the two files where the configuration names them. -/
def new (cfg : DhcpConfig) (leaseFile : FileText LeaseLine) (staticFile : FileText ReservationLine)
    (now : ℕ) : LeasePool :=
  let read := readReservations (cfg.staticFile.getD "") staticFile
  let (reservations, staticPersist) := match cfg.staticFile, read with
    | some path, .ok reservations => (reservations, some path)
    | _, _ => (∅, none)
  let pool : LeasePool := {
    start := cfg.rangeStart
    stop := cfg.rangeEnd
    leaseSecs := cfg.leaseSecs
    leases := loadLeases now leaseFile
    offers := ∅
    declined := ∅
    reservations := reservations
    addressUse := ∅
    staticPersist := staticPersist
    subnetMask := cfg.subnetMask
    serverIp := cfg.serverIp
    router := cfg.router
    exhausted := false
    dynamicLimited := false
    reservationsLimited := false
    allocationCursor := cfg.rangeStart
    nextExpiry := never }
  (pool.revalidateLoadedState now).rebuildAddressUse

/-- The reservations that `reconfigure` goes on with. -/
def reservationsFor (p : LeasePool) (cfg : DhcpConfig) (pathExists : Bool)
    (staticFile : FileText ReservationLine) : Except String Reservations :=
  match cfg.staticFile with
  | some path =>
    if cfg.staticFile ≠ p.staticPersist ∧ pathExists then readReservations path staticFile
    else .ok p.reservations
  | none => .ok p.reservations

def reconfigure (p : LeasePool) (cfg : DhcpConfig) (pathExists : Bool)
    (staticFile : FileText ReservationLine) (now : ℕ) : Except String Unit × LeasePool :=
  match p.reservationsFor cfg pathExists staticFile with
  | .error e => (.error e, p)
  | .ok reservations =>
    let p := { p with
      reservations := reservations
      staticPersist := cfg.staticFile
      start := cfg.rangeStart
      stop := cfg.rangeEnd
      leaseSecs := cfg.leaseSecs
      subnetMask := cfg.subnetMask
      serverIp := cfg.serverIp
      router := cfg.router
      offers := ∅
      exhausted := false
      allocationCursor := cfg.rangeStart }
    (.ok (), (p.revalidateLoadedState now).rebuildAddressUse)

end LeasePool

/-- What the clock shows at the readings of one call. -/
structure Clock where
  first : ℕ
  second : ℕ
  third : ℕ
  first_le : first ≤ second
  second_le : second ≤ third

variable (req : DhcpMessage) (pool : LeasePool) (cfg : DhcpConfig) (clock : Clock)

/-- The two arms of a request that passed the test of its offer: for a reserved client and for
another. -/
def handleRequest (identity : ClientIdentity) (target : UInt32) : Option DhcpMessage × LeasePool :=
  let nak := buildReply req NAK UNSPECIFIED cfg
  match pool.reservationIp identity with
  | some rip =>
    if rip ≠ target then (some nak, pool)
    else
      let (usedByOther, pool) := pool.addressUsedByOther identity rip clock.second
      if usedByOther then (some nak, pool)
      else
        let (committed, pool) := pool.commit identity req.chaddr rip req.hostname clock.third
        (some (if committed then buildReply req ACK rip cfg else nak), pool)
  | none =>
    let (usedByOther, pool) := pool.addressUsedByOther identity target clock.second
    if pool.start ≤ target ∧ target ≤ pool.stop ∧ ¬usedByOther then
      let (committed, pool) := pool.commit identity req.chaddr target req.hostname clock.third
      (some (if committed then buildReply req ACK target cfg else nak), pool)
    else (some nak, pool)

def handle : Option DhcpMessage × LeasePool :=
  let identity := req.clientIdentity
  match classifyClientAction req cfg.serverIp with
  | none => (none, pool)
  | some .discover =>
    let (ip, pool) := pool.allocate identity clock.first
    match ip with
    | none => (none, pool)
    | some ip =>
      let (held, pool) := pool.holdOffer identity req.xid ip clock.second
      (if held then some (buildReply req OFFER ip cfg) else none, pool)
  | some (.request target selecting) =>
    let (valid, pool) := if selecting then pool.consumeOffer identity req.xid target clock.first
      else (true, pool)
    if valid then handleRequest req pool cfg clock identity target
    else (some (buildReply req NAK UNSPECIFIED cfg), pool)
  | some (.release target) => (none, pool.release identity target)
  | some (.decline target) => (none, pool.decline identity target clock.first)

end OnetDns.Dhcp
