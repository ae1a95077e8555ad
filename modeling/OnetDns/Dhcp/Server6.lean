import OnetDns.Dhcp.Lease6Pool
import OnetDns.Lib.BigEndian

/-!
# The DHCPv6 server

The message of `onetdns-bin/src/dhcp6.rs`, its identity associations, and `handle`, which answers one
message of a client. A call reads the clock once at first and up to twice for each association.
-/
namespace OnetDns.Dhcp6
open BigEndian (encode decode)

def MAX_STANDARD_IPV6_UDP_PAYLOAD : ℕ := 2 ^ 16 - 1 - 8
def IA_NA_ADDRESS_RESPONSE_WIRE_LEN : ℕ := 4 + 12 + 4 + 24

def SOLICIT : UInt8 := 1
def ADVERTISE : UInt8 := 2
def REQUEST : UInt8 := 3
def RENEW : UInt8 := 5
def REPLY : UInt8 := 7
def RELEASE : UInt8 := 8
def INFORMATION_REQUEST : UInt8 := 11

def OPT_CLIENT_ID : UInt16 := 1
def OPT_SERVER_ID : UInt16 := 2
def OPT_IA_NA : UInt16 := 3
def OPT_IA_TA : UInt16 := 4
def OPT_IA_ADDR : UInt16 := 5
def OPT_STATUS_CODE : UInt16 := 13
def OPT_DNS_SERVERS : UInt16 := 23
def OPT_IA_PD : UInt16 := 25

def STATUS_SUCCESS : UInt16 := 0
def STATUS_NO_ADDRS_AVAIL : UInt16 := 2
def STATUS_NO_BINDING : UInt16 := 3

abbrev Dhcp6Option := UInt16 × List UInt8

structure Dhcp6Message where
  msgType : UInt8
  txid : Vector UInt8 3
  options : List Dhcp6Option
  deriving DecidableEq

/-- The content of an option that is there exactly once. -/
def Dhcp6Message.option (m : Dhcp6Message) (code : UInt16) : Option (List UInt8) :=
  match m.options.filter fun o => o.1 = code with
  | [o] => some o.2
  | _ => none

/-- The first of some options in a row. -/
def splitOption : List UInt8 → Option (Dhcp6Option × List UInt8)
  | a :: b :: c :: d :: rest =>
    let len := decode [c, d]
    if len ≤ rest.length then
      some ((UInt16.ofNat (decode [a, b]), rest.take len), rest.drop len)
    else none
  | _ => none

/-- The loop over the options in a row; `none` if one of them is longer than what is left. -/
def splitLoop : (fuel : ℕ) → List UInt8 → Option (List Dhcp6Option)
  | _, [] => some []
  | 0, _ :: _ => none
  | fuel + 1, b :: bytes => do
    let (o, rest) ← splitOption (b :: bytes)
    let os ← splitLoop fuel rest
    some (o :: os)

def nestedOptions (bytes : List UInt8) : Option (List Dhcp6Option) := splitLoop bytes.length bytes

def validNestedOptions (bytes : List UInt8) : Bool := (nestedOptions bytes).isSome

structure ParsedIaNa where
  iaid : Iaid
  options : List Dhcp6Option

def addressOf (o : Dhcp6Option) : Option ℕ :=
  if o.1 = OPT_IA_ADDR then some (decode (o.2.take 16)) else none

def ParsedIaNa.containsAddress (ia : ParsedIaNa) (expected : ℕ) : Bool :=
  ia.options.any fun o => addressOf o = some expected

/-- An IAADDR has room for the address and its two times, and well-formed options after them. -/
def validIaAddr (o : Dhcp6Option) : Bool :=
  o.1 ≠ OPT_IA_ADDR || (24 ≤ o.2.length && validNestedOptions (o.2.drop 24))

def parseIaNa : List UInt8 → Option ParsedIaNa
  | a :: b :: c :: d :: rest =>
    if rest.length < 8 then none
    else do
      let options ← nestedOptions (rest.drop 8)
      if options.all validIaAddr then some ⟨#v[a, b, c, d], options⟩ else none
  | _ => none

def iaAddrOption (addr : ℕ) (pref valid : UInt32) : List UInt8 :=
  let d := encode 16 addr ++ encode 4 pref.toNat ++ encode 4 valid.toNat
  encode 2 OPT_IA_ADDR.toNat ++ encode 2 d.length ++ d

def iaNaOption (iaid : Iaid) (t1 t2 : UInt32) (addr : ℕ) (lease : UInt32) : Dhcp6Option :=
  (OPT_IA_NA, iaid.toList ++ encode 4 t1.toNat ++ encode 4 t2.toNat ++ iaAddrOption addr lease lease)

def renewalTimers (lease : UInt32) : UInt32 × UInt32 :=
  if lease = 0xffffffff then (0xffffffff, 0xffffffff)
  else (lease / 2, UInt32.ofNat (lease.toNat * 4 / 5))

def statusOption (code : UInt16) : Dhcp6Option := (OPT_STATUS_CODE, encode 2 code.toNat)

def iaNaStatusOption (iaid : Iaid) (code : UInt16) : Dhcp6Option :=
  (OPT_IA_NA, iaid.toList ++ List.replicate 8 0 ++ encode 2 OPT_STATUS_CODE.toNat ++ encode 2 2 ++
    encode 2 code.toNat)

def dnsOption (cfg : Dhcp6Config) : List Dhcp6Option :=
  if cfg.dns.isEmpty then [] else [(OPT_DNS_SERVERS, cfg.dns.flatMap fun d => encode 16 d.val)]

def responseIaCapacity (clientIdLen : ℕ) (cfg : Dhcp6Config) (requestType : UInt8) : Option ℕ :=
  if validDuid cfg.serverDuid = false then none
  else do
    let fixed := 4 + (4 + clientIdLen) + (4 + cfg.serverDuid.length)
    let fixed ← (
      if requestType = RELEASE then some (fixed + (4 + 2))
      else if cfg.dns.isEmpty then some fixed
      else if cfg.dns.length * 16 > 2 ^ 16 - 1 then none
      else some (fixed + (4 + cfg.dns.length * 16)))
    if fixed ≤ MAX_STANDARD_IPV6_UDP_PAYLOAD then
      some ((MAX_STANDARD_IPV6_UDP_PAYLOAD - fixed) / IA_NA_ADDRESS_RESPONSE_WIRE_LEN)
    else none

/-- The contents of the associations of a message. -/
def Dhcp6Message.iaNas (m : Dhcp6Message) : List (List UInt8) :=
  (m.options.filter fun o => o.1 = OPT_IA_NA).map (·.2)

/-- The loop of `validate_ia_nas`, with the IAIDs seen so far. -/
def validateLoop (maxCount : ℕ) : List (List UInt8) → (seen : List Iaid) → Option (List Iaid)
  | [], seen => some seen
  | data :: rest, seen => do
    let ia ← parseIaNa data
    if seen.length + 1 > maxCount ∨ ia.iaid ∈ seen then none
    else validateLoop maxCount rest (ia.iaid :: seen)

variable (req : Dhcp6Message)

def validateIaNas (maxCount : ℕ) : Option ℕ := do
  let seen ← validateLoop maxCount req.iaNas []
  if seen.length > 0 then some seen.length else none

variable (cfg : Dhcp6Config)

def informationReply : Option Dhcp6Message :=
  if req.options.any fun o => o.1 = OPT_IA_NA ∨ o.1 = OPT_IA_TA ∨ o.1 = OPT_IA_PD then none
  else if (req.option OPT_SERVER_ID).any (· ≠ cfg.serverDuid) then none
  else
    let clientId := req.option OPT_CLIENT_ID
    if clientId.any fun duid => validDuid duid = false then none
    else some {
      msgType := REPLY
      txid := req.txid
      options := (clientId.toList.map fun duid => (OPT_CLIENT_ID, duid)) ++
        [(OPT_SERVER_ID, cfg.serverDuid)] ++ dnsOption cfg }

/-- Whether the server is the one that is meant. -/
def addressed : Bool :=
  if req.msgType = SOLICIT then !(req.options.any fun o => o.1 = OPT_SERVER_ID)
  else if req.msgType = REQUEST ∨ req.msgType = RENEW ∨ req.msgType = RELEASE then
    req.option OPT_SERVER_ID = some cfg.serverDuid
  else false

/-- The DUID of a client whose request is answered. -/
def accept : Option Duid := do
  let clientId ← req.option OPT_CLIENT_ID
  if validDuid clientId = false ∨ addressed req cfg = false then none
  else do
    let maxIas ← responseIaCapacity clientId.length cfg req.msgType
    let _ ← validateIaNas req maxIas
    some clientId

/-- The options for one association, and the pool after it; the inner `none` is a request of
another type. -/
def answerIa (msgType : UInt8) (cfg : Dhcp6Config) (clientId : Duid) (ia : ParsedIaNa)
    (now first second : ℕ) (p : Lease6Pool) : Option (Option (List Dhcp6Option) × Lease6Pool) :=
  let granted := fun ip =>
    iaNaOption ia.iaid (renewalTimers cfg.leaseSecs).1 (renewalTimers cfg.leaseSecs).2 ip cfg.leaseSecs
  let refused := fun status => iaNaStatusOption ia.iaid status
  if msgType = SOLICIT then do
    let (picked, p) ← p.allocate clientId ia.iaid first
    match picked with
    | none => some (some [refused STATUS_NO_ADDRS_AVAIL], p)
    | some ip => do
      let (held, p) ← p.holdOffer clientId ia.iaid ip second
      some (some [if held then granted ip else refused STATUS_NO_ADDRS_AVAIL], p)
  else if msgType = REQUEST then
    match (p.offeredAddress clientId ia.iaid now).filter ia.containsAddress with
    | none => some (some [refused STATUS_NO_BINDING], p)
    | some offered => do
      let (done, p) ← p.commitOffer clientId ia.iaid offered first
      some (some [if done then granted offered else refused STATUS_NO_BINDING], p)
  else if msgType = RENEW then
    match (p.leasedAddress clientId ia.iaid now).filter ia.containsAddress with
    | none => some (some [refused STATUS_NO_BINDING], p)
    | some leased => do
      let (done, p) ← p.renew clientId ia.iaid leased first
      some (some [if done then granted leased else refused STATUS_NO_BINDING], p)
  else if msgType = RELEASE then
    match (p.leasedAddress clientId ia.iaid now).filter ia.containsAddress with
    | none => some (some [refused STATUS_NO_BINDING], p)
    | some leased => do
      let (done, p) ← p.releaseAddress clientId ia.iaid leased first
      some (some (if done then [] else [refused STATUS_NO_BINDING]), p)
  else some (none, p)

/-- The loop of `handle`, whose association number `n` reads the clock at `2 * n + 1` and after. -/
def handleIas (msgType : UInt8) (cfg : Dhcp6Config) (clientId : Duid) (clock : ℕ → ℕ) :
    (n : ℕ) → List (List UInt8) → List Dhcp6Option → Lease6Pool →
      Option (Option (List Dhcp6Option) × Lease6Pool)
  | _, [], options, p => some (some options, p)
  | n, data :: rest, options, p =>
    match parseIaNa data with
    | none => some (none, p)
    | some ia => do
      let (response, p) ←
        answerIa msgType cfg clientId ia (clock 0) (clock (2 * n + 1)) (clock (2 * n + 2)) p
      match response with
      | none => some (none, p)
      | some response => handleIas msgType cfg clientId clock (n + 1) rest (options ++ response) p

/-- `handle`, with the answer, if there is one, and the pool after it. -/
def handle (p : Lease6Pool) (cfg : Dhcp6Config) (clock : ℕ → ℕ) :
    Option (Option Dhcp6Message × Lease6Pool) :=
  if req.msgType = INFORMATION_REQUEST then some (informationReply req cfg, p)
  else
    match accept req cfg with
    | none => some (none, p)
    | some clientId => do
      let (options, p) ← handleIas req.msgType cfg clientId clock 0 req.iaNas
        [(OPT_CLIENT_ID, clientId), (OPT_SERVER_ID, cfg.serverDuid)] p
      some (options.map fun options => {
        msgType := if req.msgType = SOLICIT then ADVERTISE else REPLY
        txid := req.txid
        options := options ++
          if req.msgType = RELEASE then [statusOption STATUS_SUCCESS] else dnsOption cfg }, p)

end OnetDns.Dhcp6
