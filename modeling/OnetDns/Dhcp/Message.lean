import Mathlib.Data.List.Basic

/-!
# DHCPv4 messages

The message record of `onetdns-bin/src/dhcp.rs` and what is read off it: the options, the name and
the identity of the client, and the action that a client asks for. Addresses are 32-bit numbers.
-/
namespace OnetDns.Dhcp

def DISCOVER : UInt8 := 1
def OFFER : UInt8 := 2
def REQUEST : UInt8 := 3
def DECLINE : UInt8 := 4
def ACK : UInt8 := 5
def NAK : UInt8 := 6
def RELEASE : UInt8 := 7

def OPT_SUBNET_MASK : UInt8 := 1
def OPT_ROUTER : UInt8 := 3
def OPT_DNS : UInt8 := 6
def OPT_HOSTNAME : UInt8 := 12
def OPT_DOMAIN_NAME : UInt8 := 15
def OPT_REQUESTED_IP : UInt8 := 50
def OPT_LEASE_TIME : UInt8 := 51
def OPT_MSG_TYPE : UInt8 := 53
def OPT_SERVER_ID : UInt8 := 54
def OPT_CLIENT_ID : UInt8 := 61
def OPT_TFTP_SERVER_NAME : UInt8 := 66
def OPT_BOOTFILE : UInt8 := 67

def BROADCAST_FLAG : UInt16 := 0x8000

def UNSPECIFIED : UInt32 := 0

abbrev Mac := Vector UInt8 6

/-- `Ipv4Addr::octets`, and `to_be_bytes` of a lease time. -/
def octets (n : UInt32) : List UInt8 :=
  [(n >>> 24).toUInt8, (n >>> 16).toUInt8, (n >>> 8).toUInt8, n.toUInt8]

/-- `opt_ipv4`: four bytes are an address. -/
def optIpv4 : List UInt8 → Option UInt32
  | [a, b, c, d] =>
    some (a.toUInt32 <<< 24 ||| b.toUInt32 <<< 16 ||| c.toUInt32 <<< 8 ||| d.toUInt32)
  | _ => none

/-- An address in the usual notation. -/
def showIpv4 (n : UInt32) : String := ".".intercalate ((octets n).map fun b => toString b)

def hexDigits : List Char := "0123456789abcdef".toList

/-- `bytes_hex`, and `mac_hex`. -/
def bytesHex (bytes : List UInt8) : String :=
  String.ofList (bytes.flatMap fun b =>
    [hexDigits.getD (b.toNat / 16) '0', hexDigits.getD (b.toNat % 16) '0'])

/-- `ClientIdentity`: the hardware address, or option 61 as it is. -/
inductive ClientIdentity where
  | hardware (mac : Mac)
  | opaqueId (value : List UInt8)
  deriving DecidableEq

def ClientIdentity.toText : ClientIdentity → String
  | .hardware mac => "mac:" ++ bytesHex mac.toList
  | .opaqueId value => "id:" ++ bytesHex value

/-- `ClientIdentity::hardware`. -/
def ClientIdentity.mac? : ClientIdentity → Option Mac
  | .hardware mac => some mac
  | .opaqueId _ => none

structure DhcpMessage where
  op : UInt8
  xid : UInt32
  flags : UInt16
  ciaddr : UInt32
  yiaddr : UInt32
  siaddr : UInt32
  giaddr : UInt32
  chaddr : Mac
  clientIdentifier : Option (List UInt8)
  options : List (UInt8 × List UInt8)
  deriving DecidableEq

def isControl (c : Char) : Bool := c.toNat < 0x20 || (0x7f ≤ c.toNat && c.toNat < 0xa0)

/-- `char::is_whitespace`: the `White_Space` property. -/
def isWhitespace (c : Char) : Bool :=
  (0x9 ≤ c.toNat && c.toNat ≤ 0xd) || (0x2000 ≤ c.toNat && c.toNat ≤ 0x200a) ||
    [0x20, 0x85, 0xa0, 0x1680, 0x2028, 0x2029, 0x202f, 0x205f, 0x3000].contains c.toNat

def validHostname (value : String) : Bool :=
  !value.isEmpty && value.utf8ByteSize ≤ 255 &&
    value.toList.all fun c => !isControl c && !isWhitespace c

namespace DhcpMessage

variable (m : DhcpMessage)

def option (code : UInt8) : Option (List UInt8) :=
  if code = OPT_CLIENT_ID then m.clientIdentifier
  else (m.options.find? fun o => o.1 = code).map (·.2)

def msgType : Option UInt8 :=
  match m.option OPT_MSG_TYPE with
  | some [kind] => some kind
  | _ => none

def hostname : Option String := do
  let raw ← m.option OPT_HOSTNAME
  let text ← String.fromUTF8? ⟨raw.toArray⟩
  let kept := String.ofList (text.toList.filter fun c => !isControl c && !isWhitespace c)
  if kept.isEmpty then none else some kept

def clientIdentity : ClientIdentity :=
  match m.clientIdentifier with
  | some value => .opaqueId value
  | none => .hardware m.chaddr

end DhcpMessage

inductive ClientAction where
  | discover
  | request (target : UInt32) (selecting : Bool)
  | decline (target : UInt32)
  | release (target : UInt32)
  deriving DecidableEq

variable (req : DhcpMessage)

/-- `optional_ipv4_option`: absent, or exactly four bytes. -/
def optionalIpv4Option (code : UInt8) : Option (Option UInt32) :=
  match req.option code with
  | some raw => (optIpv4 raw).map some
  | none => some none

def classifyClientAction (serverIp : UInt32) : Option ClientAction :=
  if req.flags &&& ~~~BROADCAST_FLAG ≠ 0 ∨ req.yiaddr ≠ UNSPECIFIED ∨ req.siaddr ≠ UNSPECIFIED then
    none
  else do
    let requested ← optionalIpv4Option req OPT_REQUESTED_IP
    let server ← optionalIpv4Option req OPT_SERVER_ID
    let kind ← req.msgType
    if kind = DISCOVER then
      if req.ciaddr = UNSPECIFIED ∧ server = none then some .discover else none
    else if kind = REQUEST then
      match server, requested with
      | some selected, some target =>
        if selected = serverIp ∧ req.ciaddr = UNSPECIFIED then some (.request target true) else none
      | none, some target =>
        if req.ciaddr = UNSPECIFIED then some (.request target false) else none
      | none, none =>
        if req.ciaddr ≠ UNSPECIFIED then some (.request req.ciaddr false) else none
      | _, _ => none
    else if kind = DECLINE then
      if req.flags = 0 ∧ req.ciaddr = UNSPECIFIED ∧ server = some serverIp then
        requested.map .decline
      else none
    else if kind = RELEASE then
      if req.flags = 0 ∧ req.ciaddr ≠ UNSPECIFIED ∧ requested = none ∧ server = some serverIp then
        some (.release req.ciaddr)
      else none
    else none

/-- `DhcpConfig`, but for the path of the lease file. -/
structure DhcpConfig where
  serverIp : UInt32
  rangeStart : UInt32
  rangeEnd : UInt32
  subnetMask : UInt32
  router : UInt32
  dns : List UInt32
  leaseSecs : UInt32
  tftpServer : Option UInt32
  bootFile : Option String
  domainName : Option String
  staticFile : Option String

def utf8 (s : String) : List UInt8 := s.toUTF8.toList

def buildReply (mtype : UInt8) (yiaddr : UInt32) (cfg : DhcpConfig) :
    DhcpMessage where
  op := 2
  xid := req.xid
  flags := if mtype = NAK ∧ req.giaddr ≠ UNSPECIFIED then req.flags ||| BROADCAST_FLAG
    else req.flags
  ciaddr := if mtype = ACK then req.ciaddr else UNSPECIFIED
  yiaddr := yiaddr
  siaddr := if mtype ≠ NAK then cfg.tftpServer.getD cfg.serverIp else UNSPECIFIED
  giaddr := req.giaddr
  chaddr := req.chaddr
  clientIdentifier := none
  options :=
    [(OPT_MSG_TYPE, [mtype]), (OPT_SERVER_ID, octets cfg.serverIp)] ++
    if mtype = NAK then [] else
      [(OPT_LEASE_TIME, octets cfg.leaseSecs), (OPT_SUBNET_MASK, octets cfg.subnetMask),
        (OPT_ROUTER, octets cfg.router)] ++
      (if cfg.dns.isEmpty then [] else [(OPT_DNS, cfg.dns.flatMap octets)]) ++
      (cfg.domainName.map fun d => (OPT_DOMAIN_NAME, utf8 d)).toList ++
      (cfg.tftpServer.map fun t => (OPT_TFTP_SERVER_NAME, utf8 (showIpv4 t))).toList ++
      (cfg.bootFile.map fun b => (OPT_BOOTFILE, utf8 b)).toList

@[simp] lemma buildReply_msgType (mtype : UInt8) (yiaddr : UInt32)
    (cfg : DhcpConfig) : (buildReply req mtype yiaddr cfg).msgType = some mtype := by
  simp [DhcpMessage.msgType, DhcpMessage.option, buildReply, OPT_MSG_TYPE, OPT_CLIENT_ID]

end OnetDns.Dhcp
