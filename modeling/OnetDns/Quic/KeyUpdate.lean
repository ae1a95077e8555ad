import OnetDns.Quic.Protect

/-!
# Key updates of a connected pair

The fields of `Connection` that protect 1-RTT packets, `initiate_key_update`,
`commit_key_update` and the short header branch of `recv_datagram`, and two such
endpoints joined by a network that may lose, repeat and reorder packets.
-/
namespace OnetDns.Quic

/-- The part of a connection that protects application packets, once the handshake is
complete. -/
structure Endpoint where
  localCid : Bytes
  remoteCid : Bytes
  sendKeys : Option PacketKeys
  recvKeys : Option PacketKeys
  nextPn : ℕ
  received : Received
  appSendSecret : Bytes
  appRecvSecret : Bytes
  sendKeyPhase : Bool
  recvKeyPhase : Bool
  keyUpdateAllowed : Bool

namespace Endpoint

variable (cipher : Cipher)

variable (e : Endpoint)

def initiateKeyUpdate : Endpoint × Bool :=
  if !e.keyUpdateAllowed || e.appSendSecret.isEmpty then (e, false)
  else
    match e.sendKeys with
    | none => (e, false)
    | some keys =>
      let next := cipher.nextKeyUpdateSecret e.appSendSecret
      ({ e with
          sendKeys := some (cipher.deriveUpdatedKv next keys.hp)
          appSendSecret := next
          sendKeyPhase := !e.sendKeyPhase }, true)

/-- The receiving half of `commit_key_update`. -/
def commitRecv : Endpoint :=
  match e.recvKeys with
  | none => e
  | some keys =>
    let next := cipher.nextKeyUpdateSecret e.appRecvSecret
    { e with
      recvKeys := some (cipher.deriveUpdatedKv next keys.hp)
      appRecvSecret := next
      recvKeyPhase := !e.recvKeyPhase }

/-- The sending half of `commit_key_update`: it follows when the phases differ. -/
def commitSend : Endpoint :=
  if e.sendKeyPhase != e.recvKeyPhase then
    match e.sendKeys with
    | none => e
    | some keys =>
      let next := cipher.nextKeyUpdateSecret e.appSendSecret
      { e with
        sendKeys := some (cipher.deriveUpdatedKv next keys.hp)
        appSendSecret := next
        sendKeyPhase := !e.sendKeyPhase }
  else e

def commitKeyUpdate : Endpoint := (e.commitRecv cipher).commitSend cipher

/-- The packet that `build_short_packet` makes of a payload. -/
def buildShort (payload : Bytes) : Option (Bytes × Endpoint) :=
  e.sendKeys.map fun keys =>
    (cipher.protectShort keys e.remoteCid e.nextPn 4 payload e.sendKeyPhase,
      { e with nextPn := e.nextPn + 1 })

/-- The short header branch of `recv_datagram`, up to the frames of the packet. -/
def recvShort (pkt : Bytes) : Endpoint × Option ShortPacket :=
  match pkt.head?, e.recvKeys with
  | some first, some keys =>
    if first &&& 0x80 = 0 ∧ first &&& 0x40 ≠ 0 then
      let largest := e.received.largest.getD 0
      let alt :=
        if e.keyUpdateAllowed && !e.appRecvSecret.isEmpty then
          some (cipher.deriveUpdatedKv (cipher.nextKeyUpdateSecret e.appRecvSecret) keys.hp)
        else none
      match cipher.unprotectShort keys alt e.recvKeyPhase pkt e.localCid.length largest with
      | none => (e, none)
      | some (sp, phaseChanged) =>
        let e := if phaseChanged then e.commitKeyUpdate cipher else e
        ({ e with received := (e.received.accept sp.pn).1 }, some sp)
    else (e, none)
  | _, _ => (e, none)

end Endpoint

/-- Both endpoints and every packet that each of them has sent. -/
structure Pair where
  ends : Role → Endpoint
  wire : Role → List Bytes

/-- What can happen to a pair. A packet that never arrives is lost. -/
inductive PairStep where
  | initiate (role : Role)
  | send (role : Role) (payload : Bytes)
  /-- The endpoint gets the packet at this place of what its peer has sent. -/
  | deliver (role : Role) (index : ℕ)

namespace Pair

variable (cipher : Cipher)

def set (p : Pair) (role : Role) (e : Endpoint) : Pair :=
  { p with ends := Function.update p.ends role e }

def exec (p : Pair) : PairStep → Pair
  | .initiate role => p.set role ((p.ends role).initiateKeyUpdate cipher).1
  | .send role payload =>
    match (p.ends role).buildShort cipher payload with
    | none => p
    | some (pkt, e) =>
      { (p.set role e) with wire := Function.update p.wire role (p.wire role ++ [pkt]) }
  | .deliver role index =>
    match (p.wire role.peer)[index]? with
    | none => p
    | some pkt => p.set role ((p.ends role).recvShort cipher pkt).1

def run (p : Pair) (steps : List PairStep) : Pair := steps.foldl (exec cipher) p

end Pair
end OnetDns.Quic
