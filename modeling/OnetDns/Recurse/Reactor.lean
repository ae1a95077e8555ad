import Mathlib.Data.List.AList
import OnetDns.Lib.Slab
import OnetDns.Recurse.Recursor

/-!
# The event lane

`Reactor` of `onetdns-recurse/src/reactor.rs`: many resolutions on one thread, each in a slot
of a slab. The functions that settle a resolution call one another, always last; a call is
data here, and a step carries one out and names the next. What the network, the shared
caches and the validator say is asked of an environment.
-/
namespace OnetDns.Recurse
open Dns

abbrev Token := ℕ

/-- What becomes of a token. -/
inductive Completion where
  | answer (token : Token) (msg : Message)
  | fail (token : Token) (error : RecurseError)
  | retry (token : Token)

def Completion.token : Completion → Token
  | .answer token _ | .fail token _ | .retry token => token

/-- `ReactorConfig`, with the choice to ignore the CD bit. -/
structure ReactorConfig where
  inflightMax : ℕ
  sessionBudget : ℕ
  singleflight : Bool
  ignoreCd : Bool

/-- A resolution: the deadline of the question that is out, if one is, and its own. -/
structure Session where
  qname : Name
  qtype : RecordType
  state : IterationState
  exchange : Option ℕ
  sessionDeadline : ℕ
  steps : ℕ
  stepCap : ℕ

inductive SessionEnd where
  | done (msg : Message)
  | failed (error : RecurseError)
  | needsSync
  | needAddrs (missing : List Name) (pending : PendingReferral)

inductive Settled where
  | answer (msg : Message)
  | failed (error : RecurseError)
  | needsSync

/-- A datagram that `try_recv` lets through: whether it is truncated, what `advance` makes of
it, and the time the next server gets if a question follows and goes out. -/
structure Reply where
  truncated : Bool
  outcome : StepOutcome
  sent : Option ℕ

namespace Session

variable (s : Session)

variable (sent : Option ℕ)

def fireAttempt (now : ℕ) : Option Session :=
  sent.map fun perServer =>
    { s with exchange := some (min (now + perServer) s.sessionDeadline) }

/-- `send_next`: the session after it, and whether a question went out. -/
def sendNext (now : ℕ) : Session × Bool :=
  let s := { s with steps := s.steps + 1 }
  if s.stepCap < s.steps then (s, false)
  else
    match ({ s with exchange := none } : Session).fireAttempt sent now with
    | some s => (s, true)
    | none => ({ s with exchange := none }, false)

def startAt (maxReferrals : ℕ) (qname : Name) (qtype : RecordType) (state : IterationState)
    (sent : Option ℕ) (budget now : ℕ) : Option Session :=
  match (⟨qname, qtype, state, none, now + budget, 0, maxReferrals + qname.numLabels + 2⟩ :
    Session).sendNext sent now with
  | (s, true) => some s
  | (_, false) => none

/-- What follows a step of the iteration. -/
def onOutcome (outcome : StepOutcome) (sent : Option ℕ) (now : ℕ) :
    Session × Option SessionEnd :=
  match outcome with
  | .done msg => (s, some (.done msg))
  | .goOn state =>
    match ({ s with state := state } : Session).sendNext sent now with
    | (s, true) => (s, none)
    | (s, false) => (s, some (.failed .noReachableNs))
  | .needNsAddrs missing pending => (s, some (.needAddrs missing pending))
  | .failed error => (s, some (.failed error))

def onResponse (reply : Reply) (now : ℕ) : Session × Option SessionEnd :=
  let s := { s with exchange := none }
  if reply.truncated then (s, some .needsSync) else s.onOutcome reply.outcome reply.sent now

/-- `resume_with_addrs`, with what `finish_referral` comes to. -/
def resumeWithAddrs (outcome : StepOutcome) (sent : Option ℕ) (now : ℕ) :
    Session × Option SessionEnd :=
  match outcome with
  | .needNsAddrs _ _ => (s, some (.failed .noReachableNs))
  | outcome => s.onOutcome outcome sent now

/-- The loop of `pump` over the datagrams of a session. -/
def receive (s : Session) (now : ℕ) : List Reply → Session × Option SessionEnd
  | [] => (s, none)
  | reply :: rest =>
    if s.exchange.isNone then (s, none)
    else
      match s.onResponse reply now with
      | (s, some e) => (s, some e)
      | (s, none) => s.receive now rest

/-- `on_exchange_timeout`: the session after it, and whether another server was asked. -/
def onExchangeTimeout (now : ℕ) : Session × Bool :=
  if s.exchange.isNone then (s, false)
  else
    match ({ s with exchange := none } : Session).fireAttempt sent now with
    | some s => (s, true)
    | none => ({ s with exchange := none }, false)

end Session

abbrev SfKey := Bytes × RecordType

structure RootCtx where
  leader : Token
  followers : List Token
  sfKey : SfKey
  accAnswers : List Record
  cnameHops : ℕ
  dnameHops : ℕ
  accStatus : SecurityStatus

inductive SlotKind where
  | root (ctx : RootCtx)
  | nsAddr (parent : ℕ)
  | dnskey (parent : ℕ) (zone : Name)

structure AwaitingKeys where
  msg : Message
  positive : Bool
  fetches : ℕ
  tried : List Bytes

structure Parked where
  pending : PendingReferral
  missing : List Name
  nextMissing : ℕ
  addrs : List SocketAddr
  addrTtl : Option UInt32
  childrenSpawned : ℕ

structure Slot where
  session : Session
  kind : SlotKind
  parked : Option Parked
  awaiting : Option AwaitingKeys
  nsBudget : ℕ

def maxKeyFetches : ℕ := 20

/-- What comes from outside while calls are carried out, by the number of the step. -/
structure LaneEnv where
  /-- Where a session for a name starts. -/
  startState : ℕ → Name → IterationState
  /-- The time a server gets, if a question can be sent. -/
  sent : ℕ → Option ℕ
  finishReferral : ℕ → PendingReferral → StepOutcome
  /-- `first_chain_zone_missing_dnskey`. -/
  missingDnskey : ℕ → List Bytes → Option (Name × List SocketAddr)
  /-- `validate_terminal_without_fetch`. -/
  validateTerminal : ℕ → Option SecurityStatus
  sentinelFails : ℕ → Bool

/-- `Reactor`, with the tokens that were taken on, the completions that were sent, and the
slots that a caller waits for. -/
structure Reactor where
  slab : Slab Slot
  inflight : AList fun _ : SfKey => ℕ
  merged : ℕ
  completed : ℕ
  failed : ℕ
  retried : ℕ
  ticks : ℕ
  taken : List Token
  out : List Completion
  pollMap : List ℕ

def Reactor.new : Reactor := ⟨.empty, ∅, 0, 0, 0, 0, 0, [], [], []⟩

/-- The calls that settle a resolution. -/
inductive Call where
  | settle (idx : ℕ) (e : SessionEnd)
  | spawnChild (parent : ℕ) (qname : Name)
  | finish (idx : ℕ) (slot : Slot) (outcome : Settled)
  | completeTerminal (session : Session) (root : RootCtx) (msg : Message) (positive : Bool)
      (fetches : ℕ) (tried : List Bytes) (nsBudget : ℕ)
  | spawnKeyChild (parent : ℕ) (zone : Name) (servers : List SocketAddr)
  | resumeKeyParent (parent : ℕ)
  | resumeParent (parent : ℕ) (addrs : List SocketAddr) (addrTtl : Option UInt32)
  | restartRoot (root : RootCtx) (qname : Name) (budget nsBudget : ℕ)

namespace Reactor

variable (cfg : ReactorConfig) (r : Recursor) (env : LaneEnv) (s : Reactor)

def live : ℕ := s.slab.items.length

def hasCapacity : Bool := s.live < cfg.inflightMax

def hasChildCapacity : Bool := s.live < cfg.inflightMax * 2

def childBudget (parent now : ℕ) : Option ℕ :=
  (s.slab.get parent).bind fun slot =>
    if slot.session.sessionDeadline - now = 0 then none
    else some (slot.session.sessionDeadline - now)

def insert (slot : Slot) : Reactor := { s with slab := s.slab.insert slot }

def forgetInflight (key : SfKey) (idx : ℕ) : Reactor :=
  if s.inflight.lookup key = some idx then { s with inflight := s.inflight.erase key } else s

variable (root : RootCtx)

/-- A root goes to a slot, and the index of questions under way points to it. -/
def insertRoot (slot : Slot) : Reactor :=
  let idx := s.slab.next
  let s := s.insert slot
  if cfg.singleflight then { s with inflight := s.inflight.insert root.sfKey idx } else s

/-- Everyone who asked gets the same. -/
def tell (completion : Token → Completion) : Reactor :=
  { s with out := s.out ++ (root.followers ++ [root.leader]).map completion }

def retryRoot : Reactor :=
  { s.tell root .retry with retried := s.retried + root.followers.length + 1 }

def failRoot (error : RecurseError) : Reactor :=
  { s.tell root (.fail · error) with failed := s.failed + root.followers.length + 1 }

/-- The addresses that a name server was resolved to, with their lifetime. -/
def addrsOf (m : Message) : List SocketAddr × Option UInt32 :=
  m.answers.foldl (fun found record =>
    match (match record.rdata with
      | .a ip => some (IpAddr.v4 ip)
      | .aaaa ip => some (IpAddr.v6 ip)
      | _ => none) with
    | some ip =>
      if r.serverEligible ip then
        (found.1 ++ [⟨ip, r.port⟩], minOptionalTtl found.2 (some record.ttl))
      else found
    | none => found) ([], none)

def settle (idx : ℕ) (e : SessionEnd) : Reactor × Option Call :=
  match s.slab.get idx with
  | none => (s, none)
  | some slot =>
    match e with
    | .needAddrs missing pending =>
      match missing with
      | [] => ({ s with slab := s.slab.take idx }, some (.finish idx slot (.failed .noReachableNs)))
      | first :: _ =>
        if slot.parked.isSome then
          ({ s with slab := s.slab.take idx }, some (.finish idx slot (.failed .noReachableNs)))
        else
          let slot := { slot with parked := some ⟨pending, missing, 1, [], none, 1⟩ }
          ({ s with slab := s.slab.put idx slot }, some (.spawnChild idx first))
    | .done msg => ({ s with slab := s.slab.take idx }, some (.finish idx slot (.answer msg)))
    | .failed error =>
      ({ s with slab := s.slab.take idx }, some (.finish idx slot (.failed error)))
    | .needsSync => ({ s with slab := s.slab.take idx }, some (.finish idx slot .needsSync))

variable (parent : ℕ)

/-- The session of a child that resolves a name server, if it can be started. -/
def startChild (qname : Name) (now : ℕ) : Option Session :=
  match s.slab.get parent with
  | none => none
  | some slot =>
    if slot.nsBudget = 0 || !s.hasChildCapacity cfg then none
    else (s.childBudget parent now).bind fun budget =>
      Session.startAt r.maxReferrals qname .A (env.startState s.ticks qname) (env.sent s.ticks)
        budget now

def spawnChild (qname : Name) (now : ℕ) : Reactor × Option Call :=
  match s.startChild cfg r env parent qname now with
  | some session =>
    (s.insert ⟨session, .nsAddr parent, none, none,
      ((s.slab.get parent).elim 0 (·.nsBudget)) - 1⟩, none)
  | none =>
    match s.slab.get parent with
    | none => (s, none)
    | some slot =>
      ({ s with slab := s.slab.take parent }, some (.finish parent slot (.failed .noReachableNs)))

def finishAnswer (slot : Slot) (root : RootCtx) (msg : Message) (now : ℕ) : Reactor × Option Call :=
  match aliasHop msg slot.session.qname slot.session.qtype with
  | some hop =>
    let dname := hop.atype = .DNAME
    let hops := if dname then root.dnameHops else root.cnameHops
    let limit := if dname then r.maxDnames else r.maxCnames
    if hops < limit then
      match if r.validating then env.validateTerminal s.ticks else some .secure with
      | none => (s.retryRoot root, none)
      | some status =>
        let root := { root with
          accStatus := if r.validating then root.accStatus.combine status else root.accStatus
          accAnswers := root.accAnswers ++ hop.records
          dnameHops := if dname then root.dnameHops + 1 else root.dnameHops
          cnameHops := if dname then root.cnameHops else root.cnameHops + 1 }
        (s, some (.restartRoot root hop.target (slot.session.sessionDeadline - now) slot.nsBudget))
    else (s.failRoot root (if dname then .tooManyDnames else .tooManyCnames), none)
  | none =>
    let positive := msg.header.rcode = rcodeNoError &&
      hasDirectQtypeAnswer msg slot.session.qname slot.session.qtype
    (s, some (.completeTerminal slot.session root msg positive 0 [] slot.nsBudget))

def finish (idx : ℕ) (slot : Slot) (outcome : Settled) (now : ℕ) : Reactor × Option Call :=
  let s := { s with slab := s.slab.release idx }
  match slot.kind with
  | .root root =>
    let s := s.forgetInflight root.sfKey idx
    match outcome with
    | .answer msg => s.finishAnswer r env slot root msg now
    | .failed error => (s.failRoot root error, none)
    | .needsSync => (s.retryRoot root, none)
  | .dnskey parent _ => (s, some (.resumeKeyParent parent))
  | .nsAddr parent =>
    match outcome with
    | .needsSync =>
      match s.slab.get parent with
      | none => (s, none)
      | some pslot =>
        ({ s with slab := s.slab.take parent }, some (.finish parent pslot .needsSync))
    | .answer m => (s, some (.resumeParent parent (addrsOf r m).1 (addrsOf r m).2))
    | .failed _ => (s, some (.resumeParent parent [] none))

/-- The end of `complete_terminal`: the answer is cleaned and sent. -/
def answerRoot (session : Session) (root : RootCtx) (msg : Message) (positive : Bool) : Reactor :=
  let msg := sanitizeTerminalResponse msg session.qname session.qtype positive
    (Recursor.proofZone session.state.chain)
  let msg := if r.validating then Recursor.applySentinel (env.sentinelFails s.ticks) msg else msg
  let msg := { msg with answers := root.accAnswers ++ msg.answers }
  { s.tell root (.answer · msg) with completed := s.completed + root.followers.length + 1 }

def completeTerminal (session : Session) (root : RootCtx) (msg : Message) (positive : Bool)
    (fetches : ℕ) (tried : List Bytes) (nsBudget : ℕ) : Reactor × Option Call :=
  let msg := { msg with
    header := { msg.header with authenticData := false, authoritative := false } }
  if r.validating then
    match env.missingDnskey s.ticks tried with
    | some (zone, servers) =>
      if fetches < maxKeyFetches && s.hasChildCapacity cfg then
        (s.insertRoot cfg root ⟨session, .root root, none,
          some ⟨msg, positive, fetches + 1, tried ++ [zone.canonicalKey]⟩, nsBudget⟩,
          some (.spawnKeyChild s.slab.next zone servers))
      else (s.retryRoot root, none)
    | none =>
      match env.validateTerminal s.ticks with
      | none => (s.retryRoot root, none)
      | some status =>
        let msg := match root.accStatus.combine status with
          | .secure => { msg with header := { msg.header with authenticData := true } }
          | .bogus ede => if r.permissive then msg else Recursor.bogusServfail msg ede
          | .insecure => msg
        (s.answerRoot r env session root msg positive, none)
  else (s.answerRoot r env session root msg positive, none)

def spawnKeyChild (zone : Name) (servers : List SocketAddr) (now : ℕ) :
    Reactor × Option Call :=
  match (s.childBudget parent now).bind fun budget =>
    Session.startAt r.maxReferrals zone .DNSKEY (.start zone servers) (env.sent s.ticks)
      budget now with
  | none => (s, some (.resumeKeyParent parent))
  | some session =>
    (s.insert ⟨session, .dnskey parent zone, none, none,
      (s.slab.get parent).elim 0 (·.nsBudget)⟩, none)

def resumeKeyParent : Reactor × Option Call :=
  match s.slab.get parent with
  | none => (s, none)
  | some pslot =>
    let s := { s with slab := s.slab.take parent }
    match pslot.awaiting with
    | none =>
      (s, some (.finish parent { pslot with awaiting := none } (.failed .noReachableNs)))
    | some awaiting =>
      match pslot.kind with
      | .root root =>
        (({ s with slab := s.slab.release parent }).forgetInflight root.sfKey parent,
          some (.completeTerminal pslot.session root awaiting.msg awaiting.positive
            awaiting.fetches awaiting.tried pslot.nsBudget))
      | _ => ({ s with slab := s.slab.release parent }, none)

def resumeParent (addrs : List SocketAddr) (addrTtl : Option UInt32) (now : ℕ) :
    Reactor × Option Call :=
  match s.slab.get parent with
  | none => (s, none)
  | some pslot =>
    match pslot.parked with
    | none =>
      ({ s with slab := s.slab.take parent }, some (.finish parent pslot (.failed .noReachableNs)))
    | some parked =>
      let parked := { parked with
        addrs := parked.addrs ++ addrs
        addrTtl := minOptionalTtl parked.addrTtl addrTtl }
      match (if parked.childrenSpawned < 8 then parked.missing[parked.nextMissing]? else none) with
      | some next =>
        let parked := { parked with
          nextMissing := parked.nextMissing + 1
          childrenSpawned := parked.childrenSpawned + 1 }
        let pslot := { pslot with parked := some parked }
        ({ s with slab := s.slab.put parent pslot }, some (.spawnChild parent next))
      | none =>
        let pending := { parked.pending with
          addrs := parked.pending.addrs ++ parked.addrs
          addressTtl := minOptionalTtl parked.pending.addressTtl parked.addrTtl }
        match pslot.session.resumeWithAddrs (env.finishReferral s.ticks pending)
          (env.sent s.ticks) now with
        | (session, e) =>
          let pslot := { pslot with session := session, parked := none }
          ({ s with slab := s.slab.put parent pslot }, e.map (.settle parent ·))

def restartRoot (qname : Name) (budget nsBudget now : ℕ) : Reactor × Option Call :=
  if budget = 0 then (s.failRoot root .noResponse, none)
  else
    match Session.startAt r.maxReferrals qname root.sfKey.2 (env.startState s.ticks qname)
      (env.sent s.ticks) budget now with
    | some session =>
      (s.insertRoot cfg root ⟨session, .root root, none, none, nsBudget⟩, none)
    | none => (s.failRoot root .noReachableNs, none)

def step (now : ℕ) : Call → Reactor × Option Call
  | .settle idx e => s.settle idx e
  | .spawnChild parent qname => s.spawnChild cfg r env parent qname now
  | .finish idx slot outcome => s.finish r env idx slot outcome now
  | .completeTerminal session root msg positive fetches tried nsBudget =>
    s.completeTerminal cfg r env session root msg positive fetches tried nsBudget
  | .spawnKeyChild parent zone servers => s.spawnKeyChild r env parent zone servers now
  | .resumeKeyParent parent => s.resumeKeyParent parent
  | .resumeParent parent addrs addrTtl => s.resumeParent env parent addrs addrTtl now
  | .restartRoot root qname budget nsBudget => s.restartRoot cfg r env root qname budget nsBudget now

end Reactor

def Call.slots : Call → List ℕ
  | .settle idx _ => [idx]
  | .spawnChild parent _ | .spawnKeyChild parent _ _ | .resumeKeyParent parent
  | .resumeParent parent _ _ => [parent]
  | .finish idx slot _ =>
    match slot.kind with
    | .root _ => [idx]
    | .nsAddr parent | .dnskey parent _ => [idx, parent]
  | .completeTerminal _ _ _ _ _ _ _ | .restartRoot _ _ _ _ => []

namespace Reactor

/-- Whether the slots that a call looks up, and those it may fill, are there. -/
def inRange (s : Reactor) (call : Call) : Bool :=
  (call.slots ++ s.slab.free).all (· < s.slab.slots.length)

/-- How much a call can still bring about. A call that gives up a slot lowers the first
factor; the others go on to a call of a lower rank. -/
def rank (s : Reactor) : Call → ℕ
  | .resumeParent _ _ _ => 65
  | .settle _ _ => 64
  | .spawnChild _ _ => 63
  | .finish _ _ _ => 62
  | .spawnKeyChild parent _ _ =>
    match (s.slab.get parent).bind (·.awaiting) with
    | some awaiting => 3 * (maxKeyFetches - awaiting.fetches) + 2
    | none => 64
  | .resumeKeyParent parent =>
    match (s.slab.get parent).bind (·.awaiting) with
    | some awaiting => 3 * (maxKeyFetches - awaiting.fetches) + 1
    | none => 63
  | .completeTerminal _ _ _ _ fetches _ _ => 3 * (maxKeyFetches - fetches)
  | .restartRoot _ _ _ _ => 0

/-- Whether a slot is held by the call itself. -/
def inHand : Call → ℕ
  | .finish _ _ _ | .completeTerminal _ _ _ _ _ _ _ | .restartRoot _ _ _ _ => 1
  | _ => 0

def weight (s : Reactor) (call : Call) : ℕ := (s.live + inHand call) * 66 + s.rank call

variable (cfg : ReactorConfig) (r : Recursor) (env : LaneEnv)

/-- Calls until there is none left. An index out of range is the end of the lane. -/
def drive (now : ℕ) : (fuel : ℕ) → Reactor → Option Call → Option Reactor
  | _, s, none => some s
  | 0, _, some _ => none
  | fuel + 1, s, some call =>
    if s.inRange call then
      match s.step cfg r env now call with
      | (s, next) => drive now fuel { s with ticks := s.ticks + 1 } next
    else none

variable (s : Reactor)

/-- A call with everything that follows it. -/
def perform (now : ℕ) (call : Call) : Option Reactor :=
  drive cfg r env now (s.weight call + 1) s (some call)

/-- What is asked of a lane. -/
inductive Action where
  /-- `submit`, with where the session starts and whether its question goes out. -/
  | submit (qname : Name) (qtype : RecordType) (token : Token) (cd : Bool) (start : IterationState)
      (sent : Option ℕ) (now : ℕ)
  /-- `collect_pollfds`. -/
  | collect
  /-- `pump`, with the datagrams at each slot. -/
  | pump (replies : ℕ → List Reply) (now : ℕ)
  /-- `on_tick`, with what becomes of a question that is asked of another server. -/
  | tick (sent : ℕ → Option ℕ) (now : ℕ)

inductive SubmitOutcome where
  | accepted | merged | rejected | failed

def SubmitOutcome.take (token : Token) (taken : List Token) : SubmitOutcome → List Token
  | .accepted | .merged => token :: taken
  | .rejected | .failed => taken

/-- The session of a slot that a question can join. -/
def leaderOf (key : SfKey) : Option (ℕ × Slot × RootCtx) :=
  match s.inflight.lookup key with
  | none => none
  | some idx =>
    match s.slab.get idx with
    | some slot =>
      match slot.kind with
      | .root root => if root.sfKey = key then some (idx, slot, root) else none
      | _ => none
    | none => none

def submit (qname : Name) (qtype : RecordType) (token : Token) (cd : Bool)
    (start : IterationState) (sent : Option ℕ) (now : ℕ) : Option (SubmitOutcome × Reactor) :=
  if cd && !cfg.ignoreCd then some (.rejected, s)
  else
    let key := (qname.canonicalKey, qtype)
    if cfg.singleflight && (s.inflight.lookup key).any (s.slab.slots.length ≤ ·) then none
    else
      match if cfg.singleflight then s.leaderOf key else none with
      | some (idx, slot, root) =>
        let root := { root with followers := root.followers ++ [token] }
        let slot := { slot with kind := .root root }
        some (.merged, { s with slab := s.slab.put idx slot, merged := s.merged + 1 })
      | none =>
        if !s.hasCapacity cfg then some (.rejected, s)
        else
          match Session.startAt r.maxReferrals qname qtype start sent cfg.sessionBudget now with
          | none => some (.failed, s)
          | some session =>
            let root : RootCtx := ⟨token, [], key, [], 0, 0, .secure⟩
            if s.slab.next ≤ s.slab.slots.length then
              some (.accepted,
                s.insertRoot cfg root ⟨session, .root root, none, none, r.maxNsResolves⟩)
            else none

/-- `collect_pollfds`: the slots that wait for a datagram. -/
def pollable : List ℕ :=
  (List.range s.slab.slots.length).filter fun i =>
    (s.slab.get i).any fun slot => slot.parked.isNone && slot.awaiting.isNone

def setSession (idx : ℕ) (slot : Slot) (session : Session) : Reactor :=
  let slot := { slot with session := session }
  { s with slab := s.slab.put idx slot }

/-- One slot of `pump`. -/
def pumpSlot (idx : ℕ) (replies : List Reply) (now : ℕ) : Option Reactor :=
  if s.slab.slots.length ≤ idx then none
  else
    match s.slab.get idx with
    | none => some s
    | some slot =>
      match slot.session.receive now replies with
      | (session, none) => some (s.setSession idx slot session)
      | (session, some e) => (s.setSession idx slot session).perform cfg r env now (.settle idx e)

/-- What the clock does to a session: the session after it, and whether it is over. -/
def expire (session : Session) (sent : Option ℕ) (now : ℕ) : Session × Bool :=
  if session.exchange.any (· ≤ now) then
    let (session, asked) := session.onExchangeTimeout sent now
    (session, !asked || session.sessionDeadline ≤ now)
  else (session, session.sessionDeadline ≤ now)

/-- One slot of `on_tick`. -/
def tickSlot (idx : ℕ) (sent : Option ℕ) (now : ℕ) : Option Reactor :=
  if s.slab.slots.length ≤ idx then none
  else
    match s.slab.get idx with
    | none => some s
    | some slot =>
      if slot.parked.isSome || slot.awaiting.isSome then some s
      else
        match expire slot.session sent now with
        | (session, false) => some (s.setSession idx slot session)
        | (session, true) =>
          (s.setSession idx slot session).perform cfg r env now (.settle idx (.failed .noResponse))

def overSlots (f : Reactor → ℕ → Option Reactor) : List ℕ → Reactor → Option Reactor
  | [], s => some s
  | idx :: rest, s => (f s idx).bind (overSlots f rest)

def act : Action → Option Reactor
  | .submit qname qtype token cd start sent now =>
    (s.submit cfg r qname qtype token cd start sent now).map fun (outcome, s') =>
      { s' with taken := outcome.take token s.taken }
  | .collect => some { s with pollMap := s.pollable }
  | .pump replies now =>
    overSlots (fun s idx => s.pumpSlot cfg r env idx (replies idx) now) s.pollMap s
  | .tick sent now =>
    overSlots (fun s idx => s.tickSlot cfg r env idx (sent idx) now)
      (List.range s.slab.slots.length) s

def run (s : Reactor) : List Action → Option Reactor
  | [] => some s
  | action :: rest => (s.act cfg r env action).bind fun s => run s rest

end Reactor

end OnetDns.Recurse
