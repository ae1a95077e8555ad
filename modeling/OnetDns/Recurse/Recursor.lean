import Mathlib.Data.List.Destutter
import Mathlib.Data.List.Sort
import OnetDns.Recurse.Messages

/-!
# The recursor

`Recursor` of `onetdns-recurse/src/lib.rs`: the iteration down the delegations, the
resolution of name servers on the way, aliases, and the caches that are shared by all
questions. What comes from outside is asked of an `Env`: the messages that `query_any`
returns, the clock, and what the validator says. A log keeps what happened; the code has
none.
-/
namespace OnetDns.Recurse
open Dns

inductive IpAddr where
  | v4 (address : Ipv4Addr)
  | v6 (address : Ipv6Addr)
  deriving DecidableEq

/-- The bytes by which addresses are ordered; those of IPv4 come first. -/
def IpAddr.orderKey : IpAddr → List ℕ
  | .v4 address => 4 :: address.bytes.map UInt8.toNat
  | .v6 address => 6 :: address.bytes.map UInt8.toNat

structure SocketAddr where
  ip : IpAddr
  port : UInt16
  deriving DecidableEq

def SocketAddr.orderKey (addr : SocketAddr) : List ℕ := addr.ip.orderKey ++ [addr.port.toNat]

/-- `sort_unstable`, then `dedup`. -/
def sortDedup {α : Type} [DecidableEq α] (orderKey : α → List ℕ) (items : List α) : List α :=
  (items.insertionSort fun a b => orderKey a ≤ orderKey b).destutter (· ≠ ·)

def maxCachedNsAddrs : ℕ := 64
def maxTotalQueries : ℕ := 256

/-- `LruMap`: the entries, the latest first. -/
structure LruMap (ν : Type) where
  cap : ℕ
  entries : List (Bytes × ν)

namespace LruMap

variable {ν : Type}

def empty (cap : ℕ) : LruMap ν := ⟨max cap 1, []⟩

def pop (m : LruMap ν) (key : Bytes) : LruMap ν :=
  { m with entries := m.entries.filter fun entry => entry.1 ≠ key }

/-- `get`: the entry that is read becomes the latest. -/
def get (m : LruMap ν) (key : Bytes) : Option ν × LruMap ν :=
  match m.entries.find? fun entry => entry.1 = key with
  | none => (none, m)
  | some entry => (some entry.2, { m with entries := entry :: (m.pop key).entries })

/-- `put`: the oldest entry makes room. -/
def put (m : LruMap ν) (key : Bytes) (value : ν) : LruMap ν :=
  { m with entries := (key, value) :: (m.pop key).entries.take (m.cap - 1) }

end LruMap

/-- What a cache holds under a name, until a time in milliseconds. -/
structure CacheEntry (α : Type) where
  addrs : List α
  expiresAtMillis : ℕ

inductive RecurseError where
  | noRoots
  | noResponse
  | tooManyReferrals
  | tooManyCnames
  | tooManyDnames
  | tooManyQueries
  | noReachableNs
  | bogus

inductive SecurityStatus where
  | secure
  | insecure
  | bogus (code : UInt16)

/-- `combine`: the worse of two. -/
def SecurityStatus.combine : SecurityStatus → SecurityStatus → SecurityStatus
  | .bogus code, _ => .bogus code
  | _, .bogus code => .bogus code
  | .insecure, _ | _, .insecure => .insecure
  | .secure, .secure => .secure

/-- The settings. -/
structure Recursor where
  roots : List SocketAddr
  port : UInt16
  maxReferrals : ℕ
  maxCnames : ℕ
  maxDnames : ℕ
  maxNsResolves : ℕ
  recursiveCacheTtlMax : UInt32
  doIp4 : Bool
  doIp6 : Bool
  isQueryable : IpAddr → Bool
  qnameMinStrict : Bool
  hardenReferralPath : Bool
  validating : Bool
  permissive : Bool
  honorCd : Bool

/-- What comes from outside, by the number of times that something was asked. -/
structure Env where
  /-- `query_any`, with the servers, the name and the type that are asked. -/
  queryAny : ℕ → List SocketAddr → Name → RecordType → Except RecurseError Message
  cacheNowMillis : ℕ → ℕ
  validatedStartOk : ℕ → Name → Bool
  validate : ℕ → SecurityStatus
  sentinelFails : ℕ → Bool

/-- What happens while questions are resolved. -/
inductive Event where
  /-- A round of an iteration that went through zones. -/
  | round (qname : Name) (zones : List Name)
  /-- A reply of the servers of a zone, on the way to a name. -/
  | asked (qname zone : Name) (servers : List SocketAddr) (isFinal : Bool) (resp : Message)
  /-- A name server was resolved on the side. -/
  | side (ns : Name) (rtype : RecordType) (resp : Message)
  /-- A delegation was followed. -/
  | referred (qname parent child : Name) (resp : Message) (servers : List SocketAddr)
  deriving DecidableEq

structure World where
  delegCache : LruMap (CacheEntry SocketAddr)
  nsAddrCache : LruMap (CacheEntry IpAddr)
  nsResolves : ℕ
  queries : ℕ
  ticks : ℕ
  log : List Event

/-- A recursor that was not asked anything. -/
def World.start (delegMax nsAddrMax : ℕ) : World := ⟨.empty delegMax, .empty nsAddrMax, 0, 0, 0, []⟩

abbrev RunM := ExceptT RecurseError (StateM World)

def record (event : Event) : RunM Unit := modify fun w => { w with log := event :: w.log }

/-- The number of the next thing that is asked of the environment. -/
def tick : RunM ℕ := modifyGet fun w => (w.ticks, { w with ticks := w.ticks + 1 })

/-- One of the queries that the budget allows. -/
def takeQuery : RunM Unit := fun w =>
  if w.queries = 0 then (.error .tooManyQueries, w)
  else (.ok (), { w with queries := w.queries - 1 })

/-- One of the name servers that the budget allows to resolve, if there is one. -/
def takeNsResolve : RunM Bool := modifyGet fun w =>
  (w.nsResolves ≠ 0, { w with nsResolves := w.nsResolves - 1 })

def nsResolvesLeft : RunM ℕ := modifyGet fun w => (w.nsResolves, w)

def setNsResolves (left : ℕ) : RunM Unit := modify fun w => { w with nsResolves := left }

namespace Recursor

variable (r : Recursor) (env : Env)

def familyAllowed : IpAddr → Bool
  | .v4 _ => r.doIp4
  | .v6 _ => r.doIp6

def serverEligible (ip : IpAddr) : Bool := r.familyAllowed ip && r.isQueryable ip

/-- Seconds that are left, rounded up. -/
def remainingSecs (expiresAt now : ℕ) : UInt32 :=
  UInt32.ofNat (min ((expiresAt - now + 999) / 1000) (2 ^ 32 - 1))

/-- The loop of `deepest_cached_delegation` over the number of labels. -/
def deepestLoop (now : ℕ) (qname : Name) : (labels : ℕ) → LruMap (CacheEntry SocketAddr) →
    Option (Name × List SocketAddr) × LruMap (CacheEntry SocketAddr)
  | 0, cache => (none, cache)
  | labels + 1, cache =>
    let key := (qname.suffix (labels + 1)).canonicalKey
    match cache.get key with
    | (some entry, cache) =>
      if now < entry.expiresAtMillis then (some (qname.suffix (labels + 1), entry.addrs), cache)
      else deepestLoop now qname labels (cache.pop key)
    | (none, cache) => deepestLoop now qname labels cache

def deepestCachedDelegation (qname : Name) : RunM (Option (Name × List SocketAddr)) := do
  let now := env.cacheNowMillis (← tick)
  modifyGet fun w =>
    let (found, cache) := deepestLoop now qname qname.numLabels w.delegCache
    (found, { w with delegCache := cache })

def delegEvictPath (qname : Name) : RunM Unit := modify fun w =>
  let keys := (List.range qname.numLabels).map fun k => (qname.suffix (k + 1)).canonicalKey
  { w with delegCache := keys.foldl LruMap.pop w.delegCache }

/-- The end of the life of an entry that is stored now. -/
def expiry (ttl : UInt32) : RunM ℕ := do
  return min (env.cacheNowMillis (← tick) + ttl.toNat * 1000) (2 ^ 64 - 1)

def delegStore (zone : Name) (servers : List SocketAddr) (ttlSecs : UInt32) : RunM Unit :=
  let ttl := min ttlSecs r.recursiveCacheTtlMax
  if servers = [] ∨ ttl = 0 then return
  else do
    let stored := (sortDedup SocketAddr.orderKey servers).take maxCachedNsAddrs
    let expiresAt ← expiry env ttl
    modify fun w => { w with delegCache := w.delegCache.put zone.canonicalKey ⟨stored, expiresAt⟩ }

def nsAddrLookup (now : ℕ) (key : Bytes) (cache : LruMap (CacheEntry IpAddr)) :
    Option (List IpAddr × UInt32) × LruMap (CacheEntry IpAddr) :=
  match cache.get key with
  | (none, cache) => (none, cache)
  | (some entry, cache) =>
    if now < entry.expiresAtMillis then
      (some (entry.addrs, remainingSecs entry.expiresAtMillis now), cache)
    else (none, cache.pop key)

def nsAddrCachedWithTtl (key : Bytes) : RunM (Option (List IpAddr × UInt32)) := do
  let now := env.cacheNowMillis (← tick)
  modifyGet fun w =>
    let (found, cache) := nsAddrLookup now key w.nsAddrCache
    (found, { w with nsAddrCache := cache })

def nsAddrStore (key : Bytes) (addrs : List IpAddr) (ttlSecs : UInt32) : RunM Unit :=
  let stored := (sortDedup IpAddr.orderKey addrs).take maxCachedNsAddrs
  let ttl := min ttlSecs r.recursiveCacheTtlMax
  if ttl = 0 then return
  else do
    let expiresAt ← expiry env ttl
    modify fun w => { w with nsAddrCache := w.nsAddrCache.put key ⟨stored, expiresAt⟩ }

def addressOf (rtype : RecordType) (record : Record) : Option IpAddr :=
  if record.class' = .IN then
    match record.rdata with
    | .a address => if rtype = .A then some (.v4 address) else none
    | .aaaa address => if rtype = .AAAA then some (.v6 address) else none
    | _ => none
  else none

section Side

variable (side : Name → RecordType → RunM (Message × SecurityStatus))

/-- The addresses of one family, with the records they are from. A failure gives none. -/
def resolveFamily (enabled : Bool) (ns : Name) (rtype : RecordType) :
    RunM (List (IpAddr × UInt32)) :=
  if enabled then
    tryCatch (do
      let (resp, _) ← side ns rtype
      Recurse.record (.side ns rtype resp)
      return resp.answers.filterMap fun r => (addressOf rtype r).map fun ip => (ip, r.ttl))
      fun _ => return []
  else return []

/-- The loop of `resolve_ns_addrs`. -/
def resolveNsLoop : List Name → (all : List SocketAddr) → (ttl : Option UInt32) →
    RunM (List SocketAddr × Option UInt32)
  | [], all, ttl => return (all, ttl)
  | ns :: rest, all, ttl => do
    match ← nsAddrCachedWithTtl env ns.canonicalKey with
    | some (addrs, left) =>
      resolveNsLoop rest (all ++ addrs.map (⟨·, r.port⟩)) (minOptionalTtl ttl (some left))
    | none =>
      if ← takeNsResolve then
        let v4 ← resolveFamily side r.doIp4 ns .A
        let v6 ← resolveFamily side r.doIp6 ns .AAAA
        let resolved := (sortDedup IpAddr.orderKey ((v4 ++ v6).map (·.1))).take maxCachedNsAddrs
        let minTtl := (v4 ++ v6).foldl (fun ttl found => min ttl found.2) 0xFFFFFFFF
        if v4 ++ v6 = [] then resolveNsLoop rest all ttl
        else
          r.nsAddrStore env ns.canonicalKey resolved minTtl
          resolveNsLoop rest (all ++ resolved.map (⟨·, r.port⟩)) (minOptionalTtl ttl (some minTtl))
      else return (all, ttl)

def resolveNsAddrs (nsNames : List Name) : RunM (List SocketAddr × Option UInt32) := do
  let (all, ttl) ← r.resolveNsLoop env side nsNames [] none
  return (sortDedup SocketAddr.orderKey (all.filter fun s => r.serverEligible s.ip), ttl)

end Side

end Recursor

structure ZoneStep where
  zone : Name
  servers : List SocketAddr
  nsNames : List Name

structure IterationState where
  zone : Name
  servers : List SocketAddr
  depth : ℕ
  minimize : Bool
  chain : List ZoneStep

def IterationState.start (zone : Name) (servers : List SocketAddr) : IterationState :=
  ⟨zone, servers, zone.numLabels, true, [⟨zone, servers, []⟩]⟩

structure NextQuery where
  target : ℕ
  isFinal : Bool
  mname : Name
  mtype : RecordType

/-- `next_query`: one label more at a time, as long as names are minimised. -/
def IterationState.nextQuery (state : IterationState) (qname : Name) (qtype : RecordType) :
    NextQuery :=
  let target := if state.minimize then min (state.depth + 1) qname.numLabels else qname.numLabels
  let isFinal := decide (qname.numLabels ≤ target)
  ⟨target, isFinal, qname.suffix target, if isFinal then qtype else .NS⟩

structure PendingReferral where
  zone : Name
  resp : Message
  nsNames : List Name
  addrs : List SocketAddr
  addressTtl : Option UInt32

inductive StepOutcome where
  | done (resp : Message)
  | goOn (state : IterationState)
  | needNsAddrs (missing : List Name) (pending : PendingReferral)
  | failed (error : RecurseError)

namespace Recursor

variable (r : Recursor) (env : Env)

/-- The address that an additional record gives for a name server, if the zone may say. -/
def glueOf (nsNames : List Name) (zone : Name) (record : Record) : Option SocketAddr :=
  if record.class' = .IN && nsNames.any (·.eqIgnoreCase record.name) &&
      isWithin record.name zone then
    match record.rdata with
    | .a ip => if r.serverEligible (.v4 ip) then some ⟨.v4 ip, r.port⟩ else none
    | .aaaa ip => if r.serverEligible (.v6 ip) then some ⟨.v6 ip, r.port⟩ else none
    | _ => none
  else none

/-- `glue_addrs`: addresses, names without one, and the shortest lifetime. -/
def glueAddrs (resp : Message) (nsNames : List Name) (zone : Name) :
    List SocketAddr × List Name × Option UInt32 :=
  let used := resp.additionals.filter fun record => (r.glueOf nsNames zone record).isSome
  (sortDedup SocketAddr.orderKey (used.filterMap (r.glueOf nsNames zone)),
    nsNames.filter fun name => !used.any fun record => record.name.eqIgnoreCase name,
    (used.map (·.ttl)).min?)

def finishReferral (qname : Name) (state : IterationState) (pending : PendingReferral) :
    RunM StepOutcome := do
  let addrs := (sortDedup SocketAddr.orderKey pending.addrs).take maxCachedNsAddrs
  if addrs = [] then return .failed .noReachableNs
  else
    record (.referred qname state.zone pending.zone pending.resp addrs)
    match minNsTtl pending.resp pending.zone with
    | some ttl => r.delegStore env pending.zone addrs (pending.addressTtl.elim ttl (min · ttl))
    | none => pure ()
    return .goOn
      { state with
        servers := addrs
        chain := state.chain ++ [⟨pending.zone, addrs, pending.nsNames⟩]
        depth := pending.zone.numLabels
        zone := pending.zone }

/-- The end of `advance`: the response is no answer and no denial. -/
def advanceReferral (qname : Name) (state : IterationState) (resp : Message) (plan : NextQuery) :
    RunM StepOutcome :=
  match extractReferral resp qname with
  | (referral, nsNames) =>
    match referral.filter fun nz => isCloser nz state.zone && isWithin qname nz with
    | some nz =>
      let (addrs, missing, addressTtl) := r.glueAddrs resp nsNames state.zone
      let pending := ⟨nz, resp, nsNames, addrs, addressTtl⟩
      if missing ≠ [] ∧ addrs = [] then return .needNsAddrs missing pending
      else r.finishReferral env qname state pending
    | none =>
      if plan.isFinal then
        if isTerminalResponse resp qname state.zone then return .done resp
        else return .failed .noReachableNs
      else if r.hardenReferralPath && (referral.isSome || !resp.header.authoritative) then
        return .failed .noReachableNs
      else return .goOn { state with depth := plan.target }

def advance (qname : Name) (qtype : RecordType) (state : IterationState) (resp : Message)
    (plan : NextQuery) : RunM StepOutcome :=
  let resp := if plan.isFinal then stripOutOfBailiwickDnames resp state.zone else resp
  if plan.isFinal && isRelevantPositive resp qname qtype then return .done resp
  else if isDnameYxdomain resp qname then return .done resp
  else if resp.header.rcode = rcodeNXDomain then
    if !isAuthoritativeNegative resp plan.mname state.zone then return .failed .noReachableNs
    else if plan.isFinal || r.qnameMinStrict then return .done resp
    else return .goOn { state with minimize := false }
  else r.advanceReferral env qname state resp plan

section Side

variable (side : Name → RecordType → RunM (Message × SecurityStatus))

variable (qname : Name)

/-- One round of `iterate_from`. -/
def iterateRound (qtype : RecordType) (state : IterationState) :
    RunM StepOutcome := do
  let plan := state.nextQuery qname qtype
  record (.round qname (state.chain.map (·.zone)))
  takeQuery
  let n ← tick
  let resp ← liftM (env.queryAny n state.servers plan.mname plan.mtype)
  record (.asked qname state.zone state.servers plan.isFinal resp)
  match ← r.advance env qname qtype state resp plan with
  | .needNsAddrs missing pending => do
    let (extra, sideTtl) ← r.resolveNsAddrs env side missing
    r.finishReferral env qname state
      { pending with
        addrs := pending.addrs ++ extra
        addressTtl := minOptionalTtl pending.addressTtl sideTtl }
  | outcome => return outcome

/-- The loop of `iterate_from`, with the delegations that were followed. -/
def iterateLoop (qname : Name) (qtype : RecordType) : (rounds referrals : ℕ) → IterationState →
    RunM (Message × List ZoneStep)
  | 0, _, _ => throw .tooManyReferrals
  | rounds + 1, referrals, state => do
    match ← r.iterateRound env side qname qtype state with
    | .done resp => return (resp, state.chain)
    | .failed error => throw error
    | .needNsAddrs _ _ => throw .noReachableNs
    | .goOn state' =>
      if state.zone.numLabels < state'.zone.numLabels then
        if r.maxReferrals < referrals + 1 then throw .tooManyReferrals
        else iterateLoop qname qtype rounds (referrals + 1) state'
      else iterateLoop qname qtype rounds referrals state'

def iterateFrom (qtype : RecordType) (zone : Name) (servers : List SocketAddr) :
    RunM (Message × List ZoneStep) :=
  r.iterateLoop env side qname qtype (r.maxReferrals + qname.numLabels + 2) 0 (.start zone servers)

def validatedStartOk (zone : Name) : RunM Bool := do
  let n ← tick
  return !r.validating || env.validatedStartOk n zone

/-- From a delegation of the cache, unless that fails. -/
def iterateCached (qtype : RecordType) (zone : Name) (servers : List SocketAddr) :
    RunM (Option (Message × List ZoneStep)) := do
  let saved ← nsResolvesLeft
  let found ← tryCatch (some <$> r.iterateFrom env side qname qtype zone servers) fun _ => do
    delegEvictPath qname
    return none
  match found with
  | some (resp, chain) =>
    if ← r.validatedStartOk env ((chain.getLast?.map (·.zone)).getD zone) then
      return some (resp, chain)
    else
      setNsResolves saved
      return none
  | none =>
    setNsResolves saved
    return none

def iterate (qtype : RecordType) : RunM (Message × List ZoneStep) := do
  let cached ← deepestCachedDelegation env qname
  let found ← match cached with
    | none => pure none
    | some (zone, servers) => do
      if ← r.validatedStartOk env zone then r.iterateCached env side qname qtype zone servers
      else pure none
  match found with
  | some result => return result
  | none => r.iterateFrom env side qname qtype Name.root r.roots

end Side

/-- What the validator says, if there is one. -/
def verdict : RunM SecurityStatus := do
  let n ← tick
  return if r.validating then env.validate n else .insecure

/-- `alias.append(tail)`: the answers of an alias in front of those of its target. -/
def withAlias (records : List Record) (resp tail : Message) : Message :=
  { tail with answers := records ++ tail.answers, questions := resp.questions }

def proofZone (chain : List ZoneStep) : Option Name := chain.getLast?.map (·.zone)

/-- `resolve_inner`, with the depth to which resolutions may nest. -/
def resolveInner : (fuel : ℕ) → (qname : Name) → (qtype : RecordType) →
    (cnameDepth dnameDepth : ℕ) → RunM (Message × SecurityStatus)
  | 0, _, _, _, _ => throw .noResponse
  | fuel + 1, qname, qtype, cnameDepth, dnameDepth =>
    if r.maxCnames < cnameDepth then throw .tooManyCnames
    else if r.maxDnames < dnameDepth then throw .tooManyDnames
    else do
    let (resp, chain) ← r.iterate env (fun ns rtype => resolveInner fuel ns rtype 0 0) qname qtype
    match dnameRewrite resp qname with
    | some (record, target, synthetic) =>
      let status ← r.verdict env
      let (tail, tailStatus) ← resolveInner fuel target qtype cnameDepth (dnameDepth + 1)
      return (withAlias (aliasRrsetRecords resp record.name .DNAME ++ [synthetic]) resp tail,
        status.combine tailStatus)
    | none =>
      if hasDirectQtypeAnswer resp qname qtype then
        let status ← r.verdict env
        return (sanitizeTerminalResponse resp qname qtype true none, status)
      else if resp.header.rcode = rcodeNXDomain then
        let status ← r.verdict env
        return (sanitizeTerminalResponse resp qname qtype false (proofZone chain), status)
      else
        match cnameTarget resp qname with
        | some target =>
          let status ← r.verdict env
          let (tail, tailStatus) ← resolveInner fuel target qtype (cnameDepth + 1) dnameDepth
          return (withAlias (aliasRrsetRecords resp qname .CNAME) resp tail,
            status.combine tailStatus)
        | none =>
          let status ← r.verdict env
          return (sanitizeTerminalResponse resp qname qtype false (proofZone chain), status)

/-- `bogus_servfail`: nothing is left but the question. -/
def bogusServfail (template : Message) (ede : UInt16) : Message :=
  let text := if ede = 27 then "NSEC3 iterations above local limit" else "DNSSEC validation failed"
  let opt := Edns.tryToRecord { Edns.default with
    options := [(15, be16 ede ++ text.toUTF8.toList)] }
  { header := ⟨template.header.id, false, 0, false, false, false, false, false, false, rcodeServFail⟩
    questions := template.questions
    answers := []
    authorities := []
    additionals := opt.toOption.toList }

/-- What the verdict does to an answer. -/
def applyStatus (status : SecurityStatus) (out : Message) : Message :=
  match status with
  | .secure => { out with header := { out.header with authenticData := true } }
  | .insecure => out
  | .bogus code => if !r.permissive && !r.honorCd then bogusServfail out code else out

/-- `apply_sentinel`: a failed sentinel leaves nothing of an authenticated answer. -/
def applySentinel (fails : Bool) (out : Message) : Message :=
  if fails && out.header.authenticData then
    { out with
      header := { out.header with rcode := rcodeServFail, authenticData := false }
      answers := []
      authorities := []
      additionals := [] }
  else out

/-- The flags of every answer. -/
def asAnswer (out : Message) : Message :=
  { out with header := { out.header with response := true, recursionAvailable := true } }

def withoutAd (out : Message) : Message :=
  { out with header := { out.header with authenticData := false } }

def iterateToAnswer (fuel : ℕ) (qname : Name) (qtype : RecordType) : RunM Message :=
  if r.roots = [] then throw .noRoots
  else do
  modify fun w => { w with nsResolves := r.maxNsResolves, queries := maxTotalQueries }
  let (resp, chain) ← r.iterate env (fun ns rtype => r.resolveInner env fuel ns rtype 0 0)
    qname qtype
  if isDnameYxdomain resp qname then
    return asAnswer { withoutAd resp with
      answers := resp.answers.filter keepsDname, authorities := [], additionals := [] }
  else
    match aliasHop resp qname qtype with
    | none =>
      let positive := resp.header.rcode = rcodeNoError && hasDirectQtypeAnswer resp qname qtype
      let status ← r.verdict env
      let out := r.applyStatus status (withoutAd resp)
      let out := sanitizeTerminalResponse out qname qtype positive (proofZone chain)
      let fails := env.sentinelFails (← tick)
      return asAnswer (applySentinel fails out)
    | some hop =>
      let (cnameDepth, dnameDepth) := if hop.atype = .DNAME then (0, 1) else (1, 0)
      let status ← r.verdict env
      let (tail, tailStatus) ← r.resolveInner env fuel hop.target qtype cnameDepth dnameDepth
      let out := withoutAd (withAlias hop.records resp tail)
      return asAnswer (r.applyStatus (status.combine tailStatus) out)

def resolve (fuel : ℕ) (qname : Name) (qtype : RecordType) : RunM Message := do
  let out ← r.iterateToAnswer env fuel qname qtype
  return { out with header := { out.header with authoritative := false } }

end Recursor

end OnetDns.Recurse
