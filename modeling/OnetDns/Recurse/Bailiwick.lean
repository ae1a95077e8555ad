import OnetDns.Lib.Runs
import OnetDns.Recurse.Recursor

/-!
# Bailiwick

Where the zones, the servers and the records of a resolution come from. Every statement is
about the log, so it holds of everything that happened before as well.
-/
namespace OnetDns.Recurse
open Dns Runs List Option Name LruMap Recursor Subset

def nsNamesOf (resp : Message) (zone : Name) : List Name :=
  resp.authorities.filterMap fun r => if r.name.eqIgnoreCase zone then nsTarget r else none

/-- The address that a record holds. -/
def gives (record : Record) : Option IpAddr :=
  if record.class' = .IN then
    match record.rdata with
    | .a address => some (.v4 address)
    | .aaaa address => some (.v6 address)
    | _ => none
  else none

/-- An address from glue that lies inside the zone that delegates. -/
def FromGlue (resp : Message) (parent child : Name) (ip : IpAddr) : Prop :=
  ∃ ns ∈ nsNamesOf resp child, ∃ a ∈ resp.additionals,
    a.name.path = ns.path ∧ parent.path <+: a.name.path ∧ gives a = some ip

/-- An address from a resolution of the name server itself. -/
def FromSide (log : List Event) (ns : Name) (ip : IpAddr) : Prop :=
  ∃ ns' rtype resp, .side ns' rtype resp ∈ log ∧ ns'.path = ns.path ∧
    ∃ a ∈ resp.answers, gives a = some ip

section Events

variable (r : Recursor) (log : List Event)

/-- Servers of a zone: the roots, or those of a delegation that was followed. -/
def ServersOf (zone : Name) (servers : List SocketAddr) : Prop :=
  zone.path = [] ∧ servers = r.roots ∨
    ∃ qname parent child resp addrs, .referred qname parent child resp addrs ∈ log ∧
      child.path = zone.path ∧ servers ⊆ addrs

/-- The zones of an iteration lie above the name, each strictly below the one before it.
Replies come from servers of the last one. A delegation leads strictly down, stays above the
name, is from a reply of the zone it leaves, and its servers are from glue inside that zone
or from a resolution of the name server. -/
def Event.Bound : Event → Prop
  | .round qname zones => (∀ zone ∈ zones, zone.path <+: qname.path) ∧
    zones.IsChain fun parent child => parent.path <+: child.path ∧ parent.path ≠ child.path
  | .asked qname zone servers _ _ => zone.path <+: qname.path ∧ ServersOf r log zone servers ∧
    ∃ zones, .round qname (zones ++ [zone]) ∈ log
  | .side _ _ _ => True
  | .referred qname parent child resp servers =>
    parent.path <+: child.path ∧ parent.path ≠ child.path ∧ child.path <+: qname.path ∧
      (∃ asked isFinal raw, .asked qname parent asked isFinal raw ∈ log ∧
        raw.authorities = resp.authorities ∧ raw.additionals = resp.additionals) ∧
      ∀ s ∈ servers, FromGlue resp parent child s.ip ∨
        ∃ ns ∈ nsNamesOf resp child, FromSide log ns s.ip

/-- Where the answers and the authority of a message come from, along the chain of aliases. -/
inductive Accounted : Name → List Record → List Record → Prop
  | refused {qname : Name} : Accounted qname [] []
  | answered {qname zone : Name} {servers : List SocketAddr} {isFinal : Bool} {resp : Message}
      {answers : List Record} (hasked : .asked qname zone servers isFinal resp ∈ log)
      (hzone : zone.path <+: qname.path)
      (hanswers : ∀ a ∈ answers, a ∈ resp.answers ∧ a.name.path = qname.path) :
      Accounted qname answers []
  | denied {qname zone : Name} {servers : List SocketAddr} {isFinal : Bool} {resp : Message}
      {authorities : List Record} (hasked : .asked qname zone servers isFinal resp ∈ log)
      (hproof : ∀ a ∈ authorities, a ∈ resp.authorities ∧ zone.path <+: a.name.path ∧
        a.rtype ∈ [RecordType.SOA, .NSEC, .NSEC3, .RRSIG]) :
      Accounted qname [] authorities
  | cname {qname zone target : Name} {servers : List SocketAddr} {isFinal : Bool} {resp : Message}
      {records answers authorities : List Record}
      (hasked : .asked qname zone servers isFinal resp ∈ log) (hzone : zone.path <+: qname.path)
      (hrecords : ∀ a ∈ records, a ∈ resp.answers ∧ a.name.path = qname.path)
      (hlink : ∃ a ∈ resp.answers, a.name.path = qname.path ∧ a.rdata = .cname target)
      (htail : Accounted target answers authorities) :
      Accounted qname (records ++ answers) authorities
  | dname {qname zone owner suffix target : Name} {servers : List SocketAddr} {isFinal : Bool}
      {resp : Message} {ttl : UInt32} {records answers authorities : List Record}
      (hasked : .asked qname zone servers isFinal resp ∈ log)
      (hzone : zone.path <+: owner.path) (howner : owner.path <+: qname.path)
      (hrecords : ∀ a ∈ records, a ∈ resp.answers ∧ a.name.path = owner.path)
      (hlink : ∃ a ∈ resp.answers, a.name.path = owner.path ∧ a.rdata = .dname suffix)
      (htarget : Name.fromLabels (qname.labels.take (qname.numLabels - owner.numLabels) ++
        suffix.labels) = .ok target)
      (htail : Accounted target answers authorities) :
      Accounted qname (records ++ [.new qname ttl (.cname target)] ++ answers) authorities
  | tooLong {qname zone : Name} {servers : List SocketAddr} {isFinal : Bool} {resp : Message}
      {answers : List Record} (hasked : .asked qname zone servers isFinal resp ∈ log)
      (hanswers : ∀ a ∈ answers, a ∈ resp.answers ∧ zone.path <+: a.name.path ∧
        a.name.path <+: qname.path ∧ a.name.path ≠ qname.path) :
      Accounted qname answers []

/-- What `advance` looks at. -/
def seen (isFinal : Bool) (zone : Name) (resp : Message) : Message :=
  if isFinal then stripOutOfBailiwickDnames resp zone else resp

/-- A reply that the filters are enough for. In one that says YXDOMAIN for the name, every
DNAME and every signature over one is of the zone and above the name; in one that ends a
minimised question with NXDOMAIN, the DNAMEs above the name are of the zone. -/
def Event.Clean : Event → Prop
  | .asked qname zone _ isFinal resp =>
    (isDnameYxdomain (seen isFinal zone resp) qname = true →
      ∀ a ∈ (seen isFinal zone resp).answers, keepsDname a = true →
        zone.path <+: a.name.path ∧ isAbove a.name qname = true) ∧
    (r.qnameMinStrict = true → isFinal = false → resp.header.rcode = rcodeNXDomain →
      ∀ a ∈ resp.answers, a.class' = .IN → isDname a = true → isAbove a.name qname = true →
        zone.path <+: a.name.path)
  | _ => True

end Events

/-- What holds of the recursor at all times. -/
structure Inv (r : Recursor) (w : World) : Prop where
  bound : ∀ e ∈ w.log, e.Bound r w.log
  deleg : ∀ entry ∈ w.delegCache.entries, ∃ qname parent child resp servers,
    .referred qname parent child resp servers ∈ w.log ∧ entry.1 = child.canonicalKey ∧
      entry.2.addrs ⊆ servers
  nsAddr : ∀ entry ∈ w.nsAddrCache.entries, ∃ ns : Name, entry.1 = ns.canonicalKey ∧
    ∀ ip ∈ entry.2.addrs, FromSide w.log ns ip

/-- The log only grows. -/
def discipline (r : Recursor) : Discipline World where
  inv := Inv r
  grows a b := a.log ⊆ b.log
  refl w := List.Subset.refl w.log
  trans h h' := List.Subset.trans h h'

variable {servers : List SocketAddr} {zone : Name}

section Mono

variable {r : Recursor} {log log' : List Event}

lemma FromSide.mono {ns : Name} {ip : IpAddr} (h : FromSide log ns ip) (hlog : log ⊆ log') :
    FromSide log' ns ip := by
  obtain ⟨ns', rtype, resp, hmem, hrest⟩ := h
  exact ⟨ns', rtype, resp, hlog hmem, hrest⟩

lemma ServersOf.mono
    (h : ServersOf r log zone servers) (hlog : log ⊆ log') : ServersOf r log' zone servers := by
  rcases h with hroot | ⟨qname, parent, child, resp, addrs, hmem, hrest⟩
  · exact .inl hroot
  · exact .inr ⟨qname, parent, child, resp, addrs, hlog hmem, hrest⟩

lemma Event.Bound.mono {e : Event} (h : e.Bound r log) (hlog : log ⊆ log') : e.Bound r log' := by
  cases e with
  | round qname zones => exact h
  | asked qname zone servers isFinal resp =>
    obtain ⟨hzone, hservers, zones, hround⟩ := h
    exact ⟨hzone, hservers.mono hlog, zones, hlog hround⟩
  | side ns rtype resp => trivial
  | referred qname parent child resp servers =>
    obtain ⟨hbelow, hne, habove, ⟨asked, isFinal, raw, hmem, hraw⟩, hservers⟩ := h
    refine ⟨hbelow, hne, habove, ⟨asked, isFinal, raw, hlog hmem, hraw⟩, fun s hs => ?_⟩
    rcases hservers s hs with hglue | ⟨ns, hns, hside⟩
    · exact .inl hglue
    · exact .inr ⟨ns, hns, hside.mono hlog⟩

lemma Accounted.mono {qname : Name} {answers authorities : List Record}
    (h : Accounted log qname answers authorities) (hlog : log ⊆ log') :
    Accounted log' qname answers authorities := by
  induction h with
  | refused => exact .refused
  | answered hasked hzone hanswers => exact .answered (hlog hasked) hzone hanswers
  | denied hasked hproof => exact .denied (hlog hasked) hproof
  | cname hasked hzone hrecords hlink _ ih => exact .cname (hlog hasked) hzone hrecords hlink ih
  | dname hasked hzone howner hrecords hlink htarget _ ih =>
    exact .dname (hlog hasked) hzone howner hrecords hlink htarget ih
  | tooLong hasked hanswers => exact .tooLong (hlog hasked) hanswers

end Mono

namespace LruMap

variable {ν : Type} {m : LruMap ν} {key : Bytes}

lemma pop_subset (m : LruMap ν) (key : Bytes) : (m.pop key).entries ⊆ m.entries :=
  filter_subset_self _

lemma foldl_pop_subset (keys : List Bytes) (m : LruMap ν) :
    (keys.foldl pop m).entries ⊆ m.entries := by
  induction keys generalizing m with
  | nil => exact refl _
  | cons key keys ih => exact Subset.trans (ih _) (m.pop_subset key)

lemma get_subset (m : LruMap ν) (key : Bytes) : (m.get key).2.entries ⊆ m.entries := by
  rw [get]
  split
  · exact refl _
  rename_i entry hfind
  intro e he
  rcases mem_cons.mp he with rfl | he
  · exact mem_of_find?_eq_some hfind
  · exact m.pop_subset key he

lemma mem_of_get {value : ν} (h : (m.get key).1 = some value) : (key, value) ∈ m.entries := by
  rw [get] at h
  split at h
  · cases h
  rename_i entry hfind
  obtain rfl := some.inj h
  have hkey := find?_some hfind
  rw [decide_eq_true_eq] at hkey
  rw [← hkey]
  exact mem_of_find?_eq_some hfind

lemma put_subset (m : LruMap ν) (key : Bytes) (value : ν) :
    (m.put key value).entries ⊆ (key, value) :: m.entries := by
  intro e he
  rcases mem_cons.mp he with rfl | he
  · exact mem_cons_self
  · exact mem_cons_of_mem _ (m.pop_subset key (mem_of_mem_take he))

end LruMap

lemma mem_of_sortDedup {α : Type} [DecidableEq α] {orderKey : α → List ℕ} {items : List α}
    {a : α} (h : a ∈ sortDedup orderKey items) : a ∈ items := by
  have hmem := (destutter_sublist _ _).subset h
  exact (mem_insertionSort _).mp hmem

variable {resp : Message}

section Primitives

variable {r : Recursor} {env : Env} {base : World}

/-- A program that leaves the log and the caches alone. -/
theorem safe_modifyGet {α : Type} {f : World → α × World} (hlog : ∀ w, (f w).2.log = w.log)
    (hdeleg : ∀ w, (f w).2.delegCache = w.delegCache)
    (hns : ∀ w, (f w).2.nsAddrCache = w.nsAddrCache) :
    Keeps (discipline r) base (modifyGet f : RunM α) := by
  refine .modifyGet fun w hinv _ => ⟨?_, ?_, trivial⟩
  · refine ⟨?_, ?_, ?_⟩
    · rw [hlog]
      exact hinv.bound
    · rw [hdeleg, hlog]
      exact hinv.deleg
    · rw [hns, hlog]
      exact hinv.nsAddr
  · change w.log ⊆ (f w).2.log
    rw [hlog]
    exact refl _

lemma safe_tick : Keeps (discipline r) base tick :=
  safe_modifyGet (fun _ => rfl) (fun _ => rfl) fun _ => rfl

lemma safe_takeNsResolve : Keeps (discipline r) base takeNsResolve :=
  safe_modifyGet (fun _ => rfl) (fun _ => rfl) fun _ => rfl

lemma safe_nsResolvesLeft : Keeps (discipline r) base nsResolvesLeft :=
  safe_modifyGet (fun _ => rfl) (fun _ => rfl) fun _ => rfl

lemma safe_setNsResolves (left : ℕ) :
    Keeps (discipline r) base (setNsResolves left) :=
  safe_modifyGet (fun _ => rfl) (fun _ => rfl) fun _ => rfl

lemma safe_takeQuery : Keeps (discipline r) base takeQuery := by
  intro w hinv _
  rw [takeQuery]
  split
  · exact ⟨hinv, refl _, fun _ _ => trivial⟩
  · exact ⟨{ hinv with }, refl _, fun _ _ => trivial⟩

lemma safe_record {e : Event} (h : ∀ w, Inv r w → base.log ⊆ w.log → e.Bound r (e :: w.log)) :
    Safe (discipline r) base (record e) fun _ w => e ∈ w.log := by
  refine .modify fun w hinv hbase => ⟨?_, subset_cons_self e w.log, mem_cons_self⟩
  have hlog : w.log ⊆ e :: w.log := subset_cons_self e w.log
  refine ⟨?_, ?_, ?_⟩
  · intro e' he'
    rcases mem_cons.mp he' with rfl | he'
    · exact h w hinv hbase
    · exact (hinv.bound e' he').mono hlog
  · intro entry hentry
    obtain ⟨qname, parent, child, resp, servers, hmem, hrest⟩ := hinv.deleg entry hentry
    exact ⟨qname, parent, child, resp, servers, hlog hmem, hrest⟩
  · intro entry hentry
    obtain ⟨ns, hkey, haddrs⟩ := hinv.nsAddr entry hentry
    exact ⟨ns, hkey, fun ip hip => (haddrs ip hip).mono hlog⟩

lemma deepestLoop_spec (now : ℕ) (qname : Name) (labels : ℕ)
    (cache : LruMap (CacheEntry SocketAddr)) :
    (deepestLoop now qname labels cache).2.entries ⊆ cache.entries ∧
      ∀ zone servers, (deepestLoop now qname labels cache).1 = some (zone, servers) →
        zone.path <+: qname.path ∧
          ∃ entry ∈ cache.entries, entry.1 = zone.canonicalKey ∧ entry.2.addrs = servers := by
  induction labels generalizing cache with
  | zero => exact ⟨refl _, fun zone servers h => by cases h⟩
  | succ labels ih =>
    rw [deepestLoop]
    have hsub := cache.get_subset (qname.suffix (labels + 1)).canonicalKey
    split
    · rename_i entry cache' hget
      rw [hget] at hsub
      have hmem := mem_of_get (congrArg Prod.fst hget)
      split
      · refine ⟨hsub, fun zone servers h => ?_⟩
        obtain ⟨rfl, rfl⟩ := Prod.mk.inj (some.inj h)
        rw [suffix_path]
        exact ⟨ take_prefix _ _, _, hmem, rfl, rfl⟩
      have hpop := Subset.trans (pop_subset cache' (qname.suffix (labels + 1)).canonicalKey) hsub
      obtain ⟨hentries, hfound⟩ := ih (cache'.pop (qname.suffix (labels + 1)).canonicalKey)
      refine ⟨Subset.trans hentries hpop, fun zone servers h => ?_⟩
      obtain ⟨hpre, found, hin, hrest⟩ := hfound zone servers h
      exact ⟨hpre, found, hpop hin, hrest⟩
    · rename_i cache' hget
      rw [hget] at hsub
      obtain ⟨hentries, hfound⟩ := ih cache'
      refine ⟨Subset.trans hentries hsub, fun zone servers h => ?_⟩
      obtain ⟨hpre, found, hin, hrest⟩ := hfound zone servers h
      exact ⟨hpre, found, hsub hin, hrest⟩

/-- The cache gives servers of a zone above the name. -/
theorem safe_deepestCachedDelegation (qname : Name) :
    Safe (discipline r) base (deepestCachedDelegation env qname) fun found w =>
      ∀ zone servers, found = some (zone, servers) →
        zone.path <+: qname.path ∧ ServersOf r w.log zone servers := by
  refine safe_tick.bind fun n w₀ _ _ _ => .modifyGet fun w hinv _ => ?_
  obtain ⟨hsub, hfound⟩ :=
    deepestLoop_spec (env.cacheNowMillis n) qname qname.numLabels w.delegCache
  refine ⟨⟨hinv.bound, fun entry hentry => hinv.deleg entry (hsub hentry), hinv.nsAddr⟩,
    refl _, fun zone servers h => ?_⟩
  obtain ⟨hpre, entry, hentry, hkey, haddrs⟩ := hfound zone servers h
  obtain ⟨q, parent, child, resp, addrs, hmem, hchild, hservers⟩ := hinv.deleg entry hentry
  refine ⟨hpre, .inr ⟨q, parent, child, resp, addrs, hmem, ?_, haddrs ▸ hservers⟩⟩
  exact canonicalKey_inj.mp (hchild.symm.trans hkey)

lemma safe_delegEvictPath (qname : Name) :
    Keeps (discipline r) base (delegEvictPath qname) := by
  refine .modify fun w hinv _ => ⟨⟨hinv.bound, fun entry hentry => ?_, hinv.nsAddr⟩,
    refl _, trivial⟩
  exact hinv.deleg entry (foldl_pop_subset _ _ hentry)

lemma safe_expiry (ttl : UInt32) : Keeps (discipline r) base (expiry env ttl) :=
  safe_tick.bind fun _ _ _ _ _ => .done

lemma safe_delegStore {qname parent : Name}
    (hmem : .referred qname parent zone resp servers ∈ base.log) (ttl : UInt32) :
    Keeps (discipline r) base (r.delegStore env zone servers ttl) := by
  rw [delegStore]
  split
  · exact .done
  refine (safe_expiry _).bind fun expiresAt w₀ _ hgrows _ => .modify fun w hinv hbase => ?_
  refine ⟨⟨hinv.bound, fun entry hentry => ?_, hinv.nsAddr⟩, refl _, trivial⟩
  rcases mem_cons.mp (put_subset _ _ _ hentry) with rfl | hentry
  · refine ⟨qname, parent, zone, resp, servers, hbase (hgrows hmem), rfl, fun s hs => ?_⟩
    exact mem_of_sortDedup (mem_of_mem_take hs)
  · exact hinv.deleg entry hentry

lemma nsAddrLookup_spec (now : ℕ) (key : Bytes) (cache : LruMap (CacheEntry IpAddr)) :
    (nsAddrLookup now key cache).2.entries ⊆ cache.entries ∧
      ∀ addrs ttl, (nsAddrLookup now key cache).1 = some (addrs, ttl) →
        ∃ entry ∈ cache.entries, entry.1 = key ∧ entry.2.addrs = addrs := by
  have hsub := cache.get_subset key
  rw [nsAddrLookup]
  split
  · rename_i cache' hget
    rw [hget] at hsub
    exact ⟨hsub, fun addrs ttl h => by cases h⟩
  rename_i entry cache' hget
  rw [hget] at hsub
  split
  · refine ⟨hsub, fun addrs ttl h => ?_⟩
    obtain ⟨rfl, -⟩ := Prod.mk.inj (some.inj h)
    exact ⟨_, mem_of_get (congrArg Prod.fst hget), rfl, rfl⟩
  · exact ⟨Subset.trans (cache'.pop_subset key) hsub, fun addrs ttl h => by cases h⟩

lemma safe_nsAddrCachedWithTtl (ns : Name) :
    Safe (discipline r) base (nsAddrCachedWithTtl env ns.canonicalKey) fun found w =>
      ∀ addrs ttl, found = some (addrs, ttl) → ∀ ip ∈ addrs, FromSide w.log ns ip := by
  refine safe_tick.bind fun n w₀ _ _ _ => .modifyGet fun w hinv _ => ?_
  obtain ⟨hsub, hfound⟩ := nsAddrLookup_spec (env.cacheNowMillis n) ns.canonicalKey w.nsAddrCache
  refine ⟨⟨hinv.bound, hinv.deleg, fun entry hentry => hinv.nsAddr entry (hsub hentry)⟩,
    refl _, fun addrs ttl h ip hip => ?_⟩
  obtain ⟨entry, hentry, hkey, rfl⟩ := hfound addrs ttl h
  obtain ⟨ns', hkey', haddrs⟩ := hinv.nsAddr entry hentry
  obtain ⟨ns'', rtype, resp, hmem, hpath, hgives⟩ := haddrs ip hip
  exact ⟨ns'', rtype, resp, hmem, hpath.trans (canonicalKey_inj.mp (hkey'.symm.trans hkey)), hgives⟩

lemma safe_nsAddrStore {ns : Name} {addrs : List IpAddr}
    (haddrs : ∀ ip ∈ addrs, FromSide base.log ns ip) (ttl : UInt32) :
    Keeps (discipline r) base (r.nsAddrStore env ns.canonicalKey addrs ttl) := by
  rw [nsAddrStore]
  split
  · exact .done
  refine (safe_expiry _).bind fun expiresAt w₀ _ hgrows _ => .modify fun w hinv hbase => ?_
  refine ⟨⟨hinv.bound, hinv.deleg, fun entry hentry => ?_⟩, refl _, trivial⟩
  rcases mem_cons.mp (put_subset _ _ _ hentry) with rfl | hentry
  · refine ⟨ns, rfl, fun ip hip => ?_⟩
    exact (haddrs ip (mem_of_sortDedup (mem_of_mem_take hip))).mono (Subset.trans hgrows hbase)
  · exact hinv.nsAddr entry hentry

end Primitives

lemma gives_of_addressOf {rtype : RecordType} {a : Record} {ip : IpAddr}
    (h : addressOf rtype a = some ip) : gives a = some ip := by
  rw [addressOf] at h
  rw [gives]
  split at h
  · cases hdata : a.rdata with
    | a address => simp_all
    | aaaa address => simp_all
    | _ => simp_all
  · cases h

section Side

variable {r : Recursor} {env : Env} {base : World}
  {side : Name → RecordType → RunM (Message × SecurityStatus)}

/-- What is assumed of the resolution on the side. -/
def SideSafe (r : Recursor) (side : Name → RecordType → RunM (Message × SecurityStatus)) : Prop :=
  ∀ (base : World) (ns : Name) (rtype : RecordType), Keeps (discipline r) base (side ns rtype)

lemma safe_resolveFamily (hside : SideSafe r side) (enabled : Bool) (ns : Name)
    (rtype : RecordType) :
    Safe (discipline r) base (resolveFamily side enabled ns rtype) fun found w =>
      ∀ x ∈ found, FromSide w.log ns x.1 := by
  rw [resolveFamily]
  split
  · refine .tryCatch ?_ fun _ => .pure fun _ _ _ => by simp
    refine (hside _ ns rtype).bind fun result w₁ _ _ _ => ?_
    refine (safe_record (e := .side ns rtype result.1) fun _ _ _ => trivial).bind
      fun _ w₂ _ _ hmem => ?_
    refine .pure fun w hinv hgrows x hx => ?_
    obtain ⟨a, ha, hx⟩ := mem_filterMap.mp hx
    obtain ⟨ip, hip, rfl⟩ := map_eq_some_iff.mp hx
    exact ⟨ns, rtype, result.1, hgrows hmem, rfl, a, ha, gives_of_addressOf hip⟩
  · exact .pure fun _ _ _ => by simp

/-- Addresses of some of the name servers. -/
def OfNs (log : List Event) (nsNames : List Name) (s : SocketAddr) : Prop :=
  ∃ ns ∈ nsNames, FromSide log ns s.ip

lemma safe_resolveNsLoop (hside : SideSafe r side) (names nsNames : List Name)
    (hnames : nsNames ⊆ names) (all : List SocketAddr) (ttl : Option UInt32) (base : World)
    (hall : ∀ s ∈ all, OfNs base.log names s) :
    Safe (discipline r) base (r.resolveNsLoop env side nsNames all ttl) fun result w =>
      ∀ s ∈ result.1, OfNs w.log names s := by
  have hmono : ∀ {log log' : List Event} {addrs : List SocketAddr}, log ⊆ log' →
      (∀ s ∈ addrs, OfNs log names s) → ∀ s ∈ addrs, OfNs log' names s := by
    intro log log' addrs hlog h s hs
    obtain ⟨ns, hns, hfrom⟩ := h s hs
    exact ⟨ns, hns, hfrom.mono hlog⟩
  have hadd : ∀ {log : List Event} {addrs : List SocketAddr} {ips : List IpAddr} {ns : Name},
      ns ∈ names → (∀ s ∈ addrs, OfNs log names s) → (∀ ip ∈ ips, FromSide log ns ip) →
      ∀ s ∈ addrs ++ ips.map (⟨·, r.port⟩), OfNs log names s := by
    intro log addrs ips ns hns haddrs hips s hs
    rcases mem_append.mp hs with hs | hs
    · exact haddrs s hs
    · obtain ⟨ip, hip, rfl⟩ := mem_map.mp hs
      exact ⟨ns, hns, hips ip hip⟩
  induction nsNames generalizing all ttl base with
  | nil => exact .pure fun w _ hgrows => hmono hgrows hall
  | cons ns rest ih =>
    obtain ⟨hns, hrest⟩ := cons_subset.mp hnames
    refine (safe_nsAddrCachedWithTtl ns).bind fun found w₁ _ h₁ hfound => ?_
    have hall₁ := hmono h₁ hall
    cases found with
    | some entry => exact ih hrest _ _ _ (hadd hns hall₁ (hfound _ _ rfl))
    | none =>
      refine safe_takeNsResolve.bind fun more w₂ _ h₂ _ => ?_
      have hall₂ := hmono h₂ hall₁
      split
      · refine (safe_resolveFamily hside r.doIp4 ns .A).bind fun v4 w₃ _ h₃ hv4 => ?_
        refine (safe_resolveFamily hside r.doIp6 ns .AAAA).bind fun v6 w₄ _ h₄ hv6 => ?_
        have hall₄ := hmono h₄ (hmono h₃ hall₂)
        split
        · exact ih hrest _ _ _ hall₄
        have hresolved : ∀ ip ∈ (sortDedup IpAddr.orderKey ((v4 ++ v6).map (·.1))).take
            maxCachedNsAddrs, FromSide w₄.log ns ip := by
          intro ip hip
          obtain ⟨x, hx, rfl⟩ := mem_map.mp (mem_of_sortDedup (mem_of_mem_take hip))
          rcases mem_append.mp hx with hx | hx
          · exact (hv4 x hx).mono h₄
          · exact hv6 x hx
        refine (safe_nsAddrStore hresolved _).bind fun _ w₅ _ h₅ _ => ?_
        exact ih hrest _ _ _ (hadd hns (hmono h₅ hall₄) fun ip hip => (hresolved ip hip).mono h₅)
      · exact .pure fun w _ hgrows => hmono hgrows hall₂

lemma safe_resolveNsAddrs (hside : SideSafe r side) (nsNames : List Name) :
    Safe (discipline r) base (r.resolveNsAddrs env side nsNames) fun result w =>
      ∀ s ∈ result.1, OfNs w.log nsNames s := by
  refine (safe_resolveNsLoop hside nsNames nsNames (refl _) [] none base
    (by simp)).bind fun result w₁ _ _ hresult => ?_
  refine .pure fun w _ hgrows s hs => ?_
  obtain ⟨ns, hns, hfrom⟩ := hresult s (mem_of_mem_filter (mem_of_sortDedup hs))
  exact ⟨ns, hns, hfrom.mono hgrows⟩

end Side

lemma isWithin_path (name zone : Name) : isWithin name zone = true ↔ zone.path <+: name.path :=
  endsWithIgnoreCase_path name zone

lemma isCloser_path {cand cur : Name} (h : isCloser cand cur = true) :
    cur.path <+: cand.path ∧ cur.path ≠ cand.path := by
  rw [isCloser, Bool.and_eq_true, decide_eq_true_eq, isWithin_path] at h
  refine ⟨h.2, fun heq => ?_⟩
  have hlen := congrArg length heq
  rw [path_length, path_length] at hlen
  omega

lemma isAbove_path {owner qname : Name} (h : isAbove owner qname = true) :
    owner.path <+: qname.path ∧ owner.path ≠ qname.path := by
  rw [isAbove, Bool.and_eq_true, decide_eq_true_eq, eqIgnoreCase_path, suffix_path] at h
  constructor
  · rw [← h.2]
    exact take_prefix _ _
  · intro heq
    have hlen := congrArg length heq
    rw [path_length, path_length] at hlen
    omega

lemma extractReferral_some {qname : Name} {nsNames : List Name}
    (h : extractReferral resp qname = (some zone, nsNames)) : nsNames = nsNamesOf resp zone := by
  rw [extractReferral] at h
  split at h
  · cases h
  split at h
  · cases h
  · obtain ⟨hzone, hnames⟩ := Prod.mk.inj h
    obtain rfl := some.inj hzone
    exact hnames.symm

/-- The glue that is taken: the address of a name server, named inside the zone. -/
theorem glueOf_eq_some {r : Recursor} {nsNames : List Name} {a : Record}
    {s : SocketAddr} : r.glueOf nsNames zone a = some s ↔
      (∃ ns ∈ nsNames, a.name.path = ns.path) ∧ zone.path <+: a.name.path ∧
        gives a = some s.ip ∧ r.serverEligible s.ip = true ∧ s.port = r.port := by
  have hfound : ∀ ip : IpAddr, (if r.serverEligible ip then some (⟨ip, r.port⟩ : SocketAddr)
      else none) = some s ↔ some ip = some s.ip ∧ r.serverEligible s.ip = true ∧
        s.port = r.port := by
    intro ip
    obtain ⟨sip, port⟩ := s
    constructor
    · intro hip
      split at hip
      · rename_i helig
        obtain ⟨rfl, rfl⟩ := SocketAddr.mk.inj (some.inj hip)
        exact ⟨rfl, helig, rfl⟩
      · cases hip
    · rintro ⟨hip, helig, hport⟩
      obtain rfl := some.inj hip
      rw [if_pos helig, ← hport]
  rw [glueOf, gives]
  by_cases hclass : a.class' = .IN
  · by_cases hname : ∃ ns ∈ nsNames, a.name.path = ns.path
    · by_cases hwithin : zone.path <+: a.name.path
      · have hguard : (a.class' = .IN && nsNames.any (·.eqIgnoreCase a.name) &&
            isWithin a.name zone) = true := by
          simp only [Bool.and_eq_true, decide_eq_true_eq, List.any_eq_true, isWithin_path,
            eqIgnoreCase_path]
          obtain ⟨ns, hns, hpath⟩ := hname
          exact ⟨⟨hclass, ns, hns, hpath.symm⟩, hwithin⟩
        rw [if_pos hguard, if_pos hclass]
        have hboth : ((∃ ns ∈ nsNames, a.name.path = ns.path) ∧ zone.path <+: a.name.path) :=
          ⟨hname, hwithin⟩
        rw [← and_assoc, and_iff_right hboth]
        cases hdata : a.rdata with
        | a ip => exact hfound (.v4 ip)
        | aaaa ip => exact hfound (.v6 ip)
        | _ => simp
      · simp [hwithin, isWithin_path]
    · simp only [Bool.and_eq_true, List.any_eq_true, eqIgnoreCase_path]
      rw [if_neg]
      · simp [hname]
      · rintro ⟨⟨-, ns, hns, hpath⟩, -⟩
        exact hname ⟨ns, hns, hpath.symm⟩
  · simp [hclass]

lemma glueAddrs_from {r : Recursor} {parent child : Name} {s : SocketAddr}
    (h : s ∈ (r.glueAddrs resp (nsNamesOf resp child) parent).1) :
    FromGlue resp parent child s.ip := by
  obtain ⟨a, ha, hglue⟩ := mem_filterMap.mp (mem_of_sortDedup h)
  obtain ⟨⟨ns, hns, hname⟩, hwithin, hgives, -⟩ := glueOf_eq_some.mp hglue
  exact ⟨ns, hns, a, mem_of_mem_filter ha, hname, hwithin, hgives⟩

section Iteration

variable {r : Recursor} {env : Env} {base : World} {qname : Name} {qtype : RecordType}

/-- A state of the iteration: its zone is above the name, and its servers are of the zone. -/
structure StateOk (r : Recursor) (log : List Event) (qname : Name) (state : IterationState) :
    Prop where
  above : ∀ step ∈ state.chain, step.zone.path <+: qname.path
  servers : ServersOf r log state.zone state.servers
  chain : Recursor.proofZone state.chain = some state.zone
  descends : state.chain.IsChain fun parent child =>
    parent.zone.path <+: child.zone.path ∧ parent.zone.path ≠ child.zone.path

variable {state : IterationState} {log log' : List Event}

lemma StateOk.mono
    (h : StateOk r log qname state) (hlog : log ⊆ log') : StateOk r log' qname state :=
  ⟨h.above, h.servers.mono hlog, h.chain, h.descends⟩

lemma StateOk.last (h : StateOk r log qname state) :
    ∃ steps step, state.chain = steps ++ [step] ∧ step.zone = state.zone := by
  obtain ⟨step, hlast, hzone⟩ := map_eq_some_iff.mp h.chain
  obtain ⟨steps, hchain⟩ := getLast?_eq_some_iff.mp hlast
  exact ⟨steps, step, hchain, hzone⟩

lemma StateOk.zone_above (h : StateOk r log qname state) : state.zone.path <+: qname.path := by
  obtain ⟨steps, step, hchain, hzone⟩ := h.last
  rw [← hzone]
  refine h.above step ?_
  rw [hchain]
  exact mem_append_right _ mem_cons_self

/-- A delegation that waits for addresses. -/
structure PendingOk (log : List Event) (qname parent : Name) (pending : PendingReferral) :
    Prop where
  below : parent.path <+: pending.zone.path
  ne : parent.path ≠ pending.zone.path
  above : pending.zone.path <+: qname.path
  asked : ∃ servers isFinal raw, .asked qname parent servers isFinal raw ∈ log ∧
    raw.authorities = pending.resp.authorities ∧ raw.additionals = pending.resp.additionals
  names : pending.nsNames = nsNamesOf pending.resp pending.zone
  addrs : ∀ s ∈ pending.addrs, FromGlue pending.resp parent pending.zone s.ip ∨
    OfNs log pending.nsNames s

lemma PendingOk.mono {parent : Name} {pending : PendingReferral}
    (h : PendingOk log qname parent pending) (hlog : log ⊆ log') :
    PendingOk log' qname parent pending := by
  obtain ⟨servers, isFinal, raw, hasked, hraw⟩ := h.asked
  refine ⟨h.below, h.ne, h.above, ⟨servers, isFinal, raw, hlog hasked, hraw⟩, h.names,
    fun s hs => ?_⟩
  rcases h.addrs s hs with hglue | ⟨ns, hns, hfrom⟩
  · exact .inl hglue
  · exact .inr ⟨ns, hns, hfrom.mono hlog⟩

/-- The end of an iteration: a reply of the servers of the last zone, as `advance` sees it. -/
def Ended (r : Recursor) (log : List Event) (qname : Name) (resp : Message)
    (chain : List ZoneStep) : Prop :=
  ∃ zone servers isFinal raw, .asked qname zone servers isFinal raw ∈ log ∧
    zone.path <+: qname.path ∧ Recursor.proofZone chain = some zone ∧
    resp = seen isFinal zone raw ∧
    (isFinal = true ∨ isDnameYxdomain resp qname = true ∨
      r.qnameMinStrict = true ∧ resp.header.rcode = rcodeNXDomain)

lemma Ended.mono {chain : List ZoneStep}
    (h : Ended r log qname resp chain) (hlog : log ⊆ log') : Ended r log' qname resp chain := by
  obtain ⟨zone, servers, isFinal, raw, hasked, hrest⟩ := h
  exact ⟨zone, servers, isFinal, raw, hlog hasked, hrest⟩

/-- What a round comes to. -/
def OutcomeOk (r : Recursor) (log : List Event) (qname : Name) (state : IterationState) :
    StepOutcome → Prop
  | .done resp => Ended r log qname resp state.chain
  | .goOn state' => StateOk r log qname state'
  | .needNsAddrs missing pending =>
    PendingOk log qname state.zone pending ∧ missing ⊆ pending.nsNames
  | .failed _ => True

/-- One zone further down. -/
theorem StateOk.below (h : StateOk r log qname state) (step : ZoneStep)
    (hbelow : state.zone.path <+: step.zone.path) (hne : state.zone.path ≠ step.zone.path) (habove : step.zone.path <+: qname.path)
    (hservers : ServersOf r log step.zone step.servers) :
    StateOk r log qname
      { state with
        servers := step.servers
        chain := state.chain ++ [step]
        depth := step.zone.numLabels
        zone := step.zone } := by
  refine ⟨fun s hs => ?_, hservers, ?_, ?_⟩
  · rcases mem_append.mp hs with hs | hs
    · exact h.above s hs
    · rw [mem_singleton.mp hs]
      exact habove
  · simp [proofZone]
  refine h.descends.append (isChain_singleton _) fun last hlast s hs => ?_
  obtain ⟨steps, last', hchain, hzone⟩ := h.last
  rw [hchain, getLast?_append_cons, getLast?_singleton] at hlast
  obtain rfl := some.inj hlast
  obtain rfl := some.inj hs
  rw [hzone]
  exact ⟨hbelow, hne⟩

lemma safe_finishReferral {pending : PendingReferral} (hstate : StateOk r base.log qname state)
    (h : PendingOk base.log qname state.zone pending) :
    Safe (discipline r) base (r.finishReferral env qname state pending) fun outcome w =>
      OutcomeOk r w.log qname state outcome := by
  rw [finishReferral]
  split
  · exact .pure fun _ _ _ => trivial
  have hservers : ∀ w : World, base.log ⊆ w.log → ∀ s ∈ (sortDedup SocketAddr.orderKey
      pending.addrs).take maxCachedNsAddrs, FromGlue pending.resp state.zone pending.zone s.ip ∨
        ∃ ns ∈ nsNamesOf pending.resp pending.zone, FromSide w.log ns s.ip := by
    intro w hbase s hs
    rcases h.addrs s (mem_of_sortDedup (mem_of_mem_take hs)) with hglue | ⟨ns, hns, hfrom⟩
    · exact .inl hglue
    · exact .inr ⟨ns, h.names ▸ hns, hfrom.mono hbase⟩
  refine (safe_record fun w _ hbase => ?_).bind fun _ w₁ _ h₁ hmem => ?_
  · obtain ⟨servers, isFinal, raw, hasked, hraw⟩ := h.asked
    refine ⟨h.below, h.ne, h.above,
      ⟨servers, isFinal, raw, mem_cons_of_mem _ (hbase hasked), hraw⟩, fun s hs => ?_⟩
    rcases hservers w hbase s hs with hglue | ⟨ns, hns, hfrom⟩
    · exact .inl hglue
    · exact .inr ⟨ns, hns, hfrom.mono (subset_cons_self _ _)⟩
  have hnext : ∀ w : World, w₁.log ⊆ w.log → OutcomeOk r w.log qname state
      (.goOn { state with
        servers := (sortDedup SocketAddr.orderKey pending.addrs).take maxCachedNsAddrs
        chain := state.chain ++ [⟨pending.zone,
          (sortDedup SocketAddr.orderKey pending.addrs).take maxCachedNsAddrs,
          pending.nsNames⟩]
        depth := pending.zone.numLabels
        zone := pending.zone }) := by
    intro w hgrows
    refine (hstate.mono (Subset.trans h₁ hgrows)).below
      ⟨pending.zone, _, pending.nsNames⟩ h.below h.ne h.above ?_
    exact .inr ⟨qname, state.zone, pending.zone, pending.resp, _, hgrows hmem, rfl, refl _⟩
  split
  · refine (safe_delegStore hmem _).bind fun _ w₂ _ h₂ _ => .pure fun w _ h₃ => ?_
    exact hnext w (Subset.trans h₂ h₃)
  · exact .pure fun w _ hgrows => hnext w hgrows

lemma safe_advanceReferral {plan : NextQuery} {raw : Message}
    (hstate : StateOk r base.log qname state)
    (hasked : .asked qname state.zone state.servers plan.isFinal raw ∈ base.log) :
    Safe (discipline r) base
      (r.advanceReferral env qname state (seen plan.isFinal state.zone raw) plan)
      fun outcome w => OutcomeOk r w.log qname state outcome := by
  have hsame : raw.authorities = (seen plan.isFinal state.zone raw).authorities ∧
      raw.additionals = (seen plan.isFinal state.zone raw).additionals := by
    rw [seen]
    split <;> exact ⟨rfl, rfl⟩
  rw [advanceReferral]
  cases hext : extractReferral (seen plan.isFinal state.zone raw) qname with
  | mk referral nsNames =>
    simp only
    cases hfilter : referral.filter fun nz => isCloser nz state.zone && isWithin qname nz with
    | some nz =>
      obtain ⟨hsome, hguard⟩ := filter_eq_some_iff.mp hfilter
      rw [Bool.and_eq_true, isWithin_path] at hguard
      obtain ⟨hbelow, hne⟩ := isCloser_path hguard.1
      rw [hsome] at hext
      obtain rfl := extractReferral_some hext
      have hpending : ∀ addressTtl, PendingOk base.log qname state.zone
          ⟨nz, seen plan.isFinal state.zone raw, nsNamesOf (seen plan.isFinal state.zone raw) nz,
            (r.glueAddrs (seen plan.isFinal state.zone raw)
              (nsNamesOf (seen plan.isFinal state.zone raw) nz) state.zone).1, addressTtl⟩ :=
        fun addressTtl => ⟨hbelow, hne, hguard.2, ⟨_, _, raw, hasked, hsame⟩, rfl,
          fun s hs => .inl (glueAddrs_from hs)⟩
      dsimp only
      split
      · exact .pure fun w _ hgrows => ⟨(hpending _).mono hgrows, filter_subset_self _⟩
      · exact safe_finishReferral hstate (hpending _)
    | none =>
      dsimp only
      split
      · rename_i hfinal
        split
        · refine .pure fun w _ hgrows => ?_
          exact ⟨state.zone, state.servers, plan.isFinal, raw, hgrows hasked, hstate.zone_above,
            hstate.chain, rfl, .inl hfinal⟩
        · exact .pure fun _ _ _ => trivial
      · split
        · exact .pure fun _ _ _ => trivial
        · exact .pure fun w _ hgrows =>
            ⟨hstate.above, hstate.servers.mono hgrows, hstate.chain, hstate.descends⟩

lemma advance_seen (state : IterationState) (raw : Message) (plan : NextQuery) :
    r.advance env qname qtype state raw plan =
      if plan.isFinal && isRelevantPositive (seen plan.isFinal state.zone raw) qname qtype then
        return .done (seen plan.isFinal state.zone raw)
      else if isDnameYxdomain (seen plan.isFinal state.zone raw) qname then
        return .done (seen plan.isFinal state.zone raw)
      else if (seen plan.isFinal state.zone raw).header.rcode = rcodeNXDomain then
        if !isAuthoritativeNegative (seen plan.isFinal state.zone raw) plan.mname state.zone then
          return .failed .noReachableNs
        else if plan.isFinal || r.qnameMinStrict then
          return .done (seen plan.isFinal state.zone raw)
        else return .goOn { state with minimize := false }
      else r.advanceReferral env qname state (seen plan.isFinal state.zone raw) plan :=
  rfl

lemma safe_advance {plan : NextQuery} {raw : Message} (hstate : StateOk r base.log qname state)
    (hasked : .asked qname state.zone state.servers plan.isFinal raw ∈ base.log) :
    Safe (discipline r) base (r.advance env qname qtype state raw plan)
      fun outcome w => OutcomeOk r w.log qname state outcome := by
  have hended : ∀ w : World, base.log ⊆ w.log → (plan.isFinal = true ∨
      isDnameYxdomain (seen plan.isFinal state.zone raw) qname = true ∨ r.qnameMinStrict = true ∧
        (seen plan.isFinal state.zone raw).header.rcode = rcodeNXDomain) →
      Ended r w.log qname (seen plan.isFinal state.zone raw) state.chain := fun w hgrows hend =>
    ⟨state.zone, state.servers, plan.isFinal, raw, hgrows hasked, hstate.zone_above, hstate.chain, rfl,
      hend⟩
  rw [advance_seen]
  split
  · rename_i hpositive
    exact .pure fun w _ hgrows => hended w hgrows (.inl (Bool.and_eq_true_iff.mp hpositive).1)
  split
  · rename_i hyx
    exact .pure fun w _ hgrows => hended w hgrows (.inr (.inl hyx))
  split
  · rename_i hnx
    split
    · exact .pure fun _ _ _ => trivial
    split
    · rename_i hends
      refine .pure fun w _ hgrows => hended w hgrows ?_
      rcases Bool.or_eq_true_iff.mp hends with hfinal | hstrict
      · exact .inl hfinal
      · exact .inr (.inr ⟨hstrict, hnx⟩)
    · exact .pure fun w _ hgrows =>
        ⟨hstate.above, hstate.servers.mono hgrows, hstate.chain, hstate.descends⟩
  · exact safe_advanceReferral hstate hasked

variable {side : Name → RecordType → RunM (Message × SecurityStatus)}

lemma safe_iterateRound (hside : SideSafe r side) (hstate : StateOk r base.log qname state) :
    Safe (discipline r) base (r.iterateRound env side qname qtype state)
      fun outcome w => OutcomeOk r w.log qname state outcome := by
  refine (safe_record fun w _ _ => ?_).bind fun _ w₀ _ h₀ hround => ?_
  · refine ⟨fun zone hzone => ?_, (isChain_map _).mpr hstate.descends⟩
    obtain ⟨step, hstep, rfl⟩ := mem_map.mp hzone
    exact hstate.above step hstep
  refine safe_takeQuery.bind fun _ w₁ _ h₁ _ => safe_tick.bind fun n w₂ _ h₂ _ => ?_
  have hreply : ∀ reply : Except RecurseError Message,
      Keeps (discipline r) w₂ (liftM reply : RunM Message) :=
    fun _ => .lift fun _ _ _ _ _ => trivial
  refine (hreply _).bind fun resp w₃ _ h₃ _ => ?_
  have hsub : w₀.log ⊆ w₃.log := Subset.trans h₁ (Subset.trans h₂ h₃)
  have hstate₃ : StateOk r w₃.log qname state := hstate.mono (Subset.trans h₀ hsub)
  refine (safe_record fun w _ hgrows => ?_).bind fun _ w₄ _ h₄ hmem => ?_
  · obtain ⟨steps, step, hchain, hzone⟩ := hstate.last
    refine ⟨hstate.zone_above,
      (hstate₃.servers.mono hgrows).mono (subset_cons_self _ _), steps.map (·.zone), ?_⟩
    rw [hchain, map_append, map_singleton, hzone] at hround
    exact mem_cons_of_mem _ (hgrows (hsub hround))
  refine (safe_advance (hstate₃.mono h₄) hmem).bind fun outcome w₅ _ h₅ hout => ?_
  cases outcome with
  | needNsAddrs missing pending =>
    obtain ⟨hpending, hmissing⟩ := hout
    refine (safe_resolveNsAddrs hside missing).bind fun result w₆ _ h₆ hextra => ?_
    refine safe_finishReferral ((hstate₃.mono h₄).mono (Subset.trans h₅ h₆)) ?_
    obtain ⟨hbelow, hne, habove, hasked, hnames, haddrs⟩ := hpending.mono h₆
    refine ⟨hbelow, hne, habove, hasked, hnames, fun s hs => ?_⟩
    rcases mem_append.mp hs with hs | hs
    · exact haddrs s hs
    · obtain ⟨ns, hns, hfrom⟩ := hextra s hs
      exact .inr ⟨ns, hmissing hns, hfrom⟩
  | done resp => exact .pure fun w _ hgrows => .mono hout hgrows
  | goOn state' => exact .pure fun w _ hgrows => .mono hout hgrows
  | failed error => exact .pure fun _ _ _ => trivial

lemma safe_iterateLoop (hside : SideSafe r side) (rounds referrals : ℕ)
    (hstate : StateOk r base.log qname state) :
    Safe (discipline r) base (r.iterateLoop env side qname qtype rounds referrals state)
      fun result w => Ended r w.log qname result.1 result.2 := by
  induction rounds generalizing referrals state base with
  | zero => exact .throw _
  | succ rounds ih =>
    refine (safe_iterateRound hside hstate).bind fun outcome w₁ _ _ hout => ?_
    cases outcome with
    | done resp => exact .pure fun w _ hgrows => .mono hout hgrows
    | failed error => exact .throw _
    | needNsAddrs missing pending => exact .throw _
    | goOn state' =>
      dsimp only
      split
      · split
        · exact .throw _
        · exact ih _ hout
      · exact ih _ hout

lemma safe_iterateFrom (hside : SideSafe r side)
    (habove : zone.path <+: qname.path) (hservers : ServersOf r base.log zone servers) :
    Safe (discipline r) base (r.iterateFrom env side qname qtype zone servers)
      fun result w => Ended r w.log qname result.1 result.2 :=
  safe_iterateLoop hside _ _ ⟨fun step hstep => by rw [mem_singleton.mp hstep]; exact habove,
    hservers, rfl, isChain_singleton _⟩

lemma safe_validatedStartOk (zone : Name) :
    Keeps (discipline r) base (r.validatedStartOk env zone) :=
  safe_tick.bind fun _ _ _ _ _ => .done

lemma safe_iterateCached (hside : SideSafe r side)
    (habove : zone.path <+: qname.path) (hservers : ServersOf r base.log zone servers) :
    Safe (discipline r) base (r.iterateCached env side qname qtype zone servers)
      fun found w => ∀ resp chain, found = some (resp, chain) → Ended r w.log qname resp chain := by
  refine safe_nsResolvesLeft.bind fun saved w₁ _ h₁ _ => ?_
  have htry : Safe (discipline r) w₁ (tryCatch (some <$> r.iterateFrom env side qname qtype zone
      servers) fun _ => do delegEvictPath qname; return none)
      fun found w => ∀ resp chain, found = some (resp, chain) → Ended r w.log qname resp chain := by
    refine .tryCatch (.map (safe_iterateFrom hside habove (hservers.mono h₁)) ?_) fun e => ?_
    · intro result w hended resp chain h
      rw [some.inj h] at hended
      exact hended
    · exact (safe_delegEvictPath qname).bind fun _ _ _ _ _ => .pure fun w _ _ resp chain h => by
        cases h
  have hnone : ∀ w : World, Safe (discipline r) w (do setNsResolves saved; return none : RunM _)
      fun (found : Option (Message × List ZoneStep)) w => ∀ resp chain,
        found = some (resp, chain) → Ended r w.log qname resp chain := fun w =>
    (safe_setNsResolves saved).bind fun _ _ _ _ _ => .pure fun w _ _ resp chain h => by cases h
  refine htry.bind fun found w₂ _ h₂ hfound => ?_
  cases found with
  | none => exact hnone w₂
  | some result =>
    refine (safe_validatedStartOk _).bind fun ok w₃ _ h₃ _ => ?_
    split
    · refine .pure fun w _ h₄ resp chain h => ?_
      exact (hfound resp chain h).mono (Subset.trans h₃ h₄)
    · exact hnone w₃

lemma safe_iterate (hside : SideSafe r side) :
    Safe (discipline r) base (r.iterate env side qname qtype)
      fun result w => Ended r w.log qname result.1 result.2 := by
  refine (safe_deepestCachedDelegation qname).bind fun cached w₁ _ h₁ hcached => ?_
  have hroot : ∀ w : World, Safe (discipline r) w
      (r.iterateFrom env side qname qtype .root r.roots)
      fun result w => Ended r w.log qname result.1 result.2 := by
    intro w
    refine safe_iterateFrom hside ?_ (.inl ⟨rfl, rfl⟩)
    exact nil_prefix
  cases cached with
  | none => exact hroot w₁
  | some start =>
    obtain ⟨habove, hservers⟩ := hcached _ _ rfl
    refine (safe_validatedStartOk _).bind fun ok w₂ _ h₂ _ => ?_
    split
    · refine (safe_iterateCached hside habove (hservers.mono h₂)).bind fun found w₃ _ _ hended => ?_
      cases found with
      | some result => exact .pure fun w _ hgrows => (hended _ _ rfl).mono hgrows
      | none => exact hroot w₃
    · exact hroot w₂

end Iteration

end OnetDns.Recurse
