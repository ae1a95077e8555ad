import OnetDns.Dhcp.PoolRuns

/-!
# Leases are exclusive

From an acknowledgement until the lease ends, nobody else is offered or granted its address. The
notice of a client that some address is taken already drops its lease, though, whatever address
the notice is about; so this holds for runs in which clients send such notices about their own
address only.
-/
namespace OnetDns.Dhcp
open Tally LeasePool Option AList

/-- One message and the clock while it is handled. -/
structure Call where
  req : DhcpMessage
  clock : Clock

variable {cfg : DhcpConfig} {p q : LeasePool} {owner identity : ClientIdentity} {x ip : UInt32}
  {e t now : ℕ} {call : Call} {req : DhcpMessage} {clock : Clock} {target : UInt32}

def answer (cfg : DhcpConfig) (p : LeasePool) (call : Call) : Option DhcpMessage :=
  (handle call.req p cfg call.clock).1

def after (cfg : DhcpConfig) (p : LeasePool) (call : Call) : LeasePool :=
  (handle call.req p cfg call.clock).2

/-- The pool after a run of messages. -/
def afterAll (cfg : DhcpConfig) (p : LeasePool) (calls : List Call) : LeasePool :=
  calls.foldl (after cfg) p

/-- The clock never goes back. -/
def InOrder (t : ℕ) : List Call → Prop
  | [] => True
  | call :: rest => t ≤ call.clock.first ∧ InOrder call.clock.third rest

/-- A message gives a lease up, or moves the client to another address. -/
def GivesUp (cfg : DhcpConfig) (owner : ClientIdentity) (x : UInt32) (p : LeasePool)
    (call : Call) : Prop :=
  call.req.clientIdentity = owner ∧
    (classifyClientAction call.req cfg.serverIp = some (.release x) ∨
      classifyClientAction call.req cfg.serverIp = some (.decline x) ∨
      ∃ reply, answer cfg p call = some reply ∧ reply.msgType = some ACK ∧ reply.yiaddr ≠ x)

/-- A condition on the messages of a run, each in the pool that it meets. -/
def Throughout (cfg : DhcpConfig) (P : LeasePool → Call → Prop) : LeasePool → List Call → Prop
  | _, [] => True
  | p, call :: rest => P p call ∧ Throughout cfg P (after cfg p call) rest

/-- In every run: once an address was acknowledged to a client, nobody else is offered or granted
it, until the lease expires or the client gives it up. -/
def LeasesExclusive : Prop :=
  ∀ (cfg : DhcpConfig) (p : LeasePool) (t : ℕ) (ack : Call) (calls : List Call) (last : Call)
    (granted reply : DhcpMessage) (lease : Lease),
    Reachable p t → InOrder t (ack :: calls ++ [last]) →
    answer cfg p ack = some granted → granted.msgType = some ACK →
    (after cfg p ack).leases.lookup ack.req.clientIdentity = some lease →
    last.clock.third < lease.expiry →
    Throughout cfg (fun p call => ¬GivesUp cfg ack.req.clientIdentity granted.yiaddr p call)
      (after cfg p ack) calls →
    last.req.clientIdentity ≠ ack.req.clientIdentity →
    answer cfg (afterAll cfg (after cfg p ack) calls) last = some reply →
    reply.msgType = some ACK ∨ reply.msgType = some OFFER → reply.yiaddr ≠ granted.yiaddr

/-- If the owner reports an address as taken, it has no live lease on another one, unless that one
is reserved for it. -/
def ReportsOwn (cfg : DhcpConfig) (owner : ClientIdentity) (p : LeasePool) (call : Call) : Prop :=
  call.req.clientIdentity = owner → ∀ y, classifyClientAction call.req cfg.serverIp = some (.decline y) →
    ∀ lease, p.leases.lookup call.req.clientIdentity = some lease →
      call.clock.first < lease.expiry → lease.ip = y ∨
        p.reservationIp call.req.clientIdentity = some lease.ip

/-- An address is a client's until some time, by its lease or by its reservation, and nothing of
anybody else names it. -/
structure Holds (p : LeasePool) (owner : ClientIdentity) (x : UInt32) (e : ℕ) : Prop where
  claim : (∃ lease, p.leases.lookup owner = some lease ∧ lease.ip = x ∧ e ≤ lease.expiry) ∨
    p.reservationIp owner = some x
  free : p.Free owner x

section

variable (h : Holds p owner x e)
include h

lemma Holds.in_use (hsound : p.Accounted) : x ∈ p.addressUse := by
  rw [mem_iff_useOf_pos hsound.positive, hsound.exact, references]
  rcases h.claim with ⟨lease, hlease, hip, -⟩ | hreserved
  · have : 0 < tally (leaseAt x) p.leases :=
      tally_pos_iff.mpr ⟨owner, lease, hlease, decide_eq_true hip⟩
    omega
  · obtain ⟨r, hr, hip⟩ := map_eq_some_iff.mp hreserved
    have : 0 < tally (reservedAt x) p.reservations :=
      tally_pos_iff.mpr ⟨owner, r, hr, decide_eq_true hip⟩
    omega

lemma Holds.cleanupExpired (hsound : p.Accounted) (hlive : now < e) :
    Holds (p.cleanupExpired now) owner x e := by
  have hswept := cleanupExpired_swept hsound now
  refine ⟨?_, h.free.swept hswept⟩
  rcases h.claim with ⟨lease, hlease, hip, hle⟩ | hreserved
  · exact .inl ⟨lease, (hswept.lease _ _).mpr ⟨hlease, hlive.trans_le hle⟩, hip, hle⟩
  · refine .inr ?_
    rw [reservationIp, hswept.reservations]
    exact hreserved

lemma Holds.sameBooks (hsame : SameBooks p q) : Holds q owner x e := by
  refine ⟨?_, h.free.sameBooks hsame⟩
  rw [reservationIp, hsame.leases, hsame.reservations]
  exact h.claim

lemma Holds.dropOffer (c : ClientIdentity) : Holds (p.dropOffer c) owner x e := by
  refine ⟨?_, ?_⟩
  · rw [reservationIp, dropOffer_leases, dropOffer_reservations]
    exact h.claim
  cases hoffer : p.offers.lookup c with
  | none => rw [dropOffer_none hoffer]; exact h.free
  | some offer =>
    rw [dropOffer_eq hoffer]
    exact ⟨h.free.lease, fun c d hd => h.free.offer c d (lookup_erase_some hd).2,
      h.free.declined, h.free.reserved, h.free.service⟩

/-- Dropping a lease harms the owner only where it is the owner's, and no reservation stands. -/
theorem Holds.dropLease {c : ClientIdentity} (hkeep : c ≠ owner ∨ p.reservationIp owner = some x) :
    Holds (p.dropLease c) owner x e := by
  refine ⟨?_, ?_⟩
  · rw [reservationIp, dropLease_reservations]
    rcases hkeep with hne | hreserved
    · rcases h.claim with ⟨lease, hlease, hip, hle⟩ | hreserved
      · refine .inl ⟨lease, ?_, hip, hle⟩
        rw [LeasePool.dropLease]
        split
        · rw [lookup_erase_ne (Ne.symm hne), hlease]
        · exact hlease
      · exact .inr hreserved
    · exact .inr hreserved
  · refine ⟨fun c d hd => h.free.lease c d (lookup_dropLease hd).2, ?_, ?_, ?_, ?_⟩
    · rw [dropLease_offers]
      exact h.free.offer
    · rw [dropLease_declined]
      exact h.free.declined
    · rw [dropLease_reservations]
      exact h.free.reserved
    · rw [LeasePool.dropLease]
      split <;> exact h.free.service

lemma Holds.storeOffer {offer : Offer}
    (hother : identity ≠ owner → offer.ip ≠ x) : Holds (p.storeOffer identity offer) owner x e := by
  refine ⟨h.claim, h.free.lease, ?_, h.free.declined, h.free.reserved, h.free.service⟩
  intro c d hd hip
  rcases lookup_insert_some hd with ⟨rfl, rfl⟩ | ⟨-, hold⟩
  · by_contra hne
    exact hother hne hip
  · exact h.free.offer c d hold hip

lemma Holds.storeDeclined (hne : ip ≠ x) (expiry : ℕ) :
    Holds (p.storeDeclined ip expiry) owner x e := by
  refine ⟨h.claim, h.free.lease, h.free.offer, ?_, h.free.reserved, h.free.service⟩
  intro hmem
  rcases (mem_insert _).mp hmem with rfl | hmem
  · exact hne rfl
  · exact h.free.declined hmem

/-- A lease of somebody else is on another address; one of the owner takes the place of its own. -/
theorem Holds.storeLease {lease : Lease} (hother : identity ≠ owner → lease.ip ≠ x)
    (hown : identity = owner → lease.ip = x ∧ e ≤ lease.expiry) :
    Holds (p.storeLease identity lease) owner x e := by
  refine ⟨?_, ?_, h.free.offer, h.free.declined, h.free.reserved, h.free.service⟩
  · rcases h.claim with ⟨old, hold, hip, hle⟩ | hreserved
    · by_cases hself : identity = owner
      · subst hself
        exact .inl ⟨lease, lookup_insert _, hown rfl⟩
      · refine .inl ⟨old, ?_, hip, hle⟩
        exact (lookup_insert_ne (Ne.symm hself)).trans hold
    · exact .inr hreserved
  · intro c d hd hip
    rcases lookup_insert_some hd with ⟨rfl, rfl⟩ | ⟨-, hold⟩
    · by_contra hne
      exact hother hne hip
    · exact h.free.lease c d hold hip

end

lemma leaseExpiry_mono {secs : UInt32} (hle : t ≤ now) :
    leaseExpiry t secs ≤ leaseExpiry now secs := by
  rw [leaseExpiry, leaseExpiry]
  split
  · exact le_refl _
  · simp only [later]
    omega

/-- A lease that is granted is stored with its time from then on. -/
theorem commit_cases (p : LeasePool) (identity : ClientIdentity) (mac : Mac) (ip : UInt32)
    (hostname : Option String) (now : ℕ) :
    p.commit identity mac ip hostname now = (false, p) ∨
      ∃ q, SameBooks (p.cleanupExpired now) q ∧ (p.commit identity mac ip hostname now = (false, q) ∨
        ∃ lease : Lease, lease.ip = ip ∧ lease.expiry = leaseExpiry now p.leaseSecs ∧
          p.commit identity mac ip hostname now =
            (true, (q.dropOffer identity).storeLease identity lease)) := by
  rw [commit]
  split
  · exact .inl rfl
  refine .inr ?_
  obtain ⟨q, hsame, hrefused | ⟨-, hgranted⟩⟩ := grant_cases (p.cleanupExpired now) identity
    ⟨mac, ip, leaseExpiry now p.leaseSecs, ((p.reservations.lookup identity).bind (·.2)).or
      (hostname.or ((p.leases.lookup identity).bind (·.hostname)))⟩
  · exact ⟨q, hsame, .inl hrefused⟩
  · exact ⟨q, hsame, .inr ⟨_, rfl, rfl, hgranted⟩⟩

section

variable (h : Holds p owner x e)
include h

/-- Somebody else is not allocated an address that is held. -/
theorem Holds.allocate_ne (hsound : p.Accounted) (hlive : now < e)
    (hother : identity ≠ owner) (hip : (p.allocate identity now).1 = some ip) : ip ≠ x := by
  cases hreserved : p.reservations.lookup identity with
  | some r =>
    rw [allocate_reserved hreserved] at hip
    cases hip
    exact fun heq => hother (h.free.reserved identity r hreserved heq)
  | none =>
    have hallocated := (p.allocate_cases identity now hreserved).2
    have hclean := h.cleanupExpired hsound hlive
    rw [hip] at hallocated
    cases hallocated with
    | offer hoffer _ => exact fun heq => hother (hclean.free.offer identity _ hoffer heq)
    | lease hlease _ => exact fun heq => hother (hclean.free.lease identity _ hlease heq)
    | unused hunused =>
      rintro rfl
      exact hunused (hclean.in_use (hsound.cleanupExpired now))

lemma Holds.allocate (hsound : p.Accounted) (hlive : now < e) :
    Holds (p.allocate identity now).2 owner x e := by
  cases hreserved : p.reservations.lookup identity with
  | some r =>
    rw [allocate_reserved hreserved]
    exact h
  | none => exact (h.cleanupExpired hsound hlive).sameBooks (p.allocate_cases identity now hreserved).1

lemma Holds.holdOffer (hsound : p.Accounted) (hlive : now < e)
    {xid : UInt32} (hother : identity ≠ owner → ip ≠ x) :
    Holds (p.holdOffer identity xid ip now).2 owner x e := by
  have hclean := h.cleanupExpired hsound hlive
  obtain ⟨q, hsame, hrefused | ⟨-, hheld⟩⟩ := holdOffer_cases p identity xid ip now
  · rw [hrefused]
    exact hclean.sameBooks hsame
  · rw [hheld]
    exact (hclean.sameBooks hsame).storeOffer hother

lemma Holds.owner_of_free (hfree : p.Free identity x) : identity = owner := by
  rcases h.claim with ⟨lease, hlease, hip, -⟩ | hreserved
  · exact (hfree.lease owner lease hlease hip).symm
  · obtain ⟨r, hr, hip⟩ := map_eq_some_iff.mp hreserved
    exact (hfree.reserved owner r hr hip).symm

end

variable {result : Option DhcpMessage × LeasePool}

lemma Holds.request (h : Holds p owner x e) (hsound : p.Accounted) (hlive : clock.third < e)
    (hrenews : e ≤ leaseExpiry clock.third p.leaseSecs)
    (hrequested : Requested req p cfg clock identity target result)
    (hstays : identity = owner → ∀ reply, result.1 = some reply → reply.msgType = some ACK →
      reply.yiaddr = x) :
    Holds result.2 owner x e ∧ (identity ≠ owner → ∀ reply, result.1 = some reply →
      reply.msgType = some ACK → reply.yiaddr ≠ x) := by
  have hsecond : clock.second < e := clock.second_le.trans_lt hlive
  have hclean := h.cleanupExpired hsound hsecond
  have hcleaned := hsound.cleanupExpired clock.second
  have hack := fun (reply : DhcpMessage) (hreply : result.1 = some reply) =>
    hrequested.ack hreply
  have hne : identity ≠ owner → ∀ reply, result.1 = some reply → reply.msgType = some ACK →
      reply.yiaddr ≠ x := by
    intro hother reply hreply hkind hip
    obtain ⟨htarget, hunused, -⟩ := hack reply hreply hkind
    have hfree := hcleaned.free hunused
    rw [← htarget, hip] at hfree
    exact hother (hclean.owner_of_free hfree)
  refine ⟨?_, hne⟩
  cases hrequested with
  | kept => exact h
  | swept => exact hclean
  | decided hunused hfit =>
    have hswept := cleanupExpired_swept hsound clock.second
    rcases commit_cases (p.cleanupExpired clock.second) identity req.chaddr target req.hostname
      clock.third with hrefused | ⟨q, hsame, hrefused | ⟨lease, hip, hexpiry, hgranted⟩⟩
    · simp only [hrefused]
      exact hclean
    · simp only [hrefused]
      exact (hclean.cleanupExpired hcleaned hlive).sameBooks hsame
    simp only [hgranted, if_true, some.injEq, forall_eq', buildReply_msgType, forall_const] at hstays hne ⊢
    refine (((hclean.cleanupExpired hcleaned hlive).sameBooks hsame).dropOffer identity).storeLease
      ?_ ?_
    · rw [hip]
      exact hne
    · intro hself
      rw [hip, hexpiry, hswept.leaseSecs]
      exact ⟨hstays hself, hrenews⟩

lemma Holds.release (h : Holds p owner x e) (hown : identity = owner → ip ≠ x) :
    Holds (p.release identity ip) owner x e := by
  rw [LeasePool.release]
  split
  · next hlease =>
    refine h.dropLease ?_
    by_cases hself : identity = owner
    · refine .inr ?_
      rcases h.claim with ⟨lease, hlookup, hip, -⟩ | hreserved
      · rw [hself, hlookup, any_some, decide_eq_true_eq, hip] at hlease
        exact absurd hlease.symm (hown hself)
      · exact hreserved
    · exact .inl hself
  · exact h

lemma Holds.decline (h : Holds p owner x e) (hsound : p.Accounted) (hlive : now < e)
    (hown : identity = owner → ip ≠ x)
    (hreports : identity = owner → ∀ lease, p.leases.lookup identity = some lease → now <
      lease.expiry → lease.ip = ip ∨ p.reservationIp identity = some lease.ip) :
    Holds (p.decline identity ip now) owner x e := by
  have hclean := h.cleanupExpired hsound hlive
  have hswept := cleanupExpired_swept hsound now
  have hkeep : identity ≠ owner ∨ p.reservationIp owner = some x := by
    by_cases hself : identity = owner
    · refine .inr ?_
      rcases h.claim with ⟨lease, hlookup, hip, hle⟩ | hreserved
      · subst hself
        rcases hreports rfl lease hlookup (hlive.trans_le hle) with hsame | hreserved
        · exact absurd (hsame.symm.trans hip) (hown rfl)
        · rwa [hip] at hreserved
      · exact hreserved
    · exact .inl hself
  have hforget : ∀ {q}, SameBooks (p.cleanupExpired now) q → Holds (q.forget identity) owner x e := by
    intro q hsame
    refine ((hclean.sameBooks hsame).dropLease ?_).dropOffer identity
    rwa [reservationIp, hsame.reservations, hswept.reservations]
  obtain ⟨q, hsame, hdropped | htaken | ⟨howns, -, hset⟩⟩ := decline_cases p identity ip now
  · rw [hdropped]
    exact hclean.sameBooks hsame
  · rw [htaken]
    exact hforget hsame
  rw [hset]
  refine (hforget hsame).storeDeclined ?_ _
  by_cases hself : identity = owner
  · exact hown hself
  rintro rfl
  rw [owns, Bool.or_eq_true] at howns
  rcases howns with hoffer | hlease
  · obtain ⟨offer, hlookup, hip⟩ := (any_eq_true _ _).mp hoffer
    exact hself (hclean.free.offer identity offer hlookup (of_decide_eq_true hip))
  · obtain ⟨lease, hlookup, hip⟩ := (any_eq_true _ _).mp hlease
    exact hself (hclean.free.lease identity lease hlookup (of_decide_eq_true hip).1)

section

variable (p identity now)

@[simp] lemma cleanupExpired_leaseSecs :
    (p.cleanupExpired now).leaseSecs = p.leaseSecs := by
  rw [cleanupExpired]
  split <;> rfl

@[simp] lemma dropOffer_leaseSecs :
    (p.dropOffer identity).leaseSecs = p.leaseSecs := by
  rw [dropOffer]
  split <;> rfl

@[simp] lemma dropLease_leaseSecs :
    (p.dropLease identity).leaseSecs = p.leaseSecs := by
  rw [dropLease]
  split <;> rfl

lemma allocate_leaseSecs :
    (p.allocate identity now).2.leaseSecs = p.leaseSecs := by
  cases hreserved : p.reservations.lookup identity with
  | some r => rw [allocate_reserved hreserved]
  | none => rw [(p.allocate_cases identity now hreserved).1.leaseSecs, cleanupExpired_leaseSecs]

end

lemma holdOffer_leaseSecs (p : LeasePool) (identity : ClientIdentity) (xid ip : UInt32) (now : ℕ) :
    (p.holdOffer identity xid ip now).2.leaseSecs = p.leaseSecs := by
  obtain ⟨q, hsame, hrefused | ⟨-, hheld⟩⟩ := holdOffer_cases p identity xid ip now
  · rw [hrefused, hsame.leaseSecs, cleanupExpired_leaseSecs]
  · rw [hheld]
    exact hsame.leaseSecs.trans (cleanupExpired_leaseSecs p now)

lemma requested_leaseSecs
    (h : Requested req p cfg clock identity target result) : result.2.leaseSecs = p.leaseSecs := by
  cases h with
  | kept => rfl
  | swept => exact cleanupExpired_leaseSecs p _
  | decided _ _ =>
    rcases commit_cases (p.cleanupExpired clock.second) identity req.chaddr target req.hostname
      clock.third with hrefused | ⟨q, hsame, hrefused | ⟨lease, -, -, hgranted⟩⟩
    · simp [hrefused]
    · simp [hrefused, hsame.leaseSecs]
    · simp [hgranted, storeLease, hsame.leaseSecs]

lemma after_leaseSecs (cfg : DhcpConfig) (p : LeasePool) (call : Call) :
    (after cfg p call).leaseSecs = p.leaseSecs := by
  have hcases := handle_cases call.req p cfg call.clock
  rw [after]
  generalize handle call.req p cfg call.clock = result at hcases ⊢
  cases hcases with
  | ignored _ => rfl
  | turnedAway _ _ => exact allocate_leaseSecs p _ _
  | offered _ _ => exact (holdOffer_leaseSecs _ _ _ _ _).trans (allocate_leaseSecs p _ _)
  | unselected _ => exact cleanupExpired_leaseSecs p _
  | selected _ =>
    exact (requested_leaseSecs (handleRequest_cases _ _ _ _ _ _)).trans
      ((dropOffer_leaseSecs _ _).trans (cleanupExpired_leaseSecs p _))
  | rebooting _ => exact requested_leaseSecs (handleRequest_cases _ _ _ _ _ _)
  | @released target _ =>
    simp only [release]
    split
    · exact dropLease_leaseSecs p _
    · rfl
  | @declined target _ =>
    obtain ⟨q, hsame, hdropped | htaken | ⟨-, -, hset⟩⟩ :=
      decline_cases p call.req.clientIdentity target call.clock.first
    · simp [hdropped, hsame.leaseSecs]
    · simp [htaken, forget, hsame.leaseSecs]
    · simp [hset, storeDeclined, forget, hsame.leaseSecs]

/-- A reply that binds its receiver to an address. -/
def Binds (reply : DhcpMessage) : Prop := reply.msgType = some ACK ∨ reply.msgType = some OFFER

lemma not_binds_nak {reply : DhcpMessage} (h : some (buildReply req NAK ip cfg) = some reply) :
    ¬Binds reply := by
  cases h
  rw [Binds, buildReply_msgType]
  decide

lemma requested_binds {reply : DhcpMessage} (h : Requested req p cfg clock identity target result)
    (hreply : result.1 = some reply) (hbinds : Binds reply) : reply.msgType = some ACK := by
  cases h with
  | kept => exact absurd hbinds (not_binds_nak hreply)
  | swept => exact absurd hbinds (not_binds_nak hreply)
  | decided _ _ =>
    split at hreply
    · cases hreply
      exact buildReply_msgType ..
    · exact absurd hbinds (not_binds_nak hreply)

/-- What a step is to leave: the address held, and nobody else bound to it. -/
def StepHolds (owner identity : ClientIdentity) (x : UInt32) (e : ℕ)
    (result : Option DhcpMessage × LeasePool) : Prop :=
  Holds result.2 owner x e ∧
    (identity ≠ owner → ∀ reply, result.1 = some reply → Binds reply → reply.yiaddr ≠ x)

lemma stepHolds_silent (h : Holds p owner x e) : StepHolds owner identity x e (none, p) :=
  ⟨h, fun _ _ hreply => by cases hreply⟩

lemma stepHolds_requested (hrequested : Requested req p cfg clock identity target result)
    (h : Holds result.2 owner x e ∧ (identity ≠ owner → ∀ reply, result.1 = some reply →
      reply.msgType = some ACK → reply.yiaddr ≠ x)) : StepHolds owner identity x e result :=
  ⟨h.1, fun hother reply hreply hbinds =>
    h.2 hother reply hreply (requested_binds hrequested hreply hbinds)⟩

lemma inOrder_le_last {calls : List Call} {last : Call} (h : InOrder t (calls ++ [last])) :
    t ≤ last.clock.first := by
  induction calls generalizing t with
  | nil => exact h.1
  | cons call rest ih =>
    have hrest := ih h.2
    have hle := h.1
    have hfirst := call.clock.first_le
    have hsecond := call.clock.second_le
    omega

/-- One message that does not give the lease up leaves it, and binds nobody else to its address. -/
theorem Holds.step (h : Holds p owner x e) (hsound : p.Sound t) (hle : t ≤ call.clock.first)
    (hlive : call.clock.third < e) (hrenews : e ≤ leaseExpiry t p.leaseSecs)
    (hkeeps : ¬GivesUp cfg owner x p call) (hreports : ReportsOwn cfg owner p call) :
    StepHolds owner call.req.clientIdentity x e (handle call.req p cfg call.clock) := by
  obtain ⟨req, clock⟩ := call
  have hfirst := clock.first_le
  have hsecond := clock.second_le
  simp only [GivesUp, not_and, not_or, not_exists, answer, not_not] at hkeeps hreports
  simp only at hle hlive ⊢
  have hrenews' : e ≤ leaseExpiry clock.third p.leaseSecs :=
    hrenews.trans (leaseExpiry_mono (by omega))
  have hliveFirst : clock.first < e := by omega
  have hcases := handle_cases req p cfg clock
  generalize handle req p cfg clock = result at hcases hkeeps ⊢
  cases hcases with
  | ignored _ => exact stepHolds_silent h
  | turnedAway _ _ => exact stepHolds_silent (h.allocate hsound.toAccounted hliveFirst)
  | @offered ip haction hip =>
    have hne : req.clientIdentity ≠ owner → ip ≠ x :=
      fun hother => h.allocate_ne hsound.toAccounted hliveFirst hother hip
    refine ⟨(h.allocate hsound.toAccounted hliveFirst).holdOffer
      (hsound.allocate hle).toAccounted (by omega) hne, ?_⟩
    intro hother reply hreply _
    split at hreply
    · cases hreply
      exact hne hother
    · cases hreply
  | unselected _ =>
    exact ⟨h.cleanupExpired hsound.toAccounted hliveFirst,
      fun _ reply hreply hbinds => absurd hbinds (not_binds_nak hreply)⟩
  | selected haction =>
    have hclean := (h.cleanupExpired hsound.toAccounted hliveFirst).dropOffer req.clientIdentity
    refine stepHolds_requested (handleRequest_cases ..) (hclean.request
      ((hsound.cleanupExpired hle).dropOffer _).toAccounted hlive ?_ (handleRequest_cases ..) ?_)
    · rwa [dropOffer_leaseSecs, cleanupExpired_leaseSecs]
    · intro hself reply hreply hack
      exact (hkeeps hself).2.2 reply hreply hack
  | rebooting haction =>
    refine stepHolds_requested (handleRequest_cases ..)
      (h.request hsound.toAccounted hlive hrenews' (handleRequest_cases ..) ?_)
    intro hself reply hreply hack
    exact (hkeeps hself).2.2 reply hreply hack
  | @released target haction =>
    refine stepHolds_silent (h.release ?_)
    rintro hself rfl
    exact (hkeeps hself).1 haction
  | @declined target haction =>
    refine stepHolds_silent (h.decline hsound.toAccounted hliveFirst ?_ ?_)
    · rintro hself rfl
      exact (hkeeps hself).2.1 haction
    · exact fun hself => hreports hself target haction

/-- A whole run that does not give the lease up leaves it. -/
theorem Holds.run {calls : List Call} (h : Holds p owner x e) (hreach : Reachable p t)
    (hrenews : e ≤ leaseExpiry t p.leaseSecs) {last : Call} (horder : InOrder t (calls ++ [last]))
    (hlive : last.clock.third < e)
    (hkeeps : Throughout cfg (fun p call => ¬GivesUp cfg owner x p call) p calls)
    (hreports : Throughout cfg (ReportsOwn cfg owner) p calls) :
    Holds (afterAll cfg p calls) owner x e ∧ ∃ t', t' ≤ last.clock.first ∧
      Reachable (afterAll cfg p calls) t' ∧
      e ≤ leaseExpiry t' (afterAll cfg p calls).leaseSecs := by
  induction calls generalizing p t with
  | nil => exact ⟨h, t, horder.1, hreach, hrenews⟩
  | cons call rest ih =>
    obtain ⟨hle, horder⟩ := horder
    have hbefore := inOrder_le_last horder
    have hfirst := call.clock.first_le
    have hsecond := call.clock.second_le
    have hlast := last.clock.first_le
    have hlast' := last.clock.second_le
    have hstep := h.step hreach.sound hle (by omega) hrenews hkeeps.1 hreports.1
    refine ih hstep.1 (.handle call.req cfg call.clock hreach hle) ?_ horder hkeeps.2 hreports.2
    rw [after_leaseSecs]
    exact hrenews.trans (leaseExpiry_mono (by omega))

/-- An acknowledgement comes with the lease, and with an address that nothing of others names. -/
theorem holds_of_ack {granted : DhcpMessage} (hsound : p.Sound t) (hle : t ≤ call.clock.first)
    (hgranted : answer cfg p call = some granted) (hack : granted.msgType = some ACK) :
    ∃ lease, (after cfg p call).leases.lookup call.req.clientIdentity = some lease ∧
      lease.expiry = leaseExpiry call.clock.third p.leaseSecs ∧
      Holds (after cfg p call) call.req.clientIdentity granted.yiaddr lease.expiry := by
  obtain ⟨q, target, hq, hrequested, hqp⟩ :=
    (handle_cases call.req p cfg call.clock).ack hsound hle hgranted hack
  obtain ⟨htarget, hunused, -, hcommitted, hresult⟩ := hrequested.ack hgranted hack
  have hsecs : q.leaseSecs = p.leaseSecs := by
    rcases hqp with rfl | rfl
    · rfl
    · rw [dropOffer_leaseSecs, cleanupExpired_leaseSecs]
  have hclean := hq.toAccounted.cleanupExpired call.clock.second
  have hfree := (hclean.free hunused).swept (cleanupExpired_swept hclean call.clock.third)
  rcases commit_cases (q.cleanupExpired call.clock.second) call.req.clientIdentity call.req.chaddr
    target call.req.hostname call.clock.third with
    hrefused | ⟨r, hsame, hrefused | ⟨lease, hip, hexpiry, hstored⟩⟩
  · rw [hrefused] at hcommitted
    cases hcommitted
  · rw [hrefused] at hcommitted
    cases hcommitted
  rw [hstored] at hresult
  have hlookup : (after cfg p call).leases.lookup call.req.clientIdentity = some lease := by
    rw [after, hresult]
    exact lookup_insert _
  have hdropped := (hfree.sameBooks hsame).dropOffer
  refine ⟨lease, hlookup, by rw [hexpiry, cleanupExpired_leaseSecs, hsecs],
    .inl ⟨lease, hlookup, hip.trans htarget.symm, le_refl _⟩, ?_⟩
  rw [after, hresult, htarget]
  refine { hdropped with lease := ?_ }
  intro c d hd hdip
  rcases lookup_insert_some hd with ⟨rfl, -⟩ | ⟨-, hold⟩
  · rfl
  · exact hdropped.lease c d hold hdip

/-- In runs in which the owner of a lease reports no other address, the lease is exclusive. -/
theorem leases_exclusive {ack : Call} {calls : List Call} {last : Call}
    {granted reply : DhcpMessage} {lease : Lease} (hreach : Reachable p t)
    (horder : InOrder t (ack :: calls ++ [last])) (hgranted : answer cfg p ack = some granted)
    (hack : granted.msgType = some ACK)
    (hlease : (after cfg p ack).leases.lookup ack.req.clientIdentity = some lease)
    (hlive : last.clock.third < lease.expiry)
    (hkeeps : Throughout cfg (fun p call => ¬GivesUp cfg ack.req.clientIdentity granted.yiaddr p
      call) (after cfg p ack) calls)
    (hreports : Throughout cfg (ReportsOwn cfg ack.req.clientIdentity) (after cfg p ack) calls)
    (hother : last.req.clientIdentity ≠ ack.req.clientIdentity)
    (hreply : answer cfg (afterAll cfg (after cfg p ack) calls) last = some reply)
    (hbinds : reply.msgType = some ACK ∨ reply.msgType = some OFFER) :
    reply.yiaddr ≠ granted.yiaddr := by
  obtain ⟨hle, horder⟩ := horder
  obtain ⟨stored, hstored, hexpiry, hholds⟩ := holds_of_ack hreach.sound hle hgranted hack
  obtain rfl : stored = lease := some.inj (hstored.symm.trans hlease)
  have hrenews : stored.expiry ≤ leaseExpiry ack.clock.third (after cfg p ack).leaseSecs := by
    rw [after_leaseSecs, hexpiry]
  obtain ⟨hheld, t', hle', hreach', hrenews'⟩ := hholds.run (.handle ack.req cfg ack.clock hreach hle)
    hrenews horder hlive hkeeps hreports
  exact (hheld.step hreach'.sound hle' hlive hrenews' (fun h => hother h.1) fun h => absurd h hother).2
    hother reply hreply hbinds

def offeredPool : LeasePool := after smallNetwork smallPool ⟨messageOf 1 DISCOVER [], clockAt 101⟩

lemma offeredPool_reachable : Reachable offeredPool 101 :=
  .handle (messageOf 1 DISCOVER []) smallNetwork (clockAt 101)
    (.new smallNetwork .missing .missing 100) (by decide)

def takesOffer : Call :=
  ⟨messageOf 1 REQUEST [(OPT_REQUESTED_IP, octets 10), (OPT_SERVER_ID, octets 1)], clockAt 102⟩

def firstLease : Lease := ⟨#v[1, 0, 0, 0, 0, 0], 10, 3702, none⟩

lemma takesOffer_granted : answer smallNetwork offeredPool takesOffer =
    some (buildReply takesOffer.req ACK 10 smallNetwork) := by decide +kernel

lemma takesOffer_lease : (after smallNetwork offeredPool takesOffer).leases.lookup
    takesOffer.req.clientIdentity = some firstLease := by decide +kernel

/-- The second client is offered an address and reports another one, and the first one asks again
for its own. -/
def between : List Call :=
  [⟨messageOf 2 DISCOVER [], clockAt 103⟩,
    ⟨messageOf 2 DECLINE [(OPT_REQUESTED_IP, octets 77), (OPT_SERVER_ID, octets 1)], clockAt 104⟩,
    ⟨messageOf 1 REQUEST [(OPT_REQUESTED_IP, octets 10)], clockAt 105⟩]

lemma between_keeps : Throughout smallNetwork (fun p call => ¬GivesUp smallNetwork
    takesOffer.req.clientIdentity 10 p call) (after smallNetwork offeredPool takesOffer) between := by
  refine ⟨fun h => absurd h.1 (by decide), fun h => absurd h.1 (by decide), ?_, trivial⟩
  rintro ⟨-, hrelease | hdecline | ⟨reply, hreply, -, hother⟩⟩
  · exact absurd hrelease (by decide)
  · exact absurd hdecline (by decide)
  · have hrenewed : answer smallNetwork (afterAll smallNetwork
        (after smallNetwork offeredPool takesOffer) (between.take 2))
          ⟨messageOf 1 REQUEST [(OPT_REQUESTED_IP, octets 10)], clockAt 105⟩ =
            some (buildReply (messageOf 1 REQUEST [(OPT_REQUESTED_IP, octets 10)]) ACK 10
              smallNetwork) := by decide +kernel
    cases hrenewed.symm.trans hreply
    exact hother rfl

theorem leases_exclusive_second : (12 : UInt32) ≠ 10 ∧ answer smallNetwork
    (afterAll smallNetwork (after smallNetwork offeredPool takesOffer) between)
      ⟨messageOf 3 DISCOVER [], clockAt 106⟩ =
        some (buildReply (messageOf 3 DISCOVER []) OFFER 12 smallNetwork) := by
  have hreply : answer smallNetwork (afterAll smallNetwork (after smallNetwork offeredPool takesOffer)
      between) ⟨messageOf 3 DISCOVER [], clockAt 106⟩ =
        some (buildReply (messageOf 3 DISCOVER []) OFFER 12 smallNetwork) := by decide +kernel
  have horder : InOrder 101 (takesOffer :: between ++ [⟨messageOf 3 DISCOVER [], clockAt 106⟩]) :=
    ⟨by decide, by decide, by decide, by decide, by decide, trivial⟩
  have hreports : Throughout smallNetwork (ReportsOwn smallNetwork takesOffer.req.clientIdentity)
      (after smallNetwork offeredPool takesOffer) between :=
    ⟨fun h => absurd h (by decide), fun h => absurd h (by decide),
      fun _ y h => absurd h (by cases h), trivial⟩
  exact ⟨leases_exclusive offeredPool_reachable horder takesOffer_granted (buildReply_msgType ..)
    takesOffer_lease (by decide) between_keeps hreports (by decide) hreply
    (.inr (buildReply_msgType ..)), hreply⟩

/-- The first client reports an address that it never had. -/
def reportsOther : Call :=
  ⟨messageOf 1 DECLINE [(OPT_REQUESTED_IP, octets 77), (OPT_SERVER_ID, octets 1)], clockAt 103⟩

/-- The second client asks for the address of the first. -/
def asksForLeased : Call := ⟨messageOf 2 REQUEST [(OPT_REQUESTED_IP, octets 10)], clockAt 104⟩

/-- A client that reports some other address as taken loses its lease, and the next client to ask
is granted the address. -/
theorem report_frees_lease : ¬LeasesExclusive := by
  intro h
  have hgranted : answer smallNetwork (afterAll smallNetwork
      (after smallNetwork offeredPool takesOffer) [reportsOther]) asksForLeased =
        some (buildReply asksForLeased.req ACK 10 smallNetwork) := by decide +kernel
  refine h smallNetwork offeredPool 101 takesOffer [reportsOther] asksForLeased _ _ firstLease
    offeredPool_reachable ⟨by decide, by decide, by decide, trivial⟩ takesOffer_granted
    (buildReply_msgType ..) takesOffer_lease (by decide) ⟨?_, trivial⟩ (by decide)
    hgranted (.inl (buildReply_msgType ..)) rfl
  rintro ⟨-, hrelease | hdecline | ⟨reply, hreply, -⟩⟩
  · cases hrelease
  · exact absurd hdecline (by decide)
  · cases hreply

end OnetDns.Dhcp
