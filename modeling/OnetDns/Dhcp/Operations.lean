import OnetDns.Dhcp.Accounting

/-!
# What the operations of the pool keep

Each operation of the source on a pool whose books are right leaves one whose books are right, and
no live lease on an address that is reserved for another client.
-/
namespace OnetDns.Dhcp
open Tally List

namespace LeasePool

variable {p q : LeasePool} {identity : ClientIdentity} {lease : Lease} {ip : UInt32} {now t : ℕ}

/-- No live lease holds an address that is reserved for another client. -/
def Undisputed (p : LeasePool) (now : ℕ) : Prop :=
  ∀ c d c' r, p.leases.lookup c = some d → now < d.expiry → p.reservations.lookup c' = some r →
    r.1 = d.ip → c' = c

lemma Undisputed.mono (h : p.Undisputed t) (hle : t ≤ now) : p.Undisputed now :=
  fun c d c' r hd hlive => h c d c' r hd (hle.trans_lt hlive)

lemma Undisputed.of_subset (h : p.Undisputed now)
    (hleases : ∀ c d, q.leases.lookup c = some d → p.leases.lookup c = some d)
    (hreserved : ∀ c r, q.reservations.lookup c = some r → p.reservations.lookup c = some r) :
    q.Undisputed now :=
  fun c d c' r hd hlive hr => h c d c' r (hleases c d hd) hlive (hreserved c' r hr)

/-- What a pool is between two operations, at some time. -/
structure Sound (p : LeasePool) (now : ℕ) : Prop extends Accounted p where
  undisputed : p.Undisputed now

lemma Sound.mono (h : p.Sound t) (hle : t ≤ now) : p.Sound now :=
  ⟨h.toAccounted, h.undisputed.mono hle⟩

lemma SameBooks.sound (hsame : SameBooks p q) (h : p.Sound now) : q.Sound now := by
  refine ⟨hsame.accounted h.toAccounted, h.undisputed.of_subset ?_ ?_⟩
  · simp [hsame.leases]
  · simp [hsame.reservations]

variable {c : ClientIdentity} {d : Lease}

lemma lookup_dropLease (h : (p.dropLease identity).leases.lookup c = some d) :
    c ≠ identity ∧ p.leases.lookup c = some d := by
  cases hlease : p.leases.lookup identity with
  | none =>
    rw [dropLease_none hlease] at h
    refine ⟨?_, h⟩
    rintro rfl
    rw [hlease] at h
    cases h
  | some lease =>
    rw [dropLease_eq hlease] at h
    exact lookup_erase_some h

section Drop

variable (p : LeasePool) (identity : ClientIdentity)

@[simp] lemma dropLease_reservations :
    (p.dropLease identity).reservations = p.reservations := by
  rw [dropLease]
  split <;> rfl

@[simp] lemma dropLease_offers :
    (p.dropLease identity).offers = p.offers := by
  rw [dropLease]
  split <;> rfl

@[simp] lemma dropLease_declined :
    (p.dropLease identity).declined = p.declined := by
  rw [dropLease]
  split <;> rfl

lemma dropLease_dynamicEntries :
    (p.dropLease identity).dynamicEntries + (p.leases.lookup identity).isSome.toNat =
      p.dynamicEntries := by
  cases hlease : p.leases.lookup identity with
  | none => simp [dropLease_none hlease]
  | some lease =>
    have hsize := size_erase p.leases identity
    rw [hlease] at hsize
    simp only [dropLease_eq hlease, dynamicEntries]
    omega

@[simp] lemma dropOffer_leases :
    (p.dropOffer identity).leases = p.leases := by
  rw [dropOffer]
  split <;> rfl

@[simp] lemma dropOffer_declined :
    (p.dropOffer identity).declined = p.declined := by
  rw [dropOffer]
  split <;> rfl

@[simp] lemma dropOffer_reservations :
    (p.dropOffer identity).reservations = p.reservations := by
  rw [dropOffer]
  split <;> rfl

lemma dropOffer_dynamicEntries :
    (p.dropOffer identity).dynamicEntries + (p.offers.lookup identity).isSome.toNat =
      p.dynamicEntries := by
  cases hoffer : p.offers.lookup identity with
  | none => simp [dropOffer_none hoffer]
  | some offer =>
    have hsize := size_erase p.offers identity
    rw [hoffer] at hsize
    simp only [dropOffer_eq hoffer, dynamicEntries]
    omega

end Drop

lemma Sound.dropLease (h : p.Sound now) (identity : ClientIdentity) :
    (p.dropLease identity).Sound now := by
  refine ⟨h.toAccounted.dropLease identity, h.undisputed.of_subset ?_ ?_⟩
  · exact fun c d hd => (lookup_dropLease hd).2
  · simp

lemma Sound.dropOffer (h : p.Sound now) (identity : ClientIdentity) :
    (p.dropOffer identity).Sound now := by
  refine ⟨h.toAccounted.dropOffer identity, h.undisputed.of_subset ?_ ?_⟩
  · simp
  · simp

lemma Sound.cleanupExpired (h : p.Sound t) (hle : t ≤ now) : (p.cleanupExpired now).Sound now := by
  have hswept := cleanupExpired_swept h.toAccounted now
  refine ⟨h.toAccounted.cleanupExpired now, (h.undisputed.mono hle).of_subset ?_ ?_⟩
  · exact fun c d hd => ((hswept.lease c d).mp hd).1
  · simp [hswept.reservations]

/-- Nothing but one client's own entries names an address. -/
structure Free (p : LeasePool) (identity : ClientIdentity) (ip : UInt32) : Prop where
  lease : ∀ c d, p.leases.lookup c = some d → d.ip = ip → c = identity
  offer : ∀ c d, p.offers.lookup c = some d → d.ip = ip → c = identity
  declined : ip ∉ p.declined
  reserved : ∀ c r, p.reservations.lookup c = some r → r.1 = ip → c = identity
  service : ip ∉ p.serviceAddresses

lemma Accounted.free (h : p.Accounted)
    (hunused : p.addressUsedByOtherInner identity ip = false) : p.Free identity ip := by
  have hle : useOf p.addressUse ip ≤ p.ownAddressReferences identity ip :=
    not_lt.mp (of_decide_eq_false hunused)
  have hlease := share_le_tally (leaseAt ip) p.leases identity
  have hoffer := share_le_tally (offerAt ip) p.offers identity
  have hreserved := share_le_tally (reservedAt ip) p.reservations identity
  rw [h.exact, references, ownAddressReferences] at hle
  refine ⟨?_, ?_, ?_, ?_, ?_⟩
  · exact fun c d hd hip => eq_of_tally_le_share (p := leaseAt ip) (by omega) hd
      (decide_eq_true hip)
  · exact fun c d hd hip => eq_of_tally_le_share (p := offerAt ip) (by omega) hd
      (decide_eq_true hip)
  · intro hmem
    obtain ⟨e, he⟩ := Option.isSome_iff_exists.mp (AList.lookup_isSome.mpr hmem)
    have : 0 < tally (declinedAt ip) p.declined := tally_pos_iff.mpr ⟨ip, e, he, decide_eq_true rfl⟩
    omega
  · exact fun c r hr hip => eq_of_tally_le_share (p := reservedAt ip) (by omega) hr
      (decide_eq_true hip)
  · exact count_eq_zero.mp (by omega)

lemma Free.swept (h : p.Free identity ip) (hswept : Swept p q now) : q.Free identity ip := by
  refine ⟨?_, ?_, ?_, ?_, ?_⟩
  · exact fun c d hd => h.lease c d ((hswept.lease c d).mp hd).1
  · exact fun c d hd => h.offer c d ((hswept.offer c d).mp hd).1
  · intro hmem
    obtain ⟨e, he⟩ := Option.isSome_iff_exists.mp (AList.lookup_isSome.mpr hmem)
    refine h.declined (AList.lookup_isSome.mp ?_)
    rw [((hswept.declined ip e).mp he).1]
    rfl
  · rw [hswept.reservations]
    exact h.reserved
  · rw [hswept.service]
    exact h.service

lemma Free.sameBooks (h : p.Free identity ip) (hsame : SameBooks p q) : q.Free identity ip := by
  obtain ⟨hl, ho, hd, hr, -, -, hs, -, -, -⟩ := hsame
  refine ⟨?_, ?_, ?_, ?_, ?_⟩
  · simpa only [hl] using h.lease
  · simpa only [ho] using h.offer
  · simpa only [hd] using h.declined
  · simpa only [hr] using h.reserved
  · simpa only [hs] using h.service

lemma grant_cases (p : LeasePool) (identity : ClientIdentity) (lease : Lease) :
    ∃ q, SameBooks p q ∧ (p.grant identity lease = (false, q) ∨
      (identity ∈ p.leases ∨
        p.dynamicEntries - (p.offers.lookup identity).isSome.toNat < MAX_STATE_ENTRIES) ∧
      p.grant identity lease = (true, (q.dropOffer identity).storeLease identity lease)) := by
  obtain ⟨q, hsame, ⟨hadmitted, -⟩ | ⟨hadmitted, hroom⟩⟩ := p.admitUnless_cases (identity ∈ p.leases)
    (p.offers.lookup identity).isSome.toNat
  · exact ⟨q, hsame, .inl (by simp [grant, hadmitted])⟩
  · exact ⟨q, hsame, .inr ⟨hroom, by simp [grant, hadmitted]⟩⟩

lemma Sound.storeLease (h : p.Sound now) (hfree : p.Free identity lease.ip)
    (hroom : p.dynamicEntries < MAX_STATE_ENTRIES + (p.leases.lookup identity).isSome.toNat) :
    (p.storeLease identity lease).Sound now := by
  refine ⟨h.toAccounted.storeLease hfree.lease hroom, ?_⟩
  intro c d c' r hd hlive hr hip
  rcases lookup_insert_some hd with ⟨rfl, rfl⟩ | ⟨-, hold⟩
  · exact hfree.reserved c' r hr hip
  · exact h.undisputed c d c' r hold hlive hr hip

lemma Free.dropOffer (h : p.Free identity ip) : (p.dropOffer identity).Free identity ip := by
  cases hoffer : p.offers.lookup identity with
  | none => rwa [dropOffer_none hoffer]
  | some offer =>
    rw [dropOffer_eq hoffer]
    exact ⟨h.lease, fun c d hd => h.offer c d (lookup_erase_some hd).2, h.declined, h.reserved,
      h.service⟩

lemma Sound.grant (h : p.Sound now) (hfree : p.Free identity lease.ip) :
    (p.grant identity lease).2.Sound now := by
  obtain ⟨q, hsame, hrefused | ⟨hroom, hgranted⟩⟩ := grant_cases p identity lease
  · rw [hrefused]
    exact hsame.sound h
  rw [hgranted]
  have hq := hsame.sound h
  refine (hq.dropOffer identity).storeLease (hfree.sameBooks hsame).dropOffer ?_
  have hdrop := q.dropOffer_dynamicEntries identity
  have hle := hq.dynamic_le
  rw [dropOffer_leases, hsame.leases]
  rw [hsame.offers, hsame.dynamicEntries] at hdrop
  rw [hsame.dynamicEntries] at hle
  rcases hroom with hmem | hroom
  · rw [AList.lookup_isSome.mpr hmem, Bool.toNat_true]
    omega
  · omega

variable {hostname : Option String}

lemma Sound.commit {mac : Mac} (h : p.Sound t) (hle : t ≤ now)
    (hfree : p.Free identity ip) : (p.commit identity mac ip hostname now).2.Sound now := by
  rw [LeasePool.commit]
  split
  · exact h.mono hle
  · exact (h.cleanupExpired hle).grant (hfree.swept (cleanupExpired_swept h.toAccounted now))

lemma unused_of_validated (h : p.validateSyncedLeaseInner identity ip = .ok ()) :
    p.addressUsedByOtherInner identity ip = false := by
  have hinUse : validateSyncedLeaseInner.inUse p identity ip = .ok () →
      p.addressUsedByOtherInner identity ip = false := by
    intro h
    by_contra hused
    simp [validateSyncedLeaseInner.inUse, hused] at h
  rw [validateSyncedLeaseInner] at h
  split at h <;> split at h
  · cases h
  · exact hinUse h
  · cases h
  · exact hinUse h

lemma Sound.insert {mac : Mac} {expiryUnix : ℕ} (h : p.Sound t)
    (hle : t ≤ now) : (p.insert identity mac ip expiryUnix hostname now).2.Sound now := by
  rw [LeasePool.insert]
  split
  · exact h.mono hle
  have hswept := h.cleanupExpired hle
  simp only
  split
  · exact hswept
  split
  · exact hswept
  · next hvalid =>
    split
    · exact hswept
    · exact hswept.grant (hswept.toAccounted.free (unused_of_validated hvalid))

lemma Sound.release (h : p.Sound now) : (p.release identity ip).Sound now := by
  rw [LeasePool.release]
  split
  · exact h.dropLease identity
  · exact h

/-- An offer is refused, or held for a minute. -/
theorem holdOffer_cases (p : LeasePool) (identity : ClientIdentity) (xid ip : UInt32) (now : ℕ) :
    ∃ q, SameBooks (p.cleanupExpired now) q ∧ (p.holdOffer identity xid ip now = (false, q) ∨
      (identity ∈ (p.cleanupExpired now).offers ∨
        (p.cleanupExpired now).dynamicEntries < MAX_STATE_ENTRIES) ∧
      p.holdOffer identity xid ip now = (true, q.storeOffer identity ⟨ip, xid, later now 60⟩)) := by
  obtain ⟨q, hsame, ⟨hadmitted, -⟩ | ⟨hadmitted, hroom⟩⟩ := (p.cleanupExpired now).admitUnless_cases
    (identity ∈ (p.cleanupExpired now).offers) 0
  · exact ⟨q, hsame, .inl (by simp [holdOffer, hadmitted])⟩
  · exact ⟨q, hsame, .inr ⟨hroom, by simp [holdOffer, hadmitted]⟩⟩

lemma Sound.holdOffer {xid : UInt32} (h : p.Sound t) (hle : t ≤ now) :
    (p.holdOffer identity xid ip now).2.Sound now := by
  have hclean := h.cleanupExpired hle
  obtain ⟨q, hsame, hrefused | ⟨hroom, hheld⟩⟩ := holdOffer_cases p identity xid ip now
  · rw [hrefused]
    exact hsame.sound hclean
  rw [hheld]
  have hq := hsame.sound hclean
  refine ⟨hq.toAccounted.storeOffer ?_, hq.undisputed⟩
  have hle := hq.dynamic_le
  rw [hsame.dynamicEntries] at hle ⊢
  rw [hsame.offers]
  rcases hroom with hmem | hroom
  · rw [AList.lookup_isSome.mpr hmem, Bool.toNat_true]
    omega
  · omega

lemma consumeOffer_cases (p : LeasePool) (identity : ClientIdentity) (xid ip : UInt32) (now : ℕ) :
    p.consumeOffer identity xid ip now = (false, p.cleanupExpired now) ∨
      p.consumeOffer identity xid ip now = (true, (p.cleanupExpired now).dropOffer identity) := by
  rw [consumeOffer]
  split
  · exact .inr rfl
  · exact .inl rfl

/-- What `decline` takes from a client. -/
def forget (p : LeasePool) (identity : ClientIdentity) : LeasePool :=
  (p.dropLease identity).dropOffer identity

section

variable (p identity ip now)

lemma forget_dynamicEntries :
    (p.forget identity).dynamicEntries + ((p.leases.lookup identity).isSome.toNat +
      (p.offers.lookup identity).isSome.toNat) = p.dynamicEntries := by
  have hlease := p.dropLease_dynamicEntries identity
  have hoffer := (p.dropLease identity).dropOffer_dynamicEntries identity
  rw [dropLease_offers] at hoffer
  rw [forget]
  omega

/-- A notice is dropped at the limit, and else takes the client's lease and offer, whatever their
address; the address itself is set aside where the client held it. -/
theorem decline_cases :
    ∃ q, SameBooks (p.cleanupExpired now) q ∧ (p.decline identity ip now = q ∨
      p.decline identity ip now = q.forget identity ∨ (p.cleanupExpired now).owns identity ip now ∧
      (ip ∈ q.declined ∨ (q.forget identity).dynamicEntries < MAX_STATE_ENTRIES) ∧
      p.decline identity ip now = (q.forget identity).storeDeclined ip (later now 600)) := by
  set clean := p.cleanupExpired now with hcleanDef
  obtain ⟨q, hsame, ⟨hadmitted, -⟩ | ⟨hadmitted, hroom⟩⟩ := clean.admitUnless_cases
    (¬clean.owns identity ip now ∨ ip ∈ clean.declined)
    ((clean.leases.lookup identity).isSome.toNat + (clean.offers.lookup identity).isSome.toNat)
  · refine ⟨q, hsame, .inl ?_⟩
    simp only [decline, ← hcleanDef, hadmitted, Bool.false_eq_true, if_false]
  refine ⟨q, hsame, .inr ?_⟩
  have hdecline : p.decline identity ip now =
      if clean.owns identity ip now ∧ (q.forget identity).start ≤ ip ∧ ip ≤ (q.forget identity).stop
      then (q.forget identity).storeDeclined ip (later now 600) else q.forget identity := by
    simp only [decline, ← hcleanDef, hadmitted]
    rfl
  by_cases howns : clean.owns identity ip now ∧ (q.forget identity).start ≤ ip ∧
      ip ≤ (q.forget identity).stop
  · refine .inr ⟨howns.1, ?_, by rw [hdecline, if_pos howns]⟩
    have hforget := q.forget_dynamicEntries identity
    rw [hsame.leases, hsame.offers, hsame.dynamicEntries] at hforget
    rw [hsame.declined]
    rcases hroom with (hnot | hmem) | hroom
    · exact absurd howns.1 hnot
    · exact .inl hmem
    · exact .inr (by omega)
  · exact .inl (by rw [hdecline, if_neg howns])

end

lemma Sound.forget (h : p.Sound now) (identity : ClientIdentity) : (p.forget identity).Sound now :=
  (h.dropLease identity).dropOffer identity

@[simp] lemma forget_declined (p : LeasePool) (identity : ClientIdentity) :
    (p.forget identity).declined = p.declined := by
  rw [forget, dropOffer_declined, dropLease_declined]

lemma Sound.decline (h : p.Sound t) (hle : t ≤ now) : (p.decline identity ip now).Sound now := by
  have hclean := h.cleanupExpired hle
  obtain ⟨q, hsame, hdropped | htaken | ⟨-, hroom, hset⟩⟩ := decline_cases p identity ip now
  · rw [hdropped]
    exact hsame.sound hclean
  · rw [htaken]
    exact (hsame.sound hclean).forget identity
  rw [hset]
  have hq := (hsame.sound hclean).forget identity
  refine ⟨hq.toAccounted.storeDeclined ?_, hq.undisputed⟩
  have hle := hq.dynamic_le
  rw [forget_declined]
  rcases hroom with hmem | hroom
  · rw [AList.lookup_isSome.mpr hmem, Bool.toNat_true]
    omega
  · omega

variable (owners : List ClientIdentity)

lemma dropLeases_sound : ∀ p : LeasePool, p.Sound now → (owners.foldl dropLease p).Sound now := by
  induction owners with
  | nil => exact fun p h => h
  | cons owner rest ih => exact fun p h => ih _ (h.dropLease owner)

lemma lookup_dropLeases : ∀ p : LeasePool, (owners.foldl dropLease p).leases.lookup c = some d →
      c ∉ owners ∧ p.leases.lookup c = some d := by
  induction owners with
  | nil => exact fun p h => ⟨not_mem_nil, h⟩
  | cons owner rest ih =>
    intro p h
    obtain ⟨hrest, hp⟩ := ih _ h
    obtain ⟨hne, hp⟩ := lookup_dropLease hp
    exact ⟨by simp [hne, hrest], hp⟩

@[simp] lemma dropLeases_reservations :
    ∀ p : LeasePool, (owners.foldl dropLease p).reservations = p.reservations := by
  induction owners with
  | nil => exact fun p => rfl
  | cons owner rest ih => exact fun p => (ih _).trans (p.dropLease_reservations owner)

lemma isReservedByOther_iff : p.isReservedByOther ip identity = true ↔
    ∃ c r, p.reservations.lookup c = some r ∧ r.1 = ip ∧ c ≠ identity := by
  simp [isReservedByOther, mem_entries]

def staleOwners (p : LeasePool) (identity : ClientIdentity) (ip : UInt32) (now : ℕ) :
    List ClientIdentity :=
  (p.leases.entries.filter fun e => e.2.ip = ip ∧ now < e.2.expiry ∧ e.1 ≠ identity).map (·.1)

lemma mem_staleOwners (hd : p.leases.lookup c = some d)
    (hip : d.ip = ip) (hlive : now < d.expiry) (hne : c ≠ identity) :
    c ∈ p.staleOwners identity ip now := by
  refine mem_map.mpr ⟨⟨c, d⟩, mem_filter.mpr ⟨mem_entries.mpr hd, ?_⟩, rfl⟩
  exact decide_eq_true ⟨hip, hlive, hne⟩

/-- A reservation is refused, or stored once the live leases in its way are gone. -/
theorem addReservation_cases (p : LeasePool) (identity : ClientIdentity) (ip : UInt32)
    (hostname : Option String) (now : ℕ) :
    ∃ q, SameBooks p q ∧ ((∃ e, p.addReservation identity ip hostname now = (.error e, q)) ∨
      p.isReservedByOther ip identity = false ∧
      (identity ∈ p.reservations ∨ size p.reservations < MAX_STATE_ENTRIES) ∧
      p.addReservation identity ip hostname now = (.ok (),
        ((q.staleOwners identity ip now).foldl dropLease q).storeReservation identity ip
          hostname)) := by
  by_cases hname : (hostname.any fun value => !validHostname value) = true
  · exact ⟨p, .refl p, .inl ⟨_, by rw [addReservation, if_pos hname]⟩⟩
  cases hvalid : p.validateReservationIp ip with
  | error e => exact ⟨p, .refl p, .inl ⟨e, by simp only [addReservation, if_neg hname, hvalid]⟩⟩
  | ok u =>
    by_cases hother : p.isReservedByOther ip identity = true
    · refine ⟨p, .refl p, .inl ⟨"IP " ++ showIpv4 ip ++ " 는 이미 다른 클라이언트 식별자에 예약됨", ?_⟩⟩
      simp only [addReservation, if_neg hname, hvalid, if_pos hother]
    by_cases hmem : identity ∈ p.reservations
    · refine ⟨p, .refl p, .inr ⟨by simpa using hother, .inl hmem, ?_⟩⟩
      simp only [addReservation, if_neg hname, hvalid, if_neg hother, if_pos hmem]
      rfl
    by_cases hroom : size p.reservations < MAX_STATE_ENTRIES
    · refine ⟨{ p with reservationsLimited := false },
        ⟨rfl, rfl, rfl, rfl, rfl, rfl, rfl, rfl, rfl, rfl⟩,
        .inr ⟨by simpa using hother, .inr hroom, ?_⟩⟩
      simp only [addReservation, if_neg hname, hvalid, if_neg hother, if_neg hmem, admitState,
        if_pos hroom]
      rfl
    · refine ⟨{ p with reservationsLimited := true },
        ⟨rfl, rfl, rfl, rfl, rfl, rfl, rfl, rfl, rfl, rfl⟩,
        .inl ⟨"DHCPv4 고정 할당은 최대 " ++ toString MAX_STATE_ENTRIES ++ "개입니다", ?_⟩⟩
      simp [addReservation, if_neg hname, hvalid, if_neg hother, if_neg hmem, admitState,
        if_neg hroom]

lemma Sound.addReservation (h : p.Sound t) (hle : t ≤ now) :
    (p.addReservation identity ip hostname now).2.Sound now := by
  obtain ⟨q, hsame, ⟨e, hrefused⟩ | ⟨hother, hroom, hadded⟩⟩ :=
    addReservation_cases p identity ip hostname now
  · rw [hrefused]
    exact hsame.sound (h.mono hle)
  rw [hadded]
  have hq := hsame.sound (h.mono hle)
  have hdropped := dropLeases_sound (q.staleOwners identity ip now) q hq
  have hfree : ∀ c d, q.reservations.lookup c = some d → d.1 = ip → c = identity := by
    intro c d hd hip
    by_contra hne
    rw [hsame.reservations] at hd
    have : p.isReservedByOther ip identity = true := isReservedByOther_iff.mpr ⟨c, d, hd, hip, hne⟩
    rw [hother] at this
    cases this
  refine ⟨hdropped.toAccounted.storeReservation ?_ ?_, ?_⟩
  · rw [dropLeases_reservations]
    exact hfree
  · have hle := h.reserved_le
    rw [dropLeases_reservations, hsame.reservations]
    rcases hroom with hmem | hroom
    · rw [AList.lookup_isSome.mpr hmem, Bool.toNat_true]
      omega
    · omega
  · intro c d c' r hd hlive hr hip
    obtain ⟨hkept, hd'⟩ := lookup_dropLeases _ q hd
    rcases lookup_insert_some hr with ⟨rfl, rfl⟩ | ⟨-, hold⟩
    · by_contra hne
      exact hkept (mem_staleOwners hd' hip.symm hlive (Ne.symm hne))
    · exact hdropped.undisputed c d c' r hd hlive hold hip

lemma Sound.removeReservation (h : p.Sound now) : (p.removeReservation identity).2.Sound now := by
  refine ⟨h.toAccounted.removeReservation identity, h.undisputed.of_subset ?_ ?_⟩
  · rw [LeasePool.removeReservation]
    split <;> exact fun c d hd => hd
  · rw [LeasePool.removeReservation]
    split
    · exact fun c r hr => (lookup_erase_some hr).2
    · exact fun c r hr => hr

/-- What is found valid has none of the addresses seen before, and no address twice. -/
theorem invalidReservations_spec
    {entries : List (Sigma fun _ : ClientIdentity => UInt32 × Option String)} {seen : List UInt32} :
    (∀ e ∈ entries, e.1 ∉ p.invalidReservations entries seen → e.2.1 ∉ seen) ∧
      ∀ e ∈ entries, ∀ e' ∈ entries, e.1 ∉ p.invalidReservations entries seen →
        e'.1 ∉ p.invalidReservations entries seen → e.2.1 = e'.2.1 → e = e' := by
  induction entries generalizing seen with
  | nil => simp
  | cons first rest ih =>
    by_cases hbad : (p.validateReservationIp first.2.1).isOk = false ∨ first.2.1 ∈ seen
    · have hinvalid : p.invalidReservations (first :: rest) seen =
          first.1 :: p.invalidReservations rest seen := if_pos hbad
      have hrest : ∀ e ∈ first :: rest, e.1 ∉ first.1 :: p.invalidReservations rest seen →
          e ∈ rest ∧ e.1 ∉ p.invalidReservations rest seen := by
        intro e he hkept
        rw [mem_cons, not_or] at hkept
        refine ⟨(mem_cons.mp he).resolve_left ?_, hkept.2⟩
        rintro rfl
        exact hkept.1 rfl
      rw [hinvalid]
      refine ⟨?_, ?_⟩
      · intro e he hkept
        obtain ⟨he, hkept⟩ := hrest e he hkept
        exact ih.1 e he hkept
      · intro e he e' he' hkept hkept'
        obtain ⟨he, hkept⟩ := hrest e he hkept
        obtain ⟨he', hkept'⟩ := hrest e' he' hkept'
        exact ih.2 e he e' he' hkept hkept'
    · have hvalid : p.invalidReservations (first :: rest) seen =
          p.invalidReservations rest (first.2.1 :: seen) := if_neg hbad
      rw [hvalid]
      obtain ⟨hseen, hapart⟩ := @ih (first.2.1 :: seen)
      refine ⟨?_, ?_⟩
      · intro e he hkept
        rcases mem_cons.mp he with rfl | he
        · exact fun hin => hbad (.inr hin)
        · exact fun hin => hseen e he hkept (mem_cons_of_mem _ hin)
      intro e he e' he' hkept hkept' hip
      rcases mem_cons.mp he with rfl | hin <;> rcases mem_cons.mp he' with rfl | hin'
      · rfl
      · exact absurd (by rw [← hip]; exact mem_cons_self) (hseen e' hin' hkept')
      · exact absurd (by rw [hip]; exact mem_cons_self) (hseen e hin hkept)
      · exact hapart e hin e' hin' hkept hkept' hip

/-- What is retained is allowed, has none of the addresses seen before, and no address twice. -/
theorem retainedLeases_spec {entries : List (Sigma fun _ : ClientIdentity => Lease)}
    {ips : List UInt32} :
    (∀ e ∈ p.retainedLeases now entries ips, p.leaseAllowed now e.1 e.2 ∧ e.2.ip ∉ ips) ∧
      ((p.retainedLeases now entries ips).map (·.2.ip)).Nodup := by
  induction entries generalizing ips with
  | nil => simp [retainedLeases]
  | cons first rest ih =>
    by_cases hkeep : p.leaseAllowed now first.1 first.2 ∧ first.2.ip ∉ ips
    · have hkept : p.retainedLeases now (first :: rest) ips =
          first :: p.retainedLeases now rest (first.2.ip :: ips) := if_pos hkeep
      obtain ⟨hall, hnodup⟩ := @ih (first.2.ip :: ips)
      rw [hkept]
      refine ⟨?_, ?_⟩
      · intro e he
        rcases mem_cons.mp he with rfl | he
        · exact hkeep
        · exact ⟨(hall e he).1, fun hin => (hall e he).2 (mem_cons_of_mem _ hin)⟩
      rw [map_cons, nodup_cons]
      refine ⟨?_, hnodup⟩
      intro hmem
      obtain ⟨e, he, hip⟩ := mem_map.mp hmem
      exact (hall e he).2 (by rw [hip]; exact mem_cons_self)
    · have hdropped : p.retainedLeases now (first :: rest) ips = p.retainedLeases now rest ips :=
        if_neg hkeep
      rw [hdropped]
      exact ih

/-- The maps of a pool after it was read back, whatever they held before. -/
structure Revalidated (p : LeasePool) (now : ℕ) : Prop where
  leases_apart : ∀ ip, tally (leaseAt ip) p.leases ≤ 1
  reservations_apart : ∀ ip, tally (reservedAt ip) p.reservations ≤ 1
  undisputed : p.Undisputed now

lemma revalidateLoadedState_spec (p : LeasePool) (now : ℕ) :
    (p.revalidateLoadedState now).Revalidated now := by
  have hreserved : ∀ c r c' r', (p.revalidateLoadedState now).reservations.lookup c = some r →
      (p.revalidateLoadedState now).reservations.lookup c' = some r' → r.1 = r'.1 → c' = c := by
    intro c r c' r' hr hr' hip
    obtain ⟨hr, hkept⟩ := lookup_keep.mp hr
    obtain ⟨hr', hkept'⟩ := lookup_keep.mp hr'
    have := invalidReservations_spec.2 ⟨c, r⟩ (mem_entries.mpr hr) ⟨c', r'⟩ (mem_entries.mpr hr')
      (of_decide_eq_true hkept) (of_decide_eq_true hkept') hip
    exact (congrArg Sigma.fst this).symm
  refine ⟨?_, ?_, ?_⟩
  · intro ip
    refine tally_le_one ?_
    intro c d c' d' hd hip hd' hip'
    have hmem := of_decide_eq_true (lookup_keep.mp hd).2
    have hmem' := of_decide_eq_true (lookup_keep.mp hd').2
    have hsame : d'.ip = d.ip := (of_decide_eq_true hip').trans (of_decide_eq_true hip).symm
    have := inj_on_of_nodup_map retainedLeases_spec.2 hmem' hmem hsame
    exact congrArg Sigma.fst this
  · intro ip
    refine tally_le_one ?_
    intro c r c' r' hr hip hr' hip'
    exact hreserved c r c' r' hr hr' ((of_decide_eq_true hip).trans (of_decide_eq_true hip').symm)
  · intro c d c' r hd hlive hr hip
    have hallowed := (retainedLeases_spec.1 _ (of_decide_eq_true (lookup_keep.mp hd).2)).1
    by_contra hne
    rw [leaseAllowed, Bool.and_eq_true, Bool.not_eq_true'] at hallowed
    have hother := isReservedByOther_iff.mpr ⟨c', r, hr, hip, hne⟩
    exact absurd (hother.symm.trans hallowed.2) (by simp)

/-- The index counted anew is right. -/
theorem Accounted.rebuildAddressUse (hlease : ∀ ip, tally (leaseAt ip) p.leases ≤ 1)
    (hreserved : ∀ ip, tally (reservedAt ip) p.reservations ≤ 1)
    (hdynamic : p.dynamicEntries ≤ MAX_STATE_ENTRIES)
    (hsize : size p.reservations ≤ MAX_STATE_ENTRIES) : p.rebuildAddressUse.Accounted := by
  refine ⟨?_, ?_, hlease, hreserved, fun e he => earliest_le he, hdynamic, hsize⟩
  · intro ip
    have hservice := p.serviceAddresses_length
    have hlimit : p.serviceAddresses.length + (p.leases.entries.map (·.2.ip)).length +
        (p.offers.entries.map (·.2.ip)).length + p.declined.keys.length +
        (p.reservations.entries.map (·.2.1)).length ≤ 2 ^ 32 - 1 := by
      have hdeclined : p.declined.keys.length = size p.declined := length_map _
      simp only [dynamicEntries, MAX_STATE_ENTRIES, size] at hdynamic hsize hdeclined
      simp only [length_map]
      omega
    have hcounts := useOf_foldl_occupyIns
      [p.serviceAddresses, p.leases.entries.map (·.2.ip), p.offers.entries.map (·.2.ip),
        p.declined.keys, p.reservations.entries.map (·.2.1)] ip (by simpa [add_assoc] using hlimit)
    refine hcounts.trans ?_
    have hcount : p.serviceAddresses.count ip = p.serviceAddresses.countP fun x => x = ip :=
      countP_congr fun x _ => by simp
    have hlease : tally (leaseAt ip) p.leases =
        (p.leases.entries.map (·.2.ip)).countP fun x => x = ip := by
      rw [countP_map]
      rfl
    have hoffer : tally (offerAt ip) p.offers =
        (p.offers.entries.map (·.2.ip)).countP fun x => x = ip := by
      rw [countP_map]
      rfl
    have hdeclined : tally (declinedAt ip) p.declined = p.declined.keys.countP fun x => x = ip := by
      rw [AList.keys, keys, countP_map]
      rfl
    have hreserved : tally (reservedAt ip) p.reservations =
        (p.reservations.entries.map (·.2.1)).countP fun x => x = ip := by
      rw [countP_map]
      rfl
    change _ = tally (leaseAt ip) p.leases + tally (offerAt ip) p.offers +
      tally (declinedAt ip) p.declined + tally (reservedAt ip) p.reservations +
      p.serviceAddresses.count ip
    simp only [map_cons, map_nil, sum_cons, sum_nil]
    omega
  · exact positive_foldl_occupyIn _ _ (positive_foldl_occupyIn _ _ (positive_foldl_occupyIn _ _
      (positive_foldl_occupyIn _ _ (positive_foldl_occupyIn _ _ positive_empty))))

end LeasePool
end OnetDns.Dhcp
