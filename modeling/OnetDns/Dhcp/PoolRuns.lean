import OnetDns.Dhcp.Operations

/-!
# Runs of the pool

The pools that a server can have at a time: made from any files, then changed by any operations in
any order while time passes. Their books are right, the addresses that are granted are fit to be
granted, and a client is turned away only where nothing is left to give.
-/
namespace OnetDns.Dhcp
open Tally Option Finset Nat UInt32

namespace LeasePool

variable {p q : LeasePool} {identity : ClientIdentity} {ip : UInt32} {now t : ℕ}

lemma readReservationLines_size {shown : String} {lines : List (Option ReservationLine)}
    {lineNo : ℕ} {out r : Reservations} (h : readReservationLines shown lines lineNo out = .ok r)
    (hout : size out ≤ MAX_STATE_ENTRIES) : size r ≤ MAX_STATE_ENTRIES := by
  induction lines generalizing lineNo out with
  | nil =>
    cases h
    exact hout
  | cons line rest ih =>
    rw [readReservationLines] at h
    split at h
    · cases h
    split at h
    · cases h
    next l _ =>
    split at h
    · cases h
    · have hsize := size_insert out l.identity (l.ip, l.hostname)
      exact ih h (by omega)

lemma readReservations_size {shown : String} {text : FileText ReservationLine} {r : Reservations}
    (h : readReservations shown text = .ok r) : size r ≤ MAX_STATE_ENTRIES := by
  cases text with
  | missing =>
    cases h
    exact zero_le _
  | failed e => cases h
  | body lines => exact readReservationLines_size h (zero_le _)

lemma loadLeaseLines_size {lines : List (Option LeaseLine)} {out r : Leases}
    (h : loadLeaseLines now lines out = some r) (hout : size out ≤ MAX_STATE_ENTRIES) :
    size r ≤ MAX_STATE_ENTRIES := by
  induction lines generalizing out with
  | nil =>
    cases h
    exact hout
  | cons line rest ih =>
    rw [loadLeaseLines] at h
    split at h
    · cases h
    split at h
    · cases h
    next l _ =>
    split at h
    · exact ih h hout
    · split at h
      · cases h
      · have hsize := size_insert out l.identity ⟨l.mac, l.ip, l.expiry, l.hostname⟩
        exact ih h (by omega)

lemma loadLeases_size (now : ℕ) (text : FileText LeaseLine) :
    size (loadLeases now text) ≤ MAX_STATE_ENTRIES := by
  cases text with
  | missing => exact zero_le _
  | failed e => exact zero_le _
  | body lines =>
    cases h : loadLeaseLines now lines ∅ with
    | none =>
      simp only [loadLeases, h]
      exact zero_le _
    | some r =>
      simp only [loadLeases, h]
      exact loadLeaseLines_size h (zero_le _)

/-- What was read is brought in order whatever it is, unless it is too much. -/
theorem sound_of_revalidated (hdynamic : p.dynamicEntries ≤ MAX_STATE_ENTRIES)
    (hsize : size p.reservations ≤ MAX_STATE_ENTRIES) :
    ((p.revalidateLoadedState now).rebuildAddressUse).Sound now := by
  obtain ⟨hlease, hreserved, hundisputed⟩ := p.revalidateLoadedState_spec now
  refine ⟨.rebuildAddressUse hlease hreserved ?_ ?_, hundisputed⟩
  · have hkept : size (p.revalidateLoadedState now).leases ≤ size p.leases := size_keep_le _ _
    have hoffers : (p.revalidateLoadedState now).offers = p.offers := rfl
    have hdeclined : (p.revalidateLoadedState now).declined = p.declined := rfl
    simp only [dynamicEntries, hoffers, hdeclined] at hdynamic ⊢
    omega
  · exact (size_keep_le _ _).trans hsize

lemma new_sound (cfg : DhcpConfig) (leaseFile : FileText LeaseLine)
    (staticFile : FileText ReservationLine) (now : ℕ) :
    (new cfg leaseFile staticFile now).Sound now := by
  refine sound_of_revalidated ?_ ?_
  · exact loadLeases_size now leaseFile
  cases hstatic : cfg.staticFile with
  | none => exact zero_le _
  | some path =>
    cases hread : readReservations ((some path).getD "") staticFile with
    | error e => exact zero_le _
    | ok r => exact readReservations_size hread

lemma Sound.reconfigure {cfg : DhcpConfig} {pathExists : Bool}
    {staticFile : FileText ReservationLine} (h : p.Sound t) (hle : t ≤ now) :
    (p.reconfigure cfg pathExists staticFile now).2.Sound now := by
  cases hread : p.reservationsFor cfg pathExists staticFile with
  | error e => simpa only [LeasePool.reconfigure, hread] using h.mono hle
  | ok r =>
    simp only [LeasePool.reconfigure, hread]
    refine sound_of_revalidated ?_ ?_
    · have := h.dynamic_le
      simp only [dynamicEntries] at this ⊢
      have hempty : size (∅ : Offers) = 0 := rfl
      omega
    rw [reservationsFor] at hread
    split at hread
    · split at hread
      · exact readReservations_size hread
      · cases hread
        exact h.reserved_le
    · cases hread
      exact h.reserved_le

/-- The place of an address in the range. -/
def place (p : LeasePool) (ip : UInt32) : ℕ := ip.toNat - p.start.toNat

lemma next_in_range (hrange : p.start ≤ p.stop) (hip : p.start ≤ ip ∧ ip ≤ p.stop) :
    p.start ≤ p.next ip ∧ p.next ip ≤ p.stop := by
  rw [next]
  split
  · exact ⟨UInt32.le_refl _, hrange⟩
  next hne =>
  have hlt : ip.toNat < p.stop.toNat :=
    lt_of_le_of_ne (UInt32.le_iff_toNat_le.mp hip.2) fun h => hne (UInt32.toNat_inj.mp h)
  have hsucc : (ip + 1).toNat = ip.toNat + 1 := by
    have := p.stop.toNat_lt
    rw [UInt32.toNat_add, UInt32.toNat_one, mod_eq_of_lt (by omega)]
  have hstart := le_iff_toNat_le.mp hip.1
  rw [le_iff_toNat_le, le_iff_toNat_le]
  omega

/-- The search goes around the range. -/
theorem place_next (hip : p.start ≤ ip ∧ ip ≤ p.stop) :
    p.place (p.next ip) = (p.place ip + 1) % p.span := by
  have hstart := le_iff_toNat_le.mp hip.1
  have hstop := le_iff_toNat_le.mp hip.2
  rw [next]
  split
  · next heq =>
    subst heq
    have hspan : p.place p.stop + 1 = p.span := rfl
    rw [hspan, mod_self, place, Nat.sub_self]
  next hne =>
  have hlt : ip.toNat < p.stop.toNat := lt_of_le_of_ne hstop fun h => hne (UInt32.toNat_inj.mp h)
  have hsucc : (ip + 1).toNat = ip.toNat + 1 := by
    have := p.stop.toNat_lt
    rw [UInt32.toNat_add, UInt32.toNat_one, mod_eq_of_lt (by omega)]
  rw [place, place, mod_eq_of_lt (by rw [span]; omega)]
  omega

lemma place_iterate (hrange : p.start ≤ p.stop) (hip : p.start ≤ ip ∧ ip ≤ p.stop) (k : ℕ) :
    (p.start ≤ p.next^[k] ip ∧ p.next^[k] ip ≤ p.stop) ∧
      p.place (p.next^[k] ip) = (p.place ip + k) % p.span := by
  induction k with
  | zero =>
    have hstop := le_iff_toNat_le.mp hip.2
    refine ⟨hip, ?_⟩
    rw [Function.iterate_zero_apply, add_zero, mod_eq_of_lt (by rw [place, span]; omega)]
  | succ k ih =>
    rw [Function.iterate_succ_apply']
    refine ⟨next_in_range hrange ih.1, ?_⟩
    rw [place_next ih.1, ih.2, mod_add_mod, add_assoc]

lemma eq_of_place {a b : UInt32} (ha : p.start ≤ a) (hb : p.start ≤ b)
    (h : p.place a = p.place b) : a = b := by
  have ha := le_iff_toNat_le.mp ha
  have hb := le_iff_toNat_le.mp hb
  simp only [place] at h
  exact UInt32.toNat_inj.mp (by omega)

lemma probe_none {probes : ℕ} {candidate : UInt32} (h : (p.probe probes candidate).1 = none) :
    ∀ k < probes, p.next^[k] candidate ∈ p.addressUse := by
  induction probes generalizing candidate with
  | zero =>
    omega
  | succ probes ih =>
    rw [probe] at h
    split at h
    · next hmem =>
      intro k hk
      cases k with
      | zero => exact hmem
      | succ k => exact ih h k (by omega)
    · cases h

lemma probe_some (hrange : p.start ≤ p.stop) {probes : ℕ} {candidate : UInt32}
    (hin : p.start ≤ candidate ∧ candidate ≤ p.stop) (h : (p.probe probes candidate).1 = some ip) :
    ip ∉ p.addressUse := by
  induction probes generalizing candidate with
  | zero => cases h
  | succ probes ih =>
    rw [probe] at h
    split at h
    · exact ih (next_in_range hrange hin) h
    · next hmem =>
      cases h
      exact hmem

def searchStart (p : LeasePool) : UInt32 :=
  if p.start ≤ p.allocationCursor ∧ p.allocationCursor ≤ p.stop then p.allocationCursor else p.start

lemma searchStart_in_range (hrange : p.start ≤ p.stop) :
    p.start ≤ p.searchStart ∧ p.searchStart ≤ p.stop := by
  rw [searchStart]
  split
  · assumption
  · exact ⟨UInt32.le_refl _, hrange⟩

/-- As many places as the index has addresses, and one more, cannot all be in use; so a search
that ends without an address has gone around the whole range. -/
theorem pickAvailable_none (h : p.pickAvailable.1 = none) (hip : p.start ≤ ip ∧ ip ≤ p.stop) :
    ip ∈ p.addressUse := by
  have hrange : p.start ≤ p.stop := UInt32.le_trans hip.1 hip.2
  have hnot : ¬p.start > p.stop := UInt32.not_lt.mpr hrange
  have hprobes : ∀ k < min p.span (size p.addressUse + 1), p.next^[k] p.searchStart ∈
      p.addressUse := by
    refine probe_none ?_
    rw [pickAvailable, if_neg hnot] at h
    exact h
  have hstart := searchStart_in_range hrange
  have hspan : 0 < p.span := succ_pos _
  have hplace : ∀ {a}, p.start ≤ a ∧ a ≤ p.stop → p.place a < p.span := by
    intro a ha
    have hstop := le_iff_toNat_le.mp ha.2
    rw [place, span]
    omega
  rcases le_or_gt p.span (size p.addressUse + 1) with hall | hfew
  · rw [min_eq_left hall] at hprobes
    set k := (p.place ip + p.span - p.place p.searchStart) % p.span
    have hreach : p.next^[k] p.searchStart = ip := by
      obtain ⟨hin, hplaced⟩ := place_iterate hrange hstart k
      refine eq_of_place hin.1 hip.1 ?_
      have hsum : p.place p.searchStart + (p.place ip + p.span - p.place p.searchStart) =
          p.place ip + p.span := by
        have := hplace hstart
        omega
      rw [hplaced, add_mod_mod, hsum, add_mod_right, mod_eq_of_lt (hplace hip)]
    rw [← hreach]
    exact hprobes k (mod_lt _ hspan)
  rw [min_eq_right hfew.le] at hprobes
  have hinj : Set.InjOn (fun k => p.next^[k] p.searchStart)
      (range (size p.addressUse + 1)) := by
    intro k hk k' hk' heq
    have hk := mem_range.mp (mem_coe.mp hk)
    have hk' := mem_range.mp (mem_coe.mp hk')
    have hplaced := (place_iterate hrange hstart k).2
    have hplaced' := (place_iterate hrange hstart k').2
    simp only at heq
    rw [heq, hplaced'] at hplaced
    have hmod : k' % p.span = k % p.span := ModEq.add_left_cancel' _ hplaced
    rwa [mod_eq_of_lt (by omega), mod_eq_of_lt (by omega), eq_comm] at hmod
  have hcard := card_le_card_of_injOn (t := p.addressUse.keys.toFinset) _
    (fun k hk => mem_coe.mpr (List.mem_toFinset.mpr
      (AList.mem_keys.mp (hprobes k (mem_range.mp (mem_coe.mp hk)))))) hinj
  have hkeys : p.addressUse.keys.toFinset.card ≤ size p.addressUse :=
    (List.toFinset_card_le _).trans_eq (List.length_map _)
  rw [card_range] at hcard
  omega

lemma pickAvailable_some (h : p.pickAvailable.1 = some ip) : ip ∉ p.addressUse := by
  rw [pickAvailable] at h
  split at h
  · cases h
  · next hnot =>
    have hrange : p.start ≤ p.stop := UInt32.not_lt.mp hnot
    exact probe_some hrange (searchStart_in_range hrange) h

lemma pickAvailable_sameBooks (p : LeasePool) : SameBooks p p.pickAvailable.2 := by
  rw [pickAvailable]
  split <;> exact ⟨rfl, rfl, rfl, rfl, rfl, rfl, rfl, rfl, rfl, rfl⟩

lemma SameBooks.trans {r : LeasePool} (hpq : SameBooks p q) (hqr : SameBooks q r) : SameBooks p r :=
  ⟨hqr.leases.trans hpq.leases, hqr.offers.trans hpq.offers, hqr.declined.trans hpq.declined,
    hqr.reservations.trans hpq.reservations, hqr.addressUse.trans hpq.addressUse,
    hqr.nextExpiry.trans hpq.nextExpiry, hqr.service.trans hpq.service, hqr.start.trans hpq.start,
    hqr.stop.trans hpq.stop, hqr.leaseSecs.trans hpq.leaseSecs⟩

/-- The address of a client that has no reservation, looked for in a pool without expired entries:
its own, or one that is not in use; or there is none. -/
inductive Allocated (clean : LeasePool) (identity : ClientIdentity) (now : ℕ) : Option UInt32 → Prop
  | offer {offer : Offer} : clean.offers.lookup identity = some offer → now < offer.expiry →
      Allocated clean identity now (some offer.ip)
  | lease {lease : Lease} : clean.leases.lookup identity = some lease → now < lease.expiry →
      Allocated clean identity now (some lease.ip)
  | unused {ip : UInt32} : ip ∉ clean.addressUse → Allocated clean identity now (some ip)
  | full : MAX_STATE_ENTRIES ≤ clean.dynamicEntries → Allocated clean identity now none
  | exhausted : (∀ ip, clean.start ≤ ip ∧ ip ≤ clean.stop → ip ∈ clean.addressUse) →
      Allocated clean identity now none

lemma allocate_reserved {r : UInt32 × Option String}
    (h : p.reservations.lookup identity = some r) : p.allocate identity now = (some r.1, p) := by
  simp only [allocate, h]

lemma allocate_cases (p : LeasePool) (identity : ClientIdentity) (now : ℕ)
    (h : p.reservations.lookup identity = none) :
    SameBooks (p.cleanupExpired now) (p.allocate identity now).2 ∧
      Allocated (p.cleanupExpired now) identity now (p.allocate identity now).1 := by
  set clean := p.cleanupExpired now with hclean
  cases hoffer : (clean.offers.lookup identity).filter fun offer => now < offer.expiry with
  | some offer =>
    obtain ⟨hlookup, hlive⟩ := filter_eq_some_iff.mp hoffer
    simp only [allocate, h, ← hclean, hoffer]
    exact ⟨.refl _, .offer hlookup (of_decide_eq_true hlive)⟩
  | none =>
    cases hlease : (clean.leases.lookup identity).filter fun lease => now < lease.expiry with
    | some lease =>
      obtain ⟨hlookup, hlive⟩ := filter_eq_some_iff.mp hlease
      simp only [allocate, h, ← hclean, hoffer, hlease]
      exact ⟨.refl _, .lease hlookup (of_decide_eq_true hlive)⟩
    | none =>
      obtain ⟨q, hsame, ⟨hadmitted, hfull⟩ | ⟨hadmitted, -⟩⟩ := clean.admitUnless_cases False 0
      · simp only [allocate, h, ← hclean, hoffer, hlease, hadmitted]
        exact ⟨hsame, .full hfull⟩
      simp only [allocate, h, ← hclean, hoffer, hlease, hadmitted, if_true]
      have hpick := hsame.trans q.pickAvailable_sameBooks
      refine ⟨{ hpick with }, ?_⟩
      cases hpicked : q.pickAvailable.1 with
      | none =>
        refine .exhausted fun ip hip => ?_
        rw [← hsame.addressUse]
        refine pickAvailable_none hpicked ?_
        rwa [hsame.start, hsame.stop]
      | some ip =>
        refine .unused ?_
        rw [← hsame.addressUse]
        exact pickAvailable_some hpicked

lemma Sound.allocate (h : p.Sound t) (hle : t ≤ now) : (p.allocate identity now).2.Sound now := by
  cases hreserved : p.reservations.lookup identity with
  | some r =>
    rw [allocate_reserved hreserved]
    exact h.mono hle
  | none => exact (p.allocate_cases identity now hreserved).1.sound (h.cleanupExpired hle)

variable {req : DhcpMessage} {cfg : DhcpConfig} {clock : Clock} {target : UInt32}

/-- A request is refused in a pool without expired entries, or granted there. -/
inductive Requested (req : DhcpMessage) (p : LeasePool) (cfg : DhcpConfig) (clock : Clock)
    (identity : ClientIdentity) (target : UInt32) : Option DhcpMessage × LeasePool → Prop
  | kept : Requested req p cfg clock identity target (some (buildReply req NAK UNSPECIFIED cfg), p)
  | swept : Requested req p cfg clock identity target
      (some (buildReply req NAK UNSPECIFIED cfg), p.cleanupExpired clock.second)
  | decided : (p.cleanupExpired clock.second).addressUsedByOtherInner identity target = false →
      (p.reservationIp identity = some target ∨
        p.reservationIp identity = none ∧ p.start ≤ target ∧ target ≤ p.stop) →
      Requested req p cfg clock identity target
        (some (if ((p.cleanupExpired clock.second).commit identity req.chaddr target req.hostname
              clock.third).1 then buildReply req ACK target cfg
            else buildReply req NAK UNSPECIFIED cfg),
          ((p.cleanupExpired clock.second).commit identity req.chaddr target req.hostname
            clock.third).2)

lemma handleRequest_cases (req : DhcpMessage) (p : LeasePool) (cfg : DhcpConfig) (clock : Clock)
    (identity : ClientIdentity) (target : UInt32) :
    Requested req p cfg clock identity target (handleRequest req p cfg clock identity target) := by
  have hrange : (p.cleanupExpired clock.second).start = p.start ∧
      (p.cleanupExpired clock.second).stop = p.stop := by
    rw [cleanupExpired]
    split <;> exact ⟨rfl, rfl⟩
  cases hreserved : p.reservationIp identity with
  | some rip =>
    by_cases hother : rip = target
    · subst hother
      by_cases hused : (p.cleanupExpired clock.second).addressUsedByOtherInner identity rip = true
      · simp only [handleRequest, hreserved, addressUsedByOther, hused, ne_eq]
        exact .swept
      · rw [Bool.not_eq_true] at hused
        simp only [handleRequest, hreserved, addressUsedByOther, hused, ne_eq]
        exact .decided hused (.inl hreserved)
    · simp only [handleRequest, hreserved, ne_eq, hother]
      exact .kept
  | none =>
    by_cases hfit : p.start ≤ target ∧ target ≤ p.stop ∧
        ¬(p.cleanupExpired clock.second).addressUsedByOtherInner identity target = true
    · simp only [handleRequest, hreserved, addressUsedByOther, hrange.1, hrange.2, hfit]
      obtain ⟨hstart, hstop, hused⟩ := hfit
      exact .decided (Bool.eq_false_iff.mpr hused) (.inr ⟨hreserved, hstart, hstop⟩)
    · simp only [handleRequest, hreserved, addressUsedByOther, hrange.1, hrange.2, hfit]
      exact .swept

lemma Sound.handleRequest (h : p.Sound t) (hle : t ≤ clock.second) :
    (handleRequest req p cfg clock identity target).2.Sound clock.third := by
  have hthird := clock.second_le
  have hcases := handleRequest_cases req p cfg clock identity target
  generalize Dhcp.handleRequest req p cfg clock identity target = result at hcases ⊢
  cases hcases with
  | kept => exact h.mono (hle.trans hthird)
  | swept => exact (h.cleanupExpired hle).mono hthird
  | decided hunused _ =>
    have hclean := h.cleanupExpired hle
    exact hclean.commit hthird (hclean.toAccounted.free hunused)

/-- What `handle` makes of a message: each action once, with what comes of it. -/
inductive Handled (req : DhcpMessage) (p : LeasePool) (cfg : DhcpConfig) (clock : Clock) :
    Option DhcpMessage × LeasePool → Prop
  | ignored : classifyClientAction req cfg.serverIp = none → Handled req p cfg clock (none, p)
  | turnedAway : classifyClientAction req cfg.serverIp = some .discover →
      (p.allocate req.clientIdentity clock.first).1 = none →
      Handled req p cfg clock (none, (p.allocate req.clientIdentity clock.first).2)
  | offered {ip : UInt32} : classifyClientAction req cfg.serverIp = some .discover →
      (p.allocate req.clientIdentity clock.first).1 = some ip →
      Handled req p cfg clock
        (if ((p.allocate req.clientIdentity clock.first).2.holdOffer req.clientIdentity req.xid ip
            clock.second).1 then some (buildReply req OFFER ip cfg) else none,
          ((p.allocate req.clientIdentity clock.first).2.holdOffer req.clientIdentity req.xid ip
            clock.second).2)
  | unselected {target : UInt32} :
      classifyClientAction req cfg.serverIp = some (.request target true) →
      Handled req p cfg clock
        (some (buildReply req NAK UNSPECIFIED cfg), p.cleanupExpired clock.first)
  | selected {target : UInt32} :
      classifyClientAction req cfg.serverIp = some (.request target true) →
      Handled req p cfg clock (OnetDns.Dhcp.handleRequest req
        ((p.cleanupExpired clock.first).dropOffer req.clientIdentity) cfg clock req.clientIdentity
          target)
  | rebooting {target : UInt32} :
      classifyClientAction req cfg.serverIp = some (.request target false) →
      Handled req p cfg clock (OnetDns.Dhcp.handleRequest req p cfg clock req.clientIdentity target)
  | released {target : UInt32} : classifyClientAction req cfg.serverIp = some (.release target) →
      Handled req p cfg clock (none, p.release req.clientIdentity target)
  | declined {target : UInt32} : classifyClientAction req cfg.serverIp = some (.decline target) →
      Handled req p cfg clock (none, p.decline req.clientIdentity target clock.first)

lemma handle_cases (req : DhcpMessage) (p : LeasePool) (cfg : DhcpConfig) (clock : Clock) :
    Handled req p cfg clock (handle req p cfg clock) := by
  cases haction : classifyClientAction req cfg.serverIp with
  | none =>
    simp only [handle, haction]
    exact .ignored haction
  | some action =>
    cases action with
    | discover =>
      cases hallocated : (p.allocate req.clientIdentity clock.first).1 with
      | none =>
        simp only [handle, haction, hallocated]
        exact .turnedAway haction hallocated
      | some ip =>
        simp only [handle, haction, hallocated]
        exact .offered haction hallocated
    | request target selecting =>
      cases selecting with
      | false =>
        simp only [handle, haction]
        exact .rebooting haction
      | true =>
        rcases consumeOffer_cases p req.clientIdentity req.xid target clock.first with hno | hyes
        · simp only [handle, haction, hno]
          exact .unselected haction
        · simp only [handle, haction, hyes]
          exact .selected haction
    | decline target =>
      simp only [handle, haction]
      exact .declined haction
    | release target =>
      simp only [handle, haction]
      exact .released haction

lemma Sound.handle (h : p.Sound t) (hle : t ≤ clock.first) :
    (handle req p cfg clock).2.Sound clock.third := by
  have hfirst := clock.first_le
  have hsecond := clock.second_le
  have hcases := handle_cases req p cfg clock
  generalize Dhcp.handle req p cfg clock = result at hcases ⊢
  cases hcases with
  | ignored _ => exact h.mono (by omega)
  | turnedAway _ _ => exact (h.allocate hle).mono (by omega)
  | offered _ _ => exact ((h.allocate hle).holdOffer hfirst).mono hsecond
  | unselected _ => exact (h.cleanupExpired hle).mono (by omega)
  | selected _ => exact ((h.cleanupExpired hle).dropOffer _).handleRequest hfirst
  | rebooting _ => exact h.handleRequest (by omega)
  | released _ => exact h.release.mono (by omega)
  | declined _ => exact (h.decline hle).mono (by omega)

/-- The pools that there can be, each with the time up to which it has come. -/
inductive Reachable : LeasePool → ℕ → Prop
  | new (cfg : DhcpConfig) (leaseFile : FileText LeaseLine)
      (staticFile : FileText ReservationLine) (now : ℕ) :
      Reachable (new cfg leaseFile staticFile now) now
  | handle {p : LeasePool} {t : ℕ} (req : DhcpMessage) (cfg : DhcpConfig) (clock : Clock) :
      Reachable p t → t ≤ clock.first → Reachable (handle req p cfg clock).2 clock.third
  | addReservation {p : LeasePool} {t now : ℕ} (identity : ClientIdentity) (ip : UInt32)
      (hostname : Option String) : Reachable p t → t ≤ now →
      Reachable (p.addReservation identity ip hostname now).2 now
  | removeReservation {p : LeasePool} {t : ℕ} (identity : ClientIdentity) : Reachable p t →
      Reachable (p.removeReservation identity).2 t
  | insert {p : LeasePool} {t now : ℕ} (identity : ClientIdentity) (mac : Mac) (ip : UInt32)
      (expiryUnix : ℕ) (hostname : Option String) : Reachable p t → t ≤ now →
      Reachable (p.insert identity mac ip expiryUnix hostname now).2 now
  | reconfigure {p : LeasePool} {t now : ℕ} (cfg : DhcpConfig) (pathExists : Bool)
      (staticFile : FileText ReservationLine) : Reachable p t → t ≤ now →
      Reachable (p.reconfigure cfg pathExists staticFile now).2 now
  | tick {p : LeasePool} {t now : ℕ} : Reachable p t → t ≤ now → Reachable p now

lemma Reachable.sound (h : Reachable p t) : p.Sound t := by
  induction h with
  | new cfg leaseFile staticFile now => exact new_sound cfg leaseFile staticFile now
  | handle req cfg clock _ hle ih => exact ih.handle hle
  | addReservation identity ip hostname _ hle ih => exact ih.addReservation hle
  | removeReservation identity _ ih => exact ih.removeReservation
  | insert identity mac ip expiryUnix hostname _ hle ih => exact ih.insert hle
  | reconfigure cfg pathExists staticFile _ hle ih => exact ih.reconfigure hle
  | tick _ hle ih => exact ih.mono hle

/-- An entry that has not expired, a reservation or a service address names the address. -/
def InUse (p : LeasePool) (now : ℕ) (ip : UInt32) : Prop :=
  (∃ c d, p.leases.lookup c = some d ∧ now < d.expiry ∧ d.ip = ip) ∨
    (∃ c d, p.offers.lookup c = some d ∧ now < d.expiry ∧ d.ip = ip) ∨
    (∃ e, p.declined.lookup ip = some e ∧ now < e) ∨
    (∃ c r, p.reservations.lookup c = some r ∧ r.1 = ip) ∨ ip ∈ p.serviceAddresses

lemma Accounted.inUse (h : p.Accounted) (hmem : ip ∈ (p.cleanupExpired now).addressUse) :
    p.InUse now ip := by
  have hclean := h.cleanupExpired now
  have hswept := cleanupExpired_swept h now
  have hpos := (mem_iff_useOf_pos hclean.positive).mp hmem
  rw [hclean.exact, references, hswept.service, hswept.reservations] at hpos
  by_cases hlease : 0 < tally (leaseAt ip) (p.cleanupExpired now).leases
  · obtain ⟨c, d, hd, hip⟩ := tally_pos_iff.mp hlease
    obtain ⟨hd, hlive⟩ := (hswept.lease c d).mp hd
    exact .inl ⟨c, d, hd, hlive, of_decide_eq_true hip⟩
  by_cases hoffer : 0 < tally (offerAt ip) (p.cleanupExpired now).offers
  · obtain ⟨c, d, hd, hip⟩ := tally_pos_iff.mp hoffer
    obtain ⟨hd, hlive⟩ := (hswept.offer c d).mp hd
    exact .inr (.inl ⟨c, d, hd, hlive, of_decide_eq_true hip⟩)
  by_cases hdeclined : 0 < tally (declinedAt ip) (p.cleanupExpired now).declined
  · obtain ⟨c, e, he, hip⟩ := tally_pos_iff.mp hdeclined
    obtain rfl := of_decide_eq_true hip
    exact .inr (.inr (.inl ⟨e, (hswept.declined c e).mp he⟩))
  by_cases hreserved : 0 < tally (reservedAt ip) p.reservations
  · obtain ⟨c, r, hr, hip⟩ := tally_pos_iff.mp hreserved
    exact .inr (.inr (.inr (.inl ⟨c, r, hr, of_decide_eq_true hip⟩)))
  · exact .inr (.inr (.inr (.inr (List.count_pos_iff.mp (by omega)))))

/-- What a client may be granted: its reservation, or an address of the range that is no service
address. -/
def Grantable (p : LeasePool) (identity : ClientIdentity) (ip : UInt32) : Prop :=
  p.reservationIp identity = some ip ∨
    (p.start ≤ ip ∧ ip ≤ p.stop) ∧ ip ∉ [p.serverIp, p.router, p.net, p.bcast]

lemma ack_ne_nak : ACK ≠ NAK := by decide

lemma ack_ne_offer : ACK ≠ OFFER := by decide

variable {result : Option DhcpMessage × LeasePool} {reply : DhcpMessage}

/-- An acknowledged address was decided on: it is the one asked for. -/
theorem Requested.ack (h : Requested req p cfg clock identity target result)
    (hreply : result.1 = some reply) (hack : reply.msgType = some ACK) : reply.yiaddr = target ∧
      (p.cleanupExpired clock.second).addressUsedByOtherInner identity target = false ∧
      (p.reservationIp identity = some target ∨
        p.reservationIp identity = none ∧ p.start ≤ target ∧ target ≤ p.stop) ∧
      ((p.cleanupExpired clock.second).commit identity req.chaddr target req.hostname
        clock.third).1 = true ∧
      result.2 = ((p.cleanupExpired clock.second).commit identity req.chaddr target req.hostname
        clock.third).2 := by
  have hnak : ∀ {m : DhcpMessage}, some (buildReply req NAK UNSPECIFIED cfg) = some m →
      m.msgType ≠ some ACK := by
    intro m hm
    cases hm
    exact fun h => ack_ne_nak (some.inj h).symm
  cases h with
  | kept => exact absurd hack (hnak hreply)
  | swept => exact absurd hack (hnak hreply)
  | decided hunused hfit =>
    by_cases hcommit : ((p.cleanupExpired clock.second).commit identity req.chaddr target
        req.hostname clock.third).1 = true
    · simp only [hcommit, some.injEq] at hreply
      subst hreply
      exact ⟨rfl, hunused, hfit, hcommit, rfl⟩
    · simp only [hcommit] at hreply
      exact absurd hack (hnak hreply)

lemma Requested.grantable (h : Requested req p cfg clock identity target result)
    (hsound : p.Accounted) (hreply : result.1 = some reply) (hack : reply.msgType = some ACK) :
    p.Grantable identity reply.yiaddr := by
  obtain ⟨htarget, hunused, hfit, -⟩ := h.ack hreply hack
  rw [htarget]
  rcases hfit with hreserved | ⟨-, hrange⟩
  · exact .inl hreserved
  have hfree := (hsound.cleanupExpired clock.second).free hunused
  have hservice := hfree.service
  rw [(cleanupExpired_swept hsound clock.second).service] at hservice
  refine .inr ⟨hrange, fun hmem => hservice ?_⟩
  exact List.mem_filter.mpr ⟨hmem, decide_eq_true hrange⟩

/-- An address is only acknowledged by the decision on a request. -/
theorem Handled.ack (h : Handled req p cfg clock result) (hsound : p.Sound t)
    (hle : t ≤ clock.first) (hreply : result.1 = some reply) (hack : reply.msgType = some ACK) :
    ∃ q target, q.Sound clock.second ∧ Requested req q cfg clock req.clientIdentity target result ∧
      (q = p ∨ q = (p.cleanupExpired clock.first).dropOffer req.clientIdentity) := by
  have hfirst := clock.first_le
  cases h with
  | ignored _ => cases hreply
  | turnedAway _ _ => cases hreply
  | offered _ _ =>
    split at hreply
    · cases hreply
      exact absurd (some.inj hack).symm ack_ne_offer
    · cases hreply
  | unselected _ =>
    cases hreply
    exact absurd (some.inj hack).symm ack_ne_nak
  | selected _ =>
    exact ⟨_, _, ((hsound.cleanupExpired hle).dropOffer _).mono hfirst,
      handleRequest_cases _ _ _ _ _ _, .inr rfl⟩
  | rebooting _ =>
    exact ⟨p, _, hsound.mono (hle.trans hfirst), handleRequest_cases _ _ _ _ _ _, .inl rfl⟩
  | released _ => cases hreply
  | declined _ => cases hreply

lemma grantable_consumed (p : LeasePool) (c : ClientIdentity) :
    ((p.cleanupExpired now).dropOffer c).Grantable identity ip ↔ p.Grantable identity ip := by
  have hdrop : ∀ q : LeasePool, (q.dropOffer c).Grantable identity ip ↔ q.Grantable identity ip := by
    intro q
    rw [dropOffer]
    split <;> rfl
  rw [hdrop, cleanupExpired]
  split <;> rfl

/-- What the books of a pool, and its answers from then on, are to be. -/
structure PoolAccounts (p : LeasePool) (t : ℕ) : Prop where
  use_counts : ∀ ip, (p.addressUse.lookup ip).getD 0 =
    tally (leaseAt ip) p.leases + tally (offerAt ip) p.offers + tally (declinedAt ip) p.declined +
      tally (reservedAt ip) p.reservations +
      ([p.serverIp, p.router, p.net, p.bcast].filter fun a => p.start ≤ a ∧ a ≤ p.stop).count ip
  leases_apart : ∀ c d c' d', p.leases.lookup c = some d → p.leases.lookup c' = some d' →
    d.ip = d'.ip → c = c'
  reservations_apart : ∀ c r c' r', p.reservations.lookup c = some r →
    p.reservations.lookup c' = some r' → r.1 = r'.1 → c = c'
  undisputed : ∀ c d c' r, p.leases.lookup c = some d → t < d.expiry →
    p.reservations.lookup c' = some r → r.1 = d.ip → c' = c
  lease_expiry : ∀ c d, p.leases.lookup c = some d → p.nextExpiry ≤ d.expiry
  offer_expiry : ∀ c d, p.offers.lookup c = some d → p.nextExpiry ≤ d.expiry
  declined_expiry : ∀ ip e, p.declined.lookup ip = some e → p.nextExpiry ≤ e
  entries_le : size p.leases + size p.offers + size p.declined ≤ MAX_STATE_ENTRIES
  ack_grantable : ∀ (req : DhcpMessage) (cfg : DhcpConfig) (clock : Clock) (reply : DhcpMessage),
    t ≤ clock.first → (OnetDns.Dhcp.handle req p cfg clock).1 = some reply →
    reply.msgType = some ACK → p.Grantable req.clientIdentity reply.yiaddr
  refused_full : ∀ (identity : ClientIdentity) (now : ℕ), t ≤ now →
    p.reservations.lookup identity = none → (p.allocate identity now).1 = none →
    (∀ ip, p.start ≤ ip ∧ ip ≤ p.stop → p.InUse now ip) ∨
      MAX_STATE_ENTRIES ≤ (p.cleanupExpired now).dynamicEntries

/-- The books are right at any time of any run. -/
theorem pool_accounts (h : Reachable p t) : PoolAccounts p t := by
  have hsound := h.sound
  refine ⟨hsound.exact, ?_, ?_, hsound.undisputed, ?_, ?_, ?_, hsound.dynamic_le, ?_, ?_⟩
  · intro c d c' d' hd hd' hip
    exact eq_of_tally_le_one (hsound.leases_apart d'.ip) hd' (decide_eq_true rfl) hd
      (decide_eq_true hip)
  · intro c r c' r' hr hr' hip
    exact eq_of_tally_le_one (hsound.reservations_apart r'.1) hr' (decide_eq_true rfl) hr
      (decide_eq_true hip)
  · exact fun c d hd => hsound.expires _ (mem_expiries.mpr (.inl ⟨c, d, hd, rfl⟩))
  · exact fun c d hd => hsound.expires _ (mem_expiries.mpr (.inr (.inl ⟨c, d, hd, rfl⟩)))
  · exact fun ip e he => hsound.expires _ (mem_expiries.mpr (.inr (.inr ⟨ip, he⟩)))
  · intro req cfg clock reply hle hreply hack
    obtain ⟨q, target, hq, hrequested, hqp⟩ :=
      (handle_cases req p cfg clock).ack hsound hle hreply hack
    have hgrantable := hrequested.grantable hq.toAccounted hreply hack
    rcases hqp with rfl | rfl
    · exact hgrantable
    · exact (grantable_consumed p _).mp hgrantable
  · intro identity now hle hreserved hnone
    have hallocated := (p.allocate_cases identity now hreserved).2
    have hswept := cleanupExpired_swept hsound.toAccounted now
    rw [hnone] at hallocated
    cases hallocated with
    | full hfull => exact .inr hfull
    | exhausted hall =>
      refine .inl fun ip hip => hsound.toAccounted.inUse (hall ip ?_)
      rwa [hswept.start, hswept.stop]

end LeasePool

/-- A small network, for examples: three addresses, and the server outside of the range. -/
def smallNetwork : DhcpConfig where
  serverIp := 1
  rangeStart := 10
  rangeEnd := 12
  subnetMask := 0xffffff00
  router := 2
  dns := []
  leaseSecs := 3600
  tftpServer := none
  bootFile := none
  domainName := none
  staticFile := none

/-- A message of the client whose hardware address begins with a number. -/
def messageOf (client : UInt8) (kind : UInt8) (options : List (UInt8 × List UInt8)) : DhcpMessage where
  op := 1
  xid := 7
  flags := 0
  ciaddr := UNSPECIFIED
  yiaddr := UNSPECIFIED
  siaddr := UNSPECIFIED
  giaddr := UNSPECIFIED
  chaddr := #v[client, 0, 0, 0, 0, 0]
  clientIdentifier := none
  options := (OPT_MSG_TYPE, [kind]) :: options

/-- A clock that stands still during a call. -/
def clockAt (now : ℕ) : Clock := ⟨now, now, now, le_rfl, le_rfl⟩

def smallPool : LeasePool := .new smallNetwork .missing .missing 100

theorem pool_accounts_offered : LeasePool.PoolAccounts
    (handle (messageOf 1 DISCOVER []) smallPool smallNetwork (clockAt 101)).2 101 :=
  LeasePool.pool_accounts (.handle (messageOf 1 DISCOVER []) smallNetwork (clockAt 101)
    (.new smallNetwork .missing .missing 100) (by decide))

end OnetDns.Dhcp
