import OnetDns.Dhcp.Server

/-!
# The books of the pool

The index counts, for each address, the entries that name it. `Accounted` is what holds between
any two operations; each way in which an entry comes or goes keeps it.
-/
namespace OnetDns.Dhcp
open Tally List Option AList

/-- How often the index counts an address. -/
def useOf (use : AddressUse) (ip : UInt32) : ℕ := (use.lookup ip).getD 0

/-- An address that nothing names is not in the index. -/
def Positive (use : AddressUse) : Prop := ∀ ip, use.lookup ip ≠ some 0

variable {use : AddressUse} {ip a : UInt32}

@[simp] lemma useOf_empty : useOf ∅ a = 0 := rfl

lemma positive_empty : Positive ∅ := by
  intro ip h
  simp at h

lemma mem_iff_useOf_pos (h : Positive use) : ip ∈ use ↔ 0 < useOf use ip := by
  rw [← lookup_isSome, useOf]
  have := h ip
  cases hlookup : use.lookup ip with
  | none => simp
  | some count =>
    rw [hlookup] at this
    simp only [isSome_some, getD_some, true_iff]
    exact pos_of_ne_zero fun hzero => this (by rw [hzero])

lemma useOf_insert (count : ℕ) :
    useOf (use.insert ip count) a = if ip = a then count else useOf use a := by
  by_cases h : ip = a
  · subst h
    simp [useOf]
  · simp [useOf, h, lookup_insert_ne (Ne.symm h)]

lemma useOf_erase : useOf (use.erase ip) a = if ip = a then 0 else useOf use a := by
  by_cases h : ip = a
  · subst h
    simp [useOf]
  · simp [useOf, h, lookup_erase_ne (Ne.symm h)]

lemma useOf_occupyIn (h : useOf use ip < 2 ^ 32 - 1) :
    useOf (occupyIn use ip) a = useOf use a + (decide (ip = a)).toNat := by
  rw [occupyIn, useOf_insert]
  have hcount : (use.lookup ip).getD 0 = useOf use ip := rfl
  by_cases ha : ip = a
  · subst ha
    simp only [if_true, decide_true, Bool.toNat_true]
    omega
  · simp [ha]

lemma useOf_vacateIn : useOf (vacateIn use ip) a = useOf use a - (decide (ip = a)).toNat := by
  cases hlookup : use.lookup ip with
  | none =>
    by_cases ha : ip = a
    · subst ha
      simp [vacateIn, useOf, hlookup]
    · simp [vacateIn, hlookup, ha]
  | some count =>
    have hcount : useOf use ip = count := by rw [useOf, hlookup, getD_some]
    simp only [vacateIn, hlookup]
    split
    · rw [useOf_erase]
      by_cases ha : ip = a
      · subst ha
        simp only [if_true, decide_true, Bool.toNat_true]
        omega
      · simp [ha]
    rw [useOf_insert]
    by_cases ha : ip = a
    · subst ha
      simp only [if_true, decide_true, Bool.toNat_true]
      omega
    · simp [ha]

lemma useOf_moveIn {old : Option UInt32} (hold : ∀ o, old = some o → 0 < useOf use o)
    (h : useOf use ip < 2 ^ 32 - 1) :
    useOf (moveIn use old ip) a + (old.any fun o => o = a).toNat =
      useOf use a + (decide (ip = a)).toNat := by
  cases old with
  | none => simp [moveIn, useOf_occupyIn h]
  | some o =>
    have hpos := hold o rfl
    by_cases hsame : o = ip
    · simp [moveIn, hsame]
    have hvacated : useOf (vacateIn use o) ip < 2 ^ 32 - 1 := by
      rw [useOf_vacateIn]
      omega
    simp only [moveIn, ne_eq, hsame, not_false_eq_true, if_true, any_some]
    rw [useOf_occupyIn hvacated, useOf_vacateIn]
    by_cases ha : o = a
    · subst ha
      simp only [decide_true, Bool.toNat_true]
      omega
    · simp [ha]

lemma useOf_foldl_occupyIn (l : List UInt32) :
    ∀ use : AddressUse, (∀ a, useOf use a + l.length ≤ 2 ^ 32 - 1) →
      useOf (l.foldl occupyIn use) a = useOf use a + l.countP fun x => x = a := by
  induction l with
  | nil => simp
  | cons x rest ih =>
    intro use h
    have hx : useOf use x < 2 ^ 32 - 1 := by
      have := h x
      simp only [length_cons] at this
      omega
    rw [foldl_cons, ih, useOf_occupyIn hx]
    · by_cases ha : x = a <;> simp [ha]
      omega
    intro b
    rw [useOf_occupyIn hx]
    have := h b
    have := Bool.toNat_le (decide (x = b))
    simp only [length_cons] at *
    omega

lemma useOf_foldl_occupyIns (ls : List (List UInt32)) (a : UInt32)
    (h : (ls.map List.length).sum ≤ 2 ^ 32 - 1) :
    useOf (ls.foldl (fun use l => l.foldl occupyIn use) ∅) a =
      (ls.map fun l => l.countP fun x => x = a).sum := by
  have hflat : ls.foldl (fun use l => l.foldl occupyIn use) ∅ = ls.flatten.foldl occupyIn ∅ :=
    foldl_flatten.symm
  rw [hflat, useOf_foldl_occupyIn]
  · simp [countP_flatten]
  · simpa using h

lemma useOf_foldl_vacateIn {β : Type} (at_ : β → UInt32) (l : List β) :
    ∀ use : AddressUse, useOf (l.foldl (fun use entry => vacateIn use (at_ entry)) use) a =
      useOf use a - l.countP fun entry => at_ entry = a := by
  induction l with
  | nil => simp
  | cons entry rest ih =>
    intro use
    rw [foldl_cons, ih, useOf_vacateIn]
    by_cases ha : at_ entry = a <;> simp [ha]
    omega

lemma positive_occupyIn (h : Positive use) : Positive (occupyIn use ip) := by
  intro b
  by_cases hb : b = ip
  · subst hb
    simp only [occupyIn, lookup_insert, ne_eq, some.injEq]
    omega
  · rw [occupyIn, lookup_insert_ne hb]
    exact h b

lemma positive_vacateIn (h : Positive use) : Positive (vacateIn use ip) := by
  intro b
  cases hlookup : use.lookup ip with
  | none => simpa only [vacateIn, hlookup] using h b
  | some count =>
    simp only [vacateIn, hlookup]
    by_cases hb : b = ip
    · subst hb
      split <;> simp
      omega
    split
    · rw [lookup_erase_ne hb]
      exact h b
    · rw [lookup_insert_ne hb]
      exact h b

lemma positive_moveIn (h : Positive use) (old : Option UInt32) : Positive (moveIn use old ip) := by
  cases old with
  | none => exact positive_occupyIn h
  | some o =>
    simp only [moveIn]
    split
    · exact positive_occupyIn (positive_vacateIn h)
    · exact h

lemma positive_foldl_occupyIn (l : List UInt32) :
    ∀ use : AddressUse, Positive use → Positive (l.foldl occupyIn use) := by
  induction l with
  | nil => exact fun _ h => h
  | cons x rest ih => exact fun use h => ih _ (positive_occupyIn h)

variable {κ β : Type}

lemma positive_retainIn [DecidableEq κ] (live : κ → β → Bool)
    (at_ : κ → β → UInt32) (m : AList fun _ : κ => β) (h : Positive use) :
    Positive (retainIn live at_ m use) := by
  rw [retainIn]
  induction dropped live m generalizing use with
  | nil => exact h
  | cons entry rest ih => exact ih (positive_vacateIn h)

/-- What the index loses with the entries that are dropped is what the map loses. -/
theorem useOf_retainIn [DecidableEq κ] (live : κ → β → Bool) (at_ : κ → β → UInt32)
    (m : AList fun _ : κ => β) (use : AddressUse) (a : UInt32) :
    useOf (retainIn live at_ m use) a =
      useOf use a + tally (fun k b => at_ k b = a) (keep live m) -
        tally (fun k b => at_ k b = a) m := by
  have hkeep := tally_keep live (fun k b => at_ k b = a) m
  have hvacated := useOf_foldl_vacateIn (a := a)
    (fun entry : Sigma fun _ : κ => β => at_ entry.1 entry.2) (dropped live m) use
  refine hvacated.trans ?_
  omega

/-- With the entry of one key, the index moves as the count of the map does. -/
theorem useOf_store [DecidableEq κ] (m : AList fun _ : κ => β) (at_ : β → UInt32)
    (key : κ) (b : β) (hcounted : ∀ a, tally (fun _ b => at_ b = a) m ≤ useOf use a)
    (hbelow : ∀ a, useOf use a < 2 ^ 32 - 1) (a : UInt32) :
    useOf (moveIn use ((m.lookup key).map at_) (at_ b)) a + tally (fun _ b => at_ b = a) m =
      useOf use a + tally (fun _ b => at_ b = a) (m.insert key b) := by
  have hinsert := tally_insert (fun _ b => at_ b = a) m key b
  have hmove : useOf (moveIn use ((m.lookup key).map at_) (at_ b)) a +
      (((m.lookup key).map at_).any fun o => o = a).toNat =
        useOf use a + (decide (at_ b = a)).toNat := by
    refine useOf_moveIn ?_ (hbelow _)
    intro o ho
    obtain ⟨b', hb', rfl⟩ := map_eq_some_iff.mp ho
    have hpos : 0 < tally (fun _ b => at_ b = at_ b') m :=
      tally_pos_iff.mpr ⟨key, b', hb', decide_eq_true rfl⟩
    exact hpos.trans_le (hcounted _)
  have hshare : (((m.lookup key).map at_).any fun o => o = a).toNat =
      share (fun _ b => at_ b = a) m key := by
    rw [share, Option.any_map]
  omega

lemma earliest_le {expiries : List ℕ} {e : ℕ} (h : e ∈ expiries) : earliest expiries ≤ e := by
  induction expiries with
  | nil => simp at h
  | cons first rest ih =>
    rcases mem_cons.mp h with rfl | h
    · exact min_le_left _ _
    · exact (min_le_right _ _).trans (ih h)

namespace LeasePool

variable {p : LeasePool} {identity : ClientIdentity} {lease : Lease} {offer : Offer} {now : ℕ}

/-- How many entries and service addresses name an address. -/
def references (p : LeasePool) (ip : UInt32) : ℕ :=
  tally (leaseAt ip) p.leases + tally (offerAt ip) p.offers + tally (declinedAt ip) p.declined +
    tally (reservedAt ip) p.reservations + p.serviceAddresses.count ip

structure Accounted (p : LeasePool) : Prop where
  exact : ∀ ip, useOf p.addressUse ip = p.references ip
  positive : Positive p.addressUse
  leases_apart : ∀ ip, tally (leaseAt ip) p.leases ≤ 1
  reservations_apart : ∀ ip, tally (reservedAt ip) p.reservations ≤ 1
  expires : ∀ e ∈ p.expiries, p.nextExpiry ≤ e
  dynamic_le : p.dynamicEntries ≤ MAX_STATE_ENTRIES
  reserved_le : size p.reservations ≤ MAX_STATE_ENTRIES

lemma serviceAddresses_length (p : LeasePool) : p.serviceAddresses.length ≤ 4 :=
  length_filter_le _ _

lemma references_le (p : LeasePool) (ip : UInt32) :
    p.references ip ≤ p.dynamicEntries + size p.reservations + 4 := by
  have hlease := tally_le_size (leaseAt ip) p.leases
  have hoffer := tally_le_size (offerAt ip) p.offers
  have hdeclined := tally_le_size (declinedAt ip) p.declined
  have hreserved := tally_le_size (reservedAt ip) p.reservations
  have hservice := p.serviceAddresses_length
  have hcount : p.serviceAddresses.count ip ≤ _ := count_le_length
  simp only [references, dynamicEntries]
  omega

lemma Accounted.below (h : p.Accounted) (ip : UInt32) : useOf p.addressUse ip < 2 ^ 32 - 1 := by
  have hrefs := p.references_le ip
  have hdynamic := h.dynamic_le
  have hreserved := h.reserved_le
  rw [h.exact]
  simp only [MAX_STATE_ENTRIES] at hdynamic hreserved
  omega

lemma mem_expiries {e : ℕ} : e ∈ p.expiries ↔
    (∃ identity lease, p.leases.lookup identity = some lease ∧ lease.expiry = e) ∨
      (∃ identity offer, p.offers.lookup identity = some offer ∧ offer.expiry = e) ∨
      ∃ ip, p.declined.lookup ip = some e := by
  simp only [expiries, mem_append, List.mem_map, Sigma.exists, mem_entries]
  constructor
  · rintro ((⟨identity, lease, hl, rfl⟩ | ⟨identity, offer, ho, rfl⟩) | ⟨ip, e, hd, rfl⟩)
    · exact .inl ⟨identity, lease, hl, rfl⟩
    · exact .inr (.inl ⟨identity, offer, ho, rfl⟩)
    · exact .inr (.inr ⟨ip, hd⟩)
  · rintro (⟨identity, lease, hl, rfl⟩ | ⟨identity, offer, ho, rfl⟩ | ⟨ip, hd⟩)
    · exact .inl (.inl ⟨identity, lease, hl, rfl⟩)
    · exact .inl (.inr ⟨identity, offer, ho, rfl⟩)
    · exact .inr ⟨ip, _, hd, rfl⟩

lemma dropLease_eq (h : p.leases.lookup identity = some lease) :
    p.dropLease identity = { p with leases := p.leases.erase identity,
                                    addressUse := vacateIn p.addressUse lease.ip } := by
  rw [dropLease, h]

lemma dropLease_none (h : p.leases.lookup identity = none) : p.dropLease identity = p := by
  rw [dropLease, h]

lemma dropOffer_eq (h : p.offers.lookup identity = some offer) :
    p.dropOffer identity = { p with offers := p.offers.erase identity,
                                    addressUse := vacateIn p.addressUse offer.ip } := by
  rw [dropOffer, h]

lemma dropOffer_none (h : p.offers.lookup identity = none) : p.dropOffer identity = p := by
  rw [dropOffer, h]

variable {m : AList fun _ : κ => β}

lemma lookup_erase_some [DecidableEq κ] {a c : κ} {d : β}
    (h : (m.erase a).lookup c = some d) : c ≠ a ∧ m.lookup c = some d := by
  have hne : c ≠ a := by
    rintro rfl
    simp at h
  exact ⟨hne, by rwa [lookup_erase_ne hne] at h⟩

lemma Accounted.dropLease (h : p.Accounted) (identity : ClientIdentity) :
    (p.dropLease identity).Accounted := by
  cases hlease : p.leases.lookup identity with
  | none => rwa [dropLease_none hlease]
  | some lease =>
    rw [dropLease_eq hlease]
    refine ⟨?_, positive_vacateIn h.positive, ?_, h.reservations_apart, ?_, ?_, h.reserved_le⟩
    · intro ip
      have herase := tally_erase (leaseAt ip) p.leases identity
      have hexact := h.exact ip
      rw [share_of_lookup hlease, leaseAt] at herase
      simp only [references] at hexact ⊢
      rw [useOf_vacateIn]
      simp only [serviceAddresses, net, bcast] at hexact ⊢
      omega
    · intro ip
      have herase := tally_erase (leaseAt ip) p.leases identity
      have := h.leases_apart ip
      simp only
      omega
    · intro e he
      refine h.expires e (mem_expiries.mpr ?_)
      rcases mem_expiries.mp he with ⟨c, d, hd, rfl⟩ | hrest
      · exact .inl ⟨c, d, (lookup_erase_some hd).2, rfl⟩
      · exact .inr hrest
    · have hsize := size_erase p.leases identity
      have := h.dynamic_le
      simp only [dynamicEntries] at this ⊢
      omega

lemma Accounted.dropOffer (h : p.Accounted) (identity : ClientIdentity) :
    (p.dropOffer identity).Accounted := by
  cases hoffer : p.offers.lookup identity with
  | none => rwa [dropOffer_none hoffer]
  | some offer =>
    rw [dropOffer_eq hoffer]
    refine ⟨?_, positive_vacateIn h.positive, h.leases_apart, h.reservations_apart, ?_, ?_,
      h.reserved_le⟩
    · intro ip
      have herase := tally_erase (offerAt ip) p.offers identity
      have hexact := h.exact ip
      rw [share_of_lookup hoffer, offerAt] at herase
      simp only [references] at hexact ⊢
      rw [useOf_vacateIn]
      simp only [serviceAddresses, net, bcast] at hexact ⊢
      omega
    · intro e he
      refine h.expires e (mem_expiries.mpr ?_)
      rcases mem_expiries.mp he with hlease | ⟨c, d, hd, rfl⟩ | hrest
      · exact .inl hlease
      · exact .inr (.inl ⟨c, d, (lookup_erase_some hd).2, rfl⟩)
      · exact .inr (.inr hrest)
    · have hsize := size_erase p.offers identity
      have := h.dynamic_le
      simp only [dynamicEntries] at this ⊢
      omega

lemma Accounted.removeReservation (h : p.Accounted) (identity : ClientIdentity) :
    (p.removeReservation identity).2.Accounted := by
  cases hreserved : p.reservations.lookup identity with
  | none => simpa only [LeasePool.removeReservation, hreserved] using h
  | some reserved =>
    simp only [LeasePool.removeReservation, hreserved]
    refine ⟨?_, positive_vacateIn h.positive, h.leases_apart, ?_, h.expires, h.dynamic_le, ?_⟩
    · intro ip
      have herase := tally_erase (reservedAt ip) p.reservations identity
      have hexact := h.exact ip
      rw [share_of_lookup hreserved, reservedAt] at herase
      simp only [references] at hexact ⊢
      rw [useOf_vacateIn]
      simp only [serviceAddresses, net, bcast] at hexact ⊢
      omega
    · intro ip
      have herase := tally_erase (reservedAt ip) p.reservations identity
      have := h.reservations_apart ip
      simp only
      omega
    · have hsize := size_erase p.reservations identity
      have := h.reserved_le
      simp only
      omega

/-- A pool in which only the flags and the cursor are others. -/
structure SameBooks (p q : LeasePool) : Prop where
  leases : q.leases = p.leases
  offers : q.offers = p.offers
  declined : q.declined = p.declined
  reservations : q.reservations = p.reservations
  addressUse : q.addressUse = p.addressUse
  nextExpiry : q.nextExpiry = p.nextExpiry
  service : q.serviceAddresses = p.serviceAddresses
  start : q.start = p.start
  stop : q.stop = p.stop
  leaseSecs : q.leaseSecs = p.leaseSecs

lemma SameBooks.accounted {q : LeasePool} (hsame : SameBooks p q) (h : p.Accounted) :
    q.Accounted := by
  obtain ⟨hl, ho, hd, hr, hu, he, hs, -, -, -⟩ := hsame
  refine ⟨?_, ?_, ?_, ?_, ?_, ?_, ?_⟩
  · intro ip
    simpa only [references, hl, ho, hd, hr, hu, hs] using h.exact ip
  · simpa only [hu] using h.positive
  · simpa only [hl] using h.leases_apart
  · simpa only [hr] using h.reservations_apart
  · simpa only [expiries, hl, ho, hd, he] using h.expires
  · simpa only [dynamicEntries, hl, ho, hd] using h.dynamic_le
  · simpa only [hr] using h.reserved_le

lemma SameBooks.refl (p : LeasePool) : SameBooks p p :=
  ⟨rfl, rfl, rfl, rfl, rfl, rfl, rfl, rfl, rfl, rfl⟩

lemma SameBooks.dynamicEntries {q : LeasePool} (hsame : SameBooks p q) :
    q.dynamicEntries = p.dynamicEntries := by
  simp only [LeasePool.dynamicEntries, hsame.leases, hsame.offers, hsame.declined]

/-- At the limit a step is refused, unless it needs no slot. -/
theorem admitUnless_cases (p : LeasePool) (needless : Prop) [Decidable needless] (removing : ℕ) :
    ∃ q, SameBooks p q ∧ (p.admitUnless needless removing = (false, q) ∧
          MAX_STATE_ENTRIES ≤ p.dynamicEntries - removing ∨
        p.admitUnless needless removing = (true, q) ∧
          (needless ∨ p.dynamicEntries - removing < MAX_STATE_ENTRIES)) := by
  by_cases hneed : needless
  · exact ⟨p, .refl p, .inr ⟨if_pos hneed, .inl hneed⟩⟩
  by_cases hroom : p.dynamicEntries - removing < MAX_STATE_ENTRIES
  · refine ⟨{ p with dynamicLimited := false }, ⟨rfl, rfl, rfl, rfl, rfl, rfl, rfl, rfl, rfl, rfl⟩,
      .inr ⟨?_, .inr hroom⟩⟩
    simp only [admitUnless, hneed, if_false, admitDynamicAfterRemoving, admitState, hroom, if_true]
  · refine ⟨{ p with dynamicLimited := true }, ⟨rfl, rfl, rfl, rfl, rfl, rfl, rfl, rfl, rfl, rfl⟩,
      .inl ⟨?_, not_lt.mp hroom⟩⟩
    simp only [admitUnless, hneed, if_false, admitDynamicAfterRemoving, admitState, hroom]

lemma cleanupExpired_of_lt (h : now < p.nextExpiry) : p.cleanupExpired now = p := by
  rw [cleanupExpired, if_pos h]

/-- Nothing that has expired is left, and nothing else is lost. -/
structure Swept (p q : LeasePool) (now : ℕ) : Prop where
  lease : ∀ c d, q.leases.lookup c = some d ↔ p.leases.lookup c = some d ∧ now < d.expiry
  offer : ∀ c d, q.offers.lookup c = some d ↔ p.offers.lookup c = some d ∧ now < d.expiry
  declined : ∀ ip e, q.declined.lookup ip = some e ↔ p.declined.lookup ip = some e ∧ now < e
  reservations : q.reservations = p.reservations
  start : q.start = p.start
  stop : q.stop = p.stop
  leaseSecs : q.leaseSecs = p.leaseSecs
  service : q.serviceAddresses = p.serviceAddresses

lemma cleanupExpired_swept (h : p.Accounted) (now : ℕ) : Swept p (p.cleanupExpired now) now := by
  by_cases hnext : now < p.nextExpiry
  · rw [cleanupExpired_of_lt hnext]
    have hlive : ∀ e ∈ p.expiries, now < e := fun e he => hnext.trans_le (h.expires e he)
    refine ⟨?_, ?_, ?_, rfl, rfl, rfl, rfl, rfl⟩
    · exact fun c d => ⟨fun hd => ⟨hd, hlive _ (mem_expiries.mpr (.inl ⟨c, d, hd, rfl⟩))⟩, And.left⟩
    · exact fun c d =>
        ⟨fun hd => ⟨hd, hlive _ (mem_expiries.mpr (.inr (.inl ⟨c, d, hd, rfl⟩)))⟩, And.left⟩
    · exact fun ip e => ⟨fun hd => ⟨hd, hlive _ (mem_expiries.mpr (.inr (.inr ⟨ip, hd⟩)))⟩, And.left⟩
  · rw [cleanupExpired, if_neg hnext]
    refine ⟨?_, ?_, ?_, rfl, rfl, rfl, rfl, rfl⟩
    all_goals
      intros
      simp only [lookup_keep, decide_eq_true_eq]

lemma Accounted.cleanupExpired (h : p.Accounted) (now : ℕ) : (p.cleanupExpired now).Accounted := by
  by_cases hnext : now < p.nextExpiry
  · rwa [cleanupExpired_of_lt hnext]
  rw [LeasePool.cleanupExpired, if_neg hnext]
  have hleases : ∀ q, tally q (keep (fun _ lease => now < lease.expiry) p.leases) ≤
      tally q p.leases := fun q => tally_keep_le _ q _
  refine ⟨?_, positive_retainIn _ _ _ (positive_retainIn _ _ _
    (positive_retainIn _ _ _ h.positive)), ?_, h.reservations_apart, ?_, ?_, h.reserved_le⟩
  · intro ip
    have hexact := h.exact ip
    simp only [references, serviceAddresses, net, bcast] at hexact ⊢
    simp only [useOf_retainIn]
    change useOf p.addressUse ip + tally (leaseAt ip) _ - tally (leaseAt ip) _ +
      tally (offerAt ip) _ - tally (offerAt ip) _ + tally (declinedAt ip) _ -
      tally (declinedAt ip) _ = _
    omega
  · exact fun ip => (hleases _).trans (h.leases_apart ip)
  · exact fun e he => earliest_le he
  · have hlease := size_keep_le (fun _ lease => decide (now < lease.expiry)) p.leases
    have hoffer := size_keep_le (fun _ offer => decide (now < offer.expiry)) p.offers
    have hdeclined := size_keep_le (fun _ expiry => decide (now < expiry)) p.declined
    have := h.dynamic_le
    simp only [dynamicEntries] at this ⊢
    omega

lemma lookup_insert_some [DecidableEq κ] {a c : κ}
    {b d : β} (h : (m.insert a b).lookup c = some d) :
    c = a ∧ d = b ∨ c ≠ a ∧ m.lookup c = some d := by
  by_cases hc : c = a
  · subst hc
    rw [lookup_insert] at h
    exact .inl ⟨rfl, (some.inj h).symm⟩
  · exact .inr ⟨hc, by rwa [lookup_insert_ne hc] at h⟩

/-- An address stays with one entry when it is given to no other. -/
theorem tally_insert_le_one [DecidableEq κ] {a : κ} {b : β}
    {at_ : β → UInt32} {ip : UInt32} (hle : tally (fun _ d => decide (at_ d = ip)) m ≤ 1)
    (hfree : ∀ c d, m.lookup c = some d → at_ d = at_ b → c = a) :
    tally (fun _ d => decide (at_ d = ip)) (m.insert a b) ≤ 1 := by
  refine tally_le_one fun c d c' d' hd hip hd' hip' => ?_
  have hip := of_decide_eq_true hip
  have hip' := of_decide_eq_true hip'
  rcases lookup_insert_some hd with ⟨rfl, rfl⟩ | ⟨-, hold⟩ <;>
    rcases lookup_insert_some hd' with ⟨rfl, rfl⟩ | ⟨-, hold'⟩
  · rfl
  · exact hfree c' d' hold' (hip'.trans hip.symm)
  · exact (hfree c d hold (hip.trans hip'.symm)).symm
  · exact eq_of_tally_le_one hle hold (decide_eq_true hip) hold' (decide_eq_true hip')

section

variable (h : p.Accounted)
include h

lemma Accounted.lease_counted (ip : UInt32) :
    tally (leaseAt ip) p.leases ≤ useOf p.addressUse ip := by
  rw [h.exact, references]
  omega

lemma Accounted.offer_counted (ip : UInt32) :
    tally (offerAt ip) p.offers ≤ useOf p.addressUse ip := by
  rw [h.exact, references]
  omega

lemma Accounted.reserved_counted (ip : UInt32) :
    tally (reservedAt ip) p.reservations ≤ useOf p.addressUse ip := by
  rw [h.exact, references]
  omega

lemma Accounted.storeLease
    (hfree : ∀ c d, p.leases.lookup c = some d → d.ip = lease.ip → c = identity)
    (hroom : p.dynamicEntries < MAX_STATE_ENTRIES + (p.leases.lookup identity).isSome.toNat) :
    (p.storeLease identity lease).Accounted := by
  refine ⟨?_, positive_moveIn h.positive _, ?_, h.reservations_apart, ?_, ?_, h.reserved_le⟩
  · intro ip
    have hstore : useOf (p.storeLease identity lease).addressUse ip + tally (leaseAt ip) p.leases =
        useOf p.addressUse ip + tally (leaseAt ip) (p.leases.insert identity lease) :=
      useOf_store p.leases Lease.ip identity lease h.lease_counted h.below ip
    have hexact := h.exact ip
    change _ = tally (leaseAt ip) (p.leases.insert identity lease) + tally (offerAt ip) p.offers +
      tally (declinedAt ip) p.declined + tally (reservedAt ip) p.reservations +
      p.serviceAddresses.count ip
    simp only [references] at hexact
    omega
  · exact fun ip => tally_insert_le_one (h.leases_apart ip) hfree
  · intro e he
    rcases mem_expiries.mp he with ⟨c, d, hd, rfl⟩ | hrest
    · rcases lookup_insert_some hd with ⟨rfl, rfl⟩ | ⟨-, hd⟩
      · exact min_le_right _ _
      · exact (min_le_left _ _).trans (h.expires _ (mem_expiries.mpr (.inl ⟨c, d, hd, rfl⟩)))
    · exact (min_le_left _ _).trans (h.expires _ (mem_expiries.mpr (.inr hrest)))
  · have hsize := size_insert p.leases identity lease
    simp only [dynamicEntries, LeasePool.storeLease] at hroom ⊢
    omega

lemma Accounted.storeOffer
    (hroom : p.dynamicEntries < MAX_STATE_ENTRIES + (p.offers.lookup identity).isSome.toNat) :
    (p.storeOffer identity offer).Accounted := by
  refine ⟨?_, positive_moveIn h.positive _, h.leases_apart, h.reservations_apart, ?_, ?_,
    h.reserved_le⟩
  · intro ip
    have hstore : useOf (p.storeOffer identity offer).addressUse ip + tally (offerAt ip) p.offers =
        useOf p.addressUse ip + tally (offerAt ip) (p.offers.insert identity offer) :=
      useOf_store p.offers Offer.ip identity offer h.offer_counted h.below ip
    have hexact := h.exact ip
    change _ = tally (leaseAt ip) p.leases + tally (offerAt ip) (p.offers.insert identity offer) +
      tally (declinedAt ip) p.declined + tally (reservedAt ip) p.reservations +
      p.serviceAddresses.count ip
    simp only [references] at hexact
    omega
  · intro e he
    rcases mem_expiries.mp he with hlease | ⟨c, d, hd, rfl⟩ | hdeclined
    · exact (min_le_left _ _).trans (h.expires _ (mem_expiries.mpr (.inl hlease)))
    · rcases lookup_insert_some hd with ⟨rfl, rfl⟩ | ⟨-, hd⟩
      · exact min_le_right _ _
      · exact (min_le_left _ _).trans (h.expires _ (mem_expiries.mpr (.inr (.inl ⟨c, d, hd, rfl⟩))))
    · exact (min_le_left _ _).trans (h.expires _ (mem_expiries.mpr (.inr (.inr hdeclined))))
  · have hsize := size_insert p.offers identity offer
    simp only [dynamicEntries, LeasePool.storeOffer] at hroom ⊢
    omega

lemma Accounted.storeDeclined {ip : UInt32} {expiry : ℕ}
    (hroom : p.dynamicEntries < MAX_STATE_ENTRIES + (p.declined.lookup ip).isSome.toNat) :
    (p.storeDeclined ip expiry).Accounted := by
  refine ⟨?_, ?_, h.leases_apart, h.reservations_apart, ?_, ?_, h.reserved_le⟩
  · intro a
    have hinsert := tally_insert (declinedAt a) p.declined ip expiry
    have hexact := h.exact a
    have hmoved : useOf (p.storeDeclined ip expiry).addressUse a +
        share (declinedAt a) p.declined ip =
          useOf p.addressUse a + (declinedAt a ip expiry).toNat := by
      by_cases hmem : ip ∈ p.declined
      · obtain ⟨e, he⟩ := isSome_iff_exists.mp (lookup_isSome.mpr hmem)
        simp only [LeasePool.storeDeclined, hmem, share_of_lookup he]
        rfl
      · simp only [LeasePool.storeDeclined, hmem, share_of_none (lookup_eq_none.mpr hmem)]
        exact useOf_occupyIn (h.below ip)
    change _ = tally (leaseAt a) p.leases + tally (offerAt a) p.offers +
      tally (declinedAt a) (p.declined.insert ip expiry) + tally (reservedAt a) p.reservations +
      p.serviceAddresses.count a
    simp only [references] at hexact
    omega
  · simp only [LeasePool.storeDeclined]
    split
    · exact h.positive
    · exact positive_occupyIn h.positive
  · intro e he
    rcases mem_expiries.mp he with hlease | hoffer | ⟨c, hd⟩
    · exact (min_le_left _ _).trans (h.expires _ (mem_expiries.mpr (.inl hlease)))
    · exact (min_le_left _ _).trans (h.expires _ (mem_expiries.mpr (.inr (.inl hoffer))))
    · rcases lookup_insert_some hd with ⟨rfl, rfl⟩ | ⟨-, hd⟩
      · exact min_le_right _ _
      · exact (min_le_left _ _).trans (h.expires _ (mem_expiries.mpr (.inr (.inr ⟨c, hd⟩))))
  · have hsize := size_insert p.declined ip expiry
    simp only [dynamicEntries, LeasePool.storeDeclined] at hroom ⊢
    omega

lemma Accounted.storeReservation {ip : UInt32} {hostname : Option String}
    (hfree : ∀ c d, p.reservations.lookup c = some d → d.1 = ip → c = identity)
    (hroom : size p.reservations < MAX_STATE_ENTRIES +
      (p.reservations.lookup identity).isSome.toNat) :
    (p.storeReservation identity ip hostname).Accounted := by
  refine ⟨?_, positive_moveIn h.positive _, h.leases_apart, ?_, h.expires, h.dynamic_le, ?_⟩
  · intro a
    have hstore : useOf (p.storeReservation identity ip hostname).addressUse a +
        tally (reservedAt a) p.reservations = useOf p.addressUse a +
          tally (reservedAt a) (p.reservations.insert identity (ip, hostname)) :=
      useOf_store p.reservations Prod.fst identity (ip, hostname) h.reserved_counted h.below a
    have hexact := h.exact a
    change _ = tally (leaseAt a) p.leases + tally (offerAt a) p.offers +
      tally (declinedAt a) p.declined +
      tally (reservedAt a) (p.reservations.insert identity (ip, hostname)) +
      p.serviceAddresses.count a
    simp only [references] at hexact
    omega
  · exact fun a => tally_insert_le_one (h.reservations_apart a) hfree
  · have hsize := size_insert p.reservations identity (ip, hostname)
    simp only [LeasePool.storeReservation]
    omega

end

end LeasePool
end OnetDns.Dhcp
