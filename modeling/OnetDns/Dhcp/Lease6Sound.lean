import OnetDns.Dhcp.IaSweep
import OnetDns.Dhcp.Lease6Pool
import OnetDns.Lib.Holdings

/-!
# Soundness of the DHCPv6 pool

No address is leased or offered twice, the set of addresses in use is exact, and the next expiry is
not late. Every operation keeps this, whatever the clock says.
-/
namespace OnetDns.Dhcp6
open Holdings List Option IaMap

variable {m m' : IaMap} {p p' : Lease6Pool} {d : Duid} {i : Iaid} {ip e now : ℕ}

namespace IaMap

lemma ip_eq_some : (m.get d i).map (·.ip) = some ip ↔ ∃ e, m.lookup (d, i) = some (ip, e) := by
  rw [lookup, map_eq_some_iff]
  constructor
  · rintro ⟨v, hv, rfl⟩
    exact ⟨v.expiry, by rw [hv]; rfl⟩
  · rintro ⟨e, he⟩
    obtain ⟨v, hv, heq⟩ := map_eq_some_iff.mp he
    exact ⟨v, hv, congrArg Prod.fst heq⟩

lemma unexpired_eq_some :
    Lease6Pool.unexpired (m.get d i) now = some ip ↔ ∃ e, m.lookup (d, i) = some (ip, e) ∧ now < e := by
  rw [Lease6Pool.unexpired, map_eq_some_iff]
  constructor
  · rintro ⟨v, hv, rfl⟩
    obtain ⟨hv, hlive⟩ := filter_eq_some_iff.mp hv
    exact ⟨v.expiry, by rw [lookup, hv]; rfl, by simpa using hlive⟩
  · rintro ⟨e, he, hlive⟩
    obtain ⟨v, hv, heq⟩ := map_eq_some_iff.mp he
    obtain ⟨rfl, rfl⟩ := Prod.mk.inj heq
    exact ⟨v, filter_eq_some_iff.mpr ⟨hv, by simpa using hlive⟩, rfl⟩

lemma lookup_of_isEmpty (hempty : m.isEmpty) (k : Duid × Iaid) : m.lookup k = none := by
  have hentries : m.primary.entries = [] := isEmpty_iff.mp hempty
  refine lookup_none ?_ k.2
  rw [AList.lookup, hentries]
  rfl

lemma releaseExcessCapacity_wellLinked (h : m.WellLinked) : m.releaseExcessCapacity.WellLinked := by
  rw [releaseExcessCapacity]
  split
  · exact wellLinked_empty
  · exact h

lemma releaseExcessCapacity_lookup (m : IaMap) (k : Duid × Iaid) :
    m.releaseExcessCapacity.lookup k = m.lookup k := by
  rw [releaseExcessCapacity]
  split
  · rename_i hempty
    rw [lookup_of_isEmpty hempty, lookup_empty]
  · rfl

lemma releaseExcessCapacity_len : m.releaseExcessCapacity.len ≤ m.len := by
  rw [releaseExcessCapacity]
  split
  · exact Nat.zero_le _
  · exact le_rfl

/-- Where the value of a DUID and an IAID is: under the DUID, or under a key. -/
def place (m : IaMap) (k : Duid × Iaid) : Duid ⊕ Option (List UInt8) :=
  if (m.primary.lookup k.1).any (fun first => first.iaid = k.2) then .inl k.1
  else .inr (secondaryIaKey k.1 k.2)

def places (m : IaMap) : List (Duid ⊕ Option (List UInt8)) :=
  m.primary.keys.map .inl ++ m.additional.keys.map fun key => .inr (some key)

lemma places_length (m : IaMap) : m.places.length = m.len := by
  simp [places, len, AList.keys, keys]

lemma place_mem {k : Duid × Iaid} (h : (m.lookup k).isSome) : m.place k ∈ m.places := by
  obtain ⟨d, i⟩ := k
  cases hfirst : m.primary.lookup d with
  | none =>
    rw [lookup_none hfirst] at h
    cases h
  | some first =>
    rw [lookup_some hfirst] at h
    by_cases hi : first.iaid = i
    · have hmem : d ∈ m.primary.keys := AList.lookup_isSome.mp (by rw [hfirst]; rfl)
      simpa [place, places, hfirst, hi] using hmem
    rw [if_neg hi, isSome_map] at h
    obtain ⟨a, ha⟩ := isSome_iff_exists.mp h
    obtain ⟨key, hkey, hlookup⟩ := additionalAt_some ha
    have hmem : key ∈ m.additional.keys := AList.lookup_isSome.mp (by rw [hlookup]; rfl)
    simpa [place, places, hfirst, hi, hkey] using hmem

lemma place_inj {k k' : Duid × Iaid} (h : (m.lookup k).isSome) (heq : m.place k = m.place k') :
    k = k' := by
  obtain ⟨d, i⟩ := k
  obtain ⟨d', i'⟩ := k'
  rw [place, place] at heq
  split at heq <;> split at heq
  · rename_i hi hi'
    obtain rfl : d = d' := Sum.inl.inj heq
    obtain ⟨first, hfirst, hname⟩ := (any_eq_true _ _).mp hi
    obtain ⟨first', hfirst', hname'⟩ := (any_eq_true _ _).mp hi'
    obtain rfl : first = first' := some.inj (hfirst.symm.trans hfirst')
    have hi : first.iaid = i := of_decide_eq_true hname
    have hi' : first.iaid = i' := of_decide_eq_true hname'
    rw [← hi, ← hi']
  · cases heq
  · cases heq
  rename_i hi _
  cases hfirst : m.primary.lookup d with
  | none =>
    rw [lookup_none hfirst] at h
    cases h
  | some first =>
    rw [lookup_some hfirst, if_neg (by simpa [hfirst] using hi), isSome_map] at h
    obtain ⟨a, ha⟩ := isSome_iff_exists.mp h
    obtain ⟨key, hkey, -⟩ := additionalAt_some ha
    obtain ⟨rfl, rfl⟩ := secondaryIaKey_inj hkey ((Sum.inr.inj heq).symm.trans hkey)
    rfl

lemma length_le_len {ks : List (Duid × Iaid)} (hnodup : ks.Nodup)
    (hks : ∀ k ∈ ks, (m.lookup k).isSome) : ks.length ≤ m.len := by
  have hplaces : (ks.map m.place).Nodup :=
    hnodup.map_on fun k hk k' _ heq => place_inj (hks k hk) heq
  have hsub : ks.map m.place ⊆ m.places := by
    intro place hplace
    obtain ⟨k, hk, rfl⟩ := mem_map.mp hplace
    exact place_mem (hks k hk)
  rw [← places_length, ← length_map m.place]
  exact (subperm_of_subset hplaces hsub).length_le

end IaMap

/-- The two maps of a pool. -/
inductive Book where
  | leases
  | offers
  deriving DecidableEq

namespace Lease6Pool

def book (p : Lease6Pool) : Book → IaMap
  | .leases => p.leases
  | .offers => p.offers

def stored (p : Lease6Pool) (k : Book × Duid × Iaid) : Option (ℕ × ℕ) := (p.book k.1).lookup k.2

structure Sound (p : Lease6Pool) : Prop where
  linked : ∀ b, (p.book b).WellLinked
  exclusive : Exclusive Prod.fst p.stored p.used
  inRange : ∀ k w, p.stored k = some w → p.start ≤ w.1 ∧ w.1 ≤ p.stop
  stop_lt : p.stop < 2 ^ 128
  bounded : p.dynamicEntries ≤ MAX_LEASES
  due : ∀ k w, p.stored k = some w → p.nextExpiry ≤ w.2

lemma Sound.length_le (h : p.Sound) {ks : List (Book × Duid × Iaid)} (hnodup : ks.Nodup)
    (hks : ∀ k ∈ ks, (p.stored k).isSome) : ks.length ≤ MAX_LEASES := by
  have hpart : ∀ b, ((ks.filter fun k => k.1 = b).map Prod.snd).length ≤ (p.book b).len := by
    intro b
    refine length_le_len ((hnodup.filter _).map_on ?_) ?_
    · rintro ⟨c, k⟩ hk ⟨c', k'⟩ hk' rfl
      have hc := of_decide_eq_true (mem_filter.mp hk).2
      have hc' := of_decide_eq_true (mem_filter.mp hk').2
      exact Prod.ext (hc.trans hc'.symm) rfl
    intro k hk
    obtain ⟨⟨c, k⟩, hin, rfl⟩ := mem_map.mp hk
    obtain ⟨hmem, hc⟩ := mem_filter.mp hin
    obtain rfl : c = b := of_decide_eq_true hc
    exact hks _ hmem
  have hleases := hpart .leases
  have hoffers := hpart .offers
  have hsplit := length_eq_length_filter_add (l := ks) fun k => decide (k.1 = .leases)
  have hrest : (ks.filter fun k => !decide (k.1 = .leases)) =
      ks.filter fun k => decide (k.1 = .offers) := by
    refine filter_congr fun k _ => ?_
    cases k.1 <;> rfl
  rw [hrest] at hsplit
  rw [length_map] at hleases hoffers
  have hbounded := h.bounded
  rw [dynamicEntries] at hbounded
  change _ ≤ p.leases.len at hleases
  change _ ≤ p.offers.len at hoffers
  omega

/-- Everything that a statement about addresses reads. -/
structure SameBooks (p p' : Lease6Pool) : Prop where
  start : p'.start = p.start
  stop : p'.stop = p.stop
  leases : p'.leases = p.leases
  offers : p'.offers = p.offers
  used : p'.used = p.used
  nextExpiry : p'.nextExpiry = p.nextExpiry

lemma SameBooks.book (h : SameBooks p p') (b : Book) : p'.book b = p.book b := by
  cases b
  · exact h.leases
  · exact h.offers

lemma SameBooks.stored (h : SameBooks p p') (k : Book × Duid × Iaid) :
    p'.stored k = p.stored k := by
  rw [Lease6Pool.stored, Lease6Pool.stored, h.book]

lemma Sound.same (hp : p.Sound) (h : SameBooks p p') : p'.Sound := by
  refine ⟨fun b => ?_, ?_, fun k w hw => ?_, h.stop ▸ hp.stop_lt, ?_, fun k w hw => ?_⟩
  · rw [h.book]
    exact hp.linked b
  · rw [h.used]
    exact hp.exclusive.congr h.stored
  · rw [h.stored] at hw
    rw [h.start, h.stop]
    exact hp.inRange k w hw
  · rw [dynamicEntries, h.leases, h.offers]
    exact hp.bounded
  · rw [h.stored] at hw
    rw [h.nextExpiry]
    exact hp.due k w hw

/-- What a cleaning leaves. -/
structure Cleaned (p p' : Lease6Pool) (now : ℕ) : Prop where
  sound : p'.Sound
  start : p'.start = p.start
  stop : p'.stop = p.stop
  leaseSecs : p'.leaseSecs = p.leaseSecs
  stored : ∀ k w, p'.stored k = some w ↔ p.stored k = some w ∧ now < w.2

/-- The pool after both maps were passed over. -/
theorem Sound.swept (h : p.Sound) {leases offers : IaMap} {used used' : Used}
    (hleases : leases.WellLinked) (hoffers : offers.WellLinked) (hllen : leases.len ≤ p.leases.len)
    (holen : offers.len ≤ p.offers.len)
    (hl : ∀ k w, leases.lookup k = some w ↔ p.leases.lookup k = some w ∧ now < w.2)
    (ho : ∀ k w, offers.lookup k = some w ↔ p.offers.lookup k = some w ∧ now < w.2)
    (hlused : ∀ ip, ip ∈ used ↔ ip ∈ p.used ∧ ∀ k w, p.leases.lookup k = some w → w.2 ≤ now → w.1 ≠
      ip)
    (houses : ∀ ip, ip ∈ used' ↔ ip ∈ used ∧ ∀ k w, p.offers.lookup k = some w → w.2 ≤ now → w.1 ≠
      ip) :
    Cleaned p { p with
      leases := leases
      offers := offers
      used := used'
      nextExpiry := min leases.nextExpiry offers.nextExpiry } now := by
  set swept : Lease6Pool := { p with
    leases := leases
    offers := offers
    nextExpiry := min leases.nextExpiry offers.nextExpiry }
  have hstored : ∀ k w, swept.stored k = some w ↔ p.stored k = some w ∧ now < w.2 := by
    rintro ⟨b, k⟩ w
    cases b
    · exact hl k w
    · exact ho k w
  refine ⟨⟨fun b => ?_, ?_, fun k w hw => ?_, h.stop_lt, ?_, fun k w hw => ?_⟩, rfl, rfl, rfl,
    hstored⟩
  · cases b
    · exact hleases
    · exact hoffers
  · refine h.exclusive.keep (p := fun _ w => now < w.2) hstored fun a => ?_
    rw [houses, hlused, and_assoc, and_congr_right_iff]
    refine fun _ => ⟨fun hall => ?_, fun hall => ⟨fun k w hw hle => ?_, fun k w hw hle => ?_⟩⟩
    · rintro ⟨b, k⟩ w hw hgone
      cases b
      · exact hall.1 k w hw (not_lt.mp hgone)
      · exact hall.2 k w hw (not_lt.mp hgone)
    · exact hall (.leases, k) w hw (not_lt.mpr hle)
    · exact hall (.offers, k) w hw (not_lt.mpr hle)
  · exact h.inRange k w ((hstored k w).mp hw).1
  · exact (add_le_add hllen holen).trans h.bounded
  · obtain ⟨b, k⟩ := k
    cases b
    · exact (min_le_left _ _).trans (nextExpiry_le hw)
    · exact (min_le_right _ _).trans (nextExpiry_le hw)

/-- Nothing is stored in a pool with two empty maps. -/
theorem clear_sound (hstop : p.stop < 2 ^ 128) (hl : p.leases.isEmpty) (ho : p.offers.isEmpty) :
    p.clear.Sound ∧ ∀ k, p.clear.stored k = p.stored k := by
  have hnone : ∀ k, p.stored k = none := by
    rintro ⟨b, k⟩
    cases b
    · exact lookup_of_isEmpty hl k
    · exact lookup_of_isEmpty ho k
  have hcleared : ∀ k, p.clear.stored k = none := by
    rintro ⟨b, k⟩
    cases b <;> exact lookup_empty k
  refine ⟨⟨fun b => ?_, exclusive_none _ hcleared, fun k w hw => ?_, hstop, Nat.zero_le _,
    fun k w hw => ?_⟩, fun k => (hcleared k).trans (hnone k).symm⟩
  · cases b <;> exact wellLinked_empty
  · rw [hcleared] at hw
    cases hw
  · rw [hcleared] at hw
    cases hw

/-- The maps of a pool are replaced by others with the same entries. -/
theorem Sound.replace (h : p.Sound) {leases offers : IaMap} (hl : leases.WellLinked)
    (ho : offers.WellLinked) (hll : ∀ k, leases.lookup k = p.leases.lookup k)
    (hol : ∀ k, offers.lookup k = p.offers.lookup k) (hlen : leases.len ≤ p.leases.len)
    (holen : offers.len ≤ p.offers.len) :
    ({ p with leases := leases, offers := offers } : Lease6Pool).Sound ∧
      ∀ k, ({ p with leases := leases, offers := offers } : Lease6Pool).stored k = p.stored k := by
  have hstored : ∀ k, ({ p with leases := leases, offers := offers } : Lease6Pool).stored k =
      p.stored k := by
    rintro ⟨b, k⟩
    cases b
    · exact hll k
    · exact hol k
  refine ⟨⟨fun b => ?_, h.exclusive.congr hstored, fun k w hw => ?_, h.stop_lt,
    (add_le_add hlen holen).trans h.bounded, fun k w hw => ?_⟩, hstored⟩
  · cases b
    · exact hl
    · exact ho
  · exact h.inRange k w (hstored k ▸ hw)
  · exact h.due k w (hstored k ▸ hw)

lemma cleanupExpired_spec (h : p.Sound) (now : ℕ) :
    ∃ p', p.cleanupExpired now = some p' ∧ Cleaned p p' now := by
  rw [cleanupExpired]
  by_cases hnow : now < p.nextExpiry
  · refine ⟨p, if_pos hnow, h, rfl, rfl, rfl, fun k w => ⟨fun hw => ⟨hw, ?_⟩, And.left⟩⟩
    exact hnow.trans_le (h.due k w hw)
  rw [if_neg hnow]
  obtain ⟨leases, used, hleases, hlwell, hllen, hl, hlused⟩ :=
    removeExpired_spec (h.linked .leases) now p.used
  obtain ⟨offers, used', hoffers, howell, holen, ho, housed⟩ :=
    removeExpired_spec (h.linked .offers) now used
  have hcleaned := h.swept hlwell howell hllen holen hl ho hlused housed
  have hl' : p.leases.removeExpired now p.used = some (leases, used) := hleases
  have ho' : p.offers.removeExpired now used = some (offers, used') := hoffers
  simp only [hl', ho', bind_eq_bind, bind_some]
  by_cases hempty : (leases.isEmpty && offers.isEmpty) = true
  · rw [if_pos hempty]
    obtain ⟨hle, hoe⟩ := Bool.and_eq_true_iff.mp hempty
    obtain ⟨hsound, hstored⟩ := clear_sound (p := { p with
      leases := leases
      offers := offers
      used := used'
      nextExpiry := min leases.nextExpiry offers.nextExpiry }) h.stop_lt hle hoe
    refine ⟨_, rfl, hsound, rfl, rfl, rfl, fun k w => ?_⟩
    rw [hstored, hcleaned.stored]
  · rw [if_neg hempty]
    obtain ⟨hsound, hstored⟩ := hcleaned.sound.replace
      (releaseExcessCapacity_wellLinked hlwell)
      (releaseExcessCapacity_wellLinked howell)
      (releaseExcessCapacity_lookup leases) (releaseExcessCapacity_lookup offers)
      releaseExcessCapacity_len releaseExcessCapacity_len
    refine ⟨_, rfl, hsound, rfl, rfl, rfl, fun k w => ?_⟩
    rw [hstored, hcleaned.stored]

end Lease6Pool

end OnetDns.Dhcp6
