import OnetDns.Dhcp.Lease6Sound

/-!
# The operations of the DHCPv6 pool

What each operation does to what is stored, for one DUID and IAID and for the others. None of them
panics, and all of them keep the pool sound.
-/
namespace OnetDns.Dhcp6
open Dhcp Option IaMap

variable {m m' : IaMap} {p p' p'' : Lease6Pool} {b : Book} {d : Duid} {i : Iaid} {v : IaValue}
  {old : Option IaValue} {ip expiry now : ℕ} {done : Bool}

namespace Lease6Pool

def withBook (p : Lease6Pool) (b : Book) (m : IaMap) (used : Used) (nextExpiry : ℕ) : Lease6Pool :=
  match b with
  | .leases => { p with leases := m, used := used, nextExpiry := nextExpiry }
  | .offers => { p with offers := m, used := used, nextExpiry := nextExpiry }

variable {used : Used} {next : ℕ}

lemma withBook_book (b' : Book) :
    (p.withBook b m used next).book b' = if b' = b then m else p.book b' := by
  cases b <;> cases b' <;> rfl

lemma withBook_used : (p.withBook b m used next).used = used := by
  cases b <;> rfl

lemma withBook_nextExpiry : (p.withBook b m used next).nextExpiry = next := by
  cases b <;> rfl

lemma withBook_range :
    (p.withBook b m used next).start = p.start ∧ (p.withBook b m used next).stop = p.stop := by
  cases b <;> exact ⟨rfl, rfl⟩

lemma withBook_entries (p : Lease6Pool) (b : Book) (m : IaMap) (used : Used) (next : ℕ) :
    (p.withBook b m used next).dynamicEntries + (p.book b).len = p.dynamicEntries + m.len := by
  cases b <;> simp only [withBook, dynamicEntries, book] <;> omega

lemma withBook_stored {value : Option (ℕ × ℕ)}
    (hm : ∀ k, m.lookup k = if k = (d, i) then value else (p.book b).lookup k)
    (k : Book × Duid × Iaid) :
    (p.withBook b m used next).stored k = if k = (b, d, i) then value else p.stored k := by
  obtain ⟨b', k⟩ := k
  rw [stored, withBook_book, stored]
  by_cases hb : b' = b
  · subst hb
    rw [if_pos rfl, hm]
    simp
  · rw [if_neg hb, if_neg fun heq => hb (congrArg Prod.fst heq)]

/-- The pool after a value was inserted in one of its maps. -/
theorem Sound.put (h : p.Sound) (hins : IaMap.Inserted (p.book b) m d v old)
    (hrange : p.start ≤ v.ip ∧ v.ip ≤ p.stop)
    (hfree : v.ip ∉ p.used ∨ ∃ w, p.stored (b, d, v.iaid) = some w ∧ w.1 = v.ip)
    (hroom : (p.stored (b, d, v.iaid)).isSome ∨ p.dynamicEntries < MAX_LEASES) :
    (p.withBook b m (Insert.insert v.ip (vacate p.used old v.ip))
      (min p.nextExpiry v.expiry)).Sound := by
  set p₁ := p.withBook b m (insert v.ip (vacate p.used old v.ip))
    (min p.nextExpiry v.expiry) with hp₁
  have hstored : ∀ k, p₁.stored k = if k = (b, d, v.iaid) then some (v.ip, v.expiry)
      else p.stored k := withBook_stored hins.lookup_eq
  have hold : p.stored (b, d, v.iaid) = old.map data := hins.old_eq.symm
  refine ⟨fun b' => ?_, ?_, fun k w hw => ?_, ?_, ?_, fun k w hw => ?_⟩
  · rw [withBook_book]
    split
    · exact hins.wellLinked
    · exact h.linked b'
  · rw [withBook_used]
    refine h.exclusive.put (v := (v.ip, v.expiry)) (fun j w => h.exclusive.free hfree) hstored
      fun a => ?_
    rw [Finset.mem_insert]
    refine or_congr_right' fun ha => ?_
    rw [hold, vacate.eq_def]
    cases old with
    | none => simp
    | some o =>
      by_cases hip : o.ip = v.ip
      · simp [hip, data, Ne.symm ha]
      · simp [hip, data, and_comm, eq_comm]
  · rw [withBook_range.1, withBook_range.2]
    rw [hstored] at hw
    split at hw
    · obtain rfl := some.inj hw
      exact hrange
    · exact h.inRange k w hw
  · rw [withBook_range.2]
    exact h.stop_lt
  · have hentries := withBook_entries p b m (insert v.ip (vacate p.used old v.ip))
      (min p.nextExpiry v.expiry)
    have hlen := hins.len_eq
    rw [← hp₁] at hentries
    have hbounded := h.bounded
    have hsome : ((p.book b).lookup (d, v.iaid)).isSome = (p.stored (b, d, v.iaid)).isSome := rfl
    rw [hsome] at hlen
    rcases hroom with hroom | hroom
    · rw [hroom, Bool.toNat_true] at hlen
      omega
    · omega
  · rw [withBook_nextExpiry]
    rw [hstored] at hw
    split at hw
    · obtain rfl := some.inj hw
      exact min_le_right _ _
    · exact (min_le_left _ _).trans (h.due k w hw)

/-- The pool after a value was removed from one of its maps. -/
theorem Sound.drop (h : p.Sound) (hrem : IaMap.Removed (p.book b) m d i old) :
    (p.withBook b m (giveBack p.used old) p.nextExpiry).Sound := by
  set p₁ := p.withBook b m (giveBack p.used old) p.nextExpiry with hp₁
  have hstored : ∀ k, p₁.stored k = if k = (b, d, i) then none else p.stored k :=
    withBook_stored hrem.lookup_eq
  have hleft : ∀ k w, p₁.stored k = some w → p.stored k = some w := by
    intro k w hw
    rw [hstored] at hw
    split at hw
    · cases hw
    · exact hw
  refine ⟨fun b' => ?_, ?_, fun k w hw => ?_, ?_, ?_, fun k w hw => ?_⟩
  · rw [withBook_book]
    split
    · exact hrem.wellLinked
    · exact h.linked b'
  · rw [withBook_used]
    have hold : p.stored (b, d, i) = old.map data := hrem.old_eq.symm
    cases old with
    | none => exact h.exclusive.vacant hold hstored
    | some o => exact h.exclusive.drop hold hstored
  · rw [withBook_range.1, withBook_range.2]
    exact h.inRange k w (hleft k w hw)
  · rw [withBook_range.2]
    exact h.stop_lt
  · have hentries := withBook_entries p b m (giveBack p.used old) p.nextExpiry
    rw [← hp₁] at hentries
    have hbounded := h.bounded
    have hlen := hrem.len_eq
    omega
  · rw [withBook_nextExpiry]
    exact h.due k w (hleft k w hw)

/-- Only the entries of one DUID and IAID are changed. -/
structure Touched (p p' : Lease6Pool) (d : Duid) (i : Iaid) : Prop where
  sound : p'.Sound
  leaseSecs : p'.leaseSecs = p.leaseSecs
  others : ∀ b k, k ≠ (d, i) → p'.stored (b, k) = p.stored (b, k)

/-- The entries of the others are not changed, but they may be over. -/
structure Operated (p p' : Lease6Pool) (d : Duid) (i : Iaid) (now : ℕ) : Prop where
  sound : p'.Sound
  leaseSecs : p'.leaseSecs = p.leaseSecs
  of_stored : ∀ b k w, k ≠ (d, i) → p'.stored (b, k) = some w → p.stored (b, k) = some w
  stays : ∀ b k w, k ≠ (d, i) → p.stored (b, k) = some w → p'.stored (b, k) = some w ∨ w.2 ≤ now

lemma Touched.refl (h : p.Sound) : Touched p p d i := ⟨h, rfl, fun _ _ _ => rfl⟩

lemma Touched.same (h : p.Sound) (hsame : SameBooks p p') (hsecs : p'.leaseSecs = p.leaseSecs) :
    Touched p p' d i := ⟨h.same hsame, hsecs, fun b k _ => hsame.stored (b, k)⟩

lemma Touched.trans (h : Touched p p' d i) (h' : Touched p' p'' d i) : Touched p p'' d i :=
  ⟨h'.sound, h'.leaseSecs.trans h.leaseSecs,
    fun b k hk => (h'.others b k hk).trans (h.others b k hk)⟩

lemma Operated.refl (h : p.Sound) : Operated p p d i now :=
  ⟨h, rfl, fun _ _ _ _ hw => hw, fun _ _ _ _ hw => .inl hw⟩

lemma Cleaned.touched (h : Cleaned p p' now) (h' : Touched p' p'' d i) :
    Operated p p'' d i now := by
  refine ⟨h'.sound, h'.leaseSecs.trans h.leaseSecs, fun b k w hk hw => ?_, fun b k w hk hw => ?_⟩
  · rw [h'.others b k hk] at hw
    exact ((h.stored _ w).mp hw).1
  · rw [h'.others b k hk]
    by_cases hlive : now < w.2
    · exact .inl ((h.stored _ w).mpr ⟨hw, hlive⟩)
    · exact .inr (not_lt.mp hlive)

lemma Touched.operated (h : Touched p p' d i) : Operated p p' d i now := by
  refine ⟨h.sound, h.leaseSecs, fun b k w hk hw => ?_, fun b k w hk hw => ?_⟩
  · rwa [← h.others b k hk]
  · exact .inl ((h.others b k hk).trans hw)

lemma withBook_others {value : Option (ℕ × ℕ)}
    (hm : ∀ k, m.lookup k = if k = (d, i) then value else (p.book b).lookup k)
    (hsound : (p.withBook b m used next).Sound) : Touched p (p.withBook b m used next) d i := by
  refine ⟨hsound, by cases b <;> rfl, fun b' k hk => ?_⟩
  rw [withBook_stored hm, if_neg fun heq => hk (congrArg Prod.snd heq)]

lemma dropOffer_spec (h : p.Sound) (d : Duid) (i : Iaid) :
    ∃ p', p.dropOffer d i = some p' ∧ Touched p p' d i ∧ p'.start = p.start ∧ p'.stop = p.stop ∧
      (∀ k, p'.stored k = if k = (.offers, d, i) then none else p.stored k) ∧
      p'.dynamicEntries + (p.stored (.offers, d, i)).isSome.toNat = p.dynamicEntries := by
  obtain ⟨old, m, hm, hrem⟩ := remove_spec (h.linked .offers) d i
  have hm' : p.offers.remove d i = some (old, m) := hm
  have hsound := h.drop (b := .offers) hrem
  refine ⟨p.withBook .offers m (giveBack p.used old) p.nextExpiry, ?_,
    withBook_others hrem.lookup_eq hsound, withBook_range.1, withBook_range.2,
    withBook_stored hrem.lookup_eq, ?_⟩
  · rw [dropOffer, hm']
    rfl
  have hentries := withBook_entries p .offers m (giveBack p.used old) p.nextExpiry
  have hlen := hrem.len_eq
  have hsome : ((p.book .offers).lookup (d, i)).isSome = (p.stored (.offers, d, i)).isSome := rfl
  rw [hsome] at hlen
  omega

lemma storeLease_spec (h : p.Sound) (hfit : ¬unfit d) (hrange : p.start ≤ ip ∧ ip ≤ p.stop)
    (hfree : ip ∉ p.used ∨ ∃ w, p.stored (.leases, d, i) = some w ∧ w.1 = ip)
    (hroom : (p.stored (.leases, d, i)).isSome ∨ p.dynamicEntries < MAX_LEASES) (expiry : ℕ) :
    ∃ p', p.storeLease d i ip expiry = some p' ∧ Touched p p' d i ∧
      p'.stored (.leases, d, i) = some (ip, expiry) := by
  obtain ⟨old, m, hm, hins⟩ := insert_spec (h.linked .leases) hfit (.new ip expiry i)
  have hm' : p.leases.insert d (.new ip expiry i) = some (old, m) := hm
  have hsound := h.put (b := .leases) hins hrange hfree hroom
  refine ⟨p.withBook .leases m (insert ip (vacate p.used old ip)) (min p.nextExpiry expiry),
    ?_, withBook_others hins.lookup_eq hsound, ?_⟩
  · rw [storeLease, hm']
    rfl
  · rw [withBook_stored hins.lookup_eq]
    exact if_pos rfl

/-- A lease is stored in place of the offer, and of the lease before it. -/
theorem commit_spec (h : p.Sound) (hfit : ¬unfit d) (expiry : ℕ)
    (hrange : p.start ≤ ip ∧ ip ≤ p.stop)
    (hfree : ip ∈ p.used → (p.leases.get d i).map (·.ip) ≠ some ip → unexpired (p.offers.get d i)
      now = some ip)
    (hroom : (p.leases.get d i).map (·.ip) = none → unexpired (p.offers.get d i) now = none →
      p.dynamicEntries < MAX_LEASES) :
    ∃ p₁ p', (if (unexpired (p.offers.get d i) now).isSome then p.dropOffer d i else some p) = some p₁ ∧
      p₁.storeLease d i ip expiry = some p' ∧ p₁.leaseSecs = p.leaseSecs ∧ Touched p p' d i ∧
      p'.stored (.leases, d, i) = some (ip, expiry) := by
  have hheld : (p.leases.get d i).map (·.ip) = some ip →
      ∃ w, p.stored (.leases, d, i) = some w ∧ w.1 = ip := by
    intro hown
    obtain ⟨e, he⟩ := ip_eq_some.mp hown
    exact ⟨(ip, e), he, rfl⟩
  have hown : (p.leases.get d i).map (·.ip) = none ∨ (p.stored (.leases, d, i)).isSome := by
    cases hget : p.leases.get d i with
    | none => exact .inl rfl
    | some v =>
      refine .inr ?_
      rw [show p.stored (.leases, d, i) = p.leases.lookup (d, i) from rfl, IaMap.lookup, hget]
      rfl
  by_cases hoffer : (unexpired (p.offers.get d i) now).isSome
  · obtain ⟨offered, hoffered⟩ := isSome_iff_exists.mp hoffer
    obtain ⟨e, he, -⟩ := unexpired_eq_some.mp hoffered
    have hat : p.stored (.offers, d, i) = some (offered, e) := he
    obtain ⟨p₁, hp₁, htouched, hstart, hstop, hstored, hentries⟩ := dropOffer_spec h d i
    have hsame : p₁.stored (.leases, d, i) = p.stored (.leases, d, i) := by
      rw [hstored, if_neg (by simp)]
    have hleft : ∀ k w, p₁.stored k = some w → p.stored k = some w ∧ k ≠ (.offers, d, i) := by
      intro k w hw
      rw [hstored] at hw
      split at hw
      · cases hw
      · exact ⟨hw, ‹_›⟩
    -- the slot of the offer is free again, and so is its address
    have hroom₁ : p₁.dynamicEntries < MAX_LEASES := by
      rw [hat, isSome_some, Bool.toNat_true] at hentries
      have := h.bounded
      omega
    have hfree₁ : ip ∉ p₁.used ∨ ∃ w, p₁.stored (.leases, d, i) = some w ∧ w.1 = ip := by
      by_cases hmine : (p.leases.get d i).map (·.ip) = some ip
      · rw [hsame]
        exact .inr (hheld hmine)
      refine .inl fun hused => ?_
      obtain ⟨k, w, hw, hip⟩ := (htouched.sound.exclusive.held_iff ip).mp hused
      obtain ⟨hw, hk⟩ := hleft k w hw
      have hfound := hfree ((h.exclusive.held_iff ip).mpr ⟨k, w, hw, hip⟩) hmine
      obtain rfl := some.inj (hoffered.symm.trans hfound)
      exact hk (h.exclusive.alone _ _ _ _ hw hat hip)
    obtain ⟨p', hp', htouched', hnew⟩ :=
      storeLease_spec htouched.sound hfit (hstart ▸ hstop ▸ hrange) hfree₁ (.inr hroom₁) expiry
    exact ⟨p₁, p', by rw [if_pos hoffer, hp₁], hp', htouched.leaseSecs, htouched.trans htouched', hnew⟩
  · have hnone : unexpired (p.offers.get d i) now = none := not_isSome_iff_eq_none.mp hoffer
    have hfree₁ : ip ∉ p.used ∨ ∃ w, p.stored (.leases, d, i) = some w ∧ w.1 = ip := by
      by_cases hmine : (p.leases.get d i).map (·.ip) = some ip
      · exact .inr (hheld hmine)
      · refine .inl fun hused => ?_
        rw [hnone] at hfree
        cases hfree hused hmine
    have hroom₁ : (p.stored (.leases, d, i)).isSome ∨ p.dynamicEntries < MAX_LEASES :=
      hown.symm.imp_right fun hown => hroom hown hnone
    obtain ⟨p', hp', htouched, hnew⟩ := storeLease_spec h hfit hrange hfree₁ hroom₁ expiry
    exact ⟨p, p', by rw [if_neg hoffer], hp', rfl, htouched, hnew⟩

lemma commitInner_spec (h : p.Sound) (d : Duid) (i : Iaid) (ip : ℕ) (requireOffer : Bool)
    (now : ℕ) : ∃ done p', p.commitInner d i ip requireOffer now = some (done, p') ∧
      Operated p p' d i now ∧
      (done = true → p'.stored (.leases, d, i) = some (ip, leaseExpiry now p.leaseSecs)) := by
  by_cases hfit : unfit d
  · exact ⟨false, p, by rw [commitInner, if_pos hfit], .refl h, by simp⟩
  obtain ⟨p₁, hp₁, hcleaned⟩ := cleanupExpired_spec h now
  have hrefused : Operated p p₁ d i now := hcleaned.touched (.refl hcleaned.sound)
  rw [commitInner, if_neg hfit, hp₁]
  simp only [bind_eq_bind, bind_some]
  by_cases hrange : ip < p₁.start ∨ ip > p₁.stop
  · exact ⟨false, p₁, by rw [if_pos hrange], hrefused, by simp⟩
  rw [if_neg hrange]
  split
  · exact ⟨false, p₁, rfl, hrefused, by simp⟩
  split
  · exact ⟨false, p₁, rfl, hrefused, by simp⟩
  rename_i hfree
  split
  · exact ⟨false, p₁, rfl, hrefused, by simp⟩
  rename_i hroom
  have hin : p₁.start ≤ ip ∧ ip ≤ p₁.stop := by omega
  obtain ⟨p₂, p', hp₂, hp', hsecs, htouched, hnew⟩ := commit_spec hcleaned.sound hfit
    (leaseExpiry now p₁.leaseSecs) hin
    (fun hused hmine => by
      by_contra hoffered
      exact hfree ⟨hused, hmine, hoffered⟩)
    (fun hmine hnone => by
      by_contra hfull
      exact hroom ⟨hmine, hnone, not_lt.mp hfull⟩)
  refine ⟨true, p', ?_, hcleaned.touched htouched, fun _ => ?_⟩
  · rw [hp₂]
    simp only [bind_some, hsecs, hp']
  · rw [hnew, hcleaned.leaseSecs]

lemma holdOffer_spec (h : p.Sound) (d : Duid) (i : Iaid) (ip now : ℕ) :
    ∃ held p', p.holdOffer d i ip now = some (held, p') ∧ Operated p p' d i now := by
  by_cases hfit : unfit d
  · exact ⟨false, p, by rw [holdOffer, if_pos hfit], .refl h⟩
  by_cases hrange : ip < p.start ∨ ip > p.stop
  · exact ⟨false, p, by rw [holdOffer, if_neg hfit, if_pos hrange], .refl h⟩
  obtain ⟨p₁, hp₁, hcleaned⟩ := cleanupExpired_spec h now
  have hrefused : Operated p p₁ d i now := hcleaned.touched (.refl hcleaned.sound)
  rw [holdOffer, if_neg hfit, if_neg hrange, hp₁]
  simp only [bind_eq_bind, bind_some]
  split
  · exact ⟨true, p₁, rfl, hrefused⟩
  split
  · exact ⟨false, p₁, rfl, hrefused⟩
  rename_i hfree
  split
  · exact ⟨false, p₁, rfl, hrefused⟩
  rename_i hroom
  have hsound := hcleaned.sound
  obtain ⟨old, m, hm, hins⟩ := insert_spec (hsound.linked .offers) hfit (.new ip (later now 60) i)
  have hm' : p₁.offers.insert d (.new ip (later now 60) i) = some (old, m) := hm
  have hrange' : p₁.start ≤ ip ∧ ip ≤ p₁.stop := by
    rw [hcleaned.start, hcleaned.stop]
    omega
  have hfree' : ip ∉ p₁.used ∨ ∃ w, p₁.stored (.offers, d, i) = some w ∧ w.1 = ip := by
    by_cases hused : ip ∈ p₁.used
    · obtain ⟨e, he⟩ := ip_eq_some.mp (not_not.mp fun hother => hfree ⟨hused, hother⟩)
      exact .inr ⟨(ip, e), he, rfl⟩
    · exact .inl hused
  have hroom' : (p₁.stored (.offers, d, i)).isSome ∨ p₁.dynamicEntries < MAX_LEASES := by
    cases hget : p₁.offers.get d i with
    | none =>
      refine .inr (not_le.mp fun hfull => hroom ⟨?_, hfull⟩)
      rw [hget]
      rfl
    | some v =>
      refine .inl ?_
      rw [show p₁.stored (.offers, d, i) = p₁.offers.lookup (d, i) from rfl, IaMap.lookup, hget]
      rfl
  have hput := hsound.put (b := .offers) hins hrange' hfree' hroom'
  refine ⟨true, _, ?_, hcleaned.touched (withBook_others hins.lookup_eq hput)⟩
  rw [hm']
  rfl

lemma noteAvailability_same (p : Lease6Pool) (picked : Option ℕ) :
    SameBooks p (p.noteAvailability picked).2 := ⟨rfl, rfl, rfl, rfl, rfl, rfl⟩

lemma pick_same (p : Lease6Pool) : SameBooks p p.pick.2 ∧ p.pick.2.leaseSecs = p.leaseSecs := by
  rw [pick]
  split
  · exact ⟨noteAvailability_same p none, rfl⟩
  · dsimp only
    split
    · exact ⟨⟨rfl, rfl, rfl, rfl, rfl, rfl⟩, rfl⟩
    · exact ⟨noteAvailability_same p none, rfl⟩

lemma allocate_spec (h : p.Sound) (d : Duid) (i : Iaid) (now : ℕ) :
    ∃ picked p', p.allocate d i now = some (picked, p') ∧ Operated p p' d i now := by
  by_cases hfit : unfit d
  · exact ⟨none, p, by rw [allocate, if_pos hfit], .refl h⟩
  obtain ⟨p₁, hp₁, hcleaned⟩ := cleanupExpired_spec h now
  have hunchanged : Operated p p₁ d i now := hcleaned.touched (.refl hcleaned.sound)
  rw [allocate, if_neg hfit, hp₁]
  simp only [bind_eq_bind, bind_some]
  cases unexpired (p₁.leases.get d i) now with
  | some ip => exact ⟨some ip, p₁, rfl, hunchanged⟩
  | none =>
    cases unexpired (p₁.offers.get d i) now with
    | some ip => exact ⟨some ip, p₁, rfl, hunchanged⟩
    | none =>
      dsimp only
      split
      · exact ⟨_, _, rfl,
          hcleaned.touched (.same hcleaned.sound (noteAvailability_same p₁ none) rfl)⟩
      · obtain ⟨hsame, hsecs⟩ := pick_same p₁
        exact ⟨_, _, rfl, hcleaned.touched (.same hcleaned.sound hsame hsecs)⟩

/-- The expiry of a lease is another. -/
theorem renewed {m : IaMap} {e : ℕ} (h : p.Sound) (hwell : m.WellLinked)
    (hlookup : ∀ k, m.lookup k = if k = (d, i) then some (ip, expiry) else p.leases.lookup k)
    (hlen : m.len = p.leases.len) (hat : p.leases.lookup (d, i) = some (ip, e)) :
    (p.withBook .leases m p.used (min p.nextExpiry expiry)).stored (.leases, d, i) =
        some (ip, expiry) ∧
      Touched p (p.withBook .leases m p.used (min p.nextExpiry expiry)) d i := by
  set p₁ := p.withBook .leases m p.used (min p.nextExpiry expiry)
  have hstored : ∀ k, p₁.stored k = if k = (.leases, d, i) then some (ip, expiry) else p.stored k :=
    withBook_stored hlookup
  have hat' : p.stored (.leases, d, i) = some (ip, e) := hat
  refine ⟨by rw [hstored, if_pos rfl], withBook_others hlookup ⟨fun b => ?_, ?_, fun k w hw => ?_,
    h.stop_lt, ?_, fun k w hw => ?_⟩⟩
  · rw [withBook_book]
    split
    · exact hwell
    · exact h.linked b
  · refine h.exclusive.put (v := (ip, expiry))
      (fun j w => h.exclusive.free (.inr ⟨(ip, e), hat', rfl⟩)) hstored fun a => ?_
    rw [withBook_used, hat']
    by_cases ha : a = ip
    · simp [ha, h.exclusive.mem hat']
    · simp [ha, Ne.symm ha]
  · rw [hstored] at hw
    split at hw
    · obtain rfl := some.inj hw
      have hin := h.inRange _ _ hat'
      exact hin
    · exact h.inRange k w hw
  · have hentries : p₁.dynamicEntries = p.dynamicEntries := by
      exact congrArg (· + p.offers.len) hlen
    exact hentries ▸ h.bounded
  · rw [hstored] at hw
    split at hw
    · obtain rfl := some.inj hw
      exact min_le_right _ _
    · exact (min_le_left _ _).trans (h.due k w hw)

lemma renew_spec (h : p.Sound) (d : Duid) (i : Iaid) (ip now : ℕ) :
    ∃ done p', p.renew d i ip now = some (done, p') ∧ Operated p p' d i now ∧
      (done = true → p'.stored (.leases, d, i) = some (ip, leaseExpiry now p.leaseSecs)) := by
  by_cases hfit : unfit d
  · exact ⟨false, p, by rw [renew, if_pos hfit], .refl h, by simp⟩
  obtain ⟨p₁, hp₁, hcleaned⟩ := cleanupExpired_spec h now
  have hrefused : Operated p p₁ d i now := hcleaned.touched (.refl hcleaned.sound)
  rw [renew, if_neg hfit, hp₁]
  simp only [bind_eq_bind, bind_some]
  cases hget : p₁.leases.get d i with
  | none => exact ⟨false, p₁, rfl, hrefused, by simp⟩
  | some v =>
    simp only
    split
    · exact ⟨false, p₁, rfl, hrefused, by simp⟩
    rename_i hsame
    obtain ⟨rfl, -⟩ : v.ip = ip ∧ now < v.expiry := by
      rw [not_or, not_not, not_le] at hsame
      exact hsame
    have hat : p₁.leases.lookup (d, i) = some (v.ip, v.expiry) := by
      rw [IaMap.lookup, hget]
      rfl
    have hsound := hcleaned.sound
    obtain ⟨hwell, hlookup, hlen⟩ :=
      modify_spec (hsound.linked .leases) hat (leaseExpiry now p₁.leaseSecs)
    obtain ⟨hnew, hothers⟩ := renewed hsound hwell hlookup hlen hat
    refine ⟨true, _, rfl, hcleaned.touched hothers, fun _ => ?_⟩
    refine hnew.trans ?_
    rw [hcleaned.leaseSecs]

lemma releaseAddress_spec (h : p.Sound) (d : Duid) (i : Iaid) (ip now : ℕ) :
    ∃ done p', p.releaseAddress d i ip now = some (done, p') ∧ Operated p p' d i now := by
  by_cases hfit : unfit d
  · exact ⟨false, p, by rw [releaseAddress, if_pos hfit], .refl h⟩
  rw [releaseAddress, if_neg hfit]
  split
  · exact ⟨false, p, rfl, .refl h⟩
  obtain ⟨old, m, hm, hrem⟩ := remove_spec (h.linked .leases) d i
  have hm' : p.leases.remove d i = some (old, m) := hm
  have hdrop := h.drop (b := .leases) hrem
  have hothers := withBook_others hrem.lookup_eq hdrop
  simp only [hm', bind_eq_bind, bind_some]
  cases old with
  | none => exact ⟨false, _, rfl, hothers.operated⟩
  | some released =>
    dsimp only
    split
    · rename_i hempty
      obtain ⟨hle, hoe⟩ := Bool.and_eq_true_iff.mp hempty
      obtain ⟨hsound, hstored⟩ := clear_sound
        (p := p.withBook .leases m (p.used.erase released.ip) p.nextExpiry) h.stop_lt hle hoe
      refine ⟨true, _, rfl, Touched.operated ⟨hsound, rfl, fun b k hk => ?_⟩⟩
      exact (hstored (b, k)).trans (hothers.others b k hk)
    obtain ⟨hsound, hstored⟩ := hdrop.replace
      (releaseExcessCapacity_wellLinked hrem.wellLinked) (h.linked .offers)
      (releaseExcessCapacity_lookup m) (fun _ => rfl)
      releaseExcessCapacity_len le_rfl
    refine ⟨true, _, rfl, Touched.operated ⟨hsound, rfl, fun b k hk => ?_⟩⟩
    exact (hstored (b, k)).trans (hothers.others b k hk)

lemma seekCursorToAvailable_same (p : Lease6Pool) : SameBooks p p.seekCursorToAvailable := by
  rw [seekCursorToAvailable]
  split
  · exact ⟨rfl, rfl, rfl, rfl, rfl, rfl⟩
  · split <;> exact ⟨rfl, rfl, rfl, rfl, rfl, rfl⟩

/-- A pool with the valid ones of some leases, and with no offers. -/
theorem retained_sound (hm : m.WellLinked) (hlen : m.len ≤ MAX_LEASES) (now start : ℕ) {stop : ℕ}
    (hstop : stop < 2 ^ 128) (secs : UInt32) : ∃ m' used, m.retainValid now start stop ∅ = some (m', used) ∧
      (seekCursorToAvailable ⟨start, stop, secs, m', .empty, used, false, start,
        m'.nextExpiry⟩).Sound := by
  obtain ⟨m', used, hrun, hwell, hlen', hsound, -, halone, hused⟩ :=
    retainValid_spec hm now start stop ∅
  refine ⟨m', used, hrun, .same ⟨fun b => ?_, ⟨fun a => ?_, ?_⟩, ?_, hstop, ?_, ?_⟩
    (seekCursorToAvailable_same _)⟩
  · cases b
    · exact hwell
    · exact wellLinked_empty
  · rw [hused]
    constructor
    · rintro (hin | ⟨k, w, hw, rfl⟩)
      · exact absurd hin (Finset.notMem_empty a)
      · exact ⟨(.leases, k), w, hw, rfl⟩
    · rintro ⟨⟨b, k⟩, w, hw, rfl⟩
      cases b
      · exact .inr ⟨k, w, hw, rfl⟩
      · cases hw
  · rintro ⟨b, k⟩ ⟨b', k'⟩ w w' hw hw' heq
    cases b <;> cases b'
    · exact congrArg _ (halone k k' w w' hw hw' heq)
    · cases hw'
    · cases hw
    · cases hw
  · rintro ⟨b, k⟩ w hw
    cases b
    · have hvalid := (hsound k w hw).2.1
      simp only [IaMap.valid, Bool.and_eq_true, decide_eq_true_eq] at hvalid
      exact ⟨hvalid.1.2, hvalid.2⟩
    · cases hw
  · exact hlen'.trans hlen
  · rintro ⟨b, k⟩ w hw
    cases b
    · exact nextExpiry_le hw
    · cases hw

lemma reconfigure_spec (h : p.Sound) (cfg : Dhcp6Config) (now : ℕ) :
    ∃ p', p.reconfigure cfg now = some p' ∧ p'.Sound := by
  have hlen : p.leases.len ≤ MAX_LEASES := (Nat.le_add_right _ _).trans h.bounded
  obtain ⟨m, used, hrun, hsound⟩ := retained_sound (h.linked .leases) hlen now cfg.rangeStart
    cfg.rangeStop.isLt cfg.leaseSecs
  have hrun' : p.leases.retainValid now cfg.rangeStart cfg.rangeStop ∅ = some (m, used) := hrun
  refine ⟨_, ?_, hsound⟩
  rw [reconfigure, hrun']
  rfl

end Lease6Pool

lemma not_unfit_of_validDuid (h : validDuid d = true) : ¬unfit d := by
  simp only [validDuid, decide_eq_true_eq] at h
  rintro (rfl | hlong)
  · simp [MIN_DUID_LEN] at h
  · omega

/-- The leases that were read so far. -/
structure Loading.Ok (s : Loading) : Prop where
  wellLinked : s.out.WellLinked
  bounded : s.out.len ≤ MAX_LEASES

lemma loadLine_spec {s : Loading} (h : s.Ok) (now : ℕ) (line : Option LeaseLine) :
    ∃ s', loadLine now s line = some s' ∧ s'.Ok := by
  rw [loadLine.eq_def]
  split
  · exact ⟨s.spoil, rfl, h.wellLinked, h.bounded⟩
  cases line with
  | none => exact ⟨s.spoil, rfl, h.wellLinked, h.bounded⟩
  | some line =>
    dsimp only
    split
    · exact ⟨s.spoil, rfl, h.wellLinked, h.bounded⟩
    rename_i hvalid
    split
    · exact ⟨s, rfl, h⟩
    split
    · exact ⟨s.spoil, rfl, h.wellLinked, h.bounded⟩
    split
    · exact ⟨s.spoil, rfl, h.wellLinked, h.bounded⟩
    have hfit := not_unfit_of_validDuid (Bool.not_eq_false _ ▸ hvalid)
    obtain ⟨old, m, hm, hins⟩ :=
      insert_spec h.wellLinked hfit (.new line.ip line.expiry.toNat line.iaid)
    have hlen := hins.len_eq
    refine ⟨_, by rw [hm]; rfl, hins.wellLinked, ?_⟩
    change m.len ≤ MAX_LEASES
    omega

lemma loadLines_spec (now : ℕ) (lines : List (Option LeaseLine)) {s : Loading} (h : s.Ok) :
    ∃ s', lines.foldlM (loadLine now) s = some s' ∧ s'.Ok := by
  induction lines generalizing s with
  | nil => exact ⟨s, rfl, h⟩
  | cons line lines ih =>
    obtain ⟨s₁, hs₁, hok⟩ := loadLine_spec h now line
    obtain ⟨s', hs', hok'⟩ := ih hok
    exact ⟨s', by rw [List.foldlM_cons, hs₁, bind_eq_bind, bind_some, hs'], hok'⟩

lemma loadLeases6_spec (now : ℕ) (lines : List (Option LeaseLine)) :
    ∃ m, loadLeases6 now lines = some m ∧ m.WellLinked ∧ m.len ≤ MAX_LEASES := by
  obtain ⟨s, hs, hok⟩ := loadLines_spec now lines
    (s := ⟨.empty, ∅, false⟩) ⟨wellLinked_empty, Nat.zero_le _⟩
  refine ⟨_, by rw [loadLeases6, hs]; rfl, ?_⟩
  split
  · exact ⟨wellLinked_empty, Nat.zero_le _⟩
  · exact ⟨hok.wellLinked, hok.bounded⟩

lemma Lease6Pool.new_spec (cfg : Dhcp6Config) (file : ℕ) (lines : List (Option LeaseLine))
    (now : ℕ) : ∃ p, Lease6Pool.new cfg file lines now = some p ∧ p.Sound := by
  obtain ⟨m, hm, hwell, hlen⟩ := loadLeases6_spec file lines
  obtain ⟨m', used, hrun, hsound⟩ := retained_sound hwell hlen now cfg.rangeStart
    cfg.rangeStop.isLt cfg.leaseSecs
  refine ⟨_, ?_, hsound⟩
  rw [new, hm]
  simp only [bind_eq_bind, bind_some, hrun]

end OnetDns.Dhcp6
