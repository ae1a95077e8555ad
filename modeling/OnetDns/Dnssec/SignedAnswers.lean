import OnetDns.Dnssec.Sign

/-!
# The answers of a signed zone

What `validate_rrset_in_zone` makes of the sets of a zone that `sign_zone_with` has signed:
the sets of the zone itself, at all times of the window, and a wildcard under the names that
it is expanded to.
-/
namespace OnetDns.Dnssec
open Dns List Name Forward ZoneSigner

/-- The times at which a signature that was made `now` is valid. -/
def InWindow (now : ℕ) (time : UInt32) : Prop :=
  ∃ t, now - inceptionSkew ≤ t ∧ t ≤ now + validity ∧ time = UInt32.ofNat t

/-- The keys of the signer verify what they signed. -/
def Verifies (env : Env) (signer : ZoneSigner) : Prop :=
  ∀ key ∈ signer.key :: signer.ksk.toList, ∀ data,
    env.verify key.algorithm.number key.publicKey data (key.sign data) = true

variable {rrset : List Record}

/-- A key that verifies is found behind a few others. -/
theorem tryKeys_found {env : Env} {sig : Rrsig} {k : Dnskey} {before after : List Dnskey}
    {attempts : ℕ} (hbudget : attempts + before.length < maxSignatureVerifications)
    (hcandidate : isCandidate sig k = true) (hverified : verifyRrsigCrypto env rrset sig k = true) :
    (tryKeys env rrset (fun _ attempts => (true, attempts)) sig (before ++ k :: after) attempts).1 =
      .ok true := by
  induction before generalizing attempts with
  | nil =>
    have hroom : ¬maxSignatureVerifications ≤ attempts := by
      omega
    simp [tryKeys, hcandidate, hverified, hroom]
  | cons k' before ih =>
    simp only [length_cons] at hbudget
    rw [cons_append, tryKeys]
    split
    · exact ih (by omega)
    rw [if_neg (by omega)]
    split
    · rfl
    · exact ih (by omega)

lemma serialLe_ofNat {a b : ℕ} (hle : a ≤ b) (hclose : b - a < 2 ^ 31) :
    serialLe (UInt32.ofNat a) (UInt32.ofNat b) = true := by
  rw [serialLe, decide_eq_true_eq, ← UInt32.ofNat_sub hle, UInt32.lt_iff_toNat_lt,
    UInt32.toNat_ofNat', Nat.mod_eq_of_lt (by omega)]
  simpa using hclose

lemma signedData_lower (sig : Rrsig) (rrset : List Record) :
    signedData sig.lower rrset = signedData sig rrset := by
  have hname : canonicalName (lowerName sig.signer) = canonicalName sig.signer :=
    congrArg wireOf (lowerLabels_idem sig.signer.labels)
  simp only [signedData, Rrsig.lower, hname]

/-- The key for a set is among the first two of the zone. -/
theorem ZoneSigner.signingKey_spec (signer : ZoneSigner) (rtype : RecordType) :
    (∃ flags, (flags = 256 ∨ flags = 257) ∧
        (signer.signingKey rtype).2 = dnskeyOf (signer.signingKey rtype).1 flags) ∧
      ∃ before after, signer.dnskeys = before ++ (signer.signingKey rtype).2 :: after ∧
        before.length ≤ 1 := by
  have hown : ∃ flags, (flags = 256 ∨ flags = 257) ∧ signer.dnskey = dnskeyOf signer.key flags := by
    refine ⟨_, ?_, rfl⟩
    split
    · exact .inl rfl
    · exact .inr rfl
  unfold signingKey
  split
  · rename_i ksk hksk
    split
    · refine ⟨⟨257, .inr rfl, rfl⟩, [signer.dnskey], signer.publishedExtra, ?_, le_rfl⟩
      simp [dnskeys, kskDnskey, hksk]
    · exact ⟨hown, [], _, rfl, Nat.zero_le _⟩
  · exact ⟨hown, [], _, rfl, Nat.zero_le _⟩

variable {first : Record}

/-- The signature that the signer made over a set verifies for every set with the same
octets, under the keys of the zone. -/
theorem validate_signatureOf {env : Env} {signer : ZoneSigner} (hverifies : Verifies env signer)
    {first' : Record} {rrset' : List Record} {now : ℕ} {time : UInt32} (hwindow : InWindow now time)
    (hshape : validateRrsetShape rrset' = some first') (hrtype : first'.rtype = first.rtype)
    (hbelow : signer.owner.path <+: first'.name.path)
    (hlabels : (signer.signatureFields first now).labels.toNat ≤ first'.name.numLabels)
    (hdata : signedData (signer.signatureFields first now) rrset' = signedData
      (signer.signatureFields first now) rrset) {sigs : List Rrsig} (hne : sigs ≠ [])
    (hsigs : ∀ sig ∈ sigs, sig = (signer.signatureOf first rrset now).lower) :
    validateRrsetInZone env rrset' sigs signer.dnskeys signer.owner time = .ok () := by
  obtain ⟨sig, rest, rfl⟩ := exists_cons_of_ne_nil hne
  obtain rfl := hsigs sig mem_cons_self
  set sig := (signer.signatureOf first rrset now).lower
  have hsupported : signatureAlgorithmSupported
      (signer.signingKey first.rtype).1.algorithm.number = true := by
    cases (signer.signingKey first.rtype).1.algorithm <;> rfl
  have htime : rrsigTimeValidAccepting sig time env.acceptExpired = true := by
    obtain ⟨t, hstart, hend, rfl⟩ := hwindow
    have hbefore : serialLe sig.inception (.ofNat t) = true :=
      serialLe_ofNat hstart (by simp only [validity, inceptionSkew] at *; omega)
    have hafter : serialLe (.ofNat t) sig.expiration = true :=
      serialLe_ofNat hend (by simp only [validity, inceptionSkew] at *; omega)
    simp [rrsigTimeValidAccepting, hbefore, hafter]
  have happlies : rrsigAppliesToRrset sig first' = true := by
    have hsigner : sig.signer.path = signer.owner.path := lowerName_path signer.owner
    simp only [rrsigAppliesToRrset, Bool.and_eq_true, beq_iff_eq, decide_eq_true_eq,
      endsWithIgnoreCase_path, hsigner]
    exact ⟨⟨hrtype.symm, hlabels⟩, hbelow⟩
  have husable : isUsable env (some signer.owner) time first' sig = true := by
    have hsigner : sig.signer.eqIgnoreCase signer.owner = true :=
      (eqIgnoreCase_path _ _).mpr (lowerName_path signer.owner)
    simp only [isUsable, Option.all_some, hsigner, happlies, htime, Bool.and_true]
    exact hsupported
  have hverified : ∀ flags, verifyRrsigCrypto env rrset' sig
      (dnskeyOf (signer.signingKey first.rtype).1 flags) = true := by
    intro flags
    have hmem : (signer.signingKey first.rtype).1 ∈ signer.key :: signer.ksk.toList := by
      unfold signingKey
      split
      · rename_i ksk hksk
        split
        · simp [hksk]
        · simp
      · simp
    have hsame : signedData sig rrset' = signedData (signer.signatureFields first now) rrset := by
      rw [signedData_lower]
      exact hdata
    simp only [verifyRrsigCrypto, dnskeyOf, hsupported, hsame]
    exact hverifies _ hmem _
  have hcandidate : ∀ flags, (flags = 256 ∨ flags = 257) →
      sig.keyTag = (dnskeyOf (signer.signingKey first.rtype).1 flags).keyTag →
      isCandidate sig (dnskeyOf (signer.signingKey first.rtype).1 flags) = true := by
    intro flags hflags htag
    have halgorithm : sig.algorithm = (dnskeyOf (signer.signingKey first.rtype).1 flags).algorithm :=
      rfl
    have hprotocol : (dnskeyOf (signer.signingKey first.rtype).1 flags).protocol = 3 := rfl
    have hflag : (dnskeyOf (signer.signingKey first.rtype).1 flags).isZoneKey = true ∧
        (dnskeyOf (signer.signingKey first.rtype).1 flags).isRevoked = false := by
      rcases hflags with rfl | rfl <;> simp only [Dnskey.isZoneKey, Dnskey.isRevoked, dnskeyOf] <;>
        decide
    simp [isCandidate, htag, halgorithm, hprotocol, hflag]
  have hkeys : (tryKeys env rrset' (fun _ attempts => (true, attempts)) sig signer.dnskeys 0).1 =
      .ok true := by
    obtain ⟨⟨flags, hflags, hkey⟩, before, after, hall, hbefore⟩ := signer.signingKey_spec first.rtype
    rw [hall, hkey]
    refine tryKeys_found ?_ (hcandidate flags hflags ?_) (hverified flags)
    · simp only [maxSignatureVerifications]
      omega
    · rw [← hkey]
      rfl
  unfold validateRrsetInZone validateRrsetInZoneWithBudget validateRrsetForSigner
  rw [hshape]
  simp only [tryRrsigs, husable, Bool.not_true, Bool.false_eq_true, if_false]
  split
  · rename_i heq
    rw [heq] at hkeys
    cases hkeys
  · rfl
  · rename_i heq
    rw [heq] at hkeys
    cases hkeys

/-- The labels of a name without an asterisk in front. -/
def answerLabels (x : Path) : ℕ := if x.getLast? = some star then x.length - 1 else x.length

/-- No asterisk but the leftmost. -/
def NoInnerStar (x : Path) : Prop := star ∉ x.dropLast

instance (x : Path) : Decidable (NoInnerStar x) := inferInstanceAs (Decidable (_ ∉ _))

lemma labelKey_eq_star {label : Bytes} : labelKey label = star ↔ label = [42] := by
  have hlower : ∀ b : UInt8, (asciiLower b).toNat = 42 ↔ b = 42 := by
    intro b
    unfold asciiLower
    rw [← UInt8.toNat_inj]
    split
    · rename_i h
      simp only [UInt8.le_iff_toNat_le, UInt8.toNat_add, UInt8.reduceToNat] at h ⊢
      omega
    · rfl
  match label with
  | [] => simp [labelKey, star]
  | [b] => simp [labelKey, star, hlower]
  | a :: b :: rest => simp [labelKey, star]

variable (n : Name)

lemma signedLabels_le : signedLabels n ≤ n.numLabels := length_filter_le _ _

lemma numLabels_lt : n.numLabels < 256 := by
  have hlen := length_le_wireLen n.labels
  have hwire := n.wire_len
  simp only [maxNameLen] at hwire
  unfold numLabels
  omega

lemma signedLabels_toNat : (UInt8.ofNat (signedLabels n)).toNat = signedLabels n := by
  have hle := signedLabels_le n
  have hlt := numLabels_lt n
  rw [UInt8.toNat_ofNat', Nat.mod_eq_of_lt (by omega)]

/-- The label count of a signature is right exactly for names without an inner asterisk. -/
theorem signedLabels_eq_iff : signedLabels n = answerLabels n.path ↔ NoInnerStar n.path := by
  unfold signedLabels answerLabels NoInnerStar Name.path
  cases hlabels : n.labels with
  | nil => simp
  | cons label rest =>
    have hmem : star ∈ (rest.map labelKey) ↔ [42] ∈ rest := by
      simp [labelKey_eq_star]
    have hrest : (rest.filter fun l => l ≠ [42]).length = rest.length ↔
        star ∉ (rest.map labelKey) := by
      rw [length_filter_eq_length_iff, hmem]
      constructor
      · intro hall hstar
        simpa using hall [42] hstar
      · intro hnot l hl
        simp only [decide_eq_true_eq]
        rintro rfl
        exact hnot hl
    by_cases hstar : label = [42]
    · subst hstar
      have hkey : labelKey [42] = star := labelKey_eq_star.mpr rfl
      simpa [hkey] using hrest
    · have hkey : labelKey label ≠ star := mt labelKey_eq_star.mp hstar
      simpa [hstar, hkey] using hrest

lemma canonicalName_wildcard {n : Name} {labels : UInt8} (hlt : labels.toNat < n.numLabels)
    (hfit : wireLen ([42] :: (n.suffix labels.toNat).labels) ≤ maxNameLen) :
    canonicalName (ownerForSigning n labels) =
      wireOf ([42] :: lowerLabels (n.suffix labels.toNat).labels) := by
  have hshort : ∀ l ∈ [42] :: (n.suffix labels.toNat).labels, 1 ≤ l.length ∧ l.length ≤ 63 := by
    intro l hl
    rcases mem_cons.mp hl with rfl | hl
    · decide
    · exact (n.suffix labels.toNat).label_len l hl
  rw [ownerForSigning, if_pos hlt, fromLabels, dif_pos hshort, dif_pos hfit]
  rfl

variable {owner : Name}

/-- A wildcard and the names that it is expanded to are signed under the same owner. -/
theorem canonicalName_expanded {name : Name} {labels : UInt8}
    (hstar : owner.path.getLast? = some star) (hcount : labels.toNat = owner.numLabels - 1)
    (hparent : owner.path.dropLast <+: name.path) (hlonger : owner.numLabels ≤ name.numLabels) :
    canonicalName (ownerForSigning name labels) = canonicalName (ownerForSigning owner labels) := by
  obtain ⟨label, rest, hlabels⟩ : ∃ label rest, owner.labels = label :: rest := by
    refine exists_cons_of_ne_nil fun hnil => ?_
    simp [Name.path, hnil] at hstar
  have hrest : owner.numLabels = rest.length + 1 := by
    rw [numLabels, hlabels, length_cons]
  have hlabel : label = [42] := by
    rw [Name.path, hlabels, getLast?_reverse] at hstar
    exact labelKey_eq_star.mp (Option.some.inj hstar)
  have hsuffix : (owner.suffix labels.toNat).labels = rest := by
    simp only [suffix, hlabels, hcount, hrest]
    rw [show rest.length + 1 - min (rest.length + 1 - 1) (rest.length + 1) = 1 by omega]
    rfl
  have hlower : lowerLabels (name.suffix labels.toNat).labels = lowerLabels rest := by
    have hpath : (name.suffix labels.toNat).path = (owner.suffix labels.toNat).path := by
      rw [suffix_path, suffix_path, hcount]
      have hlen : owner.path.dropLast.length = owner.numLabels - 1 := by
        rw [length_dropLast, path_length]
      rw [← hlen, ← prefix_iff_eq_take.mp hparent, hlen, ← path_length, ← dropLast_eq_take]
    rw [← hsuffix]
    exact (eqIgnoreCase_iff _ _).mp ((eqIgnoreCase_path _ _).mpr hpath)
  have hwire : wireLen ([42] :: (name.suffix labels.toNat).labels) = wireLen owner.labels := by
    rw [wireLen_cons, ← wireLen_lower (name.suffix labels.toNat).labels, hlower, wireLen_lower,
      hlabels, hlabel, wireLen_cons]
  have hfit := hwire.trans_le owner.wire_len
  have hfit' : wireLen ([42] :: (owner.suffix labels.toNat).labels) ≤ maxNameLen := by
    rw [hsuffix, ← hlabel, ← hlabels]
    exact owner.wire_len
  rw [canonicalName_wildcard (by omega) hfit, canonicalName_wildcard (by omega) hfit', hlower,
    hsuffix]

def rename (rrset : List Record) (name : Name) : List Record := rrset.map fun r => { r with name }

lemma signedData_rename {sig : Rrsig} {name : Name}
    (h : ∀ r ∈ rrset, canonicalName (ownerForSigning name sig.labels) = canonicalName
      (ownerForSigning r.name sig.labels)) :
    signedData sig (rename rrset name) = signedData sig rrset := by
  have hsort : ((rename rrset name).map fun r => (canonicalRdata r.rdata, r)).insertionSort
        (fun a b => bytesLe a.1 b.1 = true) =
      ((rrset.map fun r => (canonicalRdata r.rdata, r)).insertionSort
        (fun a b => bytesLe a.1 b.1 = true)).map fun item => (item.1, { item.2 with name }) := by
    have hmap := map_insertionSort (fun a b : Bytes × Record => bytesLe a.1 b.1 = true)
      (fun a b => bytesLe a.1 b.1 = true)
      (fun item : Bytes × Record => (item.1, { item.2 with name }))
      (rrset.map fun r => (canonicalRdata r.rdata, r)) (fun a _ b _ => Iff.rfl)
    rw [hmap, rename, map_map, map_map]
    rfl
  simp only [signedData, hsort, flatMap_map]
  congr 1
  refine flatMap_congr fun item hitem => ?_
  rw [mem_insertionSort] at hitem
  obtain ⟨r, hr, rfl⟩ := mem_map.mp hitem
  simp only [h r hr]

/-- What the zone itself answers for: not what is below a cut, and at a cut only what is of
the parent. -/
def Authoritative (Z : Zone) (x : Path) (t : RecordType) : Prop :=
  ¬Z.BelowCut x ∧ (Z.IsCut x → t = .DS ∨ t = .NSEC ∨ t = .NSEC3)

/-- A name of the zone that a wildcard may be expanded to. -/
structure ExpandedFrom (origin owner name : Name) : Prop where
  star : owner.path.getLast? = some star
  within : origin.path <+: name.path
  parent : owner.path.dropLast <+: name.path
  longer : owner.numLabels ≤ name.numLabels
  other : name.path ≠ owner.path

/-- The keys that a zone shows. -/
def shownKeys (out : List Record) (apex : Name) : List Dnskey :=
  (Forward.sectionRecords out apex .DNSKEY).filterMap Dnskey.fromRecord

/-- A set of a signed zone convinces the validator: it is valid throughout the window, its
label count is that of its owner, and a wildcard is valid under every name that it is
expanded to, where the label count gives it away. -/
structure Convinces (env : Env) (out : List Record) (apex : Name) (now : ℕ) (owner : Name)
    (rtype : RecordType) : Prop where
  valid : ∀ time, InWindow now time →
    validateRrsetInZone env (Forward.sectionRecords out owner rtype)
      (Forward.coveringRrsigs out owner rtype) (shownKeys out apex) apex time = .ok ()
  labels : ∀ sig ∈ Forward.coveringRrsigs out owner rtype,
    sig.labels.toNat = answerLabels owner.path
  expanded : ∀ name, ExpandedFrom apex owner name →
    (∀ sig ∈ Forward.coveringRrsigs out owner rtype, sig.labels.toNat < answerLabels name.path) ∧
    ∀ time, InWindow now time →
      validateRrsetInZone env (rename (Forward.sectionRecords out owner rtype) name)
        (Forward.coveringRrsigs out owner rtype) (shownKeys out apex) apex time = .ok ()

lemma ExpandedFrom.labels_lt {origin name : Name} (h : ExpandedFrom origin owner name) :
    answerLabels owner.path < answerLabels name.path := by
  have hlen : owner.path ≠ [] := by
    intro hnil
    have hstar := h.star
    rw [hnil] at hstar
    cases hstar
  have hpos : 0 < owner.path.length := length_pos_iff.mpr hlen
  have hlonger : owner.path.length ≤ name.path.length := by
    simpa using h.longer
  unfold answerLabels
  rw [if_pos h.star]
  split
  · rename_i hstar
    have hdiff : owner.path.length ≠ name.path.length := by
      intro heq
      -- with as many labels and the same parent, the two are the same wildcard
      have hdrop : owner.path.dropLast = name.path.dropLast := by
        rw [prefix_iff_eq_take.mp h.parent, length_dropLast, heq, ← dropLast_eq_take]
      have hne : name.path ≠ [] := by
        intro hnil
        rw [hnil] at hstar
        cases hstar
      refine h.other ?_
      rw [← dropLast_append_getLast hne, ← dropLast_append_getLast hlen, hdrop]
      congr 2
      rw [getLast?_eq_some_getLast hne] at hstar
      have hown := h.star
      rw [getLast?_eq_some_getLast hlen] at hown
      exact (Option.some.inj hstar).trans (Option.some.inj hown).symm
    omega
  · omega

section Zone

variable {env : Env} {sha1 : Bytes → Bytes} {records : List Record} {signer : ZoneSigner}
  {mode : DenialMode} {now : ℕ}

lemma isSignable_iff (env : Env) (hzone : ZoneRecords signer.owner records) (first : Record) :
    isSignable env.digest records signer first = true ↔ ¬(zoneOf hzone).BelowCut first.name.path ∧
        ((zoneOf hzone).IsCut first.name.path → first.rtype = .DS ∨ first.rtype = .NSEC) := by
  obtain ⟨hbelow, hcut⟩ : (zoneScope env.digest records signer first.name = .beneath ↔ _) ∧ _ :=
    zoneScope_eq hzone first.name
  unfold isSignable
  cases hscope : zoneScope env.digest records signer first.name with
  | own =>
    simp only [hscope, reduceCtorEq, false_iff] at hbelow hcut
    simp only [true_iff]
    exact ⟨hbelow, fun h => absurd ⟨h, hbelow⟩ hcut⟩
  | cut =>
    simp only [hscope] at hbelow hcut
    simp [hcut.1]
  | beneath =>
    simp only [hscope, true_iff] at hbelow
    simp [hbelow]

variable {rest : List Record}

lemma validateRrsetShape_eq
    (h : ∀ r ∈ first :: rest, r.rtype = first.rtype ∧ r.class' = first.class' ∧ r.name.path =
      first.name.path) : validateRrsetShape (first :: rest) = some first := by
  refine if_neg ?_
  rw [Bool.not_eq_true, any_eq_false]
  intro r hr
  obtain ⟨hrtype, hclass, hpath⟩ := h r hr
  simp [hrtype, hclass, eqIgnoreCase_path, hpath]

lemma shape_of_section (hzone : ZoneRecords signer.owner records) {rtype : RecordType}
    (h : first :: rest = sectionRecords (unsignedRecords env.digest sha1 records signer
      mode) owner rtype) : validateRrsetShape (first :: rest) = some first ∧
      ∀ name, validateRrsetShape (rename (first :: rest) name) = some { first with name } := by
  have hsame : ∀ r ∈ first :: rest, r.rtype = rtype ∧ r.class' = 1 ∧ r.name.path = owner.path := by
    intro r hr
    rw [h] at hr
    obtain ⟨hmem, hrtype, hpath⟩ := mem_sectionRecords.mp hr
    exact ⟨hrtype, (mem_unsignedRecords hzone hmem).2.1, hpath⟩
  obtain ⟨hrtype, hclass, hpath⟩ := hsame first mem_cons_self
  refine ⟨validateRrsetShape_eq fun r hr => ?_, fun name => validateRrsetShape_eq fun r hr => ?_⟩
  · obtain ⟨hrtype', hclass', hpath'⟩ := hsame r hr
    exact ⟨hrtype'.trans hrtype.symm, hclass'.trans hclass.symm, hpath'.trans hpath.symm⟩
  · obtain ⟨r', hr', rfl⟩ := mem_map.mp (show r ∈ rename (first :: rest) name from hr)
    obtain ⟨hrtype', hclass', -⟩ := hsame r' hr'
    exact ⟨hrtype'.trans hrtype.symm, hclass'.trans hclass.symm, rfl⟩

/-- A set that is signed convinces if its owner has no inner asterisk. -/
theorem convinces_of_signable (hverifies : Verifies env signer)
    (hzone : ZoneRecords signer.owner records) {rtype : RecordType}
    (hrtype : rtype ≠ .RRSIG)
    (hset : first :: rest = sectionRecords (unsignedRecords env.digest sha1 records signer
      mode) owner rtype) (hsignable : isSignable env.digest records signer first = true)
    (hstar : NoInnerStar owner.path)
    :
    Convinces env (signZoneWith env.digest sha1 records signer mode now) signer.owner now owner
      rtype := by
  set out := signZoneWith env.digest sha1 records signer mode now
  obtain ⟨hmem, htype, hpath⟩ :=
    mem_sectionRecords.mp (hset ▸ mem_cons_self (a := first) (l := rest))
  have hbelow := (mem_unsignedRecords hzone hmem).2.2
  obtain ⟨hshape, hrenamed⟩ := shape_of_section hzone hset
  have hcovering : ∀ sig ∈ coveringRrsigs out owner rtype,
      sig = (signer.signatureOf first (first :: rest) now).lower := by
    intro sig hsig
    obtain ⟨first', rest', hset', -, rfl⟩ := (mem_coveringRrsigs hzone).mp hsig
    obtain ⟨rfl, rfl⟩ := cons.inj (hset.trans hset'.symm)
    rfl
  have hne : coveringRrsigs out owner rtype ≠ [] :=
    ne_nil_of_mem ((mem_coveringRrsigs hzone).mpr ⟨first, rest, hset, hsignable, rfl⟩)
  have hcount : (signer.signatureFields first now).labels.toNat = answerLabels owner.path := by
    rw [← hpath] at hstar ⊢
    exact (signedLabels_toNat first.name).trans ((signedLabels_eq_iff first.name).mpr hstar)
  have hlabels : ∀ sig ∈ coveringRrsigs out owner rtype,
      sig.labels.toNat = answerLabels owner.path := by
    intro sig hsig
    rw [hcovering sig hsig]
    exact hcount
  have hkeys : shownKeys out signer.owner = signer.dnskeys := outputKeys
  have hrecords : sectionRecords out owner rtype = first :: rest :=
    (sectionRecords_signZoneWith owner hrtype).trans hset.symm
  refine ⟨fun time hwindow => ?_, hlabels, fun name hname => ⟨fun sig hsig => ?_,
    fun time hwindow => ?_⟩⟩
  · rw [hrecords, hkeys]
    refine validate_signatureOf hverifies hwindow hshape rfl hbelow ?_ rfl hne hcovering
    exact (signedLabels_toNat first.name).trans_le (signedLabels_le first.name)
  · rw [hlabels sig hsig]
    exact hname.labels_lt
  rw [hrecords, hkeys]
  have hlt : answerLabels owner.path = owner.numLabels - 1 := by
    rw [answerLabels, if_pos hname.star, path_length]
  refine validate_signatureOf hverifies hwindow (hrenamed name)
    (show ({ first with name } : Record).rtype = first.rtype from rfl) hname.within ?_ ?_ hne
    hcovering
  · rw [hcount, hlt]
    exact (Nat.sub_le _ _).trans hname.longer
  refine signedData_rename fun r hr => ?_
  rw [hset] at hr
  have hown := (mem_sectionRecords.mp hr).2.2
  rw [canonicalName_expanded hname.star (hcount.trans hlt) hname.parent hname.longer]
  exact canonicalName_ownerForSigning ((eqIgnoreCase_path _ _).mpr hown.symm) _

/-- The sets of a signed zone: those of the zone itself convince the validator exactly if
the owner has no asterisk but the leftmost and the set is not an NSEC3 record where a
delegation has the same name; the others are not signed. -/
theorem signed_zone_convinces (hverifies : Verifies env signer)
    (hzone : ZoneRecords signer.owner records) (owner : Name) (rtype : RecordType)
    (hrtype : rtype ≠ .RRSIG)
    (hne : Forward.sectionRecords (signZoneWith env.digest sha1 records signer mode now) owner rtype
      ≠ [])
    :
    (Authoritative (zoneOf hzone) owner.path rtype →
      (Convinces env (signZoneWith env.digest sha1 records signer mode now) signer.owner now owner
          rtype ↔
        NoInnerStar owner.path ∧ ¬(rtype = .NSEC3 ∧ (zoneOf hzone).IsCut owner.path))) ∧
    (¬Authoritative (zoneOf hzone) owner.path rtype →
      Forward.coveringRrsigs (signZoneWith env.digest sha1 records signer mode now) owner rtype =
        []) := by
  rw [sectionRecords_signZoneWith owner hrtype] at hne
  obtain ⟨first, rest, hset⟩ := exists_cons_of_ne_nil hne
  obtain ⟨hmem, htype, hpath⟩ := Forward.mem_sectionRecords.mp
    (hset ▸ mem_cons_self (a := first) (l := rest))
  have hsignable := isSignable_iff env hzone first
  rw [htype, hpath] at hsignable
  have hunsigned : isSignable env.digest records signer first ≠ true →
      Forward.coveringRrsigs (signZoneWith env.digest sha1 records signer mode now) owner rtype =
        [] := by
    intro hnot
    refine eq_nil_iff_forall_not_mem.mpr fun sig hsig => ?_
    obtain ⟨first', rest', hset', hyes, -⟩ := (mem_coveringRrsigs hzone).mp hsig
    obtain ⟨rfl, -⟩ := cons.inj (hset'.trans hset)
    exact hnot hyes
  constructor
  · intro hauthoritative
    constructor
    · intro hconvinces
      have hvalid := hconvinces.valid (.ofNat now) ⟨now, Nat.sub_le _ _, Nat.le_add_right _ _, rfl⟩
      obtain ⟨sig, hsig, -⟩ := validateRrsetInZone_sound hvalid
      obtain ⟨first', rest', hset', hyes, rfl⟩ := (mem_coveringRrsigs hzone).mp hsig
      obtain ⟨rfl, -⟩ := cons.inj (hset'.trans hset)
      refine ⟨?_, fun ⟨hnsec3, hcut⟩ => ?_⟩
      · have hcount := hconvinces.labels _ hsig
        rw [← hpath] at hcount ⊢
        exact (signedLabels_eq_iff first'.name).mp ((signedLabels_toNat first'.name).symm.trans hcount)
      · rw [hnsec3] at hsignable
        rcases (hsignable.mp hyes).2 hcut with h | h <;> exact absurd h (by decide)
    · rintro ⟨hstar, hplace⟩
      refine convinces_of_signable hverifies hzone hrtype hset.symm (hsignable.mpr ?_) hstar
      refine ⟨hauthoritative.1, fun hcut => ?_⟩
      rcases hauthoritative.2 hcut with h | h | h
      · exact .inl h
      · exact .inr h
      · exact absurd ⟨h, hcut⟩ hplace
  · intro hnot
    refine hunsigned fun hyes => hnot ?_
    obtain ⟨hbelow, hcut⟩ := hsignable.mp hyes
    exact ⟨hbelow, fun h => (hcut h).imp_right .inl⟩

end Zone

lemma smallOrigin_labels : ∀ label ∈ ([[122]] : List Bytes), 1 ≤ label.length ∧ label.length ≤ 63 := by
  decide

lemma smallOrigin_wire : wireLen [[122]] ≤ maxNameLen := by decide

lemma smallHost_labels : ∀ label ∈ ([[97], [122]] : List Bytes), 1 ≤ label.length ∧ label.length ≤ 63 := by
  decide

lemma smallHost_wire : wireLen [[97], [122]] ≤ maxNameLen := by decide

lemma smallAddress_length : ([10, 0, 0, 1] : Bytes).length = 4 := rfl

/-- The names `z.`, `a.z.` and `a.*.z.`. -/
def smallOrigin : Name := ⟨[[122]], smallOrigin_labels, smallOrigin_wire⟩
def smallHost : Name := ⟨[[97], [122]], smallHost_labels, smallHost_wire⟩
def smallStarHost : Name := ⟨[[97], [42], [122]], by decide, by decide⟩

def smallZone (host : Name) : List Record :=
  [⟨smallOrigin, .SOA, 1, 300, .soa ⟨smallOrigin, smallOrigin, 1, 2, 3, 4, 5⟩⟩,
    ⟨smallOrigin, .NS, 1, 300, .ns host⟩,
    ⟨host, .A, 1, 300, .a ⟨[10, 0, 0, 1], smallAddress_length⟩⟩]

def smallSigner : ZoneSigner := ⟨⟨.ed25519, [7], fun data => 7 :: data⟩, none, smallOrigin, []⟩

/-- Signatures are the data behind the key. -/
def smallEnv : Env where
  verify := fun _ publicKey data signature => signature == publicKey ++ data
  digest := fun _ data => data
  acceptExpired := false

lemma smallEnv_verifies : Verifies smallEnv smallSigner := by
  intro key hkey data
  obtain rfl := mem_singleton.mp hkey
  simp [smallEnv, smallSigner]

variable {host : Name}

lemma smallZone_records (h : smallOrigin.path <+: host.path) :
    ZoneRecords smallSigner.owner (smallZone host) := by
  refine ⟨?_, ⟨_, mem_cons_self, rfl, rfl⟩, ?_⟩
  · intro r hr
    simp only [smallZone, mem_cons, not_mem_nil, or_false] at hr
    rcases hr with rfl | rfl | rfl
    · exact prefix_refl _
    · exact prefix_refl _
    · exact h
  · intro r hr
    simp only [smallZone, mem_cons, not_mem_nil, or_false] at hr
    rcases hr with rfl | rfl | rfl <;> rfl

lemma smallZone_uncut (hzone : ZoneRecords smallSigner.owner (smallZone host))
    (x : Path) : ¬(zoneOf hzone).IsCut x := by
  rintro ⟨hne, r, hr, hns, rfl⟩
  simp only [smallZone, mem_cons, not_mem_nil, or_false] at hr
  rcases hr with rfl | rfl | rfl
  · exact absurd hns (by decide)
  · exact hne rfl
  · exact absurd hns (show RecordType.A ≠ .NS by decide)

lemma smallZone_authoritative
    (hzone : ZoneRecords smallSigner.owner (smallZone host)) (x : Path) (t : RecordType) :
    Authoritative (zoneOf hzone) x t :=
  ⟨fun ⟨d, hcut, _⟩ => smallZone_uncut hzone d hcut,
    fun hcut => absurd hcut (smallZone_uncut hzone x)⟩

theorem signed_zone_convinces_host :
    Convinces smallEnv
      (signZoneWith smallEnv.digest id (smallZone smallHost) smallSigner .nsec 5000)
      smallOrigin 5000 smallHost .A := by
  have hzone : ZoneRecords smallSigner.owner (smallZone smallHost) := smallZone_records (by decide)
  have hne : Forward.sectionRecords
      (signZoneWith smallEnv.digest id (smallZone smallHost) smallSigner .nsec 5000) smallHost
      .A ≠ [] := by
    decide +kernel
  exact ((signed_zone_convinces smallEnv_verifies hzone smallHost .A (by decide) hne).1
    (smallZone_authoritative hzone _ _)).mpr
    ⟨by decide, fun h => absurd h.1 (by decide)⟩

/-- An asterisk inside a name is left out of the label count too. -/
theorem inner_star_uncounted :
    ¬∀ (env : Env) (sha1 : Bytes → Bytes) (records : List Record) (signer : ZoneSigner)
      (mode : DenialMode) (now : ℕ) (hzone : ZoneRecords signer.owner records) (owner : Name)
      (rtype : RecordType), Verifies env signer → rtype ≠ .RRSIG →
      Forward.sectionRecords (signZoneWith env.digest sha1 records signer mode now) owner rtype ≠
        [] →
      (Authoritative (zoneOf hzone) owner.path rtype →
        Convinces env (signZoneWith env.digest sha1 records signer mode now) signer.owner now owner
          rtype) ∧
      (¬Authoritative (zoneOf hzone) owner.path rtype →
        Forward.coveringRrsigs (signZoneWith env.digest sha1 records signer mode now) owner rtype =
          []) := by
  intro h
  have hzone : ZoneRecords smallSigner.owner (smallZone smallStarHost) :=
    smallZone_records (by decide)
  have hconvinces := (h smallEnv id (smallZone smallStarHost) smallSigner .nsec 5000 hzone
    smallStarHost .A smallEnv_verifies (by decide) (by decide +kernel)).1
    (smallZone_authoritative hzone _ _)
  have hlabels : (Forward.coveringRrsigs
      (signZoneWith smallEnv.digest id (smallZone smallStarHost) smallSigner .nsec 5000)
      smallStarHost .A).map (fun sig => sig.labels) = [2] := by
    decide +kernel
  obtain ⟨sig, hsig, htwo⟩ := mem_map.mp (hlabels ▸ mem_singleton_self (2 : UInt8))
  have hcount := hconvinces.labels sig hsig
  rw [htwo] at hcount
  exact absurd hcount (by decide)

end OnetDns.Dnssec
