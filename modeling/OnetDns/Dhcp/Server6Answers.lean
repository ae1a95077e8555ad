import OnetDns.Dhcp.Lease6Operations
import OnetDns.Dhcp.Server6

/-!
# What a DHCPv6 answer grants

The options of an answer read back: which addresses they give to which association. Then the loop
over the associations of a message, each of which is answered from what the pool has for it.
-/
namespace OnetDns.Dhcp6
open List Option Lease6Pool

open BigEndian (encode decode decode_encode)

variable {p p' : Lease6Pool} {d : Duid} {i j : Iaid} {ip x now : ℕ} {o : Dhcp6Option}
  {msgType : UInt8} {cfg : Dhcp6Config} {clock : ℕ → ℕ}

/-- An option gives an address to an association. -/
def Grants (o : Dhcp6Option) (i : Iaid) (x : ℕ) : Prop :=
  o.1 = OPT_IA_NA ∧ ∃ ia, parseIaNa o.2 = some ia ∧ ia.iaid = i ∧ ia.containsAddress x = true

lemma nestedOptions_single (code : UInt16) (data : List UInt8) (hlen : data.length < 2 ^ 16) :
    nestedOptions (encode 2 code.toNat ++ encode 2 data.length ++ data) = some [(code, data)] := by
  have hcode : decode (encode 2 code.toNat) = code.toNat := decode_encode code.toNat_lt
  have hdata : decode (encode 2 data.length) = data.length := decode_encode hlen
  simp only [encode] at hcode hdata
  simp only [nestedOptions, encode, cons_append, nil_append, length_cons, splitLoop,
    splitOption, hcode, hdata, le_refl, if_true, take_length, drop_length,
    bind_eq_bind, bind_some, UInt16.ofNat_toNat]

lemma iaid_eq (i : Iaid) : ∃ a b c e : UInt8, i = #v[a, b, c, e] ∧ i.toList = [a, b, c, e] := by
  obtain ⟨⟨l⟩, hl⟩ := i
  rcases l with _ | ⟨a, _ | ⟨b, _ | ⟨c, _ | ⟨e, _ | ⟨f, l⟩⟩⟩⟩⟩ <;>
    simp only [List.size_toArray, length_cons, length_nil] at hl
  all_goals first | exact ⟨a, b, c, e, rfl, rfl⟩ | omega

/-- An association with one option is read back. -/
theorem parseIaNa_single (i : Iaid) (times : List UInt8) (htimes : times.length = 8) (code : UInt16)
    (data : List UInt8) (hlen : data.length < 2 ^ 16) (hvalid : validIaAddr (code, data) = true) :
    parseIaNa (i.toList ++ times ++ (encode 2 code.toNat ++ encode 2 data.length ++ data)) =
      some ⟨i, [(code, data)]⟩ := by
  obtain ⟨a, b, c, e, rfl, hlist⟩ := iaid_eq i
  rw [hlist]
  simp only [cons_append, nil_append, parseIaNa]
  rw [← htimes, drop_left, nestedOptions_single code data hlen]
  simp [hvalid]

lemma grants_iaNaOption (t1 t2 lease : UInt32) (hip : ip < 2 ^ 128) :
    Grants (iaNaOption i t1 t2 ip lease) j x ↔ i = j ∧ ip = x := by
  set data := encode 16 ip ++ encode 4 lease.toNat ++ encode 4 lease.toNat with hdata
  have hlen : data.length = 24 := by simp [hdata]
  have hvalid : validIaAddr (OPT_IA_ADDR, data) = true := by
    have hdrop : data.drop 24 = [] := drop_eq_nil_of_le (by omega)
    simp [validIaAddr, hlen, hdrop, validNestedOptions, nestedOptions, splitLoop]
  have hparse := parseIaNa_single i (encode 4 t1.toNat ++ encode 4 t2.toNat) (by simp) OPT_IA_ADDR
    data (by omega) hvalid
  have haddress : addressOf (OPT_IA_ADDR, data) = some ip := by
    have htake : data.take 16 = encode 16 ip := by
      rw [hdata, append_assoc]
      exact take_left' (by simp)
    have hdecode : decode (encode 16 ip) = ip := decode_encode (by norm_num; omega)
    simp [addressOf, htake, hdecode]
  have hcontent : (iaNaOption i t1 t2 ip lease).2 = i.toList ++ (encode 4 t1.toNat ++
      encode 4 t2.toNat) ++ (encode 2 OPT_IA_ADDR.toNat ++ encode 2 data.length ++ data) := by
    simp [iaNaOption, iaAddrOption, hdata]
  rw [Grants, hcontent, hparse]
  simp [iaNaOption, ParsedIaNa.containsAddress, haddress]

lemma not_grants_status (code : UInt16) : ¬Grants (iaNaStatusOption i code) j x := by
  have hlen : (encode 2 code.toNat).length = 2 := by simp
  have hparse := parseIaNa_single i (replicate 8 0) (by simp) OPT_STATUS_CODE
    (encode 2 code.toNat) (by omega) (by simp [validIaAddr, OPT_STATUS_CODE, OPT_IA_ADDR])
  have hcontent : (iaNaStatusOption i code).2 = i.toList ++ replicate 8 0 ++
      (encode 2 OPT_STATUS_CODE.toNat ++ encode 2 (encode 2 code.toNat).length ++
        encode 2 code.toNat) := by
    simp [iaNaStatusOption]
  rw [Grants, hcontent, hparse]
  simp [ParsedIaNa.containsAddress, addressOf, OPT_STATUS_CODE, OPT_IA_ADDR]

lemma not_grants_code (h : o.1 ≠ OPT_IA_NA) : ¬Grants o j x := fun hgrants => h hgrants.1

/-- The pool has the address for the association; a lease is renewed only if it is a lease. -/
def HeldFor (msgType : UInt8) (p : Lease6Pool) (d : Duid) (i : Iaid) (x : ℕ) : Prop :=
  ∃ b e, p.stored (b, d, i) = some (x, e) ∧ (msgType = RENEW → b = .leases)

lemma offeredAddress_held (h : p.offeredAddress d i now = some x) : HeldFor REQUEST p d i x := by
  rcases or_eq_some_iff.mp h with h | ⟨-, h⟩
  · obtain ⟨e, he, -⟩ := IaMap.unexpired_eq_some.mp h
    exact ⟨.offers, e, he, by simp [REQUEST, RENEW]⟩
  · obtain ⟨e, he, -⟩ := IaMap.unexpired_eq_some.mp h
    exact ⟨.leases, e, he, fun _ => rfl⟩

lemma leasedAddress_held (h : p.leasedAddress d i now = some x) : HeldFor msgType p d i x := by
  obtain ⟨e, he, -⟩ := IaMap.unexpired_eq_some.mp h
  exact ⟨.leases, e, he, fun _ => rfl⟩

lemma HeldFor.lt (h : HeldFor msgType p d i x) (hp : p.Sound) : x < 2 ^ 128 := by
  obtain ⟨b, e, he, -⟩ := h
  exact (hp.inRange _ _ he).2.trans_lt hp.stop_lt

/-- What an answer to one association is: an option that grants what was held and is leased now,
or one that grants nothing. -/
structure Answered (msgType : UInt8) (p p' : Lease6Pool) (d : Duid) (i : Iaid) (now : ℕ)
    (o : Dhcp6Option) : Prop where
  operated : p.Operated p' d i now
  grants : ∀ j x, Grants o j x → j = i ∧ HeldFor msgType p d i x ∧
    p'.stored (.leases, d, i) = some (x, leaseExpiry now p.leaseSecs)

/-- The answer where an address was found, and was or was not leased. -/
theorem answered_of_done {done : Bool} (hp : p.Sound) (hheld : HeldFor msgType p d i ip)
    (hop : p.Operated p' d i now)
    (hdone : done = true → p'.stored (.leases, d, i) = some (ip, leaseExpiry now p.leaseSecs))
    (t1 t2 lease : UInt32) (status : UInt16) : Answered msgType p p' d i now
      (if done then iaNaOption i t1 t2 ip lease else iaNaStatusOption i status) := by
  refine ⟨hop, fun j x hgrants => ?_⟩
  cases done with
  | false => exact absurd hgrants (not_grants_status status)
  | true =>
    obtain ⟨rfl, rfl⟩ := (grants_iaNaOption t1 t2 lease (hheld.lt hp)).mp hgrants
    exact ⟨rfl, hheld, hdone rfl⟩

lemma answered_refused (hp : p.Sound) (status : UInt16) :
    Answered msgType p p d i now (iaNaStatusOption i status) :=
  ⟨.refl hp, fun _ _ hgrants => absurd hgrants (not_grants_status status)⟩

lemma answerIa_granting (hp : p.Sound) (htype : msgType = REQUEST ∨ msgType = RENEW)
    (cfg : Dhcp6Config) (d : Duid) (ia : ParsedIaNa) (now first second : ℕ) :
    ∃ o p', answerIa msgType cfg d ia now first second p = some (some [o], p') ∧
      Answered msgType p p' d ia.iaid first o := by
  rcases htype with rfl | rfl
  · rw [answerIa]
    simp only [show REQUEST ≠ SOLICIT by decide]
    cases hfound : (p.offeredAddress d ia.iaid now).filter ia.containsAddress with
    | none => exact ⟨_, p, rfl, answered_refused hp _⟩
    | some offered =>
      have hheld := offeredAddress_held (filter_eq_some_iff.mp hfound).1
      obtain ⟨done, p', hp', hop, hdone⟩ := commitInner_spec hp d ia.iaid offered true first
      refine ⟨_, p', ?_, answered_of_done hp hheld hop hdone (renewalTimers cfg.leaseSecs).1
        (renewalTimers cfg.leaseSecs).2 cfg.leaseSecs STATUS_NO_BINDING⟩
      simp [Lease6Pool.commitOffer, hp']
  rw [answerIa]
  simp only [show RENEW ≠ SOLICIT by decide, show RENEW ≠ REQUEST by decide]
  cases hfound : (p.leasedAddress d ia.iaid now).filter ia.containsAddress with
  | none => exact ⟨_, p, rfl, answered_refused hp _⟩
  | some leased =>
    have hheld : HeldFor RENEW p d ia.iaid leased :=
      leasedAddress_held (filter_eq_some_iff.mp hfound).1
    obtain ⟨done, p', hp', hop, hdone⟩ := renew_spec hp d ia.iaid leased first
    refine ⟨_, p', ?_, answered_of_done hp hheld hop hdone (renewalTimers cfg.leaseSecs).1
      (renewalTimers cfg.leaseSecs).2 cfg.leaseSecs STATUS_NO_BINDING⟩
    simp [hp']

/-- Whatever the message is, the pool is sound after one association. -/
theorem answerIa_sound (hp : p.Sound) (msgType : UInt8) (cfg : Dhcp6Config) (d : Duid)
    (ia : ParsedIaNa) (now first second : ℕ) :
    ∃ r p', answerIa msgType cfg d ia now first second p = some (r, p') ∧ p'.Sound := by
  by_cases hsolicit : msgType = SOLICIT
  · obtain ⟨picked, p₁, hp₁, hop⟩ := allocate_spec hp d ia.iaid first
    rw [answerIa]
    simp only [hsolicit, hp₁, bind_eq_bind, bind_some]
    cases picked with
    | none => exact ⟨_, p₁, rfl, hop.sound⟩
    | some ip =>
      obtain ⟨held, p', hp', hop'⟩ := holdOffer_spec hop.sound d ia.iaid ip second
      simp only [hp']
      exact ⟨_, p', rfl, hop'.sound⟩
  by_cases hgranting : msgType = REQUEST ∨ msgType = RENEW
  · obtain ⟨o, p', hp', hanswered⟩ := answerIa_granting hp hgranting cfg d ia now first second
    exact ⟨_, p', hp', hanswered.operated.sound⟩
  obtain ⟨hrequest, hrenew⟩ := not_or.mp hgranting
  rw [answerIa]
  simp only [hsolicit, hrequest, hrenew, if_false]
  split
  · cases (p.leasedAddress d ia.iaid now).filter ia.containsAddress with
    | none => exact ⟨_, p, rfl, hp⟩
    | some leased =>
      obtain ⟨done, p', hp', hop⟩ := releaseAddress_spec hp d ia.iaid leased first
      simp only [hp']
      exact ⟨_, p', rfl, hop.sound⟩
  · exact ⟨none, p, rfl, hp⟩

end OnetDns.Dhcp6
