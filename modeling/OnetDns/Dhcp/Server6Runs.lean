import OnetDns.Dhcp.Server6Answers

/-!
# Runs of the DHCPv6 server

Whatever messages come, whenever the configuration changes and whatever the clock says, the pool is
sound, and a reply grants to an association only the address that the pool has for it.
-/
namespace OnetDns.Dhcp6
open List Option

variable {p p' p'' : Lease6Pool} {d : Duid} {i j : Iaid} {x n last last' now : ℕ}
  {o : Dhcp6Option} {msgType : UInt8} {cfg : Dhcp6Config} {clock : ℕ → ℕ}
  {data : List UInt8} {datas : List (List UInt8)} {options : List Dhcp6Option}

/-- An address that a reply grants. The pool had it for the association before; after that it is
leased to it, unless the lease was over at a later reading of the clock. -/
structure Granted (msgType : UInt8) (p p' : Lease6Pool) (clock : ℕ → ℕ) (last : ℕ) (d : Duid)
    (i : Iaid) (x : ℕ) : Prop where
  held : HeldFor msgType p d i x
  leased : ∃ k, k < last ∧ (∀ w, p'.stored (.leases, d, i) = some w →
      w = (x, leaseExpiry (clock k) p.leaseSecs)) ∧
    (p'.stored (.leases, d, i) = some (x, leaseExpiry (clock k) p.leaseSecs) ∨
      ∃ l, k < l ∧ l < last ∧ leaseExpiry (clock k) p.leaseSecs ≤ clock l)

/-- Another association is answered. -/
theorem Granted.step (h : Granted msgType p p' clock last d i x) (hop : p'.Operated p'' d j (clock n))
    (hij : i ≠ j) (hfrom : last ≤ n) (hto : n < last') : Granted msgType p p'' clock last' d i x := by
  have hne : (d, i) ≠ (d, j) := fun heq => hij (congrArg Prod.snd heq)
  obtain ⟨k, hk, honly, hleft⟩ := h.leased
  refine ⟨h.held, k, by omega, fun w hw => honly w (hop.of_stored _ _ w hne hw), ?_⟩
  rcases hleft with hleft | ⟨l, hkl, hl, hover⟩
  · rcases hop.stays _ _ _ hne hleft with hstays | hover
    · exact .inl hstays
    · exact .inr ⟨n, by omega, hto, hover⟩
  · exact .inr ⟨l, hkl, by omega, hover⟩

lemma Answered.granted (h : Answered msgType p' p'' d i (clock n) o)
    (hsame : ∀ b w, p'.stored (b, d, i) = some w → p.stored (b, d, i) = some w)
    (hsecs : p'.leaseSecs = p.leaseSecs) (hn : n < last) (hgrants : Grants o j x) :
    j = i ∧ Granted msgType p p'' clock last d j x := by
  obtain ⟨rfl, ⟨b, e, he, hb⟩, hnew⟩ := h.grants j x hgrants
  rw [hsecs] at hnew
  refine ⟨rfl, ⟨b, e, hsame b _ he, hb⟩, n, hn, fun w hw => ?_, .inl hnew⟩
  rw [hnew] at hw
  exact (some.inj hw).symm

/-- The names of associations that are well formed. -/
def iaids (datas : List (List UInt8)) : List Iaid :=
  datas.filterMap fun data => (parseIaNa data).map (·.iaid)

lemma iaids_cons {ia : ParsedIaNa} (h : parseIaNa data = some ia) :
    iaids (data :: datas) = ia.iaid :: iaids datas := by
  rw [iaids, filterMap_cons, h]
  rfl

/-- Where the loop is: nothing was done yet for the associations that are left, and what was granted
to the others is theirs. -/
structure Progress (msgType : UInt8) (p₀ p : Lease6Pool) (d : Duid) (clock : ℕ → ℕ) (n : ℕ)
    (rest : List Iaid) (options : List Dhcp6Option) : Prop where
  sound : p.Sound
  leaseSecs : p.leaseSecs = p₀.leaseSecs
  untouched : ∀ i ∈ rest, ∀ b w, p.stored (b, d, i) = some w → p₀.stored (b, d, i) = some w
  granted : ∀ o ∈ options, ∀ i x, Grants o i x → i ∉ rest ∧ Granted msgType p₀ p clock (2 * n) d i x

lemma Progress.step {p₀ : Lease6Pool} {rest : List Iaid}
    (h : Progress msgType p₀ p d clock n (i :: rest) options) (hi : i ∉ rest)
    (hanswered : Answered msgType p p' d i (clock (2 * n + 1)) o) :
    Progress msgType p₀ p' d clock (n + 1) rest (options ++ [o]) := by
  have hop := hanswered.operated
  refine ⟨hop.sound, hop.leaseSecs.trans h.leaseSecs, fun j hj b w hw => ?_,
    fun o' ho' j x hgrants => ?_⟩
  · have hne : (d, j) ≠ (d, i) := by
      rintro heq
      obtain rfl : j = i := congrArg Prod.snd heq
      exact hi hj
    exact h.untouched j (mem_cons_of_mem i hj) b w (hop.of_stored b _ w hne hw)
  rcases mem_append.mp ho' with ho' | ho'
  · obtain ⟨hj, hgranted⟩ := h.granted o' ho' j x hgrants
    obtain ⟨hji, hj⟩ := not_or.mp (mt mem_cons.mpr hj)
    exact ⟨hj, hgranted.step hop hji (by omega) (by omega)⟩
  · obtain rfl := mem_singleton.mp ho'
    obtain ⟨rfl, hgranted⟩ := hanswered.granted (h.untouched i mem_cons_self) h.leaseSecs
      (show 2 * n + 1 < 2 * (n + 1) by omega) hgrants
    exact ⟨hi, hgranted⟩

lemma handleIas_sound (hp : p.Sound) (msgType : UInt8) (cfg : Dhcp6Config) (d : Duid)
    (clock : ℕ → ℕ) (n : ℕ) (datas : List (List UInt8)) (options : List Dhcp6Option) :
    ∃ r p', handleIas msgType cfg d clock n datas options p = some (r, p') ∧ p'.Sound := by
  induction datas generalizing p n options with
  | nil => exact ⟨_, p, rfl, hp⟩
  | cons data datas ih =>
    rw [handleIas]
    cases parseIaNa data with
    | none => exact ⟨none, p, rfl, hp⟩
    | some ia =>
      obtain ⟨r, p₁, hp₁, hsound⟩ := answerIa_sound hp msgType cfg d ia (clock 0)
        (clock (2 * n + 1)) (clock (2 * n + 2))
      simp only [hp₁]
      cases r with
      | none => exact ⟨none, p₁, rfl, hsound⟩
      | some response => exact ih hsound (n + 1) (options ++ response)

lemma handleIas_granted {p₀ : Lease6Pool} (htype : msgType = REQUEST ∨ msgType = RENEW)
    (hnodup : (iaids datas).Nodup) (h : Progress msgType p₀ p d clock n (iaids datas) options)
    {options' : List Dhcp6Option}
    (hrun : handleIas msgType cfg d clock n datas options p = some (some options', p'))
    (ho : o ∈ options') (hgrants : Grants o i x) :
    Granted msgType p₀ p' clock (2 * (n + datas.length)) d i x := by
  induction datas generalizing p n options with
  | nil =>
    obtain ⟨hoptions, rfl⟩ := Prod.mk.inj (some.inj hrun)
    obtain rfl := some.inj hoptions
    exact (h.granted o ho i x hgrants).2
  | cons data datas ih =>
    rw [handleIas] at hrun
    cases hparse : parseIaNa data with
    | none =>
      rw [hparse] at hrun
      cases hrun
    | some ia =>
      obtain ⟨o₁, p₁, hp₁, hanswered⟩ := answerIa_granting h.sound htype cfg d ia (clock 0)
        (clock (2 * n + 1)) (clock (2 * n + 2))
      simp only [hparse, hp₁] at hrun
      rw [iaids_cons hparse] at h hnodup
      obtain ⟨hnotin, hnodup⟩ := nodup_cons.mp hnodup
      have hlength : n + (data :: datas).length = n + 1 + datas.length := by
        rw [length_cons]
        omega
      rw [hlength]
      exact ih hnodup (h.step hnotin hanswered) hrun

/-- A message whose associations are accepted names each of them once. -/
theorem validateLoop_nodup {maxCount : ℕ} {seen seen' : List Iaid} (hseen : seen.Nodup)
    (h : validateLoop maxCount datas seen = some seen') :
    (iaids datas).Nodup ∧ ∀ i ∈ iaids datas, i ∉ seen := by
  induction datas generalizing seen with
  | nil => exact ⟨nodup_nil, by simp [iaids]⟩
  | cons data datas ih =>
    obtain ⟨ia, hia, h⟩ := bind_eq_some_iff.mp h
    split at h
    · cases h
    rename_i hnew
    obtain ⟨-, hnotin⟩ := not_or.mp hnew
    obtain ⟨hnodup, hapart⟩ := ih (nodup_cons.mpr ⟨hnotin, hseen⟩) h
    rw [iaids_cons hia]
    refine ⟨nodup_cons.mpr ⟨fun hin => hapart _ hin mem_cons_self, hnodup⟩, ?_⟩
    intro i hi
    rcases mem_cons.mp hi with rfl | hi
    · exact hnotin
    · exact fun hin => hapart i hi (mem_cons_of_mem _ hin)

lemma accept_some {req : Dhcp6Message} (h : accept req cfg = some d) :
    req.option OPT_CLIENT_ID = some d ∧ (iaids req.iaNas).Nodup := by
  obtain ⟨clientId, hclient, h⟩ := bind_eq_some_iff.mp h
  split at h
  · cases h
  obtain ⟨maxIas, -, h⟩ := bind_eq_some_iff.mp h
  obtain ⟨count, hcount, h⟩ := bind_eq_some_iff.mp h
  obtain rfl := some.inj h
  obtain ⟨seen, hseen, -⟩ := bind_eq_some_iff.mp hcount
  exact ⟨hclient, (validateLoop_nodup nodup_nil hseen).1⟩

lemma handle_sound (hp : p.Sound) (req : Dhcp6Message) (cfg : Dhcp6Config) (clock : ℕ → ℕ) :
    ∃ reply p', handle req p cfg clock = some (reply, p') ∧ p'.Sound := by
  rw [handle]
  split
  · exact ⟨_, p, rfl, hp⟩
  cases accept req cfg with
  | none => exact ⟨none, p, rfl, hp⟩
  | some d =>
    obtain ⟨r, p', hrun, hsound⟩ := handleIas_sound hp req.msgType cfg d clock 0 req.iaNas
      [(OPT_CLIENT_ID, d), (OPT_SERVER_ID, cfg.serverDuid)]
    simp only [hrun]
    exact ⟨_, p', rfl, hsound⟩

lemma not_grants_dns (ho : o ∈ dnsOption cfg) : ¬Grants o i x := by
  rw [dnsOption] at ho
  split at ho
  · cases ho
  · obtain rfl := mem_singleton.mp ho
    exact not_grants_code (by simp [OPT_DNS_SERVERS, OPT_IA_NA])

lemma not_grants_first (ho : o ∈ [(OPT_CLIENT_ID, d), (OPT_SERVER_ID, cfg.serverDuid)]) :
    ¬Grants o i x := by
  rcases mem_cons.mp ho with rfl | ho
  · exact not_grants_code (by simp [OPT_CLIENT_ID, OPT_IA_NA])
  · obtain rfl := mem_singleton.mp ho
    exact not_grants_code (by simp [OPT_SERVER_ID, OPT_IA_NA])

lemma handle_granted {req reply : Dhcp6Message} (hp : p.Sound)
    (htype : req.msgType = REQUEST ∨ req.msgType = RENEW)
    (hrun : handle req p cfg clock = some (some reply, p')) (ho : o ∈ reply.options)
    (hgrants : Grants o i x) : ∃ d, req.option OPT_CLIENT_ID = some d ∧
      Granted req.msgType p p' clock (2 * req.iaNas.length) d i x := by
  rw [handle] at hrun
  have hother : req.msgType ≠ INFORMATION_REQUEST ∧ req.msgType ≠ RELEASE := by
    rcases htype with htype | htype <;> rw [htype] <;> decide
  rw [if_neg hother.1] at hrun
  cases haccept : accept req cfg with
  | none =>
    rw [haccept] at hrun
    cases hrun
  | some d =>
    obtain ⟨hclient, hnodup⟩ := accept_some haccept
    obtain ⟨r, p₁, hrun₁, -⟩ := handleIas_sound hp req.msgType cfg d clock 0 req.iaNas
      [(OPT_CLIENT_ID, d), (OPT_SERVER_ID, cfg.serverDuid)]
    simp only [haccept, hrun₁] at hrun
    obtain ⟨hreply, rfl⟩ := Prod.mk.inj (some.inj hrun)
    obtain ⟨options, rfl, rfl⟩ := map_eq_some_iff.mp hreply
    refine ⟨d, hclient, ?_⟩
    have hmem : o ∈ options := by
      rw [if_neg hother.2] at ho
      exact (mem_append.mp ho).resolve_right fun hdns => not_grants_dns hdns hgrants
    have hstart : Progress req.msgType p p d clock 0 (iaids req.iaNas)
        [(OPT_CLIENT_ID, d), (OPT_SERVER_ID, cfg.serverDuid)] :=
      ⟨hp, rfl, fun _ _ _ _ hw => hw, fun o ho i x hgrants => absurd hgrants (not_grants_first ho)⟩
    have hgranted := handleIas_granted htype hnodup hstart hrun₁ hmem hgrants
    rwa [zero_add] at hgranted

/-- The same entries, passed over in another order. -/
structure IaMap.Reordered (m m' : IaMap) : Prop where
  primary : m'.primary.entries.Perm m.primary.entries
  additional : m'.additional.entries.Perm m.additional.entries

/-- The pools that a server can have: a new one, with any lease file, and what messages and other
configurations make of it, while the clock says anything. The entries of a map are in no particular
order. -/
inductive Reachable : Lease6Pool → Prop
  | new (cfg : Dhcp6Config) (file : ℕ) (lines : List (Option LeaseLine)) (now : ℕ)
      {p : Lease6Pool} : Lease6Pool.new cfg file lines now = some p → Reachable p
  | handle (req : Dhcp6Message) (cfg : Dhcp6Config) (clock : ℕ → ℕ) {p p' : Lease6Pool}
      {reply : Option Dhcp6Message} :
      Reachable p → handle req p cfg clock = some (reply, p') → Reachable p'
  | reconfigure (cfg : Dhcp6Config) (now : ℕ) {p p' : Lease6Pool} :
      Reachable p → p.reconfigure cfg now = some p' → Reachable p'
  | reorder {p : Lease6Pool} {leases offers : IaMap} : Reachable p →
      p.leases.Reordered leases → p.offers.Reordered offers →
      Reachable { p with leases := leases, offers := offers }

namespace IaMap.Reordered

variable {m m' : IaMap}

section

variable (h : m.Reordered m')
include h

lemma primary_lookup (d : Duid) : m'.primary.lookup d = m.primary.lookup d :=
  AList.perm_lookup h.primary

lemma additionalAt_eq (d : Duid) (i : Iaid) :
    additionalAt m'.additional d i = additionalAt m.additional d i :=
  bind_congr fun _ _ => AList.perm_lookup h.additional

lemma lookup_eq (k : Duid × Iaid) : m'.lookup k = m.lookup k :=
  lookup_congr (h.primary_lookup k.1) (h.additionalAt_eq k.1) k.2

lemma wellLinked (hm : m.WellLinked) : m'.WellLinked := by
  have hslots : ∀ d, additionalAt m'.additional d = additionalAt m.additional d :=
    fun d => funext (h.additionalAt_eq d)
  refine ⟨fun d first hd => ?_, fun d first hd => ?_, fun d hd i => ?_⟩
  · exact hm.fit d first (h.primary_lookup d ▸ hd)
  · rw [hslots]
    exact hm.chain d first (h.primary_lookup d ▸ hd)
  · rw [hslots]
    exact hm.orphan d (h.primary_lookup d ▸ hd) i

lemma len_eq : m'.len = m.len := by
  rw [len, len, h.primary.length_eq, h.additional.length_eq]

end

end IaMap.Reordered

lemma Reachable.sound (h : Reachable p) : p.Sound := by
  induction h with
  | new cfg file lines now hnew =>
    obtain ⟨p, hp, hsound⟩ := Lease6Pool.new_spec cfg file lines now
    obtain rfl := some.inj (hp.symm.trans hnew)
    exact hsound
  | handle req cfg clock _ hrun ih =>
    obtain ⟨reply, p', hp', hsound⟩ := handle_sound ih req cfg clock
    obtain ⟨-, rfl⟩ := Prod.mk.inj (some.inj (hp'.symm.trans hrun))
    exact hsound
  | reconfigure cfg now _ hrun ih =>
    obtain ⟨p', hp', hsound⟩ := Lease6Pool.reconfigure_spec ih cfg now
    obtain rfl := some.inj (hp'.symm.trans hrun)
    exact hsound
  | reorder _ hleases hoffers ih =>
    exact (ih.replace (hleases.wellLinked (ih.linked .leases)) (hoffers.wellLinked (ih.linked .offers))
      hleases.lookup_eq hoffers.lookup_eq hleases.len_eq.le hoffers.len_eq.le).1

/-- What the operations of a map do to what it has stored. None of them follows a link that leads
nowhere. -/
structure IaMap.ActsAsMap (m : IaMap) : Prop where
  get : ∀ d i, (m.get d i).map (fun v => (v.ip, v.expiry)) = m.lookup (d, i)
  insert : ∀ d v, ¬unfit d → ∃ old m', m.insert d v = some (old, m') ∧ m'.WellLinked ∧
    old.map (fun v => (v.ip, v.expiry)) = m.lookup (d, v.iaid) ∧
    ∀ k, m'.lookup k = if k = (d, v.iaid) then some (v.ip, v.expiry) else m.lookup k
  remove : ∀ d i, ∃ old m', m.remove d i = some (old, m') ∧ m'.WellLinked ∧
    old.map (fun v => (v.ip, v.expiry)) = m.lookup (d, i) ∧
    ∀ k, m'.lookup k = if k = (d, i) then none else m.lookup k
  removeExpired : ∀ now used, ∃ m' used', m.removeExpired now used = some (m', used') ∧
    m'.WellLinked ∧ (∀ k w, m'.lookup k = some w ↔ m.lookup k = some w ∧ now < w.2) ∧
    ∀ ip, ip ∈ used' ↔ ip ∈ used ∧ ∀ k w, m.lookup k = some w → w.2 ≤ now → w.1 ≠ ip
  retainValid : ∀ now start stop used, ∃ m' used',
    m.retainValid now start stop used = some (m', used') ∧ m'.WellLinked ∧
    (∀ k w, m'.lookup k = some w →
      m.lookup k = some w ∧ IaMap.valid now start stop w ∧ w.1 ∉ used) ∧
    (∀ k w, m.lookup k = some w → IaMap.valid now start stop w → m'.lookup k = some w ∨
      w.1 ∈ used ∨ ∃ k' w', k' ≠ k ∧ m'.lookup k' = some w' ∧ w'.1 = w.1) ∧
    (∀ k k' w w', m'.lookup k = some w → m'.lookup k' = some w' → w.1 = w'.1 → k = k') ∧
    ∀ ip, ip ∈ used' ↔ ip ∈ used ∨ ∃ k w, m'.lookup k = some w ∧ w.1 = ip

lemma IaMap.WellLinked.actsAsMap {m : IaMap} (h : m.WellLinked) : m.ActsAsMap := by
  refine ⟨fun _ _ => rfl, fun d v hfit => ?_, fun d i => ?_, fun now used => ?_,
    fun now start stop used => ?_⟩
  · obtain ⟨old, m', hrun, hins⟩ := insert_spec h hfit v
    exact ⟨old, m', hrun, hins.wellLinked, hins.old_eq, hins.lookup_eq⟩
  · obtain ⟨old, m', hrun, hrem⟩ := remove_spec h d i
    exact ⟨old, m', hrun, hrem.wellLinked, hrem.old_eq, hrem.lookup_eq⟩
  · obtain ⟨m', used', hrun, hwell, -, hlookup, hused⟩ := removeExpired_spec h now used
    exact ⟨m', used', hrun, hwell, hlookup, hused⟩
  · obtain ⟨m', used', hrun, hwell, -, hrest⟩ := retainValid_spec h now start stop used
    exact ⟨m', used', hrun, hwell, hrest⟩

/-- In every pool that can be reached both maps act as maps, and so does every map that they become;
the addresses in use are those of the entries, each of which has its own, in the range; there are
not more of them than the limit; the next expiry is not after theirs. No panic is met, and a reply
grants to an association what the pool has for it. -/
theorem lease6_pool_integrity (h : Reachable p) :
    (∀ m : IaMap, m.WellLinked → m.ActsAsMap) ∧ p.Sound ∧
      (∀ ks : List (Book × Duid × Iaid), ks.Nodup → (∀ k ∈ ks, (p.stored k).isSome) →
        ks.length ≤ MAX_LEASES) ∧
      (∀ cfg file lines now, ∃ p', Lease6Pool.new cfg file lines now = some p') ∧
      (∀ cfg now, ∃ p', p.reconfigure cfg now = some p') ∧
      ∀ req cfg clock, ∃ reply p', handle req p cfg clock = some (reply, p') ∧
        ((req.msgType = REQUEST ∨ req.msgType = RENEW) → ∀ r, reply = some r →
          ∀ o ∈ r.options, ∀ i x, Grants o i x → ∃ d, req.option OPT_CLIENT_ID = some d ∧
            Granted req.msgType p p' clock (2 * req.iaNas.length) d i x) := by
  have hp := h.sound
  refine ⟨fun m hm => hm.actsAsMap, hp, fun ks hnodup hks => hp.length_le hnodup hks,
    fun cfg file lines now => ?_, fun cfg now => ?_, fun req cfg clock => ?_⟩
  · obtain ⟨p', hrun, -⟩ := Lease6Pool.new_spec cfg file lines now
    exact ⟨p', hrun⟩
  · obtain ⟨p', hrun, -⟩ := Lease6Pool.reconfigure_spec hp cfg now
    exact ⟨p', hrun⟩
  · obtain ⟨reply, p', hrun, -⟩ := handle_sound hp req cfg clock
    refine ⟨reply, p', hrun, ?_⟩
    rintro htype r rfl o ho i x hgrants
    exact handle_granted hp htype hrun ho hgrants

def smallConfig : Dhcp6Config := {
  serverDuid := [0, 1, 9]
  rangeStart := 16
  rangeStop := 31
  dns := []
  leaseSecs := 60 }

def smallLines : List (Option LeaseLine) :=
  [some ⟨[0, 1, 7], #v[0, 0, 0, 1], 17, 10⟩, some ⟨[0, 1, 7], #v[0, 0, 0, 2], 18, 10⟩,
    some ⟨[0, 1, 7], #v[0, 0, 0, 3], 19, 10⟩]

/-- The client renews the second of its associations. -/
def smallRenewal : Dhcp6Message := {
  msgType := RENEW
  txid := #v[1, 2, 3]
  options := [(OPT_CLIENT_ID, [0, 1, 7]), (OPT_SERVER_ID, [0, 1, 9]),
    iaNaOption #v[0, 0, 0, 2] 0 0 18 0] }

def smallReply : Dhcp6Message := {
  msgType := REPLY
  txid := #v[1, 2, 3]
  options := [(OPT_CLIENT_ID, [0, 1, 7]), (OPT_SERVER_ID, [0, 1, 9]),
    iaNaOption #v[0, 0, 0, 2] 30 48 18 60] }

theorem lease6_pool_integrity_renewal :
    ∃ p p', Lease6Pool.new smallConfig 5 smallLines 5 = some p ∧
      handle smallRenewal p smallConfig (fun _ => 6) = some (some smallReply, p') ∧
      Granted RENEW p p' (fun _ => 6) 2 [0, 1, 7] #v[0, 0, 0, 2] 18 := by
  have hrun : ((Lease6Pool.new smallConfig 5 smallLines 5).bind fun p =>
      (handle smallRenewal p smallConfig fun _ => 6).map Prod.fst) = some (some smallReply) := by
    decide +kernel
  obtain ⟨p, hnew, hrun⟩ := bind_eq_some_iff.mp hrun
  obtain ⟨⟨reply, p'⟩, hhandle, hreply⟩ := map_eq_some_iff.mp hrun
  obtain rfl : reply = some smallReply := hreply
  refine ⟨p, p', hnew, hhandle, ?_⟩
  obtain ⟨reply', p'', hhandle', hgranted⟩ :=
    (lease6_pool_integrity (.new smallConfig 5 smallLines 5 hnew)).2.2.2.2.2 smallRenewal smallConfig
      fun _ => 6
  obtain ⟨rfl, rfl⟩ := Prod.mk.inj (some.inj (hhandle'.symm.trans hhandle))
  obtain ⟨d, hd, hgranted⟩ := hgranted (.inr rfl) smallReply rfl
    (iaNaOption #v[0, 0, 0, 2] 30 48 18 60) (by simp [smallReply]) #v[0, 0, 0, 2] 18
    ((grants_iaNaOption 30 48 60 (by norm_num)).mpr ⟨rfl, rfl⟩)
  have hclient : smallRenewal.option OPT_CLIENT_ID = some [0, 1, 7] := by decide +kernel
  obtain rfl : [0, 1, 7] = d := some.inj (hclient.symm.trans hd)
  exact hgranted

end OnetDns.Dhcp6
