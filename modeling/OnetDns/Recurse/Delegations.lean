import OnetDns.Recurse.Walks

/-!
# Delegations and minimised names

An iteration over a tree that is served honestly returns what the zone that is authoritative
says, from whatever delegation of the cache it starts.
-/
namespace OnetDns.Recurse
open Dns Dnssec Runs List Bool Name IterationState

variable {tree : ZoneTree} {r : Recursor} {env : Env} {qname : Name} {qtype : RecordType}

/-- What the zone that is authoritative for a question says. -/
def ZoneTree.Answered (tree : ZoneTree) (qname : Name) (qtype : RecordType) (resp : Message) :
    Prop :=
  ∃ q : Name, q.path = qname.path ∧
    SameAnswer resp (tree.reply (tree.zoneFor qname.path qtype) q qtype)

open ZoneTree Recursor

/-- No two zones on the way to the authoritative one have a server in common. -/
def ZoneTree.Separate (tree : ZoneTree) (qname : Name) (qtype : RecordType) : Prop :=
  ∀ z ∈ tree.apexes, ∀ z' ∈ tree.apexes, z <+: tree.zoneFor qname.path qtype →
    z' <+: tree.zoneFor qname.path qtype → ∀ s ∈ tree.servers z, s ∈ tree.servers z' → z = z'

/-- What a zone says of a name that is missing, it says of the names below it. -/
def ZoneTree.MissingBelow (tree : ZoneTree) (qname : Name) (qtype : RecordType) : Prop :=
  ∀ z ∈ tree.apexes, ∀ m q : Name, z <+: m.path → m.path <+: qname.path → q.path = qname.path →
    (tree.reply z m .NS).header.rcode = rcodeNXDomain →
    SameAnswer (tree.reply z m .NS) (tree.reply z q qtype)

lemma ZoneTree.IsCut.card_cuts {z c p : Path} {qtype : RecordType} (h : tree.IsCut z c p qtype)
    {below : Path} (hbelow : c <+: below) : (tree.cuts c below).card + 1 = (tree.cuts z below).card := by
  have hlt : z.length < c.length :=
    lt_of_le_of_ne h.below.length_le fun heq => h.ne (h.below.eq_of_length heq)
  have hnot : c.length ∉ tree.cuts c below := by
    simp [cuts]
  have hinsert : tree.cuts z below = insert c.length (tree.cuts c below) := by
    ext k
    simp only [cuts, Finset.mem_filter, Finset.mem_Ioc, Finset.mem_insert]
    constructor
    · rintro ⟨⟨hk, hkb⟩, hapex⟩
      rcases lt_trichotomy k c.length with hkc | hkc | hkc
      · -- a shorter one would be the first
        have hpre : below.take k <+: c := by
          rw [prefix_iff_eq_take.mp hbelow]
          exact take_prefix_take_left hkc.le
        have hlen : (below.take k).length = k := by
          rw [length_take]
          omega
        have hz : z <+: below.take k := by
          rw [prefix_iff_eq_take.mp (h.below.trans hbelow)]
          exact take_prefix_take_left hk.le
        have hfirst := h.first _ hapex hz (fun heq => by rw [← heq] at hlen; omega) hpre
        rw [hfirst] at hlen
        omega
      · exact .inl hkc
      · exact .inr ⟨⟨hkc, hkb⟩, hapex⟩
    · rintro (rfl | ⟨⟨hk, hkb⟩, hapex⟩)
      · refine ⟨⟨hlt, hbelow.length_le⟩, ?_⟩
        rw [← prefix_iff_eq_take.mp hbelow]
        exact h.apex
      · exact ⟨⟨hlt.trans hk, hkb⟩, hapex⟩
  rw [hinsert, Finset.card_insert_of_notMem hnot]

/-- A state of an iteration that is on the way to the authoritative zone: names were minimised
past no cut. -/
structure OnWay (tree : ZoneTree) (r : Recursor) (qname : Name) (qtype : RecordType)
    (state : IterationState) : Prop extends AtZone tree r qname state where
  way : state.zone.path <+: tree.zoneFor qname.path qtype
  depth_le : state.depth ≤ qname.numLabels
  passed : state.minimize = true → ∀ c ∈ tree.apexes, state.zone.path <+: c →
    state.zone.path ≠ c → c <+: tree.zoneFor qname.path qtype → state.depth < c.length

def left (tree : ZoneTree) (qname : Name) (qtype : RecordType) (state : IterationState) : ℕ :=
  if state.minimize then qname.numLabels + 1 - state.depth
  else (tree.cuts state.zone.path (tree.zoneFor qname.path qtype)).card + 1

lemma OnWay.left_pos {state : IterationState} (h : OnWay tree r qname qtype state) :
    0 < left tree qname qtype state := by
  have hdepth := h.depth_le
  rw [left]
  split <;> omega

variable {servers : List SocketAddr} {zone : Name}

lemma onWay_start (minimize : Bool) (hzone : AtZone tree r qname (.start zone servers))
    (hway : zone.path <+: tree.zoneFor qname.path qtype) :
    OnWay tree r qname qtype { start zone servers with minimize := minimize } := by
  refine ⟨{ hzone with }, hway, ?_, fun _ c _ hbelow hne _ => ?_⟩
  · change zone.numLabels ≤ qname.numLabels
    rw [← path_length, ← path_length]
    exact hzone.above.length_le
  · change zone.numLabels < c.length
    rw [← path_length]
    exact lt_of_le_of_ne hbelow.length_le fun heq => hne (hbelow.eq_of_length heq)

variable {qt : RecordType} {q : Name}

/-- On the way, a server answers from the zone that it is asked for. -/
theorem serve_eq (htree : tree.Honest r) (hsep : tree.Separate qname qtype) {z : Path} {s : SocketAddr} (hz : z ∈ tree.apexes)
    (hway : z <+: tree.zoneFor qname.path qtype) (hs : s ∈ tree.servers z) (hzq : z <+: q.path)
    (hq : q.path <+: qname.path) (hqt : q.path = qname.path → qt = qtype) :
    tree.serve s q qt = tree.reply z q qt := by
  obtain ⟨z', hserve, hz', hs', hpre', hside⟩ := serve_spec qt hz hs hzq
  obtain ⟨-, hzone, hds, hmax⟩ := zoneFor_spec htree.root qname.path qtype
  have hway' : z' <+: tree.zoneFor qname.path qtype := by
    by_cases hnil : qname.path = []
    · have hz'nil := prefix_nil.mp (hnil ▸ hpre'.trans hq)
      rw [hz'nil]
      exact nil_prefix
    refine hmax z' hz' (hpre'.trans hq) fun hqtype heq => ?_
    -- the DS record of the name itself is asked of a zone above it
    have hqq : q.path = qname.path :=
      hq.eq_of_length (le_antisymm hq.length_le (heq ▸ hpre'.length_le))
    have hzne : z ≠ q.path := by
      intro hzeq
      have hlen := hway.length_le
      rw [hzeq, hqq] at hlen
      exact hds hqtype hnil (hzone.eq_of_length (le_antisymm hzone.length_le hlen))
    exact hside ((hqt hqq).trans hqtype) hzne (heq.trans hqq.symm)
  rw [hserve, hsep z hz z' hz' hway hway' s hs hs']

variable {resp : Message}

section Round

variable {state : IterationState} {w : World}

lemma delegStore_ends (zone : Name) (servers : List SocketAddr) (ttl : UInt32) :
    Ends w (r.delegStore env zone servers ttl) fun _ w' => w'.queries = w.queries := by
  rw [delegStore]
  split
  · exact .pure rfl
  · have hexpiry : ∀ ttl, Ends w (expiry env ttl) fun _ w' => w'.queries = w.queries :=
      fun _ => .bind (.modifyGet rfl) fun n w₁ (h : w₁.queries = w.queries) => .pure h
    exact (hexpiry _).bind fun expiresAt w₁ h => .modify h

def Followed (tree : ZoneTree) (r : Recursor) (state : IterationState) (zone : Name)
    (outcome : StepOutcome) : Prop :=
  ∃ state', outcome = .goOn state' ∧ state'.zone = zone ∧ state'.depth = zone.numLabels ∧
    state'.minimize = state.minimize ∧ tree.Serves r zone.path state'.servers

lemma finishReferral_ends {pending : PendingReferral}
    (hserves : tree.Serves r pending.zone.path pending.addrs) :
    Ends w (r.finishReferral env qname state pending) fun outcome w' =>
      w'.queries = w.queries ∧ Followed tree r state pending.zone outcome := by
  rw [finishReferral, if_neg hserves.shorten.1]
  refine .bind (.modify rfl) fun _ w₁ (h₁ : w₁.queries = w.queries) => ?_
  have hnext : ∀ w' : World, w'.queries = w.queries → w'.queries = w.queries ∧
      Followed tree r state pending.zone (.goOn { state with
        servers := (sortDedup SocketAddr.orderKey pending.addrs).take maxCachedNsAddrs
        chain := state.chain ++ [⟨pending.zone,
          (sortDedup SocketAddr.orderKey pending.addrs).take maxCachedNsAddrs, pending.nsNames⟩]
        depth := pending.zone.numLabels
        zone := pending.zone }) :=
    fun w' h => ⟨h, _, rfl, rfl, rfl, rfl, hserves.shorten⟩
  split
  · exact (delegStore_ends _ _ _).bind fun _ w₂ h₂ => .pure (hnext w₂ (h₂.trans h₁))
  · exact .pure (hnext w₁ h₁)

variable {plan : NextQuery}

/-- What `advance` does with a delegation. -/
theorem advance_referral {c : Path} (hreferral : tree.IsReferral r state.zone.path c resp)
    (hbelow : state.zone.path <+: c) (hne : state.zone.path ≠ c) (hc : c <+: qname.path) :
    Ends w (r.advance env qname qtype state resp plan) fun outcome w' =>
      w'.queries = w.queries ∧ ∃ zone : Name, zone.path = c ∧
        Followed tree r state zone outcome := by
  have hpositive : (plan.isFinal && isRelevantPositive resp qname qtype) = false := by
    rw [isRelevantPositive, hreferral.authoritative]
    simp
  have hyx : isDnameYxdomain resp qname = false := by
    rw [isDnameYxdomain, hreferral.rcode]
    rfl
  obtain ⟨nz, hext, hpath⟩ := hreferral.extract hc
  have hcloser : isCloser nz state.zone = true := by
    rw [isCloser, and_eq_true, decide_eq_true_eq, isWithin_path, ← path_length,
      ← path_length, hpath]
    exact ⟨lt_of_le_of_ne hbelow.length_le fun heq => hne (hbelow.eq_of_length heq), hbelow⟩
  have hwithin : isWithin qname nz = true := by
    rw [isWithin_path, hpath]
    exact hc
  have hserves := hreferral.serves (prefix_refl state.zone.path)
  rw [← hpath] at hserves
  rw [advance_seen, hreferral.seen_eq, hpositive, hyx, if_neg Bool.false_ne_true, if_neg Bool.false_ne_true,
    if_neg (by rw [hreferral.rcode]; decide), advanceReferral, hext]
  simp only [Option.filter_some, hcloser, hwithin, Bool.and_self, if_true]
  rw [if_neg fun hmissing => hserves.1 hmissing.2]
  exact (finishReferral_ends hserves).mono fun outcome w' h => ⟨h.1, nz, hpath, h.2⟩

lemma IsAuthoritative.seen_eq
    (h : IsAuthoritative zone.path q qt resp) (isFinal : Bool) : seen isFinal zone resp = resp := by
  rw [seen]
  split
  · have hfilter : resp.answers.filter (fun a => !isDname a || isWithin a.name zone) =
        resp.answers := by
      refine filter_eq_self.mpr fun a ha => ?_
      cases hdname : isDname a with
      | false => rfl
      | true =>
        rw [Bool.not_true, Bool.false_or, isWithin_path]
        exact h.dnames a ha hdname
    rw [stripOutOfBailiwickDnames, hfilter]
  · rfl

/-- Without an answer to the question, a zone says that there is none. -/
theorem IsAuthoritative.negative {m : Name}
    (h : IsAuthoritative zone.path q qt resp) (hpositive : isRelevantPositive resp q qt ≠ true)
    (hyx : isDnameYxdomain resp q ≠ true) (hm : zone.path <+: m.path) :
    isAuthoritativeNegative resp m zone = true ∧
      (resp.header.rcode = rcodeNXDomain ∨ resp.header.rcode = rcodeNoError) := by
  obtain ⟨hrcode, a, ha, htype, hclass, hname⟩ := (h.kind.resolve_left hpositive).resolve_left hyx
  refine ⟨?_, hrcode⟩
  rw [isAuthoritativeNegative, h.authoritative, Bool.true_and, hasRelevantSoa, and_eq_true,
    isWithin_path, any_eq_true]
  refine ⟨hm, a, ha, ?_⟩
  rw [and_eq_true, and_eq_true, decide_eq_true_eq, decide_eq_true_eq, eqIgnoreCase_path]
  exact ⟨⟨htype, hclass⟩, hname⟩

lemma rcode_of_isRelevantPositive
    (h : isRelevantPositive resp q qt = true) : resp.header.rcode = rcodeNoError := by
  rw [isRelevantPositive, and_eq_true, and_eq_true, and_eq_true] at h
  exact of_decide_eq_true h.1.1.1

lemma rcode_of_isDnameYxdomain
    (h : isDnameYxdomain resp q = true) : resp.header.rcode = rcodeYXDomain := by
  rw [isDnameYxdomain, and_eq_true, and_eq_true] at h
  exact of_decide_eq_true h.1.1

/-- What `advance` does with the word of a zone on the name itself. -/
theorem advance_final (hsaid : IsAuthoritative state.zone.path q qtype resp)
    (hq : q.path = qname.path) (hfinal : plan.isFinal = true)
    (hm : state.zone.path <+: plan.mname.path) (habove : state.zone.path <+: qname.path) :
    r.advance env qname qtype state resp plan = pure (.done resp) := by
  rw [advance_seen, hsaid.seen_eq, hfinal]
  split
  · rfl
  rename_i hpositive
  rw [← isRelevantPositive_congr hq] at hpositive
  split
  · rfl
  rename_i hyx
  rw [← isDnameYxdomain_congr hq] at hyx
  split
  · rw [(hsaid.negative hpositive hyx hm).1]
    rfl
  rename_i hnx
  obtain ⟨hnegative, hrcode⟩ := hsaid.negative hpositive hyx habove
  rw [advanceReferral, hsaid.extract]
  simp only [hfinal]
  rw [isTerminalResponse, hrcode.resolve_left hnx, hnegative]
  rfl

/-- What `advance` does with the word of a zone on a name above. -/
theorem advance_minimised (hsaid : IsAuthoritative state.zone.path q .NS resp)
    (hq : q.path = plan.mname.path) (hfinal : plan.isFinal = false)
    (hm : state.zone.path <+: plan.mname.path) (hmq : plan.mname.path <+: qname.path) :
    (isDnameYxdomain resp qname = true ∨
        resp.header.rcode = rcodeNXDomain ∧ r.qnameMinStrict = true) ∧
      r.advance env qname qtype state resp plan = pure (.done resp) ∨
    resp.header.rcode = rcodeNXDomain ∧
      r.advance env qname qtype state resp plan = pure (.goOn { state with minimize := false }) ∨
    r.advance env qname qtype state resp plan = pure (.goOn { state with depth := plan.target }) := by
  rw [advance_seen, hsaid.seen_eq, hfinal]
  by_cases hyx : isDnameYxdomain resp qname = true
  · rw [if_pos hyx]
    exact .inl ⟨.inl hyx, rfl⟩
  rw [if_neg hyx]
  -- a name that gets too long would make the longer one too long
  have hyx' : isDnameYxdomain resp q ≠ true := by
    intro hshort
    refine hyx ?_
    simp only [isDnameYxdomain, and_eq_true, any_eq_true, isAbove_iff] at hshort ⊢
    obtain ⟨hhead, a, ha, hdname, hpre, hne⟩ := hshort
    refine ⟨hhead, a, ha, hdname, hpre.trans (hq ▸ hmq), fun heq => hne ?_⟩
    rw [hq] at hpre ⊢
    exact hpre.eq_of_length (le_antisymm hpre.length_le (heq ▸ hmq.length_le))
  by_cases hnx : resp.header.rcode = rcodeNXDomain
  · have hpositive : isRelevantPositive resp q .NS ≠ true := by
      intro h
      rw [rcode_of_isRelevantPositive h] at hnx
      exact absurd hnx (by decide)
    rw [if_pos hnx, (hsaid.negative hpositive hyx' hm).1]
    cases hstrict : r.qnameMinStrict with
    | true => exact .inl ⟨.inr ⟨hnx, rfl⟩, rfl⟩
    | false => exact .inr (.inl ⟨hnx, rfl⟩)
  · rw [if_neg hnx, advanceReferral, hsaid.extract]
    simp [hfinal, hsaid.authoritative]

/-- What a round on the way comes to: the answer, or a state on the way with less to go. -/
def Progress (tree : ZoneTree) (r : Recursor) (qname : Name) (qtype : RecordType)
    (state : IterationState) : StepOutcome → Prop
  | .done resp => tree.Answered qname qtype resp
  | .goOn state' => OnWay tree r qname qtype state' ∧
    left tree qname qtype state' < left tree qname qtype state ∧
    (state'.zone = state.zone ∨
      (tree.cuts state'.zone.path (tree.zoneFor qname.path qtype)).card + 1 =
        (tree.cuts state.zone.path (tree.zoneFor qname.path qtype)).card)
  | _ => False

lemma Followed.progress (htree : tree.Honest r) (hway : OnWay tree r qname qtype state)
    {c p : Path} (hcut : tree.IsCut state.zone.path c p qt)
    (hc : c <+: tree.zoneFor qname.path qtype) (hzone : zone.path = c) {outcome : StepOutcome}
    (h : Followed tree r state zone outcome) : Progress tree r qname qtype state outcome := by
  obtain ⟨state', rfl, rfl, hdepth, hminimize, hserves⟩ := h
  subst hzone
  have habove := hc.trans (zoneFor_spec htree.root qname.path qtype).2.1
  have hlen : state'.zone.numLabels ≤ qname.numLabels := by
    rw [← path_length, ← path_length]
    exact habove.length_le
  have hcard := hcut.card_cuts hc
  refine ⟨⟨⟨hcut.apex, habove, hserves.usable, hdepth.ge⟩, hc, hdepth.trans_le hlen,
    fun _ c' _ hbelow hne _ => ?_⟩, ?_, .inr hcard⟩
  · rw [hdepth, ← path_length]
    exact lt_of_le_of_ne hbelow.length_le fun heq => hne (hbelow.eq_of_length heq)
  rw [left, left, hminimize]
  split
  · rename_i hmin
    have hpassed := hway.passed hmin _ hcut.apex hcut.below hcut.ne hc
    rw [path_length] at hpassed
    omega
  · omega

/-- A zone that does not delegate a question is the authoritative one. -/
theorem zone_eq_of_rcode (htree : tree.Honest r) {z : Path} (hz : z ∈ tree.apexes)
    (hway : z <+: tree.zoneFor qname.path qtype) (hq : q.path = qname.path)
    (hrcode : (tree.reply z q qtype).header.rcode ≠ rcodeNoError) :
    z = tree.zoneFor qname.path qtype := by
  by_contra hne
  obtain ⟨c, hcut⟩ := cut_of_ne htree.root hway hne
  have hzq : z <+: q.path := hq ▸ hway.trans (zoneFor_spec htree.root qname.path qtype).2.1
  exact hrcode (htree.referral z c q qtype hz hzq (hq ▸ hcut)).rcode

/-- A round that asks for the name itself. -/
theorem advance_ends_final (htree : tree.Honest r) (hway : OnWay tree r qname qtype state) (hfinal : plan.isFinal = true)
    (hmname : plan.mname.path = qname.path) (hq : q.path = qname.path) :
    Ends w (r.advance env qname qtype state (tree.reply state.zone.path q qtype) plan)
      fun outcome w' => w'.queries = w.queries ∧ Progress tree r qname qtype state outcome := by
  have habove : state.zone.path <+: q.path := hq ▸ hway.above
  by_cases hzone : state.zone.path = tree.zoneFor qname.path qtype
  · have hsaid := htree.authoritative state.zone.path q qtype hway.apex habove fun c hcut => by
      rw [hzone, hq] at hcut
      exact not_isCut_zoneFor htree.root hcut
    rw [advance_final hsaid hq hfinal (hmname ▸ hway.above) hway.above]
    refine .pure ⟨rfl, q, hq, ?_⟩
    rw [hzone]
    exact ⟨rfl, rfl, rfl, rfl⟩
  · obtain ⟨c, hcut⟩ := cut_of_ne htree.root hway.way hzone
    have hreferral := htree.referral state.zone.path c q qtype hway.apex habove (hq ▸ hcut)
    refine (advance_referral hreferral hcut.below hcut.ne hcut.above).mono fun outcome w' h => ?_
    obtain ⟨hqueries, zone, hpath, hfollowed⟩ := h
    exact ⟨hqueries, hfollowed.progress htree hway hcut (hcut.above_zoneFor htree.root) hpath⟩

/-- A round that asks for a name above, one label further. -/
theorem advance_ends_minimised (htree : tree.Honest r)
    (hmissing : r.qnameMinStrict = true → tree.MissingBelow qname qtype)
    (hway : OnWay tree r qname qtype state) (hmin : state.minimize = true)
    (hlt : state.depth + 1 < qname.numLabels) (hfinal : plan.isFinal = false)
    (htarget : plan.target = state.depth + 1)
    (hmname : plan.mname.path = qname.path.take (state.depth + 1)) (hq : q.path = plan.mname.path) :
    Ends w (r.advance env qname qtype state (tree.reply state.zone.path q .NS) plan)
      fun outcome w' => w'.queries = w.queries ∧ Progress tree r qname qtype state outcome := by
  obtain ⟨-, hzoneq, -, hmax⟩ := zoneFor_spec htree.root qname.path qtype
  have hmq : plan.mname.path <+: qname.path := hmname ▸ take_prefix _ _
  have hlen : plan.mname.path.length = state.depth + 1 := by
    rw [hmname, length_take, path_length]
    omega
  have hm : state.zone.path <+: plan.mname.path := by
    rw [hmname, prefix_iff_eq_take.mp hway.above, path_length]
    exact take_prefix_take_left (hway.depth.trans (Nat.le_succ _))
  -- a zone above the shorter name is above the authoritative one
  have habove : ∀ c ∈ tree.apexes, c <+: plan.mname.path →
      c <+: tree.zoneFor qname.path qtype := by
    intro c hc hcm
    refine hmax c hc (hcm.trans hmq) fun _ heq => ?_
    have hle := hcm.length_le
    rw [heq, path_length] at hle
    omega
  by_cases hcut : ∃ c, tree.IsCut state.zone.path c q.path .NS
  · obtain ⟨c, hcut⟩ := hcut
    have hcm : c <+: plan.mname.path := hq ▸ hcut.above
    have hreferral := htree.referral state.zone.path c q .NS hway.apex (hq ▸ hm) hcut
    refine (advance_referral hreferral hcut.below hcut.ne (hcm.trans hmq)).mono
      fun outcome w' h => ?_
    obtain ⟨hqueries, zone, hpath, hfollowed⟩ := h
    exact ⟨hqueries, hfollowed.progress htree hway hcut (habove c hcut.apex hcm) hpath⟩
  have hsaid := htree.authoritative state.zone.path q .NS hway.apex (hq ▸ hm)
    fun c hc => hcut ⟨c, hc⟩
  -- the shorter name is no cut, so the cuts that are left are below it
  have hpassed : ∀ c ∈ tree.apexes, state.zone.path <+: c → state.zone.path ≠ c →
      c <+: tree.zoneFor qname.path qtype → state.depth + 1 < c.length := by
    intro c hc hbelow hne hcz
    have hdepth := hway.passed hmin c hc hbelow hne hcz
    refine lt_of_le_of_ne hdepth fun heq => hcut ?_
    have hcq : c = q.path := by
      rw [hq, hmname, heq]
      have htake := prefix_iff_eq_take.mp (hcz.trans hzoneq)
      exact htake
    exact exists_cut hc hbelow hne (hcq ▸ prefix_refl _) fun h => by cases h
  rcases advance_minimised hsaid hq hfinal hm hmq with ⟨hend, hrun⟩ | ⟨hnx, hrun⟩ | hrun
  · rw [hrun]
    refine .pure ⟨rfl, ?_⟩
    rcases hend with hyx | ⟨hnx, hstrict⟩
    · have hsame := htree.tooLong state.zone.path q qname .NS qtype hway.apex (hq ▸ hm)
        (hq ▸ hmq) hyx
      have hzone := zone_eq_of_rcode htree hway.apex hway.way rfl (by
        rw [← hsame.rcode, rcode_of_isDnameYxdomain hyx]
        decide)
      exact ⟨qname, rfl, hzone ▸ hsame⟩
    · have hsame := hmissing hstrict state.zone.path hway.apex q qname (hq ▸ hm) (hq ▸ hmq) rfl hnx
      have hzone := zone_eq_of_rcode htree hway.apex hway.way rfl (by
        rw [← hsame.rcode, hnx]
        decide)
      exact ⟨qname, rfl, hzone ▸ hsame⟩
  · rw [hrun]
    refine .pure ⟨rfl, ⟨{ hway with }, hway.way, hway.depth_le, fun h => by cases h⟩, ?_, .inl rfl⟩
    rw [left, left, if_pos hmin]
    have hsub : tree.cuts state.zone.path (tree.zoneFor qname.path qtype) ⊆
        .Ioc (state.depth + 1) qname.numLabels := by
      intro k hk
      obtain ⟨hk, hapex⟩ := Finset.mem_filter.mp hk
      obtain ⟨hzk, hkz⟩ := Finset.mem_Ioc.mp hk
      have hklen : ((tree.zoneFor qname.path qtype).take k).length = k := by
        rw [length_take]
        omega
      have hbelow : state.zone.path <+: (tree.zoneFor qname.path qtype).take k := by
        rw [prefix_iff_eq_take.mp hway.way]
        exact take_prefix_take_left hzk.le
      have hk' := hpassed _ hapex hbelow (fun heq => by rw [← heq] at hklen; omega)
        ( take_prefix _ _)
      have hle := hzoneq.length_le
      rw [hklen] at hk'
      rw [path_length] at hle
      exact Finset.mem_Ioc.mpr ⟨hk', hkz.trans hle⟩
    have hcard := Finset.card_le_card hsub
    rw [Nat.card_Ioc] at hcard
    change (tree.cuts state.zone.path (tree.zoneFor qname.path qtype)).card + 1 < _
    omega
  · rw [hrun, htarget]
    refine .pure ⟨rfl, ⟨{ hway with depth := hway.depth.trans (Nat.le_succ _) },
      hway.way, hlt.le, fun _ => hpassed⟩, ?_, .inl rfl⟩
    rw [left, left, if_pos hmin, if_pos hmin]
    change qname.numLabels + 1 - (state.depth + 1) < _
    omega

variable {side : Name → RecordType → RunM (Message × SecurityStatus)}

/-- What is asked: the name itself, or a name above it. -/
theorem nextQuery_spec (state : IterationState) (qname : Name) (qtype : RecordType) :
    (state.nextQuery qname qtype).isFinal = true ∧
        (state.nextQuery qname qtype).mname.path = qname.path ∧
        (state.nextQuery qname qtype).mtype = qtype ∨
      (state.nextQuery qname qtype).isFinal = false ∧ state.minimize = true ∧
        state.depth + 1 < qname.numLabels ∧ (state.nextQuery qname qtype).target = state.depth + 1 ∧
        (state.nextQuery qname qtype).mname.path = qname.path.take (state.depth + 1) ∧
        (state.nextQuery qname qtype).mtype = .NS := by
  rw [nextQuery]
  set target := if state.minimize then min (state.depth + 1) qname.numLabels else qname.numLabels
    with htarget
  by_cases hfinal : qname.numLabels ≤ target
  · left
    refine ⟨decide_eq_true hfinal, ?_, if_pos (decide_eq_true hfinal)⟩
    rw [suffix_path, take_of_length_le (by rwa [path_length])]
  right
  cases hmin : state.minimize with
  | false =>
    rw [hmin] at htarget
    exact absurd htarget.ge hfinal
  | true =>
    rw [hmin, if_pos rfl] at htarget
    have hdepth : target = state.depth + 1 := by omega
    refine ⟨decide_eq_false hfinal, rfl, by omega, hdepth, ?_, ?_⟩
    · rw [suffix_path, hdepth]
    · rw [decide_eq_false hfinal, if_neg Bool.false_ne_true]

lemma takeQuery_ends (h : 0 < w.queries) :
    Ends w takeQuery fun _ w' => w'.queries + 1 = w.queries := by
  refine ⟨(), { w with queries := w.queries - 1 }, if_neg h.ne', ?_⟩
  change w.queries - 1 + 1 = w.queries
  omega

lemma iterateRound_ends (htree : tree.Honest r) (henv : tree.Answers r env)
    (hsep : tree.Separate qname qtype)
    (hmissing : r.qnameMinStrict = true → tree.MissingBelow qname qtype)
    (hway : OnWay tree r qname qtype state) (hqueries : 0 < w.queries) :
    Ends w (r.iterateRound env side qname qtype state) fun outcome w' =>
      w'.queries + 1 = w.queries ∧ Progress tree r qname qtype state outcome := by
  obtain ⟨hzm, hmq⟩ := hway.toAtZone.mname qtype
  have hplan := nextQuery_spec state qname qtype
  refine .bind (.modify rfl) fun _ w₀ (h₀ : w₀.queries = w.queries) => ?_
  refine (takeQuery_ends (h₀ ▸ hqueries)).bind fun _ w₁ h₁ => ?_
  refine .bind (.modifyGet rfl) fun n w₂ (h₂ : w₂.queries = w₁.queries) => ?_
  obtain ⟨s, hs, q, hq, hreply⟩ := henv n state.servers (state.nextQuery qname qtype).mname
    (state.nextQuery qname qtype).mtype hway.servers.2
  have hqt : q.path = qname.path → (state.nextQuery qname qtype).mtype = qtype := by
    intro hqq
    rcases hplan with ⟨-, -, htype⟩ | ⟨-, -, hlt, -, hmname, -⟩
    · exact htype
    · have hlen := congrArg length (hqq.symm.trans (hq.trans hmname))
      rw [length_take, path_length] at hlen
      omega
  rw [serve_eq htree hsep hway.apex hway.way (hway.servers.1 hs) (hq ▸ hzm) (hq ▸ hmq) hqt] at hreply
  refine .bind (.lift hreply ⟨rfl, rfl⟩) fun resp w₃ (h₃ :
    resp = tree.reply state.zone.path q (state.nextQuery qname qtype).mtype ∧
      w₃.queries = w₂.queries) => ?_
  obtain ⟨rfl, h₃⟩ := h₃
  refine .bind (.modify rfl) fun _ w₄ (h₄ : w₄.queries = w₃.queries) => ?_
  have hadvance : Ends w₄ (r.advance env qname qtype state (tree.reply state.zone.path q
      (state.nextQuery qname qtype).mtype) (state.nextQuery qname qtype)) fun outcome w' =>
        w'.queries = w₄.queries ∧ Progress tree r qname qtype state outcome := by
    rcases hplan with ⟨hfinal, hmname, htype⟩ | ⟨hfinal, hmin, hlt, htarget, hmname, htype⟩
    · rw [htype]
      exact advance_ends_final htree hway hfinal hmname (hq.trans hmname)
    · rw [htype]
      exact advance_ends_minimised htree hmissing hway hmin hlt hfinal htarget hmname hq
  refine hadvance.bind fun outcome w₅ h₅ => ?_
  have hleft : w₅.queries + 1 = w.queries := by omega
  cases outcome with
  | needNsAddrs missing pending => exact h₅.2.elim
  | failed error => exact h₅.2.elim
  | done resp => exact .pure ⟨hleft, h₅.2⟩
  | goOn state' => exact .pure ⟨hleft, h₅.2⟩

end Round

section Loop

variable {side : Name → RecordType → RunM (Message × SecurityStatus)}
  (htree : tree.Honest r) (henv : tree.Answers r env) (hsep : tree.Separate qname qtype)
  (hmissing : r.qnameMinStrict = true → tree.MissingBelow qname qtype)

include htree henv hsep hmissing

lemma iterateLoop_ends (rounds : ℕ) : ∀ {referrals : ℕ} {state : IterationState} {w : World},
    OnWay tree r qname qtype state → left tree qname qtype state ≤ rounds →
    left tree qname qtype state ≤ w.queries →
    referrals + (tree.cuts state.zone.path (tree.zoneFor qname.path qtype)).card ≤ r.maxReferrals →
    Ends w (r.iterateLoop env side qname qtype rounds referrals state) fun result w' =>
      tree.Answered qname qtype result.1 ∧
        w.queries ≤ w'.queries + left tree qname qtype state := by
  induction rounds with
  | zero =>
    intro referrals state w hway hrounds
    have hpos := hway.left_pos
    omega
  | succ rounds ih =>
    intro referrals state w hway hrounds hqueries hreferrals
    have hpos := hway.left_pos
    refine (iterateRound_ends htree henv hsep hmissing hway (by omega)).bind fun outcome w₁ h₁ => ?_
    obtain ⟨hused, hprogress⟩ := h₁
    cases outcome with
    | needNsAddrs missing pending => exact hprogress.elim
    | failed error => exact hprogress.elim
    | done resp => exact .pure ⟨hprogress, by omega⟩
    | goOn state' =>
      obtain ⟨hway', hless, hzone⟩ := hprogress
      have hrest : ∀ referrals', referrals' +
          (tree.cuts state'.zone.path (tree.zoneFor qname.path qtype)).card ≤ r.maxReferrals →
          Ends w₁ (r.iterateLoop env side qname qtype rounds referrals' state') fun result w' =>
            tree.Answered qname qtype result.1 ∧
              w.queries ≤ w'.queries + left tree qname qtype state := by
        intro referrals' hreferrals'
        refine (ih hway' (by omega) (by omega) hreferrals').mono fun result w' h => ⟨h.1, ?_⟩
        omega
      dsimp only
      split
      · rename_i hdeeper
        rcases hzone with hsame | hcard
        · rw [hsame] at hdeeper
          exact absurd hdeeper (lt_irrefl _)
        · rw [if_neg (by omega)]
          exact hrest _ (by omega)
      · refine hrest _ ?_
        rcases hzone with hsame | hcard
        · rwa [hsame]
        · omega

variable (hcuts : (tree.cuts [] (tree.zoneFor qname.path qtype)).card ≤ r.maxReferrals)

include hcuts

/-- From a zone on the way, with a query for each label and one more. -/
theorem iterateFrom_ends {w : World} {minimize : Bool}
    (hzone : AtZone tree r qname (.start zone servers))
    (hway : zone.path <+: tree.zoneFor qname.path qtype) (hqueries : qname.numLabels + 1 ≤ w.queries) :
    Ends w (r.iterateLoop env side qname qtype (r.maxReferrals + qname.numLabels + 2) 0
      { start zone servers with minimize := minimize }) fun result w' =>
      tree.Answered qname qtype result.1 ∧ w.queries ≤ w'.queries + (qname.numLabels + 1) := by
  have hfrom : (tree.cuts zone.path (tree.zoneFor qname.path qtype)).card ≤ r.maxReferrals := by
    refine (Finset.card_le_card fun k hk => ?_).trans hcuts
    obtain ⟨hk, hapex⟩ := Finset.mem_filter.mp hk
    obtain ⟨hzk, hkz⟩ := Finset.mem_Ioc.mp hk
    exact Finset.mem_filter.mpr ⟨Finset.mem_Ioc.mpr ⟨(Nat.zero_le _).trans_lt hzk, hkz⟩, hapex⟩
  have hfew : (tree.cuts zone.path (tree.zoneFor qname.path qtype)).card ≤ qname.numLabels := by
    refine (Finset.card_filter_le _ _).trans ?_
    have hle := (zoneFor_spec htree.root qname.path qtype).2.1.length_le
    rw [path_length] at hle
    rw [Nat.card_Ioc]
    omega
  have hleft : left tree qname qtype { start zone servers with
      minimize := minimize } ≤ qname.numLabels + 1 := by
    rw [left]
    split
    · exact Nat.sub_le _ _
    · exact Nat.succ_le_succ hfew
  refine (iterateLoop_ends htree henv hsep hmissing _ (onWay_start minimize hzone hway)
    (by omega) (hleft.trans hqueries) ?_).mono fun result w' h => ⟨h.1, by omega⟩
  change 0 + (tree.cuts zone.path _).card ≤ _
  omega

lemma iterateCached_ends {w : World} (hzone : AtZone tree r qname (.start zone servers))
    (hway : zone.path <+: tree.zoneFor qname.path qtype) (hqueries : qname.numLabels + 1 ≤ w.queries) :
    Ends w (r.iterateCached env side qname qtype zone servers) fun found w' =>
      (∀ result, found = some result → tree.Answered qname qtype result.1) ∧
        w.queries ≤ w'.queries + (qname.numLabels + 1) := by
  refine .bind (.modifyGet rfl) fun saved w₁ (h₁ : w₁.queries = w.queries) => ?_
  have hwalk : Ends w₁ (r.iterateFrom env side qname qtype zone servers) fun result w' =>
      tree.Answered qname qtype result.1 ∧ w₁.queries ≤ w'.queries + (qname.numLabels + 1) :=
    iterateFrom_ends htree henv hsep hmissing hcuts hzone hway (h₁ ▸ hqueries)
  have htry : Ends w₁ (tryCatch (some <$> r.iterateFrom env side qname qtype zone
      servers) fun _ => do delegEvictPath qname; return none) fun found w' =>
      (∃ result, found = some result ∧ tree.Answered qname qtype result.1) ∧
        w₁.queries ≤ w'.queries + (qname.numLabels + 1) :=
    .tryCatch (hwalk.map fun result w' h => ⟨⟨result, rfl, h.1⟩, h.2⟩)
  refine htry.bind fun found w₂ h₂ => ?_
  obtain ⟨⟨result, rfl, hanswered⟩, hused⟩ := h₂
  have hvalid : ∀ zone : Name, Ends w₂ (r.validatedStartOk env zone) fun _ w' =>
      w'.queries = w₂.queries := fun zone =>
    .bind (.modifyGet rfl) fun n w₃ (h₃ : w₃.queries = w₂.queries) => .pure h₃
  refine (hvalid _).bind fun ok w₃ h₃ => ?_
  split
  · refine .pure ⟨fun result' h => ?_, by omega⟩
    rw [← Option.some.inj h]
    exact hanswered
  · refine .bind (.modify rfl) fun _ w₄ (h₄ : w₄.queries = w₃.queries) => .pure ⟨?_, by omega⟩
    intro result' h
    cases h

/-- From the cache or from the root, an iteration returns what the authoritative zone says. -/
theorem iterate_ends {w : World} (hsound : Sound tree r w)
    (hds : qtype = .DS → ∀ zone servers, (deepestLoop (env.cacheNowMillis w.ticks) qname
      qname.numLabels w.delegCache).1 = some (zone, servers) → zone.numLabels < qname.numLabels)
    (hqueries : 2 * qname.numLabels + 2 ≤ w.queries) :
    Ends w (r.iterate env side qname qtype) fun result _ =>
      tree.Answered qname qtype result.1 := by
  have hroot : ∀ {w' : World}, qname.numLabels + 1 ≤ w'.queries →
      Ends w' (r.iterateFrom env side qname qtype .root r.roots) fun result _ =>
        tree.Answered qname qtype result.1 := fun hleft =>
    (iterateFrom_ends htree henv hsep hmissing hcuts (atZone_root htree) nil_prefix
      hleft).mono fun result w' h => h.1
  have hcached : Ends w (deepestCachedDelegation env qname) fun found w' =>
      found = (deepestLoop (env.cacheNowMillis w.ticks) qname qname.numLabels
        w.delegCache).1 ∧ w'.queries = w.queries :=
    .bind (.modifyGet ⟨rfl, rfl⟩) fun n w₁
      (h₁ : n = w.ticks ∧ w₁ = { w with ticks := w.ticks + 1 }) => by
        obtain ⟨rfl, rfl⟩ := h₁
        exact .modifyGet ⟨rfl, rfl⟩
  refine hcached.bind fun cached w₁ h₁ => ?_
  obtain ⟨hfound, hsame⟩ := h₁
  cases cached with
  | none => exact hroot (by omega)
  | some start =>
    obtain ⟨zone, servers⟩ := start
    obtain ⟨habove, entry, hentry, hkey, rfl⟩ := (deepestLoop_spec (env.cacheNowMillis w.ticks) qname
      qname.numLabels w.delegCache).2 zone servers hfound.symm
    obtain ⟨zone', hkey', hapex, hserves⟩ := hsound entry hentry
    have hpath := canonicalKey_inj.mp (hkey'.symm.trans hkey)
    rw [hpath] at hapex hserves
    have hstart : AtZone tree r qname (.start zone entry.2.addrs) :=
      ⟨hapex, habove, hserves.usable, le_rfl⟩
    have hway : zone.path <+: tree.zoneFor qname.path qtype := by
      refine (zoneFor_spec htree.root qname.path qtype).2.2.2 _ hapex habove fun hqtype heq => ?_
      have hlt := hds hqtype zone _ hfound.symm
      rw [← path_length, ← path_length, heq] at hlt
      exact absurd hlt (lt_irrefl _)
    have hvalid : Ends w₁ (r.validatedStartOk env zone) fun _ w' => w'.queries = w₁.queries :=
      .bind (.modifyGet rfl) fun n w₂ (h₂ : w₂.queries = w₁.queries) => .pure h₂
    refine hvalid.bind fun ok w₂ h₂ => ?_
    split
    · refine (iterateCached_ends htree henv hsep hmissing hcuts hstart hway (by omega)).bind
        fun found w₃ h₃ => ?_
      cases found with
      | some result => exact .pure (h₃.1 result rfl)
      | none => exact hroot (by omega)
    · exact hroot (by omega)

end Loop

/-- A walk with full names from the root. -/
def Recursor.fullWalk (r : Recursor) (env : Env)
    (side : Name → RecordType → RunM (Message × SecurityStatus)) (qname : Name) (qtype : RecordType)
    : RunM (Message × List ZoneStep) :=
  r.iterateLoop env side qname qtype (r.maxReferrals + qname.numLabels + 2) 0
    { IterationState.start Name.root r.roots with minimize := false }

/-- The budgets of a new question. -/
def World.budgeted (w : World) (r : Recursor) : World :=
  { w with nsResolves := r.maxNsResolves, queries := maxTotalQueries }

lemma two_mul_length_lt_wireLen {labels : List Bytes} (h : ∀ label ∈ labels, 1 ≤ label.length) :
    2 * labels.length < wireLen labels := by
  induction labels with
  | nil => decide
  | cons label rest ih =>
    have hrest := ih fun l hl => h l (mem_cons_of_mem _ hl)
    have hlabel := h label mem_cons_self
    rw [wireLen_cons, length_cons]
    omega

/-- A name has few enough labels to be walked twice. -/
theorem walks_le_maxTotalQueries (n : Name) : 2 * n.numLabels + 2 ≤ maxTotalQueries := by
  have hlt := two_mul_length_lt_wireLen fun label hlabel => (n.label_len label hlabel).1
  have hle := n.wire_len
  have hmax : maxNameLen = 255 := rfl
  change 2 * n.labels.length + 2 ≤ 256
  omega

/-- After any questions, an iteration returns what the authoritative zone says, as a walk with
full names from the root does, if no server on the way answers from a zone further down, and
what is known of missing names holds of those below them where that is relied on, and the DS
record of a delegation is not asked of that delegation. -/
theorem iterate_answers (tree : ZoneTree) (r : Recursor) (env : Env) (htree : tree.Honest r)
    (henv : tree.Answers r env) (fuel delegMax nsAddrMax : ℕ) (questions : List (Name × RecordType))
    (side : Name → RecordType → RunM (Message × SecurityStatus)) (qname : Name) (qtype : RecordType)
    (hcuts : (tree.cuts [] (tree.zoneFor qname.path qtype)).card ≤ r.maxReferrals)
    (hsep : tree.Separate qname qtype)
    (hmissing : r.qnameMinStrict = true → tree.MissingBelow qname qtype) (w : World)
    (hw : w = (r.run env fuel questions (World.start delegMax nsAddrMax)).budgeted r)
    (hds : qtype = .DS → ∀ zone servers, (Recursor.deepestLoop (env.cacheNowMillis w.ticks) qname
      qname.numLabels w.delegCache).1 = some (zone, servers) → zone.numLabels < qname.numLabels) :
    (∃ resp chain w', r.iterate env side qname qtype w = (.ok (resp, chain), w') ∧
        tree.Answered qname qtype resp) ∧
      ∃ resp chain w', r.fullWalk env side qname qtype
          ((World.start delegMax nsAddrMax).budgeted r) = (.ok (resp, chain), w') ∧
        tree.Answered qname qtype resp := by
  have hbudget := walks_le_maxTotalQueries qname
  have hsound : Sound tree r w := by
    rw [hw]
    exact sound_run htree henv fuel (sound_start delegMax nsAddrMax) questions
  constructor
  · obtain ⟨result, w', hrun, hanswered⟩ : Ends w (r.iterate env side qname qtype) fun result _ =>
        tree.Answered qname qtype result.1 :=
      iterate_ends htree henv hsep hmissing hcuts hsound hds (by rw [hw]; exact hbudget)
    exact ⟨result.1, result.2, w', hrun, hanswered⟩
  obtain ⟨result, w', hrun, hanswered, -⟩ : Ends ((World.start delegMax nsAddrMax).budgeted r)
      (r.fullWalk env side qname qtype) fun result w' => tree.Answered qname qtype result.1 ∧
        ((World.start delegMax nsAddrMax).budgeted r).queries ≤
          w'.queries + (qname.numLabels + 1) :=
    iterateFrom_ends htree henv hsep hmissing hcuts (atZone_root htree) nil_prefix (by
      change qname.numLabels + 1 ≤ maxTotalQueries
      omega)
  exact ⟨result.1, result.2, w', hrun, hanswered⟩

/-! The root and the zone `e` below it, with a wildcard address and nothing else. -/

/-- A zone without the record. -/
def labDenial (zone : Name) : Message :=
  labReply true 0 [] [.new zone 60 (.soa ⟨zone, zone, 1, 60, 60, 60, 60⟩)] []

/-- A zone with the same address at every name. -/
def labWildcard (q : Name) : Message :=
  labReply true 0 [.new q 60 (.a ⟨[5, 6, 7, 8], by decide⟩)] [] []

def labAddress : SocketAddr := ⟨.v4 ⟨[1, 2, 3, 4], labOctets⟩, 53⟩

/-- `e` may be served by more than its own server. -/
def labTree (more : List SocketAddr) : ZoneTree where
  apexes := [[], labZone.path]
  servers z := if z = [] then lab.roots else labAddress :: more
  reply z q qtype :=
    if z = [] then
      if labZone.path <+: q.path ∧ (qtype = .DS → labZone.path ≠ q.path) then labReferral
      else labDenial Name.root
    else if qtype = .A then labWildcard q
    else labDenial labZone

/-- The first server that can be asked answers. -/
def labTreeEnv (more : List SocketAddr) : Env :=
  ⟨fun _ servers q qtype => match servers.find? fun s => lab.serverEligible s.ip with
      | some s => .ok ((labTree more).serve s q qtype)
      | none => .error .noResponse,
    fun _ => 0, fun _ _ => true, fun _ => .insecure, fun _ => false⟩

variable (more : List SocketAddr)

lemma labTree_answers : (labTree more).Answers lab (labTreeEnv more) := by
  rintro n servers q qtype ⟨s, hs, helig⟩
  cases hfind : servers.find? fun s => lab.serverEligible s.ip with
  | none => exact absurd helig (by simpa using find?_eq_none.mp hfind s hs)
  | some s' =>
    refine ⟨s', mem_of_find?_eq_some hfind, q, rfl, ?_⟩
    simp only [labTreeEnv, hfind]

lemma labZone_ne : labZone.path ≠ [] := by decide +kernel

lemma labTree_isCut {more : List SocketAddr} {z c p : Path} {qtype : RecordType}
    (h : (labTree more).IsCut z c p qtype) (hz : z ∈ (labTree more).apexes) :
    z = [] ∧ c = labZone.path := by
  rcases mem_pair.mp h.apex with rfl | rfl
  · exact absurd (prefix_nil.mp h.below) h.ne
  · rcases mem_pair.mp hz with rfl | rfl
    · exact ⟨rfl, rfl⟩
    · exact absurd rfl h.ne

lemma labTree_referral : (labTree more).IsReferral lab [] labZone.path labReferral := by
  refine ⟨rfl, rfl, rfl, by decide +kernel, by decide +kernel, ?_, ?_⟩
  · intro a ha ns _ _ ip hip
    obtain rfl := mem_singleton.mp ha
    obtain rfl := Option.some.inj hip
    exact mem_cons_self
  · exact ⟨_, mem_singleton_self _, labServer, by decide +kernel, rfl, nil_prefix, _, rfl, rfl⟩

lemma labDenial_said (zone q : Name) (qtype : RecordType) :
    IsAuthoritative zone.path q qtype (labDenial zone) := by
  refine ⟨rfl, fun a ha => ?_, .inr (.inr ⟨.inr rfl, _, mem_singleton_self _, rfl, rfl, rfl⟩)⟩
  cases ha

lemma labWildcard_said (q : Name) : IsAuthoritative labZone.path q .A (labWildcard q) := by
  refine ⟨rfl, fun a ha hdname => ?_, .inl ?_⟩
  · obtain rfl := mem_singleton.mp ha
    cases hdname
  have hself : q.eqIgnoreCase q = true := (eqIgnoreCase_path q q).mpr rfl
  have hdirect : hasDirectQtypeAnswer (labWildcard q) q .A = true := by
    rw [hasDirectQtypeAnswer, any_eq_true]
    refine ⟨_, mem_singleton_self _, ?_⟩
    change (decide (DnsClass.IN = .IN) && q.eqIgnoreCase q &&
      (decide (RecordType.A = .ANY) || decide (RecordType.A = .A))) = true
    rw [hself]
    rfl
  rw [isRelevantPositive, hdirect]
  rfl

lemma labTree_reply_root (q : Name) (qtype : RecordType) : (labTree more).reply [] q qtype =
      if labZone.path <+: q.path ∧ (qtype = .DS → labZone.path ≠ q.path) then labReferral
      else labDenial Name.root := by
  simp [labTree]

lemma labTree_reply_zone (q : Name) (qtype : RecordType) :
    (labTree more).reply labZone.path q qtype =
      if qtype = .A then labWildcard q else labDenial labZone := by
  simp only [labTree, if_neg labZone_ne]

lemma labTree_honest : (labTree more).Honest lab := by
  refine ⟨mem_cons_self, ⟨?_, _, mem_cons_self, rfl⟩, fun z c q qtype hz _ hcut => ?_,
    fun z q qtype hz hzq hno => ?_, fun z m q qtype qtype' hz _ _ hyx => ?_⟩
  · exact Subset.refl _
  · obtain ⟨rfl, rfl⟩ := labTree_isCut hcut hz
    rw [labTree_reply_root, if_pos ⟨hcut.above, hcut.side⟩]
    exact labTree_referral more
  · rcases mem_pair.mp hz with rfl | rfl
    · rw [labTree_reply_root, if_neg]
      · exact labDenial_said .root q qtype
      rintro ⟨habove, hside⟩
      have hapex : labZone.path ∈ (labTree more).apexes := mem_cons_of_mem _ mem_cons_self
      obtain ⟨c, hcut⟩ := exists_cut hapex nil_prefix (Ne.symm labZone_ne) habove hside
      exact hno c hcut
    · rw [labTree_reply_zone]
      split
      · rename_i htype
        rw [htype]
        exact labWildcard_said q
      · exact labDenial_said labZone q qtype
  · have hcode : ((labTree more).reply z m qtype).header.rcode = rcodeNoError := by
      rcases mem_pair.mp hz with rfl | rfl
      · rw [labTree_reply_root]
        split <;> rfl
      · rw [labTree_reply_zone]
        split <;> rfl
    rw [rcode_of_isDnameYxdomain hyx] at hcode
    exact absurd hcode (by decide)

/-- The address of a name in `e`, from the delegation that an earlier question left behind. -/
theorem iterate_answers_lab : ∃ resp chain w',
    lab.iterate (labTreeEnv []) (fun ns rtype => lab.resolveInner (labTreeEnv []) 1 ns rtype 0 0)
      labName .A ((lab.run (labTreeEnv []) 1 [(labZone, .A)] (World.start 8 8)).budgeted lab) =
        (.ok (resp, chain), w') ∧ (labTree []).Answered labName .A resp := by
  refine (iterate_answers (labTree []) lab (labTreeEnv []) (labTree_honest []) (labTree_answers [])
    1 8 8 [(labZone, .A)] _ labName .A (by decide +kernel) ?_ (fun h => by cases h) _ rfl
    fun h => by cases h).1
  intro z hz z' hz' _ _ s hs hs'
  have hdiff : labAddress ∉ lab.roots := by decide
  rcases mem_pair.mp hz with rfl | rfl <;> rcases mem_pair.mp hz' with rfl | rfl
  · rfl
  · rw [mem_singleton.mp hs'] at hs
    exact absurd hs hdiff
  · rw [mem_singleton.mp hs] at hs'
    exact absurd hs' hdiff
  · rfl

lemma labTree_answered_ds (h : (labTree []).Answered labZone .DS resp) :
    resp.authorities = (labDenial Name.root).authorities := by
  obtain ⟨q, hpath, hsame⟩ := h
  have hzone : (labTree []).zoneFor labZone.path .DS = [] := by decide +kernel
  rw [hzone, labTree_reply_root, if_neg fun hside => hside.2 rfl hpath.symm] at hsame
  exact hsame.authorities

/-- The DS record of `e` is the root's to deny, but once a question has left the delegation of
`e` behind it is `e` that is asked. Where a server of the root serves `e` too, that a record is
missing from `e` is not believed. -/
theorem ds_of_cached_cut : (((labTree []).Honest lab ∧ (labTree []).Answers lab (labTreeEnv [])) ∧
      ∃ resp chain w',
        lab.iterate (labTreeEnv []) (fun ns rtype => lab.resolveInner (labTreeEnv []) 1 ns rtype 0 0)
          labZone .DS ((lab.run (labTreeEnv []) 1 [(labName, .A)] (World.start 8 8)).budgeted lab) =
            (.ok (resp, chain), w') ∧ ¬(labTree []).Answered labZone .DS resp) ∧
    ((labTree lab.roots).Honest lab ∧ (labTree lab.roots).Answers lab (labTreeEnv lab.roots)) ∧
      (lab.iterate (labTreeEnv lab.roots)
        (fun ns rtype => lab.resolveInner (labTreeEnv lab.roots) 1 ns rtype 0 0) labName .TXT
        ((World.start 8 8).budgeted lab)).1.toOption = none := by
  refine ⟨⟨⟨labTree_honest [], labTree_answers []⟩, ?_⟩,
    ⟨labTree_honest lab.roots, labTree_answers lab.roots⟩, by decide +kernel⟩
  have hout : (lab.iterate (labTreeEnv [])
      (fun ns rtype => lab.resolveInner (labTreeEnv []) 1 ns rtype 0 0) labZone .DS
      ((lab.run (labTreeEnv []) 1 [(labName, .A)] (.start 8 8)).budgeted lab)).1.toOption.map
        (·.1.authorities) = some (labDenial labZone).authorities := by decide +kernel
  cases hrun : lab.iterate (labTreeEnv [])
      (fun ns rtype => lab.resolveInner (labTreeEnv []) 1 ns rtype 0 0) labZone .DS
      ((lab.run (labTreeEnv []) 1 [(labName, .A)] (.start 8 8)).budgeted lab) with
  | mk result w' =>
    rw [hrun] at hout
    cases result with
    | error e => cases hout
    | ok out =>
      refine ⟨out.1, out.2, w', rfl, fun hanswered => ?_⟩
      have hzone : out.1.authorities = (labDenial labZone).authorities := Option.some.inj hout
      have hroot := labTree_answered_ds hanswered
      rw [hzone] at hroot
      exact absurd hroot (by decide +kernel)

end OnetDns.Recurse
