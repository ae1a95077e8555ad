import OnetDns.Authority.Lookup

/-!
# Answers against the reference

When `Zone::query` answers as the reference algorithm does. The first name of a chain is
treated as the reference treats it; `chase_cname` treats the later ones in its own way, and
`Plain` says where that makes no difference.
-/
namespace OnetDns.Authority
open Dns Dnssec List Option Prod Reference Zone.Loaded

variable {t : RecordType} {records : List StoredRecord}

section

variable (hsorted : records.Pairwise fun a b => a.rtype ≤ b.rtype)
include hsorted

lemma takeWhile_eq_filter (hle : ∀ r ∈ records, t ≤ r.rtype) :
    records.takeWhile (fun r => r.rtype = t) = records.filter fun r => r.rtype = t := by
  induction records with
  | nil => rfl
  | cons r records ih =>
    rw [pairwise_cons] at hsorted
    rw [takeWhile_cons, filter_cons]
    by_cases hr : r.rtype = t
    · simp only [hr, decide_true, if_true]
      rw [ih hsorted.2 fun s hs => hle s (mem_cons_of_mem _ hs)]
    simp only [hr, decide_false, Bool.false_eq_true, if_false]
    rw [eq_comm, filter_eq_nil_iff]
    intro s hs heq
    rw [decide_eq_true_eq] at heq
    exact hr (UInt16.le_antisymm (heq ▸ hsorted.1 s hs) (hle r mem_cons_self))

lemma dropWhile_takeWhile_eq_filter
    :
    (records.dropWhile fun r => r.rtype < t).takeWhile (fun r => r.rtype = t) =
      records.filter fun r => r.rtype = t := by
  induction records with
  | nil => rfl
  | cons r records ih =>
    rw [dropWhile_cons]
    by_cases hr : r.rtype < t
    · have hne : r.rtype ≠ t := fun heq => UInt16.lt_irrefl _ (heq ▸ hr)
      rw [if_pos (by simpa using hr), ih (pairwise_cons.mp hsorted).2, filter_cons,
        if_neg (by simpa using hne)]
    have hle := UInt16.not_lt.mp hr
    rw [if_neg (by simpa using hr)]
    refine takeWhile_eq_filter hsorted fun s hs => ?_
    rcases mem_cons.mp hs with rfl | hs
    · exact hle
    · exact UInt16.le_trans hle ((pairwise_cons.mp hsorted).1 s hs)

lemma storedRrset_eq : storedRrset records t = records.filter fun r => r.rtype = t := by
  cases records with
  | nil => rfl
  | cons first rest =>
    rw [storedRrset]
    split
    · rename_i hends
      rw [eq_comm, filter_eq_self]
      intro r hr
      rw [decide_eq_true_eq]
      rcases mem_cons.mp hr with rfl | hr
      · exact hends.1
      rcases hends.2 with rfl | hlast
      · exact absurd hr (by simp)
      obtain ⟨last, hlast, hrtype⟩ := map_eq_some_iff.mp hlast
      have hlow := (pairwise_cons.mp hsorted).1 r hr
      have hhigh : r.rtype ≤ last.rtype := by
        obtain ⟨front, hfront⟩ := getLast?_eq_some_iff.mp hlast
        rw [hfront, pairwise_append] at hsorted
        have hmem : r ∈ front ++ [last] := hfront ▸ mem_cons_of_mem _ hr
        rcases mem_append.mp hmem with hmem | hmem
        · exact hsorted.2.2 r hmem last (mem_singleton_self _)
        · rw [mem_singleton.mp hmem]
          exact UInt16.le_refl _
      exact UInt16.le_antisymm (hrtype ▸ hhigh) (hends.1 ▸ hlow)
    · exact dropWhile_takeWhile_eq_filter hsorted

end

lemma Owned.ofType_eq {owner : Name} (h : Owned owner records) (t : RecordType) (name : Name) :
    Zone.ofType records t name = (records.filter fun r => r.rtype = t).map (·.materialize name) := by
  rw [Zone.ofType, storedRrset_eq h.sorted]

section Nodes

variable {owner : Name} {records : List StoredRecord} {qtype : RecordType}

section

variable (hany : qtype ≠ .ANY)
include hany

lemma asked_eq (r : Record) : asked qtype r = decide (r.rtype = qtype) := by
  simp [asked, hany]

lemma any_asked (name : Name) :
    (records.map (·.materialize name)).any (asked qtype) = true ↔
      records.filter (fun r => r.rtype = qtype) ≠ [] := by
  simp [asked_eq hany]

/-- The reference at the records of a stored owner. -/
theorem atNode_eq (name cur : Name) :
    atNode cur qtype (records.map (·.materialize name)) =
      if records.filter (fun r => r.rtype = qtype) ≠ [] then
        .done ((records.filter fun r => r.rtype = qtype).map fun r =>
          { r.materialize name with name := cur }) .answered
      else
        match firstOf .CNAME records with
        | none => .done [] .noData
        | some r =>
          match aliasTarget r.rdata with
          | some target => .again [{ r with name := cur }] target
          | none => .done [{ r with name := cur }] .outOfZone := by
  rw [atNode, find?_firstOf (by decide)]
  by_cases hfound : records.filter (fun r => r.rtype = qtype) ≠ []
  · rw [if_pos ((any_asked hany name).mpr hfound), if_pos hfound, List.filter_map, List.map_map]
    congr 2
    exact filter_congr fun r _ => by
      rw [Function.comp_apply, asked_eq hany, materialize_rtype]
  · rewrite [if_neg fun hasked => hfound ((any_asked hany name).mp hasked), if_neg hfound]
    rfl

lemma aliasAt_eq (name : Name) :
    aliasAt qtype (records.map (·.materialize name)) =
      if records.filter (fun r => r.rtype = qtype) ≠ [] then none else firstOf .CNAME records := by
  rw [aliasAt, find?_firstOf (by decide)]
  by_cases hfound : records.filter (fun r => r.rtype = qtype) ≠ []
  · rw [if_pos ((any_asked hany name).mpr hfound), if_pos hfound]
  · rw [if_neg fun hasked => hfound ((any_asked hany name).mp hasked), if_neg hfound]

end

lemma Owned.head?_cname (h : Owned owner records) (name : Name) :
    (Zone.ofType records .CNAME name).head? = firstOf .CNAME records := by
  rw [h.ofType_eq, ← find?_firstOf (by decide) name]
  simp

lemma Owned.chaseAt_eq (h : Owned owner records) (zone : Zone) (cur : Name)
    (goOn : Name → List Record × ChaseEnd) :
    zone.chaseAt qtype cur records goOn =
      if records.filter (fun r => r.rtype = qtype) ≠ [] then
        ((records.filter fun r => r.rtype = qtype).map (·.materialize cur),
          .answered
            (zone.targetGlue ((records.filter fun r => r.rtype = qtype).map (·.materialize cur))))
      else
        match firstOf .CNAME records with
        | some r =>
          match r.rdata with
          | .cname next => (r :: (goOn next).1, (goOn next).2)
          | _ => ([], .noData)
        | none => ([], .noData) := by
  rw [Zone.chaseAt, h.ofType_eq, h.head?_cname]
  exact if_congr (not_congr map_eq_nil_iff) rfl rfl

end Nodes

/-- A response code with the views of answers and authority. -/
abbrev Shown := UInt8 × List View × List View

/-- What a response says, its flags apart. -/
def Response.shown (r : Response) : Shown := (r.rcode, r.answers.map view, r.authority.map view)

def prepend (answers : List Record) (s : Shown) : Shown := (s.1, answers.map view ++ s.2.1, s.2.2)

variable {answers : List Record}

section Shown

variable (zone : Zone)

lemma cnameResponse_append (front answers : List Record) (ending : ChaseEnd) :
    (zone.cnameResponse (front ++ answers) ending).shown =
      prepend front (zone.cnameResponse answers ending).shown := by
  cases ending <;> simp [Zone.cnameResponse, Response.shown, prepend]

lemma response_append (content : List Record) (soa : Record) (front answers : List Record)
    (ending : Reference.Ending) :
    (response content soa (front ++ answers) ending).shown =
      prepend front (response content soa answers ending).shown := by
  cases ending <;> simp [response, Response.shown, prepend]

/-- The reference comes to an end at a name and shows this. -/
def Shows (qtype : RecordType) (name : Name) (s : Shown) : Prop :=
  ∃ fuel answers ending,
    Reference.resolve zone.origin.path zone.allRecords qtype fuel name = some (answers, ending) ∧
      (Reference.response zone.allRecords zone.negativeSoaRecord answers ending).shown = s

variable {zone} {qtype : RecordType} {name : Name} {s : Shown}

lemma contains_iff (zone : Zone) (n : Name) :
    zone.contains n = true ↔ zone.origin.path <+: n.path := by
  rw [Zone.contains, isSubdomainOrEq, Name.endsWithIgnoreCase_path]

abbrev Zone.refStep (zone : Zone) (qtype : RecordType) (name : Name) : Reference.Step :=
  Reference.step zone.origin.path zone.allRecords qtype name

/-- The whole of it. -/
abbrev Zone.refResolve (zone : Zone) (qtype : RecordType) (fuel : ℕ) (name : Name) :
    Option (List Record × Reference.Ending) :=
  Reference.resolve zone.origin.path zone.allRecords qtype fuel name

lemma isPrefixOf_origin (zone : Zone) (n : Name) :
    zone.origin.path.isPrefixOf n.path = zone.contains n := by
  rw [Bool.eq_iff_iff, isPrefixOf_iff_prefix, contains_iff]

variable {fuel : ℕ} {res : List Record × Reference.Ending}

lemma resolve_pos (h : zone.refResolve qtype fuel name = some res) : ∃ k, fuel = k + 1 := by
  cases fuel with
  | zero => simp [resolve] at h
  | succ k => exact ⟨k, rfl⟩

lemma resolve_outside (hout : zone.contains name = false) (fuel : ℕ) :
    zone.refResolve qtype (fuel + 1) name = some ([], .outOfZone) := by
  rw [Zone.refResolve, resolve, isPrefixOf_origin, hout, if_neg (by decide)]

lemma resolve_done (hin : zone.contains name = true) {ending : Reference.Ending}
    (hstep : zone.refStep qtype name = .done answers ending) (fuel : ℕ) :
    zone.refResolve qtype (fuel + 1) name = some (answers, ending) := by
  rw [Zone.refStep] at hstep
  rw [Zone.refResolve, resolve, isPrefixOf_origin, hin, if_pos rfl, hstep]

lemma resolve_again_iff (hin : zone.contains name = true) {target : Name}
    (hstep : zone.refStep qtype name = .again answers target) :
    zone.refResolve qtype (fuel + 1) name = some res ↔
      ∃ more, zone.refResolve qtype fuel target = some (more, res.2) ∧ answers ++ more = res.1 := by
  rw [Zone.refStep] at hstep
  rw [Zone.refResolve, resolve, isPrefixOf_origin, hin, if_pos rfl, hstep, map_eq_some_iff]
  constructor
  · rintro ⟨⟨more, ending⟩, hmore, rfl⟩
    exact ⟨more, hmore, rfl⟩
  · rintro ⟨more, hmore, heq⟩
    exact ⟨_, hmore, Prod.ext heq rfl⟩

lemma shows_outside (hout : zone.contains name = false) :
    Shows zone qtype name s ↔ s = (0, [], []) := by
  constructor
  · rintro ⟨fuel, answers, ending, hresolve, rfl⟩
    obtain ⟨k, rfl⟩ := resolve_pos hresolve
    cases (resolve_outside hout k).symm.trans hresolve
    rfl
  · rintro rfl
    exact ⟨1, [], .outOfZone, resolve_outside hout 0, rfl⟩

lemma shows_done (hin : zone.contains name = true) {ending : Reference.Ending}
    (hstep : zone.refStep qtype name = .done answers ending) :
    Shows zone qtype name s ↔
      s = (response zone.allRecords zone.negativeSoaRecord answers ending).shown := by
  constructor
  · rintro ⟨fuel, answers', ending', hresolve, rfl⟩
    obtain ⟨k, rfl⟩ := resolve_pos hresolve
    cases (resolve_done hin hstep k).symm.trans hresolve
    rfl
  · rintro rfl
    exact ⟨1, answers, ending, resolve_done hin hstep 0, rfl⟩

lemma shows_again (hin : zone.contains name = true) {target : Name}
    (hstep : zone.refStep qtype name = .again answers target) :
    Shows zone qtype name s ↔ ∃ s', Shows zone qtype target s' ∧ s = prepend answers s' := by
  constructor
  · rintro ⟨fuel, answers', ending', hresolve, rfl⟩
    obtain ⟨k, rfl⟩ := resolve_pos hresolve
    obtain ⟨more, hmore, rfl⟩ := (resolve_again_iff hin hstep).mp hresolve
    exact ⟨_, ⟨k, more, ending', hmore, rfl⟩, response_append _ _ _ _ _⟩
  · rintro ⟨s', ⟨fuel, more, ending, hmore, rfl⟩, rfl⟩
    exact ⟨fuel + 1, answers ++ more, ending, (resolve_again_iff hin hstep).mpr ⟨more, hmore, rfl⟩,
      response_append _ _ _ _ _⟩

end Shown

namespace Zone

variable (zone : Zone) (qtype : RecordType)

def lookup (q : Name) : Reference.Found := Reference.lookup zone.origin.path zone.allRecords q.path

/-- A name on which `chase_cname`, with so many rounds left, does as the reference: there
are rounds enough, no DNAME applies, a wildcard gives addresses or no data, and nothing is
asked that a parent answers at a cut. -/
def Plain : (rounds : ℕ) → Name → Prop
  | 0, cur => zone.contains cur = false
  | rounds + 1, cur => zone.contains cur = true →
    match zone.lookup cur with
    | .cut labels => ¬(labels = cur.numLabels ∧ qtype ∈ parentTypes)
    | .node records => ∀ r, Reference.aliasAt qtype records = some r →
        ∃ next, r.rdata = .cname next ∧ Plain rounds next
    | .rename _ _ => False
    | .wildcard records => records ≠ [] ∧ Reference.aliasAt qtype records = none ∧
        ∀ r ∈ records, r.rtype = qtype → isAddress r = true
    | .missing => True

end Zone

lemma view_materialize_congr {a b : Name} (h : a.path = b.path) (r : StoredRecord) :
    view (r.materialize a) = view (r.materialize b) := by
  cases r with
  | a ttl address => simp only [StoredRecord.materialize, Record.new, view, h]
  | aaaa ttl address => simp only [StoredRecord.materialize, Record.new, view, h]
  | other payload record => rfl

section Chase

variable {zone : Zone} {qtype : RecordType} {n : Name} {records : List StoredRecord} {s : Shown}

lemma ofType_view (hz : zone.Loaded) (howner : zone.owner n = some records) (t : RecordType) :
    (Zone.ofType records t n).map view =
      ((Reference.node zone.allRecords n.path).filter fun r => r.rtype = t).map view := by
  have howned := (hz.owned_of_owner howner).2
  rw [howned.ofType_eq, hz.node_eq, howner, List.filter_map, List.map_map, List.map_map]
  simp only [Function.comp_def, materialize_rtype]
  exact map_congr_left fun r _ => view_materialize_congr (lowerName_path n).symm r

lemma referral_view (hz : zone.Loaded)
    (howner : zone.owner n = some records) (answers : List Record) :
    (zone.cnameResponse answers (.delegated n)).shown =
      (response zone.allRecords zone.negativeSoaRecord answers (.delegated n.path)).shown := by
  simp [Zone.cnameResponse, Response.shown, Zone.referral, howner, response, ofType_view hz howner]

/-- A cut is shown by its NS records. -/
theorem referral_authority (hz : zone.Loaded) (hns : hasNs zone n = true) :
    ∃ first rest, (zone.referral n).authority = first :: rest ∧ first.rtype = .NS := by
  rw [hasNs, Option.any_eq_true] at hns
  obtain ⟨records, howner, hany⟩ := hns
  obtain ⟨r, hr, hrtype⟩ := any_eq_true.mp hany
  have howned := (hz.owned_of_owner howner).2
  have hne : Zone.ofType records .NS n ≠ [] := by
    rw [howned.ofType_eq, ne_eq, map_eq_nil_iff, filter_eq_nil_iff]
    exact fun hnone => hnone r hr hrtype
  obtain ⟨first, rest, hfirst⟩ := exists_cons_of_ne_nil hne
  have hmem : first ∈ Zone.ofType records .NS n := by rw [hfirst]; exact mem_cons_self
  rw [howned.ofType_eq] at hmem
  obtain ⟨s, hs, rfl⟩ := mem_map.mp hmem
  refine ⟨s.materialize n, rest ++ Zone.ofType records .DS n, ?_, ?_⟩
  · simp [Zone.referral, howner, hfirst]
  · simpa using (mem_filter.mp hs).2

lemma prepend_inj {a b : Record} (h : view a = view b) {s' : Shown} :
    prepend [a] s = prepend [b] s' ↔ s = s' := by
  simp [prepend, h, Prod.ext_iff]

variable {cur : Name}

lemma shows_answers (hin : zone.contains cur = true)
    (hstep : (∃ ending, zone.refStep qtype cur = .done answers ending) ∨ ∃ target, zone.refStep
      qtype cur = .again answers target) (h : Shows zone qtype cur s) : answers.map view <+: s.2.1
    := by
  rcases hstep with ⟨ending, hstep⟩ | ⟨target, hstep⟩
  · rw [(shows_done hin hstep).mp h]
    cases ending <;> exact prefix_refl _
  · obtain ⟨s', -, rfl⟩ := (shows_again hin hstep).mp h
    exact prefix_append _ _

lemma mem_of_firstOf {r : Record} (h : firstOf t records = some r) :
    r.rtype = t ∧ ∃ payload, .other payload r ∈ records := by
  obtain ⟨s, hs, hfull⟩ := exists_of_findSome?_eq_some h
  split at hfull
  · rename_i hrtype
    cases s with
    | other payload record =>
      obtain rfl := some.inj hfull
      exact ⟨hrtype, payload, hs⟩
    | a ttl address => exact absurd hfull (by simp [StoredRecord.full])
    | aaaa ttl address => exact absurd hfull (by simp [StoredRecord.full])
  · exact absurd hfull (by simp)

/-- What the reference finds, as the zone stores it. -/
theorem Zone.Loaded.found (hz : zone.Loaded) (hin : zone.contains cur = true)
    (qtype : RecordType) : ∃ found, zone.lookup cur = found ∧ Zone.Loaded.Seen zone cur found ∧
      zone.refStep qtype cur = stepOf zone.allRecords qtype cur found :=
  ⟨_, rfl, hz.seen ((contains_iff zone cur).mp hin), rfl⟩

/-- A round that gives an answer. -/
def Answering (step : Reference.Step) : Prop :=
  ∃ answers, answers ≠ [] ∧
    ((∃ ending, step = .done answers ending) ∨ ∃ target, step = .again answers target)

lemma not_shows_of_answering (hin : zone.contains cur = true)
    (h : Answering (zone.refStep qtype cur)) (hs : s.2.1 = []) : ¬Shows zone qtype cur s := by
  intro hshows
  obtain ⟨answers, hne, hstep⟩ := h
  have hpre := shows_answers hin hstep hshows
  rw [hs] at hpre
  exact hne (map_eq_nil_iff.mp (prefix_nil.mp hpre))

lemma answering_alias (r : Record) :
    Answering (match aliasTarget r.rdata with
      | some target => .again [r] target
      | none => .done [r] .outOfZone) := by
  refine ⟨[r], cons_ne_nil _ _, ?_⟩
  cases aliasTarget r.rdata with
  | some target => exact .inr ⟨target, rfl⟩
  | none => exact .inl ⟨_, rfl⟩

lemma answering_atNode (cur : Name) (records : List Record) :
    Answering (atNode cur qtype records) ∨ atNode cur qtype records = .done [] .noData := by
  rw [atNode]
  split
  · rename_i hany
    refine .inl ⟨_, ?_, .inl ⟨_, rfl⟩⟩
    obtain ⟨r, hr, hasked⟩ := any_eq_true.mp hany
    rw [ne_eq, map_eq_nil_iff, filter_eq_nil_iff]
    exact fun hnone => hnone r hr hasked
  · split
    · exact .inr rfl
    · rename_i r _
      exact .inl (answering_alias { r with name := cur })

lemma answering_atDname (cur : Name) (dname : Record) (labels : ℕ) :
    Answering (atDname cur qtype dname labels) := by
  rw [atDname]
  split
  · exact ⟨_, cons_ne_nil _ _, .inl ⟨_, rfl⟩⟩
  split
  · exact ⟨_, cons_ne_nil _ _, .inl ⟨_, rfl⟩⟩
  · split
    · exact ⟨_, cons_ne_nil _ _, .inl ⟨_, rfl⟩⟩
    · exact ⟨_, cons_ne_nil _ _, .inr ⟨_, rfl⟩⟩

/-- A round that leaves something to see in the response. -/
def Visible (zone : Zone) : Reference.Step → Prop
  | .done answers ending =>
    (Reference.response zone.allRecords zone.negativeSoaRecord answers ending).shown ≠ (0, [], [])
  | .again answers _ => answers ≠ []

lemma Answering.visible {step : Reference.Step} (h : Answering step) : Visible zone step := by
  obtain ⟨answers, hne, ⟨ending, rfl⟩ | ⟨target, rfl⟩⟩ := h
  · intro heq
    have hmap : answers.map view = [] := by
      cases ending <;> exact congrArg (fun s : Shown => s.2.1) heq
    exact hne (map_eq_nil_iff.mp hmap)
  · exact hne

lemma atNode_visible (cur : Name) (records : List Record) :
    Visible zone (atNode cur qtype records) := by
  rcases answering_atNode cur records with hanswer | hnone
  · exact hanswer.visible
  · rw [hnone]
    exact fun heq => absurd (congrArg (fun s : Shown => s.2.2) heq) (cons_ne_nil _ _)

section

variable (hz : zone.Loaded)
include hz

lemma step_visible (hin : zone.contains cur = true) : Visible zone (zone.refStep qtype cur) := by
  obtain ⟨found, -, hseen, hstep⟩ := hz.found hin qtype
  rw [hstep, stepOf.eq_def]
  cases hseen with
  | @cut k hdeleg hk hcut =>
    simp only
    split
    · exact atNode_visible _ _
    obtain ⟨first, rest, hauthority, -⟩ := referral_authority hz hcut
    obtain ⟨records, howner⟩ : ∃ records, zone.owner (cur.suffix k) = some records :=
      isSome_iff_exists.mp (isSome_of_any hcut)
    rw [← Name.suffix_path, Visible, ← referral_view hz howner]
    intro heq
    have hnil := congrArg (fun s : Shown => s.2.2) heq
    simp [Response.shown, Zone.cnameResponse, hauthority] at hnil
  | node _ _ => exact atNode_visible _ _
  | empty _ _ _ _ => exact atNode_visible _ _
  | rename _ _ _ _ _ _ _ _ => exact (answering_atDname _ _ _).visible
  | wildcard _ _ _ _ _ _ _ _ => exact atNode_visible _ _
  | hollow _ _ _ _ _ => exact atNode_visible _ _
  | missing _ _ _ _ _ _ =>
    exact fun heq => absurd (congrArg fst heq) (show ¬(3 : UInt8) = 0 by decide)

/-- The reference never ends at a name of the zone without a trace. -/
theorem shows_visible (hin : zone.contains cur = true)
    (h : Shows zone qtype cur s) : s ≠ (0, [], []) := by
  have hvisible : Visible zone (zone.refStep qtype cur) := step_visible hz hin
  cases hstep : zone.refStep qtype cur with
  | done answers ending =>
    rw [hstep] at hvisible
    rw [(shows_done hin hstep).mp h]
    exact hvisible
  | again answers target =>
    rw [hstep] at hvisible
    obtain ⟨s', -, rfl⟩ := (shows_again hin hstep).mp h
    intro heq
    have hnil := congrArg (fun s : Shown => s.2.1) heq
    simp only [prepend, append_eq_nil_iff, map_eq_nil_iff] at hnil
    exact hvisible hnil.1

/-- At a name that exists, a round of the chase goes as one of the reference. -/
theorem chaseAt_node (hany : qtype ≠ .ANY) (hin : zone.contains cur = true)
    (howner : zone.owner cur = some records)
    (hstep : zone.refStep qtype cur = atNode cur qtype (records.map
      (·.materialize (lowerName cur)))) {goOn : Name → List Record × ChaseEnd} {Good : Name → Prop}
    (hgood : ∀ next, Shows zone qtype next (zone.cnameResponse (goOn next).1 (goOn next).2).shown ↔
      Good next) :
    Shows zone qtype cur (zone.cnameResponse (zone.chaseAt qtype cur records goOn).1
        (zone.chaseAt qtype cur records goOn).2).shown ↔
      ∀ r, aliasAt qtype (records.map (·.materialize (lowerName cur))) = some r →
        ∃ next, r.rdata = .cname next ∧ Good next := by
  have howned := (hz.owned_of_owner howner).2
  rw [howned.chaseAt_eq, aliasAt_eq hany]
  rw [atNode_eq hany] at hstep
  by_cases hfound : records.filter (fun r => r.rtype = qtype) ≠ []
  · rw [if_pos hfound] at hstep ⊢
    rw [if_pos hfound, shows_done hin hstep]
    refine iff_of_true ?_ (by simp)
    simp only [Response.shown, Zone.cnameResponse, response, List.map_map,
      mk.injEq, and_true, true_and]
    refine map_congr_left fun r hr => ?_
    exact howned.view_materialize rfl (mem_of_mem_filter hr)
  rw [if_neg hfound] at hstep ⊢
  rw [if_neg hfound]
  cases hcname : firstOf .CNAME records with
  | none =>
    rw [hcname] at hstep
    rw [shows_done hin hstep]
    exact iff_of_true rfl (by simp)
  | some r =>
    obtain ⟨payload, hmem⟩ := (mem_of_firstOf hcname).2
    have hview : view r = view { r with name := cur } := by
      rw [view, view, howned.name hmem]
    simp only [hcname] at hstep
    by_cases hread : ∃ next, r.rdata = .cname next
    · obtain ⟨next, hnext⟩ := hread
      have hagain : zone.refStep qtype cur =
          .again [{ r with name := cur }] next := by
        rw [hstep, hnext, aliasTarget]
      have hshown := cnameResponse_append zone [r] (goOn next).1 (goOn next).2
      simp only [hnext]
      rw [singleton_append] at hshown
      rw [hshown, shows_again hin hagain]
      constructor
      · rintro ⟨s', hs', heq⟩ r' hr'
        obtain rfl := some.inj hr'
        refine ⟨next, hnext, (hgood next).mp ?_⟩
        rw [(prepend_inj hview).mp heq]
        exact hs'
      · intro hall
        obtain ⟨next', hnext', hgood'⟩ := hall r rfl
        obtain rfl := RData.cname.inj (hnext.symm.trans hnext')
        exact ⟨_, (hgood next).mpr hgood', (prepend_inj hview).mpr rfl⟩
    · refine iff_of_false ?_ fun hall => ?_
      · have hnodata : (match r.rdata with
          | .cname next => (r :: (goOn next).1, (goOn next).2)
          | _ => ([], .noData)) = ([], .noData) := by
          split
          · rename_i next hnext
            exact absurd ⟨next, hnext⟩ hread
          · rfl
        simp only [hnodata]
        exact not_shows_of_answering hin (hstep ▸ answering_alias { r with name := cur }) rfl
      · obtain ⟨next, hnext, -⟩ := hall r rfl
        exact hread ⟨next, hnext⟩

/-- At a name that a wildcard covers, a round of the chase keeps the owner of the wildcard
unless it is not stored. -/
theorem chaseAt_wildcard (hany : qtype ≠ .ANY) {source : Name} (hin : zone.contains cur = true)
    (hsource : zone.owner source = some records) (hne : source.path ≠ cur.path)
    (hstep : zone.refStep qtype cur = atNode cur qtype (records.map
      (·.materialize (lowerName source)))) (goOn : Name → List Record × ChaseEnd) :
    Shows zone qtype cur (zone.cnameResponse (zone.chaseAt qtype cur records goOn).1
        (zone.chaseAt qtype cur records goOn).2).shown ↔
      aliasAt qtype (records.map (·.materialize (lowerName source))) = none ∧
        ∀ r ∈ records.map (·.materialize (lowerName source)), r.rtype = qtype →
          isAddress r = true := by
  have howned := (hz.owned_of_owner hsource).2
  rw [howned.chaseAt_eq, aliasAt_eq hany]
  rw [atNode_eq hany] at hstep
  by_cases hfound : records.filter (fun r => r.rtype = qtype) ≠ []
  · rw [if_pos hfound] at hstep ⊢
    rw [if_pos hfound, shows_done hin hstep]
    simp only [Response.shown, Zone.cnameResponse, response, List.map_map,
      mk.injEq, and_true, true_and, map_inj_left, mem_filter, decide_eq_true_eq,
      Function.comp_apply, List.mem_map, forall_exists_index, and_imp, forall_apply_eq_imp_iff₂,
      materialize_rtype]
    refine forall_congr' fun r => forall_congr' fun hr => forall_congr' fun _ => ?_
    cases r with
    | a ttl address => exact iff_of_true rfl rfl
    | aaaa ttl address => exact iff_of_true rfl rfl
    | other payload record =>
      refine iff_of_false (fun heq => hne ?_) (by simp [StoredRecord.materialize, howned.whole hr])
      rw [← howned.name hr]
      exact (mk.inj heq).1
  rw [if_neg hfound] at hstep ⊢
  rw [if_neg hfound]
  cases hcname : firstOf .CNAME records with
  | none =>
    rw [hcname] at hstep
    rw [shows_done hin hstep]
    refine iff_of_true rfl ⟨rfl, fun r hr hrtype => absurd ?_ hfound⟩
    obtain ⟨s, hs, rfl⟩ := mem_map.mp hr
    exact ne_nil_of_mem (mem_filter.mpr ⟨hs, by simpa using hrtype⟩)
  | some r =>
    obtain ⟨payload, hmem⟩ := (mem_of_firstOf hcname).2
    simp only [hcname] at hstep
    refine iff_of_false (fun hshows => ?_) (by simp)
    dsimp only at hshows
    split at hshows
    · rename_i next hnext
      rw [hnext] at hstep
      have hpre := shows_answers hin (.inr ⟨next, hstep⟩) hshows
      have hshown := cnameResponse_append zone [r] (goOn next).1 (goOn next).2
      rw [singleton_append] at hshown
      simp only [hshown, prepend, map_cons, map_nil, singleton_append, cons_prefix_cons] at hpre
      refine hne ?_
      rw [← howned.name hmem]
      exact (mk.inj hpre.1).1.symm
    · exact not_shows_of_answering hin (hstep ▸ answering_alias { r with name := cur }) rfl hshows

/-- The chase agrees with the reference exactly on plain names. -/
theorem chase_iff (hany : qtype ≠ .ANY) (rounds : ℕ) (cur : Name) :
    Shows zone qtype cur (zone.cnameResponse (zone.chaseCname qtype rounds cur).1
      (zone.chaseCname qtype rounds cur).2).shown ↔ zone.Plain qtype rounds cur := by
  induction rounds generalizing cur with
  | zero =>
    rw [Zone.Plain]
    cases hin : zone.contains cur with
    | false => exact iff_of_true ((shows_outside hin).mpr rfl) rfl
    | true => exact iff_of_false (fun hshows => shows_visible hz hin hshows rfl) (by simp)
  | succ rounds ih =>
    rw [Zone.Plain, Zone.chaseCname]
    cases hin : zone.contains cur with
    | false =>
      exact iff_of_true ((shows_outside hin).mpr rfl) (by simp)
    | true =>
      rw [if_neg (by decide)]
      simp only [forall_const]
      obtain ⟨found, hlookup, hseen, hstep⟩ := hz.found hin qtype
      rw [hlookup]
      cases hseen with
      | @cut k hdeleg hk hcut =>
        rw [hdeleg]
        obtain ⟨first, rest, hauthority, hfirst⟩ := referral_authority hz hcut
        obtain ⟨records, howner⟩ : ∃ records, zone.owner (cur.suffix k) = some records :=
          isSome_iff_exists.mp (isSome_of_any hcut)
        rw [stepOf] at hstep
        by_cases hparent : k = cur.numLabels ∧ qtype ∈ parentTypes
        · rw [if_pos hparent] at hstep
          refine iff_of_false (fun hshows => ?_) (not_not.mpr hparent)
          rcases answering_atNode cur (Reference.node zone.allRecords cur.path) with hanswer | hnone
          · exact not_shows_of_answering hin (hstep ▸ hanswer) rfl hshows
          rw [hnone] at hstep
          have heq := congrArg (fun s : Shown => s.2.2) ((shows_done hin hstep).mp hshows)
          simp only [Response.shown, Zone.cnameResponse, hauthority, response,
            map_cons, cons.injEq, view, mk.injEq, hfirst] at heq
          exact absurd heq.1.2.1 (show ¬RecordType.NS = .SOA by decide)
        · rw [if_neg hparent, ← Name.suffix_path] at hstep
          refine iff_of_true ((shows_done hin hstep).mpr ?_) hparent
          exact referral_view hz howner []
      | node hdeleg howner =>
        rw [hdeleg, howner]
        exact chaseAt_node hz hany hin howner hstep ih
      | empty hdeleg howner hdname hnode =>
        rw [hdeleg, howner]
        simp only [hnode]
        exact iff_of_true ((shows_done hin hstep).mpr rfl) (by simp [aliasAt])
      | rename hdeleg howner hnode hk habove hr hloop hwild =>
        rw [hdeleg, howner]
        simp only [hnode, hwild, iff_false]
        exact not_shows_of_answering hin (hstep ▸ answering_atDname _ _ _) rfl
      | wildcard hdeleg howner hnode hdname hclosest hne hsource hrecords =>
        rw [hdeleg, howner]
        simp only [hnode, Bool.false_eq_true, if_false,
          wildcardRecords_eq hclosest hne hsource, hrecords]
        have hpath : _ ≠ cur.path := fun heq => by
          rw [owner_congr zone heq, howner] at hrecords
          exact absurd hrecords (by simp)
        rw [chaseAt_wildcard hz hany hin hrecords hpath hstep]
        refine (and_iff_right ?_).symm
        rw [ne_eq, map_eq_nil_iff]
        exact (hz.owned_of_owner hrecords).2.nonempty
      | hollow hdeleg howner hnode hdname hwild =>
        rw [hdeleg, howner]
        simp only [hnode, hwild]
        refine iff_of_false (fun hshows => ?_) (by simp)
        have heq := congrArg fst ((shows_done hin hstep).mp hshows)
        exact absurd heq (show ¬(3 : UInt8) = 0 by decide)
      | missing hdeleg howner hnode hdname hwild habsent =>
        rw [hdeleg, howner]
        simp only [hnode, hwild]
        exact iff_of_true ((shows_done hin hstep).mpr rfl) trivial

end

variable {res : List Record × Reference.Ending} {fuel : ℕ}

lemma resolve_again {target : Name} (hstep : zone.refStep qtype cur = .again answers target)
    (hin : zone.contains cur = true) (h : zone.refResolve qtype fuel cur = some res) :
    ∃ fuel' < fuel, ∃ res', zone.refResolve qtype fuel' target = some res' := by
  obtain ⟨k, rfl⟩ := resolve_pos h
  obtain ⟨more, hmore, -⟩ := (resolve_again_iff hin hstep).mp h
  exact ⟨k, k.lt_succ_self, _, hmore⟩

section Return

variable {source target : Name} {records : List StoredRecord} {r : Record}

/-- A round that answers under the owner of an alias goes on where the alias leads. -/
theorem chaseAt_reaches (hz : zone.Loaded) (hany : qtype ≠ .ANY)
    (hsource : zone.owner source = some records)
    (hnone : records.filter (fun s => s.rtype = qtype) = [])
    (hcname : firstOf .CNAME records = some r) (hdata : r.rdata = .cname target)
    {owner : Name} {found : List StoredRecord} (hin : zone.contains cur = true)
    (howner : zone.owner owner = some found)
    (hsame : cur.path = source.path → owner.path = source.path)
    (hstep : zone.refStep qtype cur = atNode cur qtype (found.map
      (·.materialize (lowerName owner)))) {goOn : Name → List Record × ChaseEnd}
    (hgoOn : ∀ next, (∃ a ∈ (goOn next).1, a.name.path = source.path) → ∀ {fuel res},
      zone.refResolve qtype fuel next = some res → ∃ fuel' < fuel, ∃ res', zone.refResolve qtype
      fuel' target = some res')
    (hemits : ∃ a ∈ (zone.chaseAt qtype cur found goOn).1, a.name.path = source.path)
    (hresolve : zone.refResolve qtype fuel cur = some res) : ∃ fuel' < fuel, ∃ res',
      zone.refResolve qtype fuel' target = some res' := by
  have howned := (hz.owned_of_owner howner).2
  have hrecords : owner.path = source.path → found = records := by
    intro heq
    rw [owner_congr zone heq, hsource] at howner
    exact (some.inj howner).symm
  rw [howned.chaseAt_eq] at hemits
  rw [atNode_eq hany] at hstep
  by_cases hfound : found.filter (fun s => s.rtype = qtype) ≠ []
  · rw [if_pos hfound] at hemits
    obtain ⟨a, ha, hpath⟩ := hemits
    obtain ⟨s, hs, rfl⟩ := mem_map.mp ha
    have howns : owner.path = source.path := by
      cases s with
      | a ttl address => exact hsame hpath
      | aaaa ttl address => exact hsame hpath
      | other payload record => exact (howned.name (mem_of_mem_filter hs)).symm.trans hpath
    rw [hrecords howns] at hfound
    exact absurd hnone hfound
  rw [if_neg hfound] at hemits hstep
  cases hfirst : firstOf .CNAME found with
  | none => simp [hfirst] at hemits
  | some first =>
    simp only [hfirst] at hemits hstep
    split at hemits
    · rename_i next hnext
      have hagain : zone.refStep qtype cur =
          .again [{ first with name := cur }] next := by
        rw [hstep, hnext, aliasTarget]
      obtain ⟨fuel', hlt, res', hres'⟩ := resolve_again hagain hin hresolve
      obtain ⟨a, ha, hpath⟩ := hemits
      rcases mem_cons.mp ha with rfl | ha
      · obtain ⟨payload, hmem⟩ := (mem_of_firstOf hfirst).2
        rw [hrecords ((howned.name hmem).symm.trans hpath), hcname, some.injEq] at hfirst
        rw [← hfirst, hdata, RData.cname.injEq] at hnext
        exact ⟨fuel', hlt, res', hnext ▸ hres'⟩
      · obtain ⟨fuel'', hlt', res'', hres''⟩ := hgoOn next ⟨a, ha, hpath⟩ hres'
        exact ⟨fuel'', hlt'.trans hlt, res'', hres''⟩
    · simp at hemits

/-- A chase that answers under the owner of an alias passes the target of the alias. -/
theorem chase_reaches (hz : zone.Loaded) (hany : qtype ≠ .ANY)
    (hsource : zone.owner source = some records)
    (hnone : records.filter (fun s => s.rtype = qtype) = [])
    (hcname : firstOf .CNAME records = some r) (hdata : r.rdata = .cname target)
    (rounds : ℕ) (hemits : ∃ a ∈ (zone.chaseCname qtype rounds cur).1, a.name.path = source.path)
    (hresolve : zone.refResolve qtype fuel cur = some res) : ∃ fuel' < fuel, ∃ res',
      zone.refResolve qtype fuel' target = some res' := by
  induction rounds generalizing cur fuel res with
  | zero => simp [Zone.chaseCname] at hemits
  | succ rounds ih =>
    rw [Zone.chaseCname] at hemits
    cases hin : zone.contains cur with
    | false => simp [hin] at hemits
    | true =>
      rw [hin] at hemits
      obtain ⟨found, -, hseen, hstep⟩ := hz.found hin qtype
      cases hseen with
      | cut hdeleg hk hcut => simp [hdeleg] at hemits
      | node hdeleg howner =>
        simp only [hdeleg, howner] at hemits
        exact chaseAt_reaches hz hany hsource hnone hcname hdata hin howner id hstep
          (fun _ h _ _ hres => ih h hres) hemits hresolve
      | empty hdeleg howner hdname hnode => simp [hdeleg, howner, hnode] at hemits
      | rename hdeleg howner hnode hk habove hr hloop hwild =>
        simp [hdeleg, howner, hnode, hwild] at hemits
      | wildcard hdeleg howner hnode hdname hclosest hne hstar hrecords =>
        simp only [hdeleg, howner, hnode, wildcardRecords_eq hclosest hne hstar, hrecords] at hemits
        refine chaseAt_reaches hz hany hsource hnone hcname hdata hin hrecords (fun heq => ?_) hstep
          (fun _ h _ _ hres => ih h hres) hemits hresolve
        rw [← owner_congr zone heq, howner] at hsource
        exact absurd hsource (by simp)
      | hollow hdeleg howner hnode hdname hwild => simp [hdeleg, howner, hnode, hwild] at hemits
      | missing hdeleg howner hnode hdname hwild habsent =>
        simp [hdeleg, howner, hnode, hwild] at hemits

/-- If the chase from the target of an alias answers under its owner, the chain is a loop. -/
theorem resolve_none_of_return (hz : zone.Loaded) (hany : qtype ≠ .ANY)
    (hsource : zone.owner source = some records)
    (hnone : records.filter (fun s => s.rtype = qtype) = [])
    (hcname : firstOf .CNAME records = some r) (hdata : r.rdata = .cname target)
    {rounds : ℕ} (hemits : ∃ a ∈ (zone.chaseCname qtype rounds target).1, a.name.path = source.path)
    (fuel : ℕ) : zone.refResolve qtype fuel target = none := by
  induction fuel using Nat.strong_induction_on with
  | _ fuel ih =>
    by_contra hsome
    obtain ⟨res, hres⟩ := ne_none_iff_exists'.mp hsome
    obtain ⟨fuel', hlt, res', hres'⟩ := chase_reaches hz hany hsource hnone hcname hdata rounds
      hemits hres
    rw [ih fuel' hlt] at hres'
    exact absurd hres' (by simp)

end Return

end Chase

end OnetDns.Authority
