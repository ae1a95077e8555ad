import OnetDns.Authority.Answers

/-!
# Which queries are answered correctly

The first round of `Zone::query`, and with it the exact condition under which a response
is the one of the reference algorithm.
-/
namespace OnetDns.Authority
open Dns Dnssec List Option Prod Reference Zone.Loaded

namespace Zone

variable (zone : Zone) (qtype : RecordType)

/-- The alias to follow can be read, and leads to a name that is plain. -/
def AliasPlain (records : List Record) : Prop :=
  ∀ r, Reference.aliasAt qtype records = some r →
    ∃ next, r.rdata = .cname next ∧ zone.Plain qtype 8 next

/-- A question that the code answers as the reference does. Its wildcard owns something, its
DNAME can be read, and the chain goes on over plain names. -/
def Straight (q : Name) : Prop :=
  match zone.lookup q with
  | .cut labels => labels = q.numLabels → qtype ∈ parentTypes →
      zone.AliasPlain qtype (Reference.node zone.allRecords q.path)
  | .node records => zone.AliasPlain qtype records
  | .rename dname labels => ∃ suffix, dname.rdata = .dname suffix ∧
      ∀ target, Reference.substitute q suffix labels = .ok target → qtype ≠ .CNAME →
        if qtype = .ANY then zone.contains target = false else zone.Plain qtype 8 target
  | .wildcard records => records ≠ [] ∧ zone.AliasPlain qtype records
  | .missing => True

end Zone

variable {answers : List Record} {ending : Reference.Ending}

section First

variable {zone : Zone} {qtype : RecordType}

lemma aliasAt_any {records : List Record} : aliasAt .ANY records = none := by
  rw [aliasAt]
  cases records with
  | nil => rfl
  | cons r rest => simp [asked]

variable {records : List StoredRecord}

lemma atNode_any (hne : records ≠ []) (name cur : Name) :
    atNode cur .ANY (records.map (·.materialize name)) =
      .done (records.map fun r => { r.materialize name with name := cur }) .answered := by
  have hall : ∀ l : List Record, l.filter (asked .ANY) = l := fun l =>
    filter_eq_self.mpr fun r _ => by simp [asked]
  obtain ⟨first, rest, rfl⟩ := exists_cons_of_ne_nil hne
  rw [atNode, hall, List.map_map]
  rfl

/-- The first round at records is a round of the chase. -/
theorem answerAt_eq (hany : qtype ≠ .ANY) (q : Name) (records : List StoredRecord) :
    zone.answerAt q qtype records =
      zone.cnameResponse (zone.chaseAt qtype q records (zone.chaseCname qtype 8)).1
        (zone.chaseAt qtype q records (zone.chaseCname qtype 8)).2 := by
  rw [Zone.answerAt, if_neg hany, Zone.chaseAt]
  by_cases hexact : Zone.ofType records qtype q ≠ []
  · rw [if_pos hexact, if_pos hexact]
    rfl
  rw [if_neg hexact, if_neg hexact]
  by_cases hcname : qtype = .CNAME
  · subst hcname
    rw [not_not.mp hexact]
    rfl
  rw [if_neg hcname]
  cases (Zone.ofType records .CNAME q).head? with
  | none => rfl
  | some r =>
    simp only
    split <;> rfl

variable {q : Name}

lemma answerAt_node (hz : zone.Loaded) (hin : zone.contains q = true)
    (howner : zone.owner q = some records)
    (hstep : zone.refStep qtype q = atNode q qtype (records.map (·.materialize (lowerName q)))) :
    Shows zone qtype q (zone.answerAt q qtype records).shown ↔
      zone.AliasPlain qtype (records.map (·.materialize (lowerName q))) := by
  have howned := (hz.owned_of_owner howner).2
  by_cases hany : qtype = .ANY
  · subst hany
    rw [atNode_any howned.nonempty] at hstep
    rw [shows_done hin hstep, Zone.AliasPlain, aliasAt_any]
    refine iff_of_true ?_ (by simp)
    rw [Zone.answerAt, if_pos rfl]
    simp only [Response.shown, response, List.map_map, mk.injEq, and_true, true_and]
    exact map_congr_left fun r hr => howned.view_materialize rfl hr
  · rw [answerAt_eq hany]
    exact chaseAt_node hz hany hin howner hstep (chase_iff hz hany 8)

/-- The owner that `synthesize_owner` leaves on a record. -/
def renamed (q source : Name) (r : Record) : Record :=
  if r.name.eqIgnoreCase source then { r with name := q } else r

variable {r : Record} {source : Name}

lemma renamed_of_ne (h : r.name.path ≠ source.path) : renamed q source r = r := by
  rw [renamed, if_neg]
  rwa [Name.eqIgnoreCase_path]

lemma renamed_of_eq (h : r.name.path = source.path) :
    renamed q source r = { r with name := q } := by
  rw [renamed, if_pos]
  rwa [Name.eqIgnoreCase_path]

lemma view_renamed (howned : Owned source records)
    (hne : q.path ≠ source.path) {r : StoredRecord} (hr : r ∈ records) (name : Name) :
    view (renamed q source (r.materialize q)) = view { r.materialize name with name := q } := by
  cases r with
  | a ttl address => rw [renamed_of_ne (show _ ≠ _ from hne)]; rfl
  | aaaa ttl address => rw [renamed_of_ne (show _ ≠ _ from hne)]; rfl
  | other payload record =>
    rw [StoredRecord.materialize, renamed_of_eq (howned.name hr)]
    rfl

lemma synthesizeOwner_append (q source : Name) (front more : List Record) (ending : ChaseEnd) :
    (Zone.synthesizeOwner (zone.cnameResponse (front ++ more) ending) q source).shown =
      prepend (front.map (renamed q source))
        (zone.cnameResponse (more.map (renamed q source)) ending).shown := by
  cases ending <;>
    simp [Zone.cnameResponse, Response.shown, prepend, Zone.synthesizeOwner, renamed,
      Function.comp_def]

/-- The alias of a wildcard: the chain goes on from its target as it does elsewhere. -/
theorem wildcard_alias (hz : zone.Loaded) (hany : qtype ≠ .ANY) {next : Name}
    (hin : zone.contains q = true) (hsource : zone.owner source = some records)
    (hnone : records.filter (fun s => s.rtype = qtype) = [])
    (hcname : firstOf .CNAME records = some r) (hdata : r.rdata = .cname next)
    (hstep : zone.refStep qtype q = .again [{ r with name := q }] next) :
    Shows zone qtype q (Zone.synthesizeOwner (zone.cnameResponse
        (r :: (zone.chaseCname qtype 8 next).1) (zone.chaseCname qtype 8 next).2) q source).shown ↔
      zone.Plain qtype 8 next := by
  obtain ⟨payload, hmem⟩ := (mem_of_firstOf hcname).2
  have hname := (hz.owned_of_owner hsource).2.name hmem
  rw [← singleton_append, synthesizeOwner_append, map_singleton, renamed_of_eq hname,
    shows_again hin hstep]
  by_cases hemits : ∃ a ∈ (zone.chaseCname qtype 8 next).1, a.name.path = source.path
  · have hloop := resolve_none_of_return hz hany hsource hnone hcname hdata hemits
    have hnever : ∀ s, ¬Shows zone qtype next s := by
      rintro s ⟨fuel, answers, ending, hresolve, -⟩
      exact absurd ((hloop fuel).symm.trans hresolve) (by simp)
    refine iff_of_false ?_ fun hplain => hnever _ ((chase_iff hz hany 8 next).mpr hplain)
    rintro ⟨s', hs', -⟩
    exact hnever s' hs'
  have hkept : (zone.chaseCname qtype 8 next).1.map (renamed q source) =
      (zone.chaseCname qtype 8 next).1 := by
    rw [map_congr_left, List.map_id]
    exact fun a ha => renamed_of_ne fun heq => hemits ⟨a, ha, heq⟩
  rw [hkept, ← chase_iff hz hany 8 next]
  constructor
  · rintro ⟨s', hs', heq⟩
    rwa [(prepend_inj rfl).mp heq]
  · exact fun hshows => ⟨_, hshows, rfl⟩

lemma answerAt_wildcard (hz : zone.Loaded) (hin : zone.contains q = true)
    (howner : zone.owner q = none) (hsource : zone.owner source = some records)
    (hstep : zone.refStep qtype q = atNode q qtype (records.map (·.materialize
      (lowerName source)))) :
    Shows zone qtype q (Zone.synthesizeOwner (zone.answerAt q qtype records) q source).shown ↔
      zone.AliasPlain qtype (records.map (·.materialize (lowerName source))) := by
  have howned := (hz.owned_of_owner hsource).2
  have hne : q.path ≠ source.path := by
    intro heq
    rw [owner_congr zone heq, hsource] at howner
    exact absurd howner (by simp)
  by_cases hany : qtype = .ANY
  · subst hany
    rw [atNode_any howned.nonempty] at hstep
    rw [shows_done hin hstep, Zone.AliasPlain, aliasAt_any]
    refine iff_of_true ?_ (by simp)
    rw [Zone.answerAt, if_pos rfl]
    simp only [Zone.synthesizeOwner, Response.shown, response, List.map_map,
      mk.injEq, and_true, true_and]
    exact map_congr_left fun r hr => view_renamed howned hne hr _
  rw [answerAt_eq hany, howned.chaseAt_eq, Zone.AliasPlain, aliasAt_eq hany]
  rw [atNode_eq hany] at hstep
  by_cases hfound : records.filter (fun r => r.rtype = qtype) ≠ []
  · rw [if_pos hfound] at hstep ⊢
    rw [if_pos hfound, shows_done hin hstep]
    refine iff_of_true ?_ (by simp)
    simp only [Zone.synthesizeOwner, Response.shown, Zone.cnameResponse, response,
      List.map_map, mk.injEq, and_true, true_and]
    exact map_congr_left fun r hr => view_renamed howned hne (mem_of_mem_filter hr) _
  rw [if_neg hfound] at hstep ⊢
  rw [if_neg hfound]
  cases hcname : firstOf .CNAME records with
  | none =>
    rw [hcname] at hstep
    rw [shows_done hin hstep]
    exact iff_of_true rfl (by simp)
  | some r =>
    simp only [hcname] at hstep
    simp only [some.injEq, forall_eq']
    split
    · rename_i next hnext
      have hagain : zone.refStep qtype q =
          .again [{ r with name := q }] next := by
        rw [hstep, hnext, aliasTarget]
      rw [wildcard_alias hz hany hin hsource (not_not.mp hfound) hcname hnext hagain, hnext]
      simp
    · rename_i hunread
      refine iff_of_false ?_ (by rintro ⟨next, hnext, -⟩; exact hunread next hnext)
      exact not_shows_of_answering hin (hstep ▸ answering_alias { r with name := q }) rfl

lemma dnameOf_eq (hr : firstOf .DNAME records = some r) :
    Zone.dnameOf records = match r.rdata with
      | .dname target => some (r, target)
      | _ => none := by
  rw [firstOf] at hr
  cases hdata : r.rdata <;> simp only [Zone.dnameOf, hr, hdata]

lemma wildcard_none (hwild : zone.wildcardRecords q = none) : zone.wildcard q qtype = none := by
  rw [Zone.wildcardRecords] at hwild
  rw [Zone.wildcard]
  cases hclosest : zone.closestEncloser q with
  | none => rfl
  | some closest =>
    simp only [hclosest] at hwild ⊢
    split at hwild
    · rename_i heq
      rw [if_pos heq]
    rename_i hne
    rw [if_neg hne]
    cases hsource : prependWildcard closest with
    | none => rfl
    | some source =>
      rw [hsource, bind_some] at hwild
      simp [hwild]

lemma wildcard_eq {closest : Name} (hclosest : zone.closestEncloser q = some closest)
    (hne : closest.eqIgnoreCase q = false) (hsource : prependWildcard closest = some source)
    (hrecords : zone.owner source = some records) :
    zone.wildcard q qtype =
      some (Zone.synthesizeOwner (zone.answerAt q qtype records) q source) := by
  rw [Zone.wildcard, hclosest]
  simp [hne, hsource, hrecords]

lemma eqIgnoreCase_suffix {k : ℕ} (hk : k ≤ q.numLabels) :
    q.eqIgnoreCase (q.suffix k) = decide (k = q.numLabels) := by
  rw [Bool.eq_iff_iff, Name.eqIgnoreCase_path, decide_eq_true_eq]
  constructor
  · intro heq
    have hlen := congrArg length heq
    rw [Name.path_length, Name.path_length, Name.suffix_numLabels, min_eq_left hk] at hlen
    exact hlen.symm
  · rintro rfl
    rw [q.suffix_numLabels_self]

lemma chaseAt_visible (cur : Name) (records : List StoredRecord)
    (goOn : Name → List Record × ChaseEnd) :
    (zone.cnameResponse (zone.chaseAt qtype cur records goOn).1
      (zone.chaseAt qtype cur records goOn).2).shown ≠ (0, [], []) := by
  have hsoa : (zone.cnameResponse [] .noData).shown ≠ (0, [], []) := fun heq =>
    absurd (congrArg (fun s : Shown => s.2.2) heq) (cons_ne_nil _ _)
  have hanswers : ∀ (answers : List Record) (ending : ChaseEnd), answers ≠ [] →
      (zone.cnameResponse answers ending).shown ≠ (0, [], []) := by
    intro answers ending hne heq
    have hnil : answers.map view = [] := by
      cases ending <;> exact congrArg (fun s : Shown => s.2.1) heq
    exact hne (map_eq_nil_iff.mp hnil)
  rw [Zone.chaseAt]
  split
  · rename_i hexact
    exact hanswers _ _ hexact
  split
  · split
    · exact hanswers _ _ (cons_ne_nil _ _)
    · exact hsoa
  · exact hsoa

lemma chase_visible (hz : zone.Loaded) {cur : Name} (hin : zone.contains cur = true)
    (rounds : ℕ) : (zone.cnameResponse (zone.chaseCname qtype (rounds + 1) cur).1
      (zone.chaseCname qtype (rounds + 1) cur).2).shown ≠ (0, [], []) := by
  obtain ⟨found, -, hseen, -⟩ := hz.found hin qtype
  have hsoa : (zone.cnameResponse [] .noData).shown ≠ (0, [], []) := fun heq =>
    absurd (congrArg (fun s : Shown => s.2.2) heq) (cons_ne_nil _ _)
  have hmissing : (zone.cnameResponse [] .noSuchName).shown ≠ (0, [], []) := fun heq =>
    absurd (congrArg fst heq) (show ¬(3 : UInt8) = 0 by decide)
  rw [Zone.chaseCname, hin]
  cases hseen with
  | cut hdeleg hk hcut =>
    obtain ⟨first, rest, hauthority, -⟩ := referral_authority hz hcut
    simp only [hdeleg]
    intro heq
    have hnil := congrArg (fun s : Shown => s.2.2) heq
    simp [Response.shown, Zone.cnameResponse, hauthority] at hnil
  | node hdeleg howner =>
    simp only [hdeleg, howner]
    exact chaseAt_visible cur _ _
  | empty hdeleg howner hdname hnode =>
    simp only [hdeleg, howner, hnode]
    exact hsoa
  | rename hdeleg howner hnode hk habove hr hloop hwild =>
    simp only [hdeleg, howner, hnode, hwild]
    exact hmissing
  | wildcard hdeleg howner hnode hdname hclosest hne hsource hrecords =>
    simp only [hdeleg, howner, hnode, wildcardRecords_eq hclosest hne hsource, hrecords]
    exact chaseAt_visible cur _ _
  | hollow hdeleg howner hnode hdname hwild =>
    simp only [hdeleg, howner, hnode, hwild]
    exact hmissing
  | missing hdeleg howner hnode hdname hwild habsent =>
    simp only [hdeleg, howner, hnode, hwild]
    exact hmissing

lemma prepend_left_inj (answers : List Record) {s s' : Shown} :
    prepend answers s = prepend answers s' ↔ s = s' := by
  simp [prepend, Prod.ext_iff]

lemma follow_shown (answers : List Record) (target : Name) :
    (zone.follow qtype answers target).shown =
      prepend answers (zone.cnameResponse (zone.chaseCname qtype 8 target).1
        (zone.chaseCname qtype 8 target).2).shown :=
  cnameResponse_append zone answers _ _

lemma dname_shows (hz : zone.Loaded) (hin : zone.contains q = true) {k : ℕ}
    (hr : firstOf .DNAME records = some r)
    (hloop : zone.dnameLoop (q.numLabels - zone.origin.numLabels) q.canonicalKey =
      (Zone.dnameOf records).map fun (r, target) => (r, target, k))
    (hstep : zone.refStep qtype q = atDname q qtype r k) {suffix : Name}
    (hdata : r.rdata = .dname suffix) :
    ∃ resp, zone.dname q qtype = some resp ∧ (Shows zone qtype q resp.shown ↔
      ∀ target, substitute q suffix k = .ok target → qtype ≠ .CNAME →
        if qtype = .ANY then zone.contains target = false else zone.Plain qtype 8 target) := by
  rw [dnameOf_eq hr, hdata] at hloop
  rw [atDname, hdata, suffixTarget] at hstep
  simp only at hstep
  rw [Zone.dname, hloop]
  refine ⟨_, rfl, ?_⟩
  have hlabels : Name.fromLabels (q.labels.take (q.numLabels - k) ++ suffix.labels) =
      substitute q suffix k := rfl
  simp only [hlabels]
  cases hsub : substitute q suffix k with
  | error e =>
    rw [hsub] at hstep
    rw [shows_done hin hstep]
    exact iff_of_true rfl (by simp)
  | ok target =>
    simp only [hsub] at hstep
    simp only [Except.ok.injEq, forall_eq']
    by_cases hcname : qtype = .CNAME
    · rw [if_pos (.inl hcname)] at hstep
      rw [if_pos hcname, shows_done hin hstep]
      exact iff_of_true rfl fun hne => absurd hcname hne
    rw [if_neg hcname, follow_shown]
    simp only [ne_eq, hcname, not_false_eq_true, forall_const]
    by_cases hany : qtype = .ANY
    · rw [if_pos (.inr hany)] at hstep
      rw [if_pos hany, shows_done hin hstep]
      constructor
      · intro heq
        have hnone := (prepend_left_inj _).mp (heq.trans
          (response_append _ _ [r, .new q r.ttl (.cname target)] [] .answered))
        by_contra hcontains
        exact chase_visible hz (Bool.not_eq_false _ ▸ hcontains) 7 hnone
      · intro hout
        rw [Zone.chaseCname, hout]
        rfl
    · rw [if_neg (by simp [hcname, hany])] at hstep
      rw [if_neg hany, shows_again hin hstep, ← chase_iff hz hany 8 target]
      constructor
      · rintro ⟨s', hs', heq⟩
        rwa [(prepend_left_inj _).mp heq]
      · exact fun hshows => ⟨_, hshows, rfl⟩

/-- The code shows what the reference shows exactly at straight questions. -/
theorem query_shows (hz : zone.Loaded) (hin : zone.contains q = true) :
    Shows zone qtype q (zone.query q qtype).shown ↔ zone.Straight qtype q := by
  obtain ⟨found, hlookup, hseen, hstep⟩ := hz.found hin qtype
  rw [Zone.Straight, Zone.query, hlookup]
  cases hseen with
  | @cut k hdeleg hk hcut =>
    obtain ⟨records, howner⟩ : ∃ records, zone.owner (q.suffix k) = some records :=
      isSome_iff_exists.mp (isSome_of_any hcut)
    rw [stepOf] at hstep
    simp only [hdeleg, eqIgnoreCase_suffix hk]
    by_cases hparent : k = q.numLabels ∧ qtype ∈ parentTypes
    · rw [if_pos hparent] at hstep
      rw [if_pos (by simp [hparent])]
      obtain ⟨rfl, htypes⟩ := hparent
      rw [q.suffix_numLabels_self] at howner
      simp only [q.suffix_numLabels_self, forall_const, htypes]
      rw [hz.node_eq, howner] at hstep ⊢
      exact answerAt_node hz hin howner hstep
    · rw [if_neg hparent, ← Name.suffix_path] at hstep
      rw [if_neg (by simpa using hparent)]
      refine iff_of_true ((shows_done hin hstep).mpr ?_) fun hlabels htypes =>
        absurd ⟨hlabels, htypes⟩ hparent
      exact referral_view hz howner []
  | node hdeleg howner =>
    simp only [hdeleg, howner]
    exact answerAt_node hz hin howner hstep
  | empty hdeleg howner hdname hnode =>
    simp only [hdeleg, howner, hdname, hnode]
    exact iff_of_true ((shows_done hin hstep).mpr rfl) (by simp [Zone.AliasPlain, aliasAt])
  | @rename k records r hdeleg howner hnode hk habove hr hloop hwild =>
    simp only [hdeleg, howner]
    by_cases hread : ∃ suffix, r.rdata = .dname suffix
    · obtain ⟨suffix, hdata⟩ := hread
      obtain ⟨resp, hresp, hshows⟩ := dname_shows hz hin hr hloop hstep hdata
      simp [hresp, hshows, hdata]
    have hdname : zone.dname q qtype = none := by
      refine dname_none ?_ qtype
      rw [hloop, dnameOf_eq hr]
      split
      · rename_i suffix hdata
        exact absurd ⟨suffix, hdata⟩ hread
      · rfl
    simp only [hdname, hnode, wildcard_none hwild]
    refine iff_of_false ?_ (by rintro ⟨suffix, hdata, -⟩; exact hread ⟨suffix, hdata⟩)
    exact not_shows_of_answering hin (hstep ▸ answering_atDname _ _ _) rfl
  | wildcard hdeleg howner hnode hdname hclosest hne hsource hrecords =>
    simp only [hdeleg, howner, hdname, hnode, Bool.false_eq_true, if_false,
      wildcard_eq hclosest hne hsource hrecords]
    rw [answerAt_wildcard hz hin howner hrecords hstep]
    refine (and_iff_right ?_).symm
    rw [ne_eq, map_eq_nil_iff]
    exact (hz.owned_of_owner hrecords).2.nonempty
  | hollow hdeleg howner hnode hdname hwild =>
    simp only [hdeleg, howner, hdname, hnode, wildcard_none hwild]
    refine iff_of_false (fun hshows => ?_) (by simp)
    have heq := congrArg fst ((shows_done hin hstep).mp hshows)
    exact absurd heq (show ¬(3 : UInt8) = 0 by decide)
  | missing hdeleg howner hnode hdname hwild habsent =>
    simp only [hdeleg, howner, hdname, hnode, wildcard_none hwild]
    exact iff_of_true ((shows_done hin hstep).mpr rfl) trivial

lemma atNode_ne_delegated (q : Name) (records : List Record) (answers : List Record)
    (cut : Path) : atNode q qtype records ≠ .done answers (.delegated cut) := by
  rw [atNode]
  split
  · simp
  · split
    · simp
    · split <;> simp

lemma atDname_ne_delegated (q : Name) (dname : Record) (labels : ℕ) (answers : List Record)
    (cut : Path) : atDname q qtype dname labels ≠ .done answers (.delegated cut) := by
  rw [atDname]
  split
  · simp
  · split
    · simp
    · split <;> simp

/-- A round that ends at a cut has no answers. -/
theorem stepOf_delegated {content : List Record} {found : Reference.Found} {cut : Path}
    (h : stepOf content qtype q found = .done answers (.delegated cut)) : answers = [] := by
  cases found with
  | cut labels =>
    rw [stepOf] at h
    split at h
    · exact absurd h (atNode_ne_delegated _ _ _ _)
    · exact (Reference.Step.done.inj h).1.symm
  | node records => exact absurd h (atNode_ne_delegated _ _ _ _)
  | rename dname labels => exact absurd h (atDname_ne_delegated _ _ _ _ _)
  | wildcard records => exact absurd h (atNode_ne_delegated _ _ _ _)
  | missing => exact absurd h (by simp [stepOf])

/-- Only a referral is not authoritative. -/
theorem resolve_authoritative (hz : zone.Loaded) (hin : zone.contains q = true)
    (hfirst : ∀ cut, zone.refStep qtype q ≠ .done [] (.delegated cut)) {fuel : ℕ}
    (h : zone.refResolve qtype fuel q = some (answers, ending)) :
    (response zone.allRecords zone.negativeSoaRecord answers ending).authoritative = true := by
  have hvisible : Visible zone (zone.refStep qtype q) := step_visible hz hin
  obtain ⟨k, rfl⟩ := resolve_pos h
  cases hstep : zone.refStep qtype q with
  | done answers' ending' =>
    cases (resolve_done hin hstep k).symm.trans h
    cases ending with
    | delegated cut =>
      have hnil := stepOf_delegated hstep
      subst hnil
      exact absurd hstep (hfirst cut)
    | answered | noSuchName | noData | outOfZone | tooLong => rfl
  | again front target =>
    rw [hstep] at hvisible
    obtain ⟨more, -, rfl⟩ := (resolve_again_iff hin hstep).mp h
    have hne : front ++ more ≠ [] := fun hnil => hvisible (append_eq_nil_iff.mp hnil).1
    cases ending with
    | delegated cut => exact decide_eq_true hne
    | answered | noSuchName | noData | outOfZone | tooLong => rfl

lemma cnameResponse_authoritative (answers : List Record) (ending : ChaseEnd) :
    (zone.cnameResponse answers ending).authoritative = true := by
  cases ending <;> rfl

lemma answerAt_authoritative (q : Name) (records : List StoredRecord) :
    (zone.answerAt q qtype records).authoritative = true := by
  by_cases hany : qtype = .ANY
  · rw [Zone.answerAt, if_pos hany]
  · rw [answerAt_eq hany]
    exact cnameResponse_authoritative _ _

lemma dname_authoritative {resp : Response} (h : zone.dname q qtype = some resp) :
    resp.authoritative = true := by
  obtain ⟨⟨record, suffix, labels⟩, -, rfl⟩ := map_eq_some_iff.mp h
  dsimp only
  split
  · rfl
  · split
    · rfl
    · exact cnameResponse_authoritative _ _

lemma query_authoritative (hz : zone.Loaded) (hin : zone.contains q = true) :
    (zone.query q qtype).authoritative = false ↔
      ∃ cut, zone.refStep qtype q = .done [] (.delegated cut) := by
  obtain ⟨found, -, hseen, hstep⟩ := hz.found hin qtype
  rw [hstep, Zone.query]
  have hnode : ∀ records, ¬∃ cut, atNode q qtype records = .done [] (.delegated cut) := by
    rintro records ⟨cut, heq⟩
    exact atNode_ne_delegated q records [] cut heq
  have hno : ∀ {b : Bool}, b = true → ¬b = false := by simp
  cases hseen with
  | @cut k hdeleg hk hcut =>
    rw [stepOf]
    simp only [hdeleg, eqIgnoreCase_suffix hk]
    by_cases hparent : k = q.numLabels ∧ qtype ∈ parentTypes
    · rw [if_pos hparent, if_pos (by simp [hparent])]
      exact iff_of_false (hno (answerAt_authoritative _ _)) (hnode _)
    · rw [if_neg hparent, if_neg (by simpa using hparent)]
      exact iff_of_true rfl ⟨_, rfl⟩
  | node hdeleg howner =>
    simp only [hdeleg, howner]
    exact iff_of_false (hno (answerAt_authoritative _ _)) (hnode _)
  | empty hdeleg howner hdname hexists =>
    simp only [hdeleg, howner, hdname, hexists]
    exact iff_of_false (hno rfl) (hnode _)
  | rename hdeleg howner hexists hk habove hr hloop hwild =>
    simp only [hdeleg, howner]
    refine iff_of_false (hno ?_) (by rintro ⟨cut, heq⟩; exact atDname_ne_delegated _ _ _ _ _ heq)
    cases hresp : zone.dname q qtype with
    | some resp => exact dname_authoritative hresp
    | none => simp [hexists, wildcard_none hwild]
  | wildcard hdeleg howner hexists hdname hclosest hne hsource hrecords =>
    simp only [hdeleg, howner, hdname, hexists, wildcard_eq hclosest hne hsource hrecords]
    exact iff_of_false (hno (answerAt_authoritative _ _)) (hnode _)
  | hollow hdeleg howner hexists hdname hwild =>
    simp only [hdeleg, howner, hdname, hexists, wildcard_none hwild]
    exact iff_of_false (hno rfl) (hnode _)
  | missing hdeleg howner hexists hdname hwild habsent =>
    simp only [hdeleg, howner, hdname, hexists, wildcard_none hwild]
    exact iff_of_false (hno rfl) (by simp [stepOf])

/-- The response is the reference's exactly at straight questions. -/
theorem reference_iff (hz : zone.Loaded) (hin : zone.contains q = true) : (∃ fuel answers ending,
      zone.refResolve qtype fuel q = some (answers, ending) ∧
        (zone.query q qtype).Same
          (response zone.allRecords zone.negativeSoaRecord answers ending)) ↔
      zone.Straight qtype q := by
  rw [← query_shows hz hin]
  constructor
  · rintro ⟨fuel, answers, ending, hresolve, hsame⟩
    refine ⟨fuel, answers, ending, hresolve, ?_⟩
    rw [Response.shown, Response.shown, hsame.rcode, hsame.answers, hsame.authority]
  rintro ⟨fuel, answers, ending, hresolve, hshown⟩
  obtain ⟨hrcode, hboth⟩ := mk.inj hshown
  obtain ⟨hanswers, hauthority⟩ := mk.inj hboth
  refine ⟨fuel, answers, ending, hresolve, hrcode.symm, ?_, hanswers.symm, hauthority.symm⟩
  by_cases hfirst : ∃ cut, zone.refStep qtype q = .done [] (.delegated cut)
  · rw [(query_authoritative hz hin).mpr hfirst]
    obtain ⟨cut, hstep⟩ := hfirst
    obtain ⟨k, rfl⟩ := resolve_pos hresolve
    cases (resolve_done hin hstep k).symm.trans hresolve
    rfl
  · rw [resolve_authoritative hz hin (fun cut heq => hfirst ⟨cut, heq⟩) hresolve,
      ← Bool.not_eq_false, query_authoritative hz hin]
    exact hfirst

/-- Where the reference comes to an end, its answers are linked, and a denial is of a name
that is not there. -/
def Chained (zone : Zone) (qtype : RecordType) (name : Name) : Prop :=
  ∀ (fuel : ℕ) (answers : List Record) (ending : Reference.Ending),
    zone.refResolve qtype fuel name = some (answers, ending) →
      ∃ last, Linked name answers last ∧
        (ending = .noSuchName → Reference.present zone.allRecords last.path = false)

variable {name : Name}

lemma chained_outside (hout : zone.contains name = false) : Chained zone qtype name := by
  intro fuel answers ending h
  obtain ⟨k, rfl⟩ := resolve_pos h
  cases (resolve_outside hout k).symm.trans h
  exact ⟨name, .found (by simp), by simp⟩

section

variable (hin : zone.contains name = true)
include hin

lemma chained_done {last : Name} (hstep : zone.refStep qtype name = .done answers ending)
    (hlinked : Linked name answers last)
    (habsent : ending = .noSuchName → present zone.allRecords last.path = false) :
    Chained zone qtype name := by
  intro fuel answers ending h
  obtain ⟨k, rfl⟩ := resolve_pos h
  cases (resolve_done hin hstep k).symm.trans h
  exact ⟨last, hlinked, habsent⟩

lemma chained_again {target : Name} (hstep : zone.refStep qtype name = .again answers target)
    (hlinked : ∀ {rest last}, Linked target rest last → Linked name (answers ++ rest) last)
    (htarget : Chained zone qtype target) : Chained zone qtype name := by
  intro fuel answers ending h
  obtain ⟨k, rfl⟩ := resolve_pos h
  obtain ⟨more, hmore, rfl⟩ := (resolve_again_iff hin hstep).mp h
  obtain ⟨last, hrest, habsent⟩ := htarget _ _ _ hmore
  exact ⟨last, hlinked hrest, habsent⟩

lemma chained_atNode {records : List Record}
    (hstep : zone.refStep qtype name = atNode name qtype records)
    (halias : ∀ r, aliasAt qtype records = some r → ∃ next, r.rdata = .cname next ∧
      Chained zone qtype next) : Chained zone qtype name := by
  rw [atNode] at hstep
  rw [aliasAt] at halias
  split at hstep
  · refine chained_done hin hstep (.found fun r hr => ?_) (by simp)
    obtain ⟨r', -, rfl⟩ := mem_map.mp hr
    rfl
  rename_i hnone
  rw [if_neg hnone] at halias
  cases hfind : records.find? fun r => r.rtype = .CNAME with
  | none =>
    rw [hfind] at hstep
    exact chained_done hin hstep (.found (by simp)) (by simp)
  | some r =>
    obtain ⟨next, hdata, hnext⟩ := halias r hfind
    simp only [hfind, hdata] at hstep
    exact chained_again hin hstep (fun hrest => .cname rfl rfl hrest) hnext

end

section

variable (hz : zone.Loaded)
include hz

lemma plain_chained (rounds : ℕ) {cur : Name}
    (hplain : zone.Plain qtype rounds cur) : Chained zone qtype cur := by
  induction rounds generalizing cur with
  | zero => exact chained_outside hplain
  | succ rounds ih =>
    cases hin : zone.contains cur with
    | false => exact chained_outside hin
    | true =>
      obtain ⟨found, hlookup, hseen, hstep⟩ := hz.found hin qtype
      have hplain' := hplain hin
      rw [hlookup] at hplain'
      cases found with
      | cut labels =>
        rw [stepOf, if_neg hplain'] at hstep
        exact chained_done hin hstep (.found (by simp)) (by simp)
      | node records =>
        refine chained_atNode hin hstep fun r hr => ?_
        obtain ⟨next, hdata, hnext⟩ := hplain' r hr
        exact ⟨next, hdata, ih hnext⟩
      | rename dname labels => exact hplain'.elim
      | wildcard records =>
        refine chained_atNode hin hstep fun r hr => ?_
        rw [hplain'.2.1] at hr
        exact absurd hr (by simp)
      | missing =>
        cases hseen with
        | missing _ _ _ _ _ habsent =>
          exact chained_done hin hstep (.found (by simp)) fun _ => habsent

section

variable (hin : zone.contains q = true)
include hin

lemma dname_chained {k : ℕ} {suffix : Name} (habove : r.name.path <+: q.path)
    (hstep : zone.refStep qtype q = atDname q qtype r k) (hdata : r.rdata = .dname suffix)
    (hplain : ∀ target, substitute q suffix k = .ok target → qtype ≠ .CNAME → if qtype =
      .ANY then zone.contains target = false else zone.Plain qtype 8 target) :
    Chained zone qtype q := by
  rw [atDname, hdata, suffixTarget] at hstep
  simp only at hstep
  cases hsub : substitute q suffix k with
  | error e =>
    rw [hsub] at hstep
    exact chained_done hin hstep (.tooLong habove hdata) (by simp)
  | ok target =>
    simp only [hsub] at hstep
    split at hstep
    · exact chained_done hin hstep (.dname habove hdata rfl rfl (.found (by simp))) (by simp)
    rename_i hother
    have hnext := hplain target hsub fun hcname => hother (.inl hcname)
    rw [if_neg fun hany => hother (.inr hany)] at hnext
    exact chained_again hin hstep (fun hrest => .dname habove hdata rfl rfl hrest)
      (plain_chained hz 8 hnext)

lemma aliasPlain_chained {records : List Record}
    (hstep : zone.refStep qtype q = atNode q qtype records)
    (halias : zone.AliasPlain qtype records) : Chained zone qtype q := by
  refine chained_atNode hin hstep fun r hr => ?_
  obtain ⟨next, hdata, hnext⟩ := halias r hr
  exact ⟨next, hdata, plain_chained hz 8 hnext⟩

lemma straight_chained (hstraight : zone.Straight qtype q) : Chained zone qtype q := by
  obtain ⟨found, hlookup, hseen, hstep⟩ := hz.found hin qtype
  rw [Zone.Straight, hlookup] at hstraight
  cases found with
  | cut labels =>
    rw [stepOf] at hstep
    split at hstep
    · rename_i hparent
      exact aliasPlain_chained hz hin hstep (hstraight hparent.1 hparent.2)
    · exact chained_done hin hstep (.found (by simp)) (by simp)
  | node records => exact aliasPlain_chained hz hin hstep hstraight
  | rename dname labels =>
    obtain ⟨suffix, hdata, hplain⟩ := hstraight
    cases hseen with
    | rename _ _ _ _ habove hr _ _ =>
      obtain ⟨payload, hmem⟩ := (mem_of_firstOf hr).2
      refine dname_chained hz hin ?_ hstep hdata hplain
      rw [(hz.owned_of_owner habove).2.name hmem, Name.suffix_path]
      exact take_prefix _ _
  | wildcard records => exact aliasPlain_chained hz hin hstep hstraight.2
  | missing =>
    cases hseen with
    | missing _ _ _ _ _ habsent =>
      exact chained_done hin hstep (.found (by simp)) fun _ => habsent

end

end

/-- Links depend on what is seen of the answers. -/
theorem Linked.congr {last : Name} {answers' : List Record}
    (h : Linked name answers last) (hview : answers'.map view = answers.map view) :
    Linked name answers' last := by
  have hpath : ∀ {a b : Record}, view a = view b → a.name.path = b.name.path := fun h =>
    congrArg (fun v : View => v.1) h
  have hrdata : ∀ {a b : Record}, view a = view b → a.rdata = b.rdata := fun h =>
    congrArg (fun v : View => v.2.2.2.2) h
  induction h generalizing answers' with
  | @found name answers hall =>
    refine .found fun r hr => ?_
    have hmem : view r ∈ answers.map view := hview ▸ mem_map_of_mem hr
    obtain ⟨r', hr', heq⟩ := mem_map.mp hmem
    rw [← hpath heq]
    exact hall r' hr'
  | cname howner hdata hrest ih =>
    obtain ⟨r, rest, rfl, hr, hmore⟩ := map_eq_cons_iff.mp hview
    exact .cname ((hpath hr).trans howner) ((hrdata hr).trans hdata) (ih hmore)
  | dname habove hdname howner hdata hrest ih =>
    obtain ⟨d, rest, rfl, hd, hmore⟩ := map_eq_cons_iff.mp hview
    obtain ⟨r, rest, rfl, hr, hmore⟩ := map_eq_cons_iff.mp hmore
    exact .dname (hpath hd ▸ habove) ((hrdata hd).trans hdname) ((hpath hr).trans howner)
      ((hrdata hr).trans hdata) (ih hmore)
  | tooLong habove hdname =>
    obtain ⟨d, rest, rfl, hd, hmore⟩ := map_eq_cons_iff.mp hview
    rw [map_nil, map_eq_nil_iff] at hmore
    subst hmore
    exact .tooLong (hpath hd ▸ habove) ((hrdata hd).trans hdname)

/-- Every record of a list is one of the zone. -/
def Held (zone : Zone) (records : List Record) : Prop :=
  ∀ r ∈ records, view r ∈ zone.allRecords.map view

lemma held_nil (zone : Zone) : Held zone [] := by
  simp [Held]

lemma Held.append {a b : List Record} (ha : Held zone a) (hb : Held zone b) :
    Held zone (a ++ b) := by
  intro r hr
  rcases mem_append.mp hr with hr | hr
  · exact ha r hr
  · exact hb r hr

section

variable (hz : zone.Loaded)
include hz

lemma held_ofType {n : Name} (howner : zone.owner n = some records) (t : RecordType) :
    Held zone (Zone.ofType records t n) := by
  intro r hr
  have hmem : view r ∈ (Zone.ofType records t n).map view := mem_map_of_mem hr
  rw [ofType_view hz howner] at hmem
  obtain ⟨r', hr', heq⟩ := mem_map.mp hmem
  rw [← heq]
  exact mem_map_of_mem (mem_of_mem_filter (mem_of_mem_filter hr'))

lemma held_glue (name : Name) : Held zone (zone.glue name) := by
  rw [Zone.glue]
  split
  · rename_i records howner
    exact (held_ofType hz howner _).append (held_ofType hz howner _)
  · exact held_nil zone

lemma held_bindingGlue (owner target : Name) (binding : Option RecordType) :
    Held zone (zone.bindingGlue owner target binding) := by
  unfold Zone.bindingGlue
  split
  · exact held_nil zone
  · split
    · rename_i records rtype howner
      exact held_ofType hz howner _
    · exact held_nil zone

lemma held_targetGlue (records : List Record) : Held zone (zone.targetGlue records) := by
  have hloop : ∀ seen, Held zone (zone.targetGlueLoop records seen) := by
    induction records with
    | nil => exact fun _ => held_nil zone
    | cons record rest ih =>
      intro seen
      rw [Zone.targetGlueLoop]
      split
      · exact ih seen
      split
      · exact ih seen
      · refine .append ?_ (ih _)
        split
        · exact (held_glue hz _).append (held_bindingGlue hz _ _ _)
        · exact held_nil zone
  exact hloop []

lemma held_referral (deleg : Name) : Held zone (zone.referral deleg).additional := by
  intro r hr
  obtain ⟨ns, -, hglue⟩ := mem_flatMap.mp hr
  split at hglue
  · exact held_glue hz _ r hglue
  · exact absurd hglue (by simp)

end

/-- What comes with the end of a chain. -/
def ChaseEnd.Held (zone : Zone) : ChaseEnd → Prop
  | .answered additional => Authority.Held zone additional
  | _ => True

section

variable (hz : zone.Loaded)
include hz

lemma held_cnameResponse (answers : List Record) {ending : ChaseEnd}
    (h : ending.Held zone) : Held zone (zone.cnameResponse answers ending).additional := by
  cases ending with
  | answered additional => exact h
  | delegated deleg => exact held_referral hz deleg
  | noSuchName | noData | outOfZone => exact held_nil zone

lemma held_chaseAt (cur : Name) (records : List StoredRecord)
    {goOn : Name → List Record × ChaseEnd} (h : ∀ next, (goOn next).2.Held zone) :
    (zone.chaseAt qtype cur records goOn).2.Held zone := by
  rw [Zone.chaseAt]
  split
  · exact held_targetGlue hz _
  split
  · split
    · exact h _
    · trivial
  · trivial

lemma held_chaseCname (rounds : ℕ) (cur : Name) :
    (zone.chaseCname qtype rounds cur).2.Held zone := by
  induction rounds generalizing cur with
  | zero => trivial
  | succ rounds ih =>
    rw [Zone.chaseCname]
    split
    · trivial
    split
    · trivial
    split
    · exact held_chaseAt hz _ _ ih
    split
    · trivial
    · split
      · exact held_chaseAt hz _ _ ih
      · trivial

lemma held_answerAt (q : Name) (records : List StoredRecord) :
    Held zone (zone.answerAt q qtype records).additional := by
  by_cases hany : qtype = .ANY
  · rw [Zone.answerAt, if_pos hany]
    exact held_nil zone
  · rw [answerAt_eq hany]
    exact held_cnameResponse hz _ (held_chaseAt hz _ _ (held_chaseCname hz 8))

lemma held_query (q : Name) : Held zone (zone.query q qtype).additional := by
  rw [Zone.query]
  split
  · split
    · exact held_answerAt hz _ _
    · exact held_referral hz _
  split
  · exact held_answerAt hz _ _
  split
  · rename_i resp hresp
    obtain ⟨⟨record, suffix, labels⟩, -, rfl⟩ := map_eq_some_iff.mp hresp
    dsimp only
    split
    · exact held_nil zone
    · split
      · exact held_nil zone
      · exact held_cnameResponse hz _ (held_chaseCname hz 8 _)
  split
  · exact held_nil zone
  split
  · rename_i resp hresp
    rw [Zone.wildcard] at hresp
    split at hresp
    · exact absurd hresp (by simp)
    split at hresp
    · exact absurd hresp (by simp)
    · split at hresp
      · exact absurd hresp (by simp)
      · obtain ⟨records, -, rfl⟩ := map_eq_some_iff.mp hresp
        exact held_answerAt hz _ _
  · exact held_nil zone

end

end First

lemma rcode_eq_three {content : List Record} {soa : Record}
    (h : (response content soa answers ending).rcode = 3) : ending = .noSuchName := by
  cases ending with
  | noSuchName => rfl
  | answered | noData | delegated | outOfZone => exact absurd h (show ¬(0 : UInt8) = 3 by decide)
  | tooLong => exact absurd h (show ¬(6 : UInt8) = 3 by decide)

lemma response_answers (content answers : List Record) (soa : Record) (ending : Reference.Ending) :
    (response content soa answers ending).answers = answers := by
  cases ending <;> rfl

/-- A zone that was loaded answers as the reference does exactly at straight questions. -/
theorem query_correct_iff {origin : Name} {soa : Soa} {soaTtl : UInt32} {records : List Record}
    {zone : Zone} (hload : Zone.fromFlatRecords origin soa soaTtl records = .ok zone)
    (htyped : Typed records) {qname : Name} (hin : zone.contains qname = true) (qtype : RecordType)
    :
    Correct zone qname qtype (zone.query qname qtype) ↔ zone.Straight qtype qname := by
  have hz := (built_of_fromFlatRecords hload).loaded htyped
  constructor
  · exact fun hcorrect => (reference_iff hz hin).mp hcorrect.reference
  intro hstraight
  have href := (reference_iff hz hin).mpr hstraight
  refine ⟨href, ?_, held_query hz qname⟩
  obtain ⟨fuel, answers, ending, hresolve, hsame⟩ := href
  obtain ⟨last, hlinked, habsent⟩ := straight_chained hz hin hstraight _ _ _ hresolve
  have hanswers := hsame.answers
  rw [response_answers] at hanswers
  exact ⟨last, hlinked.congr hanswers, fun hrcode =>
    habsent (rcode_eq_three (hsame.rcode.symm.trans hrcode))⟩

def shopOrigin : Name := ⟨[[101]], by decide, by decide⟩
def shopAlias : Name := ⟨[[99], [101]], by decide, by decide⟩
def shopTarget : Name := ⟨[[120], [119], [101]], by decide, by decide⟩
def shopWildcard : Name := ⟨[[42], [119], [101]], by decide, by decide⟩
def shopSoa : Soa := ⟨shopOrigin, shopOrigin, 1, 2, 3, 4, 5⟩

/-- An alias to a name that only a wildcard covers. -/
def shopRecords : List Record :=
  [.new shopOrigin 100 (.soa shopSoa), .new shopOrigin 100 (.ns shopAlias),
    .new shopAlias 60 (.cname shopTarget), .new shopWildcard 60 (.a ⟨[1, 2, 3, 4], by decide⟩),
    .new shopWildcard 60 (.txt [[65]])]

lemma typed_shopRecords : Typed shopRecords := by
  simp [Typed, shopRecords, Record.new]

/-- Addresses of the wildcard come under the name that was asked. -/
theorem query_correct_shop : ∃ zone, Zone.fromFlatRecords shopOrigin shopSoa 100 shopRecords =
    .ok zone ∧ Correct zone shopAlias .A (zone.query shopAlias .A) := by
  have hfacts : (Zone.fromFlatRecords shopOrigin shopSoa 100 shopRecords).map (fun zone =>
      (zone.contains shopAlias, zone.lookup shopAlias, zone.lookup shopTarget)) =
      .ok (true, .node [.new shopAlias 60 (.cname shopTarget)],
        .wildcard [.new shopWildcard 60 (.a ⟨[1, 2, 3, 4], by decide⟩),
          .new shopWildcard 60 (.txt [[65]])]) := by
    decide +kernel
  cases hload : Zone.fromFlatRecords shopOrigin shopSoa 100 shopRecords with
  | error e => simp [hload, Except.map] at hfacts
  | ok zone =>
    simp only [hload, Except.map, Except.ok.injEq, Prod.mk.injEq] at hfacts
    obtain ⟨hin, halias, htarget⟩ := hfacts
    refine ⟨zone, rfl, (query_correct_iff hload typed_shopRecords hin .A).mpr ?_⟩
    rw [Zone.Straight, halias]
    intro r hr
    have hcname : Reference.aliasAt .A [.new shopAlias 60 (.cname shopTarget)] =
      some (.new shopAlias 60 (.cname shopTarget)) := by decide
    obtain rfl := some.inj (hcname.symm.trans hr)
    refine ⟨shopTarget, rfl, fun _ => ?_⟩
    rw [htarget]
    exact ⟨by simp, by decide, by decide⟩

/-- Its texts keep the owner of the wildcard, so the chain is broken. -/
theorem query_shop_broken : ∃ zone, Zone.fromFlatRecords shopOrigin shopSoa 100 shopRecords =
    .ok zone ∧ zone.contains shopAlias = true ∧
      ¬Correct zone shopAlias .TXT (zone.query shopAlias .TXT) := by
  have hfacts : (Zone.fromFlatRecords shopOrigin shopSoa 100 shopRecords).map (fun zone =>
      (zone.contains shopAlias, (zone.query shopAlias .TXT).answers)) =
      .ok (true, [.new shopAlias 60 (.cname shopTarget), .new shopWildcard 60 (.txt [[65]])]) := by
    decide +kernel
  cases hload : Zone.fromFlatRecords shopOrigin shopSoa 100 shopRecords with
  | error e => simp [hload, Except.map] at hfacts
  | ok zone =>
    simp only [hload, Except.map, Except.ok.injEq, Prod.mk.injEq] at hfacts
    obtain ⟨hin, hanswers⟩ := hfacts
    refine ⟨zone, rfl, hin, fun hcorrect => ?_⟩
    obtain ⟨last, hlinked, -⟩ := hcorrect.linked
    rw [hanswers] at hlinked
    cases hlinked with
    | found hall => exact absurd (hall _ (mem_cons_of_mem _ mem_cons_self)) (by decide)
    | cname _ hdata hrest =>
      obtain rfl := RData.cname.inj hdata
      cases hrest with
      | found hall => exact absurd (hall _ mem_cons_self) (by decide)
      | cname howner _ _ => exact absurd howner (by decide)
      | tooLong _ hdname => exact absurd hdname (by simp [Record.new])
    | dname _ hdname _ _ _ => exact absurd hdname (by simp [Record.new])

end OnetDns.Authority
