import OnetDns.Recurse.Bailiwick

/-!
# Chains of aliases

Every record of a message that `resolve` returns is accounted for by the replies of the log:
an alias on the way from the name, the answer at its end, or the proof that there is none.
The filters are enough for that as long as the replies are clean.
-/
namespace OnetDns.Recurse
open Dns Runs List Option Recursor Subset

variable {qname : Name} {resp : Message}

lemma bestDname_spec {records : List Record} {best : Option Record}
    {record : Record} (h : bestDname qname records best = some record) :
    best = some record ∨ record ∈ records ∧ record.class' = .IN ∧ isDname record = true ∧
      isAbove record.name qname = true := by
  induction records generalizing best with
  | nil => exact .inl h
  | cons a rest ih =>
    rw [bestDname] at h
    split at h
    · rename_i hguard
      simp only [Bool.and_eq_true, decide_eq_true_eq] at hguard
      rcases ih h with hbest | ⟨hmem, hrest⟩
      · obtain rfl := some.inj hbest
        exact .inr ⟨mem_cons_self, hguard.1.1.1, hguard.1.1.2, hguard.1.2⟩
      · exact .inr ⟨mem_cons_of_mem _ hmem, hrest⟩
    · rcases ih h with hbest | ⟨hmem, hrest⟩
      · exact .inl hbest
      · exact .inr ⟨mem_cons_of_mem _ hmem, hrest⟩

variable {target : Name}

lemma dnameRewrite_spec {record synthetic : Record}
    (h : dnameRewrite resp qname = some (record, target, synthetic)) :
    record ∈ resp.answers ∧ record.class' = .IN ∧ isDname record = true ∧
      isAbove record.name qname = true ∧ synthetic = .new qname record.ttl (.cname target) ∧
      ∃ suffix, record.rdata = .dname suffix ∧ Name.fromLabels
        (qname.labels.take (qname.numLabels - record.name.numLabels) ++ suffix.labels) =
          .ok target := by
  rw [dnameRewrite] at h
  split at h
  · cases h
  rename_i found hbest
  split at h
  · rename_i suffix hdata
    split at h
    · cases h
    split at h
    · cases h
    rename_i name hname
    obtain ⟨rfl, hrest⟩ := Prod.mk.inj (some.inj h)
    obtain ⟨rfl, hsynthetic⟩ := Prod.mk.inj hrest
    rcases bestDname_spec hbest with hnone | ⟨hmem, hclass, hdname, habove⟩
    · cases hnone
    · exact ⟨hmem, hclass, hdname, habove, hsynthetic.symm, suffix, hdata, hname⟩
  · cases h

lemma cnameLoop_spec {records : List Record} {found : Option Name}
    (h : cnameLoop qname records found = some target) :
    found = some target ∨ ∃ a ∈ records, a.name.path = qname.path ∧ a.rdata = .cname target := by
  induction records generalizing found with
  | nil => exact .inl h
  | cons a rest ih =>
    have hskip : cnameLoop qname rest found = some target → found = some target ∨
        ∃ b ∈ a :: rest, b.name.path = qname.path ∧ b.rdata = .cname target := by
      intro hrest
      rcases ih hrest with hfound | ⟨b, hb, hlink⟩
      · exact .inl hfound
      · exact .inr ⟨b, mem_cons_of_mem _ hb, hlink⟩
    rw [cnameLoop] at h
    split at h
    · rename_i candidate hdata
      split at h
      · exact hskip h
      rename_i howner
      split at h
      · cases h
      rcases ih h with hfound | ⟨b, hb, hlink⟩
      · obtain rfl := some.inj hfound
        simp only [Bool.or_eq_true, not_or, Bool.not_eq_true, Bool.not_eq_false',
          Name.eqIgnoreCase_path] at howner
        exact .inr ⟨a, mem_cons_self, howner.2, hdata⟩
      · exact .inr ⟨b, mem_cons_of_mem _ hb, hlink⟩
    · exact hskip h

lemma cnameTarget_spec (h : cnameTarget resp qname = some target) :
    ∃ a ∈ resp.answers, a.name.path = qname.path ∧ a.rdata = .cname target := by
  rw [cnameTarget] at h
  split at h
  · rcases cnameLoop_spec h with hnone | hlink
    · cases hnone
    · exact hlink
  · cases h

variable {a : Record}

lemma aliasRrsetRecords_spec {owner : Name} {aliasType : RecordType} (h : a ∈ aliasRrsetRecords resp owner aliasType) :
    a ∈ resp.answers ∧ a.name.path = owner.path := by
  obtain ⟨hmem, hkeeps⟩ := mem_filter.mp h
  simp only [Bool.and_eq_true, Name.eqIgnoreCase_path] at hkeeps
  exact ⟨hmem, hkeeps.1.1⟩

lemma keepsAnswer_path {qtype : RecordType}
    (h : keepsAnswer qname qtype a = true) : a.name.path = qname.path := by
  simp only [keepsAnswer, Bool.and_eq_true, Name.eqIgnoreCase_path] at h
  exact h.1.2

lemma keepsProof_spec {zone : Name} (h : keepsProof zone a = true) :
    zone.path <+: a.name.path ∧ a.rtype ∈ [RecordType.SOA, .NSEC, .NSEC3, .RRSIG] := by
  simp only [keepsProof, Bool.and_eq_true, isWithin_path] at h
  obtain ⟨⟨-, hzone⟩, htype⟩ := h
  refine ⟨hzone, ?_⟩
  split at htype
  · simp_all
  split at htype
  · rename_i hnsec
    rcases hnsec with hnsec | hnsec3
    · simp [hnsec]
    · simp [hnsec3]
  · rw [Bool.and_eq_true, decide_eq_true_eq] at htype
    simp [htype.1]

section Replies

variable {r : Recursor} {log : List Event} {qname : Name} {resp : Message} {chain : List ZoneStep}

/-- A reply that ended an iteration and needs no filter for its DNAMEs. -/
structure Replied (log : List Event) (qname : Name) (resp : Message) (chain : List ZoneStep)
    (zone : Name) : Prop where
  asked : ∃ servers isFinal raw, .asked qname zone servers isFinal raw ∈ log ∧
    resp.answers ⊆ raw.answers ∧ resp.authorities = raw.authorities
  above : zone.path <+: qname.path
  proofZone : Recursor.proofZone chain = some zone
  dnames : ∀ a ∈ resp.answers, a.class' = .IN → isDname a = true → isAbove a.name qname = true →
    zone.path <+: a.name.path
  tooLong : isDnameYxdomain resp qname = true → ∀ a ∈ resp.answers, keepsDname a = true →
    zone.path <+: a.name.path ∧ isAbove a.name qname = true

lemma seen_answers_subset (isFinal : Bool) (zone : Name) (raw : Message) :
    (seen isFinal zone raw).answers ⊆ raw.answers := by
  rw [seen]
  split
  · exact filter_subset_self _
  · exact refl _

lemma seen_authorities (isFinal : Bool) (zone : Name) (raw : Message) :
    (seen isFinal zone raw).authorities = raw.authorities := by
  rw [seen]
  split <;> rfl

/-- The DNAMEs of a full question are filtered; those of a minimised one have to be clean. -/
theorem Ended.replied (h : Ended r log qname resp chain) (hclean : ∀ e ∈ log, e.Clean r) :
    ∃ zone, Replied log qname resp chain zone := by
  obtain ⟨zone, servers, isFinal, raw, hasked, habove, hchain, rfl, hend⟩ := h
  obtain ⟨hyx, hstrict⟩ := hclean _ hasked
  refine ⟨zone, ⟨servers, isFinal, raw, hasked, seen_answers_subset _ _ _,
    seen_authorities _ _ _⟩, habove, hchain, fun a ha hclass hdname hqname => ?_, hyx⟩
  cases isFinal with
  | true =>
    obtain ⟨-, hkept⟩ := mem_filter.mp ha
    rw [hdname, Bool.not_true, Bool.false_or, isWithin_path] at hkept
    exact hkept
  | false =>
    rcases hend with hfinal | hyxdomain | ⟨hsetting, hnx⟩
    · cases hfinal
    · refine (hyx hyxdomain a ha ?_).1
      simp [keepsDname, hclass, hdname]
    · exact hstrict hsetting rfl hnx a ha hclass hdname hqname

variable {zone : Name} {answers authorities : List Record}

section

variable (h : Replied log qname resp chain zone)
include h

lemma Replied.dname {record synthetic : Record}
    (hrewrite : dnameRewrite resp qname = some (record, target, synthetic))
    (htail : Accounted log target answers authorities) :
    Accounted log qname (aliasRrsetRecords resp record.name .DNAME ++ [synthetic] ++ answers)
      authorities := by
  obtain ⟨hmem, hclass, hdname, habove, rfl, suffix, hdata, htarget⟩ := dnameRewrite_spec hrewrite
  obtain ⟨servers, isFinal, raw, hasked, hsub, -⟩ := h.asked
  refine .dname hasked (h.dnames record hmem hclass hdname habove) (isAbove_path habove).1
    (fun a ha => ?_) ⟨record, hsub hmem, rfl, hdata⟩ htarget htail
  obtain ⟨hin, hpath⟩ := aliasRrsetRecords_spec ha
  exact ⟨hsub hin, hpath⟩

lemma Replied.cname (hcname : cnameTarget resp qname = some target)
    (htail : Accounted log target answers authorities) :
    Accounted log qname (aliasRrsetRecords resp qname .CNAME ++ answers) authorities := by
  obtain ⟨servers, isFinal, raw, hasked, hsub, -⟩ := h.asked
  obtain ⟨a, ha, hlink⟩ := cnameTarget_spec hcname
  refine .cname hasked h.above (fun b hb => ?_) ⟨a, hsub ha, hlink⟩ htail
  obtain ⟨hin, hpath⟩ := aliasRrsetRecords_spec hb
  exact ⟨hsub hin, hpath⟩

/-- What is left of a reply, whether it answers or denies. -/
theorem Replied.terminal {out : Message} (hanswers : out.answers ⊆ resp.answers)
    (hauthorities : out.authorities ⊆ resp.authorities) (qtype : RecordType) {positive : Bool}
    {proof : Option Name} (hproof : positive = false → proof = some zone) :
    Accounted log qname (sanitizeTerminalResponse out qname qtype positive proof).answers
      (sanitizeTerminalResponse out qname qtype positive proof).authorities := by
  obtain ⟨servers, isFinal, raw, hasked, hsub, hauth⟩ := h.asked
  cases positive with
  | true =>
    refine .answered hasked h.above fun a ha => ?_
    obtain ⟨hin, hkeeps⟩ := mem_filter.mp ha
    exact ⟨hsub (hanswers hin), keepsAnswer_path hkeeps⟩
  | false =>
    refine .denied hasked fun a ha => ?_
    obtain ⟨hin, hkeeps⟩ := mem_filter.mp ha
    rw [hproof rfl] at hkeeps
    exact ⟨hauth ▸ hauthorities hin, keepsProof_spec hkeeps⟩

end

end Replies

section Resolutions

variable {r : Recursor} {env : Env} {base : World} {qname : Name} {qtype : RecordType}

/-- The records of a message are accounted for, if all replies were clean. -/
def AccountedIn (r : Recursor) (qname : Name) (out : Message) (w : World) : Prop :=
  (∀ e ∈ w.log, e.Clean r) → Accounted w.log qname out.answers out.authorities

lemma safe_verdict : Keeps (discipline r) base (r.verdict env) :=
  safe_tick.bind fun _ _ _ _ _ => .done

variable {log : List Event} {resp : Message} {chain : List ZoneStep}

lemma Ended.replied_of_subset {w : World} (h : Ended r log qname resp chain) (hlog : log ⊆ w.log)
    (hclean : ∀ e ∈ w.log, e.Clean r) : ∃ zone, Replied w.log qname resp chain zone :=
  (h.mono hlog).replied hclean

variable (fuel : ℕ)

lemma safe_resolveInner (cnameDepth dnameDepth : ℕ) :
    Safe (discipline r) base (r.resolveInner env fuel qname qtype cnameDepth dnameDepth)
      fun result w => AccountedIn r qname result.1 w := by
  induction fuel generalizing qname qtype cnameDepth dnameDepth base with
  | zero => exact .throw _
  | succ fuel ih =>
    have hside : SideSafe r fun ns rtype => r.resolveInner env fuel ns rtype 0 0 :=
      fun _ _ _ => (ih 0 0).mono fun _ _ _ _ _ => trivial
    rw [resolveInner]
    split
    · exact .throw _
    split
    · exact .throw _
    refine (safe_iterate hside).bind fun result w₁ _ _ hended => ?_
    obtain ⟨resp, chain⟩ := result
    -- whatever the reply is, it has to be seen from the world at the end
    have hterminal : ∀ positive, Safe (discipline r) w₁ (do
        let status ← r.verdict env
        return (sanitizeTerminalResponse resp qname qtype positive
          (if positive then none else proofZone chain), status))
        fun result w => AccountedIn r qname result.1 w := by
      intro positive
      refine safe_verdict.bind fun status w₂ _ h₂ _ => .pure fun w _ h₃ hclean => ?_
      obtain ⟨zone, hreplied⟩ := hended.replied_of_subset (Subset.trans h₂ h₃) hclean
      refine hreplied.terminal (refl _) (refl _) qtype fun hpositive => ?_
      rw [hpositive]
      exact hreplied.proofZone
    dsimp only
    split
    · rename_i record target synthetic hrewrite
      refine safe_verdict.bind fun status w₂ _ h₂ _ => (ih _ _).bind fun tail w₃ _ h₃ htail => ?_
      refine .pure fun w _ h₄ hclean => ?_
      obtain ⟨zone, hreplied⟩ :=
        hended.replied_of_subset (Subset.trans h₂ (Subset.trans h₃ h₄)) hclean
      exact hreplied.dname hrewrite ((htail fun e he => hclean e (h₄ he)).mono h₄)
    split
    · exact hterminal true
    split
    · exact hterminal false
    split
    · rename_i target hcname
      refine safe_verdict.bind fun status w₂ _ h₂ _ =>
        (ih _ _).bind fun tail w₃ _ h₃ htail => ?_
      refine .pure fun w _ h₄ hclean => ?_
      obtain ⟨zone, hreplied⟩ :=
        hended.replied_of_subset (Subset.trans h₂ (Subset.trans h₃ h₄)) hclean
      exact hreplied.cname hcname ((htail fun e he => hclean e (h₄ he)).mono h₄)
    · exact hterminal false

/-- The verdict leaves the records alone or takes all of them. -/
theorem applyStatus_records (r : Recursor) (status : SecurityStatus) (out : Message) :
    (r.applyStatus status out).answers = out.answers ∧
        (r.applyStatus status out).authorities = out.authorities ∨
      (r.applyStatus status out).answers = [] ∧ (r.applyStatus status out).authorities = [] := by
  cases status with
  | secure => exact .inl ⟨rfl, rfl⟩
  | insecure => exact .inl ⟨rfl, rfl⟩
  | bogus code =>
    rw [applyStatus]
    split
    · exact .inr ⟨rfl, rfl⟩
    · exact .inl ⟨rfl, rfl⟩

lemma applySentinel_records (fails : Bool) (out : Message) :
    (applySentinel fails out).answers = out.answers ∧
        (applySentinel fails out).authorities = out.authorities ∨
      (applySentinel fails out).answers = [] ∧ (applySentinel fails out).authorities = [] := by
  rw [applySentinel]
  split
  · exact .inr ⟨rfl, rfl⟩
  · exact .inl ⟨rfl, rfl⟩

/-- The hop that `alias_hop` finds leads on from the name. -/
theorem Replied.hop {zone : Name} {hop : AliasHop} {answers authorities : List Record}
    (h : Replied log qname resp chain zone) (hhop : aliasHop resp qname qtype = some hop)
    (htail : Accounted log hop.target answers authorities) :
    Accounted log qname (hop.records ++ answers) authorities := by
  rw [aliasHop] at hhop
  split at hhop
  · cases hhop
  split at hhop
  · rename_i record target synthetic hrewrite
    obtain rfl := some.inj hhop
    exact h.dname hrewrite htail
  · split at hhop
    · cases hhop
    · obtain ⟨target, hcname, rfl⟩ := map_eq_some_iff.mp hhop
      exact h.cname hcname htail

lemma Replied.yxdomain {zone : Name}
    (h : Replied log qname resp chain zone) (hyx : isDnameYxdomain resp qname = true) :
    Accounted log qname (resp.answers.filter keepsDname) [] := by
  obtain ⟨servers, isFinal, raw, hasked, hsub, -⟩ := h.asked
  refine .tooLong hasked fun a ha => ?_
  obtain ⟨hin, hkeeps⟩ := mem_filter.mp ha
  obtain ⟨hzone, habove⟩ := h.tooLong hyx a hin hkeeps
  exact ⟨hsub hin, hzone, isAbove_path habove⟩

lemma safe_iterateToAnswer : Safe (discipline r) base (r.iterateToAnswer env fuel qname qtype)
      fun out w => AccountedIn r qname out w := by
  rw [iterateToAnswer]
  split
  · exact .throw _
  have hside : SideSafe r fun ns rtype => r.resolveInner env fuel ns rtype 0 0 :=
    fun _ _ _ => (safe_resolveInner fuel 0 0).mono fun _ _ _ _ _ => trivial
  have hbudget : Keeps (discipline r) base (modify fun w =>
      { w with nsResolves := r.maxNsResolves, queries := maxTotalQueries } : RunM Unit) := safe_modifyGet (fun _ => rfl) (fun _ => rfl) fun _ => rfl
  refine hbudget.bind fun _ w₀ _ _ _ => (safe_iterate hside).bind fun result w₁ _ _ hended => ?_
  obtain ⟨resp, chain⟩ := result
  dsimp only
  split
  · rename_i hyx
    refine .pure fun w _ h₁ hclean => ?_
    obtain ⟨zone, hreplied⟩ := hended.replied_of_subset h₁ hclean
    exact hreplied.yxdomain hyx
  split
  · refine safe_verdict.bind fun status w₂ _ h₂ _ => safe_tick.bind fun n w₃ _ h₃ _ => ?_
    refine .pure fun w _ h₄ hclean => ?_
    obtain ⟨zone, hreplied⟩ := hended.replied_of_subset
      (Subset.trans h₂ (Subset.trans h₃ h₄)) hclean
    obtain ⟨hanswers, hauthorities⟩ :
        (r.applyStatus status (withoutAd resp)).answers ⊆ resp.answers ∧
          (r.applyStatus status (withoutAd resp)).authorities ⊆ resp.authorities := by
      rcases applyStatus_records r status (withoutAd resp) with ⟨h, h'⟩ | ⟨h, h'⟩
      · rw [h, h']
        exact ⟨refl _, refl _⟩
      · rw [h, h']
        exact ⟨nil_subset _, nil_subset _⟩
    change Accounted _ _ (applySentinel _ _).answers (applySentinel _ _).authorities
    rcases applySentinel_records (env.sentinelFails n)
      (sanitizeTerminalResponse (r.applyStatus status (withoutAd resp)) qname qtype
      (resp.header.rcode = rcodeNoError && hasDirectQtypeAnswer resp qname qtype)
      (proofZone chain)) with ⟨h, h'⟩ | ⟨h, h'⟩
    · rw [h, h']
      exact hreplied.terminal hanswers hauthorities qtype fun _ => hreplied.proofZone
    · rw [h, h']
      exact .refused
  · rename_i hop hhop
    refine safe_verdict.bind fun status w₂ _ h₂ _ =>
      (safe_resolveInner fuel _ _).bind fun tail w₃ _ h₃ htail => ?_
    refine .pure fun w _ h₄ hclean => ?_
    obtain ⟨zone, hreplied⟩ := hended.replied_of_subset
      (Subset.trans h₂ (Subset.trans h₃ h₄)) hclean
    change Accounted _ _ (r.applyStatus _ _).answers (r.applyStatus _ _).authorities
    rcases applyStatus_records r (status.combine tail.2)
      (withoutAd (withAlias hop.records resp tail.1)) with ⟨h, h'⟩ | ⟨h, h'⟩
    · rw [h, h']
      exact hreplied.hop hhop ((htail fun e he => hclean e (h₄ he)).mono h₄)
    · rw [h, h']
      exact .refused

lemma safe_resolve : Safe (discipline r) base (r.resolve env fuel qname qtype)
      fun out w => AccountedIn r qname out w :=
  (safe_iterateToAnswer fuel).bind fun _ _ _ _ hout => .pure fun _ _ hgrows hclean =>
    (hout fun e he => hclean e (hgrows he)).mono hgrows

end Resolutions

/-- Questions one after another, whatever becomes of them. -/
def Recursor.run (r : Recursor) (env : Env) (fuel : ℕ) : List (Name × RecordType) → World → World
  | [], w => w
  | (qname, qtype) :: rest, w => r.run env fuel rest (r.resolve env fuel qname qtype w).2

lemma inv_start (r : Recursor) (delegMax nsAddrMax : ℕ) :
    Inv r (World.start delegMax nsAddrMax) := by
  refine ⟨?_, ?_, ?_⟩ <;> intro _ h <;> cases h

lemma run_inv {r : Recursor} {env : Env} {fuel : ℕ} {w : World} (h : Inv r w)
    (questions : List (Name × RecordType)) : Inv r (r.run env fuel questions w) := by
  induction questions generalizing w with
  | nil => exact h
  | cons question rest ih =>
    have hstep : Safe (discipline r) w (r.resolve env fuel question.1 question.2)
        fun out w => AccountedIn r question.1 out w := safe_resolve fuel
    exact ih (hstep w h (refl _)).1

/-- Whatever the servers say, iterations stay above the name and go strictly down, and what
the cache of delegations holds is from servers of the zone above, with addresses from glue
inside it or from a resolution on the side. What is returned is accounted for if the replies
were clean. -/
theorem resolve_bailiwick (r : Recursor) (env : Env) (fuel delegMax nsAddrMax : ℕ)
    (questions : List (Name × RecordType)) (qname : Name) (qtype : RecordType)
    (result : Except RecurseError Message) (w : World)
    (hrun : r.resolve env fuel qname qtype (r.run env fuel questions
      (World.start delegMax nsAddrMax)) = (result, w)) :
    (∀ e ∈ w.log, e.Bound r w.log) ∧
      (∀ entry ∈ w.delegCache.entries, ∃ qname parent child resp servers,
        .referred qname parent child resp servers ∈ w.log ∧ entry.1 = child.canonicalKey ∧
          entry.2.addrs ⊆ servers) ∧
      ((∀ e ∈ w.log, e.Clean r) → ∀ out, result = .ok out →
        Accounted w.log qname out.answers out.authorities) := by
  have hinv : Inv r (r.run env fuel questions (.start delegMax nsAddrMax)) :=
    run_inv (inv_start r delegMax nsAddrMax) questions
  obtain ⟨hinv', -, hout⟩ := safe_resolve fuel _ hinv (Subset.refl _)
  rw [hrun] at hinv' hout
  exact ⟨hinv'.bound, hinv'.deleg, fun hclean out hok => hout out hok hclean⟩

/-! A recursor with one root, and a zone `e` whose servers answer for the root. -/

def lab : Recursor :=
  ⟨[⟨.v4 ⟨[9, 9, 9, 9], by decide⟩, 53⟩], 53, 8, 8, 8, 8, 3600, true, true, fun _ => true, false,
    false, false, false, false⟩

lemma labZone_labels : ∀ label ∈ ([[101]] : List Bytes), 1 ≤ label.length ∧ label.length ≤ 63 := by
  decide

lemma labZone_wire : wireLen [[101]] ≤ maxNameLen := by decide

def labZone : Name := ⟨[[101]], labZone_labels, labZone_wire⟩
def labServer : Name := ⟨[[110, 115], [101]], by decide, by decide⟩
def labName : Name := ⟨[[98], [97], [101]], by decide, by decide⟩
def labEvil : Name := ⟨[[120]], by decide, by decide⟩

def labReply (aa : Bool) (rcode : UInt16) (answers authorities additionals : List Record) :
    Message :=
  ⟨⟨0, true, 0, aa, false, false, false, false, false, rcode⟩, [], answers, authorities,
    additionals⟩

lemma labOctets : ([1, 2, 3, 4] : Bytes).length = 4 := rfl

/-- The root delegates `e`. -/
def labReferral : Message :=
  labReply false 0 [] [.new labZone 60 (.ns labServer)]
    [.new labServer 60 (.a ⟨[1, 2, 3, 4], labOctets⟩)]

/-- Replies by the number of the question to the environment. -/
def labEnv (replies : List (ℕ × Message)) : Env :=
  ⟨fun n _ _ _ => (replies.lookup n).elim (.error .noResponse) .ok, fun _ => 0, fun _ _ => true,
    fun _ => .insecure, fun _ => false⟩

/-- The servers of `e` know the address of one of them. -/
def labHost : Message := labReply true 0 [.new labServer 60 (.a ⟨[1, 2, 3, 4], labOctets⟩)] [] []

/-- A reply that does not say YXDOMAIN. -/
def noYxdomain : Event → Bool
  | .asked qname zone _ isFinal resp => !isDnameYxdomain (seen isFinal zone resp) qname
  | _ => true

theorem resolve_bailiwick_lab :
    ∃ out w, lab.resolve (labEnv [(1, labReferral), (3, labHost)]) 1 labServer .A
        (World.start 8 8) = (.ok out, w) ∧ out.answers = labHost.answers ∧
      Accounted w.log labServer out.answers out.authorities ∧ w.delegCache.entries.length = 1 ∧
      ∀ entry ∈ w.delegCache.entries, ∃ qname parent child resp servers,
        .referred qname parent child resp servers ∈ w.log ∧ entry.1 = child.canonicalKey ∧
          entry.2.addrs ⊆ servers := by
  have hout : (lab.resolve (labEnv [(1, labReferral), (3, labHost)]) 1 labServer .A
      (.start 8 8)).1.toOption.map (·.answers) = some labHost.answers := by decide +kernel
  have hlog : (lab.resolve (labEnv [(1, labReferral), (3, labHost)]) 1 labServer .A
      (.start 8 8)).2.log.all noYxdomain = true := by decide +kernel
  have hstored : (lab.resolve (labEnv [(1, labReferral), (3, labHost)]) 1 labServer .A
      (.start 8 8)).2.delegCache.entries.length = 1 := by decide +kernel
  generalize hrun : lab.resolve (labEnv [(1, labReferral), (3, labHost)]) 1 labServer .A
    (.start 8 8) = outcome at hout hlog hstored
  obtain ⟨result, w⟩ := outcome
  cases result with
  | error e => cases hout
  | ok out =>
    obtain ⟨-, hdeleg, haccounted⟩ := resolve_bailiwick lab _ 1 8 8 [] labServer .A _ w hrun
    refine ⟨out, w, rfl, some.inj hout, haccounted (fun e he => ?_) out rfl, hstored, hdeleg⟩
    have hquiet := all_eq_true.mp hlog e he
    cases e with
    | asked qname zone servers isFinal resp =>
      refine ⟨fun hyx => ?_, fun hstrict => by cases hstrict⟩
      rw [noYxdomain, hyx] at hquiet
      cases hquiet
    | _ => trivial

/-- A reply has no record from outside its zone. -/
def tidy : Event → Bool
  | .asked _ zone _ _ resp => resp.answers.all fun a => !isWithin a.name zone
  | _ => true

/-- The servers of `e` say YXDOMAIN to a minimised question, with a DNAME of the root. -/
def labLeak : Message := labReply true 6 [.new Name.root 60 (.dname labEvil)] [] []

theorem resolve_leaks : ∃ out w, lab.resolve (labEnv [(1, labReferral), (3, labLeak)]) 1 labName .A
      (World.start 8 8) = (.ok out, w) ∧
    ∃ a ∈ out.answers, ∀ qname zone servers isFinal resp,
      .asked qname zone servers isFinal resp ∈ w.log → a ∈ resp.answers →
        ¬zone.path <+: a.name.path := by
  have hout : (lab.resolve (labEnv [(1, labReferral), (3, labLeak)]) 1 labName .A
      (.start 8 8)).1.toOption.map (·.answers) = some labLeak.answers := by decide +kernel
  have hlog : (lab.resolve (labEnv [(1, labReferral), (3, labLeak)]) 1 labName .A
      (.start 8 8)).2.log.all tidy = true := by decide +kernel
  generalize hrun : lab.resolve (labEnv [(1, labReferral), (3, labLeak)]) 1 labName .A
    (.start 8 8) = outcome at hout hlog
  obtain ⟨result, w⟩ := outcome
  cases result with
  | error e => cases hout
  | ok out =>
    have hanswers : out.answers = labLeak.answers := some.inj hout
    refine ⟨out, w, rfl, .new .root 60 (.dname labEvil), ?_, ?_⟩
    · rw [hanswers]
      exact mem_cons_self
    · intro qname zone servers isFinal resp hasked ha hwithin
      have houtside := all_eq_true.mp (all_eq_true.mp hlog _ hasked) _ ha
      rw [(isWithin_path _ _).mpr hwithin] at houtside
      cases houtside

end OnetDns.Recurse
