import OnetDns.Recurse.Chains
import OnetDns.Recurse.Zones

/-!
# Walks down a tree of zones

What the cache of delegations holds of a tree that is served honestly, after any questions,
and where an iteration that starts from it ends.
-/
namespace OnetDns.Recurse
open Dns Dnssec Runs List Recursor

/-- Every delegation of the cache is one of the tree. -/
def Sound (tree : ZoneTree) (r : Recursor) (w : World) : Prop :=
  ∀ entry ∈ w.delegCache.entries, ∃ zone : Name, entry.1 = zone.canonicalKey ∧
    zone.path ∈ tree.apexes ∧ tree.Serves r zone.path entry.2.addrs

def soundness (tree : ZoneTree) (r : Recursor) : Discipline World where
  inv := Sound tree r
  grows _ _ := True
  refl _ := trivial
  trans _ _ := trivial

/-- Servers of a zone, one of which can be asked. -/
def Usable (tree : ZoneTree) (r : Recursor) (z : Path) (servers : List SocketAddr) : Prop :=
  servers ⊆ tree.servers z ∧ ∃ s ∈ servers, r.serverEligible s.ip = true

variable {servers : List SocketAddr}

lemma ZoneTree.Serves.usable {tree : ZoneTree} {r : Recursor} {z : Path} (h : tree.Serves r z servers) : Usable tree r z servers := by
  obtain ⟨s, hs⟩ := exists_mem_of_ne_nil servers h.1
  exact ⟨fun s hs => (h.2 s hs).1, s, hs, (h.2 s hs).2⟩

lemma ZoneTree.Serves.shorten {tree : ZoneTree} {r : Recursor} {z : Path} (h : tree.Serves r z servers) :
    tree.Serves r z ((sortDedup SocketAddr.orderKey servers).take maxCachedNsAddrs) := by
  constructor
  · intro hnil
    rcases take_eq_nil_iff.mp hnil with hzero | hnil
    · cases hzero
    · exact sortDedup_ne_nil h.1 hnil
  · intro s hs
    exact h.2 s (mem_of_sortDedup (mem_of_mem_take hs))

/-- A state of an iteration that is at a zone of the tree. -/
structure AtZone (tree : ZoneTree) (r : Recursor) (qname : Name) (state : IterationState) :
    Prop where
  apex : state.zone.path ∈ tree.apexes
  above : state.zone.path <+: qname.path
  servers : Usable tree r state.zone.path state.servers
  depth : state.zone.numLabels ≤ state.depth

/-- A reply from a zone of the tree, on the way to a name. -/
def Told (tree : ZoneTree) (r : Recursor) (zone qname : Name) (resp : Message) : Prop :=
  resp.header.authoritative = true ∨
    ∃ z c, tree.IsReferral r z c resp ∧ c ∈ tree.apexes ∧ c <+: qname.path ∧
      (zone.path <+: c → zone.path ≠ c → zone.path <+: z)

section Soundness

variable {tree : ZoneTree} {r : Recursor} {env : Env} {base : World} {qname : Name}
  {qtype : RecordType} {state : IterationState}

lemma AtZone.target (h : AtZone tree r qname state) (qtype : RecordType) :
    state.zone.numLabels ≤ (state.nextQuery qname qtype).target := by
  have hlen : state.zone.numLabels ≤ qname.numLabels := by
    rw [← Name.path_length, ← Name.path_length]
    exact h.above.length_le
  have hdepth := h.depth
  change state.zone.numLabels ≤
    if state.minimize then min (state.depth + 1) qname.numLabels else qname.numLabels
  split <;> omega

lemma AtZone.mname (h : AtZone tree r qname state) (qtype : RecordType) :
    state.zone.path <+: (state.nextQuery qname qtype).mname.path ∧
      (state.nextQuery qname qtype).mname.path <+: qname.path := by
  have htarget := h.target qtype
  have htake := prefix_iff_eq_take.mp h.above
  rw [Name.path_length] at htake
  change state.zone.path <+: (qname.suffix (state.nextQuery qname qtype).target).path ∧
    (qname.suffix (state.nextQuery qname qtype).target).path <+: qname.path
  rw [Name.suffix_path]
  refine ⟨?_, take_prefix _ _⟩
  rw [htake]
  exact take_prefix_take_left htarget

variable {zone : Name}

lemma told_of_serve (htree : tree.Honest r) {q : Name} {s : SocketAddr}
    (hzone : zone.path ∈ tree.apexes) (hs : s ∈ tree.servers zone.path)
    (habove : zone.path <+: q.path) (hq : q.path <+: qname.path) :
    Told tree r zone qname (tree.serve s q qtype) := by
  obtain ⟨z, hserve, hz, -, hpre, -⟩ := ZoneTree.serve_spec qtype hzone hs habove
  rw [hserve]
  by_cases hcut : ∃ c, tree.IsCut z c q.path qtype
  · obtain ⟨c, hcut⟩ := hcut
    refine .inr ⟨z, c, htree.referral z c q qtype hz hpre hcut, hcut.apex, hcut.above.trans hq,
      fun hbelow hne => ?_⟩
    rcases prefix_or_prefix_of_prefix habove hpre with hle | hge
    · exact hle
    · -- a zone between the one that answers and the cut would be the cut
      by_cases heq : z = zone.path
      · exact heq ▸ prefix_rfl
      · exact absurd (hcut.first _ hzone hge heq hbelow) hne
  · exact .inl (htree.authoritative z q qtype hz hpre fun c hc => hcut ⟨c, hc⟩).authoritative

variable {resp : Message}

lemma ZoneTree.IsReferral.seen_eq {z c : Path} (h : tree.IsReferral r z c resp)
    (isFinal : Bool) (zone : Name) : seen isFinal zone resp = resp := by
  rw [seen]
  split
  · rw [stripOutOfBailiwickDnames, h.answers, filter_nil, ← h.answers]
  · rfl

lemma Told.seen (h : Told tree r zone qname resp)
    (isFinal : Bool) : Told tree r zone qname (Recurse.seen isFinal zone resp) := by
  rcases h with haa | ⟨z, c, hreferral, hc⟩
  · left
    rw [Recurse.seen]
    split <;> exact haa
  · right
    exact ⟨z, c, by rwa [hreferral.seen_eq], hc⟩

lemma sound_modifyGet {α : Type} {f : World → α × World} {post : α → World → Prop}
    (hsub : ∀ w, (f w).2.delegCache.entries ⊆ w.delegCache.entries)
    (hpost : ∀ w, Sound tree r w → post (f w).1 (f w).2) :
    Safe (soundness tree r) base (modifyGet f : RunM α) post :=
  .modifyGet fun w hinv _ => ⟨fun entry hentry => hinv entry (hsub w hentry), trivial, hpost w hinv⟩

lemma sound_tick : Keeps (soundness tree r) base tick :=
  sound_modifyGet (fun _ => Subset.refl _) fun _ _ => trivial

lemma sound_record (event : Event) : Keeps (soundness tree r) base (record event) :=
  sound_modifyGet (fun _ => Subset.refl _) fun _ _ => trivial

lemma sound_takeQuery : Keeps (soundness tree r) base takeQuery := by
  intro w hinv _
  rw [takeQuery]
  split <;> exact ⟨hinv, trivial, fun _ _ => trivial⟩

lemma sound_deepestCachedDelegation (qname : Name) :
    Safe (soundness tree r) base (deepestCachedDelegation env qname) fun found _ =>
      ∀ zone servers, found = some (zone, servers) →
        zone.path <+: qname.path ∧ zone.path ∈ tree.apexes ∧ tree.Serves r zone.path servers := by
  refine sound_tick.bind fun n w₀ _ _ _ => sound_modifyGet (fun w => ?_) fun w hinv => ?_
  · exact (deepestLoop_spec (env.cacheNowMillis n) qname qname.numLabels w.delegCache).1
  intro zone servers h
  obtain ⟨hpre, entry, hentry, hkey, rfl⟩ :=
    (deepestLoop_spec (env.cacheNowMillis n) qname qname.numLabels w.delegCache).2 zone servers h
  obtain ⟨zone', hkey', hapex, hserves⟩ := hinv entry hentry
  have hpath := Name.canonicalKey_inj.mp (hkey.symm.trans hkey')
  rw [hpath]
  exact ⟨hpath ▸ hpre, hapex, hserves⟩

lemma sound_delegEvictPath (qname : Name) :
    Keeps (soundness tree r) base (delegEvictPath qname) :=
  sound_modifyGet (fun _ => LruMap.foldl_pop_subset _ _) fun _ _ => trivial

lemma sound_put {w : World} (hinv : Sound tree r w) (hzone : zone.path ∈ tree.apexes)
    (hserves : tree.Serves r zone.path servers) (expiresAt : ℕ) :
    Sound tree r { w with delegCache := w.delegCache.put zone.canonicalKey ⟨servers, expiresAt⟩ } := by
  intro entry hentry
  rcases mem_cons.mp (LruMap.put_subset _ _ _ hentry) with rfl | hentry
  · exact ⟨zone, rfl, hzone, hserves⟩
  · exact hinv entry hentry

lemma sound_delegStore
    (hzone : zone.path ∈ tree.apexes) (hserves : tree.Serves r zone.path servers) (ttl : UInt32) :
    Keeps (soundness tree r) base (r.delegStore env zone servers ttl) := by
  rw [delegStore]
  split
  · exact .done
  · have hexpiry : ∀ ttl, Keeps (soundness tree r) base (expiry env ttl) :=
      fun _ => sound_tick.bind fun _ _ _ _ _ => .done
    refine (hexpiry _).bind fun expiresAt w₀ _ _ _ => .modify fun w hinv _ => ?_
    exact ⟨sound_put hinv hzone hserves.shorten expiresAt, trivial, trivial⟩

/-- What a round may come to: no name server has to be resolved, and a state that goes on is
at a zone of the tree. -/
def OutcomeSound (tree : ZoneTree) (r : Recursor) (qname : Name) : StepOutcome → Prop
  | .goOn state => AtZone tree r qname state
  | .needNsAddrs _ _ => False
  | _ => True

lemma sound_finishReferral {pending : PendingReferral}
    (hzone : pending.zone.path ∈ tree.apexes) (habove : pending.zone.path <+: qname.path)
    (hserves : tree.Serves r pending.zone.path pending.addrs) :
    Safe (soundness tree r) base (r.finishReferral env qname state pending)
      fun outcome _ => OutcomeSound tree r qname outcome := by
  have hnext : OutcomeSound tree r qname (.goOn { state with
      servers := (sortDedup SocketAddr.orderKey pending.addrs).take maxCachedNsAddrs
      chain := state.chain ++ [⟨pending.zone,
        (sortDedup SocketAddr.orderKey pending.addrs).take maxCachedNsAddrs, pending.nsNames⟩]
      depth := pending.zone.numLabels
      zone := pending.zone }) := ⟨hzone, habove, hserves.shorten.usable, le_rfl⟩
  rw [finishReferral]
  split
  · exact .pure fun _ _ _ => trivial
  refine (sound_record _).bind fun _ w₁ _ _ _ => ?_
  split
  · exact (sound_delegStore hzone hserves.shorten _).bind fun _ _ _ _ _ =>
      .pure fun _ _ _ => hnext
  · exact .pure fun _ _ _ => hnext

lemma sound_advanceReferral {plan : NextQuery} (hstate : AtZone tree r qname state)
    (htold : Told tree r state.zone qname resp) (hplan : state.zone.numLabels ≤ plan.target) :
    Safe (soundness tree r) base (r.advanceReferral env qname state resp plan)
      fun outcome _ => OutcomeSound tree r qname outcome := by
  rw [advanceReferral]
  cases hext : extractReferral resp qname with
  | mk referral nsNames =>
    simp only
    cases hfilter : referral.filter fun nz => isCloser nz state.zone && isWithin qname nz with
    | some nz =>
      obtain ⟨hsome, hguard⟩ := Option.filter_eq_some_iff.mp hfilter
      rw [Bool.and_eq_true, isWithin_path] at hguard
      obtain ⟨hbelow, hne⟩ := isCloser_path hguard.1
      rw [hsome] at hext
      rcases htold with haa | ⟨z, c, hreferral, hc, hcq, hin⟩
      · rw [extractReferral, if_pos (.inr (.inl haa))] at hext
        cases hext
      obtain ⟨nz', hext', hpath⟩ := hreferral.extract hcq
      obtain ⟨hnz, hnames⟩ := Prod.mk.inj (hext'.symm.trans hext)
      obtain rfl := Option.some.inj hnz
      have hserves := hreferral.serves (hin (hpath ▸ hbelow) (hpath ▸ hne))
      rw [hnames, ← hpath] at hserves
      dsimp only
      split
      · rename_i hmissing
        exact absurd hmissing.2 hserves.1
      · exact sound_finishReferral (hpath ▸ hc) hguard.2 hserves
    | none =>
      dsimp only
      split
      · split <;> exact .pure fun _ _ _ => trivial
      · split
        · exact .pure fun _ _ _ => trivial
        · exact .pure fun _ _ _ => { hstate with depth := hplan }

lemma sound_advance {plan : NextQuery} (hstate : AtZone tree r qname state)
    (htold : Told tree r state.zone qname resp) (hplan : state.zone.numLabels ≤ plan.target) :
    Safe (soundness tree r) base (r.advance env qname qtype state resp plan)
      fun outcome _ => OutcomeSound tree r qname outcome := by
  rw [advance_seen]
  split
  · exact .pure fun _ _ _ => trivial
  split
  · exact .pure fun _ _ _ => trivial
  split
  · split
    · exact .pure fun _ _ _ => trivial
    · split
      · exact .pure fun _ _ _ => trivial
      · exact .pure fun _ _ _ => { hstate with }
  · exact sound_advanceReferral hstate (htold.seen plan.isFinal) hplan

lemma atZone_root (htree : tree.Honest r) : AtZone tree r qname (.start Name.root r.roots) :=
  ⟨htree.root, nil_prefix, ⟨htree.roots.1, htree.roots.2⟩, le_rfl⟩

lemma sound_validatedStartOk (zone : Name) :
    Keeps (soundness tree r) base (r.validatedStartOk env zone) :=
  sound_tick.bind fun _ _ _ _ _ => .done

lemma sound_verdict : Keeps (soundness tree r) base (r.verdict env) :=
  sound_tick.bind fun _ _ _ _ _ => .done

variable {side : Name → RecordType → RunM (Message × SecurityStatus)}

section Honest

variable (htree : tree.Honest r) (henv : tree.Answers r env)
include htree henv

lemma sound_iterateRound
    (hstate : AtZone tree r qname state) :
    Safe (soundness tree r) base (r.iterateRound env side qname qtype state)
      fun outcome _ => OutcomeSound tree r qname outcome := by
  refine (sound_record _).bind fun _ _ _ _ _ => sound_takeQuery.bind fun _ _ _ _ _ =>
    sound_tick.bind fun n w₂ _ _ _ => ?_
  obtain ⟨hbelow, habove⟩ := hstate.mname qtype
  have hreply : ∀ resp, env.queryAny n state.servers (state.nextQuery qname qtype).mname
      (state.nextQuery qname qtype).mtype = .ok resp → Told tree r state.zone qname resp := by
    intro resp hresp
    obtain ⟨s, hs, q, hq, hok⟩ := henv n state.servers (state.nextQuery qname qtype).mname
      (state.nextQuery qname qtype).mtype hstate.servers.2
    obtain rfl := Except.ok.inj (hok.symm.trans hresp)
    exact told_of_serve htree hstate.apex (hstate.servers.1 hs) (hq ▸ hbelow) (hq ▸ habove)
  have hlift : Safe (soundness tree r) w₂ (liftM (env.queryAny n state.servers
      (state.nextQuery qname qtype).mname (state.nextQuery qname qtype).mtype) : RunM Message)
      fun resp _ => Told tree r state.zone qname resp :=
    .lift fun resp _ _ _ hresp => hreply resp hresp
  refine hlift.bind fun resp _ _ _ htold => (sound_record _).bind fun _ _ _ _ _ => ?_
  refine (sound_advance hstate htold (hstate.target qtype)).bind fun outcome _ _ _ hout => ?_
  cases outcome with
  | needNsAddrs missing pending => exact hout.elim
  | done resp => exact .pure fun _ _ _ => trivial
  | goOn state' => exact .pure fun _ _ _ => hout
  | failed error => exact .pure fun _ _ _ => trivial

lemma sound_iterateLoop
    (rounds referrals : ℕ) (hstate : AtZone tree r qname state) :
    Keeps (soundness tree r) base (r.iterateLoop env side qname qtype rounds referrals state) := by
  induction rounds generalizing referrals state base with
  | zero => exact .throw _
  | succ rounds ih =>
    refine (sound_iterateRound htree henv hstate).bind fun outcome w₁ _ _ hout => ?_
    cases outcome with
    | done resp => exact .done
    | failed error => exact .throw _
    | needNsAddrs missing pending => exact .throw _
    | goOn state' =>
      dsimp only
      split
      · split
        · exact .throw _
        · exact ih _ hout
      · exact ih _ hout

lemma sound_iterateCached (hstate : AtZone tree r qname (.start zone servers)) :
    Keeps (soundness tree r) base (r.iterateCached env side qname qtype zone servers) := by
  have hkeep : ∀ {α : Type} {f : World → α × World} {base : World},
      (∀ w, (f w).2.delegCache = w.delegCache) →
      Keeps (soundness tree r) base (modifyGet f : RunM α) := fun hsame =>
    sound_modifyGet (fun w => by rw [hsame]; exact Subset.refl _) fun _ _ => trivial
  refine (hkeep fun _ => rfl).bind fun saved w₁ _ _ _ => ?_
  have htry : Keeps (soundness tree r) w₁ (tryCatch (some <$> r.iterateFrom env side qname qtype zone
      servers) fun _ => do delegEvictPath qname; return none) := by
    refine .tryCatch (.map (sound_iterateLoop htree henv _ _ hstate) fun _ _ _ => trivial) fun e => ?_
    exact (sound_delegEvictPath qname).bind fun _ _ _ _ _ => .done
  have hnone : ∀ w : World, Safe (soundness tree r) w (do setNsResolves saved; return none : RunM _)
      fun (_ : Option (Message × List ZoneStep)) _ => True := fun w =>
    (hkeep fun _ => rfl).bind fun _ _ _ _ _ => .done
  refine htry.bind fun found w₂ _ _ _ => ?_
  cases found with
  | none => exact hnone w₂
  | some result =>
    refine (sound_validatedStartOk _).bind fun ok w₃ _ _ _ => ?_
    split
    · exact .done
    · exact hnone _

lemma sound_iterate :
    Keeps (soundness tree r) base (r.iterate env side qname qtype) := by
  have hroot : ∀ w : World, Keeps (soundness tree r) w
      (r.iterateFrom env side qname qtype .root r.roots) :=
    fun w => sound_iterateLoop htree henv _ _ (atZone_root htree)
  refine (sound_deepestCachedDelegation qname).bind fun cached w₁ _ _ hcached => ?_
  cases cached with
  | none => exact hroot w₁
  | some start =>
    obtain ⟨habove, hapex, hserves⟩ := hcached _ _ rfl
    have hstart : AtZone tree r qname (.start start.1 start.2) :=
      ⟨hapex, habove, hserves.usable, le_rfl⟩
    refine (sound_validatedStartOk _).bind fun ok w₂ _ _ _ => ?_
    split
    · refine (sound_iterateCached htree henv hstart).bind fun found w₃ _ _ _ => ?_
      cases found with
      | some result => exact .done
      | none => exact hroot w₃
    · exact hroot w₂

lemma sound_resolveInner (fuel : ℕ)
    (cnameDepth dnameDepth : ℕ) :
    Keeps (soundness tree r) base (r.resolveInner env fuel qname qtype cnameDepth dnameDepth) := by
  induction fuel generalizing qname qtype cnameDepth dnameDepth base with
  | zero => exact .throw _
  | succ fuel ih =>
    rw [resolveInner]
    split
    · exact .throw _
    split
    · exact .throw _
    refine (sound_iterate htree henv).bind fun result w₁ _ _ _ => ?_
    have hterminal : ∀ msg : Message, Keeps (soundness tree r) w₁ (do
        let status ← r.verdict env
        return (msg, status)) := fun msg =>
      sound_verdict.bind fun _ _ _ _ _ => .done
    have htail : ∀ (target : Name) (cnameDepth dnameDepth : ℕ) (records : List Record),
        Keeps (soundness tree r) w₁ (do
          let status ← r.verdict env
          let reply ← r.resolveInner env fuel target qtype cnameDepth dnameDepth
          return (withAlias records result.1 reply.1, status.combine reply.2)) := fun target cnameDepth dnameDepth records =>
      sound_verdict.bind fun _ _ _ _ _ => (ih _ _).bind fun _ _ _ _ _ => .done
    dsimp only
    split
    · exact htail _ _ _ _
    split
    · exact hterminal _
    split
    · exact hterminal _
    · split
      · exact htail _ _ _ _
      · exact hterminal _

lemma sound_iterateToAnswer (fuel : ℕ) :
    Keeps (soundness tree r) base (r.iterateToAnswer env fuel qname qtype) := by
  rw [iterateToAnswer]
  split
  · exact .throw _
  have hbudget : Keeps (soundness tree r) base (modify fun w =>
      { w with nsResolves := r.maxNsResolves, queries := maxTotalQueries } : RunM Unit) := sound_modifyGet (fun _ => Subset.refl _) fun _ _ => trivial
  refine hbudget.bind fun _ _ _ _ _ => (sound_iterate htree henv).bind fun result w₁ _ _ _ => ?_
  dsimp only
  split
  · exact .done
  split
  · exact sound_verdict.bind fun _ _ _ _ _ => sound_tick.bind fun _ _ _ _ _ =>
      .done
  · exact sound_verdict.bind fun _ _ _ _ _ => (sound_resolveInner htree henv _ _ _).bind
      fun _ _ _ _ _ => .done

lemma sound_resolve (fuel : ℕ) :
    Keeps (soundness tree r) base (r.resolve env fuel qname qtype) :=
  (sound_iterateToAnswer htree henv fuel).bind fun _ _ _ _ _ => .done

lemma sound_run (fuel : ℕ) {w : World}
    (h : Sound tree r w) (questions : List (Name × RecordType)) :
    Sound tree r (r.run env fuel questions w) := by
  induction questions generalizing w with
  | nil => exact h
  | cons question rest ih =>
    have hstep : Keeps (soundness tree r) w (r.resolve env fuel question.1 question.2) := sound_resolve htree henv fuel
    exact ih (hstep w h trivial).1

end Honest

lemma sound_start (delegMax nsAddrMax : ℕ) : Sound tree r (World.start delegMax nsAddrMax) := by
  intro entry hentry
  cases hentry

end Soundness

end OnetDns.Recurse
