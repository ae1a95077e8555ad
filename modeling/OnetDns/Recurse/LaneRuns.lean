import OnetDns.Recurse.Bookkeeping

/-!
# Runs of the event lane

What a call needs to find, that it leaves as much to the one that follows it, and that there
is an end to the calls; then what is left between the actions of callers.
-/
namespace OnetDns.Recurse
open Dns List Option Bool Slab Slot

namespace Session

variable {s s' : Session} {sent : Option ℕ} {now : ℕ} {e : SessionEnd}

lemma sendNext_exchange (h : s.exchange = none) (hsend : s.sendNext sent now = (s', false)) :
    s'.exchange = none := by
  rw [sendNext] at hsend
  split at hsend
  · obtain ⟨rfl, -⟩ := Prod.mk.inj hsend
    exact h
  · split at hsend
    · cases hsend
    · obtain ⟨rfl, -⟩ := Prod.mk.inj hsend
      rfl

/-- No question is out when a session is over. -/
theorem onOutcome_exchange {outcome : StepOutcome} (h : s.exchange = none)
    (hend : s.onOutcome outcome sent now = (s', some e)) : s'.exchange = none := by
  cases outcome with
  | done msg =>
    obtain ⟨rfl, -⟩ := Prod.mk.inj hend
    exact h
  | goOn state =>
    rw [onOutcome] at hend
    cases hsend : ({ s with state := state } : Session).sendNext sent now with
    | mk after asked =>
      cases asked with
      | true =>
        rw [hsend] at hend
        cases hend
      | false =>
        rw [hsend] at hend
        obtain ⟨rfl, -⟩ := Prod.mk.inj hend
        exact sendNext_exchange (s := { s with state := state }) h hsend
  | needNsAddrs missing pending =>
    obtain ⟨rfl, -⟩ := Prod.mk.inj hend
    exact h
  | failed error =>
    obtain ⟨rfl, -⟩ := Prod.mk.inj hend
    exact h

lemma resumeWithAddrs_exchange {outcome : StepOutcome} (h : s.exchange = none)
    (hend : s.resumeWithAddrs outcome sent now = (s', some e)) : s'.exchange = none := by
  cases outcome with
  | needNsAddrs missing pending =>
    obtain ⟨rfl, -⟩ := Prod.mk.inj hend
    exact h
  | done msg =>
    change s.onOutcome (.done msg) sent now = _ at hend
    exact onOutcome_exchange h hend
  | goOn state =>
    change s.onOutcome (.goOn state) sent now = _ at hend
    exact onOutcome_exchange h hend
  | failed error =>
    change s.onOutcome (.failed error) sent now = _ at hend
    exact onOutcome_exchange h hend

lemma onResponse_exchange {reply : Reply} (hend : s.onResponse reply now = (s', some e)) :
    s'.exchange = none := by
  rw [onResponse] at hend
  split at hend
  · obtain ⟨rfl, -⟩ := Prod.mk.inj hend
    rfl
  · exact onOutcome_exchange (s := { s with exchange := none }) rfl hend

lemma receive_idle (h : s.exchange = none) (replies : List Reply) :
    s.receive now replies = (s, none) := by
  cases replies with
  | nil => rfl
  | cons reply rest => rw [receive, if_pos (by rw [h]; rfl)]

lemma receive_exchange (replies : List Reply) :
    ∀ {s : Session}, s.receive now replies = (s', some e) → s'.exchange = none := by
  induction replies with
  | nil =>
    intro s hend
    cases hend
  | cons reply rest ih =>
    intro s hend
    rw [receive] at hend
    split at hend
    · cases hend
    cases hreply : s.onResponse reply now with
    | mk after ended =>
      rw [hreply] at hend
      cases ended with
      | none => exact ih hend
      | some e' =>
        obtain ⟨rfl, -⟩ := Prod.mk.inj hend
        exact onResponse_exchange hreply

end Session

namespace Reactor

/-- What a call needs to find. -/
def CallOk (s : Reactor) (n : ℕ) : Call → Prop
  | .settle idx e =>
    s.Inv n none none none [] ∧ ∃ slot, s.slab.get idx = some slot ∧ slot.waits = false ∧
      (slot.session.exchange = none ∨ e = .failed .noResponse)
  | .spawnChild p _ | .resumeParent p _ _ =>
    s.Inv n none (some p) none [] ∧ ∃ slot, s.slab.get p = some slot ∧ slot.parked.isSome
  | .finish idx slot outcome =>
    s.Inv n (some idx) slot.parent (slot.entry idx) slot.tokens ∧ idx < s.slab.slots.length ∧
      s.slab.get idx = none ∧
      (∀ p, slot.parent = some p → ∃ pslot, s.slab.get p = some pslot ∧ pslot.WaitsFor slot) ∧
      (slot.session.exchange = none ∨ ∃ error, outcome = .failed error)
  | .completeTerminal session root _ _ _ _ _ =>
    s.Inv n none none none (root.followers ++ [root.leader]) ∧ session.exchange = none
  | .spawnKeyChild p _ _ | .resumeKeyParent p =>
    s.Inv n none (some p) none [] ∧ ∃ slot, s.slab.get p = some slot ∧ slot.awaiting.isSome
  | .restartRoot root _ _ _ => s.Inv n none none none (root.followers ++ [root.leader])

/-- What a call leaves: what the next one needs, which has less to do, or nothing. -/
def Leaves (n bound : ℕ) : Reactor × Option Call → Prop
  | (s, none) => s.Inv n none none none []
  | (s, some call) => s.CallOk n call ∧ s.weight call < bound

variable {s : Reactor} {n p : ℕ} {slot slot' : Slot} {left : Option ℕ} {cfg : ReactorConfig}
  {r : Recursor} {env : LaneEnv} {now : ℕ}

lemma live_take (hget : s.slab.get p = some slot) :
    ({ s with slab := s.slab.take p } : Reactor).live + 1 = s.live :=
  (items_take hget).length_eq.symm

lemma live_put (hget : s.slab.get p = some slot) :
    ({ s with slab := s.slab.put p slot' } : Reactor).live = s.live :=
  (items_set hget slot').length_eq.trans (live_take hget)

variable {hole : Option ℕ}

lemma live_insert (h : s.slab.Ok hole) (slot : Slot) : (s.insert slot).live = s.live + 1 :=
  (items_insert h slot).length_eq

variable {root : RootCtx}

lemma live_insertRoot (h : s.slab.Ok hole) (slot : Slot) :
    (s.insertRoot cfg root slot).live = s.live + 1 := by
  rw [insertRoot]
  split <;> exact live_insert h slot

variable {idx : ℕ}

lemma live_forgetInflight {key : SfKey} : (s.forgetInflight key idx).live = s.live := by
  rw [forgetInflight]
  split <;> rfl

lemma rank_spawnKeyChild {awaiting : AwaitingKeys} {zone : Name} {servers : List SocketAddr}
    (hget : s.slab.get p = some slot) (hawaiting : slot.awaiting = some awaiting) :
    s.rank (.spawnKeyChild p zone servers) = 3 * (maxKeyFetches - awaiting.fetches) + 2 := by
  rw [rank, hget, bind_some, hawaiting]

lemma rank_resumeKeyParent {awaiting : AwaitingKeys} (hget : s.slab.get p = some slot)
    (hawaiting : slot.awaiting = some awaiting) :
    s.rank (.resumeKeyParent p) = 3 * (maxKeyFetches - awaiting.fetches) + 1 := by
  rw [rank, hget, bind_some, hawaiting]

variable {outcome : Settled}

lemma callOk_finish (h : s.Inv n none left none []) (hget : s.slab.get p = some slot)
    (hleft : ∀ q, left = some q → q = p)
    (hno : ∀ i slot, s.slab.get i = some slot → slot.parent ≠ some p)
    (hquiet : slot.session.exchange = none ∨ ∃ error, outcome = .failed error) :
    ({ s with slab := s.slab.take p }).CallOk n (.finish p slot outcome) := by
  have hlt := lt_of_get hget
  refine ⟨h.take hget hleft hno, ?_, ?_, fun q hq => ?_, hquiet⟩
  · rwa [Slab.length_take]
  · rw [get_take hlt, if_pos rfl]
  obtain ⟨qslot, hqslot, hwaits⟩ := h.linked.parent p slot q hget hq
  refine ⟨qslot, ?_, hwaits⟩
  rw [get_take hlt, if_neg, hqslot]
  rintro rfl
  exact hno p slot hget hq

lemma weight_finish (hget : s.slab.get p = some slot) :
    ({ s with slab := s.slab.take p }).weight (.finish p slot outcome) = s.live * 66 + 62 := by
  rw [weight, inHand, live_take hget]
  rfl

lemma settle_leaves {e : SessionEnd} (h : s.CallOk n (.settle idx e)) :
    Leaves n (s.weight (.settle idx e)) (s.settle idx e) := by
  obtain ⟨hinv, slot, hget, hwaits, hquiet⟩ := h
  have hno : ∀ i slot, s.slab.get i = some slot → slot.parent ≠ some idx := by
    refine hinv.linked.childless fun pslot hp => ?_
    rw [hget] at hp
    obtain rfl := some.inj hp
    exact hwaits
  have hfinish : ∀ outcome : Settled,
      (slot.session.exchange = none ∨ ∃ error, outcome = .failed error) →
      Leaves n (s.weight (.settle idx e))
        ({ s with slab := s.slab.take idx }, some (.finish idx slot outcome)) := by
    intro outcome hout
    refine ⟨callOk_finish hinv hget (fun q hq => by cases hq) hno hout, ?_⟩
    rw [weight_finish hget]
    change s.live * 66 + 62 < s.live * 66 + 64
    omega
  rw [settle, hget]
  cases e with
  | needAddrs missing pending =>
    have hidle : slot.session.exchange = none := hquiet.resolve_right fun he => by cases he
    cases missing with
    | nil => exact hfinish _ (.inl hidle)
    | cons first rest =>
      rw [waits, or_eq_false_iff] at hwaits
      change Leaves n _ (if slot.parked.isSome then _ else _)
      rw [if_neg (by rw [hwaits.1]; exact false_ne_true)]
      refine ⟨⟨hinv.put hget (hinv.linked.put hget ?_ rfl (fun _ hw => hw) ?_ ?_ ?_ ?_) rfl rfl,
        _, get_put (lt_of_get hget) |>.trans (if_pos rfl), rfl⟩, ?_⟩
      · refine ⟨fun hsome => ?_, fun _ => ?_, fun _ => hidle⟩
        · rw [hwaits.2] at hsome
          cases hsome
        · exact isNone_iff_eq_none.mp (by rw [← not_isSome, hwaits.2]; rfl)
      · intro i child hi hp
        exact absurd hp (hno i child hi)
      · intro _ hne
        exact absurd rfl hne
      · intro q hq
        refine ⟨fun hn => (by cases hn), fun hs => absurd (some.inj hs).symm hq⟩
      · intro _
        exact hno
      · change (live _ + 0) * 66 + 63 < (s.live + 0) * 66 + 64
        rw [live_put hget]
        omega
  | done msg =>
    exact hfinish _ (.inl (hquiet.resolve_right fun he => by cases he))
  | failed error => exact hfinish _ (.inr ⟨error, rfl⟩)
  | needsSync => exact hfinish _ (.inl (hquiet.resolve_right fun he => by cases he))

lemma insert_child (h : s.Inv n none (some p) none []) (hget : s.slab.get p = some slot)
    {child : Slot} (hparent : child.parent = some p) (hwaits : child.waits = false)
    (hfor : slot.WaitsFor child) : (s.insert child).Inv n none none none [] := by
  rw [← (of_child hparent 0).2] at h
  have hinsert := h.insert (.of_not_waits hwaits) hparent fun q hq => by
    obtain rfl := some.inj hq
    exact ⟨slot, hget, hfor⟩
  rwa [hwaits] at hinsert

variable {qname : Name}

lemma spawnChild_leaves (h : s.CallOk n (.spawnChild p qname)) :
    Leaves n (s.weight (.spawnChild p qname)) (s.spawnChild cfg r env p qname now) := by
  obtain ⟨hinv, slot, hget, hparked⟩ := h
  rw [spawnChild]
  cases s.startChild cfg r env p qname now with
  | some session => exact insert_child hinv hget rfl rfl hparked
  | none =>
    rw [hget]
    refine ⟨callOk_finish hinv hget (fun q hq => (some.inj hq).symm)
      (hinv.linked.alone p rfl) (.inr ⟨_, rfl⟩), ?_⟩
    rw [weight_finish hget]
    change s.live * 66 + 62 < (s.live + 0) * 66 + 63
    omega

lemma spawnKeyChild_leaves {zone : Name} {servers : List SocketAddr}
    (h : s.CallOk n (.spawnKeyChild p zone servers)) :
    Leaves n (s.weight (.spawnKeyChild p zone servers))
      (s.spawnKeyChild r env p zone servers now) := by
  obtain ⟨hinv, slot, hget, hawaiting⟩ := h
  rw [spawnKeyChild]
  split
  · refine ⟨⟨hinv, slot, hget, hawaiting⟩, ?_⟩
    obtain ⟨awaiting, hsome⟩ := isSome_iff_exists.mp hawaiting
    rw [weight, weight, rank_spawnKeyChild hget hsome, rank_resumeKeyParent hget hsome]
    change (s.live + 0) * 66 + _ < (s.live + 0) * 66 + _
    omega
  · exact insert_child hinv hget rfl rfl hawaiting

lemma resumeKeyParent_leaves (h : s.CallOk n (.resumeKeyParent p)) :
    Leaves n (s.weight (.resumeKeyParent p)) (s.resumeKeyParent p) := by
  obtain ⟨hinv, slot, hget, hawaiting⟩ := h
  have hok := hinv.linked.ok p slot hget
  obtain ⟨awaiting, hsome⟩ := isSome_iff_exists.mp hawaiting
  obtain ⟨root, hkind⟩ := hok.root hawaiting
  have hquiet : slot.session.exchange = none := hok.quiet (by rw [waits, hawaiting, Bool.or_true])
  have hlt := Slab.lt_of_get hget
  have htake := hinv.take hget (fun q hq => (some.inj hq).symm) (hinv.linked.alone p rfl)
  obtain ⟨hentry, hparent, htokens⟩ := of_root hkind p
  rw [hentry, hparent, htokens] at htake
  have hfree := htake.release (by rwa [Slab.length_take]) (by rw [Slab.get_take hlt, if_pos rfl])
  rw [resumeKeyParent, hget]
  simp only [hsome, hkind]
  refine ⟨⟨hfree.forget, hquiet⟩, ?_⟩
  rw [weight, weight, live_forgetInflight, rank_resumeKeyParent hget hsome, rank]
  have hlive := live_take hget
  change (({ s with slab := s.slab.take p } : Reactor).live + 1) * 66 + _ < (s.live + 0) * 66 + _
  omega

lemma restartRoot_leaves {budget nsBudget : ℕ}
    (h : s.CallOk n (.restartRoot root qname budget nsBudget)) :
    Leaves n (s.weight (.restartRoot root qname budget nsBudget))
      (s.restartRoot cfg r env root qname budget nsBudget now) := by
  have hinv : s.Inv n none none none (root.followers ++ [root.leader]) := h
  rw [restartRoot]
  split
  · exact hinv.failRoot _
  · split
    · exact hinv.insertRoot (.of_not_waits rfl) rfl
    · exact hinv.failRoot _

variable {session : Session} {msg : Message}

lemma answerRoot_inv {positive : Bool}
    (h : s.Inv n none none none (root.followers ++ [root.leader])) :
    (s.answerRoot r env session root msg positive).Inv n none none none [] := by
  have htold := fun msg : Message =>
    (h.tell (fun _ => rfl) : (s.tell root (.answer · msg)).Inv n none none none [])
  exact { h with tokens := (htold _).tokens }

lemma completeTerminal_leaves {positive : Bool} {fetches : ℕ} {tried : List Bytes} {nsBudget : ℕ}
    (h : s.CallOk n (.completeTerminal session root msg positive fetches tried nsBudget)) :
    Leaves n (s.weight (.completeTerminal session root msg positive fetches tried nsBudget))
      (s.completeTerminal cfg r env session root msg positive fetches tried nsBudget) := by
  obtain ⟨hinv, hquiet⟩ := h
  rw [completeTerminal]
  split
  · split
    · rename_i zone servers _
      split
      · rename_i hmore
        rw [and_eq_true, decide_eq_true_eq] at hmore
        set awaiting : AwaitingKeys := ⟨{ msg with header := { msg.header with
          authenticData := false, authoritative := false } }, positive, fetches + 1,
          tried ++ [zone.canonicalKey]⟩
        set slot : Slot := ⟨session, .root root, none, some awaiting, nsBudget⟩
        have hok : slot.Ok := by
          refine ⟨fun _ => ⟨root, rfl⟩, fun hsome => ?_, fun _ => hquiet⟩
          cases hsome
        have hget : (s.insertRoot cfg root slot).slab.get s.slab.next = some slot := by
          have hinserted : (s.slab.insert slot).get s.slab.next = some slot := by
            rw [get_insert hinv.slab, if_pos rfl]
          rw [insertRoot]
          split <;> exact hinserted
        refine ⟨⟨hinv.insertRoot hok rfl, slot, hget, rfl⟩, ?_⟩
        rw [weight, rank_spawnKeyChild hget rfl, live_insertRoot hinv.slab]
        change (s.live + 1 + 0) * 66 + (3 * (maxKeyFetches - (fetches + 1)) + 2) <
          (s.live + 1) * 66 + 3 * (maxKeyFetches - fetches)
        omega
      · exact hinv.retryRoot
    · split
      · exact hinv.retryRoot
      · exact answerRoot_inv hinv
  · exact answerRoot_inv hinv

/-- The answer of a root, whose slot is free. -/
theorem finishAnswer_leaves {bound : ℕ}
    (hinv : s.Inv n none none none (root.followers ++ [root.leader]))
    (hquiet : slot.session.exchange = none) (hbound : (s.live + 1) * 66 + 60 < bound) :
    Leaves n bound (s.finishAnswer r env slot root msg now) := by
  rw [finishAnswer]
  split
  · extract_lets dname hops limit
    by_cases hmore : hops < limit
    · rw [if_pos hmore]
      split
      · exact hinv.retryRoot
      · refine ⟨hinv, ?_⟩
        change (s.live + 1) * 66 + 0 < bound
        omega
    · rw [if_neg hmore]
      exact hinv.failRoot _
  · refine ⟨⟨hinv, hquiet⟩, ?_⟩
    change (s.live + 1) * 66 + 3 * (20 - 0) < bound
    omega

lemma finish_leaves (h : s.CallOk n (.finish idx slot outcome)) :
    Leaves n (s.weight (.finish idx slot outcome)) (s.finish r env idx slot outcome now) := by
  obtain ⟨hinv, hlt, hget, hparent, hquiet⟩ := h
  have hfree := hinv.release hlt hget
  have hweight : s.weight (.finish idx slot outcome) = (s.live + 1) * 66 + 62 := rfl
  rw [finish]
  cases hkind : slot.kind with
  | root root =>
    obtain ⟨hentry, hnone, htokens⟩ := of_root hkind idx
    rw [hentry, hnone, htokens] at hfree
    cases outcome with
    | answer msg =>
      refine finishAnswer_leaves hfree.forget (hquiet.resolve_right ?_) ?_
      · rintro ⟨error, herror⟩
        cases herror
      · rw [live_forgetInflight]
        change (s.live + 1) * 66 + 60 < _
        omega
    | failed error => exact hfree.forget.failRoot error
    | needsSync => exact hfree.forget.retryRoot
  | dnskey p zone =>
    have hsome : slot.parent = some p := by rw [parent, hkind]
    obtain ⟨hentry, htokens⟩ := of_child hsome idx
    rw [hentry, hsome, htokens] at hfree
    obtain ⟨pslot, hpslot, hwaits⟩ := hparent p hsome
    rw [Slot.WaitsFor, hkind] at hwaits
    refine ⟨⟨hfree, pslot, hpslot, hwaits⟩, ?_⟩
    obtain ⟨awaiting, hawaiting⟩ := isSome_iff_exists.mp hwaits
    have hrank : rank { s with slab := s.slab.release idx } (.resumeKeyParent p) = _ :=
      rank_resumeKeyParent hpslot hawaiting
    rw [weight, hrank]
    change (s.live + 0) * 66 + (3 * (20 - awaiting.fetches) + 1) < _
    omega
  | nsAddr p =>
    have hsome : slot.parent = some p := by rw [parent, hkind]
    obtain ⟨hentry, htokens⟩ := of_child hsome idx
    rw [hentry, hsome, htokens] at hfree
    obtain ⟨pslot, hpslot, hwaits⟩ := hparent p hsome
    rw [Slot.WaitsFor, hkind] at hwaits
    have hresume : ∀ addrs ttl, Leaves n ((s.live + 1) * 66 + 62)
        ({ s with slab := s.slab.release idx }, some (.resumeParent p addrs ttl)) := by
      intro addrs ttl
      refine ⟨⟨hfree, pslot, hpslot, hwaits⟩, ?_⟩
      change (s.live + 0) * 66 + 65 < _
      omega
    cases outcome with
    | answer msg => exact hresume _ _
    | failed error => exact hresume _ _
    | needsSync =>
      have hpget : (s.slab.release idx).get p = some pslot := hpslot
      have hok := hfree.linked.ok p pslot hpget
      simp only [hpget]
      refine ⟨callOk_finish hfree hpget (fun q hq => (some.inj hq).symm)
        (hfree.linked.alone p rfl) (.inl (hok.quiet (by rw [waits, hwaits, Bool.true_or]))), ?_⟩
      refine (weight_finish hpget).trans_lt ?_
      omega

/-- A slot changes in its place, and waits for the child it has lost, or for nothing. -/
theorem put_inv (h : s.Inv n none (some p) none []) (hget : s.slab.get p = some slot)
    (hok : slot'.Ok) (hkind : slot'.kind = slot.kind) :
    ({ s with slab := s.slab.put p slot' }).Inv n none (if slot'.waits then some p else none)
      none [] := by
  have hno := h.linked.alone p rfl
  have hparent : slot'.parent = slot.parent := by rw [parent, parent, hkind]
  refine h.put hget (h.linked.put hget hok hparent (fun pslot hw => ?_) (fun i child hi hp => ?_)
    (fun hwaits hne => ?_) (fun q hq => ?_) fun _ => hno) ?_ ?_
  · rw [Slot.WaitsFor] at hw ⊢
    rwa [hkind]
  · exact absurd hp (hno i child hi)
  · rw [if_pos hwaits] at hne
    exact absurd rfl hne
  · split <;> simp [Ne.symm hq]
  · rw [tokens, tokens, hkind]
  · rw [entry, entry, hkind]

lemma resumeParent_leaves {addrs : List SocketAddr} {addrTtl : Option UInt32}
    (h : s.CallOk n (.resumeParent p addrs addrTtl)) :
    Leaves n (s.weight (.resumeParent p addrs addrTtl))
      (s.resumeParent env p addrs addrTtl now) := by
  obtain ⟨hinv, slot, hget, hsome⟩ := h
  have hok := hinv.linked.ok p slot hget
  have hawaiting := hok.one hsome
  have hquiet := hok.quiet (by rw [waits, hsome, Bool.true_or])
  have hlt := lt_of_get hget
  have hweight : s.weight (.resumeParent p addrs addrTtl) = s.live * 66 + 65 := rfl
  obtain ⟨parked, hparked⟩ := isSome_iff_exists.mp hsome
  rw [resumeParent, hget]
  simp only [hparked]
  split
  · refine ⟨⟨put_inv hinv hget ⟨?_, fun _ => hawaiting, fun _ => hquiet⟩ rfl, _,
      (get_put hlt).trans (if_pos rfl), rfl⟩, ?_⟩
    · exact hok.root
    · change (live _ + 0) * 66 + 63 < _
      rw [live_put hget]
      omega
  cases hresume : slot.session.resumeWithAddrs (env.finishReferral s.ticks _) (env.sent s.ticks)
    now with
  | mk session ended =>
    have hwaits : ({ slot with session := session, parked := none } : Slot).waits = false := by
      rw [hawaiting]
      rfl
    have hput := put_inv hinv hget (.of_not_waits hwaits) rfl
    rw [hwaits] at hput
    cases ended with
    | none => exact hput
    | some e =>
      refine ⟨⟨hput, _, (get_put hlt).trans (if_pos rfl), hwaits,
        .inl (Session.resumeWithAddrs_exchange hquiet hresume)⟩, ?_⟩
      change (live _ + 0) * 66 + 64 < _
      rw [live_put hget]
      omega

variable {call : Call}

lemma step_leaves (h : s.CallOk n call) : Leaves n (s.weight call) (s.step cfg r env now call) := by
  cases call with
  | settle idx e => exact settle_leaves h
  | spawnChild p qname => exact spawnChild_leaves h
  | finish idx slot outcome => exact finish_leaves h
  | completeTerminal session root msg positive fetches tried nsBudget =>
    exact completeTerminal_leaves h
  | spawnKeyChild p zone servers => exact spawnKeyChild_leaves h
  | resumeKeyParent p => exact resumeKeyParent_leaves h
  | resumeParent p addrs addrTtl => exact resumeParent_leaves h
  | restartRoot root qname budget nsBudget => exact restartRoot_leaves h

lemma Inv.free_lt {left : Option ℕ} {loose : Option (ℕ × SfKey)} {hand : List Token}
    (h : s.Inv n hole left loose hand) : ∀ i ∈ s.slab.free, i < s.slab.slots.length :=
  fun i hi => ((h.slab.mem_free i).mp hi).1

/-- A call looks up no slot that is not there. -/
theorem CallOk.inRange (h : s.CallOk n call) : s.inRange call = true := by
  have hfree : ∀ i ∈ s.slab.free, i < s.slab.slots.length := by
    cases call with
    | restartRoot root qname budget nsBudget => exact Inv.free_lt h
    | settle idx e => exact h.1.free_lt
    | spawnChild p qname => exact h.1.free_lt
    | finish idx slot outcome => exact h.1.free_lt
    | completeTerminal session root msg positive fetches tried nsBudget => exact h.1.free_lt
    | spawnKeyChild p zone servers => exact h.1.free_lt
    | resumeKeyParent p => exact h.1.free_lt
    | resumeParent p addrs addrTtl => exact h.1.free_lt
  have hslots : ∀ i ∈ call.slots, i < s.slab.slots.length := by
    intro i hi
    have hlive : ∀ {p : ℕ} {slot : Slot}, s.slab.get p = some slot → i ∈ [p] →
        i < s.slab.slots.length := by
      intro p slot hget hmem
      rw [mem_singleton.mp hmem]
      exact lt_of_get hget
    cases call with
    | settle idx e =>
      obtain ⟨-, slot, hget, -⟩ := h
      exact hlive hget hi
    | finish idx slot outcome =>
      obtain ⟨-, hlt, -, hparent, -⟩ := h
      have hchild : ∀ p, slot.parent = some p → i ∈ [idx, p] → i < s.slab.slots.length := by
        intro p hp hmem
        obtain ⟨pslot, hpslot, -⟩ := hparent p hp
        rcases mem_pair.mp hmem with rfl | rfl
        · exact hlt
        · exact lt_of_get hpslot
      rw [Call.slots] at hi
      cases hkind : slot.kind with
      | root root =>
        rw [hkind] at hi
        rw [mem_singleton.mp hi]
        exact hlt
      | nsAddr p =>
        rw [hkind] at hi
        exact hchild p (by rw [parent, hkind]) hi
      | dnskey p zone =>
        rw [hkind] at hi
        exact hchild p (by rw [parent, hkind]) hi
    | completeTerminal session root msg positive fetches tried nsBudget => cases hi
    | restartRoot root qname budget nsBudget => cases hi
    | spawnChild p qname =>
      obtain ⟨-, slot, hget, -⟩ := h
      exact hlive hget hi
    | spawnKeyChild p zone servers =>
      obtain ⟨-, slot, hget, -⟩ := h
      exact hlive hget hi
    | resumeKeyParent p =>
      obtain ⟨-, slot, hget, -⟩ := h
      exact hlive hget hi
    | resumeParent p addrs addrTtl =>
      obtain ⟨-, slot, hget, -⟩ := h
      exact hlive hget hi
  rw [Reactor.inRange, List.all_eq_true]
  intro i hi
  rw [decide_eq_true_eq]
  rcases mem_append.mp hi with hi | hi
  · exact hslots i hi
  · exact hfree i hi

lemma Inv.ticks {left : Option ℕ} {loose : Option (ℕ × SfKey)} {hand : List Token}
    (h : s.Inv n hole left loose hand) (ticks : ℕ) :
    ({ s with ticks := ticks }).Inv n hole left loose hand :=
  { h with }

lemma CallOk.ticks (h : s.CallOk n call) (ticks : ℕ) :
    ({ s with ticks := ticks }).CallOk n call := by
  cases call with
  | settle idx e => exact ⟨h.1.ticks ticks, h.2⟩
  | spawnChild p qname => exact ⟨h.1.ticks ticks, h.2⟩
  | finish idx slot outcome => exact ⟨h.1.ticks ticks, h.2⟩
  | completeTerminal session root msg positive fetches tried nsBudget => exact ⟨h.1.ticks ticks, h.2⟩
  | spawnKeyChild p zone servers => exact ⟨h.1.ticks ticks, h.2⟩
  | resumeKeyParent p => exact ⟨h.1.ticks ticks, h.2⟩
  | resumeParent p addrs addrTtl => exact ⟨h.1.ticks ticks, h.2⟩
  | restartRoot root qname budget nsBudget => exact .ticks h ticks

lemma drive_inv (fuel : ℕ) : ∀ {s : Reactor} {call : Call}, s.CallOk n call → s.weight call < fuel →
    ∃ s', drive cfg r env now fuel s (some call) = some s' ∧ s'.Inv n none none none [] := by
  induction fuel with
  | zero =>
    intro s call _ hfuel
    exact absurd hfuel (Nat.not_lt_zero _)
  | succ fuel ih =>
    intro s call hok hfuel
    have hleaves : Leaves n (s.weight call) (s.step cfg r env now call) := step_leaves hok
    rw [drive, if_pos hok.inRange]
    cases hstep : s.step cfg r env now call with
    | mk after next =>
      rw [hstep] at hleaves
      cases next with
      | none =>
        refine ⟨_, by cases fuel <;> rfl, ?_⟩
        exact .ticks hleaves _
      | some next =>
        obtain ⟨hnext, hless⟩ := hleaves
        refine ih (hnext.ticks _) ?_
        change after.weight next < fuel
        omega

lemma perform_inv (h : s.CallOk n call) :
    ∃ s', s.perform cfg r env now call = some s' ∧ s'.Inv n none none none [] :=
  drive_inv _ h (Nat.lt_succ_self _)

/-- The books between two actions. -/
abbrev Books (s : Reactor) (n : ℕ) : Prop := s.Inv n none none none []

lemma Inv.grown (h : s.Books n) : s.Books s.slab.slots.length := { h with size := le_rfl }

/-- A slot keeps its children when it changes in its place and waits as before. -/
theorem linked_put (h : Linked s.slab none) (hget : s.slab.get p = some slot) (hok : slot'.Ok)
    (hparent : slot'.parent = slot.parent)
    (hfor : ∀ pslot : Slot, pslot.WaitsFor slot → pslot.WaitsFor slot')
    (hwaits : slot'.parked = slot.parked ∧ slot'.awaiting = slot.awaiting) :
    Linked (s.slab.put p slot') none := by
  refine h.put hget hok hparent hfor (fun i child hi hp => ?_) (fun hw _ => ?_) (fun _ _ => Iff.rfl)
    fun hl => by cases hl
  · obtain ⟨pslot, hpslot, hwait⟩ := h.parent i child p hi hp
    rw [hget] at hpslot
    obtain rfl := some.inj hpslot
    rw [Slot.WaitsFor, hwaits.1, hwaits.2]
    exact hwait
  · rw [waits, hwaits.1, hwaits.2] at hw
    exact h.served p slot hget hw fun hl => by cases hl

lemma setSession_inv (h : s.Books n) (hget : s.slab.get p = some slot)
    (hquiet : slot.waits = true → session.exchange = none) :
    (s.setSession p slot session).Books n := by
  have hok := h.linked.ok p slot hget
  exact h.put hget (linked_put h.linked hget ⟨hok.root, hok.one, hquiet⟩ rfl (fun _ hw => hw)
    ⟨rfl, rfl⟩) rfl rfl

lemma perform_settle {e : SessionEnd} (h : s.Books n) (hget : s.slab.get p = some slot)
    (hwaits : slot.waits = false) (hquiet : session.exchange = none ∨ e = .failed .noResponse) :
    ∃ s', (s.setSession p slot session).perform cfg r env now (.settle p e) = some s' ∧
      s'.Books n := by
  refine perform_inv ⟨setSession_inv h hget fun hw => ?_, _,
    (get_put (lt_of_get hget)).trans (if_pos rfl), hwaits, hquiet⟩
  rw [hwaits] at hw
  cases hw

lemma pumpSlot_inv {replies : List Reply} (h : s.Books n) (hlt : idx < n) :
    ∃ s', s.pumpSlot cfg r env idx replies now = some s' ∧ s'.Books n := by
  rw [pumpSlot, if_neg (not_le.mpr (hlt.trans_le h.size))]
  cases hget : s.slab.get idx with
  | none => exact ⟨s, rfl, h⟩
  | some slot =>
    have hidle : slot.waits = true → slot.session.receive now replies = (slot.session, none) :=
      fun hwaits => Session.receive_idle ((h.linked.ok idx slot hget).quiet hwaits) replies
    dsimp only
    cases hreceive : slot.session.receive now replies with
    | mk session ended =>
      cases ended with
      | none =>
        refine ⟨_, rfl, setSession_inv h hget fun hwaits => ?_⟩
        obtain ⟨rfl, -⟩ := Prod.mk.inj (hreceive.symm.trans (hidle hwaits))
        exact (h.linked.ok idx slot hget).quiet hwaits
      | some e =>
        refine perform_settle h hget (eq_false_iff.mpr fun hwaits => ?_)
          (.inl (Session.receive_exchange replies hreceive))
        have heq := hreceive.symm.trans (hidle hwaits)
        cases (Prod.mk.inj heq).2

lemma tickSlot_inv {sent : Option ℕ} (h : s.Books n) (hlt : idx < n) :
    ∃ s', s.tickSlot cfg r env idx sent now = some s' ∧ s'.Books n := by
  rw [tickSlot, if_neg (not_le.mpr (hlt.trans_le h.size))]
  cases hget : s.slab.get idx with
  | none => exact ⟨s, rfl, h⟩
  | some slot =>
    dsimp only
    split
    · exact ⟨s, rfl, h⟩
    rename_i hnot
    have hwaits : slot.waits = false := eq_false_iff.mpr hnot
    cases expire slot.session sent now with
    | mk session ended =>
      cases ended with
      | false =>
        refine ⟨_, rfl, setSession_inv h hget fun hw => ?_⟩
        rw [hwaits] at hw
        cases hw
      | true => exact perform_settle h hget hwaits (.inr rfl)

lemma overSlots_inv {f : Reactor → ℕ → Option Reactor} {slots : List ℕ}
    (hf : ∀ s : Reactor, ∀ idx ∈ slots, s.Books n → ∃ s', f s idx = some s' ∧ s'.Books n) :
    ∀ {s : Reactor}, s.Books n → ∃ s', overSlots f slots s = some s' ∧ s'.Books n := by
  induction slots with
  | nil => exact fun {s} h => ⟨s, rfl, h⟩
  | cons idx rest ih =>
    intro s h
    obtain ⟨after, hafter, hbooks⟩ := hf s idx mem_cons_self h
    obtain ⟨last, hlast, hend⟩ := ih (fun s idx hidx => hf s idx (mem_cons_of_mem _ hidx)) hbooks
    refine ⟨last, ?_, hend⟩
    rw [overSlots, hafter]
    exact hlast

lemma leaderOf_spec {key : SfKey} (h : s.leaderOf key = some (idx, slot, root)) :
    s.slab.get idx = some slot ∧ slot.kind = .root root := by
  rw [leaderOf] at h
  split at h
  · cases h
  split at h
  · split at h
    · rename_i hget _ _ hkind
      split at h
      · obtain ⟨rfl, rfl, rfl⟩ := some.inj h
        exact ⟨hget, hkind⟩
      · cases h
    · cases h
  · cases h

/-- A question joins one that is under way. -/
theorem join_inv (token : Token) (h : s.Books n) (hget : s.slab.get p = some slot)
    (hkind : slot.kind = .root root)
    (hslot : slot' = { slot with kind := .root { root with followers := root.followers ++ [token] }
      }) :
    ({ s with slab := s.slab.put p slot', taken := token :: s.taken }).Books n := by
  obtain ⟨hentry, hparent, htokens⟩ := of_root hkind p
  have hkind' : slot'.kind = .root { root with followers := root.followers ++ [token] } := by
    rw [hslot]
  obtain ⟨hentry', hparent', htokens'⟩ := of_root hkind' p
  have hok := h.linked.ok p slot hget
  have hok' : slot'.Ok := by
    refine ⟨fun _ => ⟨_, hkind'⟩, ?_, ?_⟩ <;> rw [hslot]
    · exact hok.one
    · exact hok.quiet
  have hlinked : Linked (s.slab.put p slot') none := by
    refine linked_put h.linked hget hok' (hparent'.trans hparent.symm) (fun pslot hw => ?_)
      (by rw [hslot]; exact ⟨rfl, rfl⟩)
    rw [Slot.WaitsFor, hkind] at hw
    exact hw.elim
  have hmore : slot'.tokens.Perm ([token] ++ slot.tokens) := by
    rw [htokens, htokens', append_assoc]
    exact perm_middle
  exact h.putMore hget hlinked hmore (hentry'.trans hentry.symm)

/-- A question gets a slot of its own. -/
theorem enter_inv {token : Token} (h : s.Books n) (hleader : root.leader = token)
    (hfollowers : root.followers = []) (hkind : slot.kind = .root root)
    (hwaits : slot.waits = false) :
    ({ s.insertRoot cfg root slot with taken := token :: s.taken }).Books n := by
  have hmore : ({ s with taken := token :: s.taken } : Reactor).Inv n none none none
      (root.followers ++ [root.leader]) := by
    refine { h with tokens := ?_ }
    rw [hfollowers, hleader, ← append_assoc]
    refine (Perm.cons token h.tokens).trans ?_
    rw [append_nil]
    exact (perm_append_singleton token _).symm
  have hinsert : (insertRoot cfg { s with taken := token :: s.taken } root slot).Inv n none
      (if slot.waits then some s.slab.next else none) none [] :=
    hmore.insertRoot (.of_not_waits hwaits) hkind
  rw [hwaits, insertRoot] at hinsert
  rw [insertRoot]
  split
  · rename_i hflight
    rw [if_pos hflight] at hinsert
    exact hinsert
  · rename_i hflight
    rw [if_neg hflight] at hinsert
    exact hinsert

lemma submit_inv {qtype : RecordType} {token : Token} {cd : Bool}
    {start : IterationState} {sent : Option ℕ} (h : s.Books n) : ∃ s', s.act cfg r env
      (.submit qname qtype token cd start sent now) = some s' ∧ s'.Books n := by
  rw [act, submit]
  split
  · exact ⟨s, rfl, h⟩
  extract_lets key
  -- the index of questions under way names live slots only
  have hrange : (cfg.singleflight && (s.inflight.lookup key).any (s.slab.slots.length ≤ ·)) =
      false := by
    rw [and_eq_false_iff]
    right
    cases hlookup : s.inflight.lookup key with
    | none => rfl
    | some idx =>
      rcases h.inflight key idx hlookup with hloose | ⟨slot, -, hget, -⟩
      · cases hloose
      · exact decide_eq_false (not_le.mpr (lt_of_get hget))
  rw [if_neg (by rw [hrange]; exact false_ne_true)]
  split
  · rename_i idx slot root hleader
    split at hleader
    · obtain ⟨hget, hkind⟩ := leaderOf_spec hleader
      have hjoin := join_inv token h hget hkind rfl
      exact ⟨_, rfl, { hjoin with }⟩
    · cases hleader
  split
  · exact ⟨s, rfl, h⟩
  split
  · exact ⟨s, rfl, h⟩
  have hnext : s.slab.next ≤ s.slab.slots.length := by
    rw [Slab.next]
    cases hfree : s.slab.free with
    | nil => exact le_rfl
    | cons i free => exact (h.free_lt i (by rw [hfree]; exact mem_cons_self)).le
  rw [if_pos hnext]
  exact ⟨_, rfl, enter_inv h rfl rfl rfl rfl⟩

lemma act_inv {action : Action} (h : s.Books n) :
    ∃ s', s.act cfg r env action = some s' ∧ s'.Books n := by
  have hgrown : ∀ {m : ℕ} {s' : Reactor}, n ≤ m → s'.Books m → s'.Books n := fun hnm h' =>
    { h' with size := hnm.trans h'.size }
  cases action with
  | submit qname qtype token cd start sent now => exact submit_inv h
  | collect =>
    refine ⟨_, rfl, { h with polled := fun i hi => ?_ }⟩
    exact mem_range.mp (mem_of_mem_filter hi)
  | pump replies now =>
    have hslot : ∀ s' : Reactor, ∀ idx ∈ s.pollMap, s'.Books s.slab.slots.length →
        ∃ after, s'.pumpSlot cfg r env idx (replies idx) now = some after ∧
          after.Books s.slab.slots.length :=
      fun s' idx hidx h' => pumpSlot_inv h' (h.polled idx hidx)
    obtain ⟨s', hs', hbooks⟩ := overSlots_inv hslot h.grown
    exact ⟨s', hs', hgrown h.size hbooks⟩
  | tick sent now =>
    have hslot : ∀ s' : Reactor, ∀ idx ∈ range s.slab.slots.length, s'.Books s.slab.slots.length →
        ∃ after, s'.tickSlot cfg r env idx (sent idx) now = some after ∧
          after.Books s.slab.slots.length :=
      fun s' idx hidx h' => tickSlot_inv h' (mem_range.mp hidx)
    obtain ⟨s', hs', hbooks⟩ := overSlots_inv hslot h.grown
    exact ⟨s', hs', hgrown h.size hbooks⟩

lemma run_inv (actions : List Action) :
    ∀ {s : Reactor}, s.Books n → ∃ s', s.run cfg r env actions = some s' ∧ s'.Books n := by
  induction actions with
  | nil => exact fun {s} h => ⟨s, rfl, h⟩
  | cons action rest ih =>
    intro s h
    obtain ⟨after, hafter, hbooks⟩ : ∃ after, s.act cfg r env action = some after ∧
      after.Books n := act_inv h
    obtain ⟨last, hlast, hend⟩ := ih hbooks
    refine ⟨last, ?_, hend⟩
    rw [run, hafter]
    exact hlast

lemma new_inv : Reactor.new.Books 0 := by
  have hnone : ∀ {i : ℕ} {slot : Slot}, (.empty : Slab Slot).get i ≠ some slot := by
    intro i slot hi
    cases hi
  refine ⟨⟨nodup_nil, fun i => ?_⟩, ⟨fun i slot hi => absurd hi hnone,
    fun i slot p hi => absurd hi hnone, fun i j slot slot' p hi => absurd hi hnone,
    fun p slot hp => absurd hp hnone, fun p hp => by cases hp⟩, fun key idx hlookup => ?_, ?_,
    fun i hi => ?_, le_rfl⟩
  · constructor
    · intro hi
      cases hi
    · intro hi
      exact absurd hi.1 (Nat.not_lt_zero i)
  · cases hlookup
  · exact .refl _
  · cases hi

/-- The books of a lane after any actions: no index was out of range and the calls came to an
end; the free list has each empty slot once and no other; a child that looks for addresses
has a live parent that is parked, one that looks for keys a live parent that awaits keys, and
a slot that waits has exactly one child; the index of questions under way points to live
roots of that question; and the tokens that were taken on are those of the completions and
those of the live roots, each as often. -/
theorem lane_books (cfg : ReactorConfig) (r : Recursor) (env : LaneEnv) (actions : List Action) :
    ∃ s, Reactor.new.run cfg r env actions = some s ∧
      (s.slab.free.Nodup ∧ ∀ i, i ∈ s.slab.free ↔ i < s.slab.slots.length ∧ s.slab.get i = none) ∧
      (∀ i slot p, s.slab.get i = some slot → slot.kind = .nsAddr p →
        ∃ pslot, s.slab.get p = some pslot ∧ pslot.parked.isSome) ∧
      (∀ i slot p zone, s.slab.get i = some slot → slot.kind = .dnskey p zone →
        ∃ pslot, s.slab.get p = some pslot ∧ pslot.awaiting.isSome) ∧
      (∀ p pslot, s.slab.get p = some pslot → pslot.parked.isSome ∨ pslot.awaiting.isSome →
        ∃! i, ∃ slot, s.slab.get i = some slot ∧ slot.parent = some p) ∧
      (∀ key idx, s.inflight.lookup key = some idx → ∃ slot root,
        s.slab.get idx = some slot ∧ slot.kind = .root root ∧ root.sfKey = key) ∧
      s.taken.Perm (s.out.map Completion.token ++ s.slab.items.flatMap Slot.tokens) ∧
      ∀ i ∈ s.pollMap, i < s.slab.slots.length := by
  obtain ⟨s, hrun, h⟩ : ∃ s, new.run cfg r env actions = some s ∧ s.Books 0 :=
    run_inv actions new_inv
  refine ⟨s, hrun, ⟨h.slab.nodup, fun i => ?_⟩, fun i slot p hget hkind => ?_,
    fun i slot p zone hget hkind => ?_, fun p pslot hget hwaits => ?_, fun key idx hlookup => ?_,
    ?_, h.polled⟩
  · rw [h.slab.mem_free]
    simp
  · obtain ⟨pslot, hpslot, hw⟩ := h.linked.parent i slot p hget (by rw [Slot.parent, hkind])
    rw [Slot.WaitsFor, hkind] at hw
    exact ⟨pslot, hpslot, hw⟩
  · obtain ⟨pslot, hpslot, hw⟩ := h.linked.parent i slot p hget (by rw [Slot.parent, hkind])
    rw [Slot.WaitsFor, hkind] at hw
    exact ⟨pslot, hpslot, hw⟩
  · have hwait : pslot.waits = true := by
      rw [Slot.waits, or_eq_true]
      exact hwaits
    obtain ⟨i, slot, hi, hparent⟩ := h.linked.served p pslot hget hwait fun hl => by cases hl
    refine ⟨i, ⟨slot, hi, hparent⟩, ?_⟩
    rintro j ⟨slot', hj, hparent'⟩
    exact h.linked.unique j i slot' slot p hj hi hparent' hparent
  · rcases h.inflight key idx hlookup with hloose | hlive
    · cases hloose
    · exact hlive
  · rw [← append_nil (s.slab.items.flatMap Slot.tokens)]
    exact h.tokens

end Reactor

end OnetDns.Recurse
