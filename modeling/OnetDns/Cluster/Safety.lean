import OnetDns.Cluster.SimCluster

/-!
# Safety of a cluster

Election safety and log matching hold in every run. Agreement on committed
entries holds in every run that stays on safe ground; `committed_conflict`
shows a run that does not and ends with two committed entries at one index.
-/
namespace OnetDns.Raft
open Consensus TermLog Quorum List

variable {M : Finset NodeId} {strict : Prop} {s s' : History} {v : NodeId} {n m : RaftNode}

lemma FullLog.mem_log {ℓ : List LogEntry} (h : FullLog ℓ n.snapshot n.log) {e : LogEntry}
    (he : e ∈ n.log) : 0 < e.index ∧ n.snapshotIndex < e.index ∧ ℓ[e.index - 1]? = some e := by
  obtain ⟨i, hi⟩ := mem_iff_getElem?.mp he
  rw [h.getElem?_log] at hi
  have hidx := (h.numbered.entry _ e hi).1
  refine ⟨by omega, by omega, ?_⟩
  rw [show e.index - 1 = n.snapshotIndex + i by omega]
  exact hi

lemma FullLog.mem_log_of_getElem? {ℓ log : List LogEntry} {snapshot : Option Snapshot}
    (h : FullLog ℓ snapshot log) {e : LogEntry} (hpos : snapshot.elim 0 (·.index) < e.index)
    (he : ℓ[e.index - 1]? = some e) : e ∈ log := by
  rw [← h.retained, mem_iff_getElem?]
  refine ⟨e.index - 1 - snapshot.elim 0 (·.index), ?_⟩
  rw [getElem?_drop, Nat.add_sub_cancel' (by omega), he]

lemma ClusterRel.nodeRel {c : Cluster} (h : ClusterRel M strict s c) (hv : v ∈ M)
    (hne : (c.nodes v).log ≠ []) : NodeRel M strict s v (c.nodes v) :=
  (h.nodes v hv).resolve_right fun hst => hne hst.log

lemma ClusterRel.leaderRel {c : Cluster} (h : ClusterRel M strict s c) (hv : v ∈ M)
    (hr : (c.nodes v).role = .leader) : NodeRel M strict s v (c.nodes v) :=
  (h.nodes v hv).resolve_right fun hst => by
    rw [hst.role] at hr
    cases hr

variable (members : List NodeId)

/-- Whoever was the leader of a term at one moment of a run and whoever is it
at a later one are the same node. -/
theorem election_safety (cfg : NodeId → Config) (now : NodeId → ℕ)
    (first second : List Action) (i j : NodeId) (hi : i ∈ members) (hj : j ∈ members)
    (hri : (((Cluster.start members cfg now).run first).nodes i).role = .leader)
    (hrj : (((Cluster.start members cfg now).run (first ++ second)).nodes j).role = .leader)
    (hterm : (((Cluster.start members cfg now).run first).nodes i).currentTerm = (((Cluster.start
      members cfg now).run (first ++ second)).nodes j).currentTerm) : i = j := by
  obtain ⟨s₁, s₂, h₁, h₂, hle⟩ := run_rel False members cfg now first second nofun
  have hni := h₁.leaderRel (mem_toFinset.mpr hi) hri
  have hnj := h₂.leaderRel (mem_toFinset.mpr hj) hrj
  obtain ⟨w, hw, rfl⟩ := (hni.leader hri).won
  obtain ⟨w', hw', rfl⟩ := (hnj.leader hrj).won
  have hw₂ := hle.election _ w hw
  rw [hterm] at hw₂
  rw [hw₂] at hw'
  exact congrArg Election.leader (Option.some.inj hw')

theorem election_safety_trio :
    ((trio.run electOne).nodes 1).role = .leader ∧
      ((trio.run (electOne ++ ticks 1 1)).nodes 1).role = .leader ∧ (1 : NodeId) = 1 := by
  have h₁ : ((trio.run electOne).nodes 1).role = .leader := by decide +kernel
  have h₂ : ((trio.run (electOne ++ ticks 1 1)).nodes 1).role = .leader := by decide +kernel
  exact ⟨h₁, h₂, election_safety [1, 2, 3] _ _ electOne (ticks 1 1) 1 1 (by decide) (by decide)
    h₁ h₂ (by decide +kernel)⟩

/-- Entries with the same index and term are equal, and so is everything before
them that both logs retain. -/
def LogsMatch (a b : List LogEntry) : Prop :=
  ∀ e ∈ a, ∀ f ∈ b, e.index = f.index → e.term = f.term →
    e = f ∧ ∀ e' ∈ a, ∀ f' ∈ b, e'.index = f'.index → e'.index ≤ e.index → e' = f'

lemma logsMatch_of_canon {L : ℕ → List LogEntry} {x y : List LogEntry} (hx : Canon L x)
    (hy : Canon L y) (hn : FullLog x n.snapshot n.log) (hm : FullLog y m.snapshot m.log) :
    LogsMatch n.log m.log := by
  intro e he f hf hidx hterm
  obtain ⟨hpos, _, hex⟩ := hn.mem_log he
  obtain ⟨_, _, hfy⟩ := hm.mem_log hf
  rw [← hidx] at hfy
  have hmatch := hx.matching hy hex hfy hterm
  rw [Nat.sub_add_cancel hpos] at hmatch
  have heq : ∀ i, i < e.index → x[i]? = y[i]? := fun i hi => getElem?_of_take_eq hmatch hi
  refine ⟨?_, ?_⟩
  · have := heq (e.index - 1) (by omega)
    rw [hex, hfy] at this
    exact Option.some.inj this
  intro e' he' f' hf' hidx' hle
  obtain ⟨hpos', _, hex'⟩ := hn.mem_log he'
  obtain ⟨_, _, hfy'⟩ := hm.mem_log hf'
  have := heq (e'.index - 1) (by omega)
  rw [hex', hidx', hfy'] at this
  exact Option.some.inj this

/-- Logs of any two nodes at any two moments match, and an entry in the log of
a leader stays there, unchanged, for as long as it leads that term, until it is
folded into the snapshot together with all the committed entries before it. -/
theorem log_matching (cfg : NodeId → Config) (now : NodeId → ℕ)
    (first second : List Action) :
    (∀ i ∈ members, ∀ j ∈ members,
      LogsMatch (((Cluster.start members cfg now).run first).nodes i).log
        (((Cluster.start members cfg now).run (first ++ second)).nodes j).log) ∧
    (∀ i ∈ members, (((Cluster.start members cfg now).run first).nodes i).role = .leader →
      (((Cluster.start members cfg now).run (first ++ second)).nodes i).role = .leader →
      (((Cluster.start members cfg now).run first).nodes i).currentTerm =
        (((Cluster.start members cfg now).run (first ++ second)).nodes i).currentTerm →
      ∀ e ∈ (((Cluster.start members cfg now).run first).nodes i).log,
        e ∈ (((Cluster.start members cfg now).run (first ++ second)).nodes i).log ∨
        (e.index ≤ (((Cluster.start members cfg now).run (first ++ second)).nodes i).snapshotIndex ∧
         e.index ≤ (((Cluster.start members cfg now).run (first ++ second)).nodes i).commitIndex)) := by
  obtain ⟨s₁, s₂, h₁, h₂, hle⟩ := run_rel False members cfg now first second nofun
  constructor
  · intro i hi j hj e he f hf
    have hni := h₁.nodeRel (mem_toFinset.mpr hi) (ne_nil_of_mem he)
    have hnj := h₂.nodeRel (mem_toFinset.mpr hj) (ne_nil_of_mem hf)
    exact logsMatch_of_canon ((h₁.sound.inv.canon_mem i).mono hle.termLog)
      (h₂.sound.inv.canon_mem j) hni.mem.full hnj.mem.full e he f hf
  intro i hi hr hr' hterm e he
  have hn := h₁.leaderRel (mem_toFinset.mpr hi) hr
  have hn' := h₂.leaderRel (mem_toFinset.mpr hi) hr'
  obtain ⟨hpos, _, hat⟩ := FullLog.mem_log hn.mem.full he
  -- the log of the term only grew
  have hpre : (s₁.mem i).log <+: (s₂.mem i).log := by
    rw [(hn.leader hr).log, (hn'.leader hr').log, hterm]
    exact hle.termLog _
  have hat' : (s₂.mem i).log[e.index - 1]? = some e := by
    obtain ⟨c, hc⟩ := hpre
    rw [← hc, getElem?_append_left (List.getElem?_eq_some_iff.mp hat).1, hat]
  rcases lt_or_ge
      (((Cluster.start members cfg now).run (first ++ second)).nodes i).snapshotIndex e.index
    with hlt | hge
  · exact .inl (FullLog.mem_log_of_getElem? hn'.mem.full hlt hat')
  · exact .inr ⟨hge, hge.trans hn'.mem.snapshot_le_commit⟩

/-- A leader that folds its log does remove an entry during its term. -/
theorem leader_folds_entry :
    ((trio.run commitOne).nodes 1).role = .leader ∧
      ((trio.run (commitOne ++ foldOne)).nodes 1).role = .leader ∧
      ((trio.run commitOne).nodes 1).currentTerm =
        ((trio.run (commitOne ++ foldOne)).nodes 1).currentTerm ∧
      ⟨1, 1, []⟩ ∈ ((trio.run commitOne).nodes 1).log ∧
      ⟨1, 1, []⟩ ∉ ((trio.run (commitOne ++ foldOne)).nodes 1).log := by
  decide +kernel

/-- Every entry of a request is where the leader has it. -/
lemma AppendRel.entry_at {t prev prevTerm commit k : ℕ} {leader : NodeId} {es : List LogEntry}
    {e : LogEntry} (h : AppendRel M strict s t leader prev prevTerm es commit) (hk : es[k]? = some e) :
    e.index = prev + k + 1 ∧ (s.termLog t)[prev + k]? = some e := by
  rcases h.content with hslice | ⟨-, -, rfl⟩
  · exact ⟨(hslice.index k e hk).1, hslice.at hk⟩
  · cases hk

/-- Of all packets that members ever send, no two give one vote away twice, and the requests of the
leaders of one term have one sender and agree on every entry. -/
theorem packets_agree (members : List NodeId) (cfg : NodeId → Config) (now : NodeId → ℕ)
    (actions : List Action) :
    let sent := ((Cluster.start members cfg now).run actions).sent.filter (·.sender ∈ members)
    (∀ p ∈ sent, ∀ q ∈ sent, p.sender = q.sender → ∀ t, p.msg = .requestVoteResp t true →
      q.msg = .requestVoteResp t true → p.dest = q.dest) ∧
    ∀ p ∈ sent, ∀ q ∈ sent, ∀ t l prev prevTerm es commit l' prev' prevTerm' es' commit',
      p.msg = .appendEntries t l prev prevTerm es commit →
      q.msg = .appendEntries t l' prev' prevTerm' es' commit' →
      p.sender = q.sender ∧ ∀ e ∈ es, ∀ f ∈ es', e.index = f.index → e = f := by
  intro sent
  obtain ⟨s, -, h, -, -⟩ := run_rel False members cfg now actions [] nofun
  have hrel : ∀ p ∈ sent, MsgRel members.toFinset False s p.sender p.dest p.msg := by
    intro p hp
    obtain ⟨hp, hsender⟩ := mem_filter.mp hp
    exact h.packets p hp (mem_toFinset.mpr (by simpa using hsender))
  refine ⟨fun p hp q hq hsender t hm hm' => ?_, ?_⟩
  · have hb := hrel p hp
    have hb' := hrel q hq
    rw [hm] at hb
    rw [hm', ← hsender] at hb'
    obtain ⟨ℓ, hℓ⟩ := hb rfl
    obtain ⟨ℓ', hℓ'⟩ := hb' rfl
    rw [hℓ] at hℓ'
    exact congrArg Prod.fst (Option.some.inj hℓ')
  · intro p hp q hq t l prev prevTerm es commit l' prev' prevTerm' es' commit' hm hm'
    have ha := hrel p hp
    have ha' := hrel q hq
    rw [hm] at ha
    rw [hm'] at ha'
    obtain ⟨w, hw, hl⟩ := ha.won
    obtain ⟨w', hw', hl'⟩ := ha'.won
    rw [hw] at hw'
    refine ⟨by rw [← hl, ← hl', Option.some.inj hw'], fun e he f hf hidx => ?_⟩
    obtain ⟨j, hj⟩ := mem_iff_getElem?.mp he
    obtain ⟨k, hk⟩ := mem_iff_getElem?.mp hf
    obtain ⟨hje, hat⟩ := ha.entry_at hj
    obtain ⟨hkf, hat'⟩ := ha'.entry_at hk
    rw [show prev + j = prev' + k by omega] at hat
    exact Option.some.inj (hat.symm.trans hat')

/-- Node 1 sends its no-op to both others. -/
def sendBoth : List Action := electOne ++ deliveries [3, 4, 5, 6]

def noOpTo (dest : NodeId) : Packet := ⟨1, dest, .appendEntries 1 1 0 0 [⟨1, 1, []⟩] 0⟩

theorem packets_agree_trio :
    noOpTo 2 ∈ (trio.run sendBoth).sent ∧ noOpTo 3 ∈ (trio.run sendBoth).sent ∧
      ∀ e ∈ [(⟨1, 1, []⟩ : LogEntry)], ∀ f ∈ [⟨1, 1, []⟩], e.index = f.index → e = f :=
  ⟨by decide +kernel, by decide +kernel, ((packets_agree [1, 2, 3] (fun _ => ⟨2, 1⟩) (fun _ => 7)
    sendBoth).2 (noOpTo 2) (by decide +kernel) (noOpTo 3) (by decide +kernel) _ _ _ _ _ _ _ _ _ _ _
      rfl rfl).2⟩

/-- On safe ground, what a node has taken as committed is from then on in the log on disk, or in the
snapshot on disk, of a majority of the members. -/
theorem committed_durable (cfg : NodeId → Config) (now : NodeId → ℕ)
    (first second : List Action) (i : NodeId) (hi : i ∈ members)
    (hsafe : (Cluster.start members cfg now).RunSafe (first ++ second)) :
    let run := (Cluster.start members cfg now).run
    ∃ q, Majority members.toFinset q ∧ ∀ u ∈ q, ∃ disk,
      ((run (first ++ second)).nodes u).storage = some disk ∧
      ∀ e ∈ ((run first).nodes i).log, e.index ≤ ((run first).nodes i).commitIndex →
        e ∈ disk.image.log ∨ e.index ≤ disk.image.snapshotIndex := by
  intro run
  obtain ⟨s₁, s₂, h₁, h₂, hle⟩ := run_rel True members cfg now first second fun _ => hsafe
  obtain ⟨ℓ, hℓ, hat⟩ : ∃ ℓ, Committed members.toFinset s₁ ℓ ∧
      ∀ e ∈ ((run first).nodes i).log, e.index ≤ ((run first).nodes i).commitIndex →
        0 < e.index ∧ ℓ[e.index - 1]? = some e := by
    rcases h₁.nodes i (mem_toFinset.mpr hi) with h | h
    · refine ⟨_, h.mem.committed trivial, fun e he hle => ?_⟩
      obtain ⟨hpos, -, hget⟩ := FullLog.mem_log h.mem.full he
      exact ⟨hpos, (getElem?_take_of_lt (Nat.lt_of_lt_of_le (Nat.sub_one_lt hpos.ne') hle)).trans hget⟩
    · exact ⟨[], .inl rfl, fun e he => absurd he (by rw [h.log]; exact not_mem_nil)⟩
  obtain ⟨q, hq, hdisk⟩ := (hℓ.mono hle).durable h₂.sound.inv (h₂.sound.held trivial)
    ⟨i, mem_toFinset.mpr hi⟩
  refine ⟨q, hq, fun u hu => ?_⟩
  obtain ⟨disk, hok, hrel⟩ := (h₂.nodes u (hq.1 hu)).elim (·.disk) (·.disk)
  refine ⟨disk, hok.storage, fun e he hcommit => ?_⟩
  obtain ⟨hpos, hget⟩ := hat e he hcommit
  refine or_iff_not_imp_right.mpr fun hlt => hrel.full.mem_log_of_getElem? (not_le.mp hlt) ?_
  obtain ⟨c, hc⟩ := hdisk u hu
  rw [← hc, getElem?_append_left (List.getElem?_eq_some_iff.mp hget).1, hget]

theorem committed_durable_trio : ∃ q, Majority {1, 2, 3} q ∧ ∀ u ∈ q, ∃ disk,
    ((trio.run (commitOne ++ foldOne)).nodes u).storage = some disk ∧
    ∀ e ∈ ((trio.run commitOne).nodes 1).log, e.index ≤ ((trio.run commitOne).nodes 1).commitIndex →
      e ∈ disk.image.log ∨ e.index ≤ disk.image.snapshotIndex :=
  committed_durable [1, 2, 3] _ _ commitOne foldOne 1 (by decide) (by decide +kernel)

end OnetDns.Raft
