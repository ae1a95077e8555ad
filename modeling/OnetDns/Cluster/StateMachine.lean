import OnetDns.Cluster.ApplyThread
import OnetDns.Cluster.DiskSnapshot
import OnetDns.Cluster.Representation
import OnetDns.Cluster.SnapshotTransfer

/-!
# The upper layer of every node follows one log

On safe ground there is one list of committed entries for a whole run. Whatever a node takes
as committed is in it at its place, a snapshot of index `k` stands for its first `k` entries,
and the upper layer of every node is in the state that some start of it leads to. A node that
was put together from a snapshot cannot be told from one that applied every entry.
-/
namespace OnetDns.Raft
open Consensus TermLog List Option Function Raft.Cluster

variable {σ : Type*} {app : Application σ} {E E' : List LogEntry} {s s' : History} {v : NodeId}
  {n : RaftNode}

/-- The received snapshot that was installed in the upper layer is still there. -/
def InstallHeld (n : RaftNode) : Work → Prop
  | .installing index =>
    (n.completeIncoming.filter fun incoming => decide (incoming.index = index)).isSome = true
  | _ => True

instance (n : RaftNode) (work : Work) : Decidable (InstallHeld n work) :=
  match work with
  | .installing _ => inferInstanceAs (Decidable (_ = _))
  | .idle | .folding _ | .applying .. => inferInstanceAs (Decidable True)

namespace Machine

/-- The thread finds what it has to finish, and the cluster stays on safe ground. -/
def HappeningSafe (m : Machine σ) (h : Happening) : Prop :=
  m.cluster.RunSafe (m.actions h) ∧
    match h with
    | .finish id => InstallHeld (m.cluster.nodes id) (m.work id)
    | _ => True

instance (m : Machine σ) (h : Happening) : Decidable (m.HappeningSafe h) :=
  match h with
  | .finish id => inferInstanceAs (Decidable (_ ∧ InstallHeld (m.cluster.nodes id) (m.work id)))
  | .tick _ | .forceReplicate _ | .proposeBatch .. | .nextBootSession .. | .diskFaults .. |
    .deliver _ | .restart .. | .take .. => inferInstanceAs (Decidable (_ ∧ True))

def RunSafe (app : Application σ) (m : Machine σ) : List Happening → Prop
  | [] => True
  | h :: hs => m.HappeningSafe h ∧ RunSafe app (m.exec app h) hs

instance decidableRunSafe (app : Application σ) (m : Machine σ) :
    (hs : List Happening) → Decidable (m.RunSafe app hs)
  | [] => inferInstanceAs (Decidable True)
  | h :: hs =>
    have := decidableRunSafe app (m.exec app h) hs
    inferInstanceAs (Decidable (_ ∧ _))

lemma runSafe_append (m : Machine σ) (first second : List Happening) :
    m.RunSafe app (first ++ second) ↔
      m.RunSafe app first ∧ (m.run app first).RunSafe app second := by
  induction first generalizing m with
  | nil => simp [RunSafe, run]
  | cons h hs ih => simp [RunSafe, ih, run, and_assoc]

end Machine

/-- The state after the first `k` entries of the list. -/
structure Reflects (app : Application σ) (E : List LogEntry) (k : ℕ) (state : σ) : Prop where
  le : k ≤ E.length
  state : state = app.replay app.initial (E.take k)

variable {state : σ}

lemma Reflects.mono {k : ℕ} (h : Reflects app E k state) (hE : E <+: E') :
    Reflects app E' k state := by
  refine ⟨h.le.trans hE.length_le, ?_⟩
  rw [prefix_take_eq hE h.le]
  exact h.state

lemma Reflects.replay {k : ℕ} (h : Reflects app E k state) {entries : List LogEntry}
    (hentries : entries <+: E.drop k) :
    Reflects app E (k + entries.length) (app.replay state entries) := by
  have hlen := hentries.length_le
  rw [length_drop] at hlen
  have hle := h.le
  refine ⟨by omega, ?_⟩
  rw [h.state, ← Application.replay_append, take_add, ← prefix_iff_eq_take.mp hentries]

/-- A snapshot stands for a start of the list. -/
def Faithful (app : Application σ) (E : List LogEntry) (snapshot : Snapshot) : Prop :=
  Reflects app E snapshot.index (app.install snapshot.data)

lemma Faithful.mono {snapshot : Snapshot} (h : Faithful app E snapshot) (hE : E <+: E') :
    Faithful app E' snapshot := Reflects.mono h hE

/-- What the thread holds, in terms of the list. -/
def WorkOk (app : Application σ) (E : List LogEntry) (n : RaftNode) (state : σ) : Work → Prop
  | .idle => Reflects app E n.lastApplied state
  | .installing index => Reflects app E index state
  | .folding data => data = app.snapshot state ∧ Reflects app E n.lastApplied state
  | .applying first last =>
    first = satAdd n.lastApplied 1 ∧ first ≤ last ∧ last ≤ n.commitIndex ∧ Reflects app E last state

lemma WorkOk.keep {m : RaftNode} {work : Work} (h : WorkOk app E n state work)
    (hE : E <+: E') (happlied : m.lastApplied = n.lastApplied)
    (hcommit : n.commitIndex ≤ m.commitIndex) : WorkOk app E' m state work := by
  cases work with
  | idle =>
    change Reflects app E' m.lastApplied state
    rw [happlied]
    exact .mono h hE
  | installing index => exact .mono h hE
  | folding data =>
    refine ⟨h.1, ?_⟩
    rw [happlied]
    exact h.2.mono hE
  | applying first last =>
    obtain ⟨hfirst, hle, hlast, hstate⟩ := h
    exact ⟨by rw [happlied]; exact hfirst, hle, hlast.trans hcommit, hstate.mono hE⟩

section Cluster

variable {members : List NodeId} {cfg : NodeId → Config} {now : NodeId → ℕ} {acts : List Action}
  {action : Action}

/-- One committed list for a cluster run: what the members take as committed is a start of it,
and every snapshot a member had, or has on disk, stands for a start of it. -/
structure Shared (app : Application σ) (members : List NodeId) (cfg : NodeId → Config)
    (now : NodeId → ℕ) (acts : List Action) (E : List LogEntry) (s : History) : Prop where
  rel : ClusterRel members.toFinset True s ((Cluster.start members cfg now).run acts)
  common : Committed members.toFinset s E
  logs : ∀ v ∈ members,
    NodeRel members.toFinset True s v (((Cluster.start members cfg now).run acts).nodes v) →
    (s.mem v).log.take (((Cluster.start members cfg now).run acts).nodes v).commitIndex <+: E
  past : ∀ p, p <+: acts → ∀ v ∈ members, ∀ snapshot,
    (((Cluster.start members cfg now).run p).nodes v).snapshot = some snapshot →
    Faithful app E snapshot
  disks : ∀ v ∈ members, ∃ disk,
    RaftNode.DiskOk (((Cluster.start members cfg now).run acts).nodes v).books disk ∧
    ∀ snapshot, disk.image.snapshot = some snapshot → Faithful app E snapshot

lemma shared_start : Shared app members cfg now [] [] emptyHistory := by
  refine ⟨start_rel members cfg now, .inl rfl, ?_, ?_, ?_⟩
  · intro v _ _
    rw [show (emptyHistory.mem v).log = [] from rfl, take_nil]
  · intro p hp v _ snapshot hsnap
    rw [prefix_nil] at hp
    subst hp
    cases hsnap
  · intro v _
    exact ⟨{}, newPersistent_books v members (cfg v) {} (now v), nofun⟩

/-- A list that covers what every member takes as committed after a step. -/
theorem ClusterRel.cover {M : Finset NodeId} {c : Cluster} (h : ClusterRel M True s c)
    (hE : Committed M s E) :
    ∃ E', Committed M s E' ∧ E <+: E' ∧ ∀ v ∈ M, NodeRel M True s v (c.nodes v) →
      (s.mem v).log.take (c.nodes v).commitIndex <+: E' := by
  classical
  set f : NodeId → List LogEntry := fun v =>
    if NodeRel M True s v (c.nodes v) then (s.mem v).log.take (c.nodes v).commitIndex else [] with hf
  have hcommitted : ∀ v ∈ M, Committed M s (f v) := by
    intro v _
    rw [hf]
    dsimp only
    split
    · rename_i hn
      exact hn.mem.committed trivial
    · exact .inl rfl
  obtain ⟨E', hcommon, hle, hall⟩ := hE.bound h.sound.inv (h.sound.held trivial) M hcommitted
  refine ⟨E', hcommon, hle, fun v hv hn => ?_⟩
  have := hall v hv
  rw [hf] at this
  dsimp only at this
  rwa [if_pos hn] at this

namespace Shared

variable (h : Shared app members cfg now acts E s)

include h

lemma received (hv : v ∈ members) {inc : IncomingSnapshot}
    (hinc : (((start members cfg now).run acts).nodes v).completeIncoming = some inc) :
    Reflects app E inc.index (app.install inc.data) := by
  obtain ⟨s', D, hD⟩ := run_transfers members cfg now acts
  obtain ⟨hin, hdone, _⟩ := completeIncoming_spec hinc
  obtain ⟨snapshot, hoffer, htransfer⟩ := (hD.nodes v hv).incoming inc hin
  obtain ⟨p, hp, _, _, hindex, hsnap⟩ := hD.seen _ _ _ _ hoffer
  have hfaithful := h.past p hp _ (hD.member _ _ _ _ hoffer) snapshot hsnap
  rw [hindex, htransfer.complete hdone]
  exact hfaithful

lemma batch (hv : v ∈ members) {first : LogEntry} {rest : List LogEntry} {limit : ℕ}
    (hbatch : (((start members cfg now).run acts).nodes v).nextCommittedBatch limit = first
      :: rest) :
    let n := ((start members cfg now).run acts).nodes v
    first.index = satAdd n.lastApplied 1 ∧ first :: rest <+: E.drop n.lastApplied ∧
      (first :: rest).getLast?.elim 0 (·.index) = n.lastApplied + (first :: rest).length ∧
      n.lastApplied + (first :: rest).length ≤ n.commitIndex := by
  intro n
  have hne : n.log ≠ [] := by
    intro hnil
    unfold RaftNode.nextCommittedBatch at hbatch
    split at hbatch
    · cases hbatch
    dsimp only at hbatch
    split at hbatch
    · rw [show (((start members cfg now).run acts).nodes v).log = [] from hnil] at hbatch
      simp at hbatch
    · cases hbatch
  have hnode := h.rel.nodeRel (mem_toFinset.mpr hv) hne
  have hfull : FullLog (s.mem v).log n.snapshot n.log := hnode.mem.full
  have hsnap : n.snapshotIndex ≤ n.lastApplied := hnode.mem.snapshot_le
  have hcommit : n.commitIndex ≤ (s.mem v).log.length := hnode.mem.commit_le
  have hbelow : n.commitIndex ≤ u64Max := hnode.toCoreRel.commit_le_u64Max
  have hlogs : (s.mem v).log.take n.commitIndex <+: E := h.logs v hv hnode
  -- the batch is a piece of the whole log
  obtain ⟨count, hcount, hpiece⟩ : ∃ count, n.lastApplied + count ≤ n.commitIndex ∧
      first :: rest = ((s.mem v).log.drop n.lastApplied).take count := by
    change n.nextCommittedBatch limit = first :: rest at hbatch
    unfold RaftNode.nextCommittedBatch at hbatch
    split at hbatch
    · cases hbatch
    dsimp only at hbatch
    split at hbatch
    · refine ⟨min (n.commitIndex - n.lastApplied) limit, by omega, ?_⟩
      rw [← hbatch, ← hfull.drop_eq, drop_drop]
      congr 2
      omega
    · cases hbatch
  have hlen : (first :: rest).length = count := by
    rw [hpiece, length_take, length_drop]
    omega
  have hat : ∀ i e, (first :: rest)[i]? = some e → e.index = n.lastApplied + i + 1 := by
    intro i e he
    rw [hpiece, getElem?_take] at he
    split at he
    · rw [getElem?_drop] at he
      exact (hfull.numbered.entry _ e he).1
    · cases he
  refine ⟨?_, ?_, ?_, by omega⟩
  · have hpos : 0 < count := by rw [← hlen]; simp
    rw [hat 0 first rfl, satAdd_of_le (by omega)]
  · obtain ⟨tail, htail⟩ := hlogs
    rw [hpiece, ← htail, drop_append_of_le_length (by rw [length_take]; omega), drop_take]
    refine IsPrefix.trans ?_ (prefix_append _ _)
    exact take_prefix_take_left (by omega)
  rw [getLast?_eq_getElem?]
  have hget := getElem?_eq_getElem (l := first :: rest) (i := (first :: rest).length - 1) (by simp)
  rw [hget]
  have := hat _ _ hget
  simp only [elim_some, length_cons] at this ⊢
  omega

/-- One action. A snapshot that is folded has to stand for what was applied. -/
theorem exec (action : Action)
    (hsafe : ((start members cfg now).run acts).ActionSafe action)
    (hfold : ∀ v ∈ members, ∀ data, action = .call v (.compact data) → Reflects app E
      (((start members cfg now).run acts).nodes v).lastApplied (app.install data)) :
    ∃ s' E', E <+: E' ∧ Shared app members cfg now (acts ++ [action]) E' s' := by
  have hrun : (start members cfg now).run (acts ++ [action]) =
      ((start members cfg now).run acts).exec action := run_append _ _ _
  obtain ⟨s', hrel, hle⟩ := h.rel.exec action fun _ => hsafe
  obtain ⟨E', hcommon, hE, hlogs⟩ := hrel.cover (h.common.mono hle)
  -- the snapshot of a member, and the one on its disk, after the step
  have hnode : ∀ v ∈ members,
      (∀ snapshot, ((((start members cfg now).run acts).exec action).nodes v).snapshot =
        some snapshot → Faithful app E' snapshot) ∧
      ∃ disk, RaftNode.DiskOk
          ((((start members cfg now).run acts).exec action).nodes v).books disk ∧
        ∀ snapshot, disk.image.snapshot = some snapshot → Faithful app E' snapshot := by
    intro v hv
    set n := ((start members cfg now).run acts).nodes v
    have hold : ∀ snapshot, n.snapshot = some snapshot → Faithful app E' snapshot :=
      fun snapshot hsnap => (h.past acts prefix_rfl v hv snapshot hsnap).mono hE
    obtain ⟨disk, hok, hdisk⟩ := h.disks v hv
    have hdisk' : ∀ snapshot, disk.image.snapshot = some snapshot → Faithful app E' snapshot :=
      fun snapshot hsnap => (hdisk snapshot hsnap).mono hE
    rcases h.rel.node_cases (mem_toFinset.mpr hv) action with
      heq | ⟨input, heff, heq, hcall⟩ | ⟨time, hact, heq⟩
    · rw [heq]
      exact ⟨hold, disk, hok, hdisk'⟩
    · rw [heq]
      have hnew : ∀ snapshot, (n.handle input).1.snapshot = some snapshot →
          Faithful app E' snapshot := by
        intro snapshot hsnap
        cases heff with
        | quiet hq _ => exact hold snapshot (hq.snapshot ▸ hsnap)
        | elected he _ => exact hold snapshot (he.snapshot ▸ hsnap)
        | received c hr _ _ => exact hold snapshot (hr.snapshot ▸ hsnap)
        | folded data hf _ horigin =>
          rw [hf.snapshot] at hsnap
          obtain rfl := some.inj hsnap
          exact (hfold v hv data (hcall _ horigin)).mono hE
        | installed inc hi _ _ =>
          rw [hi.snapshot] at hsnap
          obtain rfl := some.inj hsnap
          exact (h.received hv hi.complete).mono hE
        | applied first last ha _ _ => exact hold snapshot (ha.snapshot ▸ hsnap)
      refine ⟨hnew, ?_⟩
      obtain ⟨disk', hok', hfiled⟩ := refiled_handle n input disk hok
      refine ⟨disk', hok', fun snapshot hsnap => ?_⟩
      rcases hfiled with hf | hf | hf
      · exact hdisk' snapshot (hf ▸ hsnap)
      · exact hold snapshot (hf ▸ hsnap)
      · exact hnew snapshot (hf ▸ hsnap)
    · rw [heq]
      have hstore : n.storage = some disk := hok.storage
      have hrestart : n.restart time = .newPersistent n.id n.peers n.cfg disk time := by
        rw [RaftNode.restart, hstore]
        rfl
      rw [hrestart]
      exact ⟨hdisk', disk, newPersistent_books _ _ _ disk _, hdisk'⟩
  refine ⟨s', E', hE, by rw [hrun]; exact hrel, hcommon, ?_, ?_, ?_⟩
  · intro v hv
    rw [hrun]
    exact hlogs v (mem_toFinset.mpr hv)
  · intro p hp v hv snapshot hsnap
    rcases prefix_concat_iff.mp hp with rfl | hp
    · rw [hrun] at hsnap
      exact (hnode v hv).1 snapshot hsnap
    · exact (h.past p hp v hv snapshot hsnap).mono hE
  · intro v hv
    rw [hrun]
    exact (hnode v hv).2

/-- Some actions. Every snapshot that is folded on the way stands for what was applied. -/
theorem run (actions : List Action)
    (hsafe : ((start members cfg now).run acts).RunSafe actions)
    (hfold : ∀ p v data, p ++ [.call v (.compact data)] <+: actions → v ∈ members → Reflects app E
      (((start members cfg now).run (acts ++ p)).nodes v).lastApplied (app.install data)) :
    ∃ s' E', E <+: E' ∧ Shared app members cfg now (acts ++ actions) E' s' := by
  induction actions generalizing acts E s with
  | nil => exact ⟨s, E, prefix_rfl, by rwa [append_nil]⟩
  | cons action rest ih =>
    obtain ⟨s₁, E₁, hE₁, h₁⟩ := h.exec action hsafe.1 fun v hv data hact => by
      have hfirst := hfold [] v data (by rw [hact]; exact prefix_append [_] rest) hv
      rwa [append_nil] at hfirst
    have hrest : ((start members cfg now).run (acts ++ [action])).RunSafe rest := by
      rw [run_append]
      exact hsafe.2
    obtain ⟨s₂, E₂, hE₂, h₂⟩ := ih h₁ hrest fun p v data hp hv => by
      have hlater := hfold (action :: p) v data (cons_prefix_cons.mpr ⟨rfl, hp⟩) hv
      rw [append_assoc]
      exact hlater.mono hE₁
    refine ⟨s₂, E₂, hE₁.trans hE₂, ?_⟩
    rwa [append_assoc] at h₂

/-- What a process starts with stands for what the node holds as applied. -/
theorem recover (hv : v ∈ members)
    (hnode : NodeRel members.toFinset True s v (((start members cfg now).run acts).nodes v))
    :
    Reflects app E (((start members cfg now).run acts).nodes v).lastApplied
      (app.recover (((start members cfg now).run acts).nodes v)) := by
  have hlogs := h.logs v hv hnode
  have hpast := h.past acts prefix_rfl v hv
  set n := ((start members cfg now).run acts).nodes v
  have hfull : FullLog (s.mem v).log n.snapshot n.log := hnode.mem.full
  have hsnap : n.snapshotIndex ≤ n.lastApplied := hnode.mem.snapshot_le
  have happlied : n.lastApplied ≤ n.commitIndex := hnode.mem.applied_le
  have hcommit : n.commitIndex ≤ (s.mem v).log.length := hnode.mem.commit_le
  have hlen := hfull.log_length
  have hbase : Reflects app E n.snapshotIndex
      (n.snapshot.elim app.initial fun snapshot => app.install snapshot.data) := by
    rw [RaftNode.snapshotIndex]
    cases hcase : n.snapshot with
    | none => exact ⟨Nat.zero_le _, rfl⟩
    | some snapshot => exact hpast snapshot hcase
  have hentries : n.appliedEntriesAfterSnapshot <+: E.drop n.snapshotIndex := by
    obtain ⟨tail, htail⟩ := hlogs
    rw [RaftNode.appliedEntriesAfterSnapshot, ← hfull.drop_eq, ← htail,
      drop_append_of_le_length (by rw [length_take]; omega),
      drop_take]
    refine IsPrefix.trans ?_ (prefix_append _ _)
    exact take_prefix_take_left (by omega)
  have hcount : n.snapshotIndex + n.appliedEntriesAfterSnapshot.length = n.lastApplied := by
    rw [RaftNode.appliedEntriesAfterSnapshot, length_take]
    omega
  have hall := hbase.replay hentries
  rwa [hcount] at hall

end Shared

end Cluster

/-- Only the thread moves the applied index, and nothing takes a commit index back. -/
theorem ClusterRel.applied_kept {M : Finset NodeId} {strict : Prop} {c : Cluster}
    (h : ClusterRel M strict s c) (hv : v ∈ M) (action : Action)
    (hrestart : ∀ now, action ≠ .restart v now)
    (hcall : ∀ call, action = .call v call → (∀ first last, call ≠ .markAppliedBatch first last) ∧ ∀
      index, call ≠ .finishSnapshotInstall index) :
    ((c.exec action).nodes v).lastApplied = (c.nodes v).lastApplied ∧
      (c.nodes v).commitIndex ≤ ((c.exec action).nodes v).commitIndex := by
  rcases h.node_cases hv action with heq | ⟨input, heff, heq, hin⟩ | ⟨time, hact, _⟩
  · rw [heq]
    exact ⟨rfl, le_rfl⟩
  · rw [heq]
    refine ⟨?_, heff.kept.commit⟩
    cases heff with
    | quiet hq _ => exact hq.applied
    | elected he _ => exact he.applied
    | received c hr _ _ => exact hr.applied
    | folded data hf _ _ => exact hf.applied
    | installed inc _ _ horigin => exact absurd rfl ((hcall _ (hin _ horigin)).2 inc.index)
    | applied first last _ _ horigin => exact absurd rfl ((hcall _ (hin _ horigin)).1 first last)
  · exact absurd hact (hrestart time)

lemma Cluster.run_calls (c : Cluster) (id : NodeId) (calls : List Call) :
    ((c.run (calls.map (.call id))).nodes id =
      calls.foldl (fun n call => (n.perform call).1) (c.nodes id)) ∧
    ∀ v, v ≠ id → (c.run (calls.map (.call id))).nodes v = c.nodes v := by
  induction calls generalizing c with
  | nil => exact ⟨rfl, fun _ _ => rfl⟩
  | cons call rest ih =>
    have hother : ∀ v, v ≠ id → (c.exec (.call id call)).nodes v = c.nodes v :=
      fun v hne => if_neg hne
    have hself : (c.exec (.call id call)).nodes id = ((c.nodes id).perform call).1 := if_pos rfl
    obtain ⟨hnode, hrest⟩ := ih (c.exec (.call id call))
    refine ⟨?_, fun v hne => ?_⟩
    · rw [map_cons, run_cons, hnode, hself, foldl_cons]
    · rw [map_cons, run_cons, hrest v hne, hother v hne]

/-- The node after the thread has told it that the work is done. -/
def RaftNode.finish (n : RaftNode) (work : Work) : RaftNode :=
  (n.finishCalls work).foldl (fun n call => (n.perform call).1) n

open RaftNode

lemma orStop_lastApplied {α : Type} (n : RaftNode) (call : Call) (result : Except String α) :
    ((orStop call result).foldl (fun n call => (n.perform call).1) n).lastApplied =
      (n.perform call).1.lastApplied := by
  cases result <;> rfl

lemma orStop_inits {α : Type} {call c : Call} {result : Except String α} {q : List Call}
    (hq : q ++ [c] <+: orStop call result) (hc : ∀ error, c ≠ .failStop error) :
    q = [] ∧ c = call := by
  rcases q with _ | ⟨a, q⟩
  · cases result <;> exact ⟨rfl, (cons_prefix_cons.mp hq).1⟩
  exfalso
  have hmem : c ∈ q ++ [c] := mem_append_right _ (mem_singleton_self c)
  cases result with
  | ok _ =>
    have := (cons_prefix_cons.mp hq).2.subset hmem
    cases this
  | error error =>
    have := (cons_prefix_cons.mp hq).2.subset hmem
    exact hc error (mem_singleton.mp this)

lemma finishCalls_compact {work : Work} {q : List Call} {data : Bytes}
    (hq : q ++ [.compact data] <+: n.finishCalls work) : q = [] ∧ work = .folding data := by
  cases work with
  | idle => simp [finishCalls] at hq
  | installing index => cases (orStop_inits hq nofun).2
  | folding made =>
    obtain ⟨hnil, hcall⟩ := orStop_inits hq nofun
    cases hcall
    exact ⟨hnil, rfl⟩
  | applying first last => cases (orStop_inits hq nofun).2

lemma finish_installing {index : ℕ} (hheld : InstallHeld n (.installing index)) :
    (n.finish (.installing index)).lastApplied = index := by
  obtain ⟨inc, hinc⟩ := isSome_iff_exists.mp hheld
  have hidx : inc.index = index := by
    have := (filter_eq_some_iff.mp hinc).2
    rwa [decide_eq_true_eq] at this
  have hcall : (n.perform (.finishSnapshotInstall index)).1.lastApplied = index := by
    rw [perform_finish_of_some hinc]
    obtain ⟨b, _, hp | ⟨error, hp⟩⟩ := persist_eq (n.installIncoming inc)
    · rw [hp]
      exact hidx
    · rw [hp]
      exact hidx
  exact (orStop_lastApplied n _ _).trans hcall

lemma finish_folding (data : Bytes) : (n.finish (.folding data)).lastApplied = n.lastApplied := by
  have hcall : (n.perform (.compact data)).1.lastApplied = n.lastApplied := by
    have heff : Effect n (.call (.compact data)) (n.perform (.compact data)) := compact_effect n data
    cases heff with
    | quiet hq _ => exact hq.applied
    | elected he _ => exact he.applied
    | received c hr _ _ => exact hr.applied
    | folded data hf _ _ => exact hf.applied
    | installed inc _ _ horigin => cases horigin
    | applied first last _ _ horigin => cases horigin
  exact (orStop_lastApplied n _ _).trans hcall

lemma finish_applying {first last : ℕ} (hfirst : first = satAdd n.lastApplied 1)
    (hle : first ≤ last) (hlast : last ≤ n.commitIndex) :
    (n.finish (.applying first last)).lastApplied = last := by
  have hcall : (n.perform (.markAppliedBatch first last)).1.lastApplied = last := by
    have hok : ¬ (first ≠ satAdd n.lastApplied 1 ∨ last < first ∨ n.commitIndex < last) := by
      push Not
      exact ⟨hfirst, hle, hlast⟩
    change (n.markAppliedBatch first last).1.lastApplied = last
    rw [markAppliedBatch, if_neg hok]
    obtain ⟨b, _, hp | ⟨error, hp⟩⟩ := persist_eq ({ n with lastApplied := last } : RaftNode)
    · rw [hp]
      rfl
    · rw [hp]
      rfl
  exact (orStop_lastApplied n _ _).trans hcall

/-- At one moment, what a node shows of the list. -/
structure Follows (app : Application σ) (E : List LogEntry) (m : Machine σ) (v : NodeId) : Prop where
  committed : ∀ e ∈ (m.cluster.nodes v).log, e.index ≤ (m.cluster.nodes v).commitIndex →
    E[e.index - 1]? = some e
  snapshot : ∀ snapshot, (m.cluster.nodes v).snapshot = some snapshot → Faithful app E snapshot
  state : Reflects app E (m.reached v) (m.state v)

lemma Follows.mono {m : Machine σ} (h : Follows app E m v) (hE : E <+: E') :
    Follows app E' m v := by
  refine ⟨fun e he hcommit => ?_, fun snapshot hsnap => (h.snapshot snapshot hsnap).mono hE,
    h.state.mono hE⟩
  obtain ⟨tail, rfl⟩ := hE
  have hat := h.committed e he hcommit
  rw [getElem?_append_left (List.getElem?_eq_some_iff.mp hat).1, hat]

section Run

variable {members : List NodeId} {cfg : NodeId → Config} {now : NodeId → ℕ} {hs : List Happening}
  {acts : List Action} {h : Happening} {m : Machine σ}

/-- A machine whose cluster went through these actions, with the list and the work in hand. -/
structure Served (app : Application σ) (members : List NodeId) (cfg : NodeId → Config)
    (now : NodeId → ℕ) (acts : List Action) (E : List LogEntry) (s : History) (m : Machine σ) :
    Prop where
  shared : Shared app members cfg now acts E s
  cluster : m.cluster = (Cluster.start members cfg now).run acts
  work : ∀ v ∈ members, WorkOk app E (m.cluster.nodes v) (m.state v) (m.work v)

lemma Served.follows (hm : Served app members cfg now acts E s m) (hv : v ∈ members) :
    Follows app E m v := by
  have hwork := hm.work v hv
  refine ⟨?_, ?_, ?_⟩
  · rw [hm.cluster]
    intro e he hcommit
    have hnode := hm.shared.rel.nodeRel (mem_toFinset.mpr hv) (ne_nil_of_mem he)
    obtain ⟨hpos, _, hat⟩ := FullLog.mem_log hnode.mem.full he
    obtain ⟨tail, htail⟩ := hm.shared.logs v hv hnode
    have hin : ((s.mem v).log.take
        (((start members cfg now).run acts).nodes v).commitIndex)[e.index - 1]? = some e := by
      rw [getElem?_take_of_lt (by omega), hat]
    rw [← htail, getElem?_append_left (List.getElem?_eq_some_iff.mp hin).1, hin]
  · rw [hm.cluster]
    exact hm.shared.past acts prefix_rfl v hv
  · unfold Machine.reached
    cases hcase : m.work v with
    | idle => rw [hcase] at hwork; exact hwork
    | installing index => rw [hcase] at hwork; exact hwork
    | folding data => rw [hcase] at hwork; exact hwork.2
    | applying first last => rw [hcase] at hwork; exact hwork.2.2.2

/-- The actions of a happening, as far as the cluster is concerned. -/
theorem Served.actions (hround : ∀ state, app.install (app.snapshot state) = state)
    (hm : Served app members cfg now acts E s m) (hsafe : m.cluster.RunSafe (m.actions h)) :
    ∃ s' E', E <+: E' ∧ Shared app members cfg now (acts ++ m.actions h) E' s' := by
  refine hm.shared.run (m.actions h) (hm.cluster ▸ hsafe) ?_
  intro p v data hp hv
  -- only the thread folds, and what it made is the state it has reached
  obtain ⟨hnil, hwork⟩ : p = [] ∧ m.work v = .folding data := by
    cases h with
    | finish id =>
      obtain ⟨tail, htail⟩ := hp
      obtain ⟨calls, _, hcalls, hpre, _⟩ := map_eq_append_iff.mp htail.symm
      obtain ⟨q, last, rfl, rfl, hlast⟩ := map_eq_append_iff.mp hpre
      obtain ⟨call, rfl, hcall⟩ := map_eq_singleton_iff.mp hlast
      cases hcall
      have hfolds := finishCalls_compact ⟨_, hcalls.symm⟩
      exact ⟨by rw [hfolds.1]; rfl, hfolds.2⟩
    | take | deliver | tick | forceReplicate | proposeBatch | nextBootSession | diskFaults | restart =>
      have hmem := hp.subset (mem_append_right _ (mem_singleton_self _))
      simp [Machine.actions] at hmem
  subst hnil
  have hok := hm.work v hv
  rw [hwork] at hok
  rw [append_nil, hok.1, hround, ← hm.cluster]
  exact hok.2

section

variable (hm : Served app members cfg now acts E s m)
include hm

/-- A happening outside the thread, seen from a member that it leaves its work. -/
theorem Served.outside (action : Action) (hE : E <+: E') (hv : v ∈ members)
    (hrestart : ∀ now, action ≠ .restart v now)
    (hcall : ∀ call, action = .call v call → (∀ first last, call ≠ .markAppliedBatch first last) ∧ ∀
      index, call ≠ .finishSnapshotInstall index) :
    WorkOk app E' ((m.cluster.exec action).nodes v) (m.state v) (m.work v) := by
  have hrel := hm.cluster ▸ hm.shared.rel
  obtain ⟨happlied, hcommit⟩ := hrel.applied_kept (mem_toFinset.mpr hv) action hrestart hcall
  exact (hm.work v hv).keep hE happlied hcommit

/-- The thread takes up work. -/
theorem Served.takeWork (hv : v ∈ members) (hidle : m.work v = .idle) (fold : Bool) :
    WorkOk app E (m.cluster.nodes v) ((m.cluster.nodes v).takeWork app (m.state v) fold).1
      ((m.cluster.nodes v).takeWork app (m.state v) fold).2 := by
  have hstate : Reflects app E (m.cluster.nodes v).lastApplied (m.state v) := by
    have := hm.work v hv
    rwa [hidle] at this
  rw [hm.cluster] at hstate ⊢
  unfold RaftNode.takeWork
  split
  · rename_i snapshot hpending
    obtain ⟨inc, hinc, rfl⟩ := map_eq_some_iff.mp hpending
    exact hm.shared.received hv hinc
  split
  · exact ⟨rfl, hstate⟩
  split
  · exact hstate
  rename_i first rest hbatch
  obtain ⟨hfirst, hentries, hlast, hcommit⟩ := hm.shared.batch hv hbatch
  refine ⟨hfirst, ?_, ?_, ?_⟩
  · rw [hlast, hfirst]
    unfold satAdd
    simp only [length_cons]
    omega
  · rw [hlast]
    exact hcommit
  · rw [hlast]
    exact hstate.replay hentries

/-- The thread is done with its work. -/
theorem Served.finish (hv : v ∈ members) (hheld : InstallHeld (m.cluster.nodes v) (m.work v)) :
    Reflects app E ((m.cluster.nodes v).finish (m.work v)).lastApplied (m.state v) := by
  have hwork := hm.work v hv
  cases hcase : m.work v with
  | idle =>
    rw [hcase] at hwork
    exact hwork
  | installing index =>
    rw [hcase] at hwork hheld
    rw [finish_installing hheld]
    exact hwork
  | folding data =>
    rw [hcase] at hwork
    rw [finish_folding]
    exact hwork.2
  | applying first last =>
    rw [hcase] at hwork
    obtain ⟨hfirst, hle, hlast, hstate⟩ := hwork
    rw [finish_applying hfirst hle hlast]
    exact hstate

end

section

variable (hround : ∀ state, app.install (app.snapshot state) = state)
include hround

lemma Served.exec (hm : Served app members cfg now acts E s m) (hsafe : m.HappeningSafe h) :
    ∃ s' E', E <+: E' ∧ Served app members cfg now (acts ++ m.actions h) E' s' (m.exec app h) := by
  obtain ⟨s', E', hE, hshared⟩ := hm.actions hround hsafe.1
  have hcluster : (m.exec app h).cluster = (start members cfg now).run
      (acts ++ m.actions h) := by
    rw [Machine.exec_cluster, hm.cluster, run_append]
  refine ⟨s', E', hE, hshared, hcluster, fun v hv => ?_⟩
  cases h with
  | restart id time =>
    by_cases hid : v = id
    · subst hid
      have hnode : NodeRel members.toFinset True s' v ((m.exec app (.restart v time)).cluster.nodes v) := by
        rw [hcluster]
        refine (hshared.rel.nodes v (mem_toFinset.mpr hv)).resolve_right fun hstuck => ?_
        have hnew : (m.exec app (.restart v time)).cluster.nodes v =
          (m.cluster.nodes v).restart time := if_pos rfl
        have hfatal := hstuck.fatal
        rw [← hcluster, hnew] at hfatal
        cases hfatal
      rw [hcluster] at hnode
      have hstate := hshared.recover hv hnode
      rw [← hcluster] at hstate
      have hwork : (m.exec app (.restart v time)).work v = .idle := by
        simp [Machine.exec]
      rw [hwork]
      change Reflects app E' _ (update m.state v _ v)
      rw [update_self]
      exact hstate
    · have hkeep := hm.outside (.restart id time) hE hv
        (fun _ heq => hid (by cases heq; rfl)) nofun
      change WorkOk app E' _ (update m.state id _ v) (update m.work id _ v)
      rw [update_of_ne hid, update_of_ne hid]
      exact hkeep
  | take id fold =>
    by_cases hidle : m.work id = .idle
    · by_cases hid : v = id
      · subst hid
        have htake := (hm.takeWork hv hidle fold).keep hE rfl le_rfl
        simpa [Machine.exec, Machine.actions, hidle] using htake
      · have hkeep := (hm.work v hv).keep hE rfl le_rfl
        simpa [Machine.exec, Machine.actions, hidle, update_of_ne hid] using hkeep
    · have hkeep := (hm.work v hv).keep hE rfl le_rfl
      simpa [Machine.exec, hidle] using hkeep
  | finish id =>
    obtain ⟨hself, hother⟩ := run_calls m.cluster id ((m.cluster.nodes id).finishCalls (m.work id))
    by_cases hid : v = id
    · subst hid
      have hdone := (hm.finish hv hsafe.2).mono hE
      have hwork : (m.exec app (.finish v)).work v = .idle := by
        simp [Machine.exec]
      rw [hwork]
      change Reflects app E' ((m.cluster.run (((m.cluster.nodes v).finishCalls (m.work v)).map
        (.call v))).nodes v).lastApplied (m.state v)
      rw [hself]
      exact hdone
    · have hkeep := (hm.work v hv).keep hE rfl le_rfl
      change WorkOk app E' ((m.cluster.run (((m.cluster.nodes id).finishCalls (m.work id)).map
        (.call id))).nodes v) (m.state v) (update m.work id _ v)
      rw [hother v hid, update_of_ne hid]
      exact hkeep
  | tick id => exact hm.outside (.call id .tick) hE hv nofun (by rintro _ ⟨⟩; exact ⟨nofun, nofun⟩)
  | forceReplicate id =>
    exact hm.outside (.call id .forceReplicate) hE hv nofun (by rintro _ ⟨⟩; exact ⟨nofun, nofun⟩)
  | proposeBatch id entries =>
    exact hm.outside (.call id (.proposeBatch entries)) hE hv nofun
      (by rintro _ ⟨⟩; exact ⟨nofun, nofun⟩)
  | nextBootSession id time =>
    exact hm.outside (.call id (.nextBootSession time)) hE hv nofun
      (by rintro _ ⟨⟩; exact ⟨nofun, nofun⟩)
  | diskFaults id faults =>
    exact hm.outside (.call id (.diskFaults faults)) hE hv nofun
      (by rintro _ ⟨⟩; exact ⟨nofun, nofun⟩)
  | deliver place => exact hm.outside (.deliver place) hE hv nofun nofun

/-- One list for a whole run and all its moments. -/
theorem run_follows (members : List NodeId) (cfg : NodeId → Config) (now : NodeId → ℕ)
    (hs : List Happening) (hsafe : (Machine.start app members cfg now).RunSafe app hs) :
    ∃ acts E s, Served app members cfg now acts E s ((Machine.start app members cfg now).run app hs) ∧
      ∀ p, p <+: hs → ∀ v ∈ members,
        Follows app E ((Machine.start app members cfg now).run app p) v := by
  induction hs using reverseRecOn with
  | nil =>
    have hstart : Served app members cfg now [] [] emptyHistory (Machine.start app members cfg now) :=
      ⟨shared_start, rfl, fun v _ => ⟨le_refl 0, rfl⟩⟩
    refine ⟨[], [], emptyHistory, hstart, fun p hp v hv => ?_⟩
    rw [prefix_nil] at hp
    subst hp
    exact hstart.follows hv
  | append_singleton hs h ih =>
    obtain ⟨hbefore, hstep⟩ := (Machine.runSafe_append _ hs [h]).mp hsafe
    obtain ⟨acts, E, s, hm, hpast⟩ := ih hbefore
    obtain ⟨s', E', hE, hm'⟩ := hm.exec hround hstep.1
    have hrun : (Machine.start app members cfg now).run app (hs ++ [h]) =
        ((Machine.start app members cfg now).run app hs).exec app h := Machine.run_append _ _ _ _
    rw [← hrun] at hm'
    refine ⟨_, E', s', hm', fun p hp v hv => ?_⟩
    rcases prefix_concat_iff.mp hp with rfl | hp
    · exact hm'.follows hv
    · exact (hpast p hp v hv).mono hE

end

end Run

/-- On safe ground no two members ever take different entries at one index as committed, and there
is one list whose start every upper layer has applied, be it entry by entry or from a snapshot. -/
theorem state_machine_safety (app : Application σ)
    (hround : ∀ state, app.install (app.snapshot state) = state) (members : List NodeId)
    (cfg : NodeId → Config) (now : NodeId → ℕ) (hs : List Happening)
    (hsafe : (Machine.start app members cfg now).RunSafe app hs) :
    (∀ p q, p <+: hs → q <+: hs → ∀ i ∈ members, ∀ j ∈ members,
      ∀ e ∈ (((Machine.start app members cfg now).run app p).cluster.nodes i).log,
      ∀ f ∈ (((Machine.start app members cfg now).run app q).cluster.nodes j).log,
      e.index ≤ (((Machine.start app members cfg now).run app p).cluster.nodes i).commitIndex →
      f.index ≤ (((Machine.start app members cfg now).run app q).cluster.nodes j).commitIndex →
      e.index = f.index → e.term = f.term ∧ e.data = f.data) ∧
    ∃ E, ∀ p, p <+: hs → ∀ v ∈ members,
      Follows app E ((Machine.start app members cfg now).run app p) v := by
  obtain ⟨_, E, _, _, hfollows⟩ := run_follows hround members cfg now hs hsafe
  refine ⟨?_, E, hfollows⟩
  intro p q hp hq i hi j hj e he f hf hec hfc hindex
  have hat := (hfollows p hp i hi).committed e he hec
  rw [hindex, (hfollows q hq j hj).committed f hf hfc] at hat
  cases hat
  exact ⟨rfl, rfl⟩

/-- An upper layer that writes down what it is given. -/
def recorder : Application Bytes := ⟨[], (· ++ ·), (7 :: ·), List.tail⟩

def recorders : Machine Bytes := Machine.start recorder [1, 2, 3] (fun _ => ⟨2, 1⟩) (fun _ => 7)

def clockOf (id count : ℕ) : List Happening := List.replicate count (.tick id)

def arrivals (places : List ℕ) : List Happening := places.map Happening.deliver

/-- Node 1 folds the two entries it has applied, and node 3, which has applied nothing, receives
the snapshot and hands it to its upper layer. -/
def handOver : List Happening :=
  clockOf 1 2 ++ arrivals [0, 2, 3, 5, 6, 7, 4, 8, 9, 10] ++
    [.proposeBatch 1 [[9]], .forceReplicate 1] ++ arrivals [11, 12, 13, 14] ++ clockOf 1 1 ++
    arrivals [16] ++ [.take 1 false, .finish 1, .take 1 true, .finish 1] ++ arrivals [8, 18] ++
    [.take 3 false]

theorem state_machine_safety_recorders :
    (∀ p q, p <+: handOver ++ [.finish 3] → q <+: handOver ++ [.finish 3] → ∀ i ∈ [1, 2, 3],
      ∀ j ∈ [1, 2, 3], ∀ e ∈ ((recorders.run recorder p).cluster.nodes i).log,
      ∀ f ∈ ((recorders.run recorder q).cluster.nodes j).log,
      e.index ≤ ((recorders.run recorder p).cluster.nodes i).commitIndex →
      f.index ≤ ((recorders.run recorder q).cluster.nodes j).commitIndex →
      e.index = f.index → e.term = f.term ∧ e.data = f.data) ∧
    ∃ E, ∀ p, p <+: handOver ++ [.finish 3] → ∀ v ∈ [1, 2, 3],
      Follows recorder E (recorders.run recorder p) v :=
  state_machine_safety recorder (fun _ => rfl) [1, 2, 3] _ _ (handOver ++ [.finish 3])
    (by decide +kernel)

/-- Node 2 commits its no-op of term 2 with node 1. -/
def commitEarly : List Happening :=
  clockOf 3 2 ++ arrivals [0, 2] ++ clockOf 2 5 ++ arrivals [7, 9, 10, 12, 13, 14]

/-- It folds the no-op, votes for node 3, and node 3 commits its own entry of term 1. -/
def commitLate : List Happening :=
  [.take 2 false, .finish 2, .take 2 true, .finish 2] ++ arrivals [8] ++ clockOf 3 3 ++
    arrivals [17, 18, 19, 21, 22, 23, 24, 25]

/-- A vote given with the term of a folded entry lets another entry be committed in its place. And
a vote that is asked for while a snapshot is being handed over makes the thread apply the entries
behind it once more. -/
theorem committed_conflict :
    (⟨2, 1, []⟩ ∈ ((recorders.run recorder commitEarly).cluster.nodes 2).log ∧
      1 ≤ ((recorders.run recorder commitEarly).cluster.nodes 2).commitIndex ∧
      ⟨1, 1, []⟩ ∈ ((recorders.run recorder (commitEarly ++ commitLate)).cluster.nodes 3).log ∧
      1 ≤ ((recorders.run recorder (commitEarly ++ commitLate)).cluster.nodes 3).commitIndex) ∧
    let m := recorders.run recorder
      (handOver ++ clockOf 2 3 ++ arrivals [20] ++ [.finish 3, .take 3 false])
    (m.reached 1 = 2 ∧ m.state 1 = [9]) ∧ m.reached 3 = 2 ∧ m.state 3 = [9, 9] := by
  decide +kernel

end OnetDns.Raft
