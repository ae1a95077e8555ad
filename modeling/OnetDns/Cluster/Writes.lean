import Mathlib.Logic.Function.Basic
import OnetDns.Cluster.Config

/-!
# Routed writes

The writes of `cluster_routed_write` on the nodes of a cluster, one at a time on each node,
with the thread that applies committed commands and installs snapshots in between. The log
is the one order in which commands are committed.
-/
namespace OnetDns.Cluster
open List Option

/-- How far a routed write has come. -/
inductive Stage (V J : Type) where
  /-- The file was read. -/
  | opened
  /-- The request was carried out: the file it found and the file it left. -/
  | dispatched (found left : Table V)
  /-- The changes were proposed. -/
  | proposing (found left : Table V) (command : Patch J)
  /-- The file is about to be restored. -/
  | restoring

/-- A routed write, with the number of commands that were applied when it read the file. -/
structure Write (V J : Type) where
  leader : Bool
  before : Table V
  since : ℕ
  stage : Stage V J

structure Node (V J : Type) where
  file : Table V
  applied : ℕ
  values : Snapshot J
  write : Option (Write V J)

/-- The nodes, the commands in the order they were committed in, those that may still be,
the snapshots that were made, and the writes that were answered with success. -/
structure System (ι V J : Type) where
  nodes : ι → Node V J
  log : List (Patch J)
  proposed : List (Patch J)
  snapshots : List (ℕ × Snapshot J)
  answered : List (Table V × Table V)

/-- A cluster before anything happened. -/
def System.start {ι V J : Type} (files : ι → Table V) : System ι V J :=
  ⟨fun i => ⟨files i, 0, ∅, none⟩, [], [], [], []⟩

inductive Action (ι V J : Type) where
  /-- A write begins; a follower may refuse it at once. -/
  | enter (i : ι) (leader mustReject : Bool)
  /-- The request edits the file and is answered, with a 2xx status or with another one. -/
  | dispatch (i : ι) (edit : Table V → Bool × Table V)
  /-- The file is compared with what it was before. -/
  | compare (i : ι)
  /-- `propose` returns the place of the command. -/
  | confirm (i : ι) (index : ℕ)
  /-- `propose` fails. -/
  | giveUp (i : ι)
  /-- `restore_text`, which may fail. -/
  | restore (i : ι) (restored : Bool)
  /-- `cluster_propose`. -/
  | propose (command : Patch J)
  | commit (command : Patch J)
  | applyNext (i : ι)
  | createSnapshot (i : ι)
  | installSnapshot (i : ι) (index : ℕ) (values : Snapshot J)

section Steps

variable {ι V J : Type} [DecidableEq ι] [DecidableEq V] [DecidableEq J] (c : Values V J)

variable (s : System ι V J)

def System.setNode (i : ι) (node : Node V J) : System ι V J :=
  { s with nodes := Function.update s.nodes i node }

def System.compareWith (i : ι) (w : Write V J) (found left : Table V) :
    System ι V J :=
  match clusterConfigChanges c w.before (s.nodes i).file with
  | none => s.setNode i { s.nodes i with write := some { w with stage := .restoring } }
  | some changes =>
    if changes = [] then
      { s.setNode i { s.nodes i with write := none } with answered := (found, left) :: s.answered }
    else if !w.leader then
      s.setNode i { s.nodes i with write := some { w with stage := .restoring } }
    else
      { s.setNode i
          { s.nodes i with write := some { w with stage := .proposing found left changes } } with
        proposed := changes :: s.proposed }

def System.step : Action ι V J → Option (System ι V J)
  | .enter i leader mustReject =>
    if !leader && mustReject then some s
    else if (s.nodes i).write.isNone then
      some (s.setNode i { s.nodes i with
        write := some ⟨leader, (s.nodes i).file, (s.nodes i).applied, .opened⟩ })
    else none
  | .dispatch i edit =>
    match (s.nodes i).write with
    | some ⟨leader, before, since, .opened⟩ =>
      match edit (s.nodes i).file with
      | (false, file) => some (s.setNode i { s.nodes i with file := file, write := none })
      | (true, file) => some (s.setNode i { s.nodes i with
          file := file
          write := some ⟨leader, before, since, .dispatched (s.nodes i).file file⟩ })
    | _ => none
  | .compare i =>
    match (s.nodes i).write with
    | some ⟨leader, before, since, .dispatched found left⟩ =>
      some (s.compareWith c i ⟨leader, before, since, .dispatched found left⟩ found left)
    | _ => none
  | .confirm i index =>
    match (s.nodes i).write with
    | some ⟨_, _, since, .proposing found left command⟩ =>
      if since ≤ index ∧ index < (s.nodes i).applied ∧ s.log[index]? = some command then
        some { s.setNode i { s.nodes i with write := none } with
          answered := (found, left) :: s.answered }
      else none
    | _ => none
  | .giveUp i =>
    match (s.nodes i).write with
    | some ⟨leader, before, since, .proposing _ _ _⟩ =>
      some (s.setNode i { s.nodes i with write := some ⟨leader, before, since, .restoring⟩ })
    | _ => none
  | .restore i restored =>
    match (s.nodes i).write with
    | some ⟨_, before, _, .restoring⟩ =>
      some (s.setNode i { s.nodes i with
        file := if restored then before else (s.nodes i).file
        write := none })
    | _ => none
  | .propose command => some { s with proposed := command :: s.proposed }
  | .commit command =>
    if command ∈ s.proposed then
      some { s with log := s.log ++ [command], proposed := s.proposed.erase command }
    else none
  | .applyNext i =>
    match s.log[(s.nodes i).applied]? with
    | none => none
    | some command =>
      match decodeRaftCommandPatch c command, applyCommand c command (s.nodes i).file with
      | .ok patch, .ok file => some (s.setNode i { s.nodes i with
          file := file
          applied := (s.nodes i).applied + 1
          values := (s.nodes i).values.merge patch })
      | _, _ => none
  | .createSnapshot i =>
    if (s.nodes i).values.entries = [] ∨ 1024 < (s.nodes i).values.entries.length then none
    else some { s with snapshots := ((s.nodes i).applied, (s.nodes i).values) :: s.snapshots }
  | .installSnapshot i index values =>
    if (index, values) ∈ s.snapshots ∧ (s.nodes i).applied < index then
      match applyRaftPatch c values.patch (s.nodes i).file with
      | .ok file => some (s.setNode i { s.nodes i with
          file := file
          applied := index
          values := values })
      | .error _ => none
    else none

/-- Steps one after another. -/
def System.run (s : System ι V J) : List (Action ι V J) → Option (System ι V J)
  | [] => some s
  | action :: rest => (s.step c action).bind fun s => s.run rest

end Steps

section Invariant

variable {ι V J : Type} (c : Values V J) (init : Table V)

/-- Two tables agree on the keys that the cluster shares. -/
def SharedEq (table table' : Table V) : Prop :=
  ∀ key, clusterLocalConfigKey key = false → table.lookup key = table'.lookup key

/-- The table that the first commands of the log make of the initial one. -/
def agreed (log : List (Patch J)) (n : ℕ) : Table V := replay c init (log.take n)

/-- A map sums up commands that can all be applied. -/
structure SumsUp (values : Snapshot J) (commands : List (Patch J)) : Prop where
  performs : ∀ command ∈ commands, Performs c command
  lookup : ∀ key, values.lookup key = lastValue (commands.flatMap (decoded c)) key

/-- The changes that a request made to the shared keys are in a command. -/
def Carries (found left : Table V) (command : Patch J) : Prop :=
  ∀ key, clusterLocalConfigKey key = false → found.lookup key ≠ left.lookup key →
    ∃ entry ∈ command, changeOf c left key = some entry

/-- A write that is under way. Its own changes may be missing from the commands that were
applied, until its command is one of them. -/
def StageOk (log : List (Patch J)) (node : Node V J) (w : Write V J) : Stage V J → Prop
  | .opened => SharedEq node.file (agreed c init log node.applied) ∧
      (node.applied = w.since → node.file = w.before)
  | .dispatched found left => node.applied = w.since → found = w.before ∧ node.file = left
  | .proposing found left command => Carries c found left command ∧
      (∀ key, clusterLocalConfigKey key = false → key ∉ command.map Prod.fst →
        node.file.lookup key = (agreed c init log node.applied).lookup key) ∧
      (command ∈ (log.take node.applied).drop w.since →
        SharedEq node.file (agreed c init log node.applied))
  | .restoring => True

structure NodeOk (log : List (Patch J)) (node : Node V J) : Prop where
  applied_le : node.applied ≤ log.length
  sums : SumsUp c node.values (log.take node.applied)
  idle : node.write = none → SharedEq node.file (agreed c init log node.applied)
  busy : ∀ w, node.write = some w → w.since ≤ node.applied ∧
    SharedEq w.before (agreed c init log w.since) ∧ StageOk c init log node w w.stage

structure System.Ok (s : System ι V J) : Prop where
  node : ∀ i, NodeOk c init s.log (s.nodes i)
  snapshot : ∀ made ∈ s.snapshots, made.1 ≤ s.log.length ∧ SumsUp c made.2 (s.log.take made.1)
  kept : ∀ request ∈ s.answered, ∀ key, clusterLocalConfigKey key = false →
    request.1.lookup key ≠ request.2.lookup key →
      ∃ command ∈ s.log, ∃ entry ∈ command, changeOf c request.2 key = some entry

end Invariant

section Following

variable {V J : Type} {c : Values V J} {init : Table V} {log : List (Patch J)} {node : Node V J}

lemma lookup_agreed {values : Snapshot J} {n : ℕ} (h : SumsUp c values (log.take n))
    (key : Key) : (agreed c init log n).lookup key =
      (lastValue ((log.take n).flatMap (decoded c)) key).elim (init.lookup key) fun value =>
        value.bind c.toToml :=
  lookup_replay h.performs init key

lemma take_split {n n' : ℕ} (h : n ≤ n') : log.take n' = log.take n ++ (log.take n').drop n := by
  conv_lhs => rw [← take_append_drop n (log.take n'), take_take, min_eq_left h]

/-- A file that goes along with the commands from one place of the log to a later one. -/
structure Follows (c : Values V J) (init : Table V) (log : List (Patch J)) (n n' : ℕ)
    (file file' : Table V) : Prop where
  keeps : ∀ key, file.lookup key = (agreed c init log n).lookup key →
    file'.lookup key = (agreed c init log n').lookup key
  sets : ∀ command ∈ (log.take n').drop n, ∀ key ∈ command.map Prod.fst,
    file'.lookup key = (agreed c init log n').lookup key

variable {file' : Table V}

/-- Going along keeps what is known of a node, whatever its write is up to. -/
theorem NodeOk.follow {n' : ℕ} {values' : Snapshot J} (h : NodeOk c init log node)
    (hlt : node.applied < n') (hle : n' ≤ log.length) (hsums : SumsUp c values' (log.take n'))
    (hfollows : Follows c init log node.applied n' node.file file') :
    NodeOk c init log { node with file := file', applied := n', values := values' } := by
  have hshared : SharedEq node.file (agreed c init log node.applied) →
      SharedEq file' (agreed c init log n') := fun heq key hkey =>
    hfollows.keeps key (heq key hkey)
  refine ⟨hle, hsums, fun hidle => hshared (h.idle hidle), fun w hw => ?_⟩
  obtain ⟨hsince, hbefore, hstage⟩ := h.busy w hw
  refine ⟨hsince.trans hlt.le, hbefore, ?_⟩
  cases hcase : w.stage with
  | opened =>
    rw [hcase] at hstage
    refine ⟨hshared hstage.1, fun heq => ?_⟩
    dsimp only at heq
    omega
  | dispatched found left =>
    intro heq
    dsimp only at heq
    omega
  | proposing found left command =>
    rw [hcase] at hstage
    obtain ⟨hcarries, hothers, hdone⟩ := hstage
    refine ⟨hcarries, fun key hkey hnot => hfollows.keeps key (hothers key hkey hnot),
      fun hmem => ?_⟩
    rw [take_split hlt.le, drop_append_of_le_length
      (by rw [length_take, min_eq_left h.applied_le]; exact hsince)] at hmem
    rcases mem_append.mp hmem with hearlier | hlater
    · exact hshared (hdone hearlier)
    · intro key hkey
      by_cases hown : key ∈ command.map Prod.fst
      · exact hfollows.sets command hlater key hown
      · exact hfollows.keeps key (hothers key hkey hown)
  | restoring => trivial

lemma agreed_append (log' : List (Patch J)) {n : ℕ} (h : n ≤ log.length) :
    agreed c init (log ++ log') n = agreed c init log n := by
  rw [agreed, agreed, take_append_of_le_length h]

section

variable (h : NodeOk c init log node)
include h

lemma NodeOk.grow (log' : List (Patch J)) : NodeOk c init (log ++ log') node := by
  have happlied := h.applied_le
  refine ⟨?_, ?_, ?_, ?_⟩
  · rw [length_append]
    omega
  · rw [take_append_of_le_length happlied]
    exact h.sums
  · rw [agreed_append _ happlied]
    exact h.idle
  intro w hw
  obtain ⟨hsince, hbefore, hstage⟩ := h.busy w hw
  refine ⟨hsince, ?_, ?_⟩
  · rw [agreed_append _ (by omega)]
    exact hbefore
  cases hcase : w.stage with
  | opened =>
    rw [hcase] at hstage
    rw [StageOk, agreed_append _ happlied]
    exact hstage
  | dispatched found left =>
    rw [hcase] at hstage
    exact hstage
  | proposing found left command =>
    rw [hcase] at hstage
    rw [StageOk, agreed_append _ happlied, take_append_of_le_length happlied]
    exact hstage
  | restoring => trivial

lemma follows_apply {command : Patch J} (hnext : log[node.applied]? = some command)
    (happly : applyCommand c command node.file = .ok file') :
    SumsUp c (node.values.merge (decoded c command)) (log.take (node.applied + 1)) ∧
      Follows c init log node.applied (node.applied + 1) node.file file' := by
  have htake : log.take (node.applied + 1) = log.take node.applied ++ [command] := by
    rw [take_add_one, hnext]
    rfl
  have hperforms : Performs c command := ⟨_, _, happly⟩
  have hsums : SumsUp c (node.values.merge (decoded c command)) (log.take (node.applied + 1)) := by
    refine ⟨fun command' hmem => ?_, fun key => ?_⟩
    · rw [htake, mem_append, mem_singleton] at hmem
      rcases hmem with hmem | rfl
      · exact h.sums.performs command' hmem
      · exact hperforms
    · rw [lookup_merge, h.sums.lookup, htake, flatMap_append, flatMap_singleton, lastValue_append]
  have hagreed : ∀ key, (agreed c init log (node.applied + 1)).lookup key =
      (lastValue (decoded c command) key).elim ((agreed c init log node.applied).lookup key)
        fun value => value.bind c.toToml := by
    intro key
    rw [lookup_agreed hsums, lookup_agreed h.sums, htake, flatMap_append,
      flatMap_singleton, lastValue_append]
    cases lastValue (decoded c command) key with
    | none => rfl
    | some value => rfl
  have hfile : ∀ key, file'.lookup key =
      (lastValue (decoded c command) key).elim (node.file.lookup key) fun value =>
        value.bind c.toToml := by
    intro key
    have hedit := (applyRaftPatch_ok.mp (applyCommand_ok happly).2).2
    exact lookup_editPatch hedit key
  refine ⟨hsums, fun key heq => ?_, fun command' hmem key hkey => ?_⟩
  · rw [hfile, hagreed, heq]
  have hdrop : (log.take (node.applied + 1)).drop node.applied = [command] := by
    rw [htake, drop_append_of_le_length (by simp [h.applied_le]), drop_of_length_le]
    · rfl
    · simp
  rw [hdrop, mem_singleton] at hmem
  subst hmem
  rw [hfile, hagreed]
  cases hlast : lastValue (decoded c command') key with
  | none => exact absurd (keys_decoded hperforms hkey) (lastValue_eq_none.mp hlast)
  | some value => rfl

lemma follows_install {n' : ℕ} {values' : Snapshot J} (hlt : node.applied < n')
    (hsums : SumsUp c values' (log.take n'))
    (happly : applyRaftPatch c values'.patch node.file = .ok file') :
    Follows c init log node.applied n' node.file file' := by
  have hfile : ∀ key, file'.lookup key =
      (lastValue ((log.take n').flatMap (decoded c)) key).elim (node.file.lookup key) fun value =>
        value.bind c.toToml := by
    intro key
    rw [lookup_editPatch (applyRaftPatch_ok.mp happly).2, lastValue_patch, hsums.lookup]
  refine ⟨fun key heq => ?_, fun command hmem key hkey => ?_⟩
  · rw [hfile, lookup_agreed hsums]
    cases hlast : lastValue ((log.take n').flatMap (decoded c)) key with
    | some value => rfl
    | none =>
      rw [take_split hlt.le, flatMap_append, lastValue_append, or_eq_none_iff] at hlast
      rw [heq, lookup_agreed h.sums, hlast.2]
      rfl
  rw [hfile, lookup_agreed hsums]
  cases hlast : lastValue ((log.take n').flatMap (decoded c)) key with
  | some value => rfl
  | none =>
    have hin : command ∈ log.take n' := mem_of_mem_drop hmem
    refine absurd ?_ (lastValue_eq_none.mp hlast)
    obtain ⟨entry, hentry, rfl⟩ := mem_map.mp (keys_decoded (hsums.performs command hin) hkey)
    exact mem_map_of_mem (mem_flatMap.mpr ⟨command, hin, hentry⟩)

end

variable {ι : Type} {s : System ι V J}

lemma System.Ok.answer (h : s.Ok c init) {found left : Table V}
    (hkept : ∀ key, clusterLocalConfigKey key = false → found.lookup key ≠ left.lookup key → ∃
      command ∈ s.log, ∃ entry ∈ command, changeOf c left key = some entry) :
    { s with answered := (found, left) :: s.answered }.Ok c init := by
  refine ⟨h.node, h.snapshot, fun request hmem => ?_⟩
  rcases mem_cons.mp hmem with rfl | hmem
  · exact hkept
  · exact h.kept request hmem

lemma NodeOk.setWrite {node : Node V J} {log : List (Patch J)} (h : NodeOk c init log node)
    (write : Option (Write V J))
    (hidle : write = none → SharedEq node.file (agreed c init log node.applied))
    (hbusy : ∀ w, write = some w → w.since ≤ node.applied ∧ SharedEq w.before
      (agreed c init log w.since) ∧ StageOk c init log { node with write := write } w w.stage) :
    NodeOk c init log { node with write := write } :=
  ⟨h.applied_le, h.sums, hidle, hbusy⟩

lemma start_ok {files : ι → Table V} (h : ∀ i, SharedEq (files i) init) :
    (System.start files : System ι V J).Ok c init := by
  refine ⟨fun i => ⟨le_rfl, ⟨by simp [System.start], fun key => rfl⟩, fun _ => h i,
    fun w hw => by cases hw⟩, by simp [System.start], by simp [System.start]⟩

lemma System.Ok.setNode [DecidableEq ι] (h : s.Ok c init) (i : ι) {node : Node V J}
    (hnode : NodeOk c init s.log node) : (s.setNode i node).Ok c init := by
  refine ⟨fun j => ?_, h.snapshot, h.kept⟩
  change NodeOk c init s.log (Function.update s.nodes i node j)
  by_cases hj : j = i
  · subst hj
    rw [Function.update_self]
    exact hnode
  · rw [Function.update_of_ne hj]
    exact h.node j

end Following

section Runs

variable {ι V J : Type} [DecidableEq ι] [DecidableEq V] [DecidableEq J] {c : Values V J}
  {init : Table V} {s s' : System ι V J}

/-- A request that is not answered with a 2xx status leaves the shared keys as they were.
Nothing was applied to the file since the write read it, when the write compares the file or
restores it; and restoring it succeeds. -/
def Action.Undisturbed (s : System ι V J) : Action ι V J → Prop
  | .dispatch i edit => ∀ file, edit (s.nodes i).file = (false, file) →
      SharedEq file (s.nodes i).file
  | .compare i => ∀ w, (s.nodes i).write = some w → (s.nodes i).applied = w.since
  | .restore i restored =>
    restored = true ∧ ∀ w, (s.nodes i).write = some w → (s.nodes i).applied = w.since
  | _ => True

/-- Every step of a run is undisturbed. -/
def System.Undisturbed (c : Values V J) : System ι V J → List (Action ι V J) → Prop
  | _, [] => True
  | s, action :: rest =>
    action.Undisturbed s ∧ ∀ s', s.step c action = some s' → s'.Undisturbed c rest

variable {i : ι}

section

variable (h : s.Ok c init)
include h

lemma ok_enter {leader mustReject : Bool}
    (hstep : s.step c (.enter i leader mustReject) = some s') : s'.Ok c init := by
  rw [System.step] at hstep
  split at hstep
  · rwa [← some.inj hstep]
  split at hstep
  · rename_i hnone
    have hidle := (h.node i).idle (isNone_iff_eq_none.mp hnone)
    rw [← some.inj hstep]
    refine h.setNode i ((h.node i).setWrite _ (fun hw => by cases hw) fun w hw => ?_)
    obtain rfl := some.inj hw
    exact ⟨le_rfl, hidle, hidle, fun _ => rfl⟩
  · cases hstep

lemma ok_dispatch {edit : Table V → Bool × Table V}
    (hquiet : (Action.dispatch i edit : Action ι V J).Undisturbed s)
    (hstep : s.step c (.dispatch i edit) = some s') : s'.Ok c init := by
  rw [System.step] at hstep
  split at hstep
  · rename_i leader before since hwrite
    obtain ⟨hsince, hbefore, hshared, hsame⟩ := (h.node i).busy _ hwrite
    split at hstep
    · rename_i file hedit
      rw [← some.inj hstep]
      exact h.setNode i ⟨(h.node i).applied_le, (h.node i).sums, fun _ key hkey =>
        (hquiet file hedit key hkey).trans (hshared key hkey), fun w hw => by cases hw⟩
    rw [← some.inj hstep]
    refine h.setNode i ⟨(h.node i).applied_le, (h.node i).sums, (fun hw => by cases hw),
      fun w hw => ?_⟩
    obtain rfl := some.inj hw
    exact ⟨hsince, hbefore, fun heq => ⟨hsame heq, rfl⟩⟩
  · cases hstep

lemma ok_compare (hquiet : (Action.compare i : Action ι V J).Undisturbed s)
    (hstep : s.step c (.compare i) = some s') : s'.Ok c init := by
  rw [System.step] at hstep
  split at hstep
  · rename_i leader before since found left hwrite
    obtain ⟨hsince, hbefore, hstage⟩ := (h.node i).busy _ hwrite
    have happlied : (s.nodes i).applied = since := hquiet _ hwrite
    obtain ⟨rfl, hfile⟩ := hstage happlied
    rw [← some.inj hstep, System.compareWith]
    have hrestoring : NodeOk c init s.log { s.nodes i with
        write := some ⟨leader, found, since, .restoring⟩ } := by
      refine (h.node i).setWrite _ (fun hw => by cases hw) fun w hw => ?_
      obtain rfl := some.inj hw
      exact ⟨hsince, hbefore, trivial⟩
    cases hchanges : clusterConfigChanges c found (s.nodes i).file with
    | none => exact h.setNode i hrestoring
    | some changes =>
      rw [hfile] at hchanges
      have hothers : ∀ key, clusterLocalConfigKey key = false → key ∉ changes.map Prod.fst →
          found.lookup key = left.lookup key := by
        intro key hkey hnot
        by_contra hne
        exact hnot ((clusterConfigChanges_keys hchanges).mpr ⟨hne, hkey⟩)
      dsimp only
      split
      · rename_i hnil
        subst hnil
        refine (h.setNode i ((h.node i).setWrite none (fun _ key hkey => ?_) fun w hw => by
          cases hw)).answer fun key hkey hne => ?_
        · rw [happlied, ← hbefore key hkey, hfile, hothers key hkey (by simp)]
        · exact absurd (hothers key hkey (by simp)) hne
      split
      · exact h.setNode i hrestoring
      have hproposing : NodeOk c init s.log { s.nodes i with
          write := some ⟨leader, found, since, .proposing found left changes⟩ } := by
        refine (h.node i).setWrite _ (fun hw => by cases hw) fun w hw => ?_
        obtain rfl := some.inj hw
        refine ⟨hsince, hbefore, fun key hkey hne => ?_, fun key hkey hnot => ?_, fun hmem => ?_⟩
        · obtain ⟨entry, hentry, rfl⟩ :=
            mem_map.mp ((clusterConfigChanges_keys hchanges).mpr ⟨hne, hkey⟩)
          exact ⟨entry, hentry, clusterConfigChanges_value hchanges hentry⟩
        · rw [happlied, ← hbefore key hkey, hothers key hkey hnot, hfile]
        · rw [happlied, drop_eq_nil_of_le (by simp)] at hmem
          cases hmem
      exact ⟨(h.setNode i hproposing).node, h.snapshot, h.kept⟩
  · cases hstep

lemma ok_confirm {index : ℕ} (hstep : s.step c (.confirm i index) = some s') : s'.Ok c init := by
  rw [System.step] at hstep
  split at hstep
  · rename_i leader before since found left command hwrite
    obtain ⟨hsince, hbefore, hcarries, hothers, hdone⟩ := (h.node i).busy _ hwrite
    split at hstep
    · rename_i hindex
      obtain ⟨hle, hlt, hget⟩ := hindex
      rw [← some.inj hstep]
      have hmem : command ∈ (s.log.take (s.nodes i).applied).drop since := by
        refine mem_iff_getElem?.mpr ⟨index - since, ?_⟩
        rw [getElem?_drop, Nat.add_sub_cancel' hle, getElem?_take_of_lt hlt, hget]
      refine (h.setNode i ((h.node i).setWrite none (fun _ => hdone hmem) fun w hw => by
        cases hw)).answer fun key hkey hne => ?_
      obtain ⟨entry, hentry, hchange⟩ := hcarries key hkey hne
      exact ⟨command, mem_of_getElem? hget, entry, hentry, hchange⟩
    · cases hstep
  · cases hstep

lemma ok_giveUp (hstep : s.step c (.giveUp i) = some s') : s'.Ok c init := by
  rw [System.step] at hstep
  split at hstep
  · rename_i leader before since found left command hwrite
    obtain ⟨hsince, hbefore, -⟩ := (h.node i).busy _ hwrite
    rw [← some.inj hstep]
    refine h.setNode i ((h.node i).setWrite _ (fun hw => by cases hw) fun w hw => ?_)
    obtain rfl := some.inj hw
    exact ⟨hsince, hbefore, trivial⟩
  · cases hstep

lemma ok_restore {restored : Bool}
    (hquiet : (Action.restore i restored : Action ι V J).Undisturbed s)
    (hstep : s.step c (.restore i restored) = some s') : s'.Ok c init := by
  obtain ⟨rfl, hquiet⟩ := hquiet
  rw [System.step] at hstep
  split at hstep
  · rename_i leader before since hwrite
    obtain ⟨hsince, hbefore, -⟩ := (h.node i).busy _ hwrite
    have happlied : (s.nodes i).applied = since := hquiet _ hwrite
    rw [← some.inj hstep]
    refine h.setNode i ⟨(h.node i).applied_le, (h.node i).sums, fun _ => ?_, fun w hw => by
      cases hw⟩
    rw [happlied]
    exact hbefore
  · cases hstep

lemma ok_commit {command : Patch J}
    (hstep : s.step c (.commit command) = some s') : s'.Ok c init := by
  rw [System.step] at hstep
  split at hstep
  · rw [← some.inj hstep]
    refine ⟨fun i => (h.node i).grow _, fun made hmade => ?_, fun request hmem key hkey hne => ?_⟩
    · obtain ⟨hle, hsums⟩ := h.snapshot made hmade
      refine ⟨?_, ?_⟩
      · rw [length_append]
        omega
      · rw [take_append_of_le_length hle]
        exact hsums
    · obtain ⟨command', hin, hentry⟩ := h.kept request hmem key hkey hne
      exact ⟨command', mem_append_left _ hin, hentry⟩
  · cases hstep

lemma ok_applyNext (hstep : s.step c (.applyNext i) = some s') : s'.Ok c init := by
  rw [System.step] at hstep
  split at hstep
  · cases hstep
  rename_i command hnext
  split at hstep
  · rename_i patch file hdecode happly
    obtain rfl : decoded c command = patch := by rw [decoded, hdecode]; rfl
    rw [← some.inj hstep]
    obtain ⟨hsums, hfollows⟩ := follows_apply (h.node i) hnext happly
    have hlt : (s.nodes i).applied < s.log.length := (List.getElem?_eq_some_iff.mp hnext).1
    exact h.setNode i ((h.node i).follow (Nat.lt_succ_self _) hlt hsums hfollows)
  · cases hstep

lemma ok_createSnapshot (hstep : s.step c (.createSnapshot i) = some s') : s'.Ok c init := by
  rw [System.step] at hstep
  split at hstep
  · cases hstep
  rw [← some.inj hstep]
  refine ⟨h.node, fun made hmade => ?_, h.kept⟩
  rcases mem_cons.mp hmade with rfl | hmade
  · exact ⟨(h.node i).applied_le, (h.node i).sums⟩
  · exact h.snapshot made hmade

lemma ok_installSnapshot {index : ℕ} {values : Snapshot J}
    (hstep : s.step c (.installSnapshot i index values) = some s') : s'.Ok c init := by
  rw [System.step] at hstep
  split at hstep
  · rename_i hguard
    obtain ⟨hmade, hlt⟩ := hguard
    obtain ⟨hle, hsums⟩ := h.snapshot _ hmade
    split at hstep
    · rename_i file happly
      rw [← some.inj hstep]
      exact h.setNode i ((h.node i).follow hlt hle hsums
        (follows_install (h.node i) hlt hsums happly))
    · cases hstep
  · cases hstep

lemma step_ok {action : Action ι V J} (hquiet : action.Undisturbed s)
    (hstep : s.step c action = some s') : s'.Ok c init := by
  cases action with
  | enter i leader mustReject => exact ok_enter h hstep
  | dispatch i edit => exact ok_dispatch h hquiet hstep
  | compare i => exact ok_compare h hquiet hstep
  | confirm i index => exact ok_confirm h hstep
  | giveUp i => exact ok_giveUp h hstep
  | restore i restored => exact ok_restore h hquiet hstep
  | propose command =>
    obtain rfl := some.inj hstep
    exact { h with }
  | commit command => exact ok_commit h hstep
  | applyNext i => exact ok_applyNext h hstep
  | createSnapshot i => exact ok_createSnapshot h hstep
  | installSnapshot i index values => exact ok_installSnapshot h hstep

lemma run_ok {actions : List (Action ι V J)} (hquiet : s.Undisturbed c actions)
    (hrun : s.run c actions = some s') : s'.Ok c init := by
  induction actions generalizing s with
  | nil => rwa [← some.inj hrun]
  | cons action rest ih =>
    obtain ⟨s₁, hstep, hrest⟩ := bind_eq_some_iff.mp hrun
    exact ih (step_ok h hquiet.1 hstep) (hquiet.2 s₁ hstep) hrest

end

end Runs

/-! Two nodes, with numbers for values. -/

def plainValues : Values ℕ ℕ := ⟨some, some, fun _ => none⟩

/-- The first node changes a shared key, and the change is committed and applied there. -/
def sharedWrite : List (Action Bool ℕ ℕ) :=
  [.enter false true false, .dispatch false fun file => (true, file.insert "safe_search" 1),
    .compare false, .commit [("safe_search", some 1)], .applyNext false, .confirm false 0]

/-- The second node carries out a request for a key of its own while the command arrives. -/
def localWrite : List (Action Bool ℕ ℕ) :=
  [.enter true false false, .dispatch true fun file => (true, file.insert "log_level" 2),
    .applyNext true, .compare true, .restore true true]

/-- The first node changes a shared key for a request that it does not answer with 2xx. -/
def failedWrite : List (Action Bool ℕ ℕ) :=
  [.enter false true false,
    .dispatch false fun file => (false, file.insert "blocked_services" 1)]

/-- What a run leaves under a key of a node, beside what the log says. -/
def valuesAfter (actions : List (Action Bool ℕ ℕ)) (i : Bool) (key : Key) :
    Option (Bool × Option ℕ × Option ℕ) :=
  ((System.start fun _ => ∅).run plainValues actions).map fun s =>
    ((s.nodes i).write.isNone, (s.nodes i).file.lookup key,
      (replay plainValues ∅ (s.log.take (s.nodes i).applied)).lookup key)

lemma not_sharedEq_of_values {actions : List (Action Bool ℕ ℕ)} {i : Bool} {key : Key}
    {value value' : Option ℕ} (hkey : clusterLocalConfigKey key = false)
    (hvalues : valuesAfter actions i key = some (true, value, value')) (hne : value ≠ value') :
    ∃ s, (System.start fun _ => ∅).run plainValues actions = some s ∧ (s.nodes i).write = none ∧
      ¬SharedEq (s.nodes i).file (replay plainValues ∅ (s.log.take (s.nodes i).applied)) := by
  obtain ⟨s, hrun, hfacts⟩ := map_eq_some_iff.mp hvalues
  obtain ⟨hidle, hrest⟩ := Prod.mk.inj hfacts
  obtain ⟨rfl, rfl⟩ := Prod.mk.inj hrest
  exact ⟨s, hrun, isNone_iff_eq_none.mp hidle, fun hshared => hne (hshared key hkey)⟩

end OnetDns.Cluster
