import Mathlib.Data.List.AList
import Mathlib.Data.List.Dedup
import Mathlib.Data.List.Sort

/-!
# The configuration that a cluster shares

From `onetdns-bin/src/main.rs`: which keys of the configuration file are shared, the changes
between two files, the commands made of them, and the snapshot that sums up the commands. A
file stands for the table that its text parses to. What happens to a value on its way from
a file to a command and back is a parameter.
-/
namespace OnetDns.Cluster
open List Option AList

abbrev Key := String

/-- The table of a configuration file. -/
abbrev Table (V : Type) := AList fun _ : Key => V

/-- Keys with new values; a key without one is deleted. -/
abbrev Patch (J : Type) := List (Key × Option J)

/-- TOML values, JSON values, and the ways between them. -/
structure Values (V J : Type) where
  /-- `toml_value_to_json`. -/
  toJson : V → Option J
  /-- `json_to_raft_toml_literal`, read back from the file. -/
  toToml : J → Option V
  /-- The access list that goes with a value of `mode`. -/
  presetAclAllow : J → Option J

inductive PatchError where
  | localKey (key : Key)
  | patchSize
  | keyLength
  | value
  | mode

/-- `EXACT`. -/
def localKeys : List String :=
  ["listen", "workers", "run_as_user", "run_as_group", "proxy_protocol_ports", "query_source",
    "query_source_v6", "doh_path", "ddr_name", "dnscrypt_provider_name", "users", "tsig_keys",
    "blocklists", "allowlists", "rpz_files", "dnssec_anchor_file", "wasm_policy", "wasm_plugins",
    "mac_vendor_db", "querylog_file", "stats_file", "dnstap_file", "dnstap_identity",
    "secondary", "catalog", "catalog_serve", "xfr_allow", "xfr_tsig_required", "notify", "nsid",
    "identity", "log_level"]

/-- `PREFIXES`. -/
def localBeginnings : List String :=
  ["listen_", "control_", "cluster_", "tls_", "acme_", "dhcp", "ra_", "tftp_", "zones",
    "zonemd_", "update_", "ipset_", "cachedb_"]

def clusterLocalConfigKey (key : Key) : Bool :=
  let lower := key.toList.map Char.toLower
  localKeys.any (·.toList = lower) || localBeginnings.any (·.toList.isPrefixOf lower)

section Changes

variable {V J : Type} [DecidableEq V] (c : Values V J)

def changedConfigKeys (current proposed : Table V) : List Key :=
  let added := proposed.keys.filter fun key => (current.lookup key).isNone
  let removed := current.keys.filter fun key => (proposed.lookup key).isNone
  let changed := proposed.keys.filter fun key =>
    (current.lookup key).any fun value => proposed.lookup key ≠ some value
  ((added ++ removed ++ changed).insertionSort (· ≤ ·)).dedup

/-- The entry of a command for a key of the new file. -/
def changeOf (after : Table V) (key : Key) : Option (Key × Option J) :=
  match after.lookup key with
  | some value => (c.toJson value).map fun json => (key, some json)
  | none => some (key, none)

def clusterConfigChanges (before after : Table V) : Option (Patch J) :=
  ((changedConfigKeys before after).filter fun key => !clusterLocalConfigKey key).mapM
    (changeOf c after)

def validateRaftPatchScope (patch : Patch J) : Except PatchError Unit :=
  match patch.find? fun entry => clusterLocalConfigKey entry.1 with
  | some entry => .error (.localKey entry.1)
  | none => .ok ()

def materializeModeAclPatch (patch : Patch J) : Except PatchError (Patch J) :=
  if patch.any fun entry => entry.1 = "acl_allow" then .ok patch
  else
    match patch.find? fun entry => entry.1 = "mode" with
    | none => .ok patch
    | some entry =>
      match entry.2.bind c.presetAclAllow with
      | none => .error .mode
      | some acl => .ok (patch ++ [("acl_allow", some acl)])

/-- `decode_raft_command_patch`, after the JSON was read. -/
def decodeRaftCommandPatch (patch : Patch J) : Except PatchError (Patch J) := do
  validateRaftPatchScope patch
  if patch = [] ∨ 128 < patch.length then throw .patchSize
  materializeModeAclPatch c patch

/-- The edit of `apply_raft_patch`. -/
def editPatch : Patch J → Table V → Except PatchError (Table V)
  | [], table => .ok table
  | (key, value) :: rest, table =>
    if key.utf8ByteSize = 0 ∨ 128 < key.utf8ByteSize then .error .keyLength
    else
      match value with
      | none => editPatch rest (table.erase key)
      | some json =>
        match c.toToml json with
        | none => .error .value
        | some literal => editPatch rest (table.insert key literal)

def applyRaftPatch (patch : Patch J) (table : Table V) : Except PatchError (Table V) := do
  if patch = [] ∨ 1024 < patch.length then throw .patchSize
  validateRaftPatchScope patch
  editPatch c patch table

def applyCommand (command : Patch J) (table : Table V) : Except PatchError (Table V) := do
  applyRaftPatch c (← decodeRaftCommandPatch c command) table

/-- `RaftConfigSnapshot`. -/
abbrev Snapshot (J : Type) := AList fun _ : Key => Option J

/-- `merge_command`, after the command was decoded: later values win. -/
def Snapshot.merge (values : Snapshot J) (patch : Patch J) : Snapshot J :=
  patch.foldl (fun values entry => values.insert entry.1 entry.2) values

def Snapshot.patch (values : Snapshot J) : Patch J :=
  values.entries.map fun entry => (entry.1, entry.2)

end Changes

section Lookups

variable {V J : Type} {c : Values V J}

def lastValue : Patch J → Key → Option (Option J)
  | [], _ => none
  | (key', value) :: rest, key =>
    (lastValue rest key).or (if key' = key then some value else none)

lemma lastValue_eq_none {patch : Patch J} {key : Key} :
    lastValue patch key = none ↔ key ∉ patch.map Prod.fst := by
  induction patch with
  | nil => simp [lastValue]
  | cons entry rest ih =>
    rw [lastValue, or_eq_none_iff, ih, map_cons, mem_cons, not_or]
    constructor
    · rintro ⟨hrest, hkey⟩
      refine ⟨fun h => ?_, hrest⟩
      rw [if_pos h.symm] at hkey
      cases hkey
    · rintro ⟨hkey, hrest⟩
      exact ⟨hrest, if_neg fun h => hkey h.symm⟩

lemma lookup_editPatch {patch : Patch J} {table table' : Table V}
    (h : editPatch c patch table = .ok table') (key : Key) :
    table'.lookup key =
      (lastValue patch key).elim (table.lookup key) fun value => value.bind c.toToml := by
  induction patch generalizing table with
  | nil =>
    obtain rfl := Except.ok.inj h
    rfl
  | cons entry rest ih =>
    obtain ⟨key', value⟩ := entry
    rw [lastValue]
    cases value with
    | none =>
      rw [editPatch] at h
      split at h
      · cases h
      rw [ih h]
      cases lastValue rest key with
      | some later => rfl
      | none =>
        by_cases hkey : key' = key
        · subst hkey
          simp
        · simp [hkey, lookup_erase_ne (Ne.symm hkey)]
    | some json =>
      rw [editPatch] at h
      split at h
      · cases h
      cases hjson : c.toToml json with
      | none =>
        rw [hjson] at h
        cases h
      | some literal =>
        rw [hjson] at h
        rw [ih h]
        cases lastValue rest key with
        | some later => rfl
        | none =>
          by_cases hkey : key' = key
          · subst hkey
            simp [hjson]
          · simp [hkey, lookup_insert_ne (Ne.symm hkey)]

lemma lookup_merge (values : Snapshot J) (patch : Patch J) (key : Key) :
    (values.merge patch).lookup key = (lastValue patch key).or (values.lookup key) := by
  induction patch generalizing values with
  | nil => rfl
  | cons entry rest ih =>
    obtain ⟨key', value⟩ := entry
    change (Snapshot.merge (values.insert key' value) rest).lookup key = _
    rw [ih, lastValue]
    by_cases hkey : key' = key
    · subst hkey
      simp
    · simp [hkey, lookup_insert_ne (Ne.symm hkey)]

lemma lastValue_patch (values : Snapshot J) (key : Key) :
    lastValue values.patch key = values.lookup key := by
  rw [Snapshot.patch, AList.lookup]
  have hkeys := values.nodupKeys
  generalize values.entries = entries at hkeys
  induction entries with
  | nil => rfl
  | cons entry rest ih =>
    obtain ⟨hhead, htail⟩ := nodupKeys_cons.mp hkeys
    obtain ⟨key', value⟩ := entry
    rw [map_cons, lastValue, ih htail]
    by_cases hkey : key' = key
    · subst hkey
      rw [dlookup_eq_none.mpr hhead]
      simp
    · rw [if_neg hkey, or_none, dlookup_cons_ne _ _ (Ne.symm hkey)]

end Lookups

section Differences

variable {V J : Type} {c : Values V J} {before after : Table V} {key : Key}

lemma changeOf_some {entry : Key × Option J} (h : changeOf c after key = some entry) :
    entry.1 = key ∧ (entry.2 = none ∧ after.lookup key = none ∨
      ∃ value json, after.lookup key = some value ∧ c.toJson value = some json ∧
        entry.2 = some json) := by
  rw [changeOf] at h
  split at h
  · rename_i value hvalue
    obtain ⟨json, hjson, rfl⟩ := map_eq_some_iff.mp h
    exact ⟨rfl, .inr ⟨value, json, hvalue, hjson, rfl⟩⟩
  · rename_i hnone
    obtain rfl := some.inj h
    exact ⟨rfl, .inl ⟨rfl, hnone⟩⟩

variable {changes : Patch J}

lemma mapM_changeOf {keys : List Key} (h : keys.mapM (changeOf c after) = some changes) :
    changes.map Prod.fst = keys ∧ ∀ entry ∈ changes, changeOf c after entry.1 = some entry := by
  induction keys generalizing changes with
  | nil =>
    obtain rfl := some.inj h
    exact ⟨rfl, by simp⟩
  | cons key rest ih =>
    rw [mapM_cons] at h
    obtain ⟨entry, hentry, h⟩ := bind_eq_some_iff.mp h
    obtain ⟨others, hothers, h⟩ := bind_eq_some_iff.mp h
    obtain rfl := some.inj h
    obtain ⟨hkeys, hmem⟩ := ih hothers
    have hkey := (changeOf_some hentry).1
    refine ⟨by rw [map_cons, hkeys, hkey], fun e he => ?_⟩
    rcases mem_cons.mp he with rfl | he
    · rw [hkey]
      exact hentry
    · exact hmem e he

variable [DecidableEq V]

lemma mem_changedConfigKeys :
    key ∈ changedConfigKeys before after ↔ before.lookup key ≠ after.lookup key := by
  simp only [changedConfigKeys, mem_dedup, mem_insertionSort, mem_append,
    mem_filter, ← AList.mem_keys, ← AList.lookup_isSome]
  cases before.lookup key with
  | none =>
    cases after.lookup key with
    | none => simp
    | some value => simp
  | some old =>
    cases after.lookup key with
    | none => simp
    | some value =>
      by_cases h : old = value
      · simp [h]
      · simp [h, Ne.symm h]

lemma clusterConfigChanges_keys (h : clusterConfigChanges c before after = some changes) :
    key ∈ changes.map Prod.fst ↔
      before.lookup key ≠ after.lookup key ∧ clusterLocalConfigKey key = false := by
  rw [(mapM_changeOf h).1, mem_filter, mem_changedConfigKeys, Bool.not_eq_true']

lemma clusterConfigChanges_value {entry : Key × Option J}
    (h : clusterConfigChanges c before after = some changes) (hmem : entry ∈ changes) :
    changeOf c after entry.1 = some entry :=
  (mapM_changeOf h).2 entry hmem

end Differences

section Replay

variable {V J : Type} {c : Values V J}

/-- A command that cannot be applied is passed over. -/
def perform (c : Values V J) (table : Table V) (command : Patch J) : Table V :=
  (applyCommand c command table).toOption.getD table

def replay (c : Values V J) (table : Table V) (commands : List (Patch J)) : Table V :=
  commands.foldl (perform c) table

/-- A command that some table takes. -/
def Performs (c : Values V J) (command : Patch J) : Prop :=
  ∃ table table', applyCommand c command table = .ok table'

def decoded (c : Values V J) (command : Patch J) : Patch J :=
  (decodeRaftCommandPatch c command).toOption.getD []

lemma lastValue_append (patch patch' : Patch J) (key : Key) :
    lastValue (patch ++ patch') key = (lastValue patch' key).or (lastValue patch key) := by
  induction patch with
  | nil => exact (or_none).symm
  | cons entry rest ih => rw [cons_append, lastValue, ih, lastValue, Option.or_assoc]

/-- Whether an edit goes through does not depend on the table. -/
theorem editPatch_isOk {patch : Patch J} {table table' : Table V}
    (h : editPatch c patch table = .ok table') (other : Table V) :
    ∃ other', editPatch c patch other = .ok other' := by
  induction patch generalizing table other with
  | nil => exact ⟨other, rfl⟩
  | cons entry rest ih =>
    obtain ⟨key, value⟩ := entry
    cases value with
    | none =>
      rw [editPatch] at h ⊢
      split at h
      · cases h
      · rename_i hkey
        rw [if_neg hkey]
        exact ih h _
    | some json =>
      rw [editPatch] at h ⊢
      split at h
      · cases h
      rename_i hkey
      rw [if_neg hkey]
      cases hjson : c.toToml json with
      | none =>
        rw [hjson] at h
        cases h
      | some literal =>
        rw [hjson] at h
        exact ih h _

lemma applyRaftPatch_ok {patch : Patch J} {table table' : Table V} :
    applyRaftPatch c patch table = .ok table' ↔
      (patch ≠ [] ∧ patch.length ≤ 1024 ∧ validateRaftPatchScope patch = .ok ()) ∧
        editPatch c patch table = .ok table' := by
  rw [applyRaftPatch]
  by_cases hsize : patch = [] ∨ 1024 < patch.length
  · rw [if_pos hsize]
    constructor
    · intro h
      cases h
    · rintro ⟨⟨hne, hlen, -⟩, -⟩
      rcases hsize with hnil | hlong
      · exact absurd hnil hne
      · omega
  rw [if_neg hsize]
  obtain ⟨hne, hlen⟩ := not_or.mp hsize
  cases hscope : validateRaftPatchScope patch with
  | error e =>
    constructor
    · intro h
      cases h
    · rintro ⟨⟨-, -, h⟩, -⟩
      cases h
  | ok u =>
    constructor
    · intro h
      exact ⟨⟨hne, Nat.le_of_not_lt hlen, rfl⟩, h⟩
    · intro h
      exact h.2

variable {command : Patch J}

lemma applyCommand_ok {table table' : Table V} (h : applyCommand c command table = .ok table') :
    decodeRaftCommandPatch c command = .ok (decoded c command) ∧
      applyRaftPatch c (decoded c command) table = .ok table' := by
  rw [applyCommand] at h
  rw [decoded]
  cases hdecode : decodeRaftCommandPatch c command with
  | error e =>
    rw [hdecode] at h
    cases h
  | ok patch =>
    rw [hdecode] at h
    exact ⟨rfl, h⟩

lemma lookup_perform (h : Performs c command) (table : Table V) (key : Key) :
    (perform c table command).lookup key =
      (lastValue (decoded c command) key).elim (table.lookup key) fun value =>
        value.bind c.toToml := by
  obtain ⟨found, left, happly⟩ := h
  obtain ⟨hdecode, happly⟩ := applyCommand_ok happly
  obtain ⟨hscope, hedit⟩ := applyRaftPatch_ok.mp happly
  obtain ⟨table', hedit'⟩ := editPatch_isOk hedit table
  have hperform : perform c table command = table' := by
    rw [perform, applyCommand, hdecode]
    change (applyRaftPatch c (decoded c command) table).toOption.getD table = table'
    rw [applyRaftPatch_ok.mpr ⟨hscope, hedit'⟩]
    rfl
  rw [hperform, lookup_editPatch hedit']

lemma lookup_replay {commands : List (Patch J)} (h : ∀ command ∈ commands, Performs c command)
    (table : Table V) (key : Key) :
    (replay c table commands).lookup key =
      (lastValue (commands.flatMap (decoded c)) key).elim (table.lookup key) fun value =>
        value.bind c.toToml := by
  induction commands generalizing table with
  | nil => rfl
  | cons command rest ih =>
    change (replay c (perform c table command) rest).lookup key = _
    rw [ih fun command' hmem => h command' (mem_cons_of_mem _ hmem), flatMap_cons,
      lastValue_append, lookup_perform (h command mem_cons_self)]
    cases lastValue (rest.flatMap (decoded c)) key with
    | none => rfl
    | some value => rfl

lemma keys_decoded (h : Performs c command) {key : Key}
    (hkey : key ∈ command.map Prod.fst) : key ∈ (decoded c command).map Prod.fst := by
  obtain ⟨found, left, happly⟩ := h
  have hdecode := (applyCommand_ok happly).1
  have hmaterial : materializeModeAclPatch c command = .ok (decoded c command) := by
    rw [decodeRaftCommandPatch] at hdecode
    cases hscope : validateRaftPatchScope command with
    | error e =>
      rw [hscope] at hdecode
      cases hdecode
    | ok u =>
      rw [hscope] at hdecode
      split at hdecode
      · cases hdecode
      · exact hdecode
  rw [materializeModeAclPatch] at hmaterial
  split at hmaterial
  · rw [← Except.ok.inj hmaterial]
    exact hkey
  split at hmaterial
  · rw [← Except.ok.inj hmaterial]
    exact hkey
  · split at hmaterial
    · cases hmaterial
    · rw [← Except.ok.inj hmaterial, map_append]
      exact mem_append_left _ hkey

end Replay

end OnetDns.Cluster
