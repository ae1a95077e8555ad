import OnetDns.Dns.Presentation
import OnetDns.Filter.Engine

/-!
# Catalog zones

`catalog_members`, `complete_secondary_refresh`, `swap_zone` and `remove_zone` of `main.rs`. A
string is the list of its bytes. A zone is any value with an origin and a refresh time.
-/
namespace OnetDns.Authority.Catalog

open Dns List

/-- The text of a label in `to_ascii_lower`. -/
def text (label : Bytes) : Bytes := (Filter.fromUtf8Lossy label.length label).map asciiLower

def toAsciiLower (n : Name) : Bytes := [dot].intercalate (n.labels.map text)

def zones : Bytes := [0x7A, 0x6F, 0x6E, 0x65, 0x73]

/-- `catalog.trim_end_matches('.').to_ascii_lowercase()`. -/
def trimLower (catalog : Bytes) : Bytes :=
  (catalog.reverse.dropWhile (· = dot)).reverse.map asciiLower

def zonesSuffix (catalog : Bytes) : Bytes := dot :: zones ++ dot :: trimLower catalog

def catalogMembers (records : List Record) (catalog : Bytes) : List Bytes :=
  let out := records.filterMap fun r => match r.rdata with
    | .ptr member =>
      if zonesSuffix catalog <:+ toAsciiLower r.name then some (toAsciiLower member) else none
    | _ => none
  (out.insertionSort (· ≤ ·)).dedup

structure XferEntry where
  origin : Bytes
  file : Option Bytes
  primary : Bytes
  port : UInt16
  tsigKey : Option Bytes
  isCatalog : Bool
  deriving DecidableEq

/-- `SecondaryRefreshJob`. -/
structure Job where
  entry : XferEntry
  hadZone : Bool
  lastOk : ℕ
  refresh : ℕ
  retry : ℕ
  expire : ℕ
  priority : Bool
  forceAxfr : Bool

/-- `SecondaryXferOutcome`. -/
inductive Outcome (ζ : Type) where
  | upToDate
  | zone (zone : ζ)
  | catalog (serial : ℕ) (members : List Bytes)
  | needsFullTransfer (remoteSerial : ℕ)

/-- What the worker has of a zone. -/
structure Zones (ζ : Type) where
  origin : ζ → Name
  refresh : ζ → ℕ
  zonemdOk : ζ → Bool

/-- A call of `complete_secondary_refresh`: its job, its result, `none` for an error, the time,
and whether the file of a zone can be written. -/
structure Call (ζ : Type) where
  job : Job
  result : Option (Outcome ζ)
  completed : ℕ
  saved : Bool

structure State (ζ : Type) where
  entries : List XferEntry
  sched : Bytes → Option (ℕ × ℕ)
  catState : Bytes → Option (ℕ × List Bytes)
  ready : List (Job × ℕ)
  xfrOrigins : Finset Bytes
  urgent : Finset Bytes
  store : List ζ

variable {ζ : Type} (Z : Zones ζ)

/-- The name that a string spells. -/
def nameOf (s : Bytes) : Option Name := (Name.fromStr s).toOption

def removeZone (store : List ζ) (origin : Name) : List ζ :=
  store.filter fun zone => !(Z.origin zone).eqIgnoreCase origin

def swapZone (store : List ζ) (zone : ζ) : List ζ := removeZone Z store (Z.origin zone) ++ [zone]

/-- A member that left the catalog. -/
def State.drop (st : State ζ) (gone : Bytes) : State ζ :=
  { st with
    entries := st.entries.filter fun entry => entry.origin ≠ gone
    sched := Function.update st.sched gone none
    urgent := st.urgent.erase gone
    xfrOrigins := st.xfrOrigins.erase gone
    ready := st.ready.filter fun r => r.1.entry.origin ≠ gone
    store := (nameOf gone).elim st.store (removeZone Z st.store) }

/-- A member that is new in the catalog. -/
def State.add (job : Job) (completed : ℕ) (st : State ζ) (added : Bytes) : State ζ :=
  if st.entries.any fun entry => entry.origin = added then st
  else
    { st with
      entries := st.entries ++ [{ job.entry with origin := added, file := none, isCatalog := false }]
      sched := Function.update st.sched added (some (completed, completed)) }

def State.membersOf (st : State ζ) (catalog : Bytes) : List Bytes :=
  (st.catState catalog).elim [] Prod.snd

/-- The branch of a catalog. -/
def State.takeMembers (job : Job) (completed serial : ℕ) (members : List Bytes) (st : State ζ) :
    State ζ :=
  let old := st.membersOf job.entry.origin
  let st := (old.filter (!members.contains ·)).foldl (State.drop Z) st
  let st := (members.filter (!old.contains ·)).foldl (State.add job completed) st
  { st with catState := Function.update st.catState job.entry.origin (some (serial, members)) }

variable (call : Call ζ)

/-- What follows the result: the expiry of the zone and the time of the next check. -/
def State.conclude (ok : Bool) (refresh : ℕ) (st : State ζ) : State ζ :=
  let origin := call.job.entry.origin
  let expired := call.job.hadZone ∧ call.job.expire < call.completed - call.job.lastOk
  let delay := if ok then max 15 (min refresh 86400) else max 15 (min call.job.retry 3600)
  { st with
    store := if ¬ok ∧ expired then (nameOf origin).elim st.store (removeZone Z st.store)
      else st.store
    sched := Function.update st.sched origin
      (some (if origin ∈ st.urgent then call.completed else call.completed + delay,
        if ok then call.completed else call.job.lastOk)) }

/-- A job that is tried again with a full transfer. -/
def State.retry (job : Job) (remoteSerial : ℕ) (st : State ζ) : State ζ :=
  let again := ({ job with forceAxfr := true }, remoteSerial)
  { st with
    xfrOrigins := insert job.entry.origin st.xfrOrigins
    ready := if job.priority then again :: st.ready else st.ready ++ [again] }

/-- The result of a job whose entry is current. -/
def State.settle (st : State ζ) : State ζ :=
  let job := call.job
  match call.result with
  | some (.needsFullTransfer remoteSerial) =>
    if job.forceAxfr then st.conclude Z call false job.refresh else st.retry job remoteSerial
  | some .upToDate => st.conclude Z call true job.refresh
  | some (.zone zone) =>
    if ¬Z.zonemdOk zone then st.conclude Z call false job.refresh
    else if job.entry.file.isSome ∧ ¬call.saved then st.conclude Z call false (Z.refresh zone)
    else { st with store := swapZone Z st.store zone }.conclude Z call true (Z.refresh zone)
  | some (.catalog serial members) =>
    (st.takeMembers Z job call.completed serial members).conclude Z call true job.refresh
  | none => st.conclude Z call false job.refresh

def completeSecondaryRefresh (st : State ζ) : State ζ :=
  let st := { st with xfrOrigins := st.xfrOrigins.erase call.job.entry.origin }
  if call.job.entry ∈ st.entries then st.settle Z call else st

def State.Lists (st : State ζ) (catalog member : Bytes) : Prop := member ∈ st.membersOf catalog

/-- The string names the zone. -/
def Names (zone : ζ) (s : Bytes) : Prop := ∃ n, nameOf s = some n ∧ (Z.origin zone).eqIgnoreCase n

def Entered (entries : List XferEntry) (s : Bytes) : Prop := ∃ e ∈ entries, e.origin = s

/-- A loaded zone that is no configured secondary. -/
def Local (configured : List XferEntry) (loaded : List ζ) (zone : ζ) : Prop :=
  zone ∈ loaded ∧ ∀ s, Entered configured s → ¬ Names Z zone s

/-- The owner is one label below `zones.` and the catalog. -/
def OneBelow (catalog : Bytes) (owner : Name) : Prop :=
  ∃ n label, nameOf catalog = some n ∧
    lowerLabels owner.labels = label :: zones :: lowerLabels n.labels

/-- A zone that was transferred is that of the entry, and the members of a catalog are those of
its records. -/
def Fetched (records : List Record) : Prop :=
  (∀ zone, call.result = some (.zone zone) → Names Z zone call.job.entry.origin) ∧
    ∀ serial members, call.result = some (.catalog serial members) →
      members = catalogMembers records call.job.entry.origin

/-- The states of the worker, where every call meets a condition. The loop around the calls
changes the schedule and the queues only. -/
inductive Reaches (configured : List XferEntry) (loaded : List ζ)
    (good : State ζ → Call ζ → List Record → Prop) : State ζ → Prop where
  | start {sched ready xfrOrigins urgent} : Reaches configured loaded good
      ⟨configured, sched, fun _ => none, ready, xfrOrigins, urgent, loaded⟩
  | call {st call records} : Reaches configured loaded good st → Fetched Z call records →
    good st call records → Reaches configured loaded good (completeSecondaryRefresh Z call st)
  | other {st sched ready xfrOrigins urgent} : Reaches configured loaded good st →
    Reaches configured loaded good { st with sched, ready, xfrOrigins, urgent }

/-- The catalog alone lists the member, and it is not configured. -/
structure Owns (configured : List XferEntry) (st : State ζ) (catalog member : Bytes) : Prop where
  listed : st.Lists catalog member
  alone : ∀ other ≠ catalog, ¬ st.Lists other member
  unconfigured : ¬ Entered configured member

/-- What a transferred catalog has to respect. -/
structure Allows (configured : List XferEntry) (loaded : List ζ) (st : State ζ) (catalog : Bytes)
    (members : List Bytes) (records : List Record) : Prop where
  /-- The name of the catalog is written as it is configured. -/
  plain : ∃ n, nameOf catalog = some n ∧ n.labels ≠ [] ∧ toAsciiLower n = trimLower catalog
  /-- No pointer is deeper. -/
  flat : ∀ r ∈ records, ∀ member, r.rdata = .ptr member →
    zonesSuffix catalog <:+ toAsciiLower r.name → OneBelow catalog r.name
  dropped : ∀ s, st.Lists catalog s → s ∉ members → Owns configured st catalog s
  /-- A new member is no local zone and no zone of another entry. -/
  added : ∀ s ∈ members, ¬ st.Lists catalog s →
    (∀ zone, Local Z configured loaded zone → ¬ Names Z zone s) ∧
      (¬ Entered configured s → ∀ s', Entered st.entries s' ∨ s' ∈ members →
        ∀ zone, Names Z zone s → Names Z zone s' → s' = s)

def Respects (configured : List XferEntry) (loaded : List ζ) (st : State ζ) (call : Call ζ)
    (records : List Record) : Prop :=
  ∀ serial members, call.result = some (.catalog serial members) →
    Allows Z configured loaded st call.job.entry.origin members records

/-- The zones to transfer are the configured ones and the members of the catalogs, a member has
its zone to itself, and the local zones are as they were. -/
structure Exact (configured : List XferEntry) (loaded : List ζ) (st : State ζ) : Prop where
  entries : ∀ s, Entered st.entries s ↔ Entered configured s ∨ ∃ catalog, st.Lists catalog s
  remote : ∀ s, Entered st.entries s → ∀ zone, Local Z configured loaded zone → ¬ Names Z zone s
  apart : ∀ s, Entered st.entries s → ¬ Entered configured s → ∀ s', Entered st.entries s' →
    ∀ zone, Names Z zone s → Names Z zone s' → s' = s
  locals : ∀ zone, Local Z configured loaded zone → zone ∈ st.store

variable {Z} {configured : List XferEntry} {loaded : List ζ} {st : State ζ} {call : Call ζ}
  {records : List Record} {members : List Bytes} {zone : ζ} {s catalog : Bytes}

lemma lower_ascii (byte : UInt8) :
    byte < 0x80 ∧ asciiLower byte < 0x80 ∨ asciiLower byte = byte := by
  revert byte
  exact @forall_byte _ (by decide +kernel)

lemma lower_range {lo hi : UInt8} (hlo : 0x80 ≤ lo) (byte : UInt8) :
    (lo ≤ asciiLower byte && asciiLower byte ≤ hi) = (lo ≤ byte && byte ≤ hi) := by
  rcases lower_ascii byte with ⟨h, h'⟩ | h
  · have hlow : ∀ x : UInt8, x < 0x80 → decide (lo ≤ x) = false := fun x hx =>
      decide_eq_false (UInt8.not_le.mpr (UInt8.lt_of_lt_of_le hx hlo))
    rw [hlow _ h, hlow _ h', Bool.false_and, Bool.false_and]
  · rw [h]

/-- Letters are not part of a longer character. -/
theorem utf8Step_lower (bytes : Bytes) :
    Filter.utf8Step (bytes.map asciiLower) = Filter.utf8Step bytes := by
  cases bytes with
  | nil => rfl
  | cons b rest =>
    have hrange : ∀ (lo hi : UInt8) (i : ℕ), 0x80 ≤ lo →
        (((rest.map asciiLower)[i]?).map fun c => decide (lo ≤ c) && decide (c ≤ hi)) =
          rest[i]?.map fun c => decide (lo ≤ c) && decide (c ≤ hi) := by
      intro lo hi i hlo
      rw [getElem?_map, Option.map_map]
      exact congrArg (Option.map · _) (funext (lower_range hlo))
    simp only [map_cons, Filter.utf8Step, hrange _ _ _ (by decide : (0x80 : UInt8) ≤ 0x80),
      hrange _ _ _ (by decide : (0x80 : UInt8) ≤ 0xA0),
      hrange _ _ _ (by decide : (0x80 : UInt8) ≤ 0x90)]
    rcases lower_ascii b with ⟨h, h'⟩ | h
    · rw [if_pos h, if_pos h']
    · rw [h]

lemma fromUtf8Lossy_lower (fuel : ℕ) (bytes : Bytes) :
    (Filter.fromUtf8Lossy fuel (bytes.map asciiLower)).map asciiLower =
      (Filter.fromUtf8Lossy fuel bytes).map asciiLower := by
  induction fuel generalizing bytes with
  | zero => rfl
  | succ fuel ih =>
    cases bytes with
    | nil => rfl
    | cons b rest =>
      have hstep := utf8Step_lower (b :: rest)
      rw [map_cons] at hstep
      simp only [map_cons, Filter.fromUtf8Lossy, hstep]
      rw [← map_cons, map_append, map_append, ← map_drop, ih]
      split_ifs
      · rw [← map_take, map_map, show asciiLower ∘ asciiLower = asciiLower from funext asciiLower_idem]
      · rfl

lemma map_text_lower (labels : List Bytes) : (lowerLabels labels).map text = labels.map text := by
  rw [lowerLabels, map_map]
  refine map_congr_left fun label _ => ?_
  rw [Function.comp_apply, text, text, length_map, fromUtf8Lossy_lower]

lemma Allows.suffix_iff {r : Record} (h : Allows Z configured loaded st catalog members records)
    (hr : r ∈ records) {member : Name} (hdata : r.rdata = .ptr member) :
    zonesSuffix catalog <:+ toAsciiLower r.name ↔ OneBelow catalog r.name := by
  refine ⟨h.flat r hr member hdata, fun hbelow => ?_⟩
  obtain ⟨n, label, hn, hlabels⟩ := hbelow
  obtain ⟨n', hn', hne, htext⟩ := h.plain
  obtain rfl : n = n' := Option.some.inj (hn.symm.trans hn')
  obtain ⟨first, rest, hcons⟩ := exists_cons_of_ne_nil hne
  have hzones : text zones = zones := by decide
  rw [toAsciiLower, ← map_text_lower, hlabels, map_cons, map_cons, hzones, map_text_lower, zonesSuffix,
    ← htext, toAsciiLower, hcons]
  simp [intercalate]

lemma mem_catalogMembers (h : Allows Z configured loaded st catalog members records) :
    s ∈ catalogMembers records catalog ↔
      ∃ r ∈ records, ∃ member, r.rdata = .ptr member ∧ OneBelow catalog r.name ∧
        s = toAsciiLower member := by
  rw [catalogMembers, mem_dedup, mem_insertionSort, mem_filterMap]
  refine exists_congr fun r => and_congr_right fun hr => ?_
  cases hdata : r.rdata with
  | ptr member => simp [h.suffix_iff hr hdata, eq_comm]
  | _ => simp

lemma mem_removeZone {store : List ζ} {origin : Name} :
    zone ∈ removeZone Z store origin ↔
      zone ∈ store ∧ (Z.origin zone).eqIgnoreCase origin = false := by
  rw [removeZone, mem_filter, Bool.not_eq_true']

/-- Only a zone that the string names leaves the store. -/
theorem mem_elim_removeZone {store : List ζ} :
    zone ∈ (nameOf s).elim store (removeZone Z store) ↔ zone ∈ store ∧ ¬ Names Z zone s := by
  cases h : nameOf s with
  | none => simp [Names, h]
  | some n => simp [Names, h, mem_removeZone]

lemma foldl_drop (Z : Zones ζ) (st : State ζ) (gone : List Bytes) :
    (∀ s, Entered (gone.foldl (State.drop Z) st).entries s ↔ Entered st.entries s ∧ s ∉ gone) ∧
    (∀ zone, zone ∈ (gone.foldl (State.drop Z) st).store ↔
      zone ∈ st.store ∧ ∀ s ∈ gone, ¬ Names Z zone s) ∧
    (gone.foldl (State.drop Z) st).catState = st.catState := by
  induction gone generalizing st with
  | nil => simp
  | cons t gone ih =>
    obtain ⟨hentries, hstore, hcat⟩ := ih (st.drop Z t)
    refine ⟨fun s => ?_, fun zone => ?_, hcat⟩
    · have hdrop : Entered (st.drop Z t).entries s ↔ Entered st.entries s ∧ s ≠ t := by
        simp only [Entered, State.drop, mem_filter, decide_eq_true_eq]
        constructor
        · rintro ⟨e, ⟨he, hne⟩, rfl⟩
          exact ⟨⟨e, he, rfl⟩, hne⟩
        · rintro ⟨⟨e, he, rfl⟩, hne⟩
          exact ⟨e, ⟨he, hne⟩, rfl⟩
      rw [foldl_cons, hentries, hdrop, and_assoc, mem_cons, not_or]
    · rw [foldl_cons, hstore, State.drop, mem_elim_removeZone]
      simp [and_assoc]

lemma entered_add (job : Job) (completed : ℕ) (added : Bytes) :
    Entered (st.add job completed added).entries s ↔ Entered st.entries s ∨ s = added := by
  rw [State.add]
  split_ifs with hany
  · have hentered : Entered st.entries added := by simpa [Entered] using hany
    exact ⟨.inl, fun h => h.elim id fun heq => heq ▸ hentered⟩
  · simp [Entered, eq_comm]

lemma foldl_add (st : State ζ) (job : Job) (completed : ℕ) (added : List Bytes) :
    (∀ s, Entered (added.foldl (State.add job completed) st).entries s ↔
      Entered st.entries s ∨ s ∈ added) ∧
    (added.foldl (State.add job completed) st).store = st.store ∧
    (added.foldl (State.add job completed) st).catState = st.catState := by
  induction added generalizing st with
  | nil => simp
  | cons s added ih =>
    obtain ⟨hentries, hstore, hcat⟩ := ih (st.add job completed s)
    have hsame : (st.add job completed s).store = st.store ∧
        (st.add job completed s).catState = st.catState := by
      rw [State.add]
      split_ifs <;> exact ⟨rfl, rfl⟩
    refine ⟨fun t => ?_, hstore.trans hsame.1, hcat.trans hsame.2⟩
    rw [foldl_cons, hentries, entered_add, mem_cons, or_assoc]

/-- Only the zone of one entry may differ. -/
structure Kept (Z : Zones ζ) (st st' : State ζ) (s : Bytes) : Prop where
  entries : st'.entries = st.entries
  catState : st'.catState = st.catState
  store : ∀ zone ∈ st.store, zone ∈ st'.store ∨ Names Z zone s

/-- The entries, the store and the members differ by what a catalog lists now. -/
structure Taken (Z : Zones ζ) (st st' : State ζ) (catalog : Bytes) (members : List Bytes) :
    Prop where
  entries : ∀ s, Entered st'.entries s ↔
    Entered st.entries s ∧ ¬ (st.Lists catalog s ∧ s ∉ members) ∨ s ∈ members ∧ ¬ st.Lists catalog s
  store : ∀ zone, zone ∈ st'.store ↔
    zone ∈ st.store ∧ ∀ s, st.Lists catalog s ∧ s ∉ members → ¬ Names Z zone s
  lists : ∀ other s, st'.Lists other s ↔ if other = catalog then s ∈ members else st.Lists other s

lemma State.takeMembers_taken (job : Job) (completed serial : ℕ) :
    Taken Z st (st.takeMembers Z job completed serial members) job.entry.origin members := by
  obtain ⟨hdrop, hstore, hcat⟩ := foldl_drop Z st
    ((st.membersOf job.entry.origin).filter (!members.contains ·))
  obtain ⟨hadd, hsame, hcat'⟩ := foldl_add _ job completed
    (members.filter (!(st.membersOf job.entry.origin).contains ·))
  refine ⟨fun s => ?_, fun zone => ?_, fun catalog s => ?_⟩
  · refine (hadd s).trans ?_
    rw [hdrop]
    simp [Lists]
  · rw [takeMembers, hsame, hstore]
    simp [Lists]
  have hupdate : (st.takeMembers Z job completed serial members).catState =
      Function.update st.catState job.entry.origin (some (serial, members)) := by
    rw [takeMembers, hcat', hcat]
  rw [Lists, membersOf, hupdate, Function.update_apply]
  split_ifs <;> rfl

variable {st' : State ζ}

lemma Taken.conclude {refresh : ℕ} (h : Taken Z st st' catalog members) :
    Taken Z st (st'.conclude Z call true refresh) catalog members :=
  ⟨h.entries, by simpa [State.conclude] using h.store, h.lists⟩

lemma Kept.conclude {ok : Bool} {refresh : ℕ} (h : Kept Z st st' call.job.entry.origin) :
    Kept Z st (st'.conclude Z call ok refresh) call.job.entry.origin := by
  refine ⟨h.entries, h.catState, fun zone hzone => ?_⟩
  by_cases hnames : Names Z zone call.job.entry.origin
  · exact .inr hnames
  have hmem := (h.store zone hzone).resolve_right hnames
  refine .inl ?_
  change zone ∈ if _ then _ else st'.store
  split_ifs
  · exact mem_elim_removeZone.mpr ⟨hmem, hnames⟩
  · exact hmem

lemma Kept.swap {new : ζ} (hnew : Names Z new s) :
    Kept Z st { st with store := swapZone Z st.store new } s := by
  refine ⟨rfl, rfl, fun zone hzone => ?_⟩
  obtain ⟨n, hn, hsame⟩ := hnew
  cases heq : (Z.origin zone).eqIgnoreCase (Z.origin new) with
  | false => exact .inl (mem_append_left _ (mem_removeZone.mpr ⟨hzone, heq⟩))
  | true =>
    rw [Name.eqIgnoreCase, beq_iff_eq] at heq hsame
    exact .inr ⟨n, hn, by rw [Name.eqIgnoreCase, heq, hsame, beq_self_eq_true]⟩

lemma settle_cases (hfetched : Fetched Z call records) :
    Kept Z st (st.settle Z call) call.job.entry.origin ∨
      ∃ serial members, call.result = some (.catalog serial members) ∧
        Taken Z st (st.settle Z call) call.job.entry.origin members := by
  have hrefl : Kept Z st st call.job.entry.origin := ⟨rfl, rfl, fun zone hzone => .inl hzone⟩
  unfold State.settle
  cases hresult : call.result with
  | none => exact .inl hrefl.conclude
  | some outcome =>
    cases outcome with
    | upToDate => exact .inl hrefl.conclude
    | catalog serial members =>
      exact .inr ⟨serial, members, rfl, (State.takeMembers_taken _ _ _).conclude⟩
    | zone new =>
      refine .inl ?_
      dsimp only
      split_ifs
      · exact hrefl.conclude
      · exact (Kept.swap (hfetched.1 new hresult)).conclude
      · exact hrefl.conclude
    | needsFullTransfer remoteSerial =>
      refine .inl ?_
      dsimp only
      split_ifs
      · exact hrefl.conclude
      · exact ⟨rfl, rfl, hrefl.store⟩

lemma taken_of_entry {serial : ℕ} (hentry : call.job.entry ∈ st.entries)
    (hresult : call.result = some (.catalog serial members)) :
    Taken Z st (completeSecondaryRefresh Z call st) call.job.entry.origin members := by
  obtain ⟨hentries, hstore, hlists⟩ := (State.takeMembers_taken (Z := Z) call.job
    call.completed serial : Taken Z { st with xfrOrigins := _ } _ _ _).conclude
  rw [completeSecondaryRefresh, if_pos hentry, State.settle, hresult]
  exact ⟨hentries, hstore, hlists⟩

/-- What a call changes: the zone of its entry, or what its catalog says. -/
theorem complete_cases (hfetched : Fetched Z call records) :
    completeSecondaryRefresh Z call st =
        { st with xfrOrigins := st.xfrOrigins.erase call.job.entry.origin } ∨
      Entered st.entries call.job.entry.origin ∧
        (Kept Z st (completeSecondaryRefresh Z call st) call.job.entry.origin ∨
          ∃ serial members, call.result = some (.catalog serial members) ∧
            Taken Z st (completeSecondaryRefresh Z call st) call.job.entry.origin members) := by
  rw [completeSecondaryRefresh]
  split_ifs with hentry
  · refine .inr ⟨⟨_, hentry, rfl⟩, ?_⟩
    rcases settle_cases (hfetched) with h | ⟨serial, members, hresult, h⟩
    · exact .inl { h with }
    · exact .inr ⟨serial, members, hresult, { h with }⟩
  · exact .inl rfl

lemma Exact.kept (h : Exact Z configured loaded st)
    (hentered : Entered st.entries s) (hkept : Kept Z st st' s) :
    Exact Z configured loaded st' := by
  refine ⟨fun t => ?_, fun t ht => ?_, fun t ht => ?_, fun zone hz => ?_⟩
  · simp only [State.Lists, State.membersOf, hkept.entries, hkept.catState]
    exact h.entries t
  · exact h.remote t (hkept.entries ▸ ht)
  · rw [hkept.entries] at ht ⊢
    exact h.apart t ht
  · exact (hkept.store zone (h.locals zone hz)).resolve_right (h.remote s hentered zone hz)

lemma Exact.taken (h : Exact Z configured loaded st)
    (hallows : Allows Z configured loaded st catalog members records)
    (htaken : Taken Z st st' catalog members) : Exact Z configured loaded st' := by
  have hlisted : ∀ other s, st.Lists other s → Entered st.entries s := fun other s hs =>
    (h.entries s).mpr (.inr ⟨other, hs⟩)
  have hnew : ∀ s, Entered st'.entries s →
      Entered st.entries s ∨ s ∈ members ∧ ¬ st.Lists catalog s := fun s hs =>
    ((htaken.entries s).mp hs).imp And.left id
  have hstays : ∀ s, Entered st.entries s → ¬ Owns configured st catalog s →
      Entered st'.entries s := fun s hs howns =>
    (htaken.entries s).mpr (.inl ⟨hs, fun hdrop => howns (hallows.dropped s hdrop.1 hdrop.2)⟩)
  refine ⟨fun s => ⟨fun hs => ?_, ?_⟩, fun s hs => ?_, fun s hs hconf s' hs' zone hz hz' => ?_,
    fun zone hz => ?_⟩
  · rcases (htaken.entries s).mp hs with ⟨hs, hdrop⟩ | ⟨hmem, -⟩
    · refine ((h.entries s).mp hs).imp_right fun ⟨other, hother⟩ => ⟨other, ?_⟩
      rw [htaken.lists]
      split_ifs with heq
      · subst heq
        exact not_not.mp fun hmem => hdrop ⟨hother, hmem⟩
      · exact hother
    · exact .inr ⟨catalog, by rwa [htaken.lists, if_pos rfl]⟩
  · rintro (hconf | ⟨other, hother⟩)
    · exact hstays s ((h.entries s).mpr (.inl hconf)) fun howns => howns.unconfigured hconf
    rw [htaken.lists] at hother
    split_ifs at hother with heq
    · by_cases hlists : st.Lists catalog s
      · exact (htaken.entries s).mpr (.inl ⟨hlisted _ s hlists, fun hdrop => hdrop.2 hother⟩)
      · exact (htaken.entries s).mpr (.inr ⟨hother, hlists⟩)
    · exact hstays s (hlisted _ s hother) fun howns => howns.alone other heq hother
  · rcases hnew s hs with hs | ⟨hmem, hlists⟩
    · exact h.remote s hs
    · exact (hallows.added s hmem hlists).1
  · rcases hnew s hs with hs | ⟨hmem, hlists⟩
    · rcases hnew s' hs' with hs' | ⟨hmem', hlists'⟩
      · exact h.apart s hs hconf s' hs' zone hz hz'
      · by_cases hconf' : Entered configured s'
        · exact h.apart s hs hconf s' ((h.entries s').mpr (.inl hconf')) zone hz hz'
        · exact ((hallows.added s' hmem' hlists').2 hconf' s (.inl hs) zone hz' hz).symm
    · exact (hallows.added s hmem hlists).2 hconf s' ((hnew s' hs').imp_right And.left) zone hz hz'
  · exact (htaken.store zone).mpr
      ⟨h.locals zone hz, fun s hs => h.remote s (hlisted _ s hs.1) zone hz⟩

lemma Exact.complete (h : Exact Z configured loaded st) (hfetched : Fetched Z call records)
    (hrespects : Respects Z configured loaded st call records) :
    Exact Z configured loaded (completeSecondaryRefresh Z call st) := by
  rcases complete_cases hfetched with heq | ⟨hentered, hkept | ⟨serial, members, hresult, htaken⟩⟩
  · rw [heq]
    exact { h with }
  · exact h.kept hentered hkept
  · exact h.taken (hrespects serial members hresult) htaken

lemma Reaches.exact (h : Reaches Z configured loaded (Respects Z configured loaded) st) :
    Exact Z configured loaded st := by
  induction h with
  | start =>
    refine ⟨fun s => ?_, fun s hs zone hz => hz.2 s hs, fun s hs hconf => absurd hs hconf,
      fun zone hz => hz.1⟩
    simp [State.Lists, State.membersOf]
  | call _ hfetched hgood ih => exact ih.complete hfetched hgood
  | other _ ih => exact { ih with }

/-- The zones to transfer are the configured ones and the members of the latest version of each
catalog; what a call takes away belongs to its entry, or to its catalog alone. -/
theorem catalog_exact (h : Reaches Z configured loaded (Respects Z configured loaded) st) :
    (∀ s, Entered st.entries s ↔ Entered configured s ∨ ∃ catalog, st.Lists catalog s) ∧
    (∀ zone, Local Z configured loaded zone → zone ∈ st.store) ∧
    ∀ call records, Fetched Z call records → Respects Z configured loaded st call records →
      let st' := completeSecondaryRefresh Z call st
      let origin := call.job.entry.origin
      (∀ serial members, call.result = some (.catalog serial members) →
        (call.job.entry ∈ st.entries → ∀ s, st'.Lists origin s ↔ s ∈ members) ∧
        ∀ s, s ∈ members ↔ ∃ r ∈ records, ∃ member, r.rdata = .ptr member ∧
          OneBelow origin r.name ∧ s = toAsciiLower member) ∧
      (∀ s, Entered st.entries s → ¬ Entered st'.entries s → Owns configured st origin s) ∧
      ∀ zone ∈ st.store, zone ∉ st'.store → ¬ Local Z configured loaded zone ∧
        ∃ s, Names Z zone s ∧ (s = origin ∨ Owns configured st origin s) ∧
          (¬ Entered configured s → ∀ s', Entered st.entries s' → Names Z zone s' → s' = s) := by
  have hexact := h.exact
  refine ⟨hexact.entries, hexact.locals, fun call records hfetched hrespects => ?_⟩
  have hafter := hexact.complete hfetched hrespects
  refine ⟨fun serial members hresult => ⟨fun hentry s => ?_, fun s => ?_⟩, fun s hs hgone => ?_,
    fun zone hzone hgone => ⟨fun hz => hgone (hafter.locals zone hz), ?_⟩⟩
  · rw [(taken_of_entry hentry hresult).lists, if_pos rfl]
  · rw [hfetched.2 serial members hresult]
    exact mem_catalogMembers (hrespects serial members hresult)
  all_goals rcases complete_cases hfetched with
    heq | ⟨hentered, hkept | ⟨serial, members, hresult, htaken⟩⟩
  · exact absurd (heq ▸ hs) hgone
  · exact absurd (hkept.entries ▸ hs) hgone
  · have hdrop := not_not.mp fun hkeep => hgone ((htaken.entries s).mpr (.inl ⟨hs, hkeep⟩))
    exact (hrespects serial members hresult).dropped s hdrop.1 hdrop.2
  · exact absurd (heq ▸ hzone) hgone
  · have hnames := (hkept.store zone hzone).resolve_left hgone
    exact ⟨_, hnames, .inl rfl, fun hconf s' hs' hnames' =>
      hexact.apart _ hentered hconf s' hs' zone hnames hnames'⟩
  · obtain ⟨s, hdrop, hnames⟩ : ∃ s, (st.Lists _ s ∧ s ∉ members) ∧ Names Z zone s := by
      by_contra hnone
      exact hgone ((htaken.store zone).mpr ⟨hzone, fun s hdrop hn => hnone ⟨s, hdrop, hn⟩⟩)
    have howns := (hrespects serial members hresult).dropped s hdrop.1 hdrop.2
    exact ⟨s, hnames, .inr howns, fun hconf s' hs' hnames' =>
      hexact.apart s ((hexact.entries s).mpr (.inr ⟨_, hdrop.1⟩)) hconf s' hs' zone hnames hnames'⟩

/-! Two catalogs `a` and `b`, which list `m`. -/

def named (s : Bytes) : Name := (nameOf s).getD Name.root

def labZones : Zones Name := ⟨id, fun _ => 0, fun _ => true⟩

def labEntry (origin : Bytes) : XferEntry := ⟨origin, none, [], 53, none, true⟩

def labStart : State Name :=
  ⟨[labEntry [0x61], labEntry [0x62]], fun _ => none, fun _ => none, [], ∅, ∅, []⟩

def labRecords (catalog : Bytes) (members : List Bytes) : List Record :=
  members.map fun member => ⟨named (0x78 :: zonesSuffix catalog), .PTR, 1, 0, .ptr (named member)⟩

def labCall (catalog : Bytes) (members : List Bytes) : Call Name :=
  ⟨⟨labEntry catalog, false, 0, 0, 0, 0, false, false⟩,
    some (.catalog 0 (catalogMembers (labRecords catalog members) catalog)), 0, true⟩

lemma labCall_fetched (catalog : Bytes) (members : List Bytes) :
    Fetched labZones (labCall catalog members) (labRecords catalog members) := by
  refine ⟨fun zone h => ?_, fun serial members h => ?_⟩
  · cases h
  · cases h
    rfl

/-- `a` drops what `b` still lists. -/
theorem catalog_shared : ¬ ∀ st : State Name,
    Reaches labZones labStart.entries [] (fun _ _ _ => True) st →
      ∀ s, Entered st.entries s ↔ Entered labStart.entries s ∨ ∃ catalog, st.Lists catalog s := by
  intro h
  have hstart : Reaches labZones labStart.entries [] (fun _ _ _ => True) labStart := .start
  have hrun := ((hstart.call (labCall_fetched [0x61] [[0x6D]]) trivial).call
    (labCall_fetched [0x62] [[0x6D]]) trivial).call (labCall_fetched [0x61] []) trivial
  have hgone := (h _ hrun [0x6D]).mpr (.inr ⟨[0x62], by unfold State.Lists; decide +kernel⟩)
  exact absurd hgone (by unfold Entered; decide +kernel)

/-- The catalogs and their members. -/
def labStrings : List Bytes := [[0x61], [0x62], [0x6D], [0x70]]

lemma labStrings_apart {s s' : Bytes} (hs : s ∈ labStrings) (hs' : s' ∈ labStrings) {zone : Name}
    (h : Names labZones zone s) (h' : Names labZones zone s') : s' = s := by
  have hdiffer : ∀ s ∈ labStrings, ∀ s' ∈ labStrings,
      (nameOf s).map (·.wire.map asciiLower) = (nameOf s').map (·.wire.map asciiLower) → s' = s := by
    decide +kernel
  obtain ⟨n, hn, hsame⟩ := h
  obtain ⟨n', hn', hsame'⟩ := h'
  rw [Name.eqIgnoreCase, beq_iff_eq] at hsame hsame'
  exact hdiffer s hs s' hs' (by rw [hn, hn', Option.map_some, Option.map_some, ← hsame, ← hsame'])

lemma labCall_taken {st : State Name} {catalog : Bytes} {members : List Bytes}
    (hentry : labEntry catalog ∈ st.entries) :
    Taken labZones st (completeSecondaryRefresh labZones (labCall catalog members) st) catalog
      (catalogMembers (labRecords catalog members) catalog) :=
  taken_of_entry hentry rfl

lemma labCall_respects {st : State Name} {catalog : Bytes} {members : List Bytes}
    (hcatalog : catalog ∈ ([[0x61], [0x62]] : List Bytes))
    (hmembers : catalogMembers (labRecords catalog members) catalog = members)
    (hknown : ∀ s ∈ members, s ∈ labStrings) (hentries : ∀ e ∈ st.entries, e.origin ∈ labStrings)
    (hdropped : ∀ s, st.Lists catalog s → s ∉ members → Owns labStart.entries st catalog s) :
    Respects labZones labStart.entries [] st (labCall catalog members)
      (labRecords catalog members) := by
  have hnames : ∀ catalog ∈ ([[0x61], [0x62]] : List Bytes), nameOf catalog = some (named catalog) ∧
      (named catalog).labels ≠ [] ∧ toAsciiLower (named catalog) = trimLower catalog ∧
      lowerLabels (named (0x78 :: zonesSuffix catalog)).labels =
        [0x78] :: zones :: lowerLabels (named catalog).labels := by decide +kernel
  obtain ⟨hname, hne, htext, hbelow⟩ := hnames catalog hcatalog
  rintro serial _ ⟨⟩
  rw [hmembers]
  refine ⟨⟨_, hname, hne, htext⟩, fun r hr _ _ _ => ?_, hdropped, fun s hs _ => ⟨fun zone hz => ?_, ?_⟩⟩
  · obtain ⟨member, -, rfl⟩ := mem_map.mp hr
    exact ⟨_, _, hname, hbelow⟩
  · cases hz.1
  · rintro - s' (⟨e, he, rfl⟩ | hs') zone hzone hzone'
    · exact labStrings_apart (hknown s hs) (hentries e he) hzone hzone'
    · exact labStrings_apart (hknown s hs) (hknown s' hs') hzone hzone'

def labFirst : State Name := completeSecondaryRefresh labZones (labCall [0x61] [[0x6D]]) labStart

def labSecond : State Name := completeSecondaryRefresh labZones (labCall [0x62] [[0x70]]) labFirst

/-- `a` lists `m`, `b` lists `p`, and then `a` drops `m`. -/
def labThird : State Name := completeSecondaryRefresh labZones (labCall [0x61] []) labSecond

theorem catalog_exact_shared : Entered labThird.entries [0x70] ∧ ¬ Entered labThird.entries [0x6D] := by
  have hm : catalogMembers (labRecords [0x61] [[0x6D]]) [0x61] = [[0x6D]] := by decide +kernel
  have hp : catalogMembers (labRecords [0x62] [[0x70]]) [0x62] = [[0x70]] := by decide +kernel
  have hfirst : ∀ catalog s, labFirst.Lists catalog s ↔ catalog = [0x61] ∧ s = [0x6D] := by
    intro catalog s
    rw [labFirst, (labCall_taken (by decide)).lists, hm]
    split_ifs with h <;> simp [h, State.Lists, State.membersOf, labStart]
  have hsecond : ∀ catalog s, labSecond.Lists catalog s ↔
      catalog = [0x62] ∧ s = [0x70] ∨ catalog = [0x61] ∧ s = [0x6D] := by
    intro catalog s
    rw [labSecond, (labCall_taken (by decide +kernel)).lists, hp, hfirst]
    split_ifs with h <;> simp [h]
  have hreaches : Reaches labZones labStart.entries [] (Respects labZones labStart.entries [])
      labThird := by
    refine ((Reaches.start.call (labCall_fetched _ _) (labCall_respects (by decide) hm (by decide)
      (by decide) fun s hs => absurd hs not_mem_nil)).call (labCall_fetched _ _) (labCall_respects
        (by decide) hp (by decide) (by decide +kernel) fun s hs => ?_)).call (labCall_fetched _ _)
          (labCall_respects (by decide) (by decide) (by decide) (by decide +kernel) fun s hs _ => ?_)
    · cases ((hfirst _ s).mp hs).1
    · obtain ⟨-, rfl⟩ := ((hsecond _ s).mp hs).resolve_left fun h => by cases h.1
      refine ⟨hs, fun other hne hother => ?_, by unfold Entered; decide⟩
      rcases (hsecond other _).mp hother with h | h
      · cases h.2
      · exact hne h.1
  exact ⟨((catalog_exact hreaches).1 _).mpr (.inr ⟨[0x62], by unfold State.Lists; decide +kernel⟩),
    by unfold Entered; decide +kernel⟩

end OnetDns.Authority.Catalog
