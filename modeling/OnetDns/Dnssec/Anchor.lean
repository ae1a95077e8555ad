import OnetDns.Dnssec.Signature

/-!
# Automatic update of trust anchors

`AnchorManager` of `onetdns-dnssec/src/anchor.rs`. A key is known to the manager by its tag
and its public key. New keys wait for the hold-down time, revocation takes a signature of
the key itself, and nothing changes without a signature of a trusted key.
-/
namespace OnetDns.Dnssec.Anchor
open Dns List

inductive KeyState where
  | valid
  | addPend (since : ℕ)
  | revoked
  deriving DecidableEq

structure ManagedKey where
  key : Dnskey
  state : KeyState
  lastSeen : ℕ
  deriving DecidableEq

structure AnchorManager where
  zone : Name
  keys : List ManagedKey
  holdDownSecs : ℕ

def defaultHoldDownSecs : ℕ := 30 * 86400

/-- The arguments of `update`. -/
structure Observation where
  dnskeys : List Record
  rrsigs : List Rrsig
  now : ℕ

namespace Observation

/-- The clock as signatures see it. -/
def now32 (o : Observation) : UInt32 := UInt32.ofNat o.now

def observed (o : Observation) : List Dnskey := o.dnskeys.filterMap Dnskey.fromRecord

/-- How long a key may be out of sight: twice the least TTL, at least a minute. -/
def gap (o : Observation) : ℕ :=
  max (((o.dnskeys.map fun record => max record.ttl.toNat 1).min?.getD 3600) * 2) 60

end Observation

def isEntryOf (tag : UInt16) (publicKey : Bytes) (k : ManagedKey) : Bool :=
  k.key.keyTag == tag && k.key.publicKey == publicKey

def changeFirst (p : ManagedKey → Bool) (f : ManagedKey → ManagedKey) :
    List ManagedKey → List ManagedKey
  | [] => []
  | k :: rest => if p k then f k :: rest else k :: changeFirst p f rest

/-- The key without its revocation bit. -/
def baseKey (k : Dnskey) : Dnskey := { k with flags := k.flags &&& ~~~0x0080 }

namespace AnchorManager

def bootstrap (zone : Name) (initial : List Dnskey) (now : ℕ) : AnchorManager where
  zone := zone
  keys := initial.map fun key => ⟨key, .valid, now⟩
  holdDownSecs := defaultHoldDownSecs

variable (m : AnchorManager)

def validKeys : List Dnskey := (m.keys.filter fun k => k.state = .valid).map ManagedKey.key

section Update

variable (env : Env) (zone : Name) (o : Observation)

/-- Whether a revoked key has signed the set itself. -/
def selfSigned (obs : Dnskey) : Bool :=
  o.rrsigs.any fun sig =>
    sig.signer.eqIgnoreCase zone && rrsigTimeValidAccepting sig o.now32 false &&
      verifyRrsig env o.dnskeys sig obs

/-- Whether a pending key was out of sight for too long. -/
def outOfSight (k : ManagedKey) : Bool := o.now < k.lastSeen || o.gap < o.now - k.lastSeen

def seenAgain (k : ManagedKey) : ManagedKey :=
  match k.state with
  | .addPend since =>
    { k with state := .addPend (if outOfSight o k then o.now else since), lastSeen := o.now }
  | _ => { k with lastSeen := o.now }

def restarts (k : ManagedKey) : Bool :=
  match k.state with
  | .addPend _ => outOfSight o k
  | _ => false

/-- One key of the set: the entries, and whether they changed. -/
def observe (acc : List ManagedKey × Bool) (obs : Dnskey) : List ManagedKey × Bool :=
  let (keys, changed) := acc
  if obs.isRevoked then
    if !selfSigned env zone o obs then acc
    else
      let isIt := isEntryOf (baseKey obs).keyTag obs.publicKey
      match keys.find? isIt with
      | none => acc
      | some k =>
        if k.state = .revoked then acc
        else (changeFirst isIt (fun k => { k with state := .revoked, lastSeen := o.now }) keys, true)
  else
    let isIt := isEntryOf obs.keyTag obs.publicKey
    match keys.find? isIt with
    | some k => (changeFirst isIt (seenAgain o) keys, changed || restarts o k)
    | none => (keys ++ [⟨obs, .addPend o.now, o.now⟩], true)

end Update

def isDue (holdDownSecs now : ℕ) (k : ManagedKey) : Bool :=
  match k.state with
  | .addPend since => k.lastSeen == now && holdDownSecs ≤ now - since
  | _ => false

def promote (holdDownSecs now : ℕ) (k : ManagedKey) : ManagedKey :=
  if isDue holdDownSecs now k then { k with state := .valid } else k

/-- Entries that stay: those that are trusted, and those that were seen. -/
def stays (o : Observation) (k : ManagedKey) : Bool :=
  k.state == .valid || (o.observed.map Dnskey.keyTag).contains k.key.keyTag || k.lastSeen == o.now

/-- Whether `update` takes the set: a trusted key has signed it. -/
def accepts (env : Env) (o : Observation) : Bool :=
  m.validKeys ≠ [] &&
    validateRrsetInZone env o.dnskeys o.rrsigs m.validKeys m.zone o.now32 matches .ok ()

/-- `update`: the manager, and whether it changed. -/
def update (env : Env) (o : Observation) : AnchorManager × Bool :=
  if !m.accepts env o then (m, false)
  else
    let (keys, changed) := o.observed.foldl (observe env m.zone o) (m.keys, false)
    let due := keys.any (isDue m.holdDownSecs o.now)
    let promoted := keys.map (promote m.holdDownSecs o.now)
    let kept := promoted.filter (stays o)
    ({ m with keys := kept }, changed || due || kept.length ≠ promoted.length)

/-- Updates one after the other. -/
def run (env : Env) (os : List Observation) : AnchorManager :=
  os.foldl (fun m o => (m.update env o).1) m

/-- The sets that the updates of a run took. -/
def processed (env : Env) : AnchorManager → List Observation → List Observation
  | _, [] => []
  | m, o :: rest =>
    (if m.accepts env o then [o] else []) ++ processed env (m.update env o).1 rest

section Entries

variable {p : ManagedKey → Bool} {f : ManagedKey → ManagedKey} {keys : List ManagedKey}
  {e : ManagedKey}

lemma mem_changeFirst (h : e ∈ changeFirst p f keys) :
    e ∈ keys ∨ ∃ k, keys.find? p = some k ∧ e = f k := by
  induction keys with
  | nil => exact .inl h
  | cons k rest ih =>
    unfold changeFirst at h
    split at h
    · rename_i hk
      rcases mem_cons.mp h with rfl | hrest
      · exact .inr ⟨k, by rw [find?_cons_of_pos hk], rfl⟩
      · exact .inl (mem_cons_of_mem _ hrest)
    rename_i hk
    rcases mem_cons.mp h with rfl | hrest
    · exact .inl mem_cons_self
    · rcases ih hrest with hold | ⟨k', hfind, hnew⟩
      · exact .inl (mem_cons_of_mem _ hold)
      · exact .inr ⟨k', by rw [find?_cons_of_neg hk, hfind], hnew⟩

lemma changeFirst_find {k : ManagedKey} (h : keys.find? p = some k) :
    f k ∈ changeFirst p f keys := by
  induction keys with
  | nil => cases h
  | cons e rest ih =>
    unfold changeFirst
    split
    · rename_i he
      rw [find?_cons_of_pos he, Option.some.injEq] at h
      rw [h]
      exact mem_cons_self
    · rename_i he
      rw [find?_cons_of_neg he] at h
      exact mem_cons_of_mem _ (ih h)

lemma changeFirst_keeps (h : e ∈ keys) :
    e ∈ changeFirst p f keys ∨ p e = true ∧ f e ∈ changeFirst p f keys := by
  induction keys with
  | nil => cases h
  | cons k rest ih =>
    unfold changeFirst
    split
    · rename_i hk
      rcases mem_cons.mp h with rfl | hrest
      · exact .inr ⟨hk, mem_cons_self⟩
      · exact .inl (mem_cons_of_mem _ hrest)
    rcases mem_cons.mp h with rfl | hrest
    · exact .inl mem_cons_self
    · rcases ih hrest with hold | ⟨hp, hnew⟩
      · exact .inl (mem_cons_of_mem _ hold)
      · exact .inr ⟨hp, mem_cons_of_mem _ hnew⟩

end Entries

section Observe

variable {env : Env} {zone : Name} {o : Observation} {acc : List ManagedKey × Bool}
  {obs : Dnskey} {e : ManagedKey}

/-- Where an entry comes from. -/
theorem mem_observe (h : e ∈ (observe env zone o acc obs).1) :
    e ∈ acc.1 ∨ (∃ k ∈ acc.1, e = { k with state := .revoked, lastSeen := o.now }) ∨
      (obs.isRevoked = false ∧ ∃ k ∈ acc.1,
        isEntryOf obs.keyTag obs.publicKey k = true ∧ e = seenAgain o k) ∨
      (obs.isRevoked = false ∧ (∀ k ∈ acc.1, isEntryOf obs.keyTag obs.publicKey k = false) ∧
        e = ⟨obs, .addPend o.now, o.now⟩) := by
  unfold observe at h
  simp only at h
  split at h
  · split at h
    · exact .inl h
    split at h
    · exact .inl h
    split at h
    · exact .inl h
    · rcases mem_changeFirst h with hold | ⟨k, hfind, hnew⟩
      · exact .inl hold
      · exact .inr (.inl ⟨k, mem_of_find?_eq_some hfind, hnew⟩)
  rename_i hrevoked
  have hplain : obs.isRevoked = false := by simpa using hrevoked
  split at h
  · rcases mem_changeFirst h with hold | ⟨k, hfind, hnew⟩
    · exact .inl hold
    · exact .inr (.inr (.inl ⟨hplain, k, mem_of_find?_eq_some hfind, find?_some hfind, hnew⟩))
  rename_i hnone
  rcases mem_append.mp h with hold | hnew
  · exact .inl hold
  · refine .inr (.inr (.inr ⟨hplain, fun k hk => ?_, mem_singleton.mp hnew⟩))
    simpa using find?_eq_none.mp hnone k hk

section

variable (env zone o obs)

/-- What becomes of an entry. -/
theorem observe_keeps (h : e ∈ acc.1) :
    e ∈ (observe env zone o acc obs).1 ∨ (obs.isRevoked = true ∧ selfSigned env zone o obs = true ∧
        isEntryOf (baseKey obs).keyTag obs.publicKey e = true ∧
        { e with state := .revoked, lastSeen := o.now } ∈ (observe env zone o acc obs).1) ∨
      seenAgain o e ∈ (observe env zone o acc obs).1 := by
  unfold observe
  simp only
  split
  · rename_i hrevoked
    split
    · exact .inl h
    rename_i hsigned
    split
    · exact .inl h
    split
    · exact .inl h
    · rcases changeFirst_keeps h with hold | ⟨hit, hnew⟩
      · exact .inl hold
      · exact .inr (.inl ⟨hrevoked, by simpa using hsigned, hit, hnew⟩)
  · split
    · rcases changeFirst_keeps h with hold | ⟨-, hnew⟩
      · exact .inl hold
      · exact .inr (.inr hnew)
    · exact .inl (mem_append.mpr (.inl h))

@[simp] lemma seenAgain_key (k : ManagedKey) : (seenAgain o k).key = k.key := by
  unfold seenAgain
  split <;> rfl

@[simp] lemma seenAgain_lastSeen (k : ManagedKey) :
    (seenAgain o k).lastSeen = o.now := by
  unfold seenAgain
  split <;> rfl

lemma seenAgain_state (k : ManagedKey) :
    (seenAgain o k).state = k.state ∨ (∃ since, k.state = .addPend since) ∧
      (seenAgain o k).state = .addPend o.now := by
  unfold seenAgain
  split
  · rename_i since hstate
    split
    · exact .inr ⟨⟨since, hstate⟩, rfl⟩
    · exact .inl hstate.symm
  · exact .inl rfl

end

end Observe

variable {env : Env} {o : Observation} {m : AnchorManager} {keys : List ManagedKey}

/-- What holds of all entries before the keys of a set holds after them. -/
theorem foldl_observe {zone : Name} {P : List ManagedKey → Prop}
    (hstep : ∀ acc, ∀ obs ∈ o.observed, P acc.1 → P (observe env zone o acc obs).1)
    {changed : Bool} (h : P keys) :
    P (o.observed.foldl (observe env zone o) (keys, changed)).1 := by
  have hall : ∀ (obs : List Dnskey) (acc : List ManagedKey × Bool), (∀ k ∈ obs, k ∈ o.observed) →
      P acc.1 → P (obs.foldl (observe env zone o) acc).1 := by
    intro obs
    induction obs with
    | nil => exact fun acc _ hacc => hacc
    | cons k rest ih =>
      intro acc hmem hacc
      exact ih _ (fun k' hk' => hmem k' (mem_cons_of_mem _ hk'))
        (hstep acc k (hmem k mem_cons_self) hacc)
  exact hall o.observed (keys, changed) (fun _ hk => hk) h

lemma update_keys (h : m.accepts env o = true) :
    (m.update env o).1.keys =
      (((o.observed.foldl (observe env m.zone o) (m.keys, false)).1.map
        (promote m.holdDownSecs o.now)).filter (stays o)) := by
  unfold update
  rw [h]
  rfl

lemma update_of_not_accepts (h : m.accepts env o = false) : (m.update env o).1 = m := by
  unfold update
  rw [h]
  rfl

lemma update_zone (m : AnchorManager) (env : Env) (o : Observation) :
    (m.update env o).1.zone = m.zone := by
  unfold update
  split <;> rfl

lemma update_holdDownSecs (m : AnchorManager) (env : Env) (o : Observation) :
    (m.update env o).1.holdDownSecs = m.holdDownSecs := by
  unfold update
  split <;> rfl

/-- Two keys that the manager takes for one. -/
def SameKey (a b : Dnskey) : Prop := a.keyTag = b.keyTag ∧ a.publicKey = b.publicKey

lemma isEntryOf_iff {k : ManagedKey} {b : Dnskey} :
    isEntryOf b.keyTag b.publicKey k = true ↔ SameKey k.key b := by
  simp only [isEntryOf, SameKey, Bool.and_eq_true, beq_iff_eq]

/-- The set holds the key, and not revoked. -/
def Present (k : Dnskey) (o : Observation) : Prop :=
  ∃ obs ∈ o.observed, obs.isRevoked = false ∧ SameKey k obs

/-- The manager cannot tell that the key is not there: another key has its tag, or it was
there in a set of the same second. -/
def Hidden (k : Dnskey) (span : List Observation) (o : Observation) : Prop :=
  (∃ other ∈ o.observed, other.keyTag = k.keyTag) ∨ ∃ o' ∈ span, o'.now = o.now ∧ Present k o'

/-- A key that was there in a row of sets, from a first one on. -/
structure Span (k : Dnskey) (since : ℕ) (span : List Observation) : Prop where
  first : ∃ o, span.head? = some o ∧ o.now = since ∧ Present k o
  all : ∀ o ∈ span, Present k o ∨ Hidden k span o

variable {k : Dnskey} {span : List Observation}

lemma Span.snoc {since : ℕ}
    (h : Span k since span) (ho : Present k o ∨ Hidden k span o) : Span k since (span ++ [o]) where
  first := by
    obtain ⟨first, hhead, hfirst⟩ := h.first
    refine ⟨first, ?_, hfirst⟩
    rw [head?_append, hhead]
    rfl
  all o' ho' := by
    have hmore : ∀ o', Hidden k span o' → Hidden k (span ++ [o]) o' := by
      rintro o' (htag | ⟨o'', ho'', hsecond⟩)
      · exact .inl htag
      · exact .inr ⟨o'', mem_append.mpr (.inl ho''), hsecond⟩
    rcases mem_append.mp ho' with hold | hnew
    · exact (h.all o' hold).imp_right (hmore o')
    · rw [mem_singleton.mp hnew]
      exact ho.imp_right (hmore o)

/-- A pending key was there in the last sets that were processed. -/
structure Pending (hist : List Observation) (k : Dnskey) (since lastSeen : ℕ)
    (span : List Observation) : Prop extends Span k since span where
  suffix : span <:+ hist
  seen : ∃ o ∈ span, o.now = lastSeen ∧ Present k o

/-- The key was there in a row of sets over the hold-down time. -/
def HeldDown (holdDownSecs : ℕ) (hist : List Observation) (k : Dnskey) : Prop :=
  ∃ since span last, Span k since span ∧ span <:+: hist ∧ span.getLast? = some last ∧
    holdDownSecs ≤ last.now - since

lemma HeldDown.mono {holdDownSecs : ℕ} {hist : List Observation}
    (h : HeldDown holdDownSecs hist k) (o : Observation) :
    HeldDown holdDownSecs (hist ++ [o]) k := by
  obtain ⟨since, span, last, hspan, hpart, hlast⟩ := h
  exact ⟨since, span, last, hspan, hpart.trans (prefix_append hist [o]).isInfix, hlast⟩

section Pending

variable {hist : List Observation} {k : Dnskey} {since lastSeen : ℕ} {span : List Observation}
  {o : Observation}

lemma pending_new (h : Present k o) : Pending (hist ++ [o]) k o.now o.now [o] where
  first := ⟨o, rfl, rfl, h⟩
  all _ ho' := .inl (mem_singleton.mp ho' ▸ h)
  suffix := suffix_append hist [o]
  seen := ⟨o, mem_singleton_self o, rfl, h⟩

lemma Pending.snoc (h : Pending hist k since lastSeen span) (ho : Present k o ∨ Hidden k span o) :
    Pending (hist ++ [o]) k since lastSeen (span ++ [o]) where
  toSpan := h.toSpan.snoc ho
  suffix := suffix_append_self_iff.mpr h.suffix
  seen := by
    obtain ⟨o', ho', hseen⟩ := h.seen
    exact ⟨o', mem_append.mpr (.inl ho'), hseen⟩

lemma Pending.seenAgain (h : Pending hist k since lastSeen span) (ho : Present k o) :
    Pending (hist ++ [o]) k since o.now (span ++ [o]) :=
  { h.snoc (.inl ho) with
    seen := ⟨o, mem_append.mpr (.inr (mem_singleton_self o)), rfl, ho⟩ }

end Pending

/-- Where the trust in an entry comes from. -/
def Sound (initial : List Dnskey) (holdDownSecs : ℕ) (hist : List Observation)
    (e : ManagedKey) : Prop :=
  (e.state = .valid → e.key ∈ initial ∨ HeldDown holdDownSecs hist e.key) ∧
    ∀ since, e.state = .addPend since → ∃ span, Pending hist e.key since e.lastSeen span

section Sound

variable {initial : List Dnskey} {holdDownSecs : ℕ} {hist : List Observation} {env : Env}
  {zone : Name} {o : Observation} {e : ManagedKey}

/-- While the keys of a set are taken one by one, an entry is as before or was seen. -/
def Halfway (initial : List Dnskey) (holdDownSecs : ℕ) (hist : List Observation)
    (o : Observation) (e : ManagedKey) : Prop :=
  Sound initial holdDownSecs hist e ∨
    (e.lastSeen = o.now ∧ Sound initial holdDownSecs (hist ++ [o]) e)

lemma Halfway.seenAgain (h : Halfway initial holdDownSecs hist o e) (ho : Present e.key o) :
    Halfway initial holdDownSecs hist o (seenAgain o e) := by
  refine .inr ⟨seenAgain_lastSeen o e, ?_, ?_⟩
  · intro hvalid
    rw [seenAgain_key]
    rcases seenAgain_state o e with hsame | ⟨-, hpend⟩
    · rw [hsame] at hvalid
      rcases h with ⟨hold, -⟩ | ⟨-, hnew, -⟩
      · exact (hold hvalid).imp_right fun hheld => hheld.mono o
      · exact hnew hvalid
    · rw [hpend] at hvalid
      cases hvalid
  intro since hstate
  rw [seenAgain_key, seenAgain_lastSeen]
  rcases seenAgain_state o e with hsame | ⟨-, hpend⟩
  · rw [hsame] at hstate
    rcases h with ⟨-, hold⟩ | ⟨hnow, -, hnew⟩
    · obtain ⟨span, hspan⟩ := hold since hstate
      exact ⟨_, hspan.seenAgain ho⟩
    · rw [← hnow]
      exact hnew since hstate
  · rw [hpend] at hstate
    cases hstate
    exact ⟨_, pending_new ho⟩

lemma halfway_observe {acc : List ManagedKey × Bool} {obs : Dnskey} (hobs : obs ∈ o.observed)
    (h : ∀ e ∈ acc.1, Halfway initial holdDownSecs hist o e) :
    ∀ e ∈ (observe env zone o acc obs).1, Halfway initial holdDownSecs hist o e := by
  intro e he
  rcases mem_observe he with hold | ⟨k, hk, rfl⟩ | ⟨hplain, k, hk, hit, rfl⟩ | ⟨hplain, -, rfl⟩
  · exact h e hold
  · exact .inl ⟨nofun, nofun⟩
  · exact (h k hk).seenAgain ⟨obs, hobs, hplain, isEntryOf_iff.mp hit⟩
  · refine .inr ⟨rfl, nofun, fun since hstate => ?_⟩
    cases hstate
    exact ⟨_, pending_new ⟨obs, hobs, hplain, rfl, rfl⟩⟩

lemma Pending.kept {since lastSeen : ℕ}
    (h : Pending hist k since lastSeen span)
    (hkept : (∃ other ∈ o.observed, other.keyTag = k.keyTag) ∨ lastSeen = o.now) :
    Pending (hist ++ [o]) k since lastSeen (span ++ [o]) := by
  refine h.snoc (.inr ?_)
  rcases hkept with htag | hnow
  · exact .inl htag
  · obtain ⟨o', ho', hlast, hpresent⟩ := h.seen
    exact .inr ⟨o', ho', hlast.trans hnow, hpresent⟩

lemma Pending.heldDown {since lastSeen : ℕ}
    (h : Pending (hist ++ [o]) k since lastSeen span) (hdue : holdDownSecs ≤ o.now - since) :
    HeldDown holdDownSecs (hist ++ [o]) k := by
  refine ⟨since, span, o, h.toSpan, h.suffix.isInfix, ?_, hdue⟩
  obtain ⟨o', ho', -⟩ := h.seen
  rcases suffix_concat_iff.mp h.suffix with rfl | ⟨init, rfl, -⟩
  · exact absurd ho' not_mem_nil
  · exact getLast?_concat

/-- Whatever comes out of an update is sound. -/
theorem sound_kept (h : Halfway initial holdDownSecs hist o e)
    (hstays : stays o (promote holdDownSecs o.now e) = true) :
    Sound initial holdDownSecs (hist ++ [o]) (promote holdDownSecs o.now e) := by
  have hpending : ∀ since, e.state = .addPend since →
      ((∃ other ∈ o.observed, other.keyTag = e.key.keyTag) ∨ e.lastSeen = o.now) →
      ∃ span, Pending (hist ++ [o]) e.key since e.lastSeen span := by
    intro since hstate hkept
    rcases h with ⟨-, hold⟩ | ⟨-, -, hnew⟩
    · obtain ⟨span, hspan⟩ := hold since hstate
      exact ⟨_, hspan.kept hkept⟩
    · exact hnew since hstate
  unfold promote at hstays ⊢
  split
  · rename_i hdue
    unfold isDue at hdue
    split at hdue
    · rename_i since hstate
      simp only [Bool.and_eq_true, beq_iff_eq, decide_eq_true_eq] at hdue
      obtain ⟨span, hspan⟩ := hpending since hstate (.inr hdue.1)
      exact ⟨fun _ => .inr (hspan.heldDown hdue.2), nofun⟩
    · cases hdue
  rename_i hdue
  rw [if_neg hdue] at hstays
  refine ⟨fun hvalid => ?_, fun since hstate => hpending since hstate ?_⟩
  · rcases h with ⟨hold, -⟩ | ⟨-, hnew, -⟩
    · exact (hold hvalid).imp_right fun hheld => hheld.mono o
    · exact hnew hvalid
  · simp only [stays, hstate, Bool.or_eq_true, beq_iff_eq, contains_iff_mem,
      mem_map, reduceCtorEq, false_or] at hstays
    exact hstays

lemma sound_update {m : AnchorManager} (haccepts : m.accepts env o = true)
    (h : ∀ e ∈ m.keys, Sound initial m.holdDownSecs hist e) :
    ∀ e ∈ (m.update env o).1.keys, Sound initial m.holdDownSecs (hist ++ [o]) e := by
  intro e he
  rw [update_keys haccepts] at he
  obtain ⟨hmem, hstays⟩ := mem_filter.mp he
  obtain ⟨k, hk, rfl⟩ := mem_map.mp hmem
  have hhalf : ∀ e ∈ (o.observed.foldl (observe env m.zone o) (m.keys, false)).1,
      Halfway initial m.holdDownSecs hist o e :=
    foldl_observe (P := fun keys => ∀ e ∈ keys, Halfway initial m.holdDownSecs hist o e)
      (fun acc obs hobs hacc => halfway_observe hobs hacc) fun e he => .inl (h e he)
  exact sound_kept (hhalf k hk) hstays

end Sound

lemma sound_run (env : Env) {initial : List Dnskey} {hist : List Observation}
    (h : ∀ e ∈ m.keys, Sound initial m.holdDownSecs hist e) (os : List Observation) :
    ∀ e ∈ (m.run env os).keys, Sound initial m.holdDownSecs (hist ++ processed env m os) e := by
  induction os generalizing m hist with
  | nil => simpa [processed, run] using h
  | cons o rest ih =>
    have hstep : ∀ e ∈ (m.update env o).1.keys,
        Sound initial m.holdDownSecs (hist ++ if m.accepts env o then [o] else []) e := by
      split
      · rename_i haccepts
        exact sound_update haccepts h
      · rename_i haccepts
        rw [update_of_not_accepts (by simpa using haccepts), append_nil]
        exact h
    have hrest := ih (m := (m.update env o).1) (by rwa [update_holdDownSecs])
    rw [update_holdDownSecs, append_assoc] at hrest
    exact hrest

/-- No two entries are for one key. -/
def Distinct (keys : List ManagedKey) : Prop :=
  (keys.map ManagedKey.key).Pairwise fun a b => ¬SameKey a b

def HasEntry (keys : List ManagedKey) (k : Dnskey) : Prop := ∃ e ∈ keys, SameKey e.key k

/-- The manager has an entry for the key, and all it has say that it is revoked. -/
structure Gone (keys : List ManagedKey) (k : Dnskey) : Prop where
  known : HasEntry keys k
  revoked : ∀ e ∈ keys, SameKey e.key k → e.state = .revoked

section Revocation

variable {env : Env} {zone : Name} {o : Observation} {acc : List ManagedKey × Bool} {obs k : Dnskey}

lemma SameKey.symm {a b : Dnskey} (h : SameKey a b) : SameKey b a := ⟨h.1.symm, h.2.symm⟩

lemma SameKey.trans {a b c : Dnskey} (h : SameKey a b) (h' : SameKey b c) : SameKey a c :=
  ⟨h.1.trans h'.1, h.2.trans h'.2⟩

lemma map_changeFirst {p : ManagedKey → Bool} {f : ManagedKey → ManagedKey}
    (hf : ∀ e, (f e).key = e.key) (keys : List ManagedKey) :
    (changeFirst p f keys).map ManagedKey.key = keys.map ManagedKey.key := by
  induction keys with
  | nil => rfl
  | cons e rest ih =>
    unfold changeFirst
    split
    · rw [map_cons, map_cons, hf]
    · rw [map_cons, map_cons, ih]

/-- The keys that have an entry: only a new one is added. -/
theorem observe_map (env : Env) (zone : Name) (o : Observation) (acc : List ManagedKey × Bool) (obs : Dnskey) :
    (observe env zone o acc obs).1.map ManagedKey.key = acc.1.map ManagedKey.key ∨
      (∀ e ∈ acc.1, ¬SameKey e.key obs) ∧
        (observe env zone o acc obs).1.map ManagedKey.key = acc.1.map ManagedKey.key ++ [obs] := by
  obtain ⟨keys, changed⟩ := acc
  unfold observe
  simp only
  split
  · split
    · exact .inl rfl
    split
    · exact .inl rfl
    · split
      · exact .inl rfl
      · exact .inl (map_changeFirst (f := fun k => { k with state := .revoked, lastSeen := o.now })
          (fun _ => rfl) keys)
  · split
    · exact .inl (map_changeFirst (seenAgain_key o) keys)
    · rename_i hnone
      refine .inr ⟨fun e he hsame => ?_, map_append⟩
      exact absurd (isEntryOf_iff.mpr hsame) (find?_eq_none.mp hnone e he)

lemma Distinct.observe (h : Distinct acc.1) (env : Env) (zone : Name) (o : Observation)
    (obs : Dnskey) : Distinct (observe env zone o acc obs).1 := by
  unfold Distinct
  rcases observe_map env zone o acc obs with hsame | ⟨hnew, happend⟩
  · rw [hsame]
    exact h
  rw [happend, pairwise_append]
  refine ⟨h, pairwise_singleton _ _, fun a ha b hb => ?_⟩
  obtain ⟨e, he, rfl⟩ := mem_map.mp ha
  rw [mem_singleton.mp hb]
  exact hnew e he

lemma HasEntry.observe (h : HasEntry acc.1 k) (obs : Dnskey) :
    HasEntry (observe env zone o acc obs).1 k := by
  obtain ⟨e, he, hsame⟩ := h
  rcases observe_keeps env zone o obs he with
    hold | ⟨-, -, -, hnew⟩ | hnew
  · exact ⟨e, hold, hsame⟩
  · exact ⟨_, hnew, hsame⟩
  · exact ⟨_, hnew, by rwa [seenAgain_key]⟩

/-- No key of a set brings a revoked key back. -/
theorem Gone.observe (h : Gone acc.1 k) (obs : Dnskey) : Gone (observe env zone o acc obs).1 k := by
  refine ⟨h.known.observe obs, fun e he hsame => ?_⟩
  rcases mem_observe he with hold | ⟨e', -, rfl⟩ | ⟨-, e', he', -, rfl⟩ | ⟨-, hnew, rfl⟩
  · exact h.revoked e hold hsame
  · rfl
  · rw [seenAgain_key] at hsame
    have hrevoked := h.revoked e' he' hsame
    rcases seenAgain_state o e' with hstate | ⟨⟨since, hpend⟩, -⟩
    · rw [hstate, hrevoked]
    · rw [hpend] at hrevoked
      cases hrevoked
  · -- the key has an entry, so it is not taken for a new one
    obtain ⟨e', he', hknown⟩ := h.known
    have hnot := hnew e' he'
    rw [isEntryOf_iff.mpr (hknown.trans hsame.symm)] at hnot
    cases hnot

variable {e : ManagedKey}

lemma Distinct.unique (h : Distinct keys) {e' : ManagedKey}
    (he : e ∈ keys) (he' : e' ∈ keys) (hsame : SameKey e.key e'.key) : e = e' := by
  by_contra hne
  have hpair : keys.Pairwise fun a b => ¬SameKey a.key b.key := pairwise_map.mp h
  have hsymm : Std.Symm fun a b : ManagedKey => ¬SameKey a.key b.key :=
    ⟨fun a b hab hba => hab hba.symm⟩
  exact hpair.forall he he' hne hsame

/-- A key that signs its own revocation is gone. -/
theorem observe_revokes (hdistinct : Distinct acc.1) (hrevoked : obs.isRevoked = true)
    (hsigned : selfSigned env zone o obs = true) (hknown : HasEntry acc.1 (baseKey obs)) :
    Gone (observe env zone o acc obs).1 (baseKey obs) := by
  have hafter := hdistinct.observe env zone o obs
  obtain ⟨e', he', hsame', hstate'⟩ : ∃ e' ∈ (observe env zone o acc obs).1,
      SameKey e'.key (baseKey obs) ∧ e'.state = .revoked := by
    obtain ⟨e₀, he₀, hsame₀⟩ := hknown
    unfold observe
    simp only [if_pos hrevoked, hsigned, Bool.not_true, Bool.false_eq_true, if_false]
    split
    · rename_i hnone
      exact absurd (isEntryOf_iff.mpr hsame₀) (find?_eq_none.mp hnone e₀ he₀)
    rename_i k hfind
    have hk := mem_of_find?_eq_some hfind
    have hit : SameKey k.key (baseKey obs) := isEntryOf_iff.mp (find?_some hfind)
    split
    · rename_i hstate
      exact ⟨k, hk, hit, hstate⟩
    · refine ⟨{ k with state := .revoked, lastSeen := o.now }, ?_, hit, rfl⟩
      exact changeFirst_find hfind
  refine ⟨⟨e', he', hsame'⟩, fun e he hsame => ?_⟩
  rw [hafter.unique he he' (hsame.trans hsame'.symm)]
  exact hstate'

lemma promote_key (holdDownSecs now : ℕ) (e : ManagedKey) :
    (promote holdDownSecs now e).key = e.key := by
  unfold promote
  split <;> rfl

lemma promote_state {holdDownSecs now : ℕ}
    (h : ∀ since, e.state ≠ .addPend since) : promote holdDownSecs now e = e := by
  have hnot : isDue holdDownSecs now e = false := by
    unfold isDue
    split
    · rename_i since hstate
      exact absurd hstate (h since)
    · rfl
  rw [promote, hnot]
  rfl

variable {m : AnchorManager}

lemma Distinct.update (h : Distinct m.keys) (env : Env) (o : Observation) :
    Distinct (m.update env o).1.keys := by
  cases haccepts : m.accepts env o with
  | false =>
    rw [update_of_not_accepts haccepts]
    exact h
  | true =>
    have hobserved : Distinct (o.observed.foldl (AnchorManager.observe env m.zone o) (m.keys, false)).1 :=
      foldl_observe (P := Distinct) (fun acc obs _ hacc => hacc.observe env m.zone o obs) h
    have hpromoted : Distinct ((o.observed.foldl (AnchorManager.observe env m.zone o) (m.keys, false)).1.map
        (promote m.holdDownSecs o.now)) := by
      unfold Distinct at hobserved ⊢
      rw [map_map]
      simpa only [Function.comp_def, promote_key] using hobserved
    rw [update_keys haccepts]
    exact hpromoted.sublist (filter_sublist.map _)

lemma Gone.kept {holdDownSecs : ℕ} (h : Gone keys k)
    (hknown : HasEntry ((keys.map (promote holdDownSecs o.now)).filter (stays o)) k) :
    Gone ((keys.map (promote holdDownSecs o.now)).filter (stays o)) k := by
  refine ⟨hknown, fun e he hsame => ?_⟩
  obtain ⟨e', he', rfl⟩ := mem_map.mp (mem_filter.mp he).1
  rw [promote_key] at hsame
  have hrevoked := h.revoked e' he' hsame
  rw [promote_state (by rw [hrevoked]; exact nofun), hrevoked]

lemma Gone.update (h : Gone m.keys k) (hknown : HasEntry (m.update env o).1.keys k) :
    Gone (m.update env o).1.keys k := by
  cases haccepts : m.accepts env o with
  | false =>
    rw [update_of_not_accepts haccepts]
    exact h
  | true =>
    rw [update_keys haccepts] at hknown ⊢
    refine kept (foldl_observe (P := fun keys => Gone keys k) ?_ h) hknown
    exact fun acc obs _ hacc => hacc.observe obs

lemma update_revokes (hdistinct : Distinct m.keys) (haccepts : m.accepts env o = true)
    (hobs : obs ∈ o.observed) (hrevoked : obs.isRevoked = true)
    (hsigned : selfSigned env m.zone o obs = true) (hknown : HasEntry m.keys (baseKey obs))
    (hkept : HasEntry (m.update env o).1.keys (baseKey obs)) :
    Gone (m.update env o).1.keys (baseKey obs) := by
  rw [update_keys haccepts] at hkept ⊢
  refine .kept ?_ hkept
  obtain ⟨before, after, hsplit⟩ := append_of_mem hobs
  have hbefore : ∀ (l : List Dnskey) (acc : List ManagedKey × Bool), Distinct acc.1 →
      HasEntry acc.1 (baseKey obs) →
      Distinct (l.foldl (observe env m.zone o) acc).1 ∧
        HasEntry (l.foldl (observe env m.zone o) acc).1 (baseKey obs) := by
    intro l
    induction l with
    | nil => exact fun acc hd hk => ⟨hd, hk⟩
    | cons a rest ih => exact fun acc hd hk => ih _ (hd.observe env m.zone o a) (hk.observe a)
  have hafter : ∀ (l : List Dnskey) (acc : List ManagedKey × Bool), Gone acc.1 (baseKey obs) →
      Gone (l.foldl (observe env m.zone o) acc).1 (baseKey obs) := by
    intro l
    induction l with
    | nil => exact fun acc hg => hg
    | cons a rest ih => exact fun acc hg => ih _ (hg.observe a)
  obtain ⟨hd, hk⟩ := hbefore before (m.keys, false) hdistinct hknown
  rw [hsplit, foldl_append]
  exact hafter after _ (observe_revokes hd hrevoked hsigned hk)

lemma Distinct.run (h : Distinct m.keys) (env : Env) (os : List Observation) :
    Distinct (m.run env os).keys := by
  induction os generalizing m with
  | nil => exact h
  | cons o rest ih => exact ih (h.update env o)

lemma Gone.run (h : Gone m.keys k) {os : List Observation}
    (hkept : ∀ n ≤ os.length, HasEntry (m.run env (os.take n)).keys k) :
    Gone (m.run env os).keys k := by
  induction os generalizing m with
  | nil => exact h
  | cons o rest ih =>
    refine ih (h.update (hkept 1 (by simp))) fun n hn => ?_
    exact hkept (n + 1) (by simpa using hn)

/-- The set holds the key with its revocation bit, signed by the key itself. -/
def RevokedBy (env : Env) (zone : Name) (o : Observation) (k : Dnskey) : Prop :=
  ∃ obs ∈ o.observed, obs.isRevoked = true ∧ SameKey k (baseKey obs) ∧
    selfSigned env zone o obs = true

lemma trusted_update (env : Env) (o : Observation) (he : e ∈ m.keys) (hvalid : e.state = .valid) :
    (∃ e' ∈ (m.update env o).1.keys, e'.key = e.key ∧ e'.state = .valid) ∨
      RevokedBy env m.zone o e.key := by
  cases haccepts : m.accepts env o with
  | false =>
    rw [update_of_not_accepts haccepts]
    exact .inl ⟨e, he, rfl, hvalid⟩
  | true =>
    rw [update_keys haccepts]
    have hobserved : (∃ e' ∈ (o.observed.foldl (observe env m.zone o) (m.keys, false)).1,
        e'.key = e.key ∧ e'.state = .valid) ∨ RevokedBy env m.zone o e.key := by
      refine foldl_observe (P := fun keys => (∃ e' ∈ keys, e'.key = e.key ∧ e'.state = .valid) ∨
        RevokedBy env m.zone o e.key) ?_ (.inl ⟨e, he, rfl, hvalid⟩)
      rintro acc obs hobs (⟨e', he', hkey, hstate⟩ | hgone)
      · rcases observe_keeps env m.zone o obs he' with
          hold | ⟨hrevoked, hsigned, hit, -⟩ | hnew
        · exact .inl ⟨e', hold, hkey, hstate⟩
        · have hsame : SameKey e'.key (baseKey obs) := isEntryOf_iff.mp hit
          rw [hkey] at hsame
          exact .inr ⟨obs, hobs, hrevoked, hsame, hsigned⟩
        refine .inl ⟨_, hnew, (seenAgain_key o e').trans hkey, ?_⟩
        rcases seenAgain_state o e' with hsame | ⟨⟨since, hpend⟩, -⟩
        · rw [hsame, hstate]
        · rw [hstate] at hpend
          cases hpend
      · exact .inr hgone
    rcases hobserved with ⟨e', he', hkey, hstate⟩ | hgone
    · refine .inl ⟨e', mem_filter.mpr ⟨mem_map.mpr ⟨e', he', ?_⟩, ?_⟩, hkey, hstate⟩
      · exact promote_state (by rw [hstate]; exact nofun)
      · simp [stays, hstate]
    · exact .inr hgone

/-- Nothing changes without a signature of a trusted key. -/
theorem update_signed (h : (m.update env o).1.validKeys ≠ m.validKeys) :
    ∃ k ∈ m.validKeys, ∃ sig ∈ o.rrsigs, SignedBy env o.dnskeys m.zone sig k := by
  cases haccepts : m.accepts env o with
  | false => exact absurd (congrArg validKeys (update_of_not_accepts haccepts)) h
  | true =>
    unfold accepts at haccepts
    have hok : validateRrsetInZone env o.dnskeys o.rrsigs m.validKeys m.zone o.now32 = .ok () := by
      cases hresult : validateRrsetInZone env o.dnskeys o.rrsigs m.validKeys m.zone o.now32 with
      | error e => simp [hresult] at haccepts
      | ok u => rfl
    obtain ⟨sig, hsig, k, hk, hsigned⟩ := validateRrsetInZone_sound hok
    exact ⟨k, hk, sig, hsig, hsigned⟩

end Revocation

lemma run_zone (m : AnchorManager) (env : Env) (os : List Observation) :
    (m.run env os).zone = m.zone := by
  induction os generalizing m with
  | nil => rfl
  | cons o rest ih => exact (ih _).trans (update_zone m env o)

/-- What holds of the manager that a run from configured keys leads to. -/
structure Lifecycle (env : Env) (zone : Name) (initial : List Dnskey) (hist : List Observation)
    (m : AnchorManager) : Prop where
  /-- A key that was not configured is trusted only after its hold-down time. -/
  added : ∀ e ∈ m.keys, e.state = .valid → e.key ∉ initial → HeldDown defaultHoldDownSecs hist e.key
  /-- A key that signs its own revocation is not trusted again while it has an entry. -/
  revoked : (initial.Pairwise fun a b => ¬SameKey a b) → ∀ o, m.accepts env o = true →
    ∀ obs ∈ o.observed, obs.isRevoked = true → selfSigned env zone o obs = true →
    HasEntry m.keys (baseKey obs) → ∀ later : List Observation,
    (∀ n ≤ later.length, HasEntry ((m.update env o).1.run env (later.take n)).keys (baseKey obs)) →
    ∀ e ∈ ((m.update env o).1.run env later).keys, SameKey e.key (baseKey obs) → e.state = .revoked
  /-- A trusted key stays trusted unless it revokes itself. -/
  left : ∀ o, ∀ e ∈ m.keys, e.state = .valid →
    (∃ e' ∈ (m.update env o).1.keys, e'.key = e.key ∧ e'.state = .valid) ∨
      RevokedBy env zone o e.key
  /-- A set that no trusted key has signed changes nothing. -/
  signed : ∀ o, (m.update env o).1.validKeys ≠ m.validKeys →
    ∃ k ∈ m.validKeys, ∃ sig ∈ o.rrsigs, SignedBy env o.dnskeys zone sig k

theorem anchor_lifecycle (env : Env) (zone : Name) (initial : List Dnskey) (start : ℕ)
    (os : List Observation) :
    Lifecycle env zone initial (processed env (bootstrap zone initial start) os)
      ((bootstrap zone initial start).run env os) := by
  have hzone : ((bootstrap zone initial start).run env os).zone = zone := run_zone _ _ _
  refine ⟨fun e he hvalid hnew => ?_, ?_, fun o e he hvalid => ?_, fun o hchange => ?_⟩
  · have hstart : ∀ e ∈ (bootstrap zone initial start).keys,
        Sound initial (bootstrap zone initial start).holdDownSecs [] e := by
      intro e he
      obtain ⟨k, hk, rfl⟩ := mem_map.mp he
      exact ⟨fun _ => .inl hk, nofun⟩
    exact ((sound_run env hstart os e he).1 hvalid).resolve_left hnew
  · intro hinitial o haccepts obs hobs hrevoked hsigned hknown later hkept e he hsame
    have hdistinct : Distinct (bootstrap zone initial start).keys := by
      unfold Distinct bootstrap
      rwa [map_map, Function.comp_def, map_id']
    rw [← hzone] at hsigned
    have hgone := update_revokes (hdistinct.run env os) haccepts hobs hrevoked hsigned hknown
      (hkept 0 (Nat.zero_le _))
    exact (hgone.run hkept).revoked e he hsame
  · have hleft := trusted_update env o he hvalid
    rwa [hzone] at hleft
  · have hsigned := update_signed hchange
    rwa [hzone] at hsigned

/-- A scheme in which the signature is the public key and the data. -/
def plainEnv : Env := ⟨fun _ publicKey data signature => signature == publicKey ++ data,
  fun _ data => data, false⟩

def keySigning : Dnskey := ⟨257, 3, 15, [1]⟩
def zoneSigning : Dnskey := ⟨256, 3, 15, [2]⟩

/-- Another key with the tag of `zoneSigning`. -/
def twin : Dnskey := ⟨256, 3, 15, [1, 0, 1]⟩

def dnskeyRecord (k : Dnskey) : Record :=
  ⟨Name.root, .DNSKEY, 1, 2592000, .unknown .DNSKEY k.rdataBytes⟩

def rootKeys (others : List Dnskey) (now : ℕ) : Observation :=
  let dnskeys := (keySigning :: others).map dnskeyRecord
  let sig : Rrsig := ⟨.DNSKEY, 15, 0, 2592000, 4000000, 0, keySigning.keyTag, Name.root, []⟩
  ⟨dnskeys, [{ sig with signature := keySigning.publicKey ++ signedData sig dnskeys }], now⟩

/-- The key is in every set over the hold-down time. -/
def Throughout (os : List Observation) (k : Dnskey) : Prop :=
  ∃ first ∈ os, ∃ last ∈ os, defaultHoldDownSecs ≤ last.now - first.now ∧
    ∀ o ∈ os, first.now ≤ o.now → o.now ≤ last.now → Present k o

instance (os : List Observation) (k : Dnskey) : Decidable (Throughout os k) := by
  delta Throughout Present SameKey
  infer_instance

def around (o : Observation) : List Observation :=
  [rootKeys [zoneSigning] 0, o, rootKeys [zoneSigning] 2592000]

/-- The manager does not look at the SEP bit: the zone-signing key becomes an anchor too. It may be
missing from a set that has its tag, and from one of the same second. -/
theorem zoneSigning_trusted :
    (¬∀ (env : Env) (zone : Name) (initial : List Dnskey) (start : ℕ) (os : List Observation),
      (os.Pairwise fun o o' => o.now ≤ o'.now) →
      ∀ e ∈ ((bootstrap zone initial start).run env os).keys, e.state = .valid →
        e.key ∉ initial → e.key.isSep = true ∧ e.key.isZoneKey = true) ∧
    ∀ o ∈ [rootKeys [twin] 1, rootKeys [] 0],
      ¬∀ e ∈ ((bootstrap .root [keySigning] 0).run plainEnv (around o)).keys, e.state = .valid →
        e.key ∉ [keySigning] → Throughout (around o) e.key := by
  constructor
  · intro h
    have hsep := (h plainEnv .root [keySigning] 0
      [rootKeys [zoneSigning] 0, rootKeys [zoneSigning] 2592000] (by decide +kernel)
      ⟨zoneSigning, .valid, 2592000⟩ (by decide +kernel) rfl (by decide +kernel)).1
    exact absurd hsep (by decide)
  · decide +kernel

end AnchorManager

end OnetDns.Dnssec.Anchor
