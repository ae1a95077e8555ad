import OnetDns.Lib.Quorum
import OnetDns.Lib.TermLog

/-!
# Replicated logs by majority vote

An abstract protocol over any type of nodes and stamped entries. Each node has
a copy of its term, vote and log in memory and one on disk; beside them the
state keeps the history that the argument is about: who bid for which term and
with which log, who voted for whom and with which log, who won, what the winner
wrote, and how much of it each node has acknowledged.

`Step M strict v` is one step of node `v` among the members `M`. A vote has to
go to a candidate that is up to date only when `strict` holds.
-/
namespace OnetDns.Consensus
open TermLog Quorum List Option Function

/-- One copy of a node's own state. -/
structure Replica (ν ε : Type*) where
  term : ℕ
  vote : Option ν
  log : List ε

/-- How a term was won: by whom, with whose votes, and with which log. -/
structure Election (ν ε : Type*) where
  leader : ν
  electors : Finset ν
  base : List ε

structure State (ν ε : Type*) where
  mem : ν → Replica ν ε
  disk : ν → Replica ν ε
  /-- the log of the winner of each term -/
  termLog : ℕ → List ε
  election : ℕ → Option (Election ν ε)
  /-- the log each node stood for election with -/
  bid : ℕ → ν → Option (List ε)
  /-- the vote each node gave away, and its own log at that moment -/
  ballot : ℕ → ν → Option (ν × List ε)
  /-- how much of the term log each node has acknowledged -/
  acked : ℕ → ν → ℕ
  /-- terms whose winner will not lead any more -/
  retired : ℕ → Prop

open State

namespace State

variable {ν ε : Type*} [DecidableEq ν]

variable (s : State ν ε)

def setMem (v : ν) (r : Replica ν ε) : State ν ε := { s with mem := Function.update s.mem v r }

def setDisk (v : ν) (r : Replica ν ε) : State ν ε := { s with disk := Function.update s.disk v r }

variable (t : ℕ)

def setBid (v : ν) (b : List ε) : State ν ε :=
  { s with bid := fun u w => if u = t ∧ w = v then some b else s.bid u w }

def setBallot (v c : ν) (ℓ : List ε) : State ν ε :=
  { s with ballot := fun u w => if u = t ∧ w = v then some (c, ℓ) else s.ballot u w }

def setAcked (v : ν) (i : ℕ) : State ν ε :=
  { s with acked := fun u w => if u = t ∧ w = v then max (s.acked u w) i else s.acked u w }

/-- The leader writes: the term log and its own memory grow together. -/
def write (v : ν) (ℓ : List ε) : State ν ε :=
  { s with termLog := Function.update s.termLog t ℓ,
           mem := Function.update s.mem v { s.mem v with log := ℓ } }

def setElection (e : Election ν ε) : State ν ε :=
  { s with election := Function.update s.election t (some e) }

def retire : State ν ε := { s with retired := fun u => u = t ∨ s.retired u }

variable (s : State ν ε)

@[simp] lemma setMem_mem (v : ν) (r : Replica ν ε) : (s.setMem v r).mem v = r := by
  simp [setMem]

@[simp] lemma setDisk_disk (v : ν) (r : Replica ν ε) : (s.setDisk v r).disk v = r := by
  simp [setDisk]

variable (t : ℕ)

@[simp] lemma setBid_bid (v : ν) (b : List ε) : (s.setBid t v b).bid t v = some b := by
  simp [setBid]

@[simp] lemma setBallot_ballot (v c : ν) (ℓ : List ε) :
    (s.setBallot t v c ℓ).ballot t v = some (c, ℓ) := by
  simp [setBallot]

lemma le_setAcked (v : ν) (i : ℕ) : i ≤ (s.setAcked t v i).acked t v := by
  simp [setAcked]

@[simp] lemma write_mem (v : ν) (ℓ : List ε) :
    (s.write t v ℓ).mem v = { s.mem v with log := ℓ } := by
  simp [write]

@[simp] lemma write_termLog (v : ν) (ℓ : List ε) : (s.write t v ℓ).termLog t = ℓ := by
  simp [write]

omit [DecidableEq ν] in
@[simp] lemma setElection_election (e : Election ν ε) :
    (s.setElection t e).election t = some e := by
  simp [setElection]

end State

variable {ν ε : Type*}

structure Le (s s' : State ν ε) : Prop where
  termLog : ∀ t, s.termLog t <+: s'.termLog t
  election : ∀ t w, s.election t = some w → s'.election t = some w
  bid : ∀ t v b, s.bid t v = some b → s'.bid t v = some b
  ballot : ∀ t v x, s.ballot t v = some x → s'.ballot t v = some x
  acked : ∀ t v, s.acked t v ≤ s'.acked t v
  retired : ∀ t, s.retired t → s'.retired t

lemma Le.refl (s : State ν ε) : Le s s :=
  ⟨fun _ => prefix_rfl, fun _ _ h => h, fun _ _ _ h => h, fun _ _ _ h => h,
    fun _ _ => le_rfl, fun _ h => h⟩

lemma Le.trans {s₁ s₂ s₃ : State ν ε} (h : Le s₁ s₂) (h' : Le s₂ s₃) : Le s₁ s₃ :=
  ⟨fun t => (h.termLog t).trans (h'.termLog t), fun t w hw => h'.election t w (h.election t w hw),
    fun t v b hb => h'.bid t v b (h.bid t v b hb),
    fun t v x hx => h'.ballot t v x (h.ballot t v x hx),
    fun t v => (h.acked t v).trans (h'.acked t v), fun t ht => h'.retired t (h.retired t ht)⟩

/-- What a step of `v` leaves alone: the other nodes, and the terms of other leaders. -/
structure Frame (v : ν) (s s' : State ν ε) : Prop where
  mem : ∀ u, u ≠ v → s'.mem u = s.mem u
  disk : ∀ u, u ≠ v → s'.disk u = s.disk u
  election : ∀ t w, s'.election t = some w → w.leader ≠ v → s.election t = some w
  termLog : ∀ t w, s'.election t = some w → w.leader ≠ v → s'.termLog t = s.termLog t
  retired : ∀ t w, s'.election t = some w → w.leader ≠ v → s'.retired t → s.retired t

lemma Frame.refl (v : ν) (s : State ν ε) : Frame v s s :=
  ⟨fun _ _ => rfl, fun _ _ => rfl, fun _ _ h _ => h, fun _ _ _ _ => rfl, fun _ _ _ _ h => h⟩

variable {v : ν}

lemma Frame.trans {s₁ s₂ s₃ : State ν ε} (h : Frame v s₁ s₂) (h' : Frame v s₂ s₃) :
    Frame v s₁ s₃ where
  mem u hu := (h'.mem u hu).trans (h.mem u hu)
  disk u hu := (h'.disk u hu).trans (h.disk u hu)
  election t w hw hl := h.election t w (h'.election t w hw hl) hl
  termLog t w hw hl := (h'.termLog t w hw hl).trans (h.termLog t w (h'.election t w hw hl) hl)
  retired t w hw hl hr := h.retired t w (h'.election t w hw hl) hl (h'.retired t w hw hl hr)

variable {s : State ν ε} {M : Finset ν}

section Inv

variable [DecidableEq ν] [Stamped ε]

structure Inv (M : Finset ν) (s : State ν ε) : Prop where
  disk_le : ∀ v, (s.disk v).term ≤ (s.mem v).term
  ballot_disk : ∀ t v c ℓ, s.ballot t v = some (c, ℓ) →
    t < (s.disk v).term ∨ ((s.disk v).term = t ∧ (s.disk v).vote = some c)
  ballot_mem : ∀ t v c ℓ, s.ballot t v = some (c, ℓ) →
    t < (s.mem v).term ∨ ((s.mem v).term = t ∧ (s.mem v).vote = some c)
  ballot_canon : ∀ t v c ℓ, s.ballot t v = some (c, ℓ) → Canon s.termLog ℓ
  bid_disk : ∀ t v b, s.bid t v = some b → t ≤ (s.disk v).term
  bid_canon : ∀ t v b, s.bid t v = some b → Canon s.termLog b
  bid_stamp : ∀ t v b, s.bid t v = some b → ∀ e ∈ b, stamp e < t
  majority : ∀ t w, s.election t = some w → Majority M w.electors
  elected : ∀ t w, s.election t = some w → ∀ u ∈ w.electors, ∃ ℓ, s.ballot t u = some (w.leader, ℓ)
  base : ∀ t w, s.election t = some w → s.bid t w.leader = some w.base ∧ w.base <+: s.termLog t
  unelected : ∀ t, s.election t = none → s.termLog t = []
  bounded : Bounded s.termLog
  canon_term : ∀ t, Canon s.termLog (s.termLog t)
  canon_mem : ∀ v, Canon s.termLog (s.mem v).log
  canon_disk : ∀ v, Canon s.termLog (s.disk v).log
  stamp_mem : ∀ v, ∀ e ∈ (s.mem v).log, stamp e ≤ (s.mem v).term
  stamp_disk : ∀ v, ∀ e ∈ (s.disk v).log, stamp e ≤ (s.disk v).term
  retired : ∀ t, s.retired t → ∃ w, s.election t = some w

/-- Whoever holds a majority of the votes of a decided term is its winner. -/
theorem Inv.unique_winner (h : Inv M s) {t : ℕ} {w : Election ν ε}
    (hw : s.election t = some w) {q : Finset ν} {l : ν} (hq : Majority M q)
    (hv : ∀ u ∈ q, ∃ ℓ, s.ballot t u = some (l, ℓ)) : w.leader = l := by
  obtain ⟨u, hu, hu'⟩ := (h.majority t w hw).inter hq
  obtain ⟨ℓ, hℓ⟩ := h.elected t w hw u hu
  obtain ⟨ℓ', hℓ'⟩ := hv u hu'
  rw [hℓ] at hℓ'
  exact congrArg Prod.fst (some.inj hℓ')

/-- The memory of a node may change to anything its ballots and its disk allow. -/
theorem Inv.setMem (hi : Inv M s) (v : ν) {r : Replica ν ε} (hd : (s.disk v).term ≤ r.term)
    (hb : ∀ t c ℓ, s.ballot t v = some (c, ℓ) → t < r.term ∨ (r.term = t ∧ r.vote = some c))
    (hc : Canon s.termLog r.log) (hs : ∀ e ∈ r.log, stamp e ≤ r.term) : Inv M (s.setMem v r) := by
  have key : ∀ p : ν → Replica ν ε → Prop, (∀ u, p u (s.mem u)) → p v r →
      ∀ u, p u ((s.setMem v r).mem u) := by
    intro p hold hnew u
    by_cases hu : u = v
    · subst hu; simpa [setMem] using hnew
    · simpa [State.setMem, update_of_ne hu] using hold u
  exact { hi with
    disk_le := key (fun u x => (s.disk u).term ≤ x.term) hi.disk_le hd
    ballot_mem := fun t u c ℓ h => key (fun u x => ∀ t c ℓ, s.ballot t u = some (c, ℓ) →
      t < x.term ∨ (x.term = t ∧ x.vote = some c)) (fun u t c ℓ => hi.ballot_mem t u c ℓ)
      hb u t c ℓ h
    canon_mem := key (fun _ x => Canon s.termLog x.log) hi.canon_mem hc
    stamp_mem := key (fun _ x => ∀ e ∈ x.log, stamp e ≤ x.term) hi.stamp_mem hs }

/-- Memory is written to disk. -/
theorem Inv.save (hi : Inv M s) (v : ν) : Inv M (s.setDisk v (s.mem v)) := by
  have key : ∀ p : ν → Replica ν ε → Prop, (∀ u, p u (s.disk u)) → p v (s.mem v) →
      ∀ u, p u ((s.setDisk v (s.mem v)).disk u) := by
    intro p hold hnew u
    by_cases hu : u = v
    · subst hu; simpa [setDisk] using hnew
    · simpa [setDisk, update_of_ne hu] using hold u
  exact { hi with
    disk_le := key (fun u x => x.term ≤ (s.mem u).term) hi.disk_le le_rfl
    ballot_disk := fun t u c ℓ h => key (fun u x => ∀ t c ℓ, s.ballot t u = some (c, ℓ) →
      t < x.term ∨ (x.term = t ∧ x.vote = some c)) (fun u t c ℓ => hi.ballot_disk t u c ℓ)
      (fun t c ℓ => hi.ballot_mem t v c ℓ) u t c ℓ h
    bid_disk := fun t u b h => key (fun u x => ∀ t b, s.bid t u = some b → t ≤ x.term)
      (fun u t b => hi.bid_disk t u b) (fun t b h => (hi.bid_disk t v b h).trans (hi.disk_le v)) u t b h
    canon_disk := key (fun _ x => Canon s.termLog x.log) hi.canon_disk (hi.canon_mem v)
    stamp_disk := key (fun _ x => ∀ e ∈ x.log, stamp e ≤ x.term) hi.stamp_disk (hi.stamp_mem v) }

/-- The winner of a term, new or old, writes entries of that term after its log. -/
theorem Inv.write (hi : Inv M s) (v : ν) {es : List ε} {w : Election ν ε}
    (hmaj : Majority M w.electors)
    (hel : ∀ u ∈ w.electors, ∃ ℓ, s.ballot (s.mem v).term u = some (w.leader, ℓ))
    (hbid : s.bid (s.mem v).term w.leader = some w.base) (hbase : w.base <+: (s.mem v).log)
    (hlog : s.termLog (s.mem v).term <+: (s.mem v).log) (hes : ∀ e ∈ es, stamp e = (s.mem v).term) :
    Inv M ((s.setElection (s.mem v).term w).write (s.mem v).term v ((s.mem v).log ++ es)) := by
  set t := (s.mem v).term with ht
  set s' := (s.setElection t w).write t v ((s.mem v).log ++ es) with hs'
  have hself : s'.termLog t = (s.mem v).log ++ es := by simp [hs']
  have hother : ∀ u, u ≠ t → s'.termLog u = s.termLog u := by
    intro u hu
    simp [hs', State.write, State.setElection, update_of_ne hu]
  have hpre : ∀ u, s.termLog u <+: s'.termLog u := by
    intro u
    by_cases hu : u = t
    · rw [hu, hself]; exact hlog.trans (prefix_append _ _)
    · rw [hother u hu]
  have hwin : ∀ p : ℕ → Election ν ε → Prop, (∀ u x, s.election u = some x → p u x) → p t w →
      ∀ u x, s'.election u = some x → p u x := by
    intro p hold hnew u x hx
    by_cases hu : u = t
    · subst hu
      simp only [hs', State.write, State.setElection, update_self, some.injEq] at hx
      exact hx ▸ hnew
    · exact hold u x (by
        simpa [hs', State.write, State.setElection, update_of_ne hu] using hx)
  have hmem : ∀ p : ν → Replica ν ε → Prop, (∀ u, p u (s.mem u)) →
      p v { s.mem v with log := (s.mem v).log ++ es } → ∀ u, p u (s'.mem u) := by
    intro p hold hnew u
    by_cases hu : u = v
    · subst hu; simpa [hs', State.setElection] using hnew
    · simpa [hs', State.write, State.setElection, update_of_ne hu] using hold u
  have hcanon : Canon s'.termLog ((s.mem v).log ++ es) := (hi.canon_mem v).append hes hpre hself
  have hbound : ∀ e ∈ (s.mem v).log ++ es, stamp e ≤ t := by
    intro e he
    rcases mem_append.mp he with he | he
    · exact hi.stamp_mem v e he
    · exact (hes e he).le
  exact
    { disk_le := hmem (fun u x => (s.disk u).term ≤ x.term) hi.disk_le (hi.disk_le v)
      ballot_disk := hi.ballot_disk
      ballot_mem := fun u x c b hb => hmem (fun y r => ∀ t c ℓ, s.ballot t y = some (c, ℓ) →
        t < r.term ∨ (r.term = t ∧ r.vote = some c)) (fun y t c ℓ => hi.ballot_mem t y c ℓ)
        (fun t c ℓ => hi.ballot_mem t v c ℓ) x u c b hb
      ballot_canon := fun u x c b hb => (hi.ballot_canon u x c b hb).mono hpre
      bid_disk := hi.bid_disk
      bid_canon := fun u x b hb => (hi.bid_canon u x b hb).mono hpre
      bid_stamp := hi.bid_stamp
      majority := hwin (fun _ x => Majority M x.electors) hi.majority hmaj
      elected := hwin (fun u x => ∀ y ∈ x.electors, ∃ ℓ, s.ballot u y = some (x.leader, ℓ))
        hi.elected hel
      base := hwin (fun u x => s.bid u x.leader = some x.base ∧ x.base <+: s'.termLog u)
        (fun u x hx => ⟨(hi.base u x hx).1, (hi.base u x hx).2.trans (hpre u)⟩)
        ⟨hbid, hself ▸ hbase.trans (prefix_append _ _)⟩
      unelected := by
        intro u hu
        have hne : u ≠ t := by
          rintro rfl
          simp [hs', State.write] at hu
        rw [hother u hne]
        exact hi.unelected u (by
          simpa [hs', State.write, State.setElection, update_of_ne hne] using hu)
      bounded := by
        intro u
        by_cases hu : u = t
        · rw [hu, hself]; exact hbound
        · rw [hother u hu]; exact hi.bounded u
      canon_term := by
        intro u
        by_cases hu : u = t
        · rw [hu, hself]; exact hcanon
        · rw [hother u hu]; exact (hi.canon_term u).mono hpre
      canon_mem := hmem (fun _ x => Canon s'.termLog x.log)
        (fun u => (hi.canon_mem u).mono hpre) hcanon
      canon_disk := fun u => (hi.canon_disk u).mono hpre
      stamp_mem := hmem (fun _ x => ∀ e ∈ x.log, stamp e ≤ x.term) hi.stamp_mem hbound
      stamp_disk := hi.stamp_disk
      retired := by
        intro u hu
        obtain ⟨x, hx⟩ := hi.retired u hu
        by_cases hut : u = t
        · exact ⟨w, by simp [hs', State.write, hut]⟩
        · exact ⟨x, by
            simpa [hs', State.write, State.setElection, update_of_ne hut] using hx⟩ }

end Inv

section Adopt

variable [DecidableEq ε]

/-- The log after a prefix of the leader's log is put in place of the own one,
which is only done when the two differ. -/
def adopt (ℓ x : List ε) (k : ℕ) : List ε := if ℓ.take k = x.take k then ℓ else x.take k

lemma adopt_eq_or (ℓ x : List ε) (k : ℕ) : adopt ℓ x k = ℓ ∨ adopt ℓ x k = x.take k := by
  unfold adopt
  split
  · exact .inl rfl
  · exact .inr rfl

lemma adopt_take_of_agree {ℓ x : List ε} {i : ℕ} (k : ℕ) (h : ℓ.take i = x.take i) :
    (adopt ℓ x k).take i = x.take i := by
  unfold adopt
  split
  · exact h
  · rename_i hk
    rcases le_total i k with hik | hik
    · rw [take_take, min_eq_left hik]
    · exact absurd (take_eq_mono h hik) hk

end Adopt

variable [DecidableEq ν] [DecidableEq ε] [Stamped ε]

inductive Step (M : Finset ν) (strict : Prop) (v : ν) : State ν ε → State ν ε → Prop
  | raise (s : State ν ε) (t : ℕ) (h : (s.mem v).term < t) :
      Step M strict v s (s.setMem v ⟨t, none, (s.mem v).log⟩)
  | choose (s : State ν ε) (c : ν) (h : (s.mem v).vote = none ∨ (s.mem v).vote = some c) :
      Step M strict v s (s.setMem v { s.mem v with vote := some c })
  | save (s : State ν ε) : Step M strict v s (s.setDisk v (s.mem v))
  | load (s : State ν ε) : Step M strict v s (s.setMem v (s.disk v))
  | stand (s : State ν ε) (hd : (s.disk v).term = (s.mem v).term)
      (hb : s.bid (s.mem v).term v = none)
      (hlt : ∀ e ∈ (s.mem v).log, stamp e < (s.mem v).term) :
      Step M strict v s (s.setBid (s.mem v).term v (s.mem v).log)
  | grant (s : State ν ε) (c : ν) (hb : s.ballot (s.mem v).term v = none)
      (hd : (s.disk v).term = (s.mem v).term) (hdv : (s.disk v).vote = some c)
      (hv : (s.mem v).vote = some c)
      (hup : strict → ∃ b, s.bid (s.mem v).term c = some b ∧ UpToDate b (s.mem v).log) :
      Step M strict v s (s.setBallot (s.mem v).term v c (s.mem v).log)
  | elect (s : State ν ε) (q : Finset ν) (es : List ε) (hq : Majority M q)
      (hv : ∀ u ∈ q, ∃ ℓ, s.ballot (s.mem v).term u = some (v, ℓ))
      (hb : s.bid (s.mem v).term v = some (s.mem v).log)
      (hn : s.election (s.mem v).term = none) (hes : ∀ e ∈ es, stamp e = (s.mem v).term) :
      Step M strict v s ((s.setElection (s.mem v).term ⟨v, q, (s.mem v).log⟩).write
        (s.mem v).term v ((s.mem v).log ++ es))
  | extend (s : State ν ε) (es : List ε) (w : Election ν ε)
      (hw : s.election (s.mem v).term = some w) (hl : w.leader = v)
      (hlog : (s.mem v).log = s.termLog (s.mem v).term)
      (hes : ∀ e ∈ es, stamp e = (s.mem v).term) :
      Step M strict v s (s.write (s.mem v).term v ((s.mem v).log ++ es))
  | accept (s : State ν ε) (p : ℕ) (es : List ε)
      (hp : (s.mem v).log.take p = (s.termLog (s.mem v).term).take p)
      (hes : es <+: (s.termLog (s.mem v).term).drop p) :
      Step M strict v s (s.setMem v { s.mem v with log := splice (s.mem v).log p es })
  | install (s : State ν ε) (k : ℕ) (hk : k ≤ (s.termLog (s.mem v).term).length) :
      Step M strict v s (s.setMem v { s.mem v with
        log := adopt (s.mem v).log (s.termLog (s.mem v).term) k })
  | ack (s : State ν ε) (i : ℕ) (hd : (s.disk v).term = (s.mem v).term)
      (hi : i ≤ (s.termLog (s.mem v).term).length)
      (hm : (s.mem v).log.take i = (s.termLog (s.mem v).term).take i)
      (hdl : (s.disk v).log.take i = (s.termLog (s.mem v).term).take i) :
      Step M strict v s (s.setAcked (s.mem v).term v i)
  | retire (s : State ν ε) (t : ℕ) (w : Election ν ε) (hw : s.election t = some w)
      (hl : w.leader = v) : Step M strict v s (s.retire t)

/-- Any number of steps of one node. -/
abbrev Steps (M : Finset ν) (strict : Prop) (v : ν) : State ν ε → State ν ε → Prop :=
  Relation.ReflTransGen (Step M strict v)

variable {strict : Prop} {s' : State ν ε}

/-- A step changes memory, disk and history so that the history stays an
extension of what it was. -/
theorem Step.le (hi : Inv M s) (h : Step M strict v s s') : Le s s' := by
  cases h with
  | raise | choose | save | load | accept | install => exact { Le.refl s with }
  | stand hd hb =>
    refine { Le.refl s with bid := ?_ }
    intro t u b hu
    simp only [setBid]
    split
    · rename_i he
      rw [he.1, he.2, hb] at hu
      cases hu
    · exact hu
  | grant c hb =>
    refine { Le.refl s with ballot := ?_ }
    intro t u x hu
    simp only [setBallot]
    split
    · rename_i he
      rw [he.1, he.2, hb] at hu
      cases hu
    · exact hu
  | elect q es hq hv hb hn =>
    refine { Le.refl s with termLog := ?_, election := ?_ }
    · intro t
      by_cases ht : t = (s.mem v).term
      · subst ht
        simp [hi.unelected _ hn]
      · simp [write, setElection, update_of_ne ht]
    intro t w hw
    by_cases ht : t = (s.mem v).term
    · subst ht
      rw [hn] at hw
      cases hw
    · simpa [write, setElection, update_of_ne ht] using hw
  | extend es w hw hl hlog =>
    refine { Le.refl s with termLog := ?_ }
    intro t
    by_cases ht : t = (s.mem v).term
    · subst ht
      simp [hlog]
    · simp [write, update_of_ne ht]
  | ack i =>
    refine { Le.refl s with acked := ?_ }
    intro t u
    simp only [setAcked]
    split
    · exact le_max_left _ _
    · exact le_rfl
  | retire t w => exact { Le.refl s with retired := fun u hu => .inr hu }

lemma Step.frame (h : Step M strict v s s') : Frame v s s' := by
  cases h with
  | raise | choose | load | accept | install =>
    exact { Frame.refl v s with mem := fun u hu => update_of_ne hu _ _ }
  | save => exact { Frame.refl v s with disk := fun u hu => update_of_ne hu _ _ }
  | stand | grant | ack => exact { Frame.refl v s with }
  | elect q es hq hv hb hn =>
    refine { Frame.refl v s with mem := fun u hu => update_of_ne hu _ _,
                                 election := ?_, termLog := ?_, retired := fun _ _ _ _ h => h }
    · intro t w hw hl
      by_cases ht : t = (s.mem v).term
      · subst ht
        simp only [write, setElection, update_self, some.injEq] at hw
        exact absurd (by rw [← hw]) hl
      · simpa [write, setElection, update_of_ne ht] using hw
    intro t w hw hl
    by_cases ht : t = (s.mem v).term
    · subst ht
      simp only [write, setElection, update_self, some.injEq] at hw
      exact absurd (by rw [← hw]) hl
    · simp [write, setElection, update_of_ne ht]
  | extend es w hw hl hlog =>
    refine { Frame.refl v s with mem := fun u hu => update_of_ne hu _ _, termLog := ?_ }
    intro t w' hw' hl'
    by_cases ht : t = (s.mem v).term
    · subst ht
      have : w' = w := some.inj (hw'.symm.trans hw)
      exact absurd (this ▸ hl) hl'
    · simp [write, update_of_ne ht]
  | retire t w hw hl =>
    refine { Frame.refl v s with retired := ?_ }
    intro u w' hw' hl' hr
    rcases hr with rfl | hr
    · have : w' = w := some.inj (hw'.symm.trans hw)
      exact absurd (this ▸ hl) hl'
    · exact hr

omit [DecidableEq ε] in
/-- The log stays, or becomes the start of one of a term. -/
theorem Inv.setLog (hi : Inv M s) {ℓ : List ε} {k : ℕ}
    (h : ℓ = (s.mem v).log ∨ ℓ = (s.termLog (s.mem v).term).take k) :
    Inv M (s.setMem v { s.mem v with log := ℓ }) := by
  refine hi.setMem v (hi.disk_le v) (fun t c ℓ => hi.ballot_mem t v c ℓ) ?_ ?_
  all_goals rcases h with rfl | rfl
  · exact hi.canon_mem v
  · exact (hi.canon_term _).take _
  · exact hi.stamp_mem v
  · exact fun e he => hi.bounded _ e (mem_of_mem_take he)

/-- Every step keeps the invariant. -/
theorem Step.inv (hi : Inv M s) (h : Step M strict v s s') : Inv M s' := by
  cases h with
  | raise t ht =>
    refine hi.setMem v ((hi.disk_le v).trans ht.le) ?_ (hi.canon_mem v)
      (fun e he => (hi.stamp_mem v e he).trans ht.le)
    intro u c ℓ hb
    have : u < t := by rcases hi.ballot_mem u v c ℓ hb with h | h <;> omega
    exact .inl this
  | choose c hc =>
    refine hi.setMem v (hi.disk_le v) ?_ (hi.canon_mem v) (hi.stamp_mem v)
    intro u d ℓ hb
    refine (hi.ballot_mem u v d ℓ hb).imp_right fun h => ⟨h.1, ?_⟩
    rcases hc with hc | hc <;> rw [hc] at h
    · exact absurd h.2 (by simp)
    · exact h.2
  | save => exact hi.save v
  | load =>
    exact hi.setMem v le_rfl (fun t c ℓ => hi.ballot_disk t v c ℓ) (hi.canon_disk v)
      (hi.stamp_disk v)
  | stand hd hb hlt =>
    have key : ∀ p : ℕ → ν → List ε → Prop, (∀ t u b, s.bid t u = some b → p t u b) →
        p (s.mem v).term v (s.mem v).log → ∀ t u b,
        (s.setBid (s.mem v).term v (s.mem v).log).bid t u = some b → p t u b := by
      intro p hold hnew t u b h
      simp only [setBid] at h
      split at h
      · rename_i he
        obtain ⟨rfl, rfl⟩ := he
        exact some.inj h ▸ hnew
      · exact hold t u b h
    refine { hi with
      bid_disk := key (fun t u _ => t ≤ (s.disk u).term) hi.bid_disk hd.ge
      bid_canon := key (fun _ _ b => Canon s.termLog b) hi.bid_canon (hi.canon_mem v)
      bid_stamp := key (fun t _ b => ∀ e ∈ b, stamp e < t) hi.bid_stamp hlt
      base := ?_ }
    intro t w hw
    refine ⟨?_, (hi.base t w hw).2⟩
    exact (le hi (.stand s hd hb hlt : Step M strict v s _)).bid _ _ _ (hi.base t w hw).1
  | grant c hb hd hdv hv hup =>
    have key : ∀ p : ℕ → ν → ν → List ε → Prop,
        (∀ t u d ℓ, s.ballot t u = some (d, ℓ) → p t u d ℓ) →
        p (s.mem v).term v c (s.mem v).log → ∀ t u d ℓ,
        (s.setBallot (s.mem v).term v c (s.mem v).log).ballot t u = some (d, ℓ) → p t u d ℓ := by
      intro p hold hnew t u d ℓ h
      simp only [setBallot] at h
      split at h
      · rename_i he
        obtain ⟨rfl, rfl⟩ := he
        obtain ⟨rfl, rfl⟩ := Prod.mk.inj (some.inj h)
        exact hnew
      · exact hold t u d ℓ h
    refine { hi with
      ballot_disk := key (fun t u d _ => t < (s.disk u).term ∨
        ((s.disk u).term = t ∧ (s.disk u).vote = some d)) hi.ballot_disk (.inr ⟨hd, hdv⟩)
      ballot_mem := key (fun t u d _ => t < (s.mem u).term ∨
        ((s.mem u).term = t ∧ (s.mem u).vote = some d)) hi.ballot_mem (.inr ⟨rfl, hv⟩)
      ballot_canon := key (fun _ _ _ ℓ => Canon s.termLog ℓ) hi.ballot_canon (hi.canon_mem v)
      elected := ?_ }
    intro t w hw u hu
    obtain ⟨ℓ, hℓ⟩ := hi.elected t w hw u hu
    exact ⟨ℓ, (le hi (.grant s c hb hd hdv hv hup)).ballot _ _ _ hℓ⟩
  | elect q es hq hv hb hn hes =>
    refine hi.write v hq hv hb prefix_rfl ?_ hes
    simp [hi.unelected _ hn]
  | extend es w hw hl hlog hes =>
    have hset : s.setElection (s.mem v).term w = s := by
      simp only [setElection, ← hw, update_eq_self]
    have hbase := hi.base _ w hw
    have := hi.write v (hi.majority _ w hw) (hi.elected _ w hw) hbase.1
      (hlog ▸ hbase.2) (hlog ▸ prefix_rfl) hes
    rwa [hset] at this
  | accept p es hp hes => exact hi.setLog (splice_eq_or hp hes)
  | install k => exact hi.setLog (adopt_eq_or _ _ k)
  | ack i => exact { hi with }
  | retire t w hw hl =>
    refine { hi with retired := ?_ }
    rintro u (rfl | hu)
    · exact ⟨w, hw⟩
    · exact hi.retired u hu

end OnetDns.Consensus
