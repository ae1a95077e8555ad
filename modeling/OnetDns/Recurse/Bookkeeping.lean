import OnetDns.Recurse.Reactor

/-!
# The books of the event lane

Slots, parents and children, the index of questions under way, and tokens. The calls that
settle a resolution take slots out, release them and fill them again; between two calls one
slot may be a hole, one parent may be without its child, and tokens may be in hand. Between
two actions nothing of that is left.
-/
namespace OnetDns.Recurse
open List Option Slab

namespace Slot

def parent (slot : Slot) : Option ℕ :=
  match slot.kind with
  | .root _ => none
  | .nsAddr parent | .dnskey parent _ => some parent

def WaitsFor (pslot slot : Slot) : Prop :=
  match slot.kind with
  | .root _ => False
  | .nsAddr _ => pslot.parked.isSome
  | .dnskey _ _ => pslot.awaiting.isSome

def waits (slot : Slot) : Bool := slot.parked.isSome || slot.awaiting.isSome

/-- Those who wait for the slot. -/
def tokens (slot : Slot) : List Token :=
  match slot.kind with
  | .root root => root.followers ++ [root.leader]
  | _ => []

def entry (slot : Slot) (idx : ℕ) : Option (ℕ × SfKey) :=
  match slot.kind with
  | .root root => some (idx, root.sfKey)
  | _ => none

lemma of_root {slot : Slot} {root : RootCtx} (h : slot.kind = .root root) (idx : ℕ) :
    slot.entry idx = some (idx, root.sfKey) ∧ slot.parent = none ∧
      slot.tokens = root.followers ++ [root.leader] := by
  rw [entry, parent, tokens, h]
  exact ⟨rfl, rfl, rfl⟩

lemma of_child {slot : Slot} {p : ℕ} (h : slot.parent = some p) (idx : ℕ) :
    slot.entry idx = none ∧ slot.tokens = [] := by
  rw [parent] at h
  rw [entry, tokens]
  cases hkind : slot.kind with
  | root root =>
    rw [hkind] at h
    cases h
  | nsAddr _ => exact ⟨rfl, rfl⟩
  | dnskey _ _ => exact ⟨rfl, rfl⟩

lemma waits_of_waitsFor {pslot slot : Slot} (h : pslot.WaitsFor slot) : pslot.waits = true := by
  rw [WaitsFor] at h
  split at h
  · exact h.elim
  · rw [waits, h, Bool.true_or]
  · rw [waits, h, Bool.or_true]

/-- A slot waits for one thing at a time, only a root waits for keys, and no question is out
while it waits. -/
structure Ok (slot : Slot) : Prop where
  root : slot.awaiting.isSome → ∃ ctx, slot.kind = .root ctx
  one : slot.parked.isSome → slot.awaiting = none
  quiet : slot.waits → slot.session.exchange = none

lemma Ok.of_not_waits {slot : Slot} (h : slot.waits = false) : slot.Ok := by
  rw [waits, Bool.or_eq_false_iff] at h
  refine ⟨fun hsome => ?_, fun hsome => ?_, fun hwaits => ?_⟩
  · rw [h.2] at hsome
    cases hsome
  · rw [h.1] at hsome
    cases hsome
  · rw [waits, h.1, h.2] at hwaits
    cases hwaits

end Slot

/-- Every child has a live parent that waits for it, and every slot that waits has one child,
except for a parent that was left by its child. -/
structure Linked (slab : Slab Slot) (left : Option ℕ) : Prop where
  ok : ∀ i slot, slab.get i = some slot → slot.Ok
  parent : ∀ i slot p, slab.get i = some slot → slot.parent = some p →
    ∃ pslot, slab.get p = some pslot ∧ pslot.WaitsFor slot
  unique : ∀ i j slot slot' p, slab.get i = some slot → slab.get j = some slot' →
    slot.parent = some p → slot'.parent = some p → i = j
  served : ∀ p pslot, slab.get p = some pslot → pslot.waits = true → left ≠ some p →
    ∃ i slot, slab.get i = some slot ∧ slot.parent = some p
  alone : ∀ p, left = some p → ∀ i slot, slab.get i = some slot → slot.parent ≠ some p

variable {left' : Option ℕ}

namespace Linked

variable {slab : Slab Slot} {left : Option ℕ} {p : ℕ} {slot slot' : Slot}

section

variable (h : Linked slab left)
include h

lemma childless (hp : ∀ pslot, slab.get p = some pslot → pslot.waits = false) : ∀ i slot, slab.get
    i = some slot → slot.parent ≠ some p := by
  intro i slot hget hparent
  obtain ⟨pslot, hpslot, hwaits⟩ := h.parent i slot p hget hparent
  have := Slot.waits_of_waitsFor hwaits
  rw [hp pslot hpslot] at this
  cases this

lemma take (hget : slab.get p = some slot) (hleft : ∀ q, left = some q → q = p)
    (hno : ∀ i slot, slab.get i = some slot → slot.parent ≠ some p) :
    Linked (slab.take p) slot.parent := by
  have hlt := lt_of_get hget
  have hback : ∀ {i : ℕ} {other : Slot}, (slab.take p).get i = some other →
      p ≠ i ∧ slab.get i = some other := by
    intro i other hi
    rw [get_take hlt] at hi
    split at hi
    · cases hi
    · rename_i hne
      exact ⟨hne, hi⟩
  have hforth : ∀ {i : ℕ} {other : Slot}, p ≠ i → slab.get i = some other →
      (slab.take p).get i = some other := by
    intro i other hne hi
    rw [get_take hlt, if_neg hne, hi]
  refine ⟨fun i other hi => h.ok i other (hback hi).2, fun i other q hi hq => ?_,
    fun i j other other' q hi hj => h.unique i j other other' q (hback hi).2 (hback hj).2,
    fun q qslot hq hwaits hne => ?_, fun q hq i other hi hparent => ?_⟩
  · obtain ⟨qslot, hqslot, hwaits⟩ := h.parent i other q (hback hi).2 hq
    refine ⟨qslot, hforth ?_ hqslot, hwaits⟩
    rintro rfl
    exact hno i other (hback hi).2 hq
  · obtain ⟨hpq, hqslot⟩ := hback hq
    obtain ⟨i, other, hi, hparent⟩ := h.served q qslot hqslot hwaits fun hl => hpq (hleft q hl).symm
    refine ⟨i, other, hforth ?_ hi, hparent⟩
    rintro rfl
    rw [hget] at hi
    obtain rfl := some.inj hi
    exact hne hparent
  · obtain ⟨hne, hi⟩ := hback hi
    exact hne (h.unique p i slot other q hget hi hq hparent)

lemma insert {hole : Option ℕ} (hslab : slab.Ok hole) (hok : slot.Ok)
    (hparent : slot.parent = left)
    (hwaits : ∀ p, left = some p → ∃ pslot, slab.get p = some pslot ∧ pslot.WaitsFor slot) :
    Linked (slab.insert slot) (if slot.waits then some slab.next else none) := by
  have hnone := get_next hslab
  have hget : ∀ i, (slab.insert slot).get i = if slab.next = i then some slot else slab.get i :=
    fun i => get_insert hslab
  have hold : ∀ {i : ℕ} {other : Slot}, slab.get i = some other →
      (slab.insert slot).get i = some other := by
    intro i other hi
    rw [hget, if_neg (next_ne hslab hi), hi]
  have hcases : ∀ {i : ℕ} {other : Slot}, (slab.insert slot).get i = some other →
      (i = slab.next ∧ other = slot) ∨ slab.get i = some other := by
    intro i other hi
    rw [hget] at hi
    split at hi
    · rename_i heq
      exact .inl ⟨heq.symm, (some.inj hi).symm⟩
    · exact .inr hi
  refine ⟨fun i other hi => ?_, fun i other q hi hq => ?_, fun i j other other' q hi hj hq hq' => ?_,
    fun q qslot hq hqwaits hne => ?_, fun q hq i other hi hparent' => ?_⟩
  · rcases hcases hi with ⟨-, rfl⟩ | hi
    · exact hok
    · exact h.ok i other hi
  · rcases hcases hi with ⟨-, rfl⟩ | hi
    · obtain ⟨pslot, hpslot, hw⟩ := hwaits q (hparent.symm.trans hq)
      exact ⟨pslot, hold hpslot, hw⟩
    · obtain ⟨pslot, hpslot, hw⟩ := h.parent i other q hi hq
      exact ⟨pslot, hold hpslot, hw⟩
  · rcases hcases hi with ⟨hi', hother⟩ | hi'
    · rcases hcases hj with ⟨hj', -⟩ | hj'
      · exact hi'.trans hj'.symm
      · rw [hother] at hq
        exact absurd hq' (h.alone q (hparent.symm.trans hq) j other' hj')
    · rcases hcases hj with ⟨hj', hother⟩ | hj'
      · rw [hother] at hq'
        exact absurd hq (h.alone q (hparent.symm.trans hq') i other hi')
      · exact h.unique i j other other' q hi' hj' hq hq'
  · rcases hcases hq with ⟨rfl, rfl⟩ | hq
    · rw [if_pos hqwaits] at hne
      exact absurd rfl hne
    · by_cases hl : left = some q
      · exact ⟨slab.next, slot, by rw [hget, if_pos rfl], hparent.trans hl⟩
      · obtain ⟨i, other, hi, hp⟩ := h.served q qslot hq hqwaits hl
        exact ⟨i, other, hold hi, hp⟩
  · split at hq
    · obtain rfl := some.inj hq
      have hdead : ∀ pslot, slab.get slab.next ≠ some pslot := by
        intro pslot hp
        rw [hnone] at hp
        cases hp
      rcases hcases hi with ⟨-, rfl⟩ | hi
      · obtain ⟨pslot, hpslot, -⟩ := hwaits slab.next (hparent.symm.trans hparent')
        exact hdead pslot hpslot
      · obtain ⟨pslot, hpslot, -⟩ := h.parent i other slab.next hi hparent'
        exact hdead pslot hpslot
    · cases hq

/-- A slot that changes in its place, without children or with the same wait as before. -/
theorem put (hget : slab.get p = some slot) (hok : slot'.Ok) (hparent : slot'.parent = slot.parent)
    (hfor : ∀ pslot : Slot, pslot.WaitsFor slot → pslot.WaitsFor slot')
    (hchild : ∀ i child, slab.get i = some child → child.parent = some p → slot'.WaitsFor child)
    (hserved : slot'.waits = true → left' ≠ some p → ∃ i child, slab.get i = some child ∧
      child.parent = some p) (hleft : ∀ q, q ≠ p → (left = some q ↔ left' = some q))
    (halone : left' = some p → ∀ i child, slab.get i = some child → child.parent ≠ some p) :
    Linked (slab.put p slot') left' := by
  have hlt := lt_of_get hget
  have hgets : ∀ i, (slab.put p slot').get i = if p = i then some slot' else slab.get i :=
    fun i => get_put hlt
  -- every slot after the change was there before, with the same parent
  have hback : ∀ {i : ℕ} {other : Slot}, (slab.put p slot').get i = some other →
      (i = p ∧ other = slot') ∨ (i ≠ p ∧ slab.get i = some other) := by
    intro i other hi
    rw [hgets] at hi
    split at hi
    · rename_i heq
      exact .inl ⟨heq.symm, (some.inj hi).symm⟩
    · rename_i hne
      exact .inr ⟨Ne.symm hne, hi⟩
  have hbefore : ∀ {i : ℕ} {other : Slot}, (slab.put p slot').get i = some other →
      ∃ old, slab.get i = some old ∧ old.parent = other.parent := by
    intro i other hi
    rcases hback hi with ⟨rfl, rfl⟩ | ⟨-, hi⟩
    · exact ⟨slot, hget, hparent.symm⟩
    · exact ⟨other, hi, rfl⟩
  have hafter : ∀ {i : ℕ} {old : Slot}, slab.get i = some old →
      ∃ other, (slab.put p slot').get i = some other ∧ other.parent = old.parent := by
    intro i old hi
    by_cases heq : p = i
    · subst heq
      rw [hget] at hi
      obtain rfl := some.inj hi
      exact ⟨slot', by rw [hgets, if_pos rfl], hparent⟩
    · exact ⟨old, by rw [hgets, if_neg heq, hi], rfl⟩
  have hwaiting : ∀ {q : ℕ} {i : ℕ} {old : Slot}, slab.get i = some old → old.parent = some q →
      ∃ qslot, (slab.put p slot').get q = some qslot ∧ qslot.WaitsFor old := by
    intro q i old hi hq
    obtain ⟨qslot, hqslot, hw⟩ := h.parent i old q hi hq
    by_cases heq : p = q
    · subst heq
      exact ⟨slot', by rw [hgets, if_pos rfl], hchild i old hi hq⟩
    · exact ⟨qslot, by rw [hgets, if_neg heq, hqslot], hw⟩
  refine ⟨fun i other hi => ?_, fun i other q hi hq => ?_, fun i j other other' q hi hj hq hq' => ?_,
    fun q qslot hq hqwaits hne => ?_, fun q hq i other hi hparent' => ?_⟩
  · rcases hback hi with ⟨-, rfl⟩ | ⟨-, hi⟩
    · exact hok
    · exact h.ok i other hi
  · rcases hback hi with ⟨rfl, rfl⟩ | ⟨-, hi⟩
    · obtain ⟨qslot, hqslot, hw⟩ := hwaiting hget (hparent.symm.trans hq)
      exact ⟨qslot, hqslot, hfor qslot hw⟩
    · exact hwaiting hi hq
  · obtain ⟨old, hold, hp⟩ := hbefore hi
    obtain ⟨old', hold', hp'⟩ := hbefore hj
    exact h.unique i j old old' q hold hold' (hp.trans hq) (hp'.trans hq')
  · have hchildOf : ∃ i child, slab.get i = some child ∧ child.parent = some q := by
      rcases hback hq with ⟨rfl, rfl⟩ | ⟨hqp, hq⟩
      · exact hserved hqwaits hne
      · exact h.served q qslot hq hqwaits fun hl => hne ((hleft q hqp).mp hl)
    obtain ⟨i, child, hi, hp⟩ := hchildOf
    obtain ⟨other, hother, hp'⟩ := hafter hi
    exact ⟨i, other, hother, hp'.trans hp⟩
  · obtain ⟨old, hold, hp⟩ := hbefore hi
    by_cases hqp : q = p
    · subst hqp
      exact halone hq i old hold (hp.trans hparent')
    · exact h.alone q ((hleft q hqp).mpr hq) i old hold (hp.trans hparent')

end

end Linked

/-- The books of a lane of `n` slots or more: its hole, the parent that was left by its child,
the entry of the index that points to a slot in hand, and the tokens in hand. -/
structure Reactor.Inv (s : Reactor) (n : ℕ) (hole left : Option ℕ) (loose : Option (ℕ × SfKey))
    (hand : List Token) : Prop where
  slab : s.slab.Ok hole
  linked : Linked s.slab left
  inflight : ∀ key idx, s.inflight.lookup key = some idx → loose = some (idx, key) ∨
    ∃ slot root, s.slab.get idx = some slot ∧ slot.kind = .root root ∧ root.sfKey = key
  tokens : s.taken.Perm (s.out.map Completion.token ++ (s.slab.items.flatMap Slot.tokens ++ hand))
  polled : ∀ i ∈ s.pollMap, i < s.slab.slots.length
  size : n ≤ s.slab.slots.length

namespace Reactor.Inv

variable {s : Reactor} {n : ℕ} {hole left : Option ℕ} {loose : Option (ℕ × SfKey)} {hand : List Token}
  {p : ℕ} {slot slot' : Slot} {root : RootCtx} {cfg : ReactorConfig}

lemma take (h : s.Inv n none left none []) (hget : s.slab.get p = some slot)
    (hleft : ∀ q, left = some q → q = p)
    (hno : ∀ i slot, s.slab.get i = some slot → slot.parent ≠ some p) :
    ({ s with slab := s.slab.take p }).Inv n (some p) slot.parent (slot.entry p) slot.tokens := by
  refine ⟨h.slab.take hget, h.linked.take hget hleft hno, fun key idx hlookup => ?_, ?_,
    fun i hi => ?_, ?_⟩
  · rcases h.inflight key idx hlookup with hloose | ⟨other, root, hother, hkind, hkey⟩
    · cases hloose
    by_cases heq : p = idx
    · subst heq
      rw [hget] at hother
      obtain rfl := some.inj hother
      rw [Slot.entry, hkind, ← hkey]
      exact .inl rfl
    · refine .inr ⟨other, root, ?_, hkind, hkey⟩
      rw [get_take (lt_of_get hget), if_neg heq, hother]
  · have hitems := (items_take hget).flatMap_right Slot.tokens
    refine h.tokens.trans (Perm.append_left _ ?_)
    rw [append_nil]
    exact hitems.trans perm_append_comm
  · rw [Slab.length_take]
    exact h.polled i hi
  · rw [Slab.length_take]
    exact h.size

lemma release (h : s.Inv n (some p) left loose hand) (hlt : p < s.slab.slots.length)
    (hget : s.slab.get p = none) :
    ({ s with slab := s.slab.release p }).Inv n none left loose hand :=
  { h with slab := h.slab.release hlt hget, linked := { h.linked with } }

lemma forget {key : SfKey} (h : s.Inv n hole left (some (p, key)) hand) :
    (s.forgetInflight key p).Inv n hole left none hand := by
  rw [forgetInflight]
  split
  · refine { h with inflight := fun key' idx hlookup => ?_ }
    by_cases hkey : key' = key
    · subst hkey
      rw [AList.lookup_erase] at hlookup
      cases hlookup
    · rw [AList.lookup_erase_ne hkey] at hlookup
      rcases h.inflight key' idx hlookup with hloose | hlive
      · exact absurd (Prod.mk.inj (some.inj hloose)).2.symm hkey
      · exact .inr hlive
  · rename_i hne
    refine { h with inflight := fun key' idx hlookup => ?_ }
    rcases h.inflight key' idx hlookup with hloose | hlive
    · obtain ⟨rfl, rfl⟩ := Prod.mk.inj (some.inj hloose)
      exact absurd hlookup hne
    · exact .inr hlive

section

variable (h : s.Inv n hole left loose (root.followers ++ [root.leader]))
include h

lemma tell {completion : Token → Completion} (htoken : ∀ token, (completion token).token = token) :
    (s.tell root completion).Inv n hole left loose [] := by
  refine { h with tokens := h.tokens.trans ?_ }
  have hmap : ((root.followers ++ [root.leader]).map completion).map Completion.token =
      root.followers ++ [root.leader] := by
    rw [List.map_map]
    exact (map_congr_left fun token _ => htoken token).trans (map_id _)
  change (s.out.map Completion.token ++ _).Perm
    ((s.out ++ (root.followers ++ [root.leader]).map completion).map Completion.token ++ _)
  rw [map_append, hmap, append_assoc, append_nil]
  exact Perm.append_left _ perm_append_comm

lemma failRoot (error : RecurseError) : (s.failRoot root error).Inv n hole left loose [] := by
  have htold : (s.tell root (.fail · error)).Inv n hole left loose [] := h.tell fun _ => rfl
  exact { htold with }

lemma retryRoot : (s.retryRoot root).Inv n hole left loose [] := by
  have htold : (s.tell root .retry).Inv n hole left loose [] := h.tell fun _ => rfl
  exact { htold with }

end

lemma insert (h : s.Inv n none left none slot.tokens) (hok : slot.Ok) (hparent : slot.parent = left)
    (hwaits : ∀ p, left = some p → ∃ pslot, s.slab.get p = some pslot ∧ pslot.WaitsFor slot) :
    (s.insert slot).Inv n none (if slot.waits then some s.slab.next else none) none [] := by
  refine ⟨h.slab.insert slot, h.linked.insert h.slab hok hparent hwaits,
    fun key idx hlookup => ?_, h.tokens.trans ?_,
    fun i hi => (h.polled i hi).trans_le (length_le_insert _ _),
    h.size.trans (length_le_insert _ _)⟩
  · rcases h.inflight key idx hlookup with hloose | ⟨other, root, hother, hkind, hkey⟩
    · cases hloose
    · refine .inr ⟨other, root, ?_, hkind, hkey⟩
      change (s.slab.insert slot).get idx = some other
      rw [get_insert h.slab, if_neg (next_ne h.slab hother), hother]
  · have hitems := (items_insert h.slab slot).flatMap_right Slot.tokens
    refine Perm.append_left _ ?_
    rw [append_nil]
    exact perm_append_comm.trans hitems.symm

lemma insertRoot (h : s.Inv n none none none (root.followers ++ [root.leader])) (hok : slot.Ok)
    (hkind : slot.kind = .root root) :
    (s.insertRoot cfg root slot).Inv n none (if slot.waits then some s.slab.next else none)
      none [] := by
  obtain ⟨-, hparent, htokens⟩ := Slot.of_root hkind 0
  rw [← htokens] at h
  have hinsert := h.insert hok hparent fun p hp => by cases hp
  rw [Reactor.insertRoot]
  split
  · refine ⟨hinsert.slab, hinsert.linked, fun key idx hlookup => ?_, hinsert.tokens,
      hinsert.polled, hinsert.size⟩
    by_cases hkey : key = root.sfKey
    · subst hkey
      rw [AList.lookup_insert] at hlookup
      obtain rfl := some.inj hlookup
      refine .inr ⟨slot, root, ?_, hkind, rfl⟩
      change (s.slab.insert slot).get s.slab.next = some slot
      rw [get_insert h.slab, if_pos rfl]
    · rw [AList.lookup_insert_ne hkey] at hlookup
      exact hinsert.inflight key idx hlookup
  · exact hinsert

/-- A slot changes in its place, and may take on more tokens. -/
theorem putMore (h : s.Inv n none left none []) (hget : s.slab.get p = some slot)
    (hlinked : Linked (s.slab.put p slot') left') {more : List Token}
    (htokens : slot'.tokens.Perm (more ++ slot.tokens)) (hentry : slot'.entry p = slot.entry p) :
    ({ s with slab := s.slab.put p slot', taken := more ++ s.taken }).Inv n none left' none [] := by
  have hlt := lt_of_get hget
  refine ⟨h.slab.set hget, hlinked, fun key idx hlookup => ?_, ?_, fun i hi => ?_, ?_⟩
  · rcases h.inflight key idx hlookup with hloose | ⟨other, root, hother, hkind, hkey⟩
    · cases hloose
    right
    rw [get_put hlt]
    by_cases heq : p = idx
    · subst heq
      rw [hget] at hother
      obtain rfl := some.inj hother
      rw [Slot.entry, Slot.entry, hkind] at hentry
      cases hkind' : slot'.kind with
      | root root' =>
        rw [hkind'] at hentry
        refine ⟨slot', root', if_pos rfl, hkind', ?_⟩
        rw [← hkey]
        exact (Prod.mk.inj (some.inj hentry)).2
      | nsAddr parent =>
        rw [hkind'] at hentry
        cases hentry
      | dnskey parent zone =>
        rw [hkind'] at hentry
        cases hentry
    · exact ⟨other, root, by rw [if_neg heq, hother], hkind, hkey⟩
  · have hbefore := (items_take hget).flatMap_right Slot.tokens
    have hafter := (items_set hget slot').flatMap_right Slot.tokens
    have hitems : ((s.slab.put p slot').items.flatMap Slot.tokens).Perm
        (more ++ s.slab.items.flatMap Slot.tokens) := by
      refine hafter.trans ((htokens.append_right _).trans ?_)
      rw [append_assoc]
      exact hbefore.symm.append_left more
    refine (h.tokens.append_left more).trans ?_
    rw [append_nil, append_nil, ← append_assoc]
    refine (perm_append_comm.append_right _).trans ?_
    rw [append_assoc]
    exact hitems.symm.append_left _
  · rw [length_put]
    exact h.polled i hi
  · rw [length_put]
    exact h.size

lemma put (h : s.Inv n none left none []) (hget : s.slab.get p = some slot)
    (hlinked : Linked (s.slab.put p slot') left') (htokens : slot'.tokens = slot.tokens)
    (hentry : slot'.entry p = slot.entry p) :
    ({ s with slab := s.slab.put p slot' }).Inv n none left' none [] :=
  h.putMore hget hlinked (Perm.of_eq htokens : slot'.tokens.Perm ([] ++ slot.tokens)) hentry

end Reactor.Inv

end OnetDns.Recurse
