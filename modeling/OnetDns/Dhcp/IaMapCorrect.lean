import OnetDns.Dhcp.IaChains
import OnetDns.Lib.Sieve

/-!
# An `IaMap` is a finite map

Read as a map from DUID and IAID to address and expiry, inserting, removing and sweeping an `IaMap`
do what their names say, and every link that they follow is there.
-/
namespace OnetDns.Dhcp6
open Tally List Option AList

variable {m m' : IaMap} {d d' : Duid} {i j : Iaid} {first v : IaValue} {l : List Iaid}

namespace IaMap

def lookup (m : IaMap) (k : Duid × Iaid) : Option (ℕ × ℕ) := (m.get k.1 k.2).map data

/-- The other IAs of every DUID form a chain. -/
structure WellLinked (m : IaMap) : Prop where
  fit : ∀ d first, m.primary.lookup d = some first → ¬unfit d
  chain : ∀ d first, m.primary.lookup d = some first →
    ∃ l, Chain (additionalAt m.additional d) first l
  orphan : ∀ d, m.primary.lookup d = none → ∀ i, additionalAt m.additional d i = none

lemma get_some (h : m.primary.lookup d = some first) (i : Iaid) : m.get d i =
    if first.iaid = i then some first else (additionalAt m.additional d i).map (·.value) := by
  rw [get, h]
  rfl

lemma lookup_some (h : m.primary.lookup d = some first) (i : Iaid) : m.lookup (d, i) =
    if first.iaid = i then some (data first)
    else (additionalAt m.additional d i).map fun a => data a.value := by
  rw [lookup, get_some h]
  split
  · rfl
  · rw [Option.map_map]
    rfl

lemma lookup_none (h : m.primary.lookup d = none) (i : Iaid) : m.lookup (d, i) = none := by
  rw [lookup, get, h]
  rfl

lemma lookup_congr (hprimary : m'.primary.lookup d = m.primary.lookup d)
    (hadditional : ∀ j, additionalAt m'.additional d j = additionalAt m.additional d j)
    (i : Iaid) : m'.lookup (d, i) = m.lookup (d, i) := by
  simp only [lookup, get, hprimary, hadditional]

lemma wellLinked_empty : empty.WellLinked := by
  refine ⟨fun d first h => ?_, fun d first h => ?_, fun d _ i => ?_⟩
  · cases h
  · cases h
  · cases hkey : secondaryIaKey d i with
    | none => simp [additionalAt, hkey]
    | some key => exact additionalAt_eq hkey

lemma lookup_empty (k : Duid × Iaid) : empty.lookup k = none := rfl

/-- Only what is stored for one DUID is changed. -/
structure Within (m m' : IaMap) (d : Duid) : Prop where
  primary : ∀ d', d' ≠ d → m'.primary.lookup d' = m.primary.lookup d'
  additional : ∀ d' j, d' ≠ d → additionalAt m'.additional d' j = additionalAt m.additional d' j

lemma Within.lookup_eq (h : Within m m' d) (hne : d' ≠ d) (i : Iaid) :
    m'.lookup (d', i) = m.lookup (d', i) :=
  lookup_congr (h.primary d' hne) (fun j => h.additional d' j hne) i

lemma WellLinked.within (h : m.WellLinked) (hwithin : Within m m' d)
    (hnone : m'.primary.lookup d = none → ∀ i, additionalAt m'.additional d i = none)
    (hsome : ∀ first, m'.primary.lookup d = some first → ¬unfit d ∧ ∃ l, Chain
      (additionalAt m'.additional d) first l) : m'.WellLinked := by
  refine ⟨fun d' first hfirst => ?_, fun d' first hfirst => ?_, fun d' hlookup i => ?_⟩
  · by_cases hd : d' = d
    · subst hd
      exact (hsome first hfirst).1
    · rw [hwithin.primary d' hd] at hfirst
      exact h.fit d' first hfirst
  · by_cases hd : d' = d
    · subst hd
      exact (hsome first hfirst).2
    rw [hwithin.primary d' hd] at hfirst
    obtain ⟨l, hl⟩ := h.chain d' first hfirst
    have hslots : additionalAt m'.additional d' = additionalAt m.additional d' :=
      funext fun j => hwithin.additional d' j hd
    exact ⟨l, hslots ▸ hl⟩
  · by_cases hd : d' = d
    · subst hd
      exact hnone hlookup i
    · rw [hwithin.primary d' hd] at hlookup
      rw [hwithin.additional d' i hd]
      exact h.orphan d' hlookup i

lemma WellLinked.changed (h : m.WellLinked) (hwithin : Within m m' d) (hfit : ¬unfit d)
    (hp : m'.primary.lookup d = some v) (hl : Chain (additionalAt m'.additional d) v l) :
    m'.WellLinked := by
  refine h.within hwithin (fun hno => ?_) fun first hsome => ?_
  · rw [hp] at hno
    cases hno
  · obtain rfl := some.inj (hp.symm.trans hsome)
    exact ⟨hfit, l, hl⟩

lemma within_primary (m : IaMap) (d : Duid) (v : IaValue) :
    Within m { m with primary := m.primary.insert d v } d :=
  ⟨fun _ hne => lookup_insert_ne hne, fun _ _ _ => rfl⟩

lemma pair_ne_of_duid (hne : d' ≠ d) (i j : Iaid) : (d', i) ≠ (d, j) :=
  fun heq => hne (congrArg Prod.fst heq)

/-- What inserting gives. -/
structure Inserted (m m' : IaMap) (d : Duid) (v : IaValue) (old : Option IaValue) : Prop where
  wellLinked : m'.WellLinked
  lookup_eq : ∀ k, m'.lookup k = if k = (d, v.iaid) then some (data v) else m.lookup k
  old_eq : old.map data = m.lookup (d, v.iaid)
  len_eq : m'.len + (m.lookup (d, v.iaid)).isSome.toNat = m.len + 1

lemma len_eq (m : IaMap) : m.len = size m.primary + size m.additional := rfl

lemma lookup_update (hwithin : Within m m' d) {value : Option (ℕ × ℕ)}
    (hd : ∀ j, m'.lookup (d, j) = if j = i then value else m.lookup (d, j)) (k : Duid × Iaid) :
    m'.lookup k = if k = (d, i) then value else m.lookup k := by
  obtain ⟨d', j⟩ := k
  by_cases heq : d' = d
  · subst heq
    simp only [hd, Prod.mk.injEq, true_and]
  · rw [hwithin.lookup_eq heq, if_neg (pair_ne_of_duid heq j i)]

section

variable (h : m.WellLinked)
include h

lemma insert_vacant (hfit : ¬unfit d) (hnone : m.primary.lookup d = none) :
    ∃ m', m.insert d v = some (none, m') ∧ Inserted m m' d v none := by
  have hslots := h.orphan d hnone
  set m₁ : IaMap := { m with primary := m.primary.insert d { v with link := v.iaid } }
  have hfirst : m₁.primary.lookup d = some { v with link := v.iaid } := lookup_insert ..
  have hwithin : Within m m₁ d := within_primary m d _
  refine ⟨m₁, ?_, ?_, ?_, ?_, ?_⟩
  · rw [insert, if_neg hfit, hnone]
  · exact h.changed hwithin hfit hfirst (.empty hslots rfl)
  · refine lookup_update hwithin fun j => ?_
    rw [lookup_some hfirst, lookup_none hnone]
    by_cases hj : j = v.iaid
    · subst hj
      simp [data]
    · simp [Ne.symm hj, hj, m₁, hslots]
  · rw [lookup_none hnone]
    rfl
  · rw [lookup_none hnone, len_eq, len_eq]
    simp only [m₁, size_insert_of_none hnone, isSome_none, Bool.toNat_false]
    omega

section

variable (hfirst : m.primary.lookup d = some first)
include hfirst

lemma insert_first (heq : first.iaid = v.iaid) :
    ∃ m', m.insert d v = some (some first, m') ∧ Inserted m m' d v (some first) := by
  have hfit := h.fit d first hfirst
  obtain ⟨l, hl⟩ := h.chain d first hfirst
  set m₁ : IaMap := { m with primary := m.primary.insert d { v with link := first.link } }
  have hfirst₁ : m₁.primary.lookup d = some { v with link := first.link } := lookup_insert ..
  have hwithin : Within m m₁ d := within_primary m d _
  have hat : m.lookup (d, v.iaid) = some (data first) := by rw [lookup_some hfirst, if_pos heq]
  refine ⟨m₁, ?_, ?_, ?_, ?_, ?_⟩
  · simp only [insert, if_neg hfit, hfirst, if_pos heq, m₁]
  · refine h.changed hwithin hfit hfirst₁ (hl.reroot ?_ (heq ▸ hl.first_notMem))
    simp [firstOf, heq]
  · refine lookup_update hwithin fun j => ?_
    rw [lookup_some hfirst₁, lookup_some hfirst, heq]
    by_cases hj : j = v.iaid
    · subst hj
      simp [data]
    · simp [Ne.symm hj, hj, m₁]
  · rw [hat]
    rfl
  · rw [hat, len_eq, len_eq]
    simp only [m₁, size_insert_of_some hfirst, isSome_some, Bool.toNat_true]

lemma insert_again (hne : first.iaid ≠ v.iaid) {a : AdditionalIaValue}
    (ha : additionalAt m.additional d v.iaid = some a) :
    ∃ m', m.insert d v = some (some a.value, m') ∧ Inserted m m' d v (some a.value) := by
  have hfit := h.fit d first hfirst
  obtain ⟨l, hl⟩ := h.chain d first hfirst
  obtain ⟨key, hkey, hlookup⟩ := additionalAt_some ha
  set renewed : AdditionalIaValue := { a with value := { v with link := a.value.link } }
  set m₁ : IaMap := { m with additional := m.additional.insert key renewed }
  have hslots : ∀ d' j, additionalAt m₁.additional d' j =
      if d' = d ∧ j = v.iaid then some renewed else additionalAt m.additional d' j :=
    additionalAt_insert hkey
  have hwithin : Within m m₁ d :=
    ⟨fun _ _ => rfl, fun d' j hd => by rw [hslots, if_neg fun h => hd h.1]⟩
  have hat : m.lookup (d, v.iaid) = some (data a.value) := by
    rw [lookup_some hfirst, if_neg hne, ha]
    rfl
  refine ⟨m₁, ?_, ?_, ?_, ?_, ?_⟩
  · simp only [insert, if_neg hfit, hfirst, if_neg hne, hkey, hlookup, m₁, renewed]
  · refine h.changed hwithin hfit hfirst (hl.content fun j => ?_)
    rw [hslots]
    by_cases hj : j = v.iaid
    · subst hj
      simp [ha, Chain.frame, renewed, hl.named _ _ ha]
    · simp [hj]
  · refine lookup_update hwithin fun j => ?_
    have hfirst₁ : m₁.primary.lookup d = some first := hfirst
    rw [lookup_some hfirst₁, lookup_some hfirst, hslots]
    by_cases hj : j = v.iaid
    · subst hj
      simp [hne, renewed, data]
    · simp [hj]
  · rw [hat]
    rfl
  · rw [hat, len_eq, len_eq]
    simp only [m₁, size_insert_of_some hlookup, isSome_some, Bool.toNat_true]

lemma insert_new (hne : first.iaid ≠ v.iaid) (hnone : additionalAt m.additional d v.iaid = none) :
    ∃ m', m.insert d v = some (none, m') ∧ Inserted m m' d v none := by
  have hfit := h.fit d first hfirst
  obtain ⟨l, hl⟩ := h.chain d first hfirst
  have hkey := secondaryIaKey_eq hfit v.iaid
  set key := UInt8.ofNat d.length :: (d ++ List.replicate (MAX_DUID_LEN - d.length) 0) ++
    v.iaid.toList
  have hlookup : m.additional.lookup key = none := by rw [← additionalAt_eq hkey, hnone]
  have hvl : v.iaid ∉ l := fun hmem => by
    obtain ⟨a, ha⟩ := hl.exists_of_mem hmem
    rw [hnone] at ha
    cases ha
  have hv : v.iaid ∉ first.iaid :: l := by
    rw [mem_cons, not_or]
    exact ⟨Ne.symm hne, hvl⟩
  have hat : m.lookup (d, v.iaid) = none := by
    rw [lookup_some hfirst, if_neg hne, hnone]
    rfl
  have hsizeP := size_insert_of_some hfirst { first with link := v.iaid }
  -- The map that is left, from what the slots of the DUID are then.
  have hdone : ∀ (additional : Additional) (a : AdditionalIaValue),
      size additional = size m.additional + 1 →
      (∀ d' j, d' ≠ d → additionalAt additional d' j = additionalAt m.additional d' j) →
      additionalAt additional d v.iaid = some a → data a.value = data v →
      (∀ j, j ≠ v.iaid → (additionalAt additional d j).map (fun b => data b.value) =
        (additionalAt m.additional d j).map fun b => data b.value) →
      Chain (additionalAt additional d) { first with link := v.iaid } (v.iaid :: l) →
      Inserted m ⟨m.primary.insert d { first with link := v.iaid }, additional⟩ d v none := by
    intro additional a hsize hothers ha hdata hsame hchain
    have hfirst₁ : (IaMap.mk (m.primary.insert d { first with link := v.iaid })
        additional).primary.lookup d = some { first with link := v.iaid } := lookup_insert ..
    have hwithin : Within m ⟨m.primary.insert d { first with link := v.iaid }, additional⟩ d :=
      ⟨fun d' hd => lookup_insert_ne hd, hothers⟩
    refine ⟨h.changed hwithin hfit hfirst₁ hchain, ?_, ?_, ?_⟩
    · refine lookup_update hwithin fun j => ?_
      rw [lookup_some hfirst₁, lookup_some hfirst]
      by_cases hj : j = v.iaid
      · subst hj
        simp [hne, ha, hdata]
      · rw [if_neg hj, hsame j hj]
        rfl
    · rw [hat]
      rfl
    · rw [hat, len_eq, len_eq]
      simp only [isSome_none, Bool.toNat_false]
      omega
  by_cases hend : first.link = first.iaid
  · obtain rfl := hl.eq_nil hend
    set a : AdditionalIaValue := ⟨{ v with link := v.iaid }, v.iaid⟩
    have hslots := additionalAt_insert (x := m.additional) (a := a) hkey
    refine ⟨⟨m.primary.insert d { first with link := v.iaid }, m.additional.insert key a⟩, ?_,
      hdone _ a (size_insert_of_none hlookup a) (fun d' j hd => ?_) (by simp [hslots]) rfl (fun j hj => ?_)
        (hl.push hv rfl rfl (by simp [hslots]; rfl) rfl ?_ rfl (fun j hj => ?_) (fun j hj => ?_)
          fun j hj => ?_)⟩
    · simp [insert, hfit, hfirst, hne, hkey, hlookup, hend, a]
    · rw [hslots, if_neg fun h => hd h.1]
    · simp [hslots, hj]
    · simp [a]
    · simp [hslots, hj]
    · simp [nextOf, hslots, hj]
    · simp [prevOf, hslots, hj]
  have hhead := hl.head_eq hend
  have hmem := mem_of_head? hhead
  obtain ⟨b, hb⟩ := hl.exists_of_mem hmem
  obtain ⟨x₁, hx₁, hsize₁, hslots₁⟩ := relink_eq (fun head => { head with previous := v.iaid }) hb
  set a : AdditionalIaValue := ⟨{ v with link := first.link }, v.iaid⟩
  have hslots := additionalAt_insert (x := x₁) (a := a) hkey
  have hlink : first.link ≠ v.iaid := fun heq => hvl (heq ▸ hmem)
  have hfree : x₁.lookup key = none := by
    rw [← additionalAt_eq hkey, hslots₁, if_neg fun h => hlink h.2.symm, hnone]
  have hsize := size_insert_of_none hfree a
  refine ⟨⟨m.primary.insert d { first with link := v.iaid }, x₁.insert key a⟩, ?_,
    hdone _ a (by omega) (fun d' j hd => ?_) (by simp [hslots]) rfl (fun j hj => ?_)
      (hl.push hv rfl rfl (by simp [hslots]; rfl) rfl ?_ rfl (fun j hj => ?_) (fun j hj => ?_)
        fun j hj => ?_)⟩
  · simp [insert, hfit, hfirst, hne, hkey, hlookup, hend, hx₁, a]
  · rw [hslots, if_neg fun h => hd h.1, hslots₁, if_neg fun h => hd h.1]
  · by_cases hjl : j = first.link
    · subst hjl
      simp [hslots, hslots₁, hj, hb]
    · simp [hslots, hslots₁, hj, hjl]
  · rw [hhead]
    exact linkFrom_ne hlink
  · by_cases hjl : j = first.link
    · subst hjl
      simp [hslots, hslots₁, hj, hb]
    · simp [hslots, hslots₁, hj, hjl]
  · by_cases hjl : j = first.link
    · subst hjl
      simp [nextOf, hslots, hslots₁, hj, hb]
    · simp [nextOf, hslots, hslots₁, hj, hjl]
  · by_cases hjl : j = first.link
    · subst hjl
      simp [prevOf, hslots, hslots₁, hj, hhead, linkFrom_ne (Ne.symm hj)]
    · have hno : ¬l.head? = some j := by
        rw [hhead, some_inj]
        exact Ne.symm hjl
      simp [prevOf, hslots, hslots₁, hj, hjl, hno]

end

lemma insert_spec (hfit : ¬unfit d) (v : IaValue) :
    ∃ old m', m.insert d v = some (old, m') ∧ Inserted m m' d v old := by
  cases hfirst : m.primary.lookup d with
  | none => exact ⟨none, insert_vacant h hfit hfirst⟩
  | some first =>
    by_cases heq : first.iaid = v.iaid
    · exact ⟨_, insert_first h hfirst heq⟩
    · cases ha : additionalAt m.additional d v.iaid with
      | none => exact ⟨none, insert_new h hfirst heq ha⟩
      | some a => exact ⟨_, insert_again h hfirst heq ha⟩

end

/-- What removing gives. -/
structure Removed (m m' : IaMap) (d : Duid) (i : Iaid) (old : Option IaValue) : Prop where
  wellLinked : m'.WellLinked
  lookup_eq : ∀ k, m'.lookup k = if k = (d, i) then none else m.lookup k
  old_eq : old.map data = m.lookup (d, i)
  len_eq : m'.len + (m.lookup (d, i)).isSome.toNat = m.len

section

variable (h : m.WellLinked)
include h

lemma removed_none (hnone : m.lookup (d, i) = none) : Removed m m d i none := by
  refine ⟨h, fun k => ?_, hnone.symm, by simp [hnone]⟩
  split
  · rename_i heq
    rw [heq, hnone]
  · rfl

section

variable (hfirst : m.primary.lookup d = some first)
include hfirst

lemma removed_only (hend : first.link = first.iaid) :
    Removed m { m with primary := m.primary.erase d } d first.iaid (some first) := by
  obtain ⟨l, hl⟩ := h.chain d first hfirst
  obtain rfl := hl.eq_nil hend
  have hat : m.lookup (d, first.iaid) = some (data first) := by rw [lookup_some hfirst, if_pos rfl]
  set m₁ : IaMap := { m with primary := m.primary.erase d }
  have hnone : m₁.primary.lookup d = none := lookup_erase _ _
  have hslots : ∀ j, additionalAt m.additional d j = none := fun j => hl.none_of_notMem not_mem_nil
  have hwithin : Within m m₁ d := ⟨fun d' hd => lookup_erase_ne hd, fun _ _ _ => rfl⟩
  refine ⟨?_, ?_, ?_, ?_⟩
  · refine h.within hwithin (fun _ => hslots) fun first' hsome => ?_
    rw [hnone] at hsome
    cases hsome
  · refine lookup_update hwithin fun j => ?_
    rw [lookup_none hnone, lookup_some hfirst, hslots]
    by_cases hj : j = first.iaid
    · rw [if_pos hj]
    · rw [if_neg hj, if_neg (Ne.symm hj)]
      rfl
  · rw [hat]
    rfl
  · have hsize := size_erase_of_some hfirst
    rw [hat, len_eq, len_eq]
    simp only [isSome_some, Bool.toNat_true, m₁]
    omega

lemma removed_promoted {r : List Iaid} (hl : Chain (additionalAt m.additional d) first (i :: r)) :
    ∃ a x, promote m.additional d i = some (a, x) ∧ a.iaid = i ∧ size x + 1 = size m.additional ∧
      Chain (additionalAt x d) a r ∧ ∀ primary : Primary, primary.lookup d = some a →
        (∀ d', d' ≠ d → primary.lookup d' = m.primary.lookup d') → size primary = size m.primary →
        Removed m ⟨primary, x⟩ d first.iaid (some first) := by
  have hfit := h.fit d first hfirst
  have hne : i ≠ first.iaid := fun heq => hl.first_notMem (heq ▸ mem_cons_self)
  have hat : m.lookup (d, first.iaid) = some (data first) := by rw [lookup_some hfirst, if_pos rfl]
  obtain ⟨a, ha⟩ := hl.exists_of_mem mem_cons_self
  obtain ⟨x, hx, hsize, hchain, hgone, hothers, hsame⟩ := promote_eq hl ha
  have hname := hl.named _ _ ha
  refine ⟨a.value, x, hx, hname, hsize, hchain, fun primary hprimary hother hsizeP => ?_⟩
  have hfirst₁ : (IaMap.mk primary x).primary.lookup d = some a.value := hprimary
  have hwithin : Within m ⟨primary, x⟩ d := ⟨hother, hothers⟩
  refine ⟨?_, ?_, ?_, ?_⟩
  · exact h.changed hwithin hfit hfirst₁ hchain
  · refine lookup_update hwithin fun j => ?_
    rw [lookup_some hfirst₁, lookup_some hfirst, hname]
    by_cases hj : j = first.iaid
    · subst hj
      have hslot : (additionalAt x d first.iaid).map (fun b => data b.value) = none := by
        rw [hsame _ (Ne.symm hne), hl.first_none]
        rfl
      rw [if_neg hne, if_pos rfl]
      exact hslot
    rw [if_neg hj, if_neg (Ne.symm hj)]
    by_cases hji : j = i
    · subst hji
      simp [ha]
    · rw [if_neg (Ne.symm hji)]
      exact hsame j hji
  · rw [hat]
    rfl
  · rw [hat, len_eq, len_eq]
    simp only [isSome_some, Bool.toNat_true]
    omega

lemma remove_first : ∃ m', m.remove d first.iaid = some (some first, m') ∧
      Removed m m' d first.iaid (some first) := by
  have hfit := h.fit d first hfirst
  by_cases hend : first.link = first.iaid
  · exact ⟨_, by simp [remove, hfirst, hend], removed_only h hfirst hend⟩
  obtain ⟨l, hl⟩ := h.chain d first hfirst
  obtain ⟨r, rfl⟩ := List.head?_eq_some_iff.mp (hl.head_eq hend)
  obtain ⟨a, x, hx, -, -, -, hremoved⟩ := removed_promoted h hfirst hl
  refine ⟨⟨(m.primary.erase d).insert d a, x⟩, by simp [remove, hfirst, hend, hfit, hx],
    hremoved _ (lookup_insert ..)
      (fun d' hd => (lookup_insert_ne hd).trans (lookup_erase_ne hd)) ?_⟩
  rw [size_insert_of_none (lookup_erase ..), size_erase_of_some hfirst]

end

end

variable {p p₁ : IaValue} {x rest rest₁ : Additional} {r : List Iaid}

lemma linkFrom_over {next c : Iaid} (h : linkFrom i next = r.head?) (hc : c ∉ r) :
    linkFrom c (if next = i then c else next) = r.head? := by
  by_cases hend : next = i
  · rw [if_pos hend, linkFrom_self, ← h, hend, linkFrom_self]
  · rw [if_neg hend, ← h, linkFrom_ne hend]
    refine linkFrom_ne fun heq => hc ?_
    rw [linkFrom_ne hend] at h
    exact heq ▸ mem_of_head? h.symm

/-- An IA was taken out, and what is before it leads past it. -/
structure Bypassed (x rest : Additional) (d : Duid) (i : Iaid) (p p₁ : IaValue)
    (l r : List Iaid) : Prop where
  name : p₁.iaid = p.iaid
  data_eq : data p₁ = data p
  first : firstOf p₁ = if l = [] then r.head? else firstOf p
  others : ∀ d' j, d' ≠ d → additionalAt rest d' j = additionalAt x d' j
  gone : additionalAt rest d i = none
  same : ∀ j, j ≠ i →
    (additionalAt rest d j).map (fun b => (data b.value, b.value.iaid, b.previous)) =
      (additionalAt x d j).map fun b => (data b.value, b.value.iaid, b.previous)
  next : ∀ j, j ≠ i → nextOf (additionalAt rest d) j =
    if l.getLast? = some j then r.head? else nextOf (additionalAt x d) j

lemma bypassed_first
    (hrest : ∀ d' j, additionalAt rest d' j = if d' = d ∧ j = i then none else additionalAt x d' j)
    {link : Iaid} (hlink : linkFrom p.iaid link = r.head?) :
    Bypassed x rest d i p { p with link := link } [] r := by
  refine ⟨rfl, rfl, hlink, fun d' j hd => ?_, by simp [hrest], fun j hj => by simp [hrest, hj],
    fun j hj => by simp [nextOf, hrest, hj]⟩
  rw [hrest, if_neg fun h => hd h.1]

lemma bypassed_previous {q : Iaid} (hl : Chain (additionalAt x d) p (l ++ i :: r))
    (hrest : ∀ d' j, additionalAt rest d' j = if d' = d ∧ j = i then none else additionalAt x d' j)
    (hlast : l.getLast? = some q) {f : AdditionalIaValue → AdditionalIaValue}
    (hsame : ∀ b, b.value.iaid = q → data (f b).value = data b.value ∧ (f b).value.iaid =
      b.value.iaid ∧ (f b).previous = b.previous)
    (hlink : ∀ b, b.value.iaid = q → linkFrom q (f b).value.link = r.head?) :
    ∃ rest₁, relink rest d q f = some rest₁ ∧ size rest₁ = size rest ∧
      Bypassed x rest₁ d i p p l r := by
  have hmem := mem_of_getLast? hlast
  have hnodup := (nodup_cons.mp hl.nodup).2
  have hqi : q ≠ i := by
    rintro rfl
    exact (disjoint_of_nodup_append hnodup) hmem mem_cons_self
  obtain ⟨b, hb⟩ := hl.exists_of_mem (mem_append_left _ hmem)
  have hnamed := hl.named _ _ hb
  have hb' : additionalAt rest d q = some b := by rw [hrest, if_neg fun h => hqi h.2, hb]
  obtain ⟨rest₁, hrest₁, hsize₁, hslots₁⟩ := relink_eq f hb'
  refine ⟨rest₁, hrest₁, hsize₁, rfl, rfl, ?_, fun d' j hd => ?_, ?_, fun j hj => ?_,
    fun j hj => ?_⟩
  · rw [if_neg (ne_nil_of_mem hmem)]
  · rw [hslots₁, if_neg fun h => hd h.1, hrest, if_neg fun h => hd h.1]
  · rw [hslots₁, if_neg fun h => hqi h.2.symm, hrest, if_pos ⟨rfl, rfl⟩]
  · by_cases hjq : j = q
    · subst hjq
      obtain ⟨hdata, hname, hprevious⟩ := hsame b hnamed
      simp [hslots₁, hb, hdata, hname, hprevious]
    · simp [hslots₁, hrest, hj, hjq]
  · by_cases hjq : j = q
    · subst hjq
      rw [if_pos hlast, nextOf, hslots₁, if_pos ⟨rfl, rfl⟩, bind_some, hlink b hnamed]
    · have hno : ¬l.getLast? = some j := by
        rw [hlast, some_inj]
        exact Ne.symm hjq
      simp [nextOf, hslots₁, hrest, hj, hjq, hno]

namespace Bypassed

section

variable (h : Bypassed x rest d i p p₁ l r)
include h

lemma names (hj : j ≠ i) :
    (additionalAt rest d j).map (·.value.iaid) = (additionalAt x d j).map (·.value.iaid) := by
  have := congrArg (Option.map fun c => c.2.1) (h.same j hj)
  simpa [Function.comp_def] using this

lemma datas (hj : j ≠ i) :
    (additionalAt rest d j).map (fun b => data b.value) =
      (additionalAt x d j).map fun b => data b.value := by
  have := congrArg (Option.map fun c => c.1) (h.same j hj)
  simpa [Function.comp_def] using this

lemma prevs (hj : j ≠ i) : prevOf (additionalAt rest d) j = prevOf (additionalAt x d) j := by
  have := congrArg (Option.bind · fun c => linkFrom j c.2.2) (h.same j hj)
  simpa [prevOf, bind_map] using this

end

end Bypassed

/-- An IA is out of the chain of a DUID; the others are as they were. -/
structure Unlinked (x rest : Additional) (d : Duid) (i : Iaid) (p₁ : IaValue)
    (l : List Iaid) : Prop where
  chain : Chain (additionalAt rest d) p₁ l
  gone : additionalAt rest d i = none
  others : ∀ d' j, d' ≠ d → additionalAt rest d' j = additionalAt x d' j
  datas : ∀ j, j ≠ i → (additionalAt rest d j).map (fun b => data b.value) =
    (additionalAt x d j).map fun b => data b.value

lemma Bypassed.unlinked_last (h : Bypassed x rest d i p p₁ l [])
    (hl : Chain (additionalAt x d) p (l ++ [i])) : Unlinked x rest d i p₁ l := by
  have hchain : Chain (additionalAt rest d) p₁ (l ++ []) := by
    refine hl.unlink h.name h.first h.gone (fun j hj => h.names hj) h.next fun j hj => ?_
    rw [h.prevs hj, if_neg (by simp)]
  rw [append_nil] at hchain
  exact ⟨hchain, h.gone, h.others, fun j hj => h.datas hj⟩

/-- What is behind it leads back past it. -/
theorem Bypassed.unlinked {k : Iaid} (h : Bypassed x rest₁ d i p p₁ l (k :: r))
    (hl : Chain (additionalAt x d) p (l ++ i :: k :: r))
    {f : AdditionalIaValue → AdditionalIaValue} (hsame : ∀ b, (f b).value = b.value)
    (hlink : ∀ b, b.value.iaid = k → linkFrom k (f b).previous = l.getLast?) :
    ∃ rest₂, relink rest₁ d k f = some rest₂ ∧ size rest₂ = size rest₁ ∧
      Unlinked x rest₂ d i p₁ (l ++ k :: r) := by
  have hnodup := (nodup_cons.mp hl.nodup).2
  have hki : k ≠ i := by
    rintro rfl
    have hmiddle := (nodup_append.mp hnodup).2.1
    exact (nodup_cons.mp hmiddle).1 mem_cons_self
  obtain ⟨b, hb⟩ := hl.exists_of_mem (mem_append_right l (mem_cons_of_mem i mem_cons_self))
  obtain ⟨c, hc, heq⟩ : ∃ c, additionalAt rest₁ d k = some c ∧ c.value.iaid = k := by
    have hmap := h.names hki
    rw [hb, map_some] at hmap
    obtain ⟨c, hc, heq⟩ := map_eq_some_iff.mp hmap
    exact ⟨c, hc, heq.trans (hl.named _ _ hb)⟩
  obtain ⟨rest₂, hrest₂, hsize₂, hslots₂⟩ := relink_eq f hc
  refine ⟨rest₂, hrest₂, hsize₂, hl.unlink h.name h.first ?_ (fun j hj => ?_) (fun j hj => ?_)
    fun j hj => ?_, ?_, fun d' j hd => ?_, fun j hj => ?_⟩
  · rw [hslots₂, if_neg fun h => hki h.2.symm, h.gone]
  · rw [← h.names hj, hslots₂]
    by_cases hjk : j = k
    · subst hjk
      simp [hc, hsame]
    · simp [hjk]
  · rw [← h.next j hj, nextOf, nextOf, hslots₂]
    by_cases hjk : j = k
    · subst hjk
      simp [hc, hsame]
    · simp [hjk]
  · by_cases hjk : j = k
    · subst hjk
      rw [List.head?_cons, if_pos rfl, prevOf, hslots₂, if_pos ⟨rfl, rfl⟩]
      exact hlink c heq
    · have hno : ¬(k :: r).head? = some j := by simpa using Ne.symm hjk
      rw [if_neg hno, ← h.prevs hj, prevOf, prevOf, hslots₂, if_neg fun h => hjk h.2]
  · rw [hslots₂, if_neg fun h => hki h.2.symm, h.gone]
  · rw [hslots₂, if_neg fun h => hd h.1, h.others d' j hd]
  · rw [← h.datas hj, hslots₂]
    by_cases hjk : j = k
    · subst hjk
      simp [hc, hsame]
    · simp [hjk]

section

variable (h : m.WellLinked)
include h

/-- The map once another IA was taken out of the chain of its DUID. -/
theorem removed_unlinked (hfirst : m.primary.lookup d = some first) {removed : AdditionalIaValue}
    (hi : additionalAt m.additional d i = some removed) (hne : first.iaid ≠ i) {primary : Primary}
    (hp : primary.lookup d = some p₁) (hname : p₁.iaid = first.iaid) (hdata : data p₁ = data first)
    (hother : ∀ d', d' ≠ d → primary.lookup d' = m.primary.lookup d')
    (hsizeP : size primary = size m.primary) (hsize : size rest + 1 = size m.additional)
    (hrest : Unlinked m.additional rest d i p₁ l) :
    Removed m ⟨primary, rest⟩ d i (some removed.value) := by
  have hfit := h.fit d first hfirst
  have hat : m.lookup (d, i) = some (data removed.value) := by
    rw [lookup_some hfirst, if_neg hne, hi]
    rfl
  have hlook₁ : (IaMap.mk primary rest).primary.lookup d = some p₁ := hp
  have hwithin : Within m ⟨primary, rest⟩ d := ⟨hother, hrest.others⟩
  refine ⟨?_, ?_, ?_, ?_⟩
  · exact h.changed hwithin hfit hlook₁ hrest.chain
  · refine lookup_update hwithin fun j => ?_
    rw [lookup_some hlook₁, lookup_some hfirst, hname, hdata]
    by_cases hj : j = i
    · subst hj
      rw [if_neg hne, if_pos rfl, hrest.gone]
      rfl
    · rw [if_neg hj, hrest.datas j hj]
  · rw [hat]
    rfl
  · rw [hat, len_eq, len_eq]
    simp only [isSome_some, Bool.toNat_true]
    omega

lemma remove_additional (hfirst : m.primary.lookup d = some first)
    (hne : first.iaid ≠ i) : ∃ old m', m.removeAdditional d i = some (old, m') ∧
      Removed m m' d i old := by
  have hfit := h.fit d first hfirst
  obtain ⟨l, hl⟩ := h.chain d first hfirst
  have hkey := secondaryIaKey_eq hfit i
  set key := UInt8.ofNat d.length :: (d ++ List.replicate (MAX_DUID_LEN - d.length) 0) ++ i.toList
  cases hi : additionalAt m.additional d i with
  | none =>
    refine ⟨none, m, ?_, removed_none h ?_⟩
    · rw [additionalAt_eq hkey] at hi
      simp only [removeAdditional, hkey, hi]
    · rw [lookup_some hfirst, if_neg hne, hi]
      rfl
  | some removed =>
    have hlookup : m.additional.lookup key = some removed := by rw [← additionalAt_eq hkey, hi]
    obtain ⟨l, r, rfl⟩ := append_of_mem (hl.mem_of_some hi)
    have hrest := additionalAt_erase (x := m.additional) hkey
    have hsizeE := size_erase_of_some hlookup
    have hlink := hl.link_eq hi
    have hback := hl.previous_eq hi
    have hnodup := (nodup_cons.mp hl.nodup).2
    have hout : ∀ c, c ∈ first.iaid :: l → c ∉ r := by
      intro c hc hcr
      rcases mem_cons.mp hc with rfl | hc
      · exact hl.first_notMem (mem_append_right _ (mem_cons_of_mem i hcr))
      · exact (disjoint_of_nodup_append hnodup) hc (mem_cons_of_mem i hcr)
    -- what is before it leads past it
    obtain ⟨primary₁, p₁, rest₁, hforth, hp₁, hotherP, hsizeP, hsize₁, hpast⟩ :
        ∃ primary₁ p₁ rest₁,
          (if removed.previous = i then do
              let first ← m.primary.lookup d
              let link := if removed.value.link = i then first.iaid else removed.value.link
              some (m.primary.insert d { first with link := link }, m.additional.erase key)
            else do
              let rest ← relink (m.additional.erase key) d removed.previous fun previous =>
                { previous with value := { previous.value with
                  link := if removed.value.link = i then previous.value.iaid
                    else removed.value.link } }
              some (m.primary, rest)) = some (primary₁, rest₁) ∧
          primary₁.lookup d = some p₁ ∧
          (∀ d', d' ≠ d → primary₁.lookup d' = m.primary.lookup d') ∧
          size primary₁ = size m.primary ∧ size rest₁ = size (m.additional.erase key) ∧
          Bypassed m.additional rest₁ d i first p₁ l r := by
      by_cases hstart : removed.previous = i
      · have hnil : l = [] := by
          rw [hstart, linkFrom_self] at hback
          exact List.getLast?_eq_none_iff.mp hback.symm
        subst hnil
        exact ⟨_, _, _, by rw [if_pos hstart, hfirst]; rfl, lookup_insert ..,
          fun d' hd => lookup_insert_ne hd, size_insert_of_some hfirst _, rfl,
          bypassed_first hrest (linkFrom_over hlink (hout _ mem_cons_self))⟩
      have hlast : l.getLast? = some removed.previous := by
        rw [← hback, linkFrom_ne hstart]
      have hmem := mem_of_getLast? hlast
      obtain ⟨rest₁, hrest₁, hsize₁, hpast⟩ := bypassed_previous hl hrest hlast
        (f := fun previous => { previous with value := { previous.value with
          link := if removed.value.link = i then previous.value.iaid else removed.value.link } })
        (fun b _ => ⟨rfl, rfl, rfl⟩) fun b hb => hb ▸ linkFrom_over hlink
          (hb.symm ▸ hout _ (mem_cons_of_mem _ hmem))
      exact ⟨m.primary, first, rest₁, by rw [if_neg hstart, hrest₁]; rfl, hfirst,
        fun _ _ => rfl, rfl, hsize₁, hpast⟩
    -- what is behind it leads back past it
    obtain ⟨rest₂, hthen, hsize₂, hunlinked⟩ : ∃ rest₂,
        (if removed.value.link ≠ i then relink rest₁ d removed.value.link fun a => { a with
            previous := if removed.previous = i then a.value.iaid else removed.previous }
          else some rest₁) = some rest₂ ∧ size rest₂ = size rest₁ ∧
        Unlinked m.additional rest₂ d i p₁ (l ++ r) := by
      cases r with
      | nil =>
        have hend : removed.value.link = i := linkFrom_eq_none.mp hlink
        exact ⟨rest₁, by simp [hend], rfl, by simpa using hpast.unlinked_last hl⟩
      | cons k r =>
        obtain ⟨hend, rfl⟩ := linkFrom_eq_some.mp hlink
        rw [if_pos hend]
        refine hpast.unlinked hl (fun _ => rfl) fun b hb => ?_
        rw [hb]
        by_cases hstart : removed.previous = i
        · rw [if_pos hstart, linkFrom_self, ← hback, hstart, linkFrom_self]
        have hlast : l.getLast? = some removed.previous := by
          rw [← hback, linkFrom_ne hstart]
        rw [if_neg hstart, hlast]
        refine linkFrom_ne fun heq => ?_
        exact hout _ (mem_cons_of_mem _ (mem_of_getLast? hlast)) (heq ▸ mem_cons_self)
    refine ⟨some removed.value, ⟨primary₁, rest₂⟩, ?_, removed_unlinked h hfirst hi hne hp₁
      hpast.name hpast.data_eq hotherP hsizeP (by omega) hunlinked⟩
    simp only [removeAdditional, hkey, hlookup]
    rw [hforth, bind_eq_bind, bind_some]
    rw [hthen]
    rfl

lemma remove_spec (d : Duid) (i : Iaid) :
    ∃ old m', m.remove d i = some (old, m') ∧ Removed m m' d i old := by
  cases hfirst : m.primary.lookup d with
  | none => exact ⟨none, m, by rw [remove, hfirst], removed_none h (lookup_none hfirst i)⟩
  | some first =>
    by_cases heq : first.iaid = i
    · subst heq
      obtain ⟨m', hm', hremoved⟩ := remove_first h hfirst
      exact ⟨some first, m', hm', hremoved⟩
    · obtain ⟨old, m', hm', hremoved⟩ := remove_additional h hfirst heq
      refine ⟨old, m', ?_, hremoved⟩
      rw [remove, hfirst]
      simp only [if_neg heq, hm']

lemma modify_spec {ip expiry : ℕ} (hat : m.lookup (d, i) = some (ip, expiry))
    (later : ℕ) : (m.modify d i fun v => { v with expiry := later }).WellLinked ∧
      (∀ k, (m.modify d i fun v => { v with expiry := later }).lookup k =
        if k = (d, i) then some (ip, later) else m.lookup k) ∧
      (m.modify d i fun v => { v with expiry := later }).len = m.len := by
  cases hfirst : m.primary.lookup d with
  | none =>
    rw [lookup_none hfirst] at hat
    cases hat
  | some first =>
    have hfit := h.fit d first hfirst
    obtain ⟨l, hl⟩ := h.chain d first hfirst
    rw [lookup_some hfirst] at hat
    by_cases heq : first.iaid = i
    · rw [if_pos heq, some_inj] at hat
      set p₁ : IaValue := { first with expiry := later }
      set m₁ : IaMap := { m with primary := m.primary.insert d p₁ }
      have hmodify : (m.modify d i fun v => { v with expiry := later }) = m₁ := by
        simp only [modify, hfirst, if_pos heq, m₁, p₁]
      have hlook₁ : m₁.primary.lookup d = some p₁ := lookup_insert ..
      have hwithin : Within m m₁ d := within_primary m d p₁
      rw [hmodify]
      refine ⟨h.changed hwithin hfit hlook₁ (hl.reroot rfl hl.first_notMem),
        lookup_update hwithin fun j => ?_, ?_⟩
      · rw [lookup_some hlook₁, lookup_some hfirst]
        have hdata : data p₁ = (ip, later) := by
          rw [data, Prod.mk.injEq] at hat
          rw [data, hat.1]
        by_cases hj : j = i
        · subst hj
          rw [if_pos heq, if_pos rfl, hdata]
        · have hne : ¬first.iaid = j := fun hf => hj (hf.symm.trans heq)
          rw [if_neg hne, if_neg hne, if_neg hj]
      · rw [len_eq, len_eq]
        simp only [m₁, size_insert_of_some hfirst]
    rw [if_neg heq] at hat
    obtain ⟨a, ha, hdata⟩ := map_eq_some_iff.mp hat
    obtain ⟨x, hx, hsize, hslots⟩ := relink_eq (fun a : AdditionalIaValue =>
      { a with value := { a.value with expiry := later } }) ha
    set m₁ : IaMap := { m with additional := x }
    have hmodify : (m.modify d i fun v => { v with expiry := later }) = m₁ := by
      simp only [modify, hfirst, if_neg heq, hx, m₁]
    have hlook₁ : m₁.primary.lookup d = some first := hfirst
    have hwithin : Within m m₁ d :=
      ⟨fun _ _ => rfl, fun d' j hd => by rw [hslots, if_neg fun h => hd h.1]⟩
    rw [hmodify]
    refine ⟨h.changed hwithin hfit hlook₁ (hl.content fun j => ?_),
      lookup_update hwithin fun j => ?_, ?_⟩
    · rw [hslots]
      by_cases hj : j = i
      · subst hj
        simp [ha, Chain.frame]
      · simp [hj]
    · rw [lookup_some hlook₁, lookup_some hfirst, hslots]
      by_cases hj : j = i
      · subst hj
        rw [data, Prod.mk.injEq] at hdata
        simp [heq, data, hdata.1]
      · simp [hj]
    · rw [len_eq, len_eq, hsize]

end

/-- Nothing that is stored expires earlier. -/
theorem nextExpiry_le {k : Duid × Iaid} {ip expiry : ℕ} (h : m.lookup k = some (ip, expiry)) :
    m.nextExpiry ≤ expiry := by
  have hmin : ∀ (es : List ℕ), expiry ∈ es → es.foldr min (2 ^ 64 - 1) ≤ expiry := by
    intro es hmem
    induction es with
    | nil => cases hmem
    | cons e es ih =>
      rcases mem_cons.mp hmem with rfl | hmem
      · exact min_le_left _ _
      · exact (min_le_right _ _).trans (ih hmem)
  refine hmin _ ?_
  obtain ⟨v, hv, hdata⟩ := map_eq_some_iff.mp h
  rw [Prod.mk.injEq] at hdata
  refine mem_map.mpr ⟨v, ?_, hdata.2⟩
  obtain ⟨first, hfirst, hv⟩ := bind_eq_some_iff.mp hv
  split at hv
  · cases hv
    exact mem_append_left _ (mem_map.mpr ⟨⟨k.1, v⟩, mem_entries.mpr hfirst, rfl⟩)
  · obtain ⟨a, ha, rfl⟩ := map_eq_some_iff.mp hv
    obtain ⟨key, -, hlookup⟩ := additionalAt_some ha
    exact mem_append_right _ (mem_map.mpr ⟨⟨key, a⟩, mem_entries.mpr hlookup, rfl⟩)

end IaMap

end OnetDns.Dhcp6
