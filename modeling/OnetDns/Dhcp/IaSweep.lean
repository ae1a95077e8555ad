import OnetDns.Dhcp.IaMapCorrect

/-!
# Passing over an `IaMap`

`remove_expired` and `retain_valid` make two passes over a map whose links change on the way. Every
value is visited once, and what stays is what the test of the pass says of it.
-/
namespace OnetDns.Dhcp6.IaMap
open Tally Sieve List Option AList

variable {m m' : IaMap} {d d' : Duid} {i j : Iaid} {first p₁ : IaValue} {l r : List Iaid}
  {keep : Test} {used used' : Used} {primary primary' : Primary} {x rest : Additional}
  {fuel : ℕ} {visited : List ((Duid × Iaid) × ℕ × ℕ)}

/-- The test of an address and an expiry that stand together. -/
def ofPair (keep : Test) (v : ℕ × ℕ) (used : Used) : Bool × Used := keep v.1 v.2 used

/-- What is stored under the DUIDs is all that counts. -/
theorem congr_primary (h : (IaMap.mk primary x).WellLinked)
    (hsame : ∀ d, primary'.lookup d = primary.lookup d) : (IaMap.mk primary' x).WellLinked ∧
      (IaMap.mk primary' x).lookup = (IaMap.mk primary x).lookup := by
  refine ⟨⟨fun d first hfirst => ?_, fun d first hfirst => ?_, fun d hlookup i => ?_⟩,
    funext fun k => by simp only [lookup, get, hsame]⟩
  · exact h.fit d first ((hsame d).symm.trans hfirst)
  · exact h.chain d first ((hsame d).symm.trans hfirst)
  · exact h.orphan d ((hsame d).symm.trans hlookup) i

lemma sieved_stay (hat : m.lookup (d, i) = some v) (hkeep : keep v.1 v.2 used = (true, used')) :
    Sieved (ofPair keep) m.lookup m.lookup used used' [((d, i), v)] := .stay hat hkeep

lemma sieved_drop {old : Option IaValue} (h : Removed m m' d i old)
    (hat : m.lookup (d, i) = some v) (hkeep : keep v.1 v.2 used = (false, used')) :
    Sieved (ofPair keep) m.lookup m'.lookup used used' [((d, i), v)] :=
  .drop hat hkeep h.lookup_eq

lemma keepPrimary (h : m.WellLinked) (hfirst : m.primary.lookup d = some first) :
    (IaMap.mk (m.primary.insert d first) m.additional).WellLinked ∧
      (IaMap.mk (m.primary.insert d first) m.additional).lookup = m.lookup := by
  refine congr_primary h fun d' => ?_
  by_cases hd : d' = d
  · subst hd
    rw [lookup_insert, hfirst]
  · exact lookup_insert_ne hd

def withFirst (primary : Primary) (d : Duid) : Option IaValue → Primary
  | some value => primary.insert d value
  | none => primary.erase d

lemma lookup_withFirst (primary : Primary) (d : Duid) (kept : Option IaValue) :
    (withFirst primary d kept).lookup d = kept := by
  cases kept with
  | none => exact lookup_erase _ _
  | some v => exact lookup_insert ..

lemma lookup_withFirst_ne (primary : Primary) (kept : Option IaValue) (hne : d' ≠ d) :
    (withFirst primary d kept).lookup d' = primary.lookup d' := by
  cases kept with
  | none => exact lookup_erase_ne hne
  | some v => exact lookup_insert_ne hne

lemma size_withFirst (kept : Option IaValue) (h : primary.lookup d = some first) :
    size (withFirst primary d kept) ≤ size primary := by
  cases kept with
  | none => exact (Nat.le_succ _).trans (size_erase_of_some h).le
  | some v => exact (size_insert_of_some h v).le

/-- What the first pass does to one DUID: only its new first IA stays of what was visited. -/
structure FirstPass (keep : Test) (m m' : IaMap) (d : Duid) (used used' : Used)
    (visited : List ((Duid × Iaid) × ℕ × ℕ)) : Prop where
  wellLinked : m'.WellLinked
  sieved : Sieved (ofPair keep) m.lookup m'.lookup used used' visited
  only : ∀ b ∈ visited, b.1.1 = d
  first : ∀ v, m'.primary.lookup d = some v → (d, v.iaid) ∈ visited.map Prod.fst
  stays : ∀ i, (d, i) ∈ visited.map Prod.fst → ∀ w, m'.lookup (d, i) = some w →
    ∃ v, m'.primary.lookup d = some v ∧ v.iaid = i

lemma firstPass_stays (h : m.WellLinked) (hfirst : m.primary.lookup d = some first)
    (hkeep : keep first.ip first.expiry used = (true, used')) :
    FirstPass keep m ⟨withFirst m.primary d (some first), m.additional⟩ d used used'
      [((d, first.iaid), data first)] := by
  obtain ⟨hwell, hlookup⟩ := keepPrimary h hfirst
  refine ⟨hwell, ?_, by simp, fun v hv => ?_, fun i hi w hw => ⟨first, lookup_withFirst .., ?_⟩⟩
  · exact hlookup.symm ▸ sieved_stay (by rw [lookup_some hfirst, if_pos rfl]) hkeep
  · rw [lookup_withFirst] at hv
    cases hv
    simp
  · simpa [eq_comm] using hi

lemma promoteLoop_spec (keep : Test) (used : Used) (h : m.WellLinked) (hfirst : m.primary.lookup d = some first)
    (hl : Chain (additionalAt m.additional d) first l) (hfuel : l.length < fuel) :
    ∃ kept x used' visited,
      promoteLoop keep d fuel first m.additional used = some (kept, x, used') ∧
      size x ≤ size m.additional ∧
      FirstPass keep m ⟨withFirst m.primary d kept, x⟩ d used used' visited := by
  induction fuel generalizing m first l used with
  | zero => exact absurd hfuel (Nat.not_lt_zero _)
  | succ fuel ih =>
    have hat : m.lookup (d, first.iaid) = some (data first) := by
      rw [lookup_some hfirst, if_pos rfl]
    obtain ⟨stays, used', hkeep⟩ : ∃ b u, keep first.ip first.expiry used = (b, u) := ⟨_, _, rfl⟩
    rcases stays with _ | _
    · rcases l with _ | ⟨k, r⟩
      · have hend : first.link = first.iaid := linkFrom_eq_none.mp hl.forth
        have hremoved := removed_only h hfirst hend
        refine ⟨none, m.additional, used', [((d, first.iaid), data first)], ?_, le_rfl,
          hremoved.wellLinked, sieved_drop hremoved hat hkeep, by simp, fun v hv => ?_,
          fun i hi w hw => ?_⟩
        · simp [promoteLoop, hkeep, hend]
        · rw [lookup_withFirst] at hv
          cases hv
        · rw [lookup_none (lookup_withFirst ..)] at hw
          cases hw
      obtain ⟨hend, hlink⟩ := linkFrom_eq_some.mp hl.forth.start_eq
      obtain ⟨a, x, hx, hname, hsize, hchain, hall⟩ := removed_promoted h hfirst hl
      have hremoved := hall (m.primary.insert d a) (lookup_insert ..)
        (fun d' hd => lookup_insert_ne hd) (size_insert_of_some hfirst a)
      set m₁ : IaMap := ⟨m.primary.insert d a, x⟩ with hm₁
      have hfirst₁ : m₁.primary.lookup d = some a := lookup_insert ..
      obtain ⟨kept, x', used'', visited, hloop, hsize', hpass⟩ : ∃ kept x' used'' visited,
          promoteLoop keep d fuel a m₁.additional used' = some (kept, x', used'') ∧
            size x' ≤ size m₁.additional ∧
            FirstPass keep m₁ ⟨withFirst m₁.primary d kept, x'⟩ d used' used'' visited :=
        ih used' hremoved.wellLinked hfirst₁ hchain (Nat.lt_of_succ_lt_succ hfuel)
      have hsame : ∀ d', (withFirst m.primary d kept).lookup d' =
          (withFirst m₁.primary d kept).lookup d' := by
        intro d'
        by_cases hd : d' = d
        · subst hd
          rw [lookup_withFirst, lookup_withFirst]
        · rw [lookup_withFirst_ne _ _ hd, lookup_withFirst_ne _ _ hd, lookup_insert_ne hd]
      obtain ⟨hwell, hlookup⟩ := congr_primary hpass.wellLinked hsame
      have hgone : (d, first.iaid) ∉ visited.map .fst := by
        intro hin
        obtain ⟨v, hv⟩ := hpass.sieved.some_of_mem hin
        rw [hremoved.lookup_eq, if_pos rfl] at hv
        cases hv
      refine ⟨kept, x', used'', ((d, first.iaid), data first) :: visited, ?_, ?_, hwell, ?_, ?_,
        fun v hv => ?_, fun i hi w hw => ?_⟩
      · rw [promoteLoop, hkeep]
        simp only [if_neg (hlink ▸ hend), hlink, hx]
        exact hloop
      · simp only [m₁] at hsize'
        omega
      · rw [hlookup]
        refine (sieved_drop hremoved hat hkeep).trans hpass.sieved fun k hk => ?_
        obtain rfl : k = (d, first.iaid) := by simpa using hk
        exact hgone
      · intro b hb
        rcases mem_cons.mp hb with rfl | hb
        · rfl
        · exact hpass.only b hb
      · refine mem_cons_of_mem _ (hpass.first v ?_)
        rw [lookup_withFirst] at hv ⊢
        exact hv
      · rw [hlookup] at hw
        have hin : (d, i) ∈ visited.map .fst := by
          rcases mem_cons.mp hi with heq | hi
          · rw [heq] at hw
            have := hpass.sieved.of_left hw
            rw [hremoved.lookup_eq, if_pos rfl] at this
            cases this
          · exact hi
        obtain ⟨v, hv, heq⟩ := hpass.stays i hin w hw
        rw [lookup_withFirst] at hv
        exact ⟨v, by rw [lookup_withFirst, hv], heq⟩
    · exact ⟨some first, m.additional, used', _, by simp [promoteLoop, hkeep], le_rfl,
        firstPass_stays h hfirst hkeep⟩

/-- What the first pass does to some DUIDs. -/
structure FirstPasses (keep : Test) (m m' : IaMap) (duids : List Duid) (used used' : Used)
    (visited : List ((Duid × Iaid) × ℕ × ℕ)) : Prop where
  wellLinked : m'.WellLinked
  len_le : m'.len ≤ m.len
  sieved : Sieved (ofPair keep) m.lookup m'.lookup used used' visited
  only : ∀ b ∈ visited, b.1.1 ∈ duids
  first : ∀ d ∈ duids, ∀ v, m'.primary.lookup d = some v → (d, v.iaid) ∈ visited.map Prod.fst
  stays : ∀ d ∈ duids, ∀ i, (d, i) ∈ visited.map Prod.fst → ∀ w, m'.lookup (d, i) = some w →
    ∃ v, m'.primary.lookup d = some v ∧ v.iaid = i
  others : ∀ d, d ∉ duids → m'.primary.lookup d = m.primary.lookup d ∧
    ∀ i, m'.lookup (d, i) = m.lookup (d, i)

/-- A chain is no longer than the map that it is stored in. -/
theorem chain_length_le (hl : Chain (additionalAt x d) first l) : l.length ≤ size x := by
  have hkeys : ∀ i ∈ l, ∃ key ∈ x.keys, secondaryIaKey d i = some key := by
    intro i hi
    obtain ⟨a, ha⟩ := hl.exists_of_mem hi
    obtain ⟨key, hkey, hlookup⟩ := additionalAt_some ha
    exact ⟨key, mem_keys.mp (lookup_isSome.mp (by rw [hlookup]; rfl)), hkey⟩
  have hnodup : (l.map (secondaryIaKey d)).Nodup := by
    refine Nodup.map_on (fun i hi j hj heq => ?_) (nodup_cons.mp hl.nodup).2
    obtain ⟨key, -, hkey⟩ := hkeys i hi
    exact (secondaryIaKey_inj hkey (heq ▸ hkey)).2
  have hsub : l.map (secondaryIaKey d) ⊆ x.keys.map some := by
    intro o ho
    obtain ⟨i, hi, rfl⟩ := mem_map.mp ho
    obtain ⟨key, hmem, hkey⟩ := hkeys i hi
    exact mem_map.mpr ⟨key, hmem, hkey.symm⟩
  have hle := (subperm_of_subset hnodup hsub).length_le
  simpa [size, AList.keys, List.keys] using hle

lemma retainFirst_spec (keep : Test) (used : Used)
    {entries : List (Sigma fun _ : Duid => IaValue)} (h : m.WellLinked)
    (hentries : ∀ e ∈ entries, m.primary.lookup e.1 = some e.2) (hnodup : (entries.map (·.1)).Nodup)
    : ∃ m' used' visited, retainFirst keep entries m used = some (m', used') ∧
      FirstPasses keep m m' (entries.map (·.1)) used used' visited := by
  induction entries generalizing m used with
  | nil =>
    exact ⟨m, used, [], rfl, h, le_rfl, .refl .., by simp, by simp, by simp,
      fun d _ => ⟨rfl, fun _ => rfl⟩⟩
  | cons e entries ih =>
    obtain ⟨d, first⟩ := e
    have hfirst : m.primary.lookup d = some first := hentries _ mem_cons_self
    obtain ⟨l, hl⟩ := h.chain d first hfirst
    obtain ⟨kept, x, used₁, visited₁, hloop, hsize, hpass⟩ :=
      promoteLoop_spec keep used h hfirst hl (Nat.lt_succ_of_le (chain_length_le hl))
    rw [map_cons, nodup_cons] at hnodup
    have hne : ∀ d' ∈ entries.map (·.1), d' ≠ d := fun d' hd' heq => hnodup.1 (heq ▸ hd')
    set m₁ : IaMap := ⟨withFirst m.primary d kept, x⟩ with hm₁
    have hwithin : ∀ d', d' ≠ d → m₁.primary.lookup d' = m.primary.lookup d' ∧
        ∀ i, m₁.lookup (d', i) = m.lookup (d', i) := by
      intro d' hd
      refine ⟨lookup_withFirst_ne _ _ hd, fun i => hpass.sieved.of_notMem fun hin => hd ?_⟩
      obtain ⟨b, hb, heq⟩ := mem_map.mp hin
      rw [← hpass.only b hb, heq]
    obtain ⟨m', used', visited₂, hrun, hrest⟩ := ih used₁ hpass.wellLinked (fun e he => by
      rw [(hwithin e.1 (hne _ (mem_map_of_mem he))).1]
      exact hentries e (mem_cons_of_mem _ he)) hnodup.2
    have hlen : m₁.len ≤ m.len := by
      have : size (withFirst m.primary d kept) ≤ size m.primary := size_withFirst kept hfirst
      rw [len_eq, len_eq]
      simp only [m₁]
      omega
    have hlast := hrest.others d hnodup.1
    refine ⟨m', used', visited₁ ++ visited₂, ?_, hrest.wellLinked, hrest.len_le.trans hlen,
      hpass.sieved.trans hrest.sieved fun k hk hk' => ?_, fun b hb => ?_, fun d' hd' v hv => ?_,
      fun d' hd' i hi w hw => ?_, fun d' hd' => ?_⟩
    · rw [retainFirst]
      simp only [bind_eq_bind]
      rw [show m.additional.entries.length + 1 = (size m.additional).succ from rfl, hloop]
      cases kept <;> exact hrun
    · obtain ⟨b, hb, rfl⟩ := mem_map.mp hk
      obtain ⟨b', hb', heq⟩ := mem_map.mp hk'
      refine hne _ (hrest.only b' hb') ?_
      rw [heq, hpass.only b hb]
    · rcases mem_append.mp hb with hb | hb
      · exact mem_cons.mpr (.inl (hpass.only b hb))
      · exact mem_cons_of_mem _ (hrest.only b hb)
    · rw [map_append, mem_append]
      rcases mem_cons.mp hd' with rfl | hd'
      · rw [hlast.1] at hv
        exact .inl (hpass.first v hv)
      · exact .inr (hrest.first d' hd' v hv)
    · rw [map_append, mem_append] at hi
      rcases mem_cons.mp hd' with rfl | hd'
      · have hin : (d', i) ∈ visited₁.map .fst := by
          refine hi.resolve_right fun hin => hnodup.1 ?_
          obtain ⟨b, hb, heq⟩ := mem_map.mp hin
          have := hrest.only b hb
          rwa [heq] at this
        rw [hlast.2] at hw
        rw [hlast.1]
        exact hpass.stays i hin w hw
      · have hin : (d', i) ∈ visited₂.map .fst := by
          refine hi.resolve_left fun hin => hne d' hd' ?_
          obtain ⟨b, hb, heq⟩ := mem_map.mp hin
          rw [← hpass.only b hb, heq]
        exact hrest.stays d' hd' i hin w hw
    · rw [map_cons, mem_cons, not_or] at hd'
      obtain ⟨hfirst', hlookup'⟩ := hwithin d' hd'.1
      obtain ⟨hp', hl'⟩ := hrest.others d' hd'.2
      exact ⟨hp'.trans hfirst', fun i => (hl' i).trans (hlookup' i)⟩

/-- What the second pass does to one DUID: its other IAs are visited, in their order. -/
structure SecondPass (keep : Test) (m m' : IaMap) (d : Duid) (used used' : Used)
    (chain : List Iaid) (visited : List ((Duid × Iaid) × ℕ × ℕ)) : Prop where
  wellLinked : m'.WellLinked
  sieved : Sieved (ofPair keep) m.lookup m'.lookup used used' visited
  keys : visited.map Prod.fst = chain.map fun i => (d, i)

lemma lookup_additional {a : AdditionalIaValue} (hfirst : m.primary.lookup d = some first)
    (hl : Chain (additionalAt m.additional d) first l) (ha : additionalAt m.additional d i = some a) :
    m.lookup (d, i) = some (data a.value) := by
  have hne : first.iaid ≠ i := fun heq => hl.first_notMem (heq ▸ hl.mem_of_some ha)
  rw [lookup_some hfirst, if_neg hne, ha]
  rfl

/-- An IA that does not stay: what is before it leads past it. -/
theorem bypass_spec {entry : AdditionalIaValue}
    (hl : Chain (additionalAt m.additional d) first (l ++ i :: r))
    (hi : additionalAt m.additional d i = some entry)
    (hrest : ∀ d' j, additionalAt rest d' j = if d' = d ∧ j = i then none else additionalAt
      m.additional d' j) :
    ∃ p₁ rest₁, leadPast rest d l.getLast? first entry.value.link i = some (p₁, rest₁) ∧
      size rest₁ = size rest ∧ Bypassed m.additional rest₁ d i first p₁ l r := by
  have hlink := hl.link_eq hi
  have hnodup := (nodup_cons.mp hl.nodup).2
  rcases eq_nil_or_concat l with rfl | ⟨l, q, rfl⟩
  · have hout : first.iaid ∉ r := fun hin =>
      hl.first_notMem (mem_append_right _ (mem_cons_of_mem i hin))
    refine ⟨_, rest, rfl, rfl, bypassed_first hrest ?_⟩
    rw [ite_not]
    exact linkFrom_over hlink hout
  have hlast : (l.concat q).getLast? = some q := by simp
  have hmem : q ∈ l.concat q := by simp
  have hout : q ∉ r := fun hin =>
    (disjoint_of_nodup_append hnodup) hmem (mem_cons_of_mem i hin)
  obtain ⟨rest₁, hrest₁, hsize₁, hpast⟩ := bypassed_previous hl hrest hlast
    (f := fun a => { a with value := { a.value with
      link := if entry.value.link ≠ i then entry.value.link else q } })
    (fun b _ => ⟨rfl, rfl, rfl⟩) fun b _ => by
      rw [ite_not]
      exact linkFrom_over hlink hout
  refine ⟨first, rest₁, ?_, hsize₁, hpast⟩
  rw [hlast, leadPast]
  rw [hrest₁]
  rfl

lemma chainLoop_spec (keep : Test) (used : Used) (h : m.WellLinked)
    (hfirst : m.primary.lookup d = some first)
    (hl : Chain (additionalAt m.additional d) first (l ++ i :: r)) (hfuel : r.length < fuel) :
    ∃ first' x used' visited,
      chainLoop keep d fuel l.getLast? i first m.additional used = some (first', x, used') ∧
      size x ≤ size m.additional ∧
      SecondPass keep m ⟨m.primary.insert d first', x⟩ d used used' (i :: r) visited := by
  induction fuel generalizing m first r used l i with
  | zero => exact absurd hfuel (Nat.not_lt_zero _)
  | succ fuel ih =>
    obtain ⟨entry, hi⟩ := hl.exists_of_mem (mem_append_right l mem_cons_self)
    obtain ⟨key, hkey, hlookup⟩ := additionalAt_some hi
    have hat := lookup_additional hfirst hl hi
    have hlink := hl.link_eq hi
    have hnodup := (nodup_cons.mp hl.nodup).2
    have hir : i ∉ r := (nodup_cons.mp (nodup_append.mp hnodup).2.1).1
    have hne : first.iaid ≠ i := fun heq => hl.first_notMem (heq ▸ by simp)
    obtain ⟨stays, used', hkeep⟩ : ∃ b u, keep entry.value.ip entry.value.expiry used = (b, u) :=
      ⟨_, _, rfl⟩
    -- what a pass over the rest adds to this step
    have hthen : ∀ {m₁ m' : IaMap} {used'' visited},
        Sieved (ofPair keep) m.lookup m₁.lookup used used' [((d, i), data entry.value)] →
        SecondPass keep m₁ m' d used' used'' r visited →
        SecondPass keep m m' d used used'' (i :: r) (((d, i), data entry.value) :: visited) := by
      intro m₁ m' used'' visited hstep hpass
      refine ⟨hpass.wellLinked, hstep.trans hpass.sieved fun c hc hin => ?_, ?_⟩
      · obtain rfl : c = (d, i) := by simpa using hc
        rw [hpass.keys] at hin
        exact hir (by simpa using hin)
      · rw [map_cons, hpass.keys]
        rfl
    rcases stays with _ | _
    · have hsizeE := size_erase_of_some hlookup
      obtain ⟨p₁, rest₁, hpast, hsize₁, hbypassed⟩ := bypass_spec hl hi (additionalAt_erase hkey)
      have hremoved : ∀ {rest₂ l}, size rest₂ = size rest₁ →
          Unlinked m.additional rest₂ d i p₁ l → Removed m ⟨m.primary.insert d p₁, rest₂⟩ d i
            (some entry.value) := fun hsize₂ hunlinked =>
        removed_unlinked h hfirst hi hne (lookup_insert ..) hbypassed.name hbypassed.data_eq
          (fun d' hd => lookup_insert_ne hd) (size_insert_of_some hfirst p₁) (by omega)
          hunlinked
      rcases r with _ | ⟨k, r⟩
      · have hend : entry.value.link = i := linkFrom_eq_none.mp hlink
        have hremoved := hremoved rfl (hbypassed.unlinked_last hl)
        refine ⟨p₁, rest₁, used', [((d, i), data entry.value)], ?_, by omega,
          hremoved.wellLinked, sieved_drop hremoved hat hkeep, rfl⟩
        rw [chainLoop, hkey]
        simp only [bind_eq_bind, bind_some, hlookup, hkeep, hpast]
        simp [hend]
      obtain ⟨hend, hnext⟩ := linkFrom_eq_some.mp hlink
      have hprevious : ∀ b : AdditionalIaValue, b.value.iaid = k →
          linkFrom k (l.getLast?.getD k) = l.getLast? := by
        intro b _
        cases hlast : l.getLast? with
        | none => simp
        | some q =>
          refine linkFrom_ne fun heq => ?_
          exact (disjoint_of_nodup_append hnodup) (mem_of_getLast? hlast)
            (heq ▸ mem_cons_of_mem i mem_cons_self)
      obtain ⟨rest₂, hback, hsize₂, hunlinked⟩ := hbypassed.unlinked hl
        (f := fun a => { a with previous := l.getLast?.getD k }) (fun _ => rfl) hprevious
      have hremoved := hremoved hsize₂ hunlinked
      obtain ⟨first', x, used'', visited, hloop, hsize, hpass⟩ :=
        ih used' hremoved.wellLinked (lookup_insert ..) hunlinked.chain
          (Nat.lt_of_succ_lt_succ hfuel)
      rw [insert_insert] at hpass
      refine ⟨first', x, used'', _, ?_, ?_, hthen (sieved_drop hremoved hat hkeep) hpass⟩
      · rw [chainLoop, hkey]
        simp only [bind_eq_bind, bind_some, hlookup, hkeep, Bool.false_eq_true, if_false, hpast]
        rw [if_pos hend, hnext, hback]
        exact hloop
      · dsimp only at hsize
        omega
    · rcases r with _ | ⟨k, r⟩
      · obtain ⟨hwell, hsame⟩ := keepPrimary h hfirst
        have hend : entry.value.link = i := linkFrom_eq_none.mp hlink
        refine ⟨first, m.additional, used', [((d, i), data entry.value)], ?_, le_rfl, hwell, ?_,
          rfl⟩
        · simp [chainLoop, hkey, hlookup, hkeep, hend]
        · rw [hsame]
          exact sieved_stay hat hkeep
      obtain ⟨hend, hnext⟩ := linkFrom_eq_some.mp hlink
      have hl' : Chain (additionalAt m.additional d) first ((l ++ [i]) ++ k :: r) := by
        rwa [append_assoc]
      obtain ⟨first', x, used'', visited, hloop, hsize, hpass⟩ :=
        ih used' h hfirst hl' (Nat.lt_of_succ_lt_succ hfuel)
      rw [getLast?_append] at hloop
      refine ⟨first', x, used'', _, ?_, hsize, hthen (sieved_stay hat hkeep) hpass⟩
      rw [chainLoop, hkey]
      simp only [bind_eq_bind, bind_some, hlookup, hkeep]
      rw [if_pos hend, hnext]
      exact hloop

/-- What the second pass does to some DUIDs. -/
structure SecondPasses (keep : Test) (m m' : IaMap) (duids : List Duid) (used used' : Used)
    (visited : List ((Duid × Iaid) × ℕ × ℕ)) : Prop where
  wellLinked : m'.WellLinked
  len_le : m'.len ≤ m.len
  sieved : Sieved (ofPair keep) m.lookup m'.lookup used used' visited
  keys : ∀ d i, (d, i) ∈ visited.map Prod.fst ↔ d ∈ duids ∧ (∃ w, m.lookup (d, i) = some w) ∧
    ∀ first, m.primary.lookup d = some first → first.iaid ≠ i

/-- The other IAs of a DUID are those of its chain. -/
theorem mem_chain_iff (hfirst : m.primary.lookup d = some first)
    (hl : Chain (additionalAt m.additional d) first l) : i ∈ l ↔ (∃ w, m.lookup (d, i) = some w) ∧
      ∀ p, m.primary.lookup d = some p → p.iaid ≠ i := by
  constructor
  · intro hi
    obtain ⟨a, ha⟩ := hl.exists_of_mem hi
    refine ⟨⟨_, lookup_additional hfirst hl ha⟩, fun p hp => ?_⟩
    obtain rfl := some.inj (hfirst.symm.trans hp)
    exact fun heq => hl.first_notMem (heq ▸ hi)
  · rintro ⟨⟨w, hw⟩, hother⟩
    rw [lookup_some hfirst, if_neg (hother first hfirst)] at hw
    obtain ⟨a, ha, -⟩ := map_eq_some_iff.mp hw
    exact hl.mem_of_some ha

lemma retainMore_spec (keep : Test) (used : Used) {entries : List (Sigma fun _ : Duid => IaValue)}
    (h : m.WellLinked) (hentries : ∀ e ∈ entries, m.primary.lookup e.1 = some e.2)
    (hnodup : (entries.map (·.1)).Nodup) :
    ∃ m' used' visited, retainMore keep entries m used = some (m', used') ∧
      SecondPasses keep m m' (entries.map (·.1)) used used' visited := by
  induction entries generalizing m used with
  | nil => exact ⟨m, used, [], rfl, h, le_rfl, .refl .., by simp⟩
  | cons e entries ih =>
    obtain ⟨d, first⟩ := e
    have hfirst : m.primary.lookup d = some first := hentries _ mem_cons_self
    obtain ⟨l, hl⟩ := h.chain d first hfirst
    rw [map_cons, nodup_cons] at hnodup
    have hne : ∀ d' ∈ entries.map (·.1), d' ≠ d := fun d' hd' heq => hnodup.1 (heq ▸ hd')
    by_cases hend : first.link = first.iaid
    · obtain rfl := hl.eq_nil hend
      obtain ⟨m', used', visited, hrun, hrest⟩ :=
        ih used h (fun e he => hentries e (mem_cons_of_mem _ he)) hnodup.2
      refine ⟨m', used', visited, by rw [retainMore, if_pos hend, hrun], hrest.wellLinked,
        hrest.len_le, hrest.sieved, fun d' i => ?_⟩
      rw [hrest.keys, map_cons, mem_cons]
      refine ⟨fun ⟨hd, hothers⟩ => ⟨.inr hd, hothers⟩, fun ⟨hd, hothers⟩ => ⟨?_, hothers⟩⟩
      refine hd.resolve_left ?_
      rintro rfl
      exact absurd ((mem_chain_iff hfirst hl).mpr hothers) not_mem_nil
    obtain ⟨r, rfl⟩ := head?_eq_some_iff.mp (hl.head_eq hend)
    have hl' : Chain (additionalAt m.additional d) first ([] ++ first.link :: r) := hl
    have hfuel : r.length < size m.additional + 1 := by
      have := chain_length_le hl
      rw [length_cons] at this
      omega
    obtain ⟨first', x, used₁, visited₁, hloop, hsize, hpass⟩ :=
      chainLoop_spec keep used h hfirst hl' hfuel
    set m₁ : IaMap := ⟨m.primary.insert d first', x⟩ with hm₁
    have hother : ∀ d', d' ≠ d → m₁.primary.lookup d' = m.primary.lookup d' ∧
        ∀ i, m₁.lookup (d', i) = m.lookup (d', i) := by
      intro d' hd
      refine ⟨lookup_insert_ne hd, fun i => hpass.sieved.of_notMem fun hin => hd ?_⟩
      rw [hpass.keys] at hin
      obtain ⟨j, -, heq⟩ := mem_map.mp hin
      exact (congrArg Prod.fst heq).symm
    obtain ⟨m', used', visited₂, hrun, hrest⟩ := ih used₁ hpass.wellLinked (fun e he => by
      rw [(hother e.1 (hne _ (mem_map_of_mem he))).1]
      exact hentries e (mem_cons_of_mem _ he)) hnodup.2
    have hlen : m₁.len ≤ m.len := by
      rw [len_eq, len_eq]
      simp only [m₁, size_insert_of_some hfirst]
      omega
    have hkeys₁ : ∀ d' i, (d', i) ∈ visited₁.map .fst ↔ d' = d ∧ i ∈ first.link :: r := by
      intro d' i
      rw [hpass.keys, List.mem_map]
      simp only [Prod.mk.injEq]
      constructor
      · rintro ⟨j, hj, rfl, rfl⟩
        exact ⟨rfl, hj⟩
      · rintro ⟨rfl, hi⟩
        exact ⟨i, hi, rfl, rfl⟩
    have hkeys₂ : ∀ d' i, (d', i) ∈ visited₂.map .fst ↔ d' ∈ entries.map (·.1) ∧
        (∃ w, m.lookup (d', i) = some w) ∧ ∀ p, m.primary.lookup d' = some p → p.iaid ≠ i := by
      intro d' i
      rw [hrest.keys]
      refine and_congr_right fun hd => ?_
      obtain ⟨hp, hlook⟩ := hother d' (hne d' hd)
      rw [hp, hlook]
    refine ⟨m', used', visited₁ ++ visited₂, ?_, hrest.wellLinked, hrest.len_le.trans hlen,
      hpass.sieved.trans hrest.sieved fun k hk hk' => ?_, fun d' i => ?_⟩
    · rw [retainMore, if_neg hend]
      have hstart : chainLoop keep d (m.additional.entries.length + 1) none first.link first
          m.additional used = some (first', x, used₁) := hloop
      simp only [hstart]
      exact hrun
    · obtain ⟨d', i⟩ := k
      exact hne d' ((hkeys₂ d' i).mp hk').1 ((hkeys₁ d' i).mp hk).1
    · have hd : d' ∈ d :: entries.map (·.1) ↔ d' = d ∨ d' ∈ entries.map (·.1) := mem_cons
      rw [map_append, mem_append, hkeys₁, hkeys₂, map_cons, hd, or_and_right]
      refine or_congr_left (and_congr_right ?_)
      rintro rfl
      exact mem_chain_iff hfirst hl

/-- A sweep ends, on no broken link, and every value is visited once. -/
theorem sweep_spec (keep : Test) (used : Used) (h : m.WellLinked) :
    ∃ m' used' visited, m.sweep keep keep used = some (m', used') ∧ m'.WellLinked ∧
      m'.len ≤ m.len ∧ Sieved (ofPair keep) m.lookup m'.lookup used used' visited ∧
      ∀ k w, m.lookup k = some w → k ∈ visited.map Prod.fst := by
  have hentries : ∀ m : IaMap, ∀ e ∈ m.primary.entries, m.primary.lookup e.1 = some e.2 :=
    fun m e he => mem_entries.mp he
  have hkeys : ∀ m : IaMap, ∀ d, d ∈ m.primary.entries.map (·.1) ↔
      ∃ first, m.primary.lookup d = some first := by
    intro m d
    constructor
    · intro hd
      obtain ⟨e, he, rfl⟩ := mem_map.mp hd
      exact ⟨e.2, mem_entries.mp he⟩
    · rintro ⟨first, hfirst⟩
      exact mem_map.mpr ⟨⟨d, first⟩, mem_entries.mpr hfirst, rfl⟩
  obtain ⟨m₁, used₁, visited₁, hrun₁, hfirst⟩ :=
    retainFirst_spec keep used h (hentries m) m.primary.nodupKeys
  obtain ⟨m₂, used₂, visited₂, hrun₂, hmore⟩ :=
    retainMore_spec keep used₁ hfirst.wellLinked (hentries m₁) m₁.primary.nodupKeys
  have hduids : ∀ d p, m₁.primary.lookup d = some p → d ∈ m.primary.entries.map (·.1) := by
    intro d p hp
    by_contra hd
    rw [(hfirst.others d hd).1] at hp
    exact hd ((hkeys m d).mpr ⟨p, hp⟩)
  have hapart : ∀ k ∈ visited₁.map Prod.fst, k ∉ visited₂.map .fst := by
    rintro ⟨d, i⟩ hk hk'
    obtain ⟨hd, ⟨w, hw⟩, hother⟩ := (hmore.keys d i).mp hk'
    obtain ⟨p, hp⟩ := (hkeys m₁ d).mp hd
    obtain ⟨v, hv, heq⟩ := hfirst.stays d (hduids d p hp) i hk w hw
    exact hother v hv heq
  refine ⟨m₂, used₂, visited₁ ++ visited₂, ?_, hmore.wellLinked, hmore.len_le.trans hfirst.len_le,
    hfirst.sieved.trans hmore.sieved hapart, ?_⟩
  · rw [sweep, hrun₁]
    exact hrun₂
  rintro ⟨d, i⟩ w hw
  rw [map_append, mem_append]
  by_cases hk : (d, i) ∈ visited₁.map .fst
  · exact .inl hk
  have hw₁ : m₁.lookup (d, i) = some w := by rw [hfirst.sieved.of_notMem hk, hw]
  have hp : ∃ p, m₁.primary.lookup d = some p := by
    cases hp : m₁.primary.lookup d with
    | none =>
      rw [lookup_none hp] at hw₁
      cases hw₁
    | some p => exact ⟨p, rfl⟩
  refine .inr ((hmore.keys d i).mpr ⟨(hkeys m₁ d).mpr hp, ⟨w, hw₁⟩, fun p hp heq => hk ?_⟩)
  exact heq ▸ hfirst.first d (hduids d p hp) p hp

/-- The test of `remove_expired`. -/
def live (now : ℕ) : Test := fun ip expiry used =>
  if expiry > now then (true, used) else (false, used.erase ip)

lemma sieve_live (now : ℕ) (visited : List ((Duid × Iaid) × ℕ × ℕ)) (used : Used) :
    (sieve (ofPair (live now)) visited used).1 = visited.filter (fun b => now < b.2.2) ∧
      ∀ ip, ip ∈ (sieve (ofPair (live now)) visited used).2 ↔
        ip ∈ used ∧ ∀ b ∈ visited, b.2.2 ≤ now → b.2.1 ≠ ip := by
  induction visited generalizing used with
  | nil => simp [sieve]
  | cons b visited ih =>
    by_cases hlive : now < b.2.2
    · have hkeep : ofPair (live now) b.2 used = (true, used) := if_pos hlive
      obtain ⟨hkept, hused⟩ := ih used
      refine ⟨by simp [sieve, hkeep, hkept, hlive], fun ip => ?_⟩
      simp only [sieve, hkeep, hused, forall_mem_cons]
      refine and_congr_right fun _ => ⟨fun h => ⟨fun hle => ?_, h⟩, And.right⟩
      omega
    have hkeep : ofPair (live now) b.2 used = (false, used.erase b.2.1) := if_neg hlive
    obtain ⟨hkept, hused⟩ := ih (used.erase b.2.1)
    refine ⟨by simp [sieve, hkeep, hkept, hlive], fun ip => ?_⟩
    simp only [sieve, hkeep, hused, forall_mem_cons, Finset.mem_erase]
    constructor
    · rintro ⟨⟨hne, hin⟩, hall⟩
      exact ⟨hin, fun _ => Ne.symm hne, hall⟩
    · rintro ⟨hin, hne, hall⟩
      exact ⟨⟨Ne.symm (hne (by omega)), hin⟩, hall⟩

/-- Exactly the values that are not expired stay, and the addresses of the others are given back. -/
theorem removeExpired_spec (h : m.WellLinked) (now : ℕ) (used : Used) :
    ∃ m' used', m.removeExpired now used = some (m', used') ∧ m'.WellLinked ∧ m'.len ≤ m.len ∧
      (∀ k w, m'.lookup k = some w ↔ m.lookup k = some w ∧ now < w.2) ∧
      ∀ ip, ip ∈ used' ↔ ip ∈ used ∧ ∀ k w, m.lookup k = some w → w.2 ≤ now → w.1 ≠ ip := by
  obtain ⟨m', used', visited, hrun, hwell, hlen, hsieved, hall⟩ := sweep_spec (live now) used h
  obtain ⟨hkept, hused⟩ := sieve_live now visited used
  refine ⟨m', used', hrun, hwell, hlen, fun k w => ?_, fun ip => ?_⟩
  · rw [hsieved.left, hkept]
    refine and_congr_right fun hw => ?_
    have hvisited : (k, w) ∈ visited := by
      obtain ⟨b, hb, rfl⟩ := mem_map.mp (hall k w hw)
      rw [hsieved.stored b hb, some_inj] at hw
      exact hw ▸ hb
    have hin := hall k w hw
    simp [hin, hvisited]
  · rw [hsieved.state, hused]
    refine and_congr_right fun _ => ⟨fun h k w hw hle => ?_, fun h b hb hle => ?_⟩
    · obtain ⟨b, hb, rfl⟩ := mem_map.mp (hall k w hw)
      rw [hsieved.stored b hb, some_inj] at hw
      exact hw ▸ h b hb (hw ▸ hle)
    · exact h b.1 b.2 (hsieved.stored b hb) hle

/-- What `retain_valid` asks of an address and its expiry. -/
def valid (now start stop : ℕ) (v : ℕ × ℕ) : Bool := v.2 > now && start ≤ v.1 && v.1 ≤ stop

lemma sieve_take (test : ℕ × ℕ → Bool) (visited : List ((Duid × Iaid) × ℕ × ℕ)) (used : Used) :
    (∀ b ∈ (sieve (fun v => take (test v) v.1) visited used).1,
      b ∈ visited ∧ test b.2 ∧ b.2.1 ∉ used) ∧
      (∀ ip, ip ∈ (sieve (fun v => take (test v) v.1) visited used).2 ↔ ip ∈ used ∨
        ∃ b ∈ (sieve (fun v => take (test v) v.1) visited used).1, b.2.1 = ip) ∧
      ((sieve (fun v => take (test v) v.1) visited used).1.map (·.2.1)).Nodup ∧
      ∀ b ∈ visited, test b.2 → b.2.1 ∈ (sieve (fun v => take (test v) v.1) visited used).2 := by
  induction visited generalizing used with
  | nil => simp [sieve]
  | cons b visited ih =>
    by_cases htake : test b.2 = true ∧ b.2.1 ∉ used
    · have hkeep : take (test b.2) b.2.1 used = (true, Insert.insert b.2.1 used) := if_pos htake
      obtain ⟨hkept, hused, hnodup, hall⟩ := ih (Insert.insert b.2.1 used)
      simp only [sieve, hkeep, if_true]
      refine ⟨fun c hc => ?_, fun ip => ?_, ?_, fun c hc htest => ?_⟩
      · rcases mem_cons.mp hc with rfl | hc
        · exact ⟨mem_cons_self, htake⟩
        · obtain ⟨hin, htest, hnot⟩ := hkept c hc
          exact ⟨mem_cons_of_mem _ hin, htest, fun hmem => hnot (Finset.mem_insert_of_mem hmem)⟩
      · rw [hused, Finset.mem_insert]
        simp only [exists_mem_cons_iff]
        constructor
        · rintro ((rfl | hin) | hin)
          · exact .inr (.inl rfl)
          · exact .inl hin
          · exact .inr (.inr hin)
        · rintro (hin | rfl | hin)
          · exact .inl (.inr hin)
          · exact .inl (.inl rfl)
          · exact .inr hin
      · rw [map_cons, nodup_cons]
        refine ⟨fun hin => ?_, hnodup⟩
        obtain ⟨c, hc, heq⟩ := mem_map.mp hin
        exact (hkept c hc).2.2 (heq ▸ Finset.mem_insert_self _ _)
      · rcases mem_cons.mp hc with rfl | hc
        · exact (hused _).mpr (.inl (Finset.mem_insert_self _ _))
        · exact hall c hc htest
    · have hkeep : take (test b.2) b.2.1 used = (false, used) := if_neg htake
      obtain ⟨hkept, hused, hnodup, hall⟩ := ih used
      simp only [sieve, hkeep]
      refine ⟨fun c hc => ?_, hused, hnodup, fun c hc htest => ?_⟩
      · obtain ⟨hin, hrest⟩ := hkept c hc
        exact ⟨mem_cons_of_mem _ hin, hrest⟩
      rcases mem_cons.mp hc with rfl | hc
      · refine (hused _).mpr (.inl ?_)
        by_contra hnot
        exact htake ⟨htest, hnot⟩
      · exact hall c hc htest

/-- Only valid values stay, each address once; one that is valid goes only where its address was
taken before. -/
theorem retainValid_spec (h : m.WellLinked) (now start stop : ℕ) (used : Used) :
    ∃ m' used', m.retainValid now start stop used = some (m', used') ∧ m'.WellLinked ∧
      m'.len ≤ m.len ∧
      (∀ k w, m'.lookup k = some w → m.lookup k = some w ∧ valid now start stop w ∧ w.1 ∉ used) ∧
      (∀ k w, m.lookup k = some w → valid now start stop w → m'.lookup k = some w ∨ w.1 ∈ used ∨
        ∃ k' w', k' ≠ k ∧ m'.lookup k' = some w' ∧ w'.1 = w.1) ∧
      (∀ k k' w w', m'.lookup k = some w → m'.lookup k' = some w' → w.1 = w'.1 → k = k') ∧
      ∀ ip, ip ∈ used' ↔ ip ∈ used ∨ ∃ k w, m'.lookup k = some w ∧ w.1 = ip := by
  have htest : (fun ip expiry used =>
      take (expiry > now && start ≤ stop && start ≤ ip && ip ≤ stop) ip used) =
        fun ip expiry used => take (valid now start stop (ip, expiry)) ip used := by
    funext ip expiry used
    congr 1
    rw [Bool.eq_iff_iff]
    simp only [valid, Bool.and_eq_true, decide_eq_true_eq]
    constructor
    · rintro ⟨⟨⟨hlive, -⟩, hlo⟩, hhi⟩
      exact ⟨⟨hlive, hlo⟩, hhi⟩
    · rintro ⟨⟨hlive, hlo⟩, hhi⟩
      exact ⟨⟨⟨hlive, hlo.trans hhi⟩, hlo⟩, hhi⟩
  obtain ⟨m', used', visited, hrun, hwell, hlen, hsieved, hall⟩ :=
    sweep_spec (fun ip expiry used => take (valid now start stop (ip, expiry)) ip used) used h
  obtain ⟨hkept, hused, hnodup, hvalid⟩ := sieve_take (valid now start stop) visited used
  have hmem : ∀ k w, m'.lookup k = some w ↔ (k, w) ∈
      (sieve (fun v => take (valid now start stop v) v.1) visited used).1 := by
    intro k w
    rw [hsieved.left]
    constructor
    · rintro ⟨hw, hnot | hin⟩
      · exact absurd (hall k w hw) hnot
      · exact hin
    · intro hin
      exact ⟨hsieved.stored _ (hkept _ hin).1, .inr hin⟩
  have hips : ∀ ip, ip ∈ used' ↔ ip ∈ used ∨ ∃ k w, m'.lookup k = some w ∧ w.1 = ip := by
    intro ip
    rw [hsieved.state]
    refine (hused ip).trans (or_congr_right ?_)
    constructor
    · rintro ⟨b, hb, heq⟩
      exact ⟨b.1, b.2, (hmem _ _).mpr hb, heq⟩
    · rintro ⟨k, w, hw, heq⟩
      exact ⟨(k, w), (hmem k w).mp hw, heq⟩
  refine ⟨m', used', ?_, hwell, hlen, fun k w hw => ?_, fun k w hw htest => ?_,
    fun k k' w w' hw hw' heq => ?_, hips⟩
  · rw [retainValid, htest]
    exact hrun
  · obtain ⟨hin, htest, hnot⟩ := hkept _ ((hmem k w).mp hw)
    exact ⟨hsieved.stored _ hin, htest, hnot⟩
  · have hvisited : (k, w) ∈ visited := by
      obtain ⟨b, hb, rfl⟩ := mem_map.mp (hall k w hw)
      rw [hsieved.stored b hb, some_inj] at hw
      exact hw ▸ hb
    have hin := hvalid _ hvisited htest
    have hin' : w.1 ∈ used' := hsieved.state ▸ hin
    rcases (hips _).mp hin' with hin | ⟨k', w', hw', heq⟩
    · exact .inr (.inl hin)
    by_cases hk : k' = k
    · subst hk
      obtain ⟨hold, -⟩ := hkept _ ((hmem k' w').mp hw')
      rw [hsieved.stored _ hold] at hw
      exact .inl (hw ▸ hw')
    · exact .inr (.inr ⟨k', w', hk, hw', heq⟩)
  · have heq' := inj_on_of_nodup_map hnodup ((hmem k w).mp hw) ((hmem k' w').mp hw') heq
    exact congrArg Prod.fst heq'

end OnetDns.Dhcp6.IaMap
