import OnetDns.Dhcp.IaMap
import OnetDns.Lib.Threaded
import OnetDns.Lib.Tally

/-!
# The chains of an `IaMap`

The other IAs of one DUID, in the order of their links and in both directions. Taking a link in,
taking one out and making the head of a chain the first IA keep a chain a chain.
-/
namespace OnetDns.Dhcp6
open Tally List Option

variable {s s' : Iaid → Option AdditionalIaValue} {p p' v : IaValue} {a : AdditionalIaValue}
  {i j : Iaid} {l r : List Iaid} {d d' : Duid} {x x' : Additional} {key : List UInt8}

def data (v : IaValue) : ℕ × ℕ := (v.ip, v.expiry)

/-- A link, unless it is the mark of an end. -/
def linkFrom (i link : Iaid) : Option Iaid := if link = i then none else some link

@[simp] lemma linkFrom_self (i : Iaid) : linkFrom i i = none := if_pos rfl

lemma linkFrom_ne (h : j ≠ i) : linkFrom i j = some j := if_neg h

lemma linkFrom_eq_none : linkFrom i j = none ↔ j = i := by
  rw [linkFrom]
  split <;> simp [*]

lemma linkFrom_eq_some {k : Iaid} : linkFrom i j = some k ↔ j ≠ i ∧ j = k := by
  rw [linkFrom]
  split <;> simp [*]

def nextOf (s : Iaid → Option AdditionalIaValue) (i : Iaid) : Option Iaid :=
  (s i).bind fun a => linkFrom i a.value.link

def prevOf (s : Iaid → Option AdditionalIaValue) (i : Iaid) : Option Iaid :=
  (s i).bind fun a => linkFrom i a.previous

def firstOf (p : IaValue) : Option Iaid := linkFrom p.iaid p.link

/-- The other IAs of a DUID form a list, linked in both directions. -/
structure Chain (s : Iaid → Option AdditionalIaValue) (p : IaValue) (l : List Iaid) : Prop where
  nodup : (p.iaid :: l).Nodup
  stored : ∀ i, (s i).isSome ↔ i ∈ l
  named : ∀ i a, s i = some a → a.value.iaid = i
  forth : Threaded (nextOf s) (firstOf p) l
  back : Threaded (prevOf s) l.getLast? l.reverse

namespace Chain

lemma empty (h : ∀ i, s i = none) (hlink : p.link = p.iaid) : Chain s p [] := by
  refine ⟨by simp, fun i => by simp [h], fun i a ha => ?_, ?_, rfl⟩
  · rw [h] at ha
    cases ha
  · rw [Threaded.nil_iff, firstOf, hlink, linkFrom_self]

section

variable (h : Chain s p l)
include h

lemma exists_of_mem (hi : i ∈ l) : ∃ a, s i = some a := isSome_iff_exists.mp ((h.stored i).mpr hi)

lemma mem_of_some (hi : s i = some a) : i ∈ l := (h.stored i).mp (by rw [hi]; rfl)

lemma none_of_notMem (hi : i ∉ l) : s i = none := by
  rw [← not_isSome_iff_eq_none, h.stored]
  exact hi

lemma first_notMem : p.iaid ∉ l := (nodup_cons.mp h.nodup).1

lemma first_none : s p.iaid = none := h.none_of_notMem h.first_notMem

lemma eq_nil (hend : p.link = p.iaid) : l = [] := by
  have hstart := h.forth.start_eq
  rw [firstOf, hend, linkFrom_self] at hstart
  exact head?_eq_none_iff.mp hstart.symm

lemma head_eq (hend : p.link ≠ p.iaid) : l.head? = some p.link := by
  rw [← h.forth.start_eq, firstOf, linkFrom_ne hend]

lemma reroot (hlink : firstOf p' = firstOf p) (hne : p'.iaid ∉ l) : Chain s p' l :=
  ⟨nodup_cons.mpr ⟨hne, (nodup_cons.mp h.nodup).2⟩, h.stored, h.named, hlink ▸ h.forth, h.back⟩

end

/-- What a value holds but for its address and expiry. -/
def frame (a : AdditionalIaValue) : Iaid × Iaid × Iaid := (a.value.iaid, a.value.link, a.previous)

/-- The contents of the values do not matter. -/
theorem content (h : Chain s p l) (hsame : ∀ i, (s' i).map frame = (s i).map frame) :
    Chain s' p l := by
  have hnext : nextOf s' = nextOf s := by
    funext i
    have hi := congrArg (bind · fun f => linkFrom i f.2.1) (hsame i)
    simpa [nextOf, frame, bind_map, Function.comp_def] using hi
  have hprev : prevOf s' = prevOf s := by
    funext i
    have hi := congrArg (bind · fun f => linkFrom i f.2.2) (hsame i)
    simpa [prevOf, frame, bind_map, Function.comp_def] using hi
  refine ⟨h.nodup, fun i => ?_, fun i a ha => ?_, hnext ▸ h.forth, hprev ▸ h.back⟩
  · have hi := congrArg isSome (hsame i)
    rw [isSome_map, isSome_map] at hi
    rw [hi, h.stored]
  have hi := hsame i
  rw [ha] at hi
  obtain ⟨b, hb, heq⟩ := map_eq_some_iff.mp hi.symm
  rw [← h.named i b hb]
  exact (congrArg Prod.fst heq).symm

lemma link_eq (h : Chain s p (l ++ i :: r)) (hi : s i = some a) :
    linkFrom i a.value.link = r.head? := by
  rw [← h.forth.next_eq, nextOf, hi, bind_some]

lemma previous_eq (h : Chain s p (l ++ i :: r)) (hi : s i = some a) :
    linkFrom i a.previous = l.getLast? := by
  have hrev : (l ++ i :: r).reverse = r.reverse ++ i :: l.reverse := by simp
  have hback := h.back
  rw [hrev] at hback
  rw [← head?_reverse, ← hback.next_eq, prevOf, hi, bind_some]

lemma isSome_of_names (hname : (s' j).map (·.value.iaid) = (s j).map (·.value.iaid)) :
    (s' j).isSome = (s j).isSome := by
  simpa using congrArg isSome hname

lemma named_of_names (h : Chain s p l)
    (hname : (s' j).map (·.value.iaid) = (s j).map (·.value.iaid)) (ha : s' j = some a) :
    a.value.iaid = j := by
  rw [ha, map_some] at hname
  obtain ⟨c, hc, heq⟩ := map_eq_some_iff.mp hname.symm
  rw [← heq]
  exact h.named j c hc

/-- A new IA in front of the others. -/
theorem push (h : Chain s p l) (hi : i ∉ p.iaid :: l) (hp : p'.iaid = p.iaid) (hlink : p'.link = i)
    (ha : s' i = some a) (hname : a.value.iaid = i) (hnext : linkFrom i a.value.link = l.head?)
    (hprevious : a.previous = i)
    (hnames : ∀ j, j ≠ i → (s' j).map (·.value.iaid) = (s j).map (·.value.iaid))
    (hnexts : ∀ j, j ≠ i → nextOf s' j = nextOf s j)
    (hprevs : ∀ j, j ≠ i → prevOf s' j = if l.head? = some j then some i else prevOf s j) :
    Chain s' p' (i :: l) := by
  have hne : i ≠ p.iaid := fun heq => hi (heq ▸ mem_cons_self)
  have hil : i ∉ l := fun hmem => hi (mem_cons_of_mem _ hmem)
  have hnodup : (i :: l).Nodup := nodup_cons.mpr ⟨hil, (nodup_cons.mp h.nodup).2⟩
  refine ⟨?_, fun j => ?_, fun j b hb => ?_, ?_, ?_⟩
  · rw [hp]
    refine nodup_cons.mpr ⟨?_, hnodup⟩
    rw [mem_cons, not_or]
    exact ⟨Ne.symm hne, h.first_notMem⟩
  · by_cases hj : j = i
    · subst hj
      simp [ha]
    · rw [isSome_of_names (hnames j hj), h.stored]
      simp [hj]
  · by_cases hj : j = i
    · subst hj
      rw [ha] at hb
      cases hb
      exact hname
    · exact h.named_of_names (hnames j hj) hb
  · have hfirst : firstOf p' = some i := by
      rw [firstOf, hp, hlink, linkFrom_ne hne]
    rw [hfirst]
    refine h.forth.push hil ?_ hnexts
    rw [nextOf, ha, bind_some, hnext, h.forth.start_eq]
  · rw [reverse_cons]
    refine h.back.concat ?_ ?_ (fun j hj => ?_) ?_ fun j hj hlast => ?_
    · rwa [← reverse_cons, nodup_reverse]
    · cases l with
      | nil => simp
      | cons b l => simp [getLast?_cons]
    · rw [getLast?_reverse] at hj
      have hmem := mem_of_head? hj
      rw [hprevs j fun heq => hil (heq ▸ hmem), if_pos hj]
    · rw [prevOf, ha, bind_some, hprevious, linkFrom_self]
    · rw [getLast?_reverse] at hlast
      rw [hprevs j fun heq => hil (heq ▸ mem_reverse.mp hj), if_neg hlast]

/-- An IA is taken out, between its neighbours. -/
theorem unlink (h : Chain s p (l ++ i :: r)) (hp : p'.iaid = p.iaid)
    (hfirst : firstOf p' = if l = [] then r.head? else firstOf p) (hi : s' i = none)
    (hnames : ∀ j, j ≠ i → (s' j).map (·.value.iaid) = (s j).map (·.value.iaid))
    (hnexts : ∀ j, j ≠ i → nextOf s' j = if l.getLast? = some j then r.head? else nextOf s j)
    (hprevs : ∀ j, j ≠ i → prevOf s' j = if r.head? = some j then l.getLast? else prevOf s j) :
    Chain s' p' (l ++ r) := by
  have hnodup : (l ++ i :: r).Nodup := (nodup_cons.mp h.nodup).2
  have hsub : (l ++ r).Sublist (l ++ i :: r) := Sublist.append_left (sublist_cons_self i r) l
  have hout : i ∉ l ++ r := by
    have hperm : (i :: (l ++ r)).Nodup := (perm_middle.nodup_iff).mp hnodup
    exact (nodup_cons.mp hperm).1
  have hrev : (l ++ i :: r).reverse = r.reverse ++ i :: l.reverse := by simp
  have hback := h.back
  rw [hrev] at hback
  have hnext : nextOf s i = r.head? := h.forth.next_eq
  have hprev : prevOf s i = l.getLast? := by rw [hback.next_eq, head?_reverse]
  refine ⟨?_, fun j => ?_, fun j b hb => ?_, ?_, ?_⟩
  · rw [hp]
    exact h.nodup.sublist (hsub.cons_cons _)
  · by_cases hj : j = i
    · subst hj
      simpa [hi] using hout
    · rw [isSome_of_names (hnames j hj), h.stored]
      simp [hj]
  · refine h.named_of_names (hnames j ?_) hb
    rintro rfl
    rw [hi] at hb
    cases hb
  · refine h.forth.remove hnodup ?_ (fun j hj => ?_) fun j hj hlast => ?_
    · rw [hfirst, hnext]
    · have hmem := mem_of_getLast? hj
      rw [hnexts j fun heq => hout (heq ▸ mem_append_left _ hmem), if_pos hj, hnext]
    · rw [hnexts j fun heq => hout (heq ▸ hj), if_neg hlast]
  · rw [reverse_append]
    have hnodup' : (r.reverse ++ i :: l.reverse).Nodup := by rwa [← hrev, nodup_reverse]
    refine hback.remove hnodup' ?_ (fun j hj => ?_) fun j hj hlast => ?_
    · rcases eq_nil_or_concat r with rfl | ⟨r, k, rfl⟩
      · simp [hprev]
      · simp [getLast?_cons]
    · rw [getLast?_reverse] at hj
      have hmem := mem_of_head? hj
      rw [hprevs j fun heq => hout (heq ▸ mem_append_right _ hmem), if_pos hj, hprev]
    · rw [getLast?_reverse] at hlast
      have hmem : j ∈ l ++ r := by
        rw [mem_append, mem_reverse, mem_reverse] at hj
        exact mem_append.mpr hj.symm
      rw [hprevs j fun heq => hout (heq ▸ hmem), if_neg hlast]

end Chain

lemma secondaryIaKey_eq (h : ¬unfit d) (i : Iaid) : secondaryIaKey d i =
    some (UInt8.ofNat d.length :: (d ++ List.replicate (MAX_DUID_LEN - d.length) 0) ++
      i.toList) := if_neg h

section

variable (h : secondaryIaKey d i = some key)
include h

lemma secondaryIaKey_fit : ¬unfit d := by
  rw [secondaryIaKey] at h
  split at h
  · cases h
  · assumption

/-- The key tells the DUID and the IAID apart. -/
theorem secondaryIaKey_inj (h' : secondaryIaKey d' j = some key) : d = d' ∧ i = j := by
  have hfit := secondaryIaKey_fit h
  have hfit' := secondaryIaKey_fit h'
  rw [secondaryIaKey_eq hfit, some_inj] at h
  rw [secondaryIaKey_eq hfit', some_inj] at h'
  rw [unfit] at hfit hfit'
  have hbound : MAX_DUID_LEN = 130 := rfl
  have heq := h.trans h'.symm
  rw [cons_append, cons_append, cons.injEq] at heq
  obtain ⟨hlen, hrest⟩ := heq
  have hlength : d.length = d'.length := by
    have hmod := congrArg UInt8.toNat hlen
    rw [UInt8.toNat_ofNat', UInt8.toNat_ofNat'] at hmod
    omega
  obtain ⟨hfirst, hlast⟩ := append_inj hrest (by simp; omega)
  exact ⟨(append_inj hfirst hlength).1, Vector.toList_inj.mp hlast⟩

lemma additionalAt_eq : additionalAt x d i = x.lookup key := by rw [additionalAt, h, bind_some]

lemma additionalAt_change {o : Option AdditionalIaValue} (hkey : x'.lookup key = o)
    (hother : ∀ key', key' ≠ key → x'.lookup key' = x.lookup key') (d' : Duid) (j : Iaid) :
    additionalAt x' d' j = if d' = d ∧ j = i then o else additionalAt x d' j := by
  cases hkey' : secondaryIaKey d' j with
  | none =>
    rw [if_neg]
    · simp [additionalAt, hkey']
    · rintro ⟨rfl, rfl⟩
      rw [h] at hkey'
      cases hkey'
  | some key' =>
    rw [additionalAt_eq hkey', additionalAt_eq hkey']
    by_cases heq : key' = key
    · subst heq
      obtain ⟨rfl, rfl⟩ := secondaryIaKey_inj h hkey'
      simp [hkey]
    rw [hother key' heq, if_neg]
    rintro ⟨rfl, rfl⟩
    rw [h] at hkey'
    cases hkey'
    exact heq rfl

lemma additionalAt_insert (d' : Duid) (j : Iaid) :
    additionalAt (x.insert key a) d' j = if d' = d ∧ j = i then some a else additionalAt x d' j :=
  additionalAt_change h (AList.lookup_insert ..) (fun _ hne => AList.lookup_insert_ne hne) d' j

lemma additionalAt_erase (d' : Duid) (j : Iaid) :
    additionalAt (x.erase key) d' j = if d' = d ∧ j = i then none else additionalAt x d' j :=
  additionalAt_change h (AList.lookup_erase ..) (fun _ hne => AList.lookup_erase_ne hne) d' j

end

lemma additionalAt_some (h : additionalAt x d i = some a) :
    ∃ key, secondaryIaKey d i = some key ∧ x.lookup key = some a := by
  rw [additionalAt, bind_eq_some_iff] at h
  exact h

lemma relink_eq (f : AdditionalIaValue → AdditionalIaValue) (h : additionalAt x d i = some a) :
    ∃ x', relink x d i f = some x' ∧ size x' = size x ∧ ∀ d' j, additionalAt x' d' j =
      if d' = d ∧ j = i then some (f a) else additionalAt x d' j := by
  obtain ⟨key, hkey, hlookup⟩ := additionalAt_some h
  exact ⟨x.insert key (f a), by simp [relink, hkey, hlookup], size_insert_of_some hlookup _,
    additionalAt_insert hkey⟩

/-- The head of a chain becomes the first IA; the rest of the chain hangs on it. -/
theorem promote_eq (h : Chain (additionalAt x d) p (i :: r)) (hi : additionalAt x d i = some a) :
    ∃ x', promote x d i = some (a.value, x') ∧ size x' + 1 = size x ∧
      Chain (additionalAt x' d) a.value r ∧ additionalAt x' d i = none ∧
      (∀ d' j, d' ≠ d → additionalAt x' d' j = additionalAt x d' j) ∧
      ∀ j, j ≠ i → (additionalAt x' d j).map (fun b => data b.value) =
        (additionalAt x d j).map fun b => data b.value := by
  obtain ⟨key, hkey, hlookup⟩ := additionalAt_some hi
  have hname := h.named i a hi
  have hsize := size_erase_of_some hlookup
  have hlink : linkFrom i a.value.link = r.head? := Chain.link_eq (l := []) h hi
  have hir : i ∉ r := (nodup_cons.mp (nodup_cons.mp h.nodup).2).1
  have herase := additionalAt_erase (x := x) hkey
  have hroot : ∀ {t : Iaid → Option AdditionalIaValue},
      Chain t { p with link := r.head?.getD p.iaid } r → Chain t a.value r := by
    intro t ht
    refine ht.reroot ?_ (hname ▸ hir)
    have hp := h.first_notMem
    rw [firstOf, firstOf, hname, hlink]
    cases r with
    | nil => simp
    | cons k r => exact (linkFrom_ne fun heq : k = p.iaid => hp (by simp [heq])).symm
  have hfirst : firstOf { p with link := r.head?.getD p.iaid } =
      if ([] : List Iaid) = [] then r.head? else firstOf p := by
    have hp := h.first_notMem
    cases r with
    | nil => simp [firstOf]
    | cons k r => exact linkFrom_ne fun heq : k = p.iaid => hp (by simp [heq])
  by_cases hend : a.value.link = a.value.iaid
  · rw [hname] at hend
    rw [hend, linkFrom_self] at hlink
    have hnil : r = [] := head?_eq_none_iff.mp hlink.symm
    refine ⟨x.erase key, ?_, hsize, hroot (.unlink (l := []) h rfl hfirst ?_ ?_ ?_ ?_), ?_,
      fun d' j hd' => ?_, fun j hj => ?_⟩
    · simp [promote, hkey, hlookup, hend, hname]
    · simp [herase]
    · intro j hj
      simp [herase, hj]
    · intro j hj
      simp [nextOf, herase, hj]
    · intro j hj
      simp [prevOf, herase, hj, hnil]
    · simp [herase]
    · simp [herase, hd']
    · simp [herase, hj]
  rw [hname] at hend
  have hsome : r.head? = some a.value.link := by rw [← hlink, linkFrom_ne hend]
  have hmem := mem_of_head? hsome
  obtain ⟨next, hnext⟩ := h.exists_of_mem (mem_cons_of_mem i hmem)
  have hnext' : additionalAt (x.erase key) d a.value.link = some next := by
    rw [herase, if_neg, hnext]
    rintro ⟨-, heq⟩
    exact hend heq
  obtain ⟨x', hx', hsize', hall⟩ :=
    relink_eq (fun next => { next with previous := next.value.iaid }) hnext'
  have hnamed := h.named _ _ hnext
  refine ⟨x', ?_, by omega, hroot (.unlink (l := []) h rfl hfirst ?_ ?_ ?_ ?_), ?_,
    fun d' j hd' => ?_, fun j hj => ?_⟩
  · simp [promote, hkey, hlookup, hend, hname, hx']
  · simp [hall, herase, Ne.symm hend]
  · intro j hj
    by_cases hjk : j = a.value.link
    · subst hjk
      simp [hall, hnext]
    · simp [hall, herase, hjk, hj]
  · intro j hj
    by_cases hjk : j = a.value.link
    · subst hjk
      simp [nextOf, hall, hnext]
    · simp [nextOf, hall, herase, hjk, hj]
  · intro j hj
    by_cases hjk : j = a.value.link
    · subst hjk
      simp [prevOf, hall, hsome, hnamed]
    · have hne : ¬r.head? = some j := by
        rw [hsome, some_inj]
        exact Ne.symm hjk
      simp [prevOf, hall, herase, hjk, hj, hne]
  · simp [hall, herase, Ne.symm hend]
  · simp [hall, herase, hd']
  · by_cases hjk : j = a.value.link
    · subst hjk
      simp [hall, hnext]
    · simp [hall, herase, hjk, hj]

end OnetDns.Dhcp6
