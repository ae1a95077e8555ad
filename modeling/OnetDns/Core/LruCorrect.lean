import OnetDns.Core.LruChains

/-!
# The map is a list of entries

Every operation does to the entries in the order of use what it does to a list of them.
-/
namespace OnetDns.Core.LruMap
open List Option Nat Slab Prod

variable {K V : Type} {digest : K → UInt32} {m m' : LruMap K V} {i j : ℕ}
  {n : Node K V} {order l r : List ℕ} {key : K} {chain : List ℕ}

def entries (m : LruMap K V) (order : List ℕ) : Recency K V :=
  order.filterMap fun i => (m.node i).map fun n => (n.key, n.val)

lemma entries_append (m : LruMap K V) (l r : List ℕ) :
    m.entries (l ++ r) = m.entries l ++ m.entries r := filterMap_append

lemma entries_cons (hn : m.node i = some n) (r : List ℕ) :
    m.entries (i :: r) = (n.key, n.val) :: m.entries r :=
  filterMap_cons_some (by rw [hn]; rfl)

lemma entries_congr
    (hsame : ∀ i ∈ order, (m'.node i).map (fun n => (n.key, n.val)) = (m.node i).map fun n =>
      (n.key, n.val)) : m'.entries order = m.entries order :=
  filterMap_congr hsame

lemma Relinked.entries (h : Relinked m m') (order : List ℕ) : m'.entries order = m.entries order :=
  entries_congr fun i _ => (h.same.map fun view => (view.1, view.2.1)).node i

lemma mem_entries {entry : K × V} :
    entry ∈ m.entries order ↔ ∃ i ∈ order, ∃ n, m.node i = some n ∧ (n.key, n.val) = entry := by
  simp only [entries, mem_filterMap, map_eq_some_iff]

lemma Ok.length_entries (h : Ok digest m order) : (m.entries order).length = order.length := by
  have hlive := h.linked.live
  clear h
  induction order with
  | nil => rfl
  | cons i order ih =>
    rw [forall_mem_cons] at hlive
    obtain ⟨⟨n, hn⟩, hlive⟩ := hlive
    rw [entries_cons hn, length_cons, length_cons, ih hlive]

lemma Ok.places_nodup (h : Ok digest m (l ++ i :: r)) : i ∉ l ++ r :=
  (nodup_cons.mp (nodup_middle.mp h.linked.nodup)).1

lemma Ok.others (h : Ok digest m (l ++ i :: r)) (hn : m.node i = some n) {entry : K × V}
    (hentry : entry ∈ m.entries (l ++ r)) : entry.1 ≠ n.key := by
  obtain ⟨j, hj, n', hn', rfl⟩ := mem_entries.mp hentry
  intro hkey
  have hij := h.distinct j i n' n hn' hn hkey
  exact h.places_nodup (hij ▸ hj)

/-- Only values differ. -/
theorem Ok.same (h : Ok digest m order) (hsame : Same shape m m') (hmap : m'.map = m.map)
    (hhead : m'.head = m.head) (htail : m'.tail = m.tail) : Ok digest m' order where
  slab := hsame.slab h.slab
  linked := by
    refine ⟨h.linked.nodup, fun i hi => ?_, h.linked.below, ?_, ?_⟩
    · obtain ⟨n, hn⟩ := h.linked.live i hi
      obtain ⟨n', hn', -⟩ := hsame.node_some hn
      exact ⟨n', hn'⟩
    · rw [hhead]
      exact h.linked.forth.congr fun i _ => hsame.bind fun view => link view.2.2.1
    · rw [htail]
      exact h.linked.back.congr fun i _ => hsame.bind fun view => link view.2.1
  mem_order i n' hn' := by
    obtain ⟨n, hn, -⟩ := hsame.node_inv hn'
    exact h.mem_order i n hn
  chained := by
    intro hash
    obtain ⟨chain, hchain, hnodup, hmem⟩ := h.chained hash
    refine ⟨chain, hmap ▸ hchain.congr fun i _ => hsame.bind fun view => link view.2.2.2, hnodup,
      fun i => ?_⟩
    rw [hmem, hsame.hasDigest (fun _ _ => shape_key)]
  distinct i j n n' hn hn' hkey := by
    obtain ⟨o, ho, hview⟩ := hsame.node_inv hn
    obtain ⟨o', ho', hview'⟩ := hsame.node_inv hn'
    exact h.distinct i j o o' ho ho'
      ((congrArg fst hview).symm.trans (hkey.trans (congrArg fst hview')))
  len := by rw [hsame.len, h.len]
  full := by rw [hsame.cap]; exact h.full
  slots := by rw [hsame.cap, hsame.slots]; exact h.slots
  pos := by rw [hsame.cap]; exact h.pos
  lt := by rw [hsame.cap]; exact h.lt

section

variable (h : Ok digest m (l ++ i :: r))
include h

lemma setVal_spec (hn : m.node i = some n) (change : Node K V → Node K V) {val : V}
    (hchange : change n = { n with val }) (hshape : ∀ n, shape (change n) = shape n) :
    ∃ m', m.modify i change = some m' ∧ Ok digest m' (l ++ i :: r) ∧ m'.cap = m.cap ∧
      m'.node i = some { n with val } ∧ m'.entries (l ++ r) = m.entries (l ++ r) := by
  obtain ⟨m', hm', hsame, hmap, hhead, htail, hnode⟩ := modify_spec change shape hn hshape
  refine ⟨m', hm', h.same hsame hmap hhead htail, hsame.cap, ?_, entries_congr fun j hj => ?_⟩
  · rw [hnode, if_pos rfl, hchange]
  · rw [hnode, if_neg fun hij : i = j => h.places_nodup (hij ▸ hj)]

lemma moveFront_ok (hn : m.node i = some n) :
    ∃ m' n', m.moveFront i = some m' ∧ Ok digest m' (i :: (l ++ r)) ∧ m'.cap = m.cap ∧
      m'.node i = some n' ∧ n'.key = n.key ∧ n'.val = n.val ∧
      m'.entries (l ++ r) = m.entries (l ++ r) := by
  obtain ⟨m', hm', hre, hlinked⟩ := moveFront_spec h.linked
  obtain ⟨n', hn', hcontent⟩ := hre.same.node_some hn
  exact ⟨m', n', hm', h.relink hre hlinked perm_middle.symm, hre.same.cap, hn',
    content_key hcontent, congrArg (fun view => view.2.1) hcontent, hre.entries _⟩

lemma removeIndex_spec (hn : m.node i = some n) :
    ∃ n' m', m.removeIndex i (digest n.key) = some (n', m') ∧ n'.key = n.key ∧ n'.val = n.val ∧
      Ok digest m' (l ++ r) ∧ m'.cap = m.cap ∧ m'.entries (l ++ r) = m.entries (l ++ r) := by
  obtain ⟨m₁, hm₁, hsame₁, hhead₁, htail₁, hchained₁⟩ := unchain_spec h hn
  have hlinked₁ : m₁.Linked (l ++ i :: r) := by
    refine ⟨h.linked.nodup, fun j hj => ?_, h.linked.below, ?_, ?_⟩
    · obtain ⟨n, hn⟩ := h.linked.live j hj
      obtain ⟨n', hn', -⟩ := hsame₁.node_some hn
      exact ⟨n', hn'⟩
    · rw [hhead₁]
      exact h.linked.forth.congr fun j _ => hsame₁.bind fun view => link view.2.2.2
    · rw [htail₁]
      exact h.linked.back.congr fun j _ => hsame₁.bind fun view => link view.2.2.1
  obtain ⟨m₂, hm₂, hre₂, hlinked₂⟩ := unlink_spec hlinked₁
  have hsame₂ : Same (fun n : Node K V => (n.key, n.val)) m m₂ :=
    (hsame₁.map fun view => (view.1, view.2.1)).trans (hre₂.same.map fun view => (view.1, view.2.1))
  obtain ⟨n₂, hn₂, hview⟩ := hsame₂.node_some hn
  have hi := h.places_nodup
  have hlen : m₂.len = (l ++ r).length + 1 := by
    rw [hsame₂.len, h.len]
    simp only [length_append, length_cons]
    omega
  set m' : LruMap K V := { m₂ with len := m₂.len - 1, nodes := (m₂.nodes.take i).release i }
  have hnode (j : ℕ) : m'.node j = if i = j then none else m₂.node j := get_take (lt_of_get hn₂)
  have hother : ∀ j ∈ l ++ r, m'.node j = m₂.node j := fun j hj => by
    rw [hnode, if_neg fun hij : i = j => hi (hij ▸ hj)]
  have hslots : m'.nodes.slots.length = m.nodes.slots.length :=
    (length_take m₂.nodes i).trans hsame₂.slots
  refine ⟨n₂, m', ?_, congrArg fst hview, congrArg snd hview, ?_, hsame₂.cap, ?_⟩
  · rw [removeIndex, hm₁]
    change ((m₁.unlink i).bind fun m => (m.node i).bind fun n => if m.len = 0 then none else
      some (n, ({ m with len := m.len - 1, nodes := (m.nodes.take i).release i } : LruMap K V))) = _
    rw [hm₂, bind_some, hn₂, bind_some, if_neg (by omega)]
  · refine ⟨?_, ⟨hlinked₂.nodup, fun j hj => ?_, hlinked₂.below, ?_, ?_⟩, fun j n' hn' => ?_, fun hash => ?_,
      fun j k n n' hn hn' => ?_, ?_, ?_, ?_, ?_, ?_⟩
    · have hslab : m₂.nodes.Ok none := hsame₂.slab h.slab
      refine (hslab.take hn₂).release ?_ ?_
      · rw [Slab.length_take]
        exact lt_of_get hn₂
      · rw [get_take (lt_of_get hn₂), if_pos rfl]
    · rw [hother j hj]
      exact hlinked₂.live j hj
    · exact hlinked₂.forth.congr fun j hj => by rw [nextOf, hother j hj]; rfl
    · exact hlinked₂.back.congr fun j hj => by
        rw [prevOf, hother j (mem_reverse.mp hj)]; rfl
    · rw [hnode] at hn'
      split at hn'
      · cases hn'
      · obtain ⟨n, hn, -⟩ := hsame₂.node_inv hn'
        have hmem := h.mem_order j n hn
        simp only [mem_append, mem_cons] at hmem ⊢
        tauto
    · obtain ⟨chain, hchain, hnodup, hmem⟩ := hre₂.chained hchained₁ hash
      refine ⟨chain, hchain.congr fun j hj => ?_, hnodup, fun j => (hmem j).trans ?_⟩
      · have hij : i ≠ j := fun heq => ((hmem j).mp hj).1 (congrArg some heq)
        rw [hashNextOf, hnode, if_neg hij]
        rfl
      · rw [hnode]
        by_cases hij : i = j
        · simp [hij]
        · simp [hij]
    · rw [hnode] at hn hn'
      split at hn
      · cases hn
      split at hn'
      · cases hn'
      intro hkey
      obtain ⟨o, ho, hview⟩ := hsame₂.node_inv hn
      obtain ⟨o', ho', hview'⟩ := hsame₂.node_inv hn'
      exact h.distinct j k o o' ho ho'
        ((congrArg fst hview).symm.trans (hkey.trans (congrArg fst hview')))
    · change m₂.len - 1 = _
      omega
    · have hfull := h.full
      rw [hsame₂.cap]
      simp only [length_append, length_cons] at hfull ⊢
      omega
    · rw [hslots]
      exact hsame₂.cap.symm ▸ h.slots
    · exact hsame₂.cap.symm ▸ h.pos
    · exact hsame₂.cap.symm ▸ h.lt
  · have hentries : m'.entries (l ++ r) = m₂.entries (l ++ r) :=
      entries_congr fun j hj => by rw [hother j hj]
    rw [hentries]
    exact entries_congr fun j _ => hsame₂.node j

end

lemma add_spec (h : Ok digest m order) (hroom : order.length < m.cap)
    (habsent : ∀ i n, m.node i = some n → n.key ≠ key) (val : V) :
    ∃ m' i, m.add digest key val = some m' ∧ Ok digest m' (i :: order) ∧ m'.cap = m.cap ∧
      m'.entries (i :: order) = (key, val) :: m.entries order := by
  set index := m.nodes.next
  have hnone : m.node index = none := get_next h.slab
  have hle : index < nil := by
    have hnext := next_le h
    have hslots := h.slots
    have hlt := h.lt
    omega
  have hnew : index ∉ order := by
    intro hmem
    obtain ⟨n, hn⟩ := h.linked.live index hmem
    rw [hnone] at hn
    cases hn
  set fresh : Node K V := ⟨key, val, nil, nil, (m.map.lookup (digest key)).getD nil⟩ with hfresh
  set m₁ : LruMap K V := { m with
    nodes := m.nodes.insert fresh
    map := m.map.insert (digest key) index
    len := m.len + 1 }
  have hnode (j : ℕ) : m₁.node j = if index = j then some fresh else m.node j := get_insert h.slab
  have hother : ∀ j ∈ order, m₁.node j = m.node j := fun j hj => by
    rw [hnode, if_neg fun heq : index = j => hnew (heq ▸ hj)]
  have hlinked₁ : m₁.Linked order := by
    refine ⟨h.linked.nodup, fun j hj => ?_, h.linked.below, ?_, ?_⟩
    · rw [hother j hj]
      exact h.linked.live j hj
    · exact h.linked.forth.congr fun j hj => by rw [nextOf, hother j hj]; rfl
    · exact h.linked.back.congr fun j hj => by
        rw [prevOf, hother j (mem_reverse.mp hj)]; rfl
  have hfreshNode : m₁.node index = some fresh := by rw [hnode, if_pos rfl]
  obtain ⟨m', hm', hre, hlinked⟩ := pushFront_spec hlinked₁ hfreshNode hnew hle.ne
  -- the new node is in front of the chain of its digest
  have hchained₁ : m₁.Chained digest none := by
    intro hash
    obtain ⟨chain, hchain, hnodup, hmem⟩ := h.chained hash
    have hout : index ∉ chain := by
      intro hin
      obtain ⟨-, n, hn, -⟩ := (hmem index).mp hin
      rw [hnone] at hn
      cases hn
    have hlinks (j : ℕ) (hj : j ≠ index) : m₁.hashNextOf j = m.hashNextOf j := by
      rw [hashNextOf, hnode, if_neg (Ne.symm hj)]
      rfl
    by_cases heq : hash = digest key
    · subst heq
      have hstart : m₁.hashNextOf index = m.map.lookup (digest key) := by
        rw [hashNextOf_eq hfreshNode, hfresh]
        cases hlookup : m.map.lookup (digest key) with
        | none => rfl
        | some first =>
          have hhead := hchain.start_eq
          rw [hlookup] at hhead
          obtain ⟨-, n, hn, -⟩ := (hmem first).mp (mem_of_head? hhead.symm)
          exact if_neg (h.ne_nil hn)
      have hlookup : m₁.map.lookup (digest key) = some index := AList.lookup_insert _
      refine ⟨index :: chain, hlookup ▸ hchain.push hout hstart hlinks,
        nodup_cons.mpr ⟨hout, hnodup⟩, fun j => ?_⟩
      rw [mem_cons, hmem, hnode]
      by_cases hj : j = index
      · subst hj
        simp [hfresh]
      · simp [hj, Ne.symm hj]
    · have hlookup : m₁.map.lookup hash = m.map.lookup hash := AList.lookup_insert_ne heq
      refine ⟨chain, hlookup ▸ hchain.congr fun j hj => hlinks j fun hji => hout (hji ▸ hj),
        hnodup, fun j => ?_⟩
      rw [hmem, hnode]
      by_cases hj : j = index
      · subst hj
        simp [hfresh, hnone, Ne.symm heq]
      · simp [Ne.symm hj]
  have hslots₁ : m₁.nodes.slots.length ≤ m.cap := by
    change (m.nodes.insert fresh).slots.length ≤ m.cap
    cases hfree : m.nodes.free with
    | nil =>
      have hfull := h.slots_le hfree
      rw [Slab.insert, hfree, length_append, length_singleton]
      omega
    | cons i free =>
      rw [Slab.insert, hfree, length_set]
      exact h.slots
  have hadd : m.add digest key val = m₁.pushFront index := if_neg (not_lt.mpr hle.le)
  refine ⟨m', index, hadd.trans hm', ⟨hre.same.slab (h.slab.insert fresh), hlinked,
    fun j n' hn' => ?_, hre.chained hchained₁, fun j k n n' hn hn' hkey => ?_, ?_, ?_, ?_, ?_, ?_⟩, hre.same.cap, ?_⟩
  · obtain ⟨n, hn, -⟩ := hre.same.node_inv hn'
    rw [hnode] at hn
    split at hn
    · rename_i heq
      exact heq ▸ mem_cons_self
    · exact mem_cons_of_mem _ (h.mem_order j n hn)
  · obtain ⟨o, ho, hcontent⟩ := hre.same.node_inv hn
    obtain ⟨o', ho', hcontent'⟩ := hre.same.node_inv hn'
    rw [content_key hcontent, content_key hcontent'] at hkey
    rw [hnode] at ho ho'
    split at ho <;> split at ho'
    · rename_i hj hk
      exact hj.symm.trans hk
    · cases ho
      exact absurd hkey.symm (habsent k o' ho')
    · cases ho'
      exact absurd hkey (habsent j o ho)
    · exact h.distinct j k o o' ho ho' hkey
  · rw [hre.same.len]
    exact congrArg (· + 1) h.len
  · rw [hre.same.cap]
    exact hroom
  · rw [hre.same.cap, hre.same.slots]
    exact hslots₁
  · rw [hre.same.cap]
    exact h.pos
  · rw [hre.same.cap]
    exact h.lt
  · rw [hre.entries, entries_cons hfreshNode]
    exact congrArg _ (entries_congr fun j hj => by rw [hother j hj])

/-- What an operation does to the entries, and that the map stays in order. -/
structure Becomes (digest : K → UInt32) (m m' : LruMap K V) (l : Recency K V) : Prop where
  ok : ∃ order, Ok digest m' order ∧ m'.entries order = l
  cap : m'.cap = m.cap

lemma Ok.becomes (h : Ok digest m order) : Becomes digest m m (m.entries order) :=
  ⟨⟨order, h, rfl⟩, rfl⟩

lemma ok_empty {cap : ℕ} (hpos : 0 < cap) (hlt : cap < nil) :
    Ok digest (⟨cap, ∅, .empty, nil, nil, 0⟩ : LruMap K V) [] where
  slab := ⟨nodup_nil, fun i => by simp [Slab.empty]⟩
  linked := ⟨nodup_nil, by simp, by simp, rfl, rfl⟩
  mem_order i n hn := by cases hn
  chained hash := ⟨[], rfl, nodup_nil, fun i => by
    simp [node, Slab.empty, Slab.get]⟩
  distinct i j n n' hn := by cases hn
  len := rfl
  full := hpos.le
  slots := hpos.le
  pos := hpos
  lt := hlt

lemma popLru_spec (h : Ok digest m order) :
    ∃ m', m.popLru digest = some ((m.entries order).getLast?, m') ∧
      Becomes digest m m' (m.entries order).dropLast := by
  have htail := h.linked.back.start_eq
  rw [head?_reverse] at htail
  rcases eq_nil_or_concat' order with rfl | ⟨l, i, rfl⟩
  · exact ⟨m, if_pos (link_eq_none.mp htail), h.becomes⟩
  rw [getLast?_concat, link_eq_some] at htail
  obtain ⟨hi, hne⟩ := htail
  obtain ⟨n, hn⟩ := h.linked.live i (by simp)
  obtain ⟨n', m', hm', hkey, hval, hok, hcap, hentries⟩ := removeIndex_spec h hn
  rw [append_nil] at hok hentries
  have hsplit : m.entries (l ++ [i]) = m.entries l ++ [(n.key, n.val)] := by
    rw [entries_append, entries_cons hn]
    rfl
  refine ⟨m', ?_, ⟨⟨l, hok, ?_⟩, hcap⟩⟩
  · rw [popLru, if_neg (hi ▸ hne), hi, hn]
    change ((m.removeIndex i (digest n.key)).bind fun x => some (some (x.1.key, x.1.val), x.2)) = _
    rw [hm', bind_some, hkey, hval, hsplit, getLast?_concat]
  · rw [hsplit, dropLast_concat, hentries]

variable [DecidableEq K]

lemma findFrom_spec (key : K) {fuel index : ℕ} (hchain : Threaded m.hashNextOf (link index) chain)
    (hlive : ∀ i ∈ chain, ∃ n, m.node i = some n) (hfuel : chain.length < fuel) :
    ∃ found, m.findFrom key fuel index = some found ∧
      (∀ i, found = some i → ∃ n, m.node i = some n ∧ n.key = key) ∧
      (found = none → ∀ i ∈ chain, ∀ n, m.node i = some n → n.key ≠ key) := by
  induction chain generalizing fuel index with
  | nil =>
    obtain ⟨fuel, rfl⟩ := exists_eq_add_one_of_ne_zero (ne_of_gt hfuel)
    exact ⟨none, if_pos (link_eq_none.mp hchain), nofun, fun _ => nofun⟩
  | cons i chain ih =>
    obtain ⟨fuel, rfl⟩ := exists_eq_add_one_of_ne_zero (ne_zero_of_lt hfuel)
    obtain ⟨rfl, hne⟩ := link_eq_some.mp hchain.1
    rw [forall_mem_cons] at hlive
    obtain ⟨⟨n, hn⟩, hlive⟩ := hlive
    have hrest := hchain.2
    rw [hashNextOf_eq hn] at hrest
    rw [findFrom, if_neg hne, hn]
    by_cases hkey : n.key = key
    · exact ⟨some index, if_pos hkey, fun i hi => by cases hi; exact ⟨n, hn, hkey⟩, nofun⟩
    obtain ⟨found, hfound, hsome, hnone⟩ := ih hrest hlive (lt_of_succ_lt_succ hfuel)
    refine ⟨found, (if_neg hkey).trans hfound, hsome, fun hf j hj n' hn' => ?_⟩
    rcases mem_cons.mp hj with rfl | hj
    · rw [hn] at hn'
      cases hn'
      exact hkey
    · exact hnone hf j hj n' hn'

lemma findIndex_spec (h : Ok digest m order) (key : K) :
    (∃ i n, m.findIndex digest key = some (some i) ∧ m.node i = some n ∧ n.key = key) ∨
      m.findIndex digest key = some none ∧ ∀ i n, m.node i = some n → n.key ≠ key := by
  obtain ⟨chain, hchain, hnodup, hmem⟩ := h.chained (digest key)
  have hlive : ∀ i ∈ chain, ∃ n, m.node i = some n := by
    intro i hi
    obtain ⟨-, n, hn, -⟩ := (hmem i).mp hi
    exact ⟨n, hn⟩
  have habsent : (∀ i ∈ chain, ∀ n, m.node i = some n → n.key ≠ key) →
      ∀ i n, m.node i = some n → n.key ≠ key := by
    intro hall i n hn hkey
    exact hall i ((hmem i).mpr ⟨nofun, n, hn, by rw [hkey]⟩) n hn hkey
  rw [findIndex]
  cases hlookup : m.map.lookup (digest key) with
  | none =>
    rw [hlookup] at hchain
    have hnil : chain = [] := head?_eq_none_iff.mp hchain.start_eq.symm
    refine .inr ⟨rfl, habsent ?_⟩
    rw [hnil]
    exact nofun
  | some index =>
    rw [hlookup] at hchain
    have hhead := hchain.start_eq
    obtain ⟨n₀, hn₀⟩ := hlive index (mem_of_head? hhead.symm)
    have hlink : link index = some index := if_neg (h.ne_nil hn₀)
    obtain ⟨found, hfound, hsome, hnone⟩ := findFrom_spec key (hlink ▸ hchain) hlive
      (lt_succ_of_le (length_le_slots hnodup hlive))
    cases found with
    | none => exact .inr ⟨hfound, habsent (hnone rfl)⟩
    | some i =>
      obtain ⟨n, hn, hkey⟩ := hsome i rfl
      exact .inl ⟨i, n, hfound, hn, hkey⟩

lemma Ok.lookup_at (h : Ok digest m (l ++ i :: r)) (hn : m.node i = some n) :
    (m.entries (l ++ i :: r)).lookup n.key = some n.val := by
  rw [entries_append, entries_cons hn, lookup_eq_some_iff]
  refine ⟨_, _, rfl, fun entry hentry => ?_⟩
  have hother := h.others hn (entries_append m l r ▸ mem_append_left _ hentry)
  simpa using hother.symm

lemma Ok.drop_at (h : Ok digest m (l ++ i :: r)) (hn : m.node i = some n) :
    Recency.drop (m.entries (l ++ i :: r)) n.key = m.entries (l ++ r) := by
  rw [Recency.drop, entries_append, entries_cons hn, eraseP_append_right, entries_append]
  · rw [eraseP_cons_of_pos (by simp)]
  · intro entry hentry
    have hother := h.others hn (entries_append m l r ▸ mem_append_left _ hentry)
    simpa using hother

lemma lookup_absent (habsent : ∀ i n, m.node i = some n → n.key ≠ key) (order : List ℕ) :
    (m.entries order).lookup key = none := by
  rw [lookup_eq_none_iff]
  intro entry hentry
  obtain ⟨i, -, n, hn, rfl⟩ := mem_entries.mp hentry
  simpa using (habsent i n hn).symm

section

variable (h : Ok digest m order)
include h

/-- The key is looked up in the entries. -/
theorem found_cases (key : K) :
    (∃ l i r n, order = l ++ i :: r ∧ m.findIndex digest key = some (some i) ∧
        m.node i = some n ∧ n.key = key ∧ (m.entries order).lookup key = some n.val ∧
        (m.entries order).drop key = m.entries (l ++ r)) ∨
      m.findIndex digest key = some none ∧ (∀ i n, m.node i = some n → n.key ≠ key) ∧
        (m.entries order).lookup key = none := by
  rcases findIndex_spec h key with ⟨i, n, hfind, hn, rfl⟩ | ⟨hfind, habsent⟩
  · obtain ⟨l, r, rfl⟩ := append_of_mem (h.mem_order i n hn)
    exact .inl ⟨l, i, r, n, rfl, hfind, hn, rfl, h.lookup_at hn, h.drop_at hn⟩
  · exact .inr ⟨hfind, habsent, lookup_absent habsent order⟩

lemma get_spec (key : K) : ∃ m', m.get digest key = some ((m.entries order).lookup key, m') ∧
      Becomes digest m m' ((m.entries order).touch key id) := by
  rcases found_cases h key with ⟨l, i, r, n, rfl, hfind, hn, rfl, hlookup, hdrop⟩ |
    ⟨hfind, -, hlookup⟩
  · obtain ⟨m', n', hm', hok, hcap, hn', hkey, hval, hentries⟩ := moveFront_ok h hn
    refine ⟨m', ?_, ⟨⟨_, hok, ?_⟩, hcap⟩⟩
    · rw [get, hfind, hlookup]
      change ((m.moveFront i).bind fun m => (m.node i).bind fun n => some (some n.val, m)) = _
      rw [hm', bind_some, hn', bind_some, hval]
    · rw [Recency.touch, hlookup, entries_cons hn', hkey, hval, hentries, hdrop]
      rfl
  · refine ⟨m, by rw [get, hfind, hlookup]; rfl, ?_⟩
    rw [Recency.touch, hlookup]
    exact h.becomes

lemma getMut_spec (key : K) (change : V → V) :
    ∃ m', m.getMut digest key change = some ((m.entries order).lookup key, m') ∧
      Becomes digest m m' ((m.entries order).touch key change) := by
  rcases found_cases h key with ⟨l, i, r, n, rfl, hfind, hn, rfl, hlookup, hdrop⟩ |
    ⟨hfind, -, hlookup⟩
  · obtain ⟨m₁, n₁, hm₁, hok₁, hcap₁, hn₁, hkey, hval, hentries₁⟩ := moveFront_ok h hn
    obtain ⟨m₂, hm₂, hok₂, hcap₂, hn₂, hentries₂⟩ := setVal_spec (l := []) hok₁ hn₁
      (fun n => { n with val := change n.val }) rfl fun _ => rfl
    refine ⟨m₂, ?_, ⟨⟨_, hok₂, ?_⟩, hcap₂.trans hcap₁⟩⟩
    · rw [getMut, hfind, hlookup]
      change ((m.moveFront i).bind fun m => (m.node i).bind fun n =>
        (m.modify i fun n => { n with val := change n.val }).bind fun m => some (some n.val, m)) = _
      rw [hm₁, bind_some, hn₁, bind_some, hm₂, bind_some, hval]
    · rw [Recency.touch, hlookup, nil_append, entries_cons hn₂]
      rw [nil_append, hentries₁] at hentries₂
      simp only [hkey, hval, hentries₂, hdrop]
  · refine ⟨m, by rw [getMut, hfind, hlookup]; rfl, ?_⟩
    rw [Recency.touch, hlookup]
    exact h.becomes

lemma peek_spec (key : K) : m.peek digest key = some ((m.entries order).lookup key) := by
  rcases found_cases h key with ⟨l, i, r, n, -, hfind, hn, -, hlookup, -⟩ | ⟨hfind, -, hlookup⟩
  · rw [peek, hfind, hlookup]
    change ((m.node i).bind fun n => some (some n.val)) = _
    rw [hn, bind_some]
  · rw [peek, hfind, hlookup]
    rfl

lemma containsKey_spec (key : K) :
    m.containsKey digest key = some ((m.entries order).lookup key).isSome := by
  rcases found_cases h key with ⟨l, i, r, n, -, hfind, -, -, hlookup, -⟩ | ⟨hfind, -, hlookup⟩ <;>
    rw [containsKey, hfind, hlookup] <;> rfl

lemma pop_spec (key : K) : ∃ m', m.pop digest key = some ((m.entries order).lookup key, m') ∧
      Becomes digest m m' ((m.entries order).drop key) := by
  rcases found_cases h key with ⟨l, i, r, n, rfl, hfind, hn, rfl, hlookup, hdrop⟩ |
    ⟨hfind, habsent, hlookup⟩
  · obtain ⟨n', m', hm', -, hval, hok, hcap, hentries⟩ := removeIndex_spec h hn
    refine ⟨m', ?_, ⟨⟨_, hok, hentries.trans hdrop.symm⟩, hcap⟩⟩
    rw [pop, hfind, hlookup]
    change ((m.removeIndex i (digest n.key)).bind fun x => some (some x.1.val, x.2)) = _
    rw [hm', bind_some, hval]
  refine ⟨m, by rw [pop, hfind, hlookup]; rfl, ?_⟩
  have hdrop : (m.entries order).drop key = m.entries order := by
    refine eraseP_of_forall_not fun entry hentry => ?_
    obtain ⟨i, -, n, hn, rfl⟩ := mem_entries.mp hentry
    simpa using habsent i n hn
  rw [hdrop]
  exact h.becomes

lemma put_spec (key : K) (val : V) : ∃ m', m.put digest key val = some m' ∧
      Becomes digest m m' ((m.entries order).put m.cap key val) := by
  rcases found_cases h key with ⟨l, i, r, n, rfl, hfind, hn, rfl, hlookup, hdrop⟩ |
    ⟨hfind, habsent, hlookup⟩
  · obtain ⟨m₁, hm₁, hok₁, hcap₁, hn₁, hentries₁⟩ := setVal_spec h hn ({ · with val }) rfl
      fun _ => rfl
    obtain ⟨m₂, n₂, hm₂, hok₂, hcap₂, hn₂, hkey, hval, hentries₂⟩ := moveFront_ok hok₁ hn₁
    refine ⟨m₂, ?_, ⟨⟨_, hok₂, ?_⟩, hcap₂.trans hcap₁⟩⟩
    · rw [put, hfind]
      change ((m.modify i ({ · with val })).bind fun m => m.moveFront i) = _
      rw [hm₁, bind_some, hm₂]
    · rw [Recency.put, hlookup, entries_cons hn₂, hkey, hval, hentries₂, hentries₁, hdrop]
  have hlength := h.length_entries
  rw [put, hfind, Recency.put, hlookup, hlength]
  change ∃ m', ((if m.cap ≤ m.len then (m.popLru digest).map snd else some m).bind
    fun m => m.add digest key val) = some m' ∧ _
  rw [h.len]
  split
  · obtain ⟨m₁, hm₁, ⟨⟨order₁, hok₁, hentries₁⟩, hcap₁⟩⟩ := popLru_spec h
    have hroom : order₁.length < m₁.cap := by
      have hlen := hok₁.length_entries
      rw [hentries₁, length_dropLast] at hlen
      have hpos := h.pos
      have hle := h.full
      omega
    have habsent₁ : ∀ i n, m₁.node i = some n → n.key ≠ key := by
      intro i n hn hkey
      have hmem : (n.key, n.val) ∈ m₁.entries order₁ :=
        mem_entries.mpr ⟨i, hok₁.mem_order i n hn, n, hn, rfl⟩
      rw [hentries₁] at hmem
      obtain ⟨j, -, n', hn', heq⟩ := mem_entries.mp (mem_of_mem_dropLast hmem)
      exact habsent j n' hn' ((congrArg fst heq).trans hkey)
    obtain ⟨m₂, i, hm₂, hok₂, hcap₂, hentries₂⟩ := add_spec hok₁ hroom habsent₁ val
    refine ⟨m₂, ?_, ⟨⟨_, hok₂, ?_⟩, hcap₂.trans hcap₁⟩⟩
    · rw [hm₁, map_some, bind_some, hm₂]
    · rw [hentries₂, hentries₁]
  · rename_i hroom
    obtain ⟨m₂, i, hm₂, hok₂, hcap₂, hentries₂⟩ := add_spec h (not_le.mp hroom) habsent val
    exact ⟨m₂, hm₂, ⟨⟨_, hok₂, hentries₂⟩, hcap₂⟩⟩

/-- One operation. -/
theorem exec_spec (op : Op K V) :
    ∃ m', m.exec digest op = some (((m.entries order).exec m.cap op).1, m') ∧
      Becomes digest m m' ((m.entries order).exec m.cap op).2 := by
  cases op with
  | put key val =>
    obtain ⟨m', hm', hbecomes⟩ := put_spec h key val
    exact ⟨m', by rw [exec, hm']; rfl, hbecomes⟩
  | get key =>
    obtain ⟨m', hm', hbecomes⟩ := get_spec h key
    exact ⟨m', by rw [exec, hm']; rfl, hbecomes⟩
  | getMut key change =>
    obtain ⟨m', hm', hbecomes⟩ := getMut_spec h key change
    exact ⟨m', by rw [exec, hm']; rfl, hbecomes⟩
  | peek key => exact ⟨m, by rw [exec, peek_spec h]; rfl, h.becomes⟩
  | pop key =>
    obtain ⟨m', hm', hbecomes⟩ := pop_spec h key
    exact ⟨m', by rw [exec, hm']; rfl, hbecomes⟩
  | popLru =>
    obtain ⟨m', hm', hbecomes⟩ := popLru_spec h
    exact ⟨m', by rw [exec, hm']; rfl, hbecomes⟩
  | containsKey key => exact ⟨m, by rw [exec, containsKey_spec h]; rfl, h.becomes⟩
  | clear => exact ⟨m.clear, rfl, ⟨⟨[], ok_empty h.pos h.lt, rfl⟩, rfl⟩⟩

/-- A sequence of operations. -/
theorem run_spec (ops : List (Op K V)) :
    ∃ m', m.run digest ops = some (((m.entries order).run m.cap ops).1, m') ∧
      Becomes digest m m' ((m.entries order).run m.cap ops).2 := by
  induction ops generalizing m order with
  | nil => exact ⟨m, rfl, h.becomes⟩
  | cons op rest ih =>
    obtain ⟨m₁, hm₁, ⟨⟨order₁, hok₁, hentries₁⟩, hcap₁⟩⟩ := exec_spec h op
    obtain ⟨m₂, hm₂, ⟨hok₂, hcap₂⟩⟩ := ih hok₁
    rw [hentries₁, hcap₁] at hm₂ hok₂
    refine ⟨m₂, ?_, ⟨hok₂, hcap₂.trans hcap₁⟩⟩
    rw [run, hm₁]
    change ((m₁.run digest rest).bind fun x => some (_ :: x.1, x.2)) = _
    rw [hm₂]
    rfl

end

/-- Whatever the digests are, the map answers like a list of entries in the order of their use, of
at most as many as it has room for, and never gets stuck. Its length is that of the list, and every
place of its array either holds an entry or is on the stack of free ones. -/
theorem lruMap_refines (digest : K → UInt32) (cap : ℕ) (hcap : cap < nil) (ops : List (Op K V)) :
    let ideal := Recency.run (max cap 1) ([] : Recency K V) ops
    ∃ m m', new cap = some m ∧ m.run digest ops = some (ideal.1, m') ∧
      m'.len = ideal.2.length ∧ ideal.2.length ≤ max cap 1 ∧ m'.nodes.free.Nodup ∧
      (∀ i ∈ m'.nodes.free, i < m'.nodes.slots.length) ∧
      ∀ i < m'.nodes.slots.length, (m'.node i).isSome ↔ i ∉ m'.nodes.free := by
  have hlt : max cap 1 < nil := max_lt hcap (by decide)
  have hstart : Ok digest (⟨max cap 1, ∅, .empty, nil, nil, 0⟩ : LruMap K V) [] :=
    ok_empty (lt_of_lt_of_le one_pos (le_max_right cap 1)) hlt
  obtain ⟨m', hm', ⟨⟨order, hok, hentries⟩, hsame⟩⟩ := run_spec hstart ops
  refine ⟨_, m', if_pos hlt, hm', ?_, ?_, hok.slab.nodup,
    fun i hi => ((hok.slab.mem_free i).mp hi).1, fun i hi => ?_⟩
  · rw [hok.len, ← hok.length_entries, hentries]
    rfl
  · have hfull := hok.full
    rw [hsame, ← hok.length_entries, hentries] at hfull
    exact hfull
  · have hfree := hok.slab.mem_free i
    simp only [hi, true_and, ne_eq, reduceCtorEq, not_false_eq_true, and_true] at hfree
    rw [hfree]
    exact isSome_iff_ne_none

/-- Two keys with one digest: the one that was used is kept. -/
theorem lruMap_refines_pair : ∃ m m' : LruMap ℕ ℕ, new 2 = some m ∧
    m.run (fun _ => 0) [.put 1 10, .put 2 20, .get 1, .put 3 30, .peek 2, .pop 1] =
      some ([.done, .done, .value (some 10), .done, .value none, .value (some 10)], m') ∧
    m'.len = 1 := by
  obtain ⟨m, m', hm, hm', hlen, -⟩ := lruMap_refines (fun _ : ℕ => 0) 2 (by decide)
    [.put 1 10, .put 2 20, .get 1, .put 3 30, .peek 2, .pop 1]
  exact ⟨m, m', hm, hm', hlen⟩

/-- The greatest index is the mark of no node, so as many entries are refused by an assertion; and
room for none is made room for one. -/
theorem capacity_limits : (new (2 ^ 32 - 1) : Option (LruMap ℕ ℕ)) = none ∧
    (((new 0 : Option (LruMap ℕ ℕ)).bind fun m => m.run (fun _ => 0) [.put 1 10]).map
      fun x => x.2.len) = some 1 := by
  decide

end OnetDns.Core.LruMap
