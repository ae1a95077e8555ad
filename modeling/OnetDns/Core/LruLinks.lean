import OnetDns.Core.LruMap
import OnetDns.Lib.Threaded

/-!
# The order of use

What the links from node to node say, and what the operations on them do.
-/
namespace OnetDns.Core
open List Option

/-- The node behind a link, if there is one. -/
def link (i : ℕ) : Option ℕ := if i = nil then none else some i

lemma link_eq_none {i : ℕ} : link i = none ↔ i = nil := by
  rw [link]
  split <;> simp_all

lemma link_eq_some {i j : ℕ} : link i = some j ↔ i = j ∧ j ≠ nil := by
  rw [link]
  split
  · simp_all
  · rename_i hne
    rw [some_inj]
    exact ⟨fun h => ⟨h, h ▸ hne⟩, And.left⟩

namespace LruMap

variable {K V : Type} {m m' m'' : LruMap K V} {i j : ℕ} {n : Node K V} {order l r : List ℕ}

def nextOf (m : LruMap K V) (i : ℕ) : Option ℕ := (m.node i).bind fun n => link n.next
def prevOf (m : LruMap K V) (i : ℕ) : Option ℕ := (m.node i).bind fun n => link n.prev
def hashNextOf (m : LruMap K V) (i : ℕ) : Option ℕ := (m.node i).bind fun n => link n.hashNext

lemma nextOf_eq (h : m.node i = some n) : m.nextOf i = link n.next := by rw [nextOf, h, bind_some]
lemma prevOf_eq (h : m.node i = some n) : m.prevOf i = link n.prev := by rw [prevOf, h, bind_some]
lemma hashNextOf_eq (h : m.node i = some n) : m.hashNextOf i = link n.hashNext := by
  rw [hashNextOf, h, bind_some]

/-- Nothing is different but nodes, and these only where `view` does not look. -/
structure Same {α : Type} (view : Node K V → α) (m m' : LruMap K V) : Prop where
  cap : m'.cap = m.cap
  len : m'.len = m.len
  free : m'.nodes.free = m.nodes.free
  slots : m'.nodes.slots.length = m.nodes.slots.length
  node : ∀ i, (m'.node i).map view = (m.node i).map view

namespace Same

variable {α β : Type} {view : Node K V → α}

lemma refl (view : Node K V → α) (m : LruMap K V) : Same view m m := ⟨rfl, rfl, rfl, rfl, fun _ => rfl⟩

section

variable (h : Same view m m')
include h

lemma trans (h' : Same view m' m'') : Same view m m'' :=
  ⟨h'.cap.trans h.cap, h'.len.trans h.len, h'.free.trans h.free, h'.slots.trans h.slots,
    fun i => (h'.node i).trans (h.node i)⟩

lemma map (f : α → β) : Same (fun n => f (view n)) m m' := by
  refine { h with node := fun i => ?_ }
  have hnode := congrArg (Option.map f) (h.node i)
  rwa [Option.map_map, Option.map_map] at hnode

lemma node_some (hi : m.node i = some n) : ∃ n', m'.node i = some n' ∧ view n' = view n := by
  have hnode := h.node i
  rw [hi, map_some, map_eq_some_iff] at hnode
  exact hnode

lemma node_inv {n' : Node K V} (hi : m'.node i = some n') :
    ∃ n, m.node i = some n ∧ view n' = view n := by
  have hnode := h.node i
  rw [hi, map_some, eq_comm, map_eq_some_iff] at hnode
  obtain ⟨n, hn, hview⟩ := hnode
  exact ⟨n, hn, hview.symm⟩

lemma bind (f : α → Option β) :
    ((m'.node i).bind fun n => f (view n)) = (m.node i).bind fun n => f (view n) := by
  have hnode := congrArg (fun x : Option α => x.bind f) (h.node i)
  simpa only [bind_map, Function.comp_def] using hnode

lemma slab (hm : m.nodes.Ok none) : m'.nodes.Ok none := by
  refine ⟨h.free ▸ hm.nodup, fun i => ?_⟩
  have hnode : m'.nodes.get i = none ↔ m.nodes.get i = none := by
    rw [← map_eq_none_iff (f := view), ← map_eq_none_iff (f := view)]
    exact iff_of_eq (congrArg (· = none) (h.node i))
  rw [h.free, h.slots, hnode]
  exact hm.mem_free i

lemma hasDigest (hview : ∀ n n', view n = view n' → n.key = n'.key)
    (digest : K → UInt32) (hash : UInt32) (i : ℕ) :
    (∃ n, m'.node i = some n ∧ digest n.key = hash) ↔
      ∃ n, m.node i = some n ∧ digest n.key = hash := by
  constructor
  · rintro ⟨n', hn', hhash⟩
    obtain ⟨n, hn, heq⟩ := h.node_inv hn'
    exact ⟨n, hn, hview _ _ heq ▸ hhash⟩
  · rintro ⟨n, hn, hhash⟩
    obtain ⟨n', hn', heq⟩ := h.node_some hn
    exact ⟨n', hn', hview _ _ heq.symm ▸ hhash⟩

end

end Same

lemma modify_spec {α : Type} (change : Node K V → Node K V) (view : Node K V → α)
    (h : m.node i = some n) (hview : ∀ n, view (change n) = view n) :
    ∃ m', m.modify i change = some m' ∧ Same view m m' ∧ m'.map = m.map ∧ m'.head = m.head ∧
      m'.tail = m.tail ∧ ∀ j, m'.node j = if i = j then some (change n) else m.node j := by
  have hnode : ∀ j, ({ m with nodes := m.nodes.put i (change n) } : LruMap K V).node j =
      if i = j then some (change n) else m.node j := fun j => Slab.get_put (Slab.lt_of_get h)
  refine ⟨{ m with nodes := m.nodes.put i (change n) }, by rw [modify, h]; rfl,
    ⟨rfl, rfl, rfl, Slab.length_put .., fun j => ?_⟩, rfl, rfl, rfl, hnode⟩
  rw [hnode]
  split
  · rename_i hij
    subst hij
    rw [h, map_some, map_some, hview]
  · rfl

lemma node_lt (h : m.node i = some n) : i < m.nodes.slots.length := Slab.lt_of_get h

lemma length_le_slots {places : List ℕ} (hnodup : places.Nodup)
    (hlive : ∀ i ∈ places, ∃ n, m.node i = some n) : places.length ≤ m.nodes.slots.length := by
  have hsub : places ⊆ range m.nodes.slots.length := by
    intro i hi
    obtain ⟨n, hn⟩ := hlive i hi
    exact mem_range.mpr (node_lt hn)
  have hle := (subperm_of_subset hnodup hsub).length_le
  rwa [length_range] at hle

/-- The nodes in the order of use. -/
structure Linked (m : LruMap K V) (order : List ℕ) : Prop where
  nodup : order.Nodup
  live : ∀ i ∈ order, ∃ n, m.node i = some n
  below : ∀ i ∈ order, i ≠ nil
  forth : Threaded m.nextOf (link m.head) order
  back : Threaded m.prevOf (link m.tail) order.reverse

/-- What a node holds for others. -/
def content (n : Node K V) : K × V × ℕ := (n.key, n.val, n.hashNext)

variable {n n' : Node K V}

lemma content_key (h : content n = content n') : n.key = n'.key := congrArg Prod.fst h

/-- What a node holds but for the link of its chain. -/
def apart (n : Node K V) : K × V × ℕ × ℕ := (n.key, n.val, n.prev, n.next)

lemma apart_key (h : apart n = apart n') : n.key = n'.key := congrArg Prod.fst h

/-- What a node holds but for its value. -/
def shape (n : Node K V) : K × ℕ × ℕ × ℕ := (n.key, n.prev, n.next, n.hashNext)

lemma shape_key (h : shape n = shape n') : n.key = n'.key := congrArg Prod.fst h

/-- The nodes are linked in another order. -/
structure Relinked (m m' : LruMap K V) : Prop where
  same : Same content m m'
  map : m'.map = m.map

lemma Relinked.trans (h : Relinked m m') (h' : Relinked m' m'') : Relinked m m'' :=
  ⟨h.same.trans h'.same, h'.map.trans h.map⟩

lemma setNext_spec (h : m.node i = some n) (next : ℕ) :
    ∃ m', m.setNext i next = some m' ∧ Relinked m m' ∧ m'.head = m.head ∧ m'.tail = m.tail ∧
      (∀ j, m'.nextOf j = if i = j then link next else m.nextOf j) ∧
      ∀ j, m'.prevOf j = m.prevOf j := by
  obtain ⟨m', hm', hsame, hmap, hhead, htail, hnode⟩ :=
    modify_spec ({ · with next }) (fun n => (content n, n.prev)) h fun _ => rfl
  refine ⟨m', hm', ⟨hsame.map Prod.fst, hmap⟩, hhead, htail, fun j => ?_, fun j => ?_⟩
  · rw [nextOf, hnode]
    split
    · rfl
    · rfl
  · exact hsame.bind fun view => link view.2

lemma setPrev_spec (h : m.node i = some n) (prev : ℕ) :
    ∃ m', m.setPrev i prev = some m' ∧ Relinked m m' ∧ m'.head = m.head ∧ m'.tail = m.tail ∧
      (∀ j, m'.prevOf j = if i = j then link prev else m.prevOf j) ∧
      ∀ j, m'.nextOf j = m.nextOf j := by
  obtain ⟨m', hm', hsame, hmap, hhead, htail, hnode⟩ :=
    modify_spec ({ · with prev }) (fun n => (content n, n.next)) h fun _ => rfl
  refine ⟨m', hm', ⟨hsame.map Prod.fst, hmap⟩, hhead, htail, fun j => ?_, fun j => ?_⟩
  · rw [prevOf, hnode]
    split
    · rfl
    · rfl
  · exact hsame.bind fun view => link view.2

lemma Relinked.live (h : Relinked m m') {order : List ℕ} (hlive : ∀ i ∈ order, ∃ n, m.node i = some n) :
    ∀ i ∈ order, ∃ n, m'.node i = some n := by
  intro i hi
  obtain ⟨n, hn⟩ := hlive i hi
  obtain ⟨n', hn', -⟩ := h.same.node_some hn
  exact ⟨n', hn'⟩

/-- A node is taken out of the order; it stays in its place. -/
theorem unlink_spec (h : m.Linked (l ++ i :: r)) :
    ∃ m', m.unlink i = some m' ∧ Relinked m m' ∧ m'.Linked (l ++ r) := by
  obtain ⟨n, hn⟩ := h.live i (by simp)
  have hrev : (l ++ i :: r).reverse = r.reverse ++ i :: l.reverse := by simp
  have hback := hrev ▸ h.back
  have hnext : link n.next = r.head? := (nextOf_eq hn).symm.trans h.forth.next_eq
  have hprev : link n.prev = l.getLast? := by
    rw [← prevOf_eq hn, hback.next_eq, head?_reverse]
  have hnodup := h.nodup
  have hnodup' : (r.reverse ++ i :: l.reverse).Nodup := by rwa [← hrev, nodup_reverse]
  -- the node before it
  obtain ⟨m₁, hm₁, hre₁, htail₁, hprevs₁, hforth₁⟩ : ∃ m₁,
      (if n.prev ≠ nil then m.setNext n.prev n.next else some { m with head := n.next }) = some m₁ ∧
        Relinked m m₁ ∧ m₁.tail = m.tail ∧ (∀ j, m₁.prevOf j = m.prevOf j) ∧
        Threaded m₁.nextOf (link m₁.head) (l ++ r) := by
    split
    · rename_i hne
      have hlast : l.getLast? = some n.prev := by rw [← hprev, link, if_neg hne]
      have hmem := mem_of_getLast? hlast
      obtain ⟨p, hp⟩ := h.live n.prev (mem_append_left _ hmem)
      obtain ⟨m₁, hm₁, hre, hhead, htail, hnexts, hprevs⟩ := setNext_spec hp n.next
      refine ⟨m₁, hm₁, hre, htail, hprevs, h.forth.remove hnodup ?_ (fun j hj => ?_) fun j _ hj => ?_⟩
      · rw [if_neg (ne_nil_of_mem hmem), hhead]
      · rw [hlast, some_inj] at hj
        rw [hnexts, if_pos hj, nextOf_eq hn]
      · rw [hnexts, if_neg fun heq : n.prev = j => hj (heq ▸ hlast)]
    · rename_i heq
      rw [not_not] at heq
      have hnil : l = [] := by rw [← getLast?_eq_none_iff, ← hprev, link_eq_none, heq]
      subst hnil
      exact ⟨_, rfl, ⟨⟨rfl, rfl, rfl, rfl, fun _ => rfl⟩, rfl⟩, rfl, fun _ => rfl, nextOf_eq hn ▸ h.forth.2⟩
  have hback₁ : Threaded m₁.prevOf (link m₁.tail) (r.reverse ++ i :: l.reverse) := by
    rw [htail₁]
    exact hback.congr fun j _ => hprevs₁ j
  have hprev₁ : m₁.prevOf i = link n.prev := by rw [hprevs₁, prevOf_eq hn]
  -- the node behind it
  obtain ⟨m₂, hm₂, hre₂, hforth₂, hback₂⟩ : ∃ m₂,
      (if n.next ≠ nil then m₁.setPrev n.next n.prev else some { m₁ with tail := n.prev }) =
          some m₂ ∧
        Relinked m₁ m₂ ∧ Threaded m₂.nextOf (link m₂.head) (l ++ r) ∧
        Threaded m₂.prevOf (link m₂.tail) (r.reverse ++ l.reverse) := by
    split
    · rename_i hne
      have hfirst : r.head? = some n.next := by rw [← hnext, link, if_neg hne]
      have hmem : n.next ∈ r := mem_of_head? hfirst
      obtain ⟨p, hp⟩ := hre₁.live h.live n.next (by simp [hmem])
      obtain ⟨m₂, hm₂, hre, hhead, htail, hprevs, hnexts⟩ := setPrev_spec hp n.prev
      refine ⟨m₂, hm₂, hre, ?_, hback₁.remove hnodup' ?_ (fun j hj => ?_) fun j _ hj => ?_⟩
      · rw [hhead]
        exact hforth₁.congr fun j _ => hnexts j
      · rw [if_neg (by simpa using ne_nil_of_mem hmem), htail]
      · rw [getLast?_reverse, hfirst, some_inj] at hj
        rw [hprevs, if_pos hj, hprev₁]
      · rw [getLast?_reverse] at hj
        rw [hprevs, if_neg fun heq : n.next = j => hj (heq ▸ hfirst)]
    · rename_i heq
      rw [not_not] at heq
      have hnil : r = [] := by rw [← head?_eq_none_iff, ← hnext, link_eq_none, heq]
      subst hnil
      refine ⟨_, rfl, ⟨⟨rfl, rfl, rfl, rfl, fun _ => rfl⟩, rfl⟩, hforth₁, ?_⟩
      have hrest := hback₁.2
      rw [hprev₁] at hrest
      exact hrest
  refine ⟨m₂, ?_, hre₁.trans hre₂, ?_, ?_, ?_, hforth₂, ?_⟩
  · rw [unlink, hn]
    change ((if n.prev ≠ nil then m.setNext n.prev n.next else some { m with head := n.next }).bind
      fun m => if n.next ≠ nil then m.setPrev n.next n.prev else some { m with tail := n.prev }) = _
    rw [hm₁, bind_some, hm₂]
  · exact hnodup.sublist (Sublist.append_left (sublist_cons_self i r) l)
  · refine (hre₁.trans hre₂).live fun j hj => h.live j ?_
    simp only [mem_append] at hj ⊢
    tauto
  · intro j hj
    refine h.below j ?_
    simp only [mem_append] at hj ⊢
    tauto
  · rw [reverse_append]
    exact hback₂

lemma pushFront_spec (h : m.Linked order) (hn : m.node i = some n) (hi : i ∉ order)
    (hne : i ≠ nil) : ∃ m', m.pushFront i = some m' ∧ Relinked m m' ∧ m'.Linked (i :: order) := by
  have hhead := h.forth.start_eq
  have htail := h.back.start_eq
  obtain ⟨m₁, hm₁, hre₁, hhead₁, htail₁, hprevs₁, hnexts₁⟩ := setPrev_spec hn nil
  obtain ⟨n₁, hn₁, -⟩ := hre₁.same.node_some hn
  obtain ⟨m₂, hm₂, hre₂, hhead₂, htail₂, hnexts₂, hprevs₂⟩ := setNext_spec hn₁ m.head
  have hre := hre₁.trans hre₂
  obtain ⟨m₃, hm₃, hre₃, htail₃, hnexts₃, hprevs₃⟩ : ∃ m₃,
      (if m.head ≠ nil then m₂.setPrev m.head i else some m₂) = some m₃ ∧ Relinked m₂ m₃ ∧
        m₃.tail = m.tail ∧ (∀ j, m₃.nextOf j = m₂.nextOf j) ∧
        ∀ j, m₃.prevOf j = if order.head? = some j then some i else m₂.prevOf j := by
    split
    · rename_i hsome
      have hfirst : order.head? = some m.head := by rw [← hhead, link, if_neg hsome]
      obtain ⟨p, hp⟩ := hre.live h.live m.head (mem_of_head? hfirst)
      obtain ⟨m₃, hm₃, hre₃, -, htail₃, hprevs₃, hnexts₃⟩ := setPrev_spec hp i
      refine ⟨m₃, hm₃, hre₃, by rw [htail₃, htail₂, htail₁], hnexts₃, fun j => ?_⟩
      rw [hprevs₃, link, if_neg hne]
      simp only [hfirst, some.injEq]
    · rename_i hnone
      rw [not_not] at hnone
      have hnil : order.head? = none := by rw [← hhead, link_eq_none, hnone]
      refine ⟨m₂, rfl, ⟨.refl _ _, rfl⟩, by rw [htail₂, htail₁], fun _ => rfl, fun j => ?_⟩
      rw [hnil, if_neg nofun]
  have hnext (j : ℕ) : m₃.nextOf j = if i = j then link m.head else m.nextOf j := by
    rw [hnexts₃, hnexts₂]
    split
    · rfl
    · exact hnexts₁ j
  have hprev (j : ℕ) : m₃.prevOf j = if order.head? = some j then some i else
      if i = j then none else m.prevOf j := by
    rw [hprevs₃, hprevs₂, hprevs₁]
    rfl
  refine ⟨if m₃.tail = nil then { m₃ with head := i, tail := i } else { m₃ with head := i }, ?_, ?_,
    ?_⟩
  · rw [pushFront, hm₁]
    change (((m₁.setNext i m.head).bind fun m₂ => (if m.head ≠ nil then m₂.setPrev m.head i
      else some m₂).bind fun m₃ => some (if m₃.tail = nil then { m₃ with head := i, tail := i }
        else { m₃ with head := i }))) = _
    rw [hm₂, bind_some, hm₃, bind_some]
  · split <;> exact hre.trans ⟨⟨hre₃.same.cap, hre₃.same.len, hre₃.same.free, hre₃.same.slots,
      hre₃.same.node⟩, hre₃.map⟩
  have hnil : m₃.tail = nil ↔ order = [] := by
    rw [htail₃, ← link_eq_none, htail, head?_eq_none_iff, reverse_eq_nil_iff]
  have hforth : Threaded m₃.nextOf (some i) (i :: order) :=
    h.forth.push hi (by rw [hnext, if_pos rfl]) fun j hj => by rw [hnext, if_neg (Ne.symm hj)]
  have hlink : link i = some i := by rw [link, if_neg hne]
  have hnodup : (i :: order).Nodup := nodup_cons.mpr ⟨hi, h.nodup⟩
  have hback : Threaded m₃.prevOf (if order = [] then some i else link m.tail)
      (order.reverse ++ [i]) := by
    refine h.back.concat ?_ ?_ (fun j hj => ?_) ?_ fun j hj hlast => ?_
    · rwa [← reverse_cons, nodup_reverse]
    · simp only [reverse_eq_nil_iff]
    · rw [getLast?_reverse] at hj
      rw [hprev, if_pos hj]
    · rw [hprev, if_neg fun heq => hi (mem_of_head? heq), if_pos rfl]
    · rw [getLast?_reverse] at hlast
      rw [hprev, if_neg hlast, if_neg fun heq : i = j => hi (heq ▸ mem_reverse.mp hj)]
  have hlive : ∀ j ∈ i :: order, ∃ n, m₃.node j = some n := by
    refine (hre.trans hre₃).live ?_
    rw [forall_mem_cons]
    exact ⟨⟨n, hn⟩, h.live⟩
  have hbelow : ∀ j ∈ i :: order, j ≠ nil := by
    rw [forall_mem_cons]
    exact ⟨hne, h.below⟩
  split
  · rename_i hempty
    rw [if_pos (hnil.mp hempty)] at hback
    refine ⟨hnodup, hlive, hbelow, hlink ▸ hforth, ?_⟩
    rw [reverse_cons]
    exact hlink ▸ hback
  rename_i hsome
  rw [if_neg (fun heq => hsome (hnil.mpr heq))] at hback
  refine ⟨hnodup, hlive, hbelow, hlink ▸ hforth, ?_⟩
  rw [reverse_cons]
  exact htail₃ ▸ hback

lemma moveFront_spec (h : m.Linked (l ++ i :: r)) :
    ∃ m', m.moveFront i = some m' ∧ Relinked m m' ∧ m'.Linked (i :: (l ++ r)) := by
  rw [moveFront]
  split
  · rename_i hhead
    refine ⟨m, rfl, ⟨.refl _ _, rfl⟩, ?_⟩
    cases l with
    | nil => exact h
    | cons a l =>
      -- the head of the order is not further back in it
      have hstart : link m.head = some a := h.forth.1
      obtain ⟨rfl, -⟩ := link_eq_some.mp hstart
      have hnodup := h.nodup
      rw [hhead, cons_append, nodup_cons] at hnodup
      exact absurd (mem_append_right _ mem_cons_self) hnodup.1
  · obtain ⟨m₁, hm₁, hre₁, hlinked₁⟩ := unlink_spec h
    obtain ⟨n, hn⟩ := hre₁.live h.live i (by simp)
    have hi : i ∉ l ++ r := by
      have hnodup := nodup_middle.mp h.nodup
      exact (nodup_cons.mp hnodup).1
    obtain ⟨m₂, hm₂, hre₂, hlinked₂⟩ := pushFront_spec hlinked₁ hn hi (h.below i (by simp))
    exact ⟨m₂, by rw [hm₁]; exact hm₂, hre₁.trans hre₂, hlinked₂⟩

end LruMap

end OnetDns.Core
