import Mathlib.Data.List.Perm.Subperm
import OnetDns.Core.LruLinks

/-!
# The chains of one digest

The nodes of a digest are on a chain of their own, which starts in the index. With the order of
use, this is what holds between two operations.
-/
namespace OnetDns.Core.LruMap
open List Option

variable {K V : Type} {digest : K → UInt32} {m m' : LruMap K V} {i j : ℕ}
  {n : Node K V} {order l r chain : List ℕ} {gone : Option ℕ} {key : K}

/-- The nodes of a digest are on its chain, but for one that was taken out. -/
def Chained (digest : K → UInt32) (gone : Option ℕ) (m : LruMap K V) : Prop :=
  ∀ hash, ∃ chain, Threaded m.hashNextOf (m.map.lookup hash) chain ∧ chain.Nodup ∧
    ∀ i, i ∈ chain ↔ gone ≠ some i ∧ ∃ n, m.node i = some n ∧ digest n.key = hash

lemma Relinked.chained (h : Relinked m m') (hm : m.Chained digest gone) :
    m'.Chained digest gone := by
  intro hash
  obtain ⟨chain, hchain, hnodup, hmem⟩ := hm hash
  have hlinks (i : ℕ) : m'.hashNextOf i = m.hashNextOf i := h.same.bind fun view => link view.2.2
  refine ⟨chain, h.map ▸ hchain.congr fun i _ => hlinks i, hnodup, fun i => ?_⟩
  rw [hmem, h.same.hasDigest (fun _ _ => content_key)]

/-- What holds between two operations. -/
structure Ok (digest : K → UInt32) (m : LruMap K V) (order : List ℕ) : Prop where
  slab : m.nodes.Ok none
  linked : m.Linked order
  mem_order : ∀ i n, m.node i = some n → i ∈ order
  chained : m.Chained digest none
  distinct : ∀ i j n n', m.node i = some n → m.node j = some n' → n.key = n'.key → i = j
  len : m.len = order.length
  full : order.length ≤ m.cap
  slots : m.nodes.slots.length ≤ m.cap
  pos : 0 < m.cap
  lt : m.cap < nil

lemma Ok.ne_nil (h : Ok digest m order) (hn : m.node i = some n) : i ≠ nil := by
  have hlt := node_lt hn
  have hslots := h.slots
  have hcap := h.lt
  omega

lemma Ok.slots_le (h : Ok digest m order) (hfree : m.nodes.free = []) :
    m.nodes.slots.length ≤ order.length := by
  have hsub : range m.nodes.slots.length ⊆ order := by
    intro j hj
    rw [mem_range] at hj
    cases hnode : m.node j with
    | none =>
      have hmem := (h.slab.mem_free j).mpr ⟨hj, hnode, nofun⟩
      rw [hfree] at hmem
      cases hmem
    | some n => exact h.mem_order j n hnode
  have hle := (subperm_of_subset nodup_range hsub).length_le
  rwa [length_range] at hle

lemma next_le (h : Ok digest m order) : m.nodes.next ≤ m.nodes.slots.length := by
  cases hfree : m.nodes.free with
  | nil => rw [Slab.next, hfree, headD_nil]
  | cons i free =>
    rw [Slab.next, hfree]
    exact ((h.slab.mem_free i).mp (by rw [hfree]; exact mem_cons_self)).1.le

lemma Ok.relink (h : Ok digest m order) (hre : Relinked m m') {order' : List ℕ}
    (hlinked : m'.Linked order') (hperm : order'.Perm order) : Ok digest m' order' where
  slab := hre.same.slab h.slab
  linked := hlinked
  mem_order i n' hn' := by
    obtain ⟨n, hn, -⟩ := hre.same.node_inv hn'
    exact hperm.mem_iff.mpr (h.mem_order i n hn)
  chained := hre.chained h.chained
  distinct i j n n' hn hn' hkey := by
    obtain ⟨o, ho, hcontent⟩ := hre.same.node_inv hn
    obtain ⟨o', ho', hcontent'⟩ := hre.same.node_inv hn'
    refine h.distinct i j o o' ho ho' ?_
    rw [← content_key hcontent, ← content_key hcontent']
    exact hkey
  len := by rw [hre.same.len, h.len, hperm.length_eq]
  full := by rw [hre.same.cap, hperm.length_eq]; exact h.full
  slots := by rw [hre.same.cap, hre.same.slots]; exact h.slots
  pos := by rw [hre.same.cap]; exact h.pos
  lt := by rw [hre.same.cap]; exact h.lt

/-- The loop finds the node before another one. -/
theorem cutFrom_spec (hashNext : ℕ) {fuel previous : ℕ}
    (hchain : Threaded m.hashNextOf (some previous) (l ++ j :: i :: r))
    (hnodup : (l ++ j :: i :: r).Nodup) (hlive : ∀ k ∈ l ++ j :: i :: r, ∃ n, m.node k = some n)
    (hfuel : l.length < fuel) :
    m.cutFrom i hashNext fuel previous = m.modify j ({ · with hashNext }) := by
  induction l generalizing fuel previous with
  | nil =>
    obtain ⟨fuel, rfl⟩ := Nat.exists_eq_add_one_of_ne_zero (ne_of_gt hfuel)
    cases hchain.1
    obtain ⟨n, hn⟩ := hlive j (by simp)
    have hnext := Threaded.next_eq (l := []) hchain
    rw [hashNextOf_eq hn, head?_cons, link_eq_some] at hnext
    rw [cutFrom, hn]
    simp only [bind_eq_bind, bind_some]
    rw [if_neg (hnext.1 ▸ hnext.2), if_pos hnext.1]
  | cons a l ih =>
    obtain ⟨fuel, rfl⟩ := Nat.exists_eq_add_one_of_ne_zero (ne_zero_of_lt hfuel)
    cases hchain.1
    obtain ⟨n, hn⟩ := hlive a (by simp)
    have hrest : Threaded m.hashNextOf (m.hashNextOf a) (l ++ j :: i :: r) := hchain.2
    have hstart := hrest.start_eq
    rw [hashNextOf_eq hn] at hstart hrest
    obtain ⟨b, t, hsplit⟩ : ∃ b t, l ++ j :: i :: r = b :: t := exists_cons_of_ne_nil (by simp)
    rw [hsplit, head?_cons, link_eq_some] at hstart
    obtain ⟨rfl, hne⟩ := hstart
    rw [cons_append, nodup_cons] at hnodup
    have hother : n.hashNext ≠ i := by
      rintro rfl
      have htwice := hnodup.2
      cases l with
      | nil =>
        obtain ⟨rfl, -⟩ := cons_eq_cons.mp hsplit
        simp at htwice
      | cons c l =>
        obtain ⟨rfl, -⟩ := cons_eq_cons.mp hsplit
        simp at htwice
    have hlink : link n.hashNext = some n.hashNext := if_neg hne
    rw [cutFrom, hn]
    simp only [bind_eq_bind, bind_some]
    rw [if_neg hne, if_neg hother]
    refine ih (hlink ▸ hrest) hnodup.2 (fun k hk => hlive k (mem_cons_of_mem _ hk)) ?_
    exact Nat.lt_of_succ_lt_succ hfuel

lemma unchain_spec (h : Ok digest m order) (hn : m.node i = some n) :
    ∃ m', m.unchain i (digest n.key) = some m' ∧ Same apart m m' ∧ m'.head = m.head ∧
      m'.tail = m.tail ∧ m'.Chained digest (some i) := by
  obtain ⟨chain, hchain, hnodup, hmem⟩ := h.chained (digest n.key)
  obtain ⟨l, r, rfl⟩ := append_of_mem ((hmem i).mpr ⟨nofun, n, hn, rfl⟩)
  have hlive : ∀ k ∈ l ++ i :: r, ∃ n, m.node k = some n := by
    intro k hk
    obtain ⟨-, n, hn, -⟩ := (hmem k).mp hk
    exact ⟨n, hn⟩
  have hmem' (k : ℕ) : k ∈ l ++ r ↔
      some i ≠ some k ∧ ∃ n', m.node k = some n' ∧ digest n'.key = digest n.key := by
    have hi : i ∉ l ++ r := (nodup_cons.mp (nodup_middle.mp hnodup)).1
    have hk := hmem k
    simp only [mem_append, mem_cons] at hk hi ⊢
    rw [ne_eq, some_inj]
    constructor
    · intro hor
      refine ⟨fun heq => hi (heq ▸ hor), (hk.mp (by tauto)).2⟩
    rintro ⟨hne, hex⟩
    rcases hk.mpr ⟨nofun, hex⟩ with hin | rfl | hin
    · exact .inl hin
    · exact absurd rfl hne
    · exact .inr hin
  have hnodup' : (l ++ r).Nodup := hnodup.sublist (Sublist.append_left (sublist_cons_self i r) l)
  have hnext : link n.hashNext = m.hashNextOf i := (hashNextOf_eq hn).symm
  -- another digest does not have the node
  have hothers : ∀ hash, hash ≠ digest n.key → ∃ chain, Threaded m.hashNextOf (m.map.lookup hash) chain ∧
      chain.Nodup ∧ ∀ k, k ∈ chain ↔
        some i ≠ some k ∧ ∃ n', m.node k = some n' ∧ digest n'.key = hash := by
    intro hash hne
    obtain ⟨chain, hchain, hnodup, hmem⟩ := h.chained hash
    refine ⟨chain, hchain, hnodup, fun k => (hmem k).trans ⟨?_, fun hex => ⟨nofun, hex.2⟩⟩⟩
    rintro ⟨-, n', hn', hhash⟩
    refine ⟨fun heq => hne ?_, n', hn', hhash⟩
    cases heq
    rw [hn] at hn'
    cases hn'
    exact hhash.symm
  rw [unchain, hn]
  rcases eq_nil_or_concat' l with rfl | ⟨l, j, rfl⟩
  · -- it is the first of its chain
    have hhead : m.map.lookup (digest n.key) = some i := hchain.1
    simp only [hhead, bind_eq_bind, bind_some]
    refine ⟨_, rfl, ⟨rfl, rfl, rfl, rfl, fun _ => rfl⟩, rfl, rfl, fun hash => ?_⟩
    · have hlookup : (if n.hashNext = nil then m.map.erase (digest n.key)
          else m.map.insert (digest n.key) n.hashNext).lookup hash =
          if hash = digest n.key then link n.hashNext else m.map.lookup hash := by
        rw [link]
        split <;> split
        · rename_i heq
          rw [heq, AList.lookup_erase]
        · rename_i hne
          exact AList.lookup_erase_ne hne
        · rename_i heq
          rw [heq, AList.lookup_insert]
        · rename_i hne
          exact AList.lookup_insert_ne hne
      change ∃ chain, Threaded m.hashNextOf ((if n.hashNext = nil then m.map.erase (digest n.key)
        else m.map.insert (digest n.key) n.hashNext).lookup hash) chain ∧ _
      rw [hlookup]
      split
      · rename_i heq
        subst heq
        exact ⟨r, hnext ▸ hchain.2, hnodup', hmem'⟩
      · rename_i hne
        exact hothers hash hne
  -- the node before it gets its link
  have hassoc : l ++ [j] ++ i :: r = l ++ j :: i :: r := by simp
  obtain ⟨first, hfirst⟩ : ∃ first, m.map.lookup (digest n.key) = some first := by
    rw [hchain.start_eq]
    cases l <;> exact ⟨_, rfl⟩
  have hne : first ≠ i := by
    have hhead := hchain.start_eq
    rw [hfirst] at hhead
    rintro rfl
    have hin : first ∈ l ++ [j] := by
      cases l with
      | nil => simpa using hhead
      | cons a l => simp [some_inj.mp hhead]
    exact (nodup_cons.mp (nodup_middle.mp hnodup)).1 (mem_append_left _ hin)
  obtain ⟨p, hp⟩ := hlive j (by simp)
  obtain ⟨m', hm', hsame, hmap, hhead, htail, hnode⟩ :=
    modify_spec ({ · with hashNext := n.hashNext }) apart hp fun _ => rfl
  have hfuel : l.length < m.nodes.slots.length + 1 := by
    have hle := length_le_slots hnodup hlive
    simp only [length_append] at hle
    omega
  have hcut := cutFrom_spec n.hashNext
    (hfirst ▸ hassoc ▸ hchain) (hassoc ▸ hnodup) (hassoc ▸ hlive) hfuel
  have hlinks (k : ℕ) : m'.hashNextOf k = if j = k then link n.hashNext else m.hashNextOf k := by
    rw [hashNextOf, hnode]
    split <;> rfl
  simp only [hfirst, bind_eq_bind, bind_some, if_neg hne]
  refine ⟨m', hcut.trans hm', hsame, hhead, htail, fun hash => ?_⟩
  simp only [hsame.hasDigest (fun _ _ => apart_key)]
  rw [hmap]
  by_cases heq : hash = digest n.key
  · subst heq
    refine ⟨l ++ [j] ++ r, hchain.remove hnodup ?_ (fun k hk => ?_) fun k _ hk => ?_, hnodup', hmem'⟩
    · rw [if_neg (by simp)]
    · rw [getLast?_concat, some_inj] at hk
      rw [hlinks, if_pos hk, hnext]
    · rw [getLast?_concat] at hk
      rw [hlinks, if_neg fun hjk : j = k => hk (hjk ▸ rfl)]
  obtain ⟨chain, hchain', hnodup', hmem'⟩ := hothers hash heq
  refine ⟨chain, hchain'.congr fun k hk => ?_, hnodup', hmem'⟩
  rw [hlinks, if_neg]
  rintro rfl
  obtain ⟨-, n', hn', hhash⟩ := (hmem' j).mp hk
  obtain ⟨-, n'', hn'', hhash''⟩ := (hmem j).mp (by simp)
  rw [hn'] at hn''
  cases hn''
  exact heq (hhash.symm.trans hhash'')

end OnetDns.Core.LruMap
