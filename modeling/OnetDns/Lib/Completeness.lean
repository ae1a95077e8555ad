import OnetDns.Lib.Consensus

/-!
# What was chosen stays

When every vote goes to an up-to-date candidate, an entry of term `t` that a
majority has acknowledged in term `t` is in the log of every later winner. So
two lists that were committed at any two moments never disagree.
-/
namespace OnetDns.Consensus
open TermLog Quorum List Finset Function State

variable {ν ε : Type*}

/-- Every winner after `t` and up to `u` started with the first `i` entries of term log `t`. -/
def Carries (s : State ν ε) (t i u : ℕ) : Prop :=
  ∀ t' w, t < t' → t' ≤ u → s.election t' = some w → w.base.take i = (s.termLog t).take i

variable {s : State ν ε} {t i : ℕ}

lemma Carries.mono {u u' : ℕ} (h : Carries s t i u) (hu : u' ≤ u) : Carries s t i u' :=
  fun t' w ht ht' hw => h t' w ht (ht'.trans hu) hw

variable {s' : State ν ε}

/-- Fewer elections carry more. -/
theorem Carries.of_le {u : ℕ} (h : Carries s' t i u) (hle : Le s s')
    (hi : i ≤ (s.termLog t).length) : Carries s t i u := by
  intro t' w ht ht' hw
  rw [h t' w ht ht' (hle.election t' w hw), prefix_take_eq (hle.termLog t) hi]

variable [Stamped ε]

/-- What an acknowledgement is worth: the entries stay, in memory, on disk and
in the log behind every later vote that counts. -/
structure Held (s : State ν ε) : Prop where
  acked_le : ∀ t v, s.acked t v ≤ (s.termLog t).length
  acked_disk : ∀ t v, 0 < s.acked t v → t ≤ (s.disk v).term
  mem : ∀ t v i, i ≤ s.acked t v → Carries s t i (s.mem v).term →
    (s.mem v).log.take i = (s.termLog t).take i
  disk : ∀ t v i, i ≤ s.acked t v → Carries s t i (s.disk v).term →
    (s.disk v).log.take i = (s.termLog t).take i
  ballot : ∀ u v c ℓ, s.ballot u v = some (c, ℓ) → (∀ w, s.election u = some w → v ∈ w.electors) →
    ∀ t i, t < u → i ≤ s.acked t v → Carries s t i (u - 1) → ℓ.take i = (s.termLog t).take i
  up_to_date : ∀ u v c ℓ, s.ballot u v = some (c, ℓ) → ∃ b, s.bid u c = some b ∧ UpToDate b ℓ

variable {M : Finset ν}

/-- The log of the term a node is in agrees with everything the node holds. -/
theorem Held.agree (hh : Held s) (hi : Inv M s) {v : ν} (ha : i ≤ s.acked t v)
    (hc : Carries s t i (s.mem v).term) (hne : s.termLog (s.mem v).term ≠ []) :
    (s.mem v).log.take i = (s.termLog (s.mem v).term).take i := by
  rcases eq_zero_or_pos i with rfl | hpos
  · simp
  have hlen := ha.trans (hh.acked_le t v)
  have ht : t ≤ (s.mem v).term := (hh.acked_disk t v (by omega)).trans (hi.disk_le v)
  rw [hh.mem t v i ha hc]
  rcases ht.eq_or_lt with rfl | hlt
  · rfl
  cases hw : s.election (s.mem v).term with
  | none => exact absurd (hi.unelected _ hw) hne
  | some w =>
    have hbase := hc _ w hlt le_rfl hw
    have hlen' : i ≤ w.base.length := by
      have := congrArg length hbase
      simp only [length_take] at this
      omega
    rw [← hbase, prefix_take_eq (hi.base _ w hw).2 hlen']

variable {ℓ : List ε}

section Steps

variable [DecidableEq ν] {s : State ν ε}

/-- A node may change its log as long as it keeps what agrees with the log of its term. -/
theorem Held.setLog {M : Finset ν} (hh : Held s) (hi : Inv M s) (v : ν)
    (hsame : s.termLog (s.mem v).term = [] → ℓ = (s.mem v).log)
    (hkeep : ∀ i, (s.mem v).log.take i = (s.termLog (s.mem v).term).take i → ℓ.take i =
      (s.termLog (s.mem v).term).take i) : Held (s.setMem v { s.mem v with log := ℓ }) := by
  refine { hh with mem := ?_ }
  intro t u i ha hc
  by_cases hu : u = v
  · subst hu
    simp only [setMem, update_self] at hc ⊢
    by_cases hne : s.termLog (s.mem u).term = []
    · rw [hsame hne]; exact hh.mem t u i ha hc
    · have hagree := hh.agree hi ha hc hne
      rw [hkeep i hagree, ← hagree, hh.mem t u i ha hc]
  · simp only [setMem, update_of_ne hu] at hc ⊢
    exact hh.mem t u i ha hc

/-- A winner's write keeps what everybody holds. -/
theorem Held.write (hh : Held s) (v : ν) {es : List ε} {w : Election ν ε}
    (hle : Le s ((s.setElection (s.mem v).term w).write (s.mem v).term v ((s.mem v).log ++ es))) :
    Held ((s.setElection (s.mem v).term w).write (s.mem v).term v ((s.mem v).log ++ es)) := by
  set s' := (s.setElection (s.mem v).term w).write (s.mem v).term v ((s.mem v).log ++ es) with hs'
  have hlen : ∀ t u i, i ≤ s.acked t u → i ≤ (s.termLog t).length :=
    fun t u i ha => ha.trans (hh.acked_le t u)
  have htake : ∀ t u i, i ≤ s.acked t u → (s'.termLog t).take i = (s.termLog t).take i :=
    fun t u i ha => prefix_take_eq (hle.termLog t) (hlen t u i ha)
  constructor
  · exact fun t u => (hh.acked_le t u).trans (hle.termLog t).length_le
  · exact hh.acked_disk
  · intro t u i ha hc
    rw [htake t u i ha]
    have hterm : (s'.mem u).term = (s.mem u).term := by
      by_cases hu : u = v
      · subst hu; simp [hs', State.setElection]
      · simp [hs', State.write, State.setElection, update_of_ne hu]
    have hold := hh.mem t u i ha ((hterm ▸ hc).of_le hle (hlen t u i ha))
    by_cases hu : u = v
    · subst hu
      have hlog : (s'.mem u).log = (s.mem u).log ++ es := by
        simp [hs']
      have hl : i ≤ (s.mem u).log.length := by
        have := congrArg length hold
        have := hlen t u i ha
        simp only [length_take] at *
        omega
      rw [hlog, take_append_of_le_length hl, hold]
    · have hmem : s'.mem u = s.mem u := by
        simp [hs', State.write, State.setElection, update_of_ne hu]
      rw [hmem, hold]
  · intro t u i ha hc
    rw [htake t u i ha]
    exact hh.disk t u i ha (hc.of_le hle (hlen t u i ha))
  · intro u x c ℓ hb hw t i ht ha hc
    rw [htake t x i ha]
    refine hh.ballot u x c ℓ hb ?_ t i ht ha (hc.of_le hle (hlen t x i ha))
    intro w' hw'
    exact hw w' (hle.election u w' hw')
  · exact hh.up_to_date

lemma Step.held [DecidableEq ε] {M : Finset ν} {strict : Prop} (hs : strict) {v : ν} {s' : State ν ε}
    (hi : Inv M s) (hh : Held s) (h : Step M strict v s s') : Held s' := by
  have hle := le hi h
  cases h with
  | raise t ht =>
    refine { hh with mem := ?_ }
    intro u x i ha hc
    by_cases hx : x = v
    · subst hx
      simp only [setMem, update_self] at hc ⊢
      exact hh.mem u x i ha (.mono hc ht.le)
    · simp only [setMem, update_of_ne hx] at hc ⊢
      exact hh.mem u x i ha hc
  | choose c =>
    refine { hh with mem := ?_ }
    intro u x i ha hc
    by_cases hx : x = v
    · subst hx
      simp only [setMem, update_self] at hc ⊢
      exact hh.mem u x i ha hc
    · simp only [setMem, update_of_ne hx] at hc ⊢
      exact hh.mem u x i ha hc
  | save =>
    refine { hh with acked_disk := ?_, disk := ?_ }
    · intro t x ha
      by_cases hx : x = v
      · subst hx
        simpa [setDisk] using (hh.acked_disk t x ha).trans (hi.disk_le x)
      · simpa [setDisk, update_of_ne hx] using hh.acked_disk t x ha
    intro u x i ha hc
    by_cases hx : x = v
    · subst hx
      simp only [setDisk, update_self] at hc ⊢
      exact hh.mem u x i ha hc
    · simp only [setDisk, update_of_ne hx] at hc ⊢
      exact hh.disk u x i ha hc
  | load =>
    refine { hh with mem := ?_ }
    intro u x i ha hc
    by_cases hx : x = v
    · subst hx
      simp only [setMem, update_self] at hc ⊢
      exact hh.disk u x i ha hc
    · simp only [setMem, update_of_ne hx] at hc ⊢
      exact hh.mem u x i ha hc
  | stand hd hb hlt =>
    refine { hh with up_to_date := ?_ }
    intro u x c ℓ hbal
    obtain ⟨b, hb', hup⟩ := hh.up_to_date u x c ℓ hbal
    exact ⟨b, hle.bid u c b hb', hup⟩
  | grant c hb hd hdv hv hup =>
    refine { hh with ballot := ?_, up_to_date := ?_ }
    · intro u x d ℓ hbal hel t i ht ha hc
      simp only [setBallot] at hbal
      split at hbal
      · -- a vote after the term was won is not among the winner's
        rename_i he
        obtain ⟨rfl, rfl⟩ := he
        obtain ⟨rfl, rfl⟩ := Prod.mk.inj (Option.some.inj hbal)
        have hnone : s.election (s.mem x).term = none := by
          rcases hw : s.election (s.mem x).term with _ | w
          · rfl
          · obtain ⟨ℓ, hℓ⟩ := hi.elected _ w hw x (hel w hw)
            rw [hb] at hℓ
            cases hℓ
        refine hh.mem t x i ha ?_
        intro t' w ht1 ht2 hw
        rcases ht2.eq_or_lt with rfl | hlt
        · rw [hnone] at hw; cases hw
        · exact hc t' w ht1 (by omega) hw
      · exact hh.ballot u x d ℓ hbal hel t i ht ha hc
    · intro u x d ℓ hbal
      simp only [setBallot] at hbal
      split at hbal
      · rename_i he
        obtain ⟨rfl, rfl⟩ := he
        obtain ⟨rfl, rfl⟩ := Prod.mk.inj (Option.some.inj hbal)
        exact hup hs
      · exact hh.up_to_date u x d ℓ hbal
  | elect q es hq hv hb hn hes =>
    exact hh.write v hle
  | extend es w hw hl hlog hes =>
    have hset : s.setElection (s.mem v).term w = s := by
      simp only [setElection, ← hw, update_eq_self]
    have hheld : Held ((s.setElection (s.mem v).term w).write (s.mem v).term v
        ((s.mem v).log ++ es)) := hh.write v (by rwa [hset])
    rwa [hset] at hheld
  | accept p es hp hes =>
    refine hh.setLog hi v ?_ (fun i => splice_take_of_agree hp hes)
    intro hnil
    rw [hnil, drop_nil, prefix_nil] at hes
    simp [hes, splice]
  | install k hk =>
    refine hh.setLog hi v ?_ (fun i => adopt_take_of_agree k)
    intro hnil
    rw [hnil, length_nil, Nat.le_zero] at hk
    simp [hk, adopt]
  | ack j hd hj hm hdl =>
    have hkey : ∀ t x i, i ≤ (s.setAcked (s.mem v).term v j).acked t x →
        i ≤ s.acked t x ∨ (t = (s.mem v).term ∧ x = v ∧ i ≤ j) := by
      intro t x i ha
      simp only [setAcked] at ha
      split at ha
      · rename_i he
        rcases le_max_iff.mp ha with h | h
        · exact .inl h
        · exact .inr ⟨he.1, he.2, h⟩
      · exact .inl ha
    constructor
    · intro t x
      rcases hkey t x _ le_rfl with h | ⟨rfl, rfl, h⟩
      · exact h.trans (hh.acked_le t x)
      · exact h.trans hj
    · intro t x ha
      rcases hkey t x _ le_rfl with h | ⟨rfl, rfl, h⟩
      · exact hh.acked_disk t x (ha.trans_le h)
      · exact hd.ge
    · intro t x i ha hc
      rcases hkey t x i ha with h | ⟨rfl, rfl, h⟩
      · exact hh.mem t x i h hc
      · exact take_eq_mono hm h
    · intro t x i ha hc
      rcases hkey t x i ha with h | ⟨rfl, rfl, h⟩
      · exact hh.disk t x i h hc
      · exact take_eq_mono hdl h
    · intro u x c ℓ hb hel t i ht ha hc
      rcases hkey t x i ha with h | ⟨rfl, rfl, h⟩
      · exact hh.ballot u x c ℓ hb hel t i ht h hc
      · -- no vote of a later term precedes an acknowledgement
        rcases hi.ballot_disk u x c ℓ hb with h' | h' <;> omega
    · exact hh.up_to_date
  | retire t w hw hl => exact { hh with }

end Steps

/-- A majority acknowledged the first `i` entries of term log `t`, and the last
of them is of that term. -/
structure Chosen (M : Finset ν) (s : State ν ε) (t i : ℕ) : Prop where
  pos : 0 < i
  own : ∃ e, (s.termLog t)[i - 1]? = some e ∧ stamp e = t
  majority : ∃ q, Majority M q ∧ ∀ u ∈ q, i ≤ s.acked t u

lemma Chosen.le_length (h : Chosen M s t i) : i ≤ (s.termLog t).length := by
  obtain ⟨e, he, _⟩ := h.own
  have := (List.getElem?_eq_some_iff.mp he).1
  omega

lemma Chosen.mono (h : Chosen M s t i) (hle : Le s s') : Chosen M s' t i := by
  refine ⟨h.pos, ?_, ?_⟩
  · obtain ⟨e, he, hs⟩ := h.own
    have hlt := (List.getElem?_eq_some_iff.mp he).1
    obtain ⟨c, hc⟩ := hle.termLog t
    exact ⟨e, by rw [← hc, getElem?_append_left hlt, he], hs⟩
  · obtain ⟨q, hq, ha⟩ := h.majority
    exact ⟨q, hq, fun u hu => (ha u hu).trans (hle.acked t u)⟩

/-- Leader completeness: every later winner starts with what was chosen. -/
theorem Chosen.carries [DecidableEq ν] (hi : Inv M s) (hh : Held s)
    (h : Chosen M s t i) (t' : ℕ) {w : Election ν ε} (ht : t < t') (hw : s.election t' = some w) :
    w.base.take i = (s.termLog t).take i := by
  induction t' using Nat.strong_induction_on generalizing w with
  | _ t' ih =>
    obtain ⟨e, he, hse⟩ := h.own
    obtain ⟨q, hq, hacked⟩ := h.majority
    -- somebody who acknowledged the entries also voted for the winner
    obtain ⟨u, hu, huq⟩ := (hi.majority t' w hw).inter hq
    obtain ⟨ℓ, hℓ⟩ := hi.elected t' w hw u hu
    have hcarry : Carries s t i (t' - 1) := fun x w' hx hx' hw' => ih x (by omega) hx hw'
    have hvoter : ℓ.take i = (s.termLog t).take i := by
      refine hh.ballot t' u w.leader ℓ hℓ ?_ t i ht (hacked u huq) hcarry
      intro w' hw'
      rw [hw] at hw'
      exact Option.some.inj hw' ▸ hu
    obtain ⟨b, hb, hup⟩ := hh.up_to_date t' u w.leader ℓ hℓ
    obtain ⟨hbase, _⟩ := hi.base t' w hw
    have hbw : b = w.base := Option.some.inj (hb.symm.trans hbase)
    subst hbw
    refine UpToDate.carries hi.bounded h.pos he hse (hi.bid_canon _ _ _ hbase)
      (hi.ballot_canon _ _ _ _ hℓ) hup hvoter ?_
    -- the winner's last entry comes from a term in between
    intro hlast
    have hne : w.base ≠ [] := by
      intro hnil
      simp [hnil, lastStamp] at hlast
    obtain ⟨f, hf, hfs⟩ := getLast?_of_lastStamp hne
    have hlt : lastStamp w.base < t' := hfs ▸ hi.bid_stamp _ _ _ hbase f (mem_of_getElem? hf)
    have htl : s.termLog (lastStamp w.base) ≠ [] := by
      intro hnil
      have := (hi.bid_canon _ _ _ hbase).eq_take hne
      rw [hnil, take_nil] at this
      exact hne this
    cases hw' : s.election (lastStamp w.base) with
    | none => exact absurd (hi.unelected _ hw') htl
    | some w' =>
      have hIH := ih _ hlt hlast hw'
      have hlen : i ≤ w'.base.length := by
        have := congrArg length hIH
        have := h.le_length
        simp only [length_take] at *
        omega
      rw [prefix_take_eq (hi.base _ w' hw').2 hlen, hIH]

/-- The start of some chosen prefix. -/
def Committed (M : Finset ν) (s : State ν ε) (ℓ : List ε) : Prop :=
  ℓ = [] ∨ ∃ t i, Chosen M s t i ∧ ℓ.length ≤ i ∧ ℓ = (s.termLog t).take ℓ.length

lemma Committed.mono (h : Committed M s ℓ) (hle : Le s s') : Committed M s' ℓ := by
  rcases h with h | ⟨t, i, hc, hl, he⟩
  · exact .inl h
  · refine .inr ⟨t, i, hc.mono hle, hl, ?_⟩
    rw [prefix_take_eq (hle.termLog t) (hl.trans hc.le_length), ← he]

lemma Committed.take (h : Committed M s ℓ) (n : ℕ) : Committed M s (ℓ.take n) := by
  rcases h with rfl | ⟨t, i, hc, hl, he⟩
  · exact .inl (by simp)
  · refine .inr ⟨t, i, hc, (length_take_le' _ _).trans hl, ?_⟩
    conv_lhs => rw [he]
    rw [take_take, length_take]

variable {a : List ε}

/-- Two committed lists are starts of one list. -/
theorem Committed.common [DecidableEq ν] (hi : Inv M s) (hh : Held s)
    {b : List ε} (ha : Committed M s a) (hb : Committed M s b) :
    ∃ x : List ε, a <+: x ∧ b <+: x := by
  rcases ha with rfl | ⟨t, i, hc, hl, he⟩
  · exact ⟨b, nil_prefix, prefix_rfl⟩
  rcases hb with rfl | ⟨t', i', hc', hl', he'⟩
  · exact ⟨a, prefix_rfl, nil_prefix⟩
  have key : ∀ {t i t' i' : ℕ}, Chosen M s t i → Chosen M s t' i' → t ≤ t' →
      (s.termLog t').take i = (s.termLog t).take i := by
    intro t i t' i' hc hc' htt
    rcases htt.eq_or_lt with rfl | hlt
    · rfl
    cases hw : s.election t' with
    | none =>
      have := hc'.le_length
      rw [hi.unelected _ hw, length_nil] at this
      have := hc'.pos
      omega
    | some w =>
      have hbase := hc.carries hi hh t' hlt hw
      have hlen : i ≤ w.base.length := by
        have := congrArg length hbase
        have := hc.le_length
        simp only [length_take] at *
        omega
      rw [prefix_take_eq (hi.base _ w hw).2 hlen, hbase]
  rcases le_total t t' with htt | htt
  · refine ⟨s.termLog t', ?_, he' ▸ take_prefix _ _⟩
    rw [he, ← take_eq_mono (key hc hc' htt) hl]
    exact take_prefix _ _
  · refine ⟨s.termLog t, he ▸ take_prefix _ _, ?_⟩
    rw [he', ← take_eq_mono (key hc' hc htt) hl']
    exact take_prefix _ _

/-- Two committed lists of which one is the longer: the shorter is its start. -/
theorem Committed.take_eq [DecidableEq ν] (hi : Inv M s) (hh : Held s)
    {b : List ε} (ha : Committed M s a) (hb : Committed M s b) {k : ℕ} (hka : k ≤ a.length)
    (hkb : k ≤ b.length) : a.take k = b.take k := by
  obtain ⟨x, hax, hbx⟩ := ha.common hi hh hb
  rw [← prefix_take_eq hax hka, prefix_take_eq hbx hkb]

/-- Finitely many committed lists are starts of one committed list. -/
theorem Committed.bound [DecidableEq ν] (hi : Inv M s) (hh : Held s) (ha : Committed M s a)
    (F : Finset ν) {f : ν → List ε} (hf : ∀ v ∈ F, Committed M s (f v)) :
    ∃ b, Committed M s b ∧ a <+: b ∧ ∀ v ∈ F, f v <+: b := by
  induction F using Finset.induction_on with
  | empty => exact ⟨a, ha, prefix_rfl, by simp⟩
  | insert v F _ ih =>
    obtain ⟨b, hb, hab, hall⟩ := ih fun u hu => hf u (mem_insert_of_mem hu)
    have hv := hf v (mem_insert_self v F)
    obtain ⟨x, hbx, hvx⟩ := hb.common hi hh hv
    -- two starts of one list: one of them starts with the other
    rcases prefix_or_prefix_of_prefix hbx hvx with hle | hle
    · refine ⟨f v, hv, hab.trans hle, fun u hu => ?_⟩
      rcases mem_insert.mp hu with rfl | hu
      · exact prefix_rfl
      · exact (hall u hu).trans hle
    · refine ⟨b, hb, hab, fun u hu => ?_⟩
      rcases mem_insert.mp hu with rfl | hu
      · exact hle
      · exact hall u hu

/-- What holds along every sequence of steps; the second part needs the strict rule. -/
structure Sound (M : Finset ν) (strict : Prop) (s : State ν ε) : Prop where
  inv : Inv M s
  held : strict → Held s

/-- What is committed is on the disks of a majority. -/
theorem Committed.durable [DecidableEq ν] (hi : Inv M s) (hh : Held s) (h : Committed M s a)
    (hM : M.Nonempty) : ∃ q, Majority M q ∧ ∀ u ∈ q, a <+: (s.disk u).log := by
  rcases h with rfl | ⟨t, i, hc, hl, he⟩
  · exact ⟨M, ⟨Finset.Subset.refl M, by have := hM.card_pos; omega⟩, fun _ _ => nil_prefix⟩
  obtain ⟨q, hq, hacked⟩ := hc.majority
  refine ⟨q, hq, fun u hu => ?_⟩
  have hheld := hh.disk t u i (hacked u hu) fun t' w ht _ hw => hc.carries hi hh t' ht hw
  rw [he, ← take_eq_mono hheld hl]
  exact take_prefix _ _

section Run

variable [DecidableEq ν] [DecidableEq ε] {M : Finset ν} {strict : Prop} {v : ν} {s s' : State ν ε}

lemma Sound.step (hs : Sound M strict s) (h : Step M strict v s s') : Sound M strict s' :=
  ⟨h.inv hs.inv, fun hst => h.held hst hs.inv (hs.held hst)⟩

lemma Sound.steps (hs : Sound M strict s) (h : Steps M strict v s s') : Sound M strict s' := by
  induction h with
  | refl => exact hs
  | tail _ hstep ih => exact ih.step hstep

lemma Steps.le (hi : Inv M s) (h : Steps M strict v s s') : Le s s' := by
  have key : Inv M s' ∧ Le s s' := by
    induction h with
    | refl => exact ⟨hi, .refl s⟩
    | tail _ hstep ih => exact ⟨hstep.inv ih.1, ih.2.trans (hstep.le ih.1)⟩
  exact key.2

lemma Steps.frame (h : Steps M strict v s s') : Frame v s s' := by
  induction h with
  | refl => exact .refl v s
  | tail _ hstep ih => exact ih.trans hstep.frame

end Run

end OnetDns.Consensus
