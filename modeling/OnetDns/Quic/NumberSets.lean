import OnetDns.Lib.Window
import OnetDns.Quic.Protect

/-!
# Numbers that were seen

Runs of `accept_packet_number` and of `mark_stream_range`. Of the packet numbers that were accepted
a space keeps the largest and a mask; the stream numbers are kept as ranges that do not touch.
-/
namespace OnetDns.Quic
open List Window Bool

namespace Received

/-- One more packet: what the space keeps, and the numbers that were accepted, the newest first. -/
def next (s : Received × List ℕ) (pn : ℕ) : Received × List ℕ :=
  let (received, accepted) := s.1.accept pn
  (received, if accepted then pn :: s.2 else s.2)

def run (pns : List ℕ) : Received × List ℕ := pns.foldl next (⟨none, 0⟩, [])

/-- What the space keeps stands for the accepted numbers. -/
structure Sound (received : Received) (accepted : List ℕ) : Prop where
  once : accepted.Nodup
  fresh : received.largest = none → accepted = []
  knows : ∀ largest, received.largest = some largest → largest ∈ accepted ∧
    (∀ n ∈ accepted, n ≤ largest) ∧ Tracks largest received.mask {n | n ∈ accepted}

variable {received : Received} {accepted : List ℕ} {largest pn : ℕ}

lemma setOf_mem_cons : {n | n ∈ pn :: accepted} = insert pn {n | n ∈ accepted} := by
  ext n
  exact mem_cons

lemma Sound.extend {mask : BitVec 128} (h : Sound received accepted) (hpn : pn ∉ accepted)
    (hmem : largest ∈ pn :: accepted) (hle : ∀ n ∈ pn :: accepted, n ≤ largest)
    (htracks : Tracks largest mask (insert pn {n | n ∈ accepted})) :
    Sound ⟨some largest, mask⟩ (pn :: accepted) := by
  refine ⟨nodup_cons.mpr ⟨hpn, h.once⟩, nofun, fun _ hsome => ?_⟩
  obtain rfl := Option.some.inj hsome
  exact ⟨hmem, hle, setOf_mem_cons ▸ htracks⟩

/-- A number is accepted when it is new and near, and what the space keeps goes with it. -/
structure Answered (accepted : List ℕ) (pn : ℕ) (r : Received × Bool) : Prop where
  answer : r.2 = true ↔ pn ∉ accepted ∧ ∀ largest ∈ accepted, (largest : ℤ) - 128 < pn
  sound : Sound r.1 (if r.2 then pn :: accepted else accepted)

lemma Sound.accept (h : Sound received accepted) (pn : ℕ) :
    Answered accepted pn (received.accept pn) := by
  unfold Received.accept
  cases hlargest : received.largest with
  | none =>
    have hnil := h.fresh hlargest
    subst hnil
    refine ⟨iff_of_true rfl ⟨not_mem_nil, fun n hn => absurd hn not_mem_nil⟩, ?_⟩
    refine h.extend not_mem_nil mem_cons_self (fun n hn => (mem_singleton.mp hn).le) ?_
    have hset : insert pn {n | n ∈ ([] : List ℕ)} = {pn} := by simp
    rw [hset]
    exact tracks_single pn
  | some largest =>
    obtain ⟨hmem, hle, htracks⟩ := h.knows largest hlargest
    dsimp only
    by_cases hlt : largest < pn
    · have hpn : pn ∉ accepted := fun hpn => not_lt.mpr (hle pn hpn) hlt
      rw [if_pos hlt]
      refine ⟨iff_of_true rfl ⟨hpn, fun n hn => ?_⟩, ?_⟩
      · have := hle n hn
        omega
      refine h.extend hpn mem_cons_self (fun n hn => ?_) (htracks.advance hle hlt)
      rcases mem_cons.mp hn with rfl | hn
      · exact le_rfl
      · exact (hle n hn).trans hlt.le
    rw [if_neg hlt]
    have hpnle := Nat.le_of_not_lt hlt
    by_cases hfar : 128 ≤ largest - pn
    · rw [if_pos hfar]
      refine ⟨iff_of_false false_ne_true fun hnear => ?_, h⟩
      have := hnear.2 largest hmem
      omega
    rw [if_neg hfar]
    have hbit := htracks.mem_iff hpnle (Nat.lt_of_not_le hfar)
    by_cases hseen : received.mask.getLsbD (largest - pn) = true
    · rw [if_pos hseen]
      exact ⟨iff_of_false false_ne_true fun hnear => hnear.1 (hbit.mp hseen), h⟩
    have hpn : pn ∉ accepted := fun hpn => hseen (hbit.mpr hpn)
    rw [if_neg hseen]
    refine ⟨iff_of_true rfl ⟨hpn, fun n hn => ?_⟩, ?_⟩
    · have := hle n hn
      omega
    refine h.extend hpn (mem_cons_of_mem _ hmem) (fun n hn => ?_)
      (htracks.mark hpnle (Nat.lt_of_not_le hfar))
    rcases mem_cons.mp hn with rfl | hn
    · exact hpnle
    · exact hle n hn

lemma run_sound (pns : List ℕ) : Sound (run pns).1 (run pns).2 := by
  induction pns using reverseRecOn with
  | nil => exact ⟨nodup_nil, fun _ => rfl, fun _ h => by cases h⟩
  | append_singleton pns pn ih =>
    rw [run, foldl_append]
    exact (ih.accept pn).sound

end Received

namespace StreamRanges

/-- Ranges in order, with a number between any two. -/
def Apart (ranges : List StreamRange) : Prop :=
  ranges.Pairwise fun range later => range.high + 1 < later.low

variable {ranges : List StreamRange} {new : StreamRange}

lemma lt_of_mem_insertRange {n : ℕ} (h : ∀ range ∈ ranges, n < range.low) (hnew : n < new.low) :
    ∀ range ∈ insertRange ranges new, n < range.low := by
  induction ranges generalizing new with
  | nil =>
    intro range hrange
    rwa [mem_singleton.mp hrange]
  | cons range rest ih =>
    obtain ⟨hrange, hrest⟩ := forall_mem_cons.mp h
    rw [insertRange]
    split
    · exact forall_mem_cons.mpr ⟨hrange, ih hrest hnew⟩
    split
    · exact forall_mem_cons.mpr ⟨hnew, h⟩
    · exact ih hrest (lt_min hnew hrange)

lemma Apart.insertRange (h : Apart ranges) (new : StreamRange) :
    Apart (insertRange ranges new) := by
  induction ranges generalizing new with
  | nil => exact pairwise_singleton _ _
  | cons range rest ih =>
    obtain ⟨hrange, hrest⟩ := pairwise_cons.mp h
    rw [StreamRanges.insertRange]
    split
    · rename_i hbelow
      exact pairwise_cons.mpr ⟨lt_of_mem_insertRange hrange hbelow, ih hrest new⟩
    split
    · rename_i habove
      refine pairwise_cons.mpr ⟨forall_mem_cons.mpr ⟨habove, fun later hlater => ?_⟩, h⟩
      have := hrange later hlater
      have := range.le
      omega
    · exact ih hrest _

/-- The ranges after the marks, from none. -/
def marked (ids : List ℕ) : StreamRanges := ids.foldl mark empty

lemma apart_marked (ids : List ℕ) (kind : Fin 4) : Apart ((marked ids).kinds kind) := by
  induction ids using reverseRecOn with
  | nil => exact .nil
  | append_singleton ids id ih =>
    rw [marked, foldl_append]
    change Apart (Function.update (marked ids).kinds _ _ kind)
    rw [Function.update_apply]
    split
    · rename_i hkind
      exact hkind ▸ ih.insertRange _
    · exact ih

lemma contains_marked (ids : List ℕ) (id : ℕ) : (marked ids).contains id = true ↔ id ∈ ids := by
  induction ids using reverseRecOn with
  | nil => exact iff_of_false false_ne_true not_mem_nil
  | append_singleton ids last ih =>
    rw [marked, foldl_append, mem_append, mem_singleton, ← ih]
    exact contains_mark_iff _ last id

end StreamRanges

/-- After any packets no number was accepted twice, and one is accepted when it was not accepted yet
and is above every accepted one less 128. After any marks the ranges of each kind are in order and
do not touch, and they hold the marked numbers. -/
theorem number_sets (pns ids : List ℕ) :
    ((Received.run pns).2.Nodup ∧ ∀ pn, ((Received.run pns).1.accept pn).2 = true ↔
      pn ∉ (Received.run pns).2 ∧ ∀ largest ∈ (Received.run pns).2, (largest : ℤ) - 128 < pn) ∧
    (∀ kind, StreamRanges.Apart ((StreamRanges.marked ids).kinds kind)) ∧
    ∀ id, (StreamRanges.marked ids).contains id = true ↔ id ∈ ids := by
  have hsound := Received.run_sound pns
  exact ⟨⟨hsound.once, fun pn => (hsound.accept pn).answer⟩, StreamRanges.apart_marked ids,
    StreamRanges.contains_marked ids⟩

end OnetDns.Quic
