import Mathlib.Data.List.Sort
import OnetDns.Quic.Types

/-!
# Reassembly of streams

`Reasm` of `onetdns-quic/src/conn.rs`: data arrives in pieces, in any order and more
than once, and leaves without gaps. Pieces behind a gap wait. The ends of pieces that
wait are below an earlier limit, so the source's `checked_add` on them never fails.
-/
namespace OnetDns.Quic
open List

structure Fragment where
  offset : ℕ
  data : Bytes
  deriving DecidableEq

/-- The offset behind the last byte. -/
def Fragment.stop (f : Fragment) : ℕ := f.offset + f.data.length

structure Reasm where
  recvOffset : ℕ
  pending : List Fragment
  pendingBytes : ℕ
  deriving DecidableEq

namespace Reasm

def empty : Reasm := ⟨0, [], 0⟩

/-- Whether a piece from `start` to `stop` overlaps or adjoins a fragment. -/
def touches (start stop : ℕ) (f : Fragment) : Bool := !(f.stop < start || stop < f.offset)

/-- How much of the piece a fragment has already. -/
def overlap (start stop : ℕ) (f : Fragment) : ℕ := min stop f.stop - max start f.offset

/-- The loop over the waiting fragments: the bytes that are already there, and whether the piece
touches one. `none` if a byte differs from the one that is there. -/
def scan (start stop : ℕ) (data : Bytes) : List Fragment → Option (ℕ × Bool)
  | [] => some (0, false)
  | f :: rest =>
    if touches start stop f = false then scan start stop data rest
    else
      let size := overlap start stop f
      let first := max start f.offset
      if (data.drop (first - start)).take size ≠ (f.data.drop (first - f.offset)).take size then
        none
      else (scan start stop data rest).map fun (bytes, _) => (bytes + size, true)

/-- One fragment of the merging loop; the last merged one is in front. -/
def mergeInto : List Fragment → Fragment → List Fragment
  | [], f => [f]
  | last :: rest, f =>
    if last.stop < f.offset then f :: last :: rest
    else ⟨last.offset, last.data ++ f.data.drop (last.stop - f.offset)⟩ :: rest

/-- The loop that takes what continues the stream: the bytes, the new offset and the rest. -/
def release (recvOffset : ℕ) : List Fragment → Bytes × ℕ × List Fragment
  | [] => ([], recvOffset, [])
  | f :: rest =>
    if recvOffset < f.offset then ([], recvOffset, f :: rest)
    else if f.stop ≤ recvOffset then release recvOffset rest
    else
      let (out, next, remaining) := release f.stop rest
      (f.data.drop (recvOffset - f.offset) ++ out, next, remaining)

/-- Fragments with a new piece, in order and merged. Among equal offsets the order does not
matter: the bytes agree. -/
def merged (pending : List Fragment) (piece : Fragment) : List Fragment :=
  ((pending ++ [piece]).insertionSort (·.offset ≤ ·.offset)).foldl mergeInto [] |>.reverse

/-- A reassembly that `push` leaves behind. -/
def advance (r : Reasm) (piece : Fragment) : Bytes × Reasm :=
  let (out, next, remaining) := release r.recvOffset (merged r.pending piece)
  (out, ⟨next, remaining, (remaining.map fun f => f.data.length).sum⟩)

def push (r : Reasm) (offset : ℕ) (data : Bytes) (maxOffset : ℕ) : Except QuicError (Bytes × Reasm) :=
  let stop := offset + data.length
  if maxOffset < stop then .error .flowControl
  else if stop ≤ r.recvOffset then .ok ([], r)
  else
    let start := max offset r.recvOffset
    let data := data.drop (start - offset)
    match scan start stop data r.pending with
    | none => .error .frame
    | some (bytes, touched) =>
      if maxOffset < r.pendingBytes + (data.length - bytes) ∨
          (maxPendingFragments ≤ r.pending.length ∧ touched = false) then .error .flowControl
      else .ok (r.advance ⟨start, data⟩)

/-- Fragments in order with a gap between any two. A fragment may be empty: a frame that only ends
the stream can arrive early. -/
def Gapped (fragments : List Fragment) : Prop := fragments.Pairwise fun f g => f.stop < g.offset

/-- What holds between two calls of `push`. -/
structure Wf (r : Reasm) : Prop where
  gapped : Gapped r.pending
  behind : ∀ f ∈ r.pending, r.recvOffset < f.offset
  bytes : r.pendingBytes = (r.pending.map fun f => f.data.length).sum

lemma wf_empty : empty.Wf := ⟨.nil, nofun, rfl⟩

/-- The piece would be one more fragment, and there are as many as there may be. -/
def crowded (r : Reasm) (offset stop : ℕ) : Bool :=
  r.recvOffset < stop && maxPendingFragments ≤ r.pending.length &&
    r.pending.all fun f => !touches (max offset r.recvOffset) stop f

lemma stop_eq (f : Fragment) : f.stop = f.offset + f.data.length := rfl

lemma offset_le_stop (f : Fragment) : f.offset ≤ f.stop := Nat.le_add_right _ _

variable {start stop limit : ℕ} {acc : List Fragment}

lemma overlap_of_not_touches {f : Fragment}
    (h : touches start stop f = false) : overlap start stop f = 0 := by
  simp only [touches, Bool.not_eq_false', Bool.or_eq_true, decide_eq_true_eq] at h
  simp only [overlap]
  omega

variable {fragments : List Fragment} {data : Bytes}

lemma scan_eq {bytes : ℕ}
    {touched : Bool} (h : scan start stop data fragments = some (bytes, touched)) :
    bytes = (fragments.map (overlap start stop)).sum ∧
      touched = fragments.any (touches start stop) := by
  induction fragments generalizing bytes touched with
  | nil =>
    cases h
    simp
  | cons f rest ih =>
    rw [scan] at h
    split at h
    · rename_i hfar
      obtain ⟨hbytes, htouched⟩ := ih h
      simp [hbytes, htouched, overlap_of_not_touches hfar, hfar]
    rename_i hnear
    simp only at h
    split at h
    · cases h
    · obtain ⟨⟨bytes', touched'⟩, hrest, heq⟩ := Option.map_eq_some_iff.mp h
      cases heq
      obtain ⟨hbytes, -⟩ := ih hrest
      simp [hbytes, Bool.not_eq_false _ ▸ hnear, add_comm]

/-- The part of an interval outside of the piece. -/
def outside (start stop low high : ℕ) : ℕ := (high - low) - (min stop high - max start low)

/-- Waiting bytes that the piece does not have fit in front of the limit, next to the piece. -/
theorem bytes_outside (start stop limit : ℕ) {low : ℕ} (hgapped : Gapped fragments)
    (hlow : ∀ f ∈ fragments, low ≤ f.offset) (hlimit : ∀ f ∈ fragments, f.stop ≤ limit)
    (hle : low ≤ limit) :
    (fragments.map fun f => f.data.length).sum ≤
      (fragments.map (overlap start stop)).sum + outside start stop low limit := by
  induction fragments generalizing low with
  | nil => simp
  | cons f rest ih =>
    rw [Gapped, pairwise_cons] at hgapped
    have hstop : f.stop ≤ limit := hlimit f (by simp)
    have hrest := ih hgapped.2 (fun g hg => (hgapped.1 g hg).le)
      (fun g hg => hlimit g (by simp [hg])) hstop
    have hoffset := hlow f (by simp)
    simp only [map_cons, sum_cons, overlap, outside, stop_eq] at hrest hstop ⊢
    omega

variable {r : Reasm}

/-- The limit of `push` on waiting bytes never decides. -/
theorem pendingBytes_le (h : r.Wf) (hstart : r.recvOffset ≤ start)
    (hpiece : start ≤ stop) (hstop : stop ≤ limit) (hlimit : ∀ f ∈ r.pending, f.stop ≤ limit) :
    r.pendingBytes + (stop - start - (r.pending.map (overlap start stop)).sum) ≤ limit := by
  have hout : ∀ start stop, r.pendingBytes ≤
      (r.pending.map (overlap start stop)).sum + outside start stop r.recvOffset limit := by
    intro start stop
    rw [h.bytes]
    exact bytes_outside start stop limit h.gapped (fun f hf => (h.behind f hf).le) hlimit (by omega)
  have hall : r.pendingBytes ≤ limit := by
    have hnone : r.pending.map (overlap 0 0) = r.pending.map fun _ => 0 :=
      map_congr_left fun f _ => by simp [overlap]
    have := hout 0 0
    simp only [hnone, map_const', sum_replicate, smul_zero, outside] at this
    omega
  have hnew := hout start stop
  simp only [outside] at hnew
  omega

/-- Two fragments that meet, as one. -/
def join (a b : Fragment) : Fragment := ⟨a.offset, a.data ++ b.data.drop (a.stop - b.offset)⟩

lemma stop_join {a b : Fragment} (h : b.offset ≤ a.stop) : (join a b).stop = max a.stop b.stop := by
  simp only [join, stop_eq, length_append, length_drop] at h ⊢
  omega

/-- A property of fragments that joining two of them keeps. -/
def JoinClosed (P : Fragment → Prop) : Prop :=
  ∀ a b, P a → P b → a.offset ≤ b.offset → b.offset ≤ a.stop → P (join a b)

lemma joinClosed_stop (limit : ℕ) : JoinClosed fun f => f.stop ≤ limit :=
  fun _ _ ha hb _ hmeets => (stop_join hmeets).trans_le (max_le ha hb)

/-- The state of the merging loop: the merged fragments, the last one in front, and those to
come. -/
structure Merging (P : Fragment → Prop) (acc rest : List Fragment) : Prop where
  gaps : acc.Pairwise fun f g => g.stop < f.offset
  order : ∀ last ∈ acc, ∀ f ∈ rest, last.offset ≤ f.offset
  prop : ∀ f ∈ acc, P f

variable {P : Fragment → Prop}

lemma Merging.step (hjoin : JoinClosed P) {rest : List Fragment}
    {f : Fragment} (h : Merging P acc (f :: rest)) (hf : P f)
    (hrest : ∀ g ∈ rest, f.offset ≤ g.offset) : Merging P (mergeInto acc f) rest := by
  cases acc with
  | nil => exact ⟨by simp [mergeInto], by simpa [mergeInto], by simpa [mergeInto]⟩
  | cons last older =>
    obtain ⟨hgaps, horder, hprop⟩ := h
    simp only [pairwise_cons, forall_mem_cons] at hgaps horder hprop
    rw [mergeInto]
    split
    · rename_i hgap
      refine ⟨?_, ?_, ?_⟩
      · simp only [pairwise_cons, forall_mem_cons]
        refine ⟨⟨hgap, fun g hg => ?_⟩, hgaps⟩
        exact lt_of_lt_of_le (hgaps.1 g hg) horder.1.1
      · simp only [forall_mem_cons]
        exact ⟨hrest, horder.1.2, fun g hg => (horder.2 g hg).2⟩
      · simpa only [forall_mem_cons] using ⟨hf, hprop⟩
    · refine ⟨?_, ?_, ?_⟩
      · simp only [pairwise_cons]
        exact hgaps
      · simp only [forall_mem_cons]
        exact ⟨horder.1.2, fun g hg => (horder.2 g hg).2⟩
      · simp only [forall_mem_cons]
        exact ⟨hjoin last f hprop.1 hf horder.1.1 (by omega), hprop.2⟩

lemma Merging.run (hjoin : JoinClosed P)
    (h : Merging P acc fragments) (hsorted : fragments.Pairwise fun f g => f.offset ≤ g.offset)
    (hp : ∀ f ∈ fragments, P f) : Merging P (fragments.foldl mergeInto acc) [] := by
  induction fragments generalizing acc with
  | nil => exact h
  | cons f rest ih =>
    simp only [pairwise_cons, forall_mem_cons] at hsorted hp
    exact ih (h.step hjoin hp.1 hsorted.1) hsorted.2 hp.2

/-- Merging leaves gaps, and keeps what joining keeps. -/
theorem merged_spec (hjoin : JoinClosed P) {pending : List Fragment}
    {piece : Fragment} (hp : ∀ f ∈ pending, P f) (hpp : P piece) :
    Gapped (merged pending piece) ∧ ∀ f ∈ merged pending piece, P f := by
  set sorted := (pending ++ [piece]).insertionSort (·.offset ≤ ·.offset)
  have hmem : ∀ f, f ∈ sorted ↔ f ∈ pending ∨ f = piece := by
    intro f
    rw [mem_insertionSort, mem_append, mem_singleton]
  have hstart : Merging P [] sorted := ⟨.nil, nofun, nofun⟩
  have hrun := hstart.run hjoin
    (pairwise_insertionSort (fun f g : Fragment => f.offset ≤ g.offset) (pending ++ [piece]))
    (fun f hf => ((hmem f).mp hf).elim (hp f) (· ▸ hpp))
  refine ⟨pairwise_reverse.mpr hrun.gaps, fun f hf => ?_⟩
  exact hrun.prop f (mem_reverse.mp hf)

lemma release_of_behind {recvOffset : ℕ} (h : ∀ f ∈ fragments, recvOffset < f.offset) :
    release recvOffset fragments = ([], recvOffset, fragments) := by
  cases fragments with
  | nil => rfl
  | cons f rest => rw [release, if_pos (h f (by simp))]

lemma scan_far (h : ∀ f ∈ fragments, touches start stop f = false) :
    scan start stop data fragments = some (0, false) := by
  induction fragments with
  | nil => rfl
  | cons f rest ih =>
    rw [forall_mem_cons] at h
    rw [scan, if_pos h.1]
    exact ih h.2

lemma foldl_mergeInto_gapped
    (h : Gapped fragments) (hacc : ∀ last ∈ acc.head?, ∀ f ∈ fragments, last.stop < f.offset) :
    fragments.foldl mergeInto acc = fragments.reverse ++ acc := by
  induction fragments generalizing acc with
  | nil => rfl
  | cons f rest ih =>
    rw [Gapped, pairwise_cons] at h
    have hmerge : mergeInto acc f = f :: acc := by
      cases acc with
      | nil => rfl
      | cons last older => exact if_pos (hacc last rfl f (by simp))
    rw [foldl_cons, hmerge, ih h.2 (by simpa using h.1)]
    simp

/-- A piece behind all that wait, and apart from them, waits too. -/
theorem push_apart (h : r.Wf) {offset : ℕ} (hbehind : r.recvOffset < offset)
    (hlast : ∀ f ∈ r.pending, f.stop < offset) (hlimit : offset + data.length ≤ limit)
    (hroom : r.pendingBytes + data.length ≤ limit) (hcount : r.pending.length < maxPendingFragments)
    :
    r.push offset data limit =
      .ok ([], ⟨r.recvOffset, r.pending ++ [⟨offset, data⟩], r.pendingBytes + data.length⟩) := by
  have hgapped : Gapped (r.pending ++ [⟨offset, data⟩]) := by
    rw [Gapped, pairwise_append]
    exact ⟨h.gapped, pairwise_singleton _ _, by simpa using hlast⟩
  have hmerged : merged r.pending ⟨offset, data⟩ = r.pending ++ [⟨offset, data⟩] := by
    have hsorted : (r.pending ++ [(⟨offset, data⟩ : Fragment)]).Pairwise fun f g => f.offset ≤ g.offset :=
      Pairwise.imp (fun {f g} hfg => (offset_le_stop f).trans (le_of_lt hfg)) hgapped
    rw [merged, hsorted.insertionSort_eq, foldl_mergeInto_gapped hgapped (by simp), append_nil,
      reverse_reverse]
  have hfar : ∀ f ∈ r.pending, touches offset (offset + data.length) f = false := by
    intro f hf
    simp [touches, hlast f hf]
  have hall : ∀ f ∈ r.pending ++ [⟨offset, data⟩], r.recvOffset < f.offset := by
    simp only [mem_append, mem_singleton]
    rintro f (hf | rfl)
    · exact h.behind f hf
    · exact hbehind
  rw [push, if_neg (by omega), if_neg (by omega), max_eq_left hbehind.le]
  simp only [Nat.sub_self, drop_zero, scan_far hfar]
  rw [if_neg (by omega), advance, hmerged, release_of_behind hall]
  simp [h.bytes]

/-- At most the first fragment leaves, when it starts where the stream has got to. -/
theorem release_cases {recvOffset : ℕ} (hgapped : Gapped fragments)
    (hfrom : ∀ f ∈ fragments, recvOffset ≤ f.offset) : ((∀ f ∈ fragments, recvOffset < f.offset) ∧
      release recvOffset fragments = ([], recvOffset, fragments)) ∨
    ∃ f rest, fragments = f :: rest ∧ f.offset = recvOffset ∧
      release recvOffset fragments = (f.data, f.stop, rest) := by
  cases fragments with
  | nil => exact .inl ⟨nofun, rfl⟩
  | cons f rest =>
    rw [Gapped, pairwise_cons] at hgapped
    have hle := offset_le_stop f
    rcases (hfrom f (by simp)).lt_or_eq with hbehind | hhere
    · have hall : ∀ g ∈ f :: rest, recvOffset < g.offset := by
        simp only [forall_mem_cons]
        exact ⟨hbehind, fun g hg => hbehind.trans (hle.trans_lt (hgapped.1 g hg))⟩
      exact .inl ⟨hall, release_of_behind hall⟩
    refine .inr ⟨f, rest, rfl, hhere.symm, ?_⟩
    rw [release, if_neg (by omega)]
    split
    · rename_i hnone
      have hnil : f.data = [] := by
        rw [stop_eq] at hnone
        exact length_eq_zero_iff.mp (by omega)
      have hstop : f.stop = recvOffset := by omega
      rw [hstop] at hgapped
      rw [release_of_behind hgapped.1, hnil, hstop]
    · rw [release_of_behind hgapped.1]
      simp [hhere]

/-- The bytes of a fragment are those of the stream. -/
def Agrees (content : ℕ → UInt8) (f : Fragment) : Prop :=
  ∀ i b, f.data[i]? = some b → b = content (f.offset + i)

lemma agrees_join (content : ℕ → UInt8) : JoinClosed (Agrees content) := by
  intro a b ha hb horder hmeets i x hx
  simp only [join, getElem?_append] at hx ⊢
  split at hx
  · exact ha i x hx
  rw [getElem?_drop] at hx
  rw [hb _ x hx]
  rw [stop_eq] at hmeets ⊢
  congr 1
  omega

/-- What `advance` does to a reassembly. -/
structure Advanced (r : Reasm) (piece : Fragment) (out : Bytes) (r' : Reasm) : Prop where
  wf : r'.Wf
  recvOffset : r'.recvOffset = r.recvOffset + out.length
  limit : ∀ limit, r.recvOffset ≤ limit → piece.stop ≤ limit → (∀ f ∈ r.pending, f.stop ≤ limit) →
    r'.recvOffset ≤ limit ∧ ∀ f ∈ r'.pending, f.stop ≤ limit
  content : ∀ content, Agrees content piece → (∀ f ∈ r.pending, Agrees content f) →
    Agrees content ⟨r.recvOffset, out⟩ ∧ ∀ f ∈ r'.pending, Agrees content f

lemma advance_spec (h : r.Wf) {piece : Fragment} (hstart : r.recvOffset ≤ piece.offset) :
    Advanced r piece (r.advance piece).1 (r.advance piece).2 := by
  have hmerged : ∀ P, JoinClosed P → (∀ f ∈ r.pending, P f) → P piece →
      Gapped (merged r.pending piece) ∧ ∀ f ∈ merged r.pending piece, P f :=
    fun P hjoin => merged_spec hjoin
  obtain ⟨hgapped, hfrom⟩ := hmerged (fun f => r.recvOffset ≤ f.offset) (fun a b ha _ _ _ => ha)
    (fun f hf => (h.behind f hf).le) hstart
  have hlimit : ∀ limit, piece.stop ≤ limit → (∀ f ∈ r.pending, f.stop ≤ limit) →
      ∀ f ∈ merged r.pending piece, f.stop ≤ limit := by
    intro limit hpiece hpending
    exact (hmerged _ (joinClosed_stop limit) hpending hpiece).2
  have hcontent := fun content => hmerged (Agrees content) (agrees_join content)
  rcases release_cases hgapped hfrom with ⟨hbehind, hrelease⟩ | ⟨f, rest, hfirst, hhere, hrelease⟩
  · simp only [advance, hrelease]
    refine ⟨⟨hgapped, hbehind, rfl⟩, rfl, fun limit hrecv hpiece hpending => ?_,
      fun content hpiece hpending => ?_⟩
    · exact ⟨hrecv, hlimit limit hpiece hpending⟩
    · exact ⟨fun i b hb => by simp at hb, (hcontent content hpending hpiece).2⟩
  simp only [advance, hrelease]
  rw [hfirst] at hgapped hlimit hcontent
  rw [Gapped, pairwise_cons] at hgapped
  refine ⟨⟨hgapped.2, hgapped.1, rfl⟩, ?_,
    fun limit _ hpiece hpending => ?_, fun content hpiece hpending => ?_⟩
  · rw [stop_eq, hhere]
  · have hall := hlimit limit hpiece hpending
    simpa only [forall_mem_cons] using hall
  · have hall := (hcontent content hpending hpiece).2
    rw [forall_mem_cons, ← hhere] at *
    exact hall

/-- The piece agrees with what waits. -/
def Fits (r : Reasm) (offset : ℕ) (data : Bytes) : Prop :=
  (scan (max offset r.recvOffset) (offset + data.length)
    (data.drop (max offset r.recvOffset - offset)) r.pending).isSome

/-- The result of `push`, for a piece in front of a limit that all waiting fragments respect. -/
theorem push_cases (h : r.Wf) {offset : ℕ}
    (hstop : offset + data.length ≤ limit) (hlimit : ∀ f ∈ r.pending, f.stop ≤ limit) :
    (r.push offset data limit = .error .frame ∧ ¬r.Fits offset data) ∨
    (r.push offset data limit = .error .flowControl ∧ r.crowded offset (offset + data.length)) ∨
    (r.push offset data limit = .ok ([], r) ∧ offset + data.length ≤ r.recvOffset) ∨
    ∃ out r', r.push offset data limit = .ok (out, r') ∧ r.recvOffset < offset + data.length ∧
      Advanced r ⟨max offset r.recvOffset, data.drop (max offset r.recvOffset - offset)⟩ out r' := by
  unfold push
  simp only
  rw [if_neg (by omega)]
  by_cases hold : offset + data.length ≤ r.recvOffset
  · exact .inr (.inr (.inl ⟨by rw [if_pos hold], hold⟩))
  rw [if_neg hold]
  cases hscan : scan (max offset r.recvOffset) (offset + data.length)
      (data.drop (max offset r.recvOffset - offset)) r.pending with
  | none => exact .inl ⟨rfl, by simp [Fits, hscan]⟩
  | some found =>
    obtain ⟨bytes, touched⟩ := found
    obtain ⟨hbytes, htouched⟩ := scan_eq hscan
    have hlen : (data.drop (max offset r.recvOffset - offset)).length =
        offset + data.length - max offset r.recvOffset := by
      rw [length_drop]
      omega
    have hroom := pendingBytes_le h (le_max_right offset r.recvOffset) (by omega) hstop hlimit
    simp only [hlen]
    by_cases hfull : maxPendingFragments ≤ r.pending.length ∧ touched = false
    · refine .inr (.inl ⟨by rw [if_pos (.inr hfull)], ?_⟩)
      rw [htouched, any_eq_false] at hfull
      simp only [crowded, Bool.and_eq_true, decide_eq_true_eq, all_eq_true]
      exact ⟨⟨by omega, hfull.1⟩, fun f hf => by simpa using hfull.2 f hf⟩
    · refine .inr (.inr (.inr ⟨_, _, by rw [if_neg (not_or.mpr ⟨by omega, hfull⟩)], by omega, ?_⟩))
      exact advance_spec h (le_max_right _ _)

end Reasm

end OnetDns.Quic
