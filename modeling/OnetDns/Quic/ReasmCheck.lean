import OnetDns.Lib.Checked
import OnetDns.Quic.Delivery

/-!
# Reassembly, access by access

`Reasm::push` of `onetdns-quic/src/conn.rs` with every slice and every difference of offsets checked,
and with what is left of the buffer when it returns early. Sums of lengths of bytes in memory do not
saturate, and a `usize` holds every `u64`.
-/
namespace OnetDns.Quic.Reasm
open Checked Guarded Nat

/-- `sort_unstable_by_key`: it puts the fragments in order, and those of one offset anyhow. -/
structure Sorting where
  run : List Fragment → List Fragment
  perm : ∀ fs, (run fs).Perm fs
  sorted : ∀ fs, (run fs).Pairwise fun f g => f.offset ≤ g.offset

/-- A sort that keeps those of one offset as they were. -/
def Sorting.stable : Sorting where
  run := List.insertionSort fun f g => f.offset ≤ g.offset
  perm := List.perm_insertionSort _
  sorted := List.pairwise_insertionSort fun f g : Fragment => f.offset ≤ g.offset

abbrev Checks := Except (Fault QuicError)

/-- `offset.checked_add(len)`. -/
def checkedStop (f : Fragment) : Checks ℕ :=
  if f.stop ≤ u64Max then .ok f.stop else refuse .flowControl

def compareOverlap (start stop : ℕ) (data : Bytes) (f : Fragment) (existingEnd : ℕ) : Checks ℕ :=
  let overlapStart := max start f.offset
  let overlapEnd := min stop existingEnd
  if overlapStart < overlapEnd then do
    let incomingStart ← sub overlapStart start
    let existingStart ← sub overlapStart f.offset
    let len ← sub overlapEnd overlapStart
    let incoming ← slice data incomingStart (incomingStart + len)
    let existing ← slice f.data existingStart (existingStart + len)
    if incoming ≠ existing then refuse .frame else return len
  else return 0

/-- The loop over the waiting fragments: the bytes they have of the piece, and whether it touches
one. -/
def checkOverlaps (start stop : ℕ) (data : Bytes) : List Fragment → ℕ → Bool → Checks (ℕ × Bool)
  | [], overlapBytes, touched => return (overlapBytes, touched)
  | f :: rest, overlapBytes, touched => do
    let existingEnd ← checkedStop f
    if existingEnd < start ∨ stop < f.offset then
      checkOverlaps start stop data rest overlapBytes touched
    else do
      let len ← compareOverlap start stop data f existingEnd
      checkOverlaps start stop data rest (overlapBytes + len) true

/-- What `push` does before it changes anything: the piece to put in, if there is one. -/
def fresh (r : Reasm) (offset : ℕ) (data : Bytes) (maxOffset : ℕ) : Checks (Option Fragment) := do
  let stop ← checkedStop ⟨offset, data⟩
  if maxOffset < stop ∨ maxOffset < data.length then refuse .flowControl
  else if stop ≤ r.recvOffset then return none
  else do
    let start := max offset r.recvOffset
    let trim ← sub start offset
    let data ← (if trim = 0 then pure data else slice data trim data.length)
    let (overlapBytes, touched) ← checkOverlaps start stop data r.pending 0 false
    if maxOffset < r.pendingBytes + (data.length - overlapBytes) ∨
        (maxPendingFragments ≤ r.pending.length ∧ touched = false) then refuse .flowControl
    else return some ⟨start, data⟩

/-- The merging loop; the last merged fragment is in front. -/
def mergeFragments : List Fragment → List Fragment → Checks (List Fragment)
  | merged, [] => return merged.reverse
  | [], f :: rest => mergeFragments [f] rest
  | last :: merged, f :: rest => do
    let lastEnd ← checkedStop last
    if lastEnd < f.offset then mergeFragments (f :: last :: merged) rest
    else do
      let covered ← sub lastEnd f.offset
      if covered < f.data.length then do
        let more ← slice f.data covered f.data.length
        mergeFragments (⟨last.offset, last.data ++ more⟩ :: merged) rest
      else mergeFragments (last :: merged) rest

def tail (recvOffset : ℕ) (f : Fragment) : Checks Bytes := do
  let start ← sub recvOffset f.offset
  slice f.data start f.data.length

/-- The loop that takes what continues the stream: how far it got, and the bytes and the rest. -/
def drain (recvOffset : ℕ) (out : Bytes) : List Fragment → ℕ × Checks (Bytes × List Fragment)
  | [] => (recvOffset, .ok (out, []))
  | f :: rest =>
    if recvOffset < f.offset then (recvOffset, .ok (out, f :: rest))
    else
      match checkedStop f with
      | .error fault => (recvOffset, .error fault)
      | .ok fragmentEnd =>
        if fragmentEnd ≤ recvOffset then drain recvOffset out rest
        else
          match tail recvOffset f with
          | .error fault => (recvOffset, .error fault)
          | .ok bytes => drain fragmentEnd (out ++ bytes) rest

/-- `push`, and what it leaves. -/
def pushChecked (sorting : Sorting) (r : Reasm) (offset : ℕ) (data : Bytes) (maxOffset : ℕ) :
    Checks Bytes × Reasm :=
  match fresh r offset data maxOffset with
  | .error fault => (.error fault, r)
  | .ok none => (.ok [], r)
  | .ok (some piece) =>
    match mergeFragments [] (sorting.run (r.pending ++ [piece])) with
    | .error fault => (.error fault, { r with pending := [] })
    | .ok fragments =>
      match drain r.recvOffset [] fragments with
      | (recvOffset, .error fault) =>
        (.error fault, { r with recvOffset := recvOffset, pending := [] })
      | (recvOffset, .ok (out, remaining)) =>
        (.ok out, ⟨recvOffset, remaining, (remaining.map fun f => f.data.length).sum⟩)

/-- What holds between two calls: the order of the fragments, and ends that a `u64` holds. -/
structure Sound (r : Reasm) : Prop extends r.Wf where
  stops : ∀ f ∈ r.pending, f.stop ≤ u64Max

variable {sorting : Sorting} {r : Reasm} {offset start stop maxOffset : ℕ} {data out : Bytes}
  {f piece : Fragment} {fragments acc : List Fragment} {n : ℕ}

lemma checkedStop_eq (h : f.stop ≤ u64Max) : checkedStop f = .ok f.stop := if_pos h

lemma meets_compareOverlap (hstop : stop = start + data.length) :
    Meets Handled (fun _ => True) (compareOverlap start stop data f f.stop) := by
  refine meets_ite (fun hlt => ?_) fun _ => meets_pure trivial
  have hend := stop_eq f
  rw [sub_ok (le_max_left _ _), sub_ok (le_max_right _ _), sub_ok hlt.le]
  refine (meets_slice (Q := fun _ => True) (le_add_right _ _) (by omega) trivial).bind fun _ _ => ?_
  refine (meets_slice (Q := fun _ => True) (le_add_right _ _) (by omega) trivial).bind fun _ _ => ?_
  exact meets_ite (fun _ => meets_refuse _) fun _ => meets_pure trivial

lemma meets_checkOverlaps (hstop : stop = start + data.length)
    (h : ∀ f ∈ fragments, f.stop ≤ u64Max) (bytes : ℕ) (touched : Bool) :
    Meets Handled (fun _ => True) (checkOverlaps start stop data fragments bytes touched) := by
  induction fragments generalizing bytes touched with
  | nil => exact meets_pure trivial
  | cons f rest ih =>
    obtain ⟨hf, hrest⟩ := List.forall_mem_cons.mp h
    rw [checkOverlaps, checkedStop_eq hf]
    refine .bind (P := (· = f.stop)) (meets_ok rfl) fun existingEnd heq => ?_
    subst heq
    refine meets_ite (fun _ => ih hrest _ _) fun _ => ?_
    exact (meets_compareOverlap hstop).bind fun len _ => ih hrest _ _

lemma cut_front {trim : ℕ} (h : trim ≤ data.length) :
    (if trim = 0 then pure data else slice data trim data.length : Checks Bytes) =
      .ok (data.drop trim) := by
  split_ifs with hzero
  · rw [hzero, List.drop_zero]
    rfl
  · rw [slice, range, if_pos ⟨h, le_rfl⟩, List.take_of_length_le (by rw [List.length_drop])]

/-- What is admitted is the part of the piece behind the offset, and its end is in front of the
limit. -/
structure Admitted (r : Reasm) (offset : ℕ) (data : Bytes) (maxOffset : ℕ) (piece : Fragment) :
    Prop where
  behind : r.recvOffset < offset + data.length
  limit : offset + data.length ≤ maxOffset ∧ offset + data.length ≤ u64Max
  piece_eq : piece = ⟨max offset r.recvOffset, data.drop (max offset r.recvOffset - offset)⟩

lemma stop_piece (h : r.recvOffset < offset + data.length) :
    Fragment.stop ⟨max offset r.recvOffset, data.drop (max offset r.recvOffset - offset)⟩ =
      offset + data.length := by
  rw [stop_eq]
  simp only [List.length_drop]
  omega

lemma Admitted.stop_eq (h : Admitted r offset data maxOffset piece) :
    piece.stop = offset + data.length := by
  rw [h.piece_eq, stop_piece h.behind]

/-- Nothing is put in when all of it was taken before. -/
def Admits (r : Reasm) (offset : ℕ) (data : Bytes) (maxOffset : ℕ) (result : Option Fragment) :
    Prop :=
  (result = none → offset + data.length ≤ r.recvOffset) ∧
    ∀ piece, result = some piece → Admitted r offset data maxOffset piece

lemma meets_admit (h : r.Sound) :
    Meets Handled (Admits r offset data maxOffset) (fresh r offset data maxOffset) := by
  refine .bind (P := fun stop => stop = offset + data.length ∧ stop ≤ u64Max) ?_
    fun stop hstop => ?_
  · refine meets_ite (fun hle => meets_ok ⟨rfl, hle⟩) fun _ => meets_refuse _
  obtain ⟨rfl, hle⟩ := hstop
  refine meets_ite (fun _ => meets_refuse _) fun hlimit => ?_
  refine meets_ite (fun hold => meets_pure ⟨fun _ => hold, fun _ h => by cases h⟩) fun hnew => ?_
  have hsome : ∀ piece, piece = (⟨max offset r.recvOffset,
      data.drop (max offset r.recvOffset - offset)⟩ : Fragment) →
      Admitted r offset data maxOffset piece :=
    fun piece hpiece => ⟨by omega, by omega, hpiece⟩
  dsimp only
  rw [sub_ok (le_max_left _ _)]
  refine .bind (P := (· = max offset r.recvOffset - offset)) (meets_ok rfl) fun trim htrim => ?_
  subst htrim
  rw [cut_front (by omega)]
  refine .bind (P := (· = data.drop (max offset r.recvOffset - offset))) (meets_ok rfl)
    fun rest hrest => ?_
  subst hrest
  refine .bind (meets_checkOverlaps ?_ h.stops 0 false) fun found _ => ?_
  · rw [List.length_drop]
    omega
  refine meets_ite (fun _ => meets_refuse _) fun _ => ?_
  refine meets_pure ⟨fun h => (by cases h), fun piece hpiece => hsome piece ?_⟩
  exact (Option.some.inj hpiece).symm

lemma mergeInto_eq {last : Fragment} (hmeets : ¬ last.stop < f.offset)
    (hall : ¬ last.stop - f.offset < f.data.length) : mergeInto (last :: acc) f = last :: acc := by
  rw [mergeInto, if_neg hmeets, List.drop_eq_nil_of_le (by omega), List.append_nil]

/-- The merging loop is `mergeInto` over the fragments. -/
theorem mergeFragments_eq (hsorted : fragments.Pairwise fun f g => f.offset ≤ g.offset)
    (h : Merging (fun f => f.stop ≤ u64Max) acc fragments) (hf : ∀ f ∈ fragments, f.stop ≤ u64Max) :
    mergeFragments acc fragments = .ok (fragments.foldl mergeInto acc).reverse := by
  induction fragments generalizing acc with
  | nil => cases acc <;> rfl
  | cons f rest ih =>
    obtain ⟨horder, hsorted⟩ := List.pairwise_cons.mp hsorted
    obtain ⟨hfirst, hrest⟩ := List.forall_mem_cons.mp hf
    have hstep := ih hsorted (h.step (joinClosed_stop _) hfirst horder) hrest
    rw [List.foldl_cons, ← hstep]
    cases acc with
    | nil => rfl
    | cons last merged =>
      rw [mergeFragments, checkedStop_eq (h.prop last List.mem_cons_self)]
      simp only [bind, Except.bind]
      by_cases hgap : last.stop < f.offset
      · rw [if_pos hgap, mergeInto, if_pos hgap]
      rw [if_neg hgap, sub_ok (Nat.le_of_not_lt hgap)]
      dsimp only
      by_cases hmore : last.stop - f.offset < f.data.length
      · rw [if_pos hmore, slice, range, if_pos ⟨hmore.le, le_rfl⟩]
        rw [List.take_of_length_le (by rw [List.length_drop]), mergeInto, if_neg hgap]
      · rw [if_neg hmore, mergeInto_eq hgap hmore]

/-- The last loop is `release`. -/
theorem drain_eq (recvOffset : ℕ) (out : Bytes) (hf : ∀ f ∈ fragments, f.stop ≤ u64Max) :
    drain recvOffset out fragments = ((release recvOffset fragments).2.1,
      .ok (out ++ (release recvOffset fragments).1, (release recvOffset fragments).2.2)) := by
  induction fragments generalizing recvOffset out with
  | nil => rw [drain, release, List.append_nil]
  | cons f rest ih =>
    obtain ⟨hfirst, hrest⟩ := List.forall_mem_cons.mp hf
    rw [drain, release]
    by_cases hgap : recvOffset < f.offset
    · rw [if_pos hgap, if_pos hgap, List.append_nil]
    rw [if_neg hgap, if_neg hgap, checkedStop_eq hfirst]
    dsimp only
    by_cases hold : f.stop ≤ recvOffset
    · rw [if_pos hold, if_pos hold]
      exact ih recvOffset out hrest
    have hend := stop_eq f
    have htail : tail recvOffset f = .ok (f.data.drop (recvOffset - f.offset)) := by
      rw [tail, sub_ok (Nat.le_of_not_lt hgap)]
      change slice f.data (recvOffset - f.offset) f.data.length = _
      rw [slice, range, if_pos ⟨by omega, le_rfl⟩]
      rw [List.take_of_length_le (by rw [List.length_drop])]
    rw [if_neg hold, if_neg hold, htail]
    dsimp only
    rw [ih f.stop _ hrest, List.append_assoc]

def Fragment.Has (f : Fragment) (n : ℕ) : Prop := f.offset ≤ n ∧ n < f.stop

/-- An offset whose byte is in one of the fragments. -/
def Covers (fragments : List Fragment) (n : ℕ) : Prop := ∃ f ∈ fragments, Fragment.Has f n

lemma covers_cons : Covers (f :: fragments) n ↔ Fragment.Has f n ∨ Covers fragments n := by
  simp [Covers]

lemma covers_nil : ¬ Covers [] n := fun h => Exists.elim h fun _ hf => absurd hf.1 List.not_mem_nil

lemma covers_append {more : List Fragment} :
    Covers (fragments ++ more) n ↔ Covers fragments n ∨ Covers more n := by
  simp [Covers, or_and_right, exists_or]

lemma covers_perm {more : List Fragment} (h : fragments.Perm more) :
    Covers fragments n ↔ Covers more n := by
  simp only [Covers, h.mem_iff]

/-- A fragment that is merged in is covered, and nothing else is new. -/
theorem covers_mergeInto (h : ∀ last ∈ acc, last.offset ≤ f.offset) :
    Covers (mergeInto acc f) n ↔ Covers acc n ∨ Fragment.Has f n := by
  cases acc with
  | nil => rw [mergeInto, covers_cons, or_comm]
  | cons last older =>
    have horder := h last List.mem_cons_self
    rw [mergeInto]
    split_ifs with hgap
    · rw [covers_cons, or_comm]
    have hjoin := stop_join (Nat.le_of_not_lt hgap)
    have hhas : Fragment.Has (join last f) n ↔ Fragment.Has last n ∨ Fragment.Has f n := by
      have hoffset : (join last f).offset = last.offset := rfl
      simp only [Fragment.Has, hoffset]
      omega
    change Covers (join last f :: older) n ↔ _
    rw [covers_cons, covers_cons]
    tauto

variable {P : Fragment → Prop}

/-- Fragments that are merged in order. -/
theorem covers_merged (hjoin : JoinClosed P)
    (hsorted : fragments.Pairwise fun f g => f.offset ≤ g.offset) (h : Merging P acc fragments)
    (hp : ∀ f ∈ fragments, P f) :
    Covers (fragments.foldl mergeInto acc) n ↔ Covers acc n ∨ Covers fragments n := by
  induction fragments generalizing acc with
  | nil => exact (or_iff_left covers_nil).symm
  | cons f rest ih =>
    obtain ⟨horder, hrest⟩ := List.pairwise_cons.mp hsorted
    obtain ⟨hfirst, hp⟩ := List.forall_mem_cons.mp hp
    rw [List.foldl_cons, ih hrest (h.step hjoin hfirst horder) hp,
      covers_mergeInto fun last hlast => h.order last hlast f List.mem_cons_self, covers_cons,
      or_assoc]

/-- What one call does to the buffer. -/
structure Pushed (r : Reasm) (piece : Fragment) (out : Bytes) (r' : Reasm) : Prop where
  sound : r'.Sound
  recvOffset : r'.recvOffset = r.recvOffset + out.length
  cover : ∀ n, (n < r'.recvOffset ∨ Covers r'.pending n) ↔
    (n < r.recvOffset ∨ Covers r.pending n) ∨ Fragment.Has piece n
  content : ∀ P, JoinClosed P → P piece → (∀ f ∈ r.pending, P f) →
    (out ≠ [] → P ⟨r.recvOffset, out⟩) ∧ ∀ f ∈ r'.pending, P f

/-- The result of the two loops. -/
def settle (sorting : Sorting) (r : Reasm) (piece : Fragment) : Bytes × Reasm :=
  let fragments := ((sorting.run (r.pending ++ [piece])).foldl mergeInto []).reverse
  let (out, recvOffset, remaining) := release r.recvOffset fragments
  (out, ⟨recvOffset, remaining, (remaining.map fun f => f.data.length).sum⟩)

lemma merging_nil : Merging P [] fragments :=
  ⟨.nil, fun _ h => absurd h List.not_mem_nil, fun _ h => absurd h List.not_mem_nil⟩

lemma forall_sorted (sorting : Sorting) (hp : ∀ f ∈ r.pending, P f) (hpiece : P piece) :
    ∀ f ∈ sorting.run (r.pending ++ [piece]), P f := by
  intro f hf
  rcases List.mem_append.mp ((sorting.perm _).mem_iff.mp hf) with hf | hf
  · exact hp f hf
  · rw [List.mem_singleton.mp hf]
    exact hpiece

lemma settle_pushed (sorting : Sorting) (h : r.Sound) (hstart : r.recvOffset ≤ piece.offset)
    (hstop : piece.stop ≤ u64Max) :
    Pushed r piece (settle sorting r piece).1 (settle sorting r piece).2 := by
  have hsorted := sorting.sorted (r.pending ++ [piece])
  set fragments := ((sorting.run (r.pending ++ [piece])).foldl mergeInto []).reverse
  have hmerged : ∀ P, JoinClosed P → (∀ f ∈ r.pending, P f) → P piece →
      Gapped fragments ∧ ∀ f ∈ fragments, P f := by
    intro P hjoin hp hpiece
    have hrun := merging_nil.run hjoin hsorted (forall_sorted sorting hp hpiece)
    exact ⟨List.pairwise_reverse.mpr hrun.gaps, fun f hf => hrun.prop f (List.mem_reverse.mp hf)⟩
  have hfromJoin : JoinClosed fun f : Fragment => r.recvOffset ≤ f.offset := fun _ _ ha _ _ _ => ha
  have hbehind : ∀ f ∈ r.pending, r.recvOffset ≤ f.offset := fun f hf => (h.behind f hf).le
  obtain ⟨hgapped, hfrom⟩ := hmerged _ hfromJoin hbehind hstart
  have hstops := (hmerged _ (joinClosed_stop _) h.stops hstop).2
  have hcover : ∀ n, Covers fragments n ↔ Covers r.pending n ∨ Fragment.Has piece n := by
    intro n
    rw [covers_perm (List.reverse_perm _), covers_merged hfromJoin hsorted merging_nil
      (forall_sorted sorting hbehind hstart), or_iff_right covers_nil, covers_perm (sorting.perm _),
      covers_append, covers_cons, or_iff_left covers_nil]
  have hcontent : ∀ P, JoinClosed P → P piece → (∀ f ∈ r.pending, P f) → ∀ f ∈ fragments, P f :=
    fun P hjoin hpiece hp => (hmerged P hjoin hp hpiece).2
  unfold settle
  dsimp only
  rcases release_cases hgapped hfrom with ⟨hall, hrelease⟩ | ⟨f, rest, hfirst, hhere, hrelease⟩
  · rw [hrelease]
    refine ⟨⟨⟨hgapped, hall, rfl⟩, hstops⟩, rfl, fun n => ?_, fun P hjoin hpiece hp => ?_⟩
    · rw [hcover, or_assoc]
    · exact ⟨fun hne => absurd rfl hne, hcontent P hjoin hpiece hp⟩
  rw [hrelease]
  rw [hfirst] at hgapped hstops hcover hcontent
  obtain ⟨hgap, hrest⟩ := List.pairwise_cons.mp hgapped
  refine ⟨⟨⟨hrest, hgap, rfl⟩, fun g hg => hstops g (List.mem_cons_of_mem _ hg)⟩, ?_, fun n => ?_,
    fun P hjoin hpiece hp => ?_⟩
  · rw [stop_eq, hhere]
  · have hlast := offset_le_stop f
    have hhas : n < f.stop ↔ n < r.recvOffset ∨ Fragment.Has f n := by
      simp only [Fragment.Has]
      omega
    rw [hhas, or_assoc, ← covers_cons, hcover, or_assoc]
  · obtain ⟨hf, hall⟩ := List.forall_mem_cons.mp (hcontent P hjoin hpiece hp)
    refine ⟨fun _ => ?_, hall⟩
    rw [← hhere]
    exact hf

lemma pushChecked_piece (h : r.Sound) (hnew : fresh r offset data maxOffset = .ok (some piece))
    (hpiece : Admitted r offset data maxOffset piece) :
    pushChecked sorting r offset data maxOffset =
      (.ok (settle sorting r piece).1, (settle sorting r piece).2) := by
  have hstop : piece.stop ≤ u64Max := hpiece.stop_eq.trans_le hpiece.limit.2
  have hall := forall_sorted sorting h.stops hstop
  have hmerge := mergeFragments_eq (sorting.sorted (r.pending ++ [piece])) merging_nil hall
  have hmerged : ∀ f ∈ ((sorting.run (r.pending ++ [piece])).foldl mergeInto []).reverse,
      f.stop ≤ u64Max := by
    intro f hf
    exact (merging_nil.run (joinClosed_stop _) (sorting.sorted _) hall).prop f (List.mem_reverse.mp hf)
  unfold pushChecked
  rw [hnew]
  dsimp only
  rw [hmerge]
  dsimp only
  rw [drain_eq _ _ hmerged]
  rfl

/-- A call that is refused changes nothing, no access fails, and one that is accepted puts its
piece in. -/
structure Answered (r : Reasm) (offset : ℕ) (data : Bytes) (maxOffset : ℕ)
    (result : Checks Bytes × Reasm) : Prop where
  handled : ∀ fault, result.1 = .error fault → Handled fault
  unchanged : ∀ fault, result.1 = .error fault → result.2 = r
  accepted : ∀ out, result.1 = .ok out →
    (out = [] ∧ result.2 = r ∧ offset + data.length ≤ r.recvOffset) ∨
    r.recvOffset < offset + data.length ∧ offset + data.length ≤ maxOffset ∧
      Pushed r ⟨max offset r.recvOffset, data.drop (max offset r.recvOffset - offset)⟩ out result.2

lemma pushChecked_answered (h : r.Sound) :
    Answered r offset data maxOffset (pushChecked sorting r offset data maxOffset) := by
  have hmeets : Meets Handled (Admits r offset data maxOffset) (fresh r offset data maxOffset) :=
    meets_admit h
  cases hnew : fresh r offset data maxOffset with
  | error fault =>
    have hpush : pushChecked sorting r offset data maxOffset = (.error fault, r) := by
      rw [pushChecked, hnew]
    rw [hpush]
    refine ⟨fun other hother => ?_, fun _ _ => rfl, fun out hout => (by cases hout)⟩
    cases hother
    exact hmeets.errors fault hnew
  | ok result =>
    obtain ⟨hnone, hsome⟩ := hmeets.values result hnew
    cases result with
    | none =>
      have hpush : pushChecked sorting r offset data maxOffset = (.ok [], r) := by
        rw [pushChecked, hnew]
      rw [hpush]
      refine ⟨fun _ hother => (by cases hother), fun _ _ => rfl, fun out hout => ?_⟩
      cases hout
      exact .inl ⟨rfl, rfl, hnone rfl⟩
    | some piece =>
      have hpiece := hsome piece rfl
      have hstop := hpiece.stop_eq.trans_le hpiece.limit.2
      have hstart : r.recvOffset ≤ piece.offset := by
        rw [hpiece.piece_eq]
        exact le_max_right _ _
      rw [pushChecked_piece h hnew hpiece]
      refine ⟨fun _ hother => (by cases hother), fun _ hother => (by cases hother), fun out hout => ?_⟩
      cases hout
      have hpushed := settle_pushed sorting h hstart hstop
      rw [hpiece.piece_eq] at hpushed ⊢
      exact .inr ⟨hpiece.behind, hpiece.limit.1, hpushed⟩

lemma pushChecked_ok_iff (h : r.Sound) :
    (∃ out, (pushChecked sorting r offset data maxOffset).1 = .ok out) ↔
      ∃ piece, fresh r offset data maxOffset = .ok piece := by
  have hmeets : Meets Handled (Admits r offset data maxOffset) (fresh r offset data maxOffset) :=
    meets_admit h
  cases hnew : fresh r offset data maxOffset with
  | error fault => simp [pushChecked, hnew]
  | ok result =>
    cases result with
    | none => simp [pushChecked, hnew]
    | some piece => simp [pushChecked_piece h hnew ((hmeets.values _ hnew).2 piece rfl)]

structure Call where
  offset : ℕ
  data : Bytes
  maxOffset : ℕ

/-- A buffer with all that it gave, and the calls it accepted. -/
structure History where
  reasm : Reasm
  output : Bytes
  accepted : List Call

def next (sorting : Sorting) (s : History) (call : Call) : History :=
  let (result, r) := pushChecked sorting s.reasm call.offset call.data call.maxOffset
  match result with
  | .ok out => ⟨r, s.output ++ out, call :: s.accepted⟩
  | .error _ => { s with reasm := r }

def run (sorting : Sorting) (calls : List Call) : History :=
  calls.foldl (next sorting) ⟨empty, [], []⟩

/-- An offset whose byte a call gave. -/
def Given (calls : List Call) (n : ℕ) : Prop :=
  ∃ call ∈ calls, call.offset ≤ n ∧ n < call.offset + call.data.length

lemma given_cons {call : Call} {calls : List Call} : Given (call :: calls) n ↔
    (call.offset ≤ n ∧ n < call.offset + call.data.length) ∨ Given calls n := by
  simp [Given]

/-- What holds of a run over pieces of one whole. -/
structure Whole (whole : Bytes) (s : History) : Prop where
  sound : s.reasm.Sound
  output : s.output = whole.take s.reasm.recvOffset
  length : s.reasm.recvOffset ≤ whole.length
  pieces : ∀ f ∈ s.reasm.pending, IsSlice whole f.offset f.data
  cover : ∀ n, (n < s.reasm.recvOffset ∨ Covers s.reasm.pending n) ↔ Given s.accepted n

variable {whole : Bytes} {s : History} {call : Call}

lemma next_error {fault : Fault QuicError}
    (h : (pushChecked sorting s.reasm call.offset call.data call.maxOffset).1 = .error fault) :
    next sorting s call = { s with reasm :=
      (pushChecked sorting s.reasm call.offset call.data call.maxOffset).2 } := by
  unfold next
  dsimp only
  rw [h]

lemma next_ok (h : (pushChecked sorting s.reasm call.offset call.data call.maxOffset).1 = .ok out) :
    next sorting s call =
      ⟨(pushChecked sorting s.reasm call.offset call.data call.maxOffset).2, s.output ++ out,
        call :: s.accepted⟩ := by
  unfold next
  dsimp only
  rw [h]

lemma Sound.next (h : s.reasm.Sound) : (Reasm.next sorting s call).reasm.Sound := by
  have hanswer : Answered s.reasm call.offset call.data call.maxOffset
      (pushChecked sorting s.reasm call.offset call.data call.maxOffset) := pushChecked_answered h
  cases hresult : (pushChecked sorting s.reasm call.offset call.data call.maxOffset).1 with
  | error fault =>
    rw [next_error hresult, hanswer.unchanged fault hresult]
    exact h
  | ok out =>
    rw [next_ok hresult]
    rcases hanswer.accepted out hresult with ⟨-, hsame, -⟩ | ⟨-, -, hpushed⟩
    · rw [hsame]
      exact h
    · exact hpushed.sound

lemma isSlice_join (whole : Bytes) :
    JoinClosed fun f => f.stop ≤ whole.length ∧ Agrees (fun i => whole[i]?.getD 0) f := by
  intro a b ha hb horder hmeets
  refine ⟨joinClosed_stop _ a b ha.1 hb.1 horder hmeets, ?_⟩
  exact agrees_join _ a b ha.2 hb.2 horder hmeets

lemma isSlice_iff {f : Fragment} : IsSlice whole f.offset f.data ↔
    f.stop ≤ whole.length ∧ Agrees (fun i => whole[i]?.getD 0) f :=
  ⟨fun h => ⟨h.le_length, h.agrees⟩, fun h => .of_agrees h.1 h.2⟩

lemma Whole.accept (h : Whole whole s) (hslice : IsSlice whole call.offset call.data) {r' : Reasm}
    (hpushed : Pushed s.reasm ⟨max call.offset s.reasm.recvOffset, call.data.drop
      (max call.offset s.reasm.recvOffset - call.offset)⟩ out r')
    (hnew : s.reasm.recvOffset < call.offset + call.data.length) :
    Whole whole ⟨r', s.output ++ out, call :: s.accepted⟩ := by
  have hpieces : ∀ f ∈ s.reasm.pending,
      f.stop ≤ whole.length ∧ Agrees (fun i => whole[i]?.getD 0) f :=
    fun f hf => isSlice_iff.mp (h.pieces f hf)
  have hcut := hslice.cut (max call.offset s.reasm.recvOffset - call.offset)
    (call.data.length - (max call.offset s.reasm.recvOffset - call.offset)) (by omega)
  rw [List.take_of_length_le (by rw [List.length_drop]),
    show call.offset + (max call.offset s.reasm.recvOffset - call.offset) =
      max call.offset s.reasm.recvOffset by omega] at hcut
  obtain ⟨hout, hpending⟩ := hpushed.content _ (isSlice_join whole) (isSlice_iff.mp hcut) hpieces
  have hoffset := hpushed.recvOffset
  refine ⟨hpushed.sound, ?_, ?_, fun f hf => isSlice_iff.mpr (hpending f hf), fun n => ?_⟩
  · rw [hoffset, h.output]
    by_cases hnil : out = []
    · rw [hnil, List.append_nil, List.length_nil, add_zero]
    · have houtSlice : IsSlice whole s.reasm.recvOffset out := isSlice_iff.mpr (hout hnil)
      exact houtSlice.take_append.symm
  · by_cases hnil : out = []
    · rw [hoffset, hnil]
      exact h.length
    · rw [hoffset]
      exact (hout hnil).1
  rw [hpushed.cover, h.cover, given_cons, or_comm (b := Given _ _)]
  have hlow := h.cover n
  simp only [Fragment.Has, stop_piece hnew]
  constructor
  · rintro (hgiven | hpiece)
    · exact .inl hgiven
    · exact .inr ⟨by omega, hpiece.2⟩
  rintro (hgiven | hpiece)
  · exact .inl hgiven
  · by_cases hbehind : n < s.reasm.recvOffset
    · exact .inl (hlow.mp (.inl hbehind))
    · exact .inr ⟨by omega, hpiece.2⟩

lemma Whole.repeated (h : Whole whole s)
    (hold : call.offset + call.data.length ≤ s.reasm.recvOffset) :
    Whole whole ⟨s.reasm, s.output ++ [], call :: s.accepted⟩ := by
  refine ⟨h.sound, ?_, h.length, h.pieces, fun n => ?_⟩
  · rw [List.append_nil]
    exact h.output
  have hlow := h.cover n
  dsimp only
  rw [given_cons, ← hlow]
  constructor
  · exact .inr
  · rintro (hcall | hbefore)
    · exact .inl (by omega)
    · exact hbefore

lemma Whole.next (h : Whole whole s) (hslice : IsSlice whole call.offset call.data) :
    Whole whole (Reasm.next sorting s call) := by
  have hanswer : Answered s.reasm call.offset call.data call.maxOffset
      (pushChecked sorting s.reasm call.offset call.data call.maxOffset) :=
    pushChecked_answered h.sound
  cases hresult : (pushChecked sorting s.reasm call.offset call.data call.maxOffset).1 with
  | error fault =>
    rw [next_error hresult, hanswer.unchanged fault hresult]
    exact h
  | ok out =>
    rw [next_ok hresult]
    rcases hanswer.accepted out hresult with ⟨rfl, hsame, hold⟩ | ⟨hnew, -, hpushed⟩
    · rw [hsame]
      exact h.repeated hold
    · exact h.accept hslice hpushed hnew

lemma whole_empty (whole : Bytes) : Whole whole ⟨empty, [], []⟩ := by
  refine ⟨⟨wf_empty, fun _ hf => absurd hf List.not_mem_nil⟩, rfl, zero_le _,
    fun _ hf => absurd hf List.not_mem_nil, fun n => ?_⟩
  refine iff_of_false ?_ fun h => Exists.elim h fun _ hc => absurd hc.1 List.not_mem_nil
  rintro (hlt | hcover)
  · exact absurd hlt (not_lt_zero n)
  · exact covers_nil hcover

lemma run_sound (sorting : Sorting) (calls : List Call) : (run sorting calls).reasm.Sound :=
  List.foldlRecOn (motive := fun s : History => s.reasm.Sound) calls (next sorting)
    (whole_empty []).sound fun _ hs _ _ => hs.next

lemma run_whole (sorting : Sorting) {calls : List Call}
    (h : ∀ call ∈ calls, IsSlice whole call.offset call.data) :
    Whole whole (run sorting calls) :=
  List.foldlRecOn (motive := Whole whole) calls (next sorting) (whole_empty whole)
    fun _ hs call hcall => hs.next (h call hcall)

/-- What came out and what waits after pieces of one whole. -/
structure Exact (whole : Bytes) (s : History) : Prop where
  output : s.output = whole.take s.reasm.recvOffset
  /-- The offset is the end of the longest prefix without a gap. -/
  through : ∀ n, n < s.reasm.recvOffset → Given s.accepted n
  stuck : ¬ Given s.accepted s.reasm.recvOffset
  /-- What waits is what was given behind it, with the bytes of the whole. -/
  waiting : ∀ n, Covers s.reasm.pending n ↔ Given s.accepted n ∧ s.reasm.recvOffset ≤ n
  pieces : ∀ f ∈ s.reasm.pending, IsSlice whole f.offset f.data
  gapped : Gapped s.reasm.pending
  bytes : s.reasm.pendingBytes = (s.reasm.pending.map fun f => f.data.length).sum

lemma Whole.exact (h : Whole whole s) : Exact whole s := by
  have hbehind : ∀ n, Covers s.reasm.pending n → s.reasm.recvOffset < n := by
    rintro n ⟨f, hf, hhas⟩
    exact (h.sound.behind f hf).trans_le hhas.1
  refine ⟨h.output, fun n hn => (h.cover n).mp (.inl hn), fun hgiven => ?_, fun n => ?_, h.pieces,
    h.sound.gapped, h.sound.bytes⟩
  · rcases (h.cover _).mpr hgiven with hlt | hcover
    · exact absurd hlt (lt_irrefl _)
    · exact absurd (hbehind _ hcover) (lt_irrefl _)
  · rw [← h.cover n]
    constructor
    · exact fun hcover => ⟨.inr hcover, (hbehind n hcover).le⟩
    · exact fun hn => hn.1.resolve_left (not_lt.mpr hn.2)

section Acceptance

variable {limit : ℕ}

lemma isSlice_unique {data' : Bytes} (h : IsSlice whole offset data)
    (h' : IsSlice whole offset data') (hlen : data.length = data'.length) : data = data' := by
  obtain ⟨before, after, rfl, hbefore⟩ := h
  obtain ⟨before', after', heq, hbefore'⟩ := h'
  have hrest := (List.append_inj heq (hbefore.trans hbefore'.symm)).2
  exact (List.append_inj hrest hlen).1

/-- What a piece and a fragment of one whole have in common is equal. -/
lemma compareOverlap_eq (hstop : stop = start + data.length) (hdata : IsSlice whole start data)
    (hf : IsSlice whole f.offset f.data) :
    compareOverlap start stop data f f.stop = .ok (overlap start stop f) := by
  unfold compareOverlap
  dsimp only
  have hend := stop_eq f
  split_ifs with hlt
  · have hincoming := hdata.cut (max start f.offset - start)
      (min stop f.stop - max start f.offset) (by omega)
    have hexisting := hf.cut (max start f.offset - f.offset)
      (min stop f.stop - max start f.offset) (by omega)
    rw [Nat.add_sub_cancel' (le_max_left _ _)] at hincoming
    rw [Nat.add_sub_cancel' (le_max_right _ _)] at hexisting
    have hsame := isSlice_unique hincoming hexisting (by
      rw [List.length_take, List.length_take, List.length_drop, List.length_drop]
      omega)
    rw [sub_ok (le_max_left _ _), sub_ok (le_max_right _ _), sub_ok hlt.le]
    simp only [bind, Except.bind, slice]
    rw [range, if_pos ⟨le_add_right _ _, by omega⟩, range, if_pos ⟨le_add_right _ _, by omega⟩,
      Nat.add_sub_cancel_left, Nat.add_sub_cancel_left]
    exact if_neg (not_not.mpr hsame)
  · rw [overlap, Nat.sub_eq_zero_of_le (Nat.le_of_not_lt hlt)]
    rfl

lemma checkOverlaps_eq (hstop : stop = start + data.length) (hdata : IsSlice whole start data)
    (hstops : ∀ f ∈ fragments, f.stop ≤ u64Max)
    (hslices : ∀ f ∈ fragments, IsSlice whole f.offset f.data) (bytes : ℕ) (touched : Bool) :
    checkOverlaps start stop data fragments bytes touched =
      .ok (bytes + (fragments.map (overlap start stop)).sum,
        touched || fragments.any (touches start stop)) := by
  induction fragments generalizing bytes touched with
  | nil => simp [checkOverlaps, pure, Except.pure]
  | cons f rest ih =>
    obtain ⟨hf, hrest⟩ := List.forall_mem_cons.mp hstops
    obtain ⟨hslice, hslices⟩ := List.forall_mem_cons.mp hslices
    rw [checkOverlaps, checkedStop_eq hf]
    simp only [bind, Except.bind, compareOverlap_eq hstop hdata hslice, ih hrest hslices]
    by_cases hfar : f.stop < start ∨ stop < f.offset
    · have htouches : touches start stop f = false := by
        simpa [touches, or_iff_not_imp_left] using hfar
      simp [hfar, htouches, overlap_of_not_touches htouches]
    · have htouches : touches start stop f = true := by simpa [touches] using hfar
      simp [hfar, htouches, add_assoc]

/-- A piece is taken up just when it is in front of the limits and is not one fragment too many. -/
theorem fresh_accepts (h : Whole whole s) (hslice : IsSlice whole offset data)
    (hlimit : ∀ f ∈ s.reasm.pending, f.stop ≤ maxOffset) :
    (∃ piece, fresh s.reasm offset data maxOffset = .ok piece) ↔
      (offset + data.length ≤ maxOffset ∧ offset + data.length ≤ u64Max) ∧
        s.reasm.crowded offset (offset + data.length) = false := by
  unfold fresh checkedStop
  rw [stop_eq]
  dsimp only
  split_ifs with hmax
  swap
  · simp [refuse, bind, Except.bind, hmax]
  simp only [bind, Except.bind]
  split_ifs with hfar hold
  · simp [refuse, show ¬ offset + data.length ≤ maxOffset by omega]
  · have hnew : ¬ s.reasm.recvOffset < offset + data.length := by omega
    simp [crowded, pure, Except.pure, hnew, hmax, show offset + data.length ≤ maxOffset by omega]
  set start := max offset s.reasm.recvOffset with hstart
  have hpiece := hslice.cut (start - offset) (data.length - (start - offset)) (by omega)
  rw [List.take_of_length_le (by rw [List.length_drop]),
    Nat.add_sub_cancel' (le_max_left _ _)] at hpiece
  have hlen : (data.drop (start - offset)).length = offset + data.length - start := by
    rw [List.length_drop]
    omega
  have hroom := pendingBytes_le h.sound.toWf (le_max_right offset s.reasm.recvOffset) (by omega)
    (show offset + data.length ≤ maxOffset by omega) hlimit
  rw [sub_ok (le_max_left _ _)]
  dsimp only
  rw [cut_front (by omega)]
  dsimp only
  rw [checkOverlaps_eq (by omega) hpiece h.sound.stops h.pieces, hlen]
  dsimp only
  have hcrowded : s.reasm.crowded offset (offset + data.length) = false ↔
      ¬(maxPendingFragments ≤ s.reasm.pending.length ∧
        (false || s.reasm.pending.any (touches start (offset + data.length))) = false) := by
    rw [crowded, ← hstart]
    simp [show s.reasm.recvOffset < offset + data.length by omega]
  rw [hcrowded]
  split_ifs with hfull
  · have hmany := hfull.resolve_left (by omega)
    simp only [refuse, reduceCtorEq, exists_false, false_iff]
    exact fun h => h.2 hmany
  · rw [not_or] at hfull
    simp only [pure, Except.pure, Except.ok.injEq, exists_eq', true_iff]
    exact ⟨⟨by omega, hmax⟩, hfull.2⟩

/-- Fragments stay in front of what every call was in front of. -/
lemma run_stops {calls : List Call} (h : ∀ call ∈ calls, call.maxOffset ≤ limit) :
    ∀ f ∈ (run sorting calls).reasm.pending, f.stop ≤ limit := by
  refine (List.foldlRecOn (motive := fun s : History => s.reasm.Sound ∧
    ∀ f ∈ s.reasm.pending, f.stop ≤ limit) calls (next sorting)
    ⟨(whole_empty []).sound, fun _ hf => absurd hf List.not_mem_nil⟩
    fun s hs call hcall => ⟨hs.1.next, ?_⟩).2
  have hanswer : Answered s.reasm call.offset call.data call.maxOffset
      (pushChecked sorting s.reasm call.offset call.data call.maxOffset) :=
    pushChecked_answered hs.1
  cases hresult : (pushChecked sorting s.reasm call.offset call.data call.maxOffset).1 with
  | error fault =>
    rw [next_error hresult, hanswer.unchanged fault hresult]
    exact hs.2
  | ok out =>
    rw [next_ok hresult]
    rcases hanswer.accepted out hresult with ⟨-, hsame, -⟩ | ⟨hnew, hfront, hpushed⟩
    · rw [hsame]
      exact hs.2
    · refine (hpushed.content _ (joinClosed_stop limit) ?_ hs.2).2
      rw [stop_piece hnew]
      exact hfront.trans (h call hcall)

end Acceptance

/-- Pieces of a whole come out as its bytes in order. One whose limit is none below an earlier one
is accepted just when it ends in front of the limit and does not have to wait apart from too many
others. Whatever was given to a buffer before, no access of a call fails, and one that is refused
changes nothing. -/
theorem reassembly_exact (sorting : Sorting) :
    (∀ (whole : Bytes) (calls : List Call), (∀ call ∈ calls, IsSlice whole call.offset call.data) →
      Exact whole (run sorting calls) ∧
      ∀ offset data maxOffset, IsSlice whole offset data →
        (∀ call ∈ calls, call.maxOffset ≤ maxOffset) →
        ((∃ out, (pushChecked sorting (run sorting calls).reasm offset data maxOffset).1 = .ok out) ↔
          (offset + data.length ≤ maxOffset ∧ offset + data.length ≤ u64Max) ∧
            (run sorting calls).reasm.crowded offset (offset + data.length) = false)) ∧
    ∀ (calls : List Call) (offset : ℕ) (data : Bytes) (maxOffset : ℕ) (fault : Fault QuicError),
      (pushChecked sorting (run sorting calls).reasm offset data maxOffset).1 = .error fault →
        Handled fault ∧ (pushChecked sorting (run sorting calls).reasm offset data maxOffset).2 =
          (run sorting calls).reasm := by
  refine ⟨fun whole calls hcalls => ⟨(run_whole sorting hcalls).exact,
    fun offset data maxOffset hslice hlimit => ?_⟩,
    fun calls offset data maxOffset fault hfault => ?_⟩
  · rw [pushChecked_ok_iff (run_sound sorting calls),
      fresh_accepts (run_whole sorting hcalls) hslice (run_stops hlimit)]
  have hanswer : Answered (run sorting calls).reasm offset data maxOffset
      (pushChecked sorting (run sorting calls).reasm offset data maxOffset) :=
    pushChecked_answered (run_sound sorting calls)
  exact ⟨hanswer.handled fault hfault, hanswer.unchanged fault hfault⟩

/-- The bytes 1 to 8 in pieces that come early, nest, repeat, touch on both sides and bridge. -/
def pieces : List Call :=
  [⟨3, [4, 5], 6⟩, ⟨7, [8], 8⟩, ⟨2, [3, 4, 5, 6], 8⟩, ⟨3, [4], 8⟩, ⟨0, [1], 8⟩, ⟨0, [1, 2, 3], 8⟩,
    ⟨1, [2, 3], 8⟩]

theorem reassembly_exact_pieces :
    Exact [1, 2, 3, 4, 5, 6, 7, 8] (run .stable pieces) ∧
      (run .stable pieces).output = [1, 2, 3, 4, 5, 6] ∧
      (run .stable pieces).reasm = ⟨6, [⟨7, [8]⟩], 1⟩ ∧
      (∃ out, (pushChecked .stable (run .stable pieces).reasm 5 [6, 7, 8] 8).1 = .ok out) ∧
      (pushChecked .stable (run .stable pieces).reasm 6 [7, 9] 8).1 = .error (.refused .frame) ∧
      (pushChecked .stable (run .stable pieces).reasm 6 [7, 9] 8).2 =
        (run .stable pieces).reasm := by
  have hslices : ∀ call ∈ pieces, IsSlice [1, 2, 3, 4, 5, 6, 7, 8] call.offset call.data := by
    simp only [pieces, List.forall_mem_cons]
    refine ⟨⟨[1, 2, 3], [6, 7, 8], rfl, rfl⟩, ⟨[1, 2, 3, 4, 5, 6, 7], [], rfl, rfl⟩,
      ⟨[1, 2], [7, 8], rfl, rfl⟩, ⟨[1, 2, 3], [5, 6, 7, 8], rfl, rfl⟩,
      ⟨[], [2, 3, 4, 5, 6, 7, 8], rfl, rfl⟩, ⟨[], [4, 5, 6, 7, 8], rfl, rfl⟩,
      ⟨[1], [4, 5, 6, 7, 8], rfl, rfl⟩, fun _ h => absurd h List.not_mem_nil⟩
  have hreasm : (run .stable pieces).reasm = ⟨6, [⟨7, [8]⟩], 1⟩ := by decide +kernel
  obtain ⟨hexact, haccepts⟩ := (reassembly_exact .stable).1 _ pieces hslices
  refine ⟨hexact, by decide +kernel, hreasm, ?_, ?_⟩
  · refine (haccepts 5 [6, 7, 8] 8 ⟨[1, 2, 3, 4, 5], [], rfl, rfl⟩ (by decide)).mpr ?_
    rw [hreasm]
    decide
  · have hrefused : (pushChecked .stable (run .stable pieces).reasm 6 [7, 9] 8).1 =
        .error (.refused .frame) := by decide +kernel
    exact ⟨hrefused, ((reassembly_exact .stable).2 pieces 6 [7, 9] 8 _ hrefused).2⟩

end OnetDns.Quic.Reasm
