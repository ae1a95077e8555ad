import OnetDns.Lib.Checked
import OnetDns.Lib.NatRuns
import OnetDns.Quic.FrameCodec
import OnetDns.Quic.Transport

/-!
# What an acknowledgement says

`build_ack`, `ack_ranges` and `on_ack` of `onetdns-quic/src/conn.rs`. The numbers are walked from the
largest down, so that an index is the list of the numbers below it, and a difference that would be
negative is a failure.
-/
namespace OnetDns.Quic.Codec
open Checked NatRuns Transport Transport.Connection List

def dedup : List ℕ → List ℕ
  | a :: b :: rest => if a = b then dedup (b :: rest) else a :: dedup (b :: rest)
  | ns => ns

/-- `while i > 0 && sorted[i - 1] + 1 == sorted[i]`: the steps, the number it ends at, and those
below. -/
def runDown : (steps low : ℕ) → List ℕ → ℕ × ℕ × List ℕ
  | steps, low, [] => (steps, low, [])
  | steps, low, next :: below =>
    if next + 1 = low then runDown (steps + 1) next below else (steps, low, next :: below)

/-- The loop of `build_ack`, with the number of ranges there is room for. -/
def ackLoop : (room previousLow : ℕ) → List ℕ → Except (Fault Empty) (List (ℕ × ℕ))
  | 0, _, _ => .ok []
  | _ + 1, _, [] => .ok []
  | room + 1, previousLow, nextHigh :: below => do
    let run := runDown 0 nextHigh below
    let gap ← sub previousLow nextHigh
    let gap ← sub gap 2
    let len ← sub nextHigh run.2.1
    let ranges ← ackLoop room run.2.1 run.2.2
    return (gap, len) :: ranges

def buildAck (recvPns : List ℕ) : Except (Fault Empty) (Option Frame) :=
  match (dedup (recvPns.mergeSort (· ≤ ·))).reverse with
  | [] => .ok none
  | largest :: below => do
    let run := runDown 0 largest below
    let ranges ← ackLoop maxAckRanges run.2.1 run.2.2
    return some (.ack largest 0 run.1 ranges)

variable {ns below : List ℕ} {n low high room : ℕ} {c c' : Transport.Connection} {x : Space}

lemma mem_dedup (ns : List ℕ) : n ∈ dedup ns ↔ n ∈ ns := by
  induction ns with
  | nil => exact Iff.rfl
  | cons a rest ih =>
    cases rest with
    | nil => exact Iff.rfl
    | cons b rest =>
      rw [dedup]
      split_ifs with hab
      · rw [ih, hab]
        simp
      · rw [mem_cons, ih, mem_cons (b := a)]

lemma dedup_increasing (h : ns.Pairwise (· ≤ ·)) : (dedup ns).Pairwise (· < ·) := by
  induction ns with
  | nil => exact Pairwise.nil
  | cons a rest ih =>
    cases rest with
    | nil => exact pairwise_singleton _ _
    | cons b rest =>
      obtain ⟨hle, hrest⟩ := pairwise_cons.mp h
      rw [dedup]
      split_ifs with hab
      · exact ih hrest
      refine pairwise_cons.mpr ⟨fun m hm => ?_, ih hrest⟩
      have hb := hle b mem_cons_self
      have hbm : b ≤ m := by
        rcases mem_cons.mp ((mem_dedup _).mp hm) with rfl | hm
        · exact le_rfl
        · exact (pairwise_cons.mp hrest).1 m hm
      omega

lemma descending (recvPns : List ℕ) :
    ((dedup (recvPns.mergeSort (· ≤ ·))).reverse).Pairwise (· > ·) ∧
      ∀ n, n ∈ (dedup (recvPns.mergeSort (· ≤ ·))).reverse ↔ n ∈ recvPns := by
  refine ⟨pairwise_reverse.mpr (dedup_increasing ?_), fun n => ?_⟩
  · have hsorted := pairwise_mergeSort' (· ≤ ·) recvPns
    exact hsorted
  · rw [mem_reverse, mem_dedup, mem_mergeSort]

/-- A run is walked to its end, and a gap is below it. -/
structure RanDown (steps high : ℕ) (ns : List ℕ) (r : ℕ × ℕ × List ℕ) : Prop where
  steps_eq : r.1 + r.2.1 = steps + high
  low_le : r.2.1 ≤ high
  sorted : r.2.2.Pairwise (· > ·)
  below : ∀ n ∈ r.2.2, n + 2 ≤ r.2.1
  members : (high :: ns).toFinset = Finset.Icc r.2.1 high ∪ r.2.2.toFinset

lemma ranDown (h : (high :: ns).Pairwise (· > ·)) (steps : ℕ) :
    RanDown steps high ns (runDown steps high ns) := by
  induction ns generalizing high steps with
  | nil =>
    refine ⟨rfl, le_rfl, Pairwise.nil, fun _ hn => absurd hn not_mem_nil, ?_⟩
    simp [runDown]
  | cons next ns ih =>
    obtain ⟨hlt, hrest⟩ := pairwise_cons.mp h
    have hnext := hlt next mem_cons_self
    rw [runDown]
    split_ifs with hadj
    · have hrun := ih hrest (steps + 1)
      have hsteps := hrun.steps_eq
      have hle := hrun.low_le
      refine ⟨by omega, by omega, hrun.sorted, hrun.below, ?_⟩
      rw [toFinset_cons, hrun.members, ← Finset.insert_union]
      congr 1
      ext m
      simp only [Finset.mem_insert, Finset.mem_Icc]
      omega
    · refine ⟨rfl, le_rfl, hrest, fun m hm => ?_, ?_⟩
      · dsimp only at hm ⊢
        rcases mem_cons.mp hm with rfl | hm
        · omega
        · have := (pairwise_cons.mp hrest).1 m hm
          omega
      · rw [Finset.Icc_self, toFinset_cons]
        rfl

/-- The numbers in the union of ranges. -/
def Covered (ranges : List (ℕ × ℕ)) (n : ℕ) : Prop := ∃ r ∈ ranges, r.1 ≤ n ∧ n ≤ r.2

variable {ranges : List (ℕ × ℕ)}

lemma covered_cons {r : ℕ × ℕ} :
    Covered (r :: ranges) n ↔ (r.1 ≤ n ∧ n ≤ r.2) ∨ Covered ranges n := by
  simp [Covered]

/-- Ranges that stand for the highest runs of the numbers below one that is known. -/
structure Ranges (room low : ℕ) (ns : List ℕ) (ranges : List (ℕ × ℕ)) : Prop where
  length_le : ranges.length ≤ room
  small : ∀ r ∈ ranges, r.1 ≤ low ∧ r.2 ≤ low
  expand : ∃ acked, moreRanges low ranges = some acked ∧
    ∀ n, Covered acked n ↔ n ∈ highest ns.toFinset room

lemma ackLoop_cons {run : ℕ × ℕ × List ℕ} (hrun : runDown 0 high ns = run)
    (hhigh : high + 2 ≤ low) (hle : run.2.1 ≤ high) : ackLoop (room + 1) low (high :: ns) =
      (ackLoop room run.2.1 run.2.2).map ((low - high - 2, high - run.2.1) :: ·) := by
  rw [ackLoop, hrun, sub_ok (show high ≤ low by omega)]
  simp only [bind, Except.bind]
  rw [sub_ok (show 2 ≤ low - high by omega)]
  rw [sub_ok hle]
  cases ackLoop room run.2.1 run.2.2 <;> rfl

lemma ackLoop_ranges (room : ℕ) (hsorted : ns.Pairwise (· > ·)) (hbelow : ∀ n ∈ ns, n + 2 ≤ low) :
    ∃ ranges, ackLoop room low ns = .ok ranges ∧ Ranges room low ns ranges := by
  induction room generalizing low ns with
  | zero =>
    refine ⟨[], by cases ns <;> rfl, le_rfl, fun _ h => absurd h not_mem_nil, [], rfl, ?_⟩
    intro n
    rw [highest_zero]
    exact iff_of_false (fun h => Exists.elim h fun _ hr => absurd hr.1 not_mem_nil)
      (Finset.notMem_empty n)
  | succ room ih =>
    cases ns with
    | nil =>
      refine ⟨[], rfl, Nat.zero_le _, fun _ h => absurd h not_mem_nil, [], rfl, fun n => ?_⟩
      exact iff_of_false (fun h => Exists.elim h fun _ hr => absurd hr.1 not_mem_nil)
        (fun h => absurd (mem_highest.mp h).1 (Finset.notMem_empty n))
    | cons high ns =>
      have hrun := ranDown hsorted 0
      have hhigh := hbelow high mem_cons_self
      have hle := hrun.low_le
      obtain ⟨ranges, hloop, hranges⟩ := ih hrun.sorted hrun.below
      obtain ⟨acked, hacked, hcovered⟩ := hranges.expand
      set run := runDown 0 high ns
      refine ⟨(low - high - 2, high - run.2.1) :: ranges, ?_, ?_, ?_, ?_⟩
      · rw [ackLoop_cons rfl hhigh hle, hloop]
        rfl
      · exact Nat.succ_le_succ hranges.length_le
      · intro r hr
        rcases mem_cons.mp hr with rfl | hr
        · exact ⟨by dsimp only; omega, by dsimp only; omega⟩
        · have := hranges.small r hr
          omega
      refine ⟨(run.2.1, high) :: acked, ?_, fun n => ?_⟩
      · have hnext : low - (low - high - 2 + 2) = high := by omega
        have hlow : high - (high - run.2.1) = run.2.1 := by omega
        rw [moreRanges, if_neg (by omega)]
        rw [hnext, if_neg (by omega), hlow, hacked]
        rfl
      · rw [covered_cons, hcovered, hrun.members,
          mem_highest_run hle fun m hm => hrun.below m (mem_toFinset.mp hm)]

/-- What is built of numbers stands for the highest runs of them. -/
structure Acknowledges (recvPns : List ℕ) (largest firstRange : ℕ) (ranges : List (ℕ × ℕ)) :
    Prop where
  largest_mem : largest ∈ recvPns
  firstRange_le : firstRange ≤ largest
  length_le : ranges.length ≤ maxAckRanges
  small : ∀ r ∈ ranges, r.1 ≤ largest ∧ r.2 ≤ largest
  expand : ∃ acked, ackRanges largest firstRange ranges = some acked ∧
    ∀ n, Covered acked n ↔ n ∈ highest recvPns.toFinset (maxAckRanges + 1)

lemma buildAck_eq {recvPns : List ℕ} (hne : recvPns ≠ []) :
    ∃ largest firstRange ranges, buildAck recvPns = .ok (some (.ack largest 0 firstRange ranges)) ∧
      Acknowledges recvPns largest firstRange ranges := by
  obtain ⟨hsorted, hmem⟩ := descending recvPns
  unfold buildAck
  cases hns : (dedup (recvPns.mergeSort (· ≤ ·))).reverse with
  | nil =>
    obtain ⟨n, hn⟩ := exists_mem_of_ne_nil recvPns hne
    have hnil := (hmem n).mpr hn
    rw [hns] at hnil
    exact absurd hnil not_mem_nil
  | cons largest ns =>
    rw [hns] at hsorted hmem
    have hrun := ranDown hsorted 0
    have hsteps := hrun.steps_eq
    have hle := hrun.low_le
    obtain ⟨ranges, hloop, hranges⟩ := ackLoop_ranges maxAckRanges hrun.sorted hrun.below
    obtain ⟨acked, hacked, hcovered⟩ := hranges.expand
    set run := runDown 0 largest ns
    have hset : recvPns.toFinset = .Icc run.2.1 largest ∪ run.2.2.toFinset := by
      rw [← hrun.members]
      ext m
      rw [mem_toFinset, mem_toFinset, hmem]
    refine ⟨largest, run.1, ranges, ?_, (hmem largest).mp mem_cons_self, by omega,
      hranges.length_le, fun r hr => ?_, (run.2.1, largest) :: acked, ?_, fun n => ?_⟩
    · dsimp only
      rw [hloop]
      rfl
    · have := hranges.small r hr
      omega
    · have hlow : largest - run.1 = run.2.1 := by omega
      rw [ackRanges, if_neg (by omega), hlow, hacked]
      rfl
    · rw [covered_cons, hcovered, hset,
        mem_highest_run hle fun m hm => hrun.below m (mem_toFinset.mp hm)]

variable {firstRange largest : ℕ}

lemma Acknowledges.fits {pns : List ℕ}
    (h : Acknowledges pns largest firstRange ranges) (hsmall : ∀ n ∈ pns, n < varintLimit) :
    (Frame.ack largest 0 firstRange ranges).Fits := by
  have hlargest := hsmall largest h.largest_mem
  refine ⟨hlargest, by decide, lt_of_le_of_lt h.firstRange_le hlargest,
    h.length_le.trans (by decide), fun r hr => ?_⟩
  have := h.small r hr
  omega

/-- Ranges that descend with a gap between each two. -/
structure Descending (bound : ℕ) (acked : List (ℕ × ℕ)) : Prop where
  ordered : ∀ r ∈ acked, r.1 ≤ r.2 ∧ r.2 < bound
  apart : acked.Pairwise fun a b => b.2 < a.1

variable {acked : List (ℕ × ℕ)}

lemma Descending.cons {bound : ℕ} (hle : low ≤ high) (hlt : high < bound)
    (h : Descending low acked) : Descending bound ((low, high) :: acked) := by
  refine ⟨fun r hr => ?_, pairwise_cons.mpr ⟨fun r hr => (h.ordered r hr).2, h.apart⟩⟩
  rcases mem_cons.mp hr with rfl | hr
  · exact ⟨hle, hlt⟩
  · have := h.ordered r hr
    omega

lemma moreRanges_descending (h : moreRanges low ranges = some acked) : Descending low acked := by
  induction ranges generalizing low acked with
  | nil =>
    cases h
    exact ⟨fun _ hr => absurd hr not_mem_nil, Pairwise.nil⟩
  | cons range ranges ih =>
    rw [moreRanges] at h
    dsimp only at h
    split_ifs at h with hlen
    obtain ⟨rest, hrest, rfl⟩ := Option.map_eq_some_iff.mp h
    exact (ih hrest).cons (Nat.sub_le _ _) (by omega)

lemma ackRanges_descending
    (h : ackRanges largest firstRange ranges = some acked) : Descending (largest + 1) acked := by
  rw [ackRanges] at h
  split_ifs at h with hfirst
  obtain ⟨rest, hrest, rfl⟩ := Option.map_eq_some_iff.mp h
  exact (moreRanges_descending hrest).cons (Nat.sub_le _ _) (Nat.lt_succ_self _)

/-- The range that is looked up is the only one that can hold the number. -/
theorem isAcked_iff {bound : ℕ} (h : Descending bound acked) :
    isAcked acked n = true ↔ Covered acked n := by
  induction acked generalizing bound with
  | nil =>
    exact iff_of_false Bool.false_ne_true fun h => Exists.elim h fun _ hr => absurd hr.1 not_mem_nil
  | cons r acked ih =>
    obtain ⟨hbelow, hapart⟩ := pairwise_cons.mp h.apart
    have hrest : Descending bound acked := ⟨fun s hs => h.ordered s (mem_cons_of_mem _ hs), hapart⟩
    rw [covered_cons]
    by_cases hle : r.1 ≤ n
    · have hnone : ¬ Covered acked n := by
        rintro ⟨s, hs, -, hn⟩
        have := hbelow s hs
        omega
      rw [isAcked, find?_cons_of_pos (p := fun s : ℕ × ℕ => decide (s.1 ≤ n)) (decide_eq_true hle)]
      simp [hnone]
    · rw [isAcked, find?_cons_of_neg (p := fun s : ℕ × ℕ => decide (s.1 ≤ n))
        (by rw [decide_eq_true_eq]; exact hle), ← isAcked, ih hrest]
      simp [hle]

/-- What `detect_lost` goes by. -/
def SameClock (c c' : Transport.Connection) : Prop :=
  c'.srttMs = c.srttMs ∧ c'.latestRttMs = c.latestRttMs ∧ c'.nowMs = c.nowMs

lemma SameClock.isLost (h : SameClock c c') (largest : ℕ) :
    c'.isLost largest = c.isLost largest := by
  unfold Connection.isLost
  rw [lossDelay, lossDelay, h.1, h.2.1, h.2.2]

lemma requeueLost_keeps (c : Transport.Connection) (x : Space) (lost : List Transport.SentPacket) :
    SameClock c (c.requeueLost x lost) ∧
      ((c.requeueLost x lost).spaces x).sent = (c.spaces x).sent := by
  unfold requeueLost
  dsimp only
  split_ifs
  · refine ⟨⟨rfl, rfl, rfl⟩, ?_⟩
    simp [onCcLoss]
  · refine ⟨⟨rfl, rfl, rfl⟩, ?_⟩
    simp

/-- The packets that are taken as lost leave, and no others. -/
theorem detectLost_sent (h : (c.spaces x).largestAcked = some largest) :
    ((c.detectLost x).spaces x).sent =
      (c.spaces x).sent.filter fun sp => !(c.detectLost x).isLost largest sp := by
  have hkeep : SameClock c (c.keepUnlost x largest) := ⟨rfl, rfl, rfl⟩
  have hsent : ((c.keepUnlost x largest).spaces x).sent =
      (c.spaces x).sent.filter fun sp => !c.isLost largest sp := by
    rw [keepUnlost, setSpace_self]
  have hlost : ∀ lost, SameClock c ((c.keepUnlost x largest).requeueLost x lost) := fun lost =>
    (requeueLost_keeps (c.keepUnlost x largest) x lost).1
  unfold detectLost
  rw [h]
  dsimp only
  split_ifs
  · rw [hsent, hkeep.isLost]
  · rw [(requeueLost_keeps _ x _).2, hsent, (hlost _).isLost]

lemma updateRtt_spaces (c : Transport.Connection) (sample delay : ℕ) :
    (c.updateRtt sample delay).spaces = c.spaces := by
  unfold updateRtt
  dsimp only
  split_ifs <;> rfl

lemma measure_spaces (c : Transport.Connection) (x : Space) (delay : ℕ) (newest : Option ℕ) :
    (c.measure x delay newest).spaces = c.spaces := by
  cases newest with
  | none => rfl
  | some sent => exact updateRtt_spaces c _ _

/-- What is left of the packets that were sent, after what was acknowledged is taken. -/
structure Cleared (c : Transport.Connection) (x : Space) (largest : ℕ) (acked : List (ℕ × ℕ))
    (c' : Transport.Connection) : Prop where
  /-- A packet that stays was sent and is in no range. -/
  stays : ∀ sp ∈ (c'.spaces x).sent, sp ∈ (c.spaces x).sent ∧ ¬ Covered acked sp.pn
  /-- A packet in no range that does not stay is lost. -/
  leaves : ∀ sp ∈ (c.spaces x).sent, ¬ Covered acked sp.pn → sp ∉ (c'.spaces x).sent →
    c'.isLost (max ((c.spaces x).largestAcked.getD largest) largest) sp = true

lemma afterAck_sent {delay : ℕ} {gone : List Transport.SentPacket} {newest : Option ℕ}
    (h : (c.spaces x).largestAcked = some largest) :
    ((c.afterAck x delay gone newest).spaces x).sent = (c.spaces x).sent.filter
      fun sp => !(c.afterAck x delay gone newest).isLost largest sp := by
  have hspaces : ∀ d : Transport.Connection, d.spaces = c.spaces →
      ((d.detectLost x).spaces x).sent =
        (c.spaces x).sent.filter fun sp => !(d.detectLost x).isLost largest sp := by
    intro d hd
    rw [detectLost_sent (show (d.spaces x).largestAcked = some largest by rw [hd, h]), hd]
  refine hspaces _ ?_
  have hcc : ∀ (d : Transport.Connection) (bytes : ℕ), (d.onCcAck bytes).spaces = d.spaces := by
    intro d bytes
    unfold onCcAck
    split_ifs <;> rfl
  split_ifs
  · rw [hcc]
    exact measure_spaces _ x delay newest
  · exact measure_spaces _ x delay newest

/-- The packets in the ranges are gone, and of the others those that are lost. -/
theorem onAck_cleared {delay : ℕ} (h : c.onAck x largest delay firstRange ranges = some c') :
    ∃ acked, ackRanges largest firstRange ranges = some acked ∧ Cleared c x largest acked c' := by
  unfold onAck at h
  dsimp only at h
  split_ifs at h with hnext
  obtain ⟨acked, hacked, hc'⟩ := Option.map_eq_some_iff.mp h
  have hiff : ∀ n, isAcked acked n = true ↔ Covered acked n :=
    fun n => isAcked_iff (ackRanges_descending hacked)
  have hremaining : ∀ sp, sp ∈ (((c.takeAcked x largest acked).spaces x).sent) ↔
      sp ∈ (c.spaces x).sent ∧ ¬ Covered acked sp.pn := by
    rw [takeAcked]
    simp [← hiff]
  have hlargest : ((c.takeAcked x largest acked).spaces x).largestAcked =
      some (max ((c.spaces x).largestAcked.getD largest) largest) := by
    rw [takeAcked]
    simp
  refine ⟨acked, hacked, ?_⟩
  split_ifs at hc' with hquiet
  · subst hc'
    refine ⟨fun sp hsp => (hremaining sp).mp hsp, fun sp hsp hnot hgone => ?_⟩
    exact absurd ((hremaining sp).mpr ⟨hsp, hnot⟩) hgone
  have hsent : (c'.spaces x).sent = ((c.takeAcked x largest acked).spaces x).sent.filter
      fun sp => !c'.isLost (max ((c.spaces x).largestAcked.getD largest) largest) sp := by
    rw [← hc']
    exact afterAck_sent hlargest
  refine ⟨fun sp hsp => ?_, fun sp hsp hnot hgone => ?_⟩
  · rw [hsent] at hsp
    exact (hremaining sp).mp (mem_filter.mp hsp).1
  by_contra hlost
  refine hgone ?_
  rw [hsent]
  refine mem_filter.mpr ⟨(hremaining sp).mpr ⟨hsp, hnot⟩, ?_⟩
  rw [Bool.not_eq_true']
  exact Bool.eq_false_iff.mpr hlost

/-- What is sent and read of an acknowledgement. -/
structure Carried (recvPns : List ℕ) : Prop where
  built : ∃ largest firstRange ranges acked,
    buildAck recvPns = .ok (some (.ack largest 0 firstRange ranges)) ∧
    parse (encode (.ack largest 0 firstRange ranges)) = some [.ack largest 0 firstRange ranges] ∧
    ackRanges largest firstRange ranges = some acked ∧
    (∀ n, Covered acked n ↔ n ∈ highest recvPns.toFinset (maxAckRanges + 1)) ∧
    ((tops recvPns.toFinset).card ≤ maxAckRanges + 1 → ∀ n, Covered acked n ↔ n ∈ recvPns)

lemma carried {recvPns : List ℕ} (hne : recvPns ≠ []) (hsmall : ∀ n ∈ recvPns, n < varintLimit) :
    Carried recvPns := by
  obtain ⟨largest, firstRange, ranges, hbuild, hack⟩ := buildAck_eq hne
  obtain ⟨acked, hacked, hcovered⟩ := hack.expand
  have hparse : parse (encodeAll [.ack largest 0 firstRange ranges]) =
      some (normalise [.ack largest 0 firstRange ranges]) :=
    parse_encodeAll (show 1 ≤ maxParsedFrames by decide) fun f hf => by
        rw [mem_singleton.mp hf]
        exact hack.fits hsmall
  refine ⟨largest, firstRange, ranges, acked, hbuild, ?_, hacked, hcovered, fun hfew n => ?_⟩
  · rw [← append_nil (encode _)]
    exact hparse
  · rw [hcovered, highest_eq_self hfew, mem_toFinset]

/-- An acknowledgement that is an error: of a packet that was not sent, or with a range below
zero. -/
theorem onAck_none {delay : ℕ} : c.onAck x largest delay firstRange ranges = none ↔
      (c.spaces x).nextPn ≤ largest ∨ ackRanges largest firstRange ranges = none := by
  unfold onAck
  dsimp only
  split_ifs with hnext
  · exact iff_of_true rfl (.inl hnext)
  · rw [Option.map_eq_none_iff]
    exact ⟨.inr, fun h => h.resolve_left hnext⟩

lemma buildAck_nil : buildAck [] = .ok none := by
  rw [buildAck, mergeSort_nil]
  rfl

def sixSent : Transport.Connection where
  role := .client
  awaitingInitial := false
  spaces := fun _ =>
    { nextPn := 6, sent := (List.range 6).map fun pn => ⟨pn, 0, true, 100, []⟩ }
  localCid := []
  remoteCid := []
  initialDcid := []
  maxIdleTimeout := 0

/-- An acknowledgement of the last packet alone removes three others, as they are lost. -/
theorem sixSent_onAck : ∃ c', sixSent.onAck .app 5 0 0 [] = some c' ∧
    ackRanges 5 0 [] = some [(5, 5)] ∧ ⟨0, 0, true, 100, []⟩ ∈ (sixSent.spaces .app).sent ∧
    ¬ Covered [(5, 5)] 0 ∧ (⟨0, 0, true, 100, []⟩ : Transport.SentPacket) ∉ (c'.spaces .app).sent := by
  refine ⟨_, rfl, rfl, by decide, ?_, by decide +kernel⟩
  rintro ⟨r, hr, hle, -⟩
  rw [mem_singleton.mp hr] at hle
  exact absurd hle (by decide)

/-- What is acknowledged is what was received, or the highest runs of it, and the packets that are
acknowledged leave with none but those that are lost besides. -/
theorem ack_exact :
    (∀ recvPns : List ℕ, recvPns ≠ [] → (∀ n ∈ recvPns, n < varintLimit) → Carried recvPns) ∧
    buildAck [] = .ok none ∧
    ∀ (c : Transport.Connection) (x : Space) (largest delay firstRange : ℕ) (ranges : List (ℕ × ℕ)),
      (c.onAck x largest delay firstRange ranges = none ↔
        (c.spaces x).nextPn ≤ largest ∨ ackRanges largest firstRange ranges = none) ∧
      ∀ c', c.onAck x largest delay firstRange ranges = some c' →
        ∃ acked, ackRanges largest firstRange ranges = some acked ∧ Cleared c x largest acked c' :=
  ⟨fun _ hne hsmall => carried hne hsmall, buildAck_nil,
    fun _ _ _ _ _ _ => ⟨onAck_none, fun _ h => onAck_cleared h⟩⟩

theorem ack_exact_gap : Carried [2, 3, 7] ∧ ∃ c' acked,
    sixSent.onAck .app 5 0 0 [(1, 0)] = some c' ∧ ackRanges 5 0 [(1, 0)] = some acked ∧
      Cleared sixSent .app 5 acked c' := by
  obtain ⟨acked, hacked, hcleared⟩ := (ack_exact.2.2 sixSent .app 5 0 0 [(1, 0)]).2 _ rfl
  exact ⟨ack_exact.1 _ (by decide) (by decide), _, acked, rfl, hacked, hcleared⟩

end OnetDns.Quic.Codec
