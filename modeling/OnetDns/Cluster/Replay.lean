import OnetDns.Lib.BigEndian
import OnetDns.Lib.Window

/-!
# Frames that come again

`ReplayCache` of `onetdns-cluster/src/transport.rs`: for each sender the newest session, the highest
sequence number in it and a bit for each of the 128 numbers up to that. A `HashMap` is a partial
function, and the order of sessions is that of their bytes.
-/
namespace OnetDns.Raft
open Window List Bool

def raftNonceLen : ℕ := 24
def replayWindowBits : ℕ := 128

/-- `[u8; RAFT_NONCE_LEN]`. -/
structure Nonce where
  bytes : List UInt8
  length : bytes.length = raftNonceLen
  deriving DecidableEq

/-- The first 16 bytes. -/
def Nonce.session (nonce : Nonce) : List UInt8 := nonce.bytes.take 16

def Nonce.sequence (nonce : Nonce) : ℕ := BigEndian.decode (nonce.bytes.drop 16)

structure PeerReplayWindow where
  session : List UInt8
  highestSequence : ℕ
  seenBitmap : BitVec replayWindowBits

abbrev ReplayCache := ℕ → Option PeerReplayWindow

namespace ReplayCache

def empty : ReplayCache := fun _ => none

/-- `HashMap::insert`. -/
def store (c : ReplayCache) (sender : ℕ) (window : PeerReplayWindow) : ReplayCache :=
  fun other => if other = sender then some window else c other

/-- A frame of the session that is open. -/
def acceptSequence (window : PeerReplayWindow) (sequence : ℕ) : PeerReplayWindow × Bool :=
  if window.highestSequence < sequence then
    let shift := sequence - window.highestSequence
    let bitmap := if replayWindowBits ≤ shift then 1 else window.seenBitmap <<< shift ||| 1
    ({ window with seenBitmap := bitmap, highestSequence := sequence }, true)
  else
    let distance := window.highestSequence - sequence
    if replayWindowBits ≤ distance then (window, false)
    else if window.seenBitmap.getLsbD distance then (window, false)
    else ({ window with seenBitmap := window.seenBitmap ||| 1#_ <<< distance }, true)

def accept (c : ReplayCache) (sender : ℕ) (nonce : Nonce) : ReplayCache × Bool :=
  match c sender with
  | none => (c.store sender ⟨nonce.session, nonce.sequence, 1⟩, true)
  | some window =>
    if window.session < nonce.session then
      (c.store sender ⟨nonce.session, nonce.sequence, 1⟩, true)
    else if nonce.session < window.session then (c, false)
    else
      let (window, accepted) := acceptSequence window nonce.sequence
      (c.store sender window, accepted)

/-- What tells one frame from another. -/
structure Frame where
  sender : ℕ
  session : List UInt8
  sequence : ℕ
  deriving DecidableEq

def frame (sender : ℕ) (nonce : Nonce) : Frame := ⟨sender, nonce.session, nonce.sequence⟩

/-- One more frame: the cache, and the frames that were accepted, the newest first. -/
def next (s : ReplayCache × List Frame) (call : ℕ × Nonce) : ReplayCache × List Frame :=
  let (c, accepted) := s.1.accept call.1 call.2
  (c, if accepted then frame call.1 call.2 :: s.2 else s.2)

def run (calls : List (ℕ × Nonce)) : ReplayCache × List Frame := calls.foldl next (empty, [])

/-- The numbers of the frames of a session that were accepted. -/
def seen (accepted : List Frame) (sender : ℕ) (session : List UInt8) : Set ℕ :=
  {sequence | ⟨sender, session, sequence⟩ ∈ accepted}

/-- What a window knows of the frames of its sender. -/
structure Knows (accepted : List Frame) (sender : ℕ) (window : PeerReplayWindow) : Prop where
  highest : ⟨sender, window.session, window.highestSequence⟩ ∈ accepted
  session_le : ∀ f ∈ accepted, f.sender = sender → ¬ window.session < f.session
  sequence_le : ∀ n ∈ seen accepted sender window.session, n ≤ window.highestSequence
  tracks : Tracks window.highestSequence window.seenBitmap (seen accepted sender window.session)

structure Sound (c : ReplayCache) (accepted : List Frame) : Prop where
  once : accepted.Nodup
  fresh : ∀ sender, c sender = none → ∀ f ∈ accepted, f.sender ≠ sender
  knows : ∀ sender window, c sender = some window → Knows accepted sender window

variable {c : ReplayCache} {accepted : List Frame} {sender n : ℕ} {nonce : Nonce}
  {window : PeerReplayWindow} {session : List UInt8} {f : Frame}

lemma seen_cons_same : seen (⟨sender, session, n⟩ :: accepted) sender session =
    insert n (seen accepted sender session) := by
  ext m
  simp [seen]

lemma seen_cons_other (h : f.sender ≠ sender) :
    seen (f :: accepted) sender session = seen accepted sender session := by
  ext m
  simp only [seen, mem_cons, Set.mem_ofPred_eq, or_iff_right_iff_imp]
  rintro rfl
  exact absurd rfl h

lemma Knows.cons_other (h : Knows accepted sender window) (hf : f.sender ≠ sender) :
    Knows (f :: accepted) sender window := by
  refine ⟨mem_cons_of_mem _ h.highest, fun g hg hsender => ?_, ?_, ?_⟩
  · rcases mem_cons.mp hg with rfl | hg
    · exact absurd hsender hf
    · exact h.session_le g hg hsender
  · rw [seen_cons_other hf]
    exact h.sequence_le
  · rw [seen_cons_other hf]
    exact h.tracks

lemma knows_first (hnew : ∀ f ∈ accepted, f.sender = sender → f.session < session) (n : ℕ) :
    Knows (⟨sender, session, n⟩ :: accepted) sender ⟨session, n, 1⟩ := by
  have hnone : seen accepted sender session = ∅ := by
    refine Set.eq_empty_of_forall_notMem fun m hm => ?_
    exact List.lt_irrefl session (hnew _ hm rfl)
  have hseen : seen (⟨sender, session, n⟩ :: accepted) sender session = {n} := by
    rw [seen_cons_same, hnone, insert_empty_eq]
  refine ⟨mem_cons_self, fun g hg hsender hlt => ?_, ?_, ?_⟩
  · rcases mem_cons.mp hg with rfl | hg
    · exact List.lt_irrefl _ hlt
    · exact List.lt_irrefl _ (List.lt_trans hlt (hnew g hg hsender))
  · rw [hseen]
    exact fun m hm => (Set.mem_singleton_iff.mp hm).le
  · rw [hseen]
    exact tracks_single n

lemma Knows.acceptSequence (h : Knows accepted sender window) (n : ℕ) :
    ((acceptSequence window n).2 = true ↔
      n ∉ seen accepted sender window.session ∧ window.highestSequence < n + replayWindowBits) ∧
    ((acceptSequence window n).2 = true →
      Knows (⟨sender, window.session, n⟩ :: accepted) sender (acceptSequence window n).1) ∧
    ((acceptSequence window n).2 = false → (acceptSequence window n).1 = window) := by
  have hsession : ∀ g ∈ (⟨sender, window.session, n⟩ :: accepted : List Frame),
      g.sender = sender → ¬ window.session < g.session := by
    intro g hg hsender
    rcases mem_cons.mp hg with rfl | hg
    · exact List.lt_irrefl _
    · exact h.session_le g hg hsender
  unfold ReplayCache.acceptSequence
  by_cases hlt : window.highestSequence < n
  · rw [if_pos hlt]
    refine ⟨iff_of_true rfl ⟨fun hn => ?_, by omega⟩, fun _ => ?_,
      fun hfalse => absurd hfalse.symm false_ne_true⟩
    · exact absurd (h.sequence_le n hn) (not_le.mpr hlt)
    refine ⟨mem_cons_self, hsession, ?_, ?_⟩
    · rw [seen_cons_same]
      rintro m (rfl | hm)
      · exact le_rfl
      · exact (h.sequence_le m hm).trans hlt.le
    · rw [seen_cons_same]
      exact h.tracks.advance h.sequence_le hlt
  rw [if_neg hlt]
  have hle := Nat.le_of_not_lt hlt
  by_cases hfar : replayWindowBits ≤ window.highestSequence - n
  · rw [if_pos hfar]
    refine ⟨iff_of_false false_ne_true fun hn => ?_,
      fun htrue => absurd htrue false_ne_true, fun _ => rfl⟩
    omega
  rw [if_neg hfar]
  have hnear := Nat.lt_of_not_le hfar
  have hbit := h.tracks.mem_iff hle hnear
  by_cases hseen : window.seenBitmap.getLsbD (window.highestSequence - n) = true
  · rw [if_pos hseen]
    exact ⟨iff_of_false false_ne_true fun hn => hn.1 (hbit.mp hseen),
      fun htrue => absurd htrue false_ne_true, fun _ => rfl⟩
  rw [if_neg hseen]
  refine ⟨iff_of_true rfl ⟨fun hn => hseen (hbit.mpr hn), by omega⟩, fun _ => ?_,
    fun hfalse => absurd hfalse.symm false_ne_true⟩
  refine ⟨mem_cons_of_mem _ h.highest, hsession, ?_, ?_⟩
  · rw [seen_cons_same]
    rintro m (rfl | hm)
    · exact hle
    · exact h.sequence_le m hm
  · rw [seen_cons_same]
    exact h.tracks.mark hle hnear

lemma store_same (c : ReplayCache) (sender : ℕ) (window : PeerReplayWindow) :
    c.store sender window sender = some window := if_pos rfl

lemma store_other {other : ℕ} (c : ReplayCache) (window : PeerReplayWindow)
    (h : other ≠ sender) : c.store sender window other = c other := if_neg h

lemma Sound.store (h : Sound c accepted) (hf : f ∉ accepted) (hsender : f.sender = sender)
    (hknows : Knows (f :: accepted) sender window) : Sound (c.store sender window) (f :: accepted) := by
  refine ⟨nodup_cons.mpr ⟨hf, h.once⟩, fun other hnone g hg => ?_, fun other window' hsome => ?_⟩
  · by_cases hother : other = sender
    · rw [hother, store_same] at hnone
      cases hnone
    · rw [store_other c window hother] at hnone
      rcases mem_cons.mp hg with rfl | hg
      · exact fun heq => hother (heq.symm.trans hsender)
      · exact h.fresh other hnone g hg
  · by_cases hother : other = sender
    · rw [hother, store_same] at hsome
      cases hsome
      exact hother ▸ hknows
    · rw [store_other c window hother] at hsome
      exact (h.knows other window' hsome).cons_other fun heq => hother (heq.symm.trans hsender)

/-- The frames that are accepted: those of a first session, of a newer one, and the new ones of the
open session that are not too old. -/
def Acceptable (accepted : List Frame) (f : Frame) : Prop :=
  (∀ g ∈ accepted, g.sender = f.sender → ¬ f.session < g.session) ∧ f ∉ accepted ∧
    ∀ g ∈ accepted, g.sender = f.sender → g.session = f.session →
      g.sequence < f.sequence + replayWindowBits

lemma acceptable_newer (h : ∀ g ∈ accepted, g.sender = f.sender → g.session < f.session) :
    Acceptable accepted f := by
  refine ⟨fun g hg hsender hlt => ?_, fun hf => ?_, fun g hg hsender hsession => ?_⟩
  · exact List.lt_irrefl _ (List.lt_trans hlt (h g hg hsender))
  · exact List.lt_irrefl _ (h f hf rfl)
  · exact absurd (hsession ▸ h g hg hsender) (List.lt_irrefl _)

/-- An answer is right, and the cache is in order after it. -/
structure Answered (accepted : List Frame) (f : Frame) (r : ReplayCache × Bool) : Prop where
  answer : r.2 = true ↔ Acceptable accepted f
  sound : Sound r.1 (if r.2 then f :: accepted else accepted)

lemma Sound.opens (h : Sound c accepted)
    (hnew : ∀ g ∈ accepted, g.sender = sender → g.session < nonce.session) :
    Answered accepted (frame sender nonce)
      (c.store sender ⟨nonce.session, nonce.sequence, 1⟩, true) := by
  have hacc : Acceptable accepted (frame sender nonce) := acceptable_newer hnew
  exact ⟨iff_of_true rfl hacc, h.store hacc.2.1 rfl (knows_first hnew _)⟩

lemma Sound.continues (h : Sound c accepted) (hc : c sender = some window)
    (hsame : nonce.session = window.session) :
    Answered accepted (frame sender nonce) (c.store sender (acceptSequence window nonce.sequence).1,
        (acceptSequence window nonce.sequence).2) := by
  have hknows := h.knows sender window hc
  obtain ⟨hiff, hyes, hno⟩ := hknows.acceptSequence nonce.sequence
  have hframe : frame sender nonce = ⟨sender, window.session, nonce.sequence⟩ := by
    rw [frame, hsame]
  have hacc : Acceptable accepted (frame sender nonce) ↔
      nonce.sequence ∉ seen accepted sender window.session ∧
        window.highestSequence < nonce.sequence + replayWindowBits := by
    rw [hframe]
    constructor
    · exact fun hacc => ⟨hacc.2.1, hacc.2.2 _ hknows.highest rfl rfl⟩
    refine fun hacc => ⟨hknows.session_le, hacc.1, fun g hg hsender hsession => ?_⟩
    have hg' : g.sequence ∈ seen accepted sender window.session := by
      rw [← show g.session = window.session from hsession, ← show g.sender = sender from hsender]
      exact hg
    exact lt_of_le_of_lt (hknows.sequence_le _ hg') hacc.2
  refine ⟨hiff.trans hacc.symm, ?_⟩
  cases hres : (acceptSequence window nonce.sequence).2 with
  | true =>
    have hnotin := (hacc.mpr (hiff.mp hres)).2.1
    rw [hframe] at hnotin ⊢
    exact h.store hnotin rfl (hyes hres)
  | false =>
    have hkept : c.store sender window = c := by
      funext other
      by_cases hother : other = sender
      · rw [hother, store_same, hc]
      · exact store_other c window hother
    rw [hno hres, hkept]
    exact h

lemma Sound.accept (h : Sound c accepted) (sender : ℕ) (nonce : Nonce) :
    Answered accepted (frame sender nonce) (c.accept sender nonce) := by
  unfold ReplayCache.accept
  cases hc : c sender with
  | none => exact h.opens fun g hg hsender => absurd hsender (h.fresh sender hc g hg)
  | some window =>
    have hknows := h.knows sender window hc
    dsimp only
    by_cases hnew : window.session < nonce.session
    · rw [if_pos hnew]
      refine h.opens fun g hg hsender => ?_
      exact List.lt_of_le_of_lt (hknows.session_le g hg hsender) hnew
    rw [if_neg hnew]
    by_cases hold : nonce.session < window.session
    · rw [if_pos hold]
      refine ⟨iff_of_false false_ne_true fun hacc => ?_, h⟩
      exact hacc.1 _ hknows.highest rfl hold
    · rw [if_neg hold]
      exact h.continues hc (List.le_antisymm hnew hold)

lemma sound_empty : Sound empty [] :=
  ⟨nodup_nil, fun _ _ _ hf => absurd hf not_mem_nil, fun _ _ h => by cases h⟩

lemma Sound.next {s : ReplayCache × List Frame} (h : Sound s.1 s.2) (call : ℕ × Nonce) :
    Sound (next s call).1 (next s call).2 := (h.accept call.1 call.2).sound

lemma run_sound (calls : List (ℕ × Nonce)) : Sound (run calls).1 (run calls).2 := by
  have hfrom : ∀ (calls : List (ℕ × Nonce)) {s : ReplayCache × List Frame}, Sound s.1 s.2 →
      Sound (calls.foldl next s).1 (calls.foldl next s).2 := by
    intro calls
    induction calls with
    | nil => exact fun h => h
    | cons call calls ih => exact fun h => ih (h.next call)
  exact hfrom calls sound_empty

/-- The newest session of a sender that has a frame accepted, with its highest number. -/
structure Current (accepted : List Frame) (sender : ℕ) (top : Frame) : Prop where
  mem : top ∈ accepted
  sender_eq : top.sender = sender
  newest : ∀ g ∈ accepted, g.sender = sender → ¬ top.session < g.session
  highest : ∀ g ∈ accepted, g.sender = sender → g.session = top.session → g.sequence ≤ top.sequence

/-- In the current session a frame is acceptable when it is new and less than a window behind. -/
theorem Current.acceptable_iff {top : Frame} (h : Current accepted sender top)
    (hsession : nonce.session = top.session) :
    Acceptable accepted (frame sender nonce) ↔
      frame sender nonce ∉ accepted ∧ top.sequence < nonce.sequence + replayWindowBits := by
  constructor
  · intro hacc
    exact ⟨hacc.2.1, hacc.2.2 top h.mem h.sender_eq hsession.symm⟩
  · intro hnear
    refine ⟨fun g hg hsender hlt => ?_, hnear.1, fun g hg hsender hsame => ?_⟩
    · exact h.newest g hg hsender (hsession ▸ hlt)
    · exact lt_of_le_of_lt (h.highest g hg hsender (hsame.trans hsession)) hnear.2

/-- After any frames: none was accepted twice, one of an older session is not accepted, and one of
the current session that was not accepted yet is accepted when its number is above the highest
less 128. -/
theorem accept_exact (calls : List (ℕ × Nonce)) :
    (run calls).2.Nodup ∧ ∀ (sender : ℕ) (nonce : Nonce),
      ((∃ g ∈ (run calls).2, g.sender = sender ∧ nonce.session < g.session) →
        ((run calls).1.accept sender nonce).2 = false) ∧
      (frame sender nonce ∈ (run calls).2 → ((run calls).1.accept sender nonce).2 = false) ∧
      ∀ top, Current (run calls).2 sender top → nonce.session = top.session →
        frame sender nonce ∉ (run calls).2 →
          (((run calls).1.accept sender nonce).2 = true ↔
            (top.sequence : ℤ) - replayWindowBits < nonce.sequence) := by
  have hsound := run_sound calls
  refine ⟨hsound.once, fun sender nonce => ?_⟩
  have hanswer := (hsound.accept sender nonce).answer
  refine ⟨?_, fun hmem => ?_, fun top htop hsession hnew => ?_⟩
  · rintro ⟨g, hg, hsender, hlt⟩
    exact eq_false_iff.mpr fun htrue => (hanswer.mp htrue).1 g hg hsender hlt
  · exact eq_false_iff.mpr fun htrue => (hanswer.mp htrue).2.1 hmem
  · rw [hanswer, htop.acceptable_iff hsession]
    constructor
    · omega
    · exact fun h => ⟨hnew, by omega⟩

def shortNonce (session sequence : UInt8) : Nonce :=
  ⟨session :: replicate 22 0 ++ [sequence], by simp; rfl⟩

def restarted : List (ℕ × Nonce) := [(1, shortNonce 5 9), (1, shortNonce 6 3), (1, shortNonce 6 200)]

theorem accept_exact_restarted : ((run restarted).1.accept 1 (shortNonce 5 10)).2 = false ∧
    ((run restarted).1.accept 1 (shortNonce 6 200)).2 = false ∧
    ((run restarted).1.accept 1 (shortNonce 6 73)).2 = true := by
  have hcurrent : Current (run restarted).2 1 (frame 1 (shortNonce 6 200)) :=
    ⟨by decide +kernel, rfl, by decide +kernel, by decide +kernel⟩
  have hexact := fun nonce => (accept_exact restarted).2 1 nonce
  exact ⟨(hexact _).1 (by decide +kernel), (hexact _).2.1 (by decide +kernel),
    ((hexact (shortNonce 6 73)).2.2 _ hcurrent rfl (by decide +kernel)).mpr (by decide +kernel)⟩

end ReplayCache

end OnetDns.Raft
