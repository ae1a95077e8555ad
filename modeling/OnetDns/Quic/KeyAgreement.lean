import OnetDns.Quic.KeyUpdate

/-!
# Agreement of key generations

Each key update moves a secret one generation on, and the phase bit of a packet is the
parity of its generation. The generations of a sender and of its receiver stay within one
step of each other as long as no update is started before the previous one has been
confirmed in both directions.
-/
namespace OnetDns.Quic
open List Option Function Nat Cipher Role Endpoint

namespace Cipher

variable (cipher : Cipher)

variable (secret : Bytes)

/-- The secret after so many key updates. -/
def generation (g : ℕ) : Bytes := cipher.nextKeyUpdateSecret^[g] secret

/-- The keys of a generation. All share the header protection key of the first. -/
def keysOf (g : ℕ) : PacketKeys :=
  cipher.deriveUpdatedKv (cipher.generation secret g) (cipher.derivePacketKeys secret).hp

/-- What is documented of the primitives. -/
structure Correct : Prop where
  expand_length : ∀ secret label n, (cipher.hkdfExpandLabel secret label n).length = n
  encrypt_length : ∀ key nonce aad plaintext,
    (cipher.encrypt key nonce aad plaintext).length = plaintext.length + 16
  decrypt_encrypt : ∀ key nonce aad plaintext,
    cipher.decrypt key nonce aad (cipher.encrypt key nonce aad plaintext) = some plaintext

/-- The cipher authenticates: up to this generation a payload opens only with the keys and
the packet number it was sealed with. -/
def Separates (bound : ℕ) : Prop :=
  ∀ g g' pn pn', g ≤ bound → g' ≤ bound → pn < 2 ^ 64 → pn' < 2 ^ 64 → (g, pn) ≠ (g', pn') →
    ∀ aad plaintext, cipher.openPayload (cipher.keysOf secret g') pn' aad
      (cipher.sealPayload (cipher.keysOf secret g) pn aad plaintext) = none

lemma generation_succ (g : ℕ) :
    cipher.generation secret (g + 1) = cipher.nextKeyUpdateSecret (cipher.generation secret g) :=
  iterate_succ_apply' _ _ _

lemma generation_ne_nil {cipher : Cipher} (hc : cipher.Correct) {secret : Bytes}
    (h : secret ≠ []) (g : ℕ) : cipher.generation secret g ≠ [] := by
  induction g with
  | zero => exact h
  | succ g ih =>
    rw [generation_succ, nextKeyUpdateSecret]
    intro hnil
    have hlen := hc.expand_length (cipher.generation secret g) "quic ku"
      (cipher.generation secret g).length
    rw [hnil] at hlen
    exact ih (length_eq_zero_iff.mp hlen.symm)

lemma keysOf_succ (g : ℕ) :
    cipher.deriveUpdatedKv (cipher.nextKeyUpdateSecret (cipher.generation secret g))
      (cipher.derivePacketKeys secret).hp = cipher.keysOf secret (g + 1) := by
  rw [keysOf, generation_succ]

end Cipher

/-- The phase bit of a generation. -/
def phaseOf (g : ℕ) : Bool := g % 2 == 1

lemma not_phaseOf (g : ℕ) : (!phaseOf g) = phaseOf (g + 1) := by
  unfold phaseOf
  rcases mod_two_eq_zero_or_one g with h | h
  · have h' : (g + 1) % 2 = 1 := by omega
    simp [h, h']
  · have h' : (g + 1) % 2 = 0 := by omega
    simp [h, h']

lemma phaseOf_eq_iff (g g' : ℕ) : phaseOf g = phaseOf g' ↔ g % 2 = g' % 2 := by
  unfold phaseOf
  rcases mod_two_eq_zero_or_one g with h | h <;>
    rcases mod_two_eq_zero_or_one g' with h' | h' <;> simp [h']

variable {bound : ℕ}

namespace Endpoint

variable {cipher : Cipher} {out inc : Bytes} {s r : ℕ} {e : Endpoint}

/-- The endpoint sends with generation `s` of one secret and receives with generation `r`
of the other. -/
structure KeysAt (cipher : Cipher) (out inc : Bytes) (s r : ℕ) (e : Endpoint) : Prop where
  sendKeys : e.sendKeys = some (cipher.keysOf out s)
  sendSecret : e.appSendSecret = cipher.generation out s
  sendPhase : e.sendKeyPhase = phaseOf s
  recvKeys : e.recvKeys = some (cipher.keysOf inc r)
  recvSecret : e.appRecvSecret = cipher.generation inc r
  recvPhase : e.recvKeyPhase = phaseOf r
  allowed : e.keyUpdateAllowed = true

/-- A key update moves the sending side one generation on. -/
theorem KeysAt.initiate (hc : cipher.Correct) (hout : out ≠ []) (h : KeysAt cipher out inc s r e) :
    ∃ e', e.initiateKeyUpdate cipher = (e', true) ∧ KeysAt cipher out inc (s + 1) r e' ∧
      e'.localCid = e.localCid ∧ e'.remoteCid = e.remoteCid ∧ e'.nextPn = e.nextPn ∧
      e'.received = e.received := by
  have hsecret : (cipher.generation out s).isEmpty = false :=
    isEmpty_eq_false_iff.mpr (generation_ne_nil hc hout s)
  refine ⟨{ e with
      sendKeys := some (cipher.keysOf out (s + 1))
      appSendSecret := cipher.generation out (s + 1)
      sendKeyPhase := phaseOf (s + 1) }, ?_, ?_, rfl, rfl, rfl, rfl⟩
  · simp only [initiateKeyUpdate, h.allowed, hsecret, h.sendKeys, h.sendSecret, h.sendPhase, not_phaseOf]
    rw [← generation_succ]
    rfl
  · exact { h with sendKeys := rfl, sendSecret := rfl, sendPhase := rfl }

/-- The generation that the sending side has after a committed update. -/
def following (s r : ℕ) : ℕ := if s % 2 = (r + 1) % 2 then s else s + 1

section

variable (h : KeysAt cipher out inc s r e)
include h

lemma KeysAt.commit_eq :
    e.commitKeyUpdate cipher = { e with
      sendKeys := some (cipher.keysOf out (following s r))
      appSendSecret := cipher.generation out (following s r)
      sendKeyPhase := phaseOf (following s r)
      recvKeys := some (cipher.keysOf inc (r + 1))
      appRecvSecret := cipher.generation inc (r + 1)
      recvKeyPhase := phaseOf (r + 1) } := by
  have hrecv : e.commitRecv cipher = { e with
      recvKeys := some (cipher.keysOf inc (r + 1))
      appRecvSecret := cipher.generation inc (r + 1)
      recvKeyPhase := phaseOf (r + 1) } := by
    simp only [commitRecv, h.recvKeys, h.recvSecret, h.recvPhase, not_phaseOf]
    rw [← generation_succ]
    rfl
  rw [commitKeyUpdate, hrecv, commitSend]
  by_cases hphase : s % 2 = (r + 1) % 2
  · have hsame : phaseOf s = phaseOf (r + 1) := (phaseOf_eq_iff _ _).mpr hphase
    rw [following, if_pos hphase, ← h.sendKeys, ← h.sendSecret]
    simp [h.sendPhase, hsame]
  have hdiff : (phaseOf s != phaseOf (r + 1)) = true := by
    rw [bne_iff_ne]
    exact fun heq => hphase ((phaseOf_eq_iff _ _).mp heq)
  simp only [h.sendPhase, hdiff, h.sendKeys, h.sendSecret, following, if_neg hphase, not_phaseOf]
  rw [← generation_succ]
  rfl

lemma KeysAt.commit : KeysAt cipher out inc (following s r) (r + 1) (e.commitKeyUpdate cipher) := by
  rw [h.commit_eq]
  exact ⟨rfl, rfl, rfl, rfl, rfl, rfl, h.allowed⟩

lemma KeysAt.commit_frame : (e.commitKeyUpdate cipher).localCid = e.localCid ∧
      (e.commitKeyUpdate cipher).remoteCid = e.remoteCid ∧
      (e.commitKeyUpdate cipher).nextPn = e.nextPn := by
  rw [h.commit_eq]
  exact ⟨rfl, rfl, rfl⟩

lemma KeysAt.receive (received : Received) :
    KeysAt cipher out inc s r { e with received := received } :=
  { h with }

lemma KeysAt.buildShort (payload : Bytes) :
    e.buildShort cipher payload =
      some (cipher.protectShort (cipher.keysOf out s) e.remoteCid e.nextPn 4 payload
        e.sendKeyPhase, { e with nextPn := e.nextPn + 1 }) :=
  map_eq_some_iff.mpr ⟨_, h.sendKeys, rfl⟩

end

/-- The generation that a receiver tries for a phase bit. -/
def tried (r g : ℕ) : ℕ := if phaseOf g != phaseOf r then r + 1 else r

lemma tried_eq_iff {r g : ℕ} : tried r g = g ↔ g = r ∨ g = r + 1 := by
  unfold tried
  by_cases hphase : phaseOf g = phaseOf r
  · have hparity := (phaseOf_eq_iff _ _).mp hphase
    simp only [hphase, bne_self_eq_false, Bool.false_eq_true, if_false]
    omega
  · have hparity : ¬g % 2 = r % 2 := fun heq => hphase ((phaseOf_eq_iff _ _).mpr heq)
    simp only [bne_iff_ne, ne_eq, hphase, not_false_eq_true, if_true]
    omega

/-- The largest packet number that has arrived. -/
def largest (e : Endpoint) : ℕ := e.received.largest.getD 0

/-- A packet of a known generation either opens with the generation the phase bit tells and
moves the receiver there, or leaves the endpoint alone. -/
theorem recvShort_sealed (hc : cipher.Correct) (hinc : inc ≠ []) {g pn : ℕ}
    (hsep : cipher.Separates inc bound) (h : KeysAt cipher out inc s r e)
    (hcid : e.localCid.length ≤ 20) (hr : r + 1 ≤ bound) (hg : g ≤ bound) (hpn : pn < 2 ^ 62)
    (hlargest : e.largest < 2 ^ 62) (payload : Bytes) :
    e.recvShort cipher
        (cipher.protectShort (cipher.keysOf inc g) e.localCid pn 4 payload (phaseOf g)) =
      if (g = r ∨ g = r + 1) ∧ restored e.largest pn = pn then
        let e' := if g = r then e else e.commitKeyUpdate cipher
        ({ e' with received := (e'.received.accept pn).1 }, some ⟨e.localCid, pn, payload⟩)
      else (e, none) := by
  set aad := shortHeader e.localCid pn (phaseOf g)
  have hlong : 16 ≤ (cipher.sealPayload (cipher.keysOf inc g) pn aad payload).length := by
    rw [sealPayload, hc.encrypt_length]
    omega
  have hhp : (cipher.keysOf inc r).hp = (cipher.keysOf inc g).hp := rfl
  have hrestored : restored e.largest pn < 2 ^ 64 := restored_lt hlargest
  have hopen : cipher.openPayload (cipher.keysOf inc (tried r g)) (restored e.largest pn)
      aad (cipher.sealPayload (cipher.keysOf inc g) pn aad payload) =
        if (g = r ∨ g = r + 1) ∧ restored e.largest pn = pn then some payload
        else none := by
    split
    · rename_i hmatch
      rw [tried_eq_iff.mpr hmatch.1, hmatch.2]
      exact hc.decrypt_encrypt _ _ _ _
    rename_i hmiss
    have htried : tried r g ≤ bound := by
      unfold tried
      split <;> omega
    apply hsep g (tried r g) pn _ hg htried (by omega) hrestored
    intro heq
    rw [Prod.mk.injEq] at heq
    exact hmiss ⟨tried_eq_iff.mp heq.1.symm, heq.2.symm⟩
  have hchosen : (if phaseOf g != phaseOf r then some (cipher.keysOf inc (r + 1))
      else some (cipher.keysOf inc r)) = some (cipher.keysOf inc (tried r g)) := by
    unfold tried
    split <;> rfl
  have hsecret : (cipher.generation inc r).isEmpty = false :=
    isEmpty_eq_false_iff.mpr (generation_ne_nil hc hinc r)
  have halt : cipher.deriveUpdatedKv (cipher.nextKeyUpdateSecret (cipher.generation inc r))
      (cipher.keysOf inc r).hp = cipher.keysOf inc (r + 1) := cipher.keysOf_succ inc r
  have hhead := protectShort_head cipher (cipher.keysOf inc g) hcid pn payload (phaseOf g)
  obtain ⟨first, hfirst, hhigh, hfixed⟩ := hhead
  unfold recvShort
  simp only [hfirst, h.recvKeys, hhigh, hfixed, h.allowed, h.recvSecret, hsecret, h.recvPhase,
    halt, ne_eq, if_true, Bool.not_false, Bool.and_self]
  rw [show e.received.largest.getD 0 = e.largest from rfl,
    unprotectShort_protectShort cipher hhp _ _ hcid pn payload _ _ hlong, hchosen]
  by_cases hmatch : (g = r ∨ g = r + 1) ∧ restored e.largest pn = pn
  · have hphase : (phaseOf g != phaseOf r) = !decide (g = r) := by
      rcases hmatch.1 with rfl | rfl
      · simp
      · have hne : ¬(r + 1 = r) := by omega
        rw [← not_phaseOf, decide_eq_false hne]
        cases phaseOf r <;> rfl
    rw [bind_some, hopen, if_pos hmatch, if_pos hmatch]
    simp [hmatch.2, hphase]
  · rw [bind_some, hopen, if_neg hmatch, if_neg hmatch]
    rfl

end Endpoint

namespace Pair

variable {cipher : Cipher} {secret : Role → Bytes} {p : Pair}

@[simp] lemma set_ends_self (p : Pair) (role : Role) (e : Endpoint) :
    (p.set role e).ends role = e := update_self _ _ _

@[simp] lemma set_ends_peer (p : Pair) (role : Role) (e : Endpoint) :
    (p.set role e).ends role.peer = p.ends role.peer :=
  update_of_ne role.peer_ne _ _

/-- A packet sent with a generation up to `s` and a number below `next`. -/
def Sent (cipher : Cipher) (secret dcid : Bytes) (s next : ℕ) (pkt : Bytes) : Prop :=
  ∃ g pn payload, g ≤ s ∧ pn < next ∧
    pkt = cipher.protectShort (cipher.keysOf secret g) dcid pn 4 payload (phaseOf g)

/-- The next packet number is at most half a window ahead of what the receiver has seen. -/
def InWindow (sender receiver : Endpoint) : Prop :=
  receiver.largest ≤ sender.nextPn ∧ sender.nextPn ≤ receiver.largest + 1 + 2 ^ 31 ∧
    sender.nextPn < 2 ^ 62

/-- Sending and receiving generations of both endpoints, each within one of the others. -/
structure Agreement (cipher : Cipher) (secret : Role → Bytes) (s r : Role → ℕ) (p : Pair) :
    Prop where
  keys : ∀ x, (p.ends x).KeysAt cipher (secret x) (secret x.peer) (s x) (r x)
  cid : ∀ x, (p.ends x).remoteCid = (p.ends x.peer).localCid
  short : ∀ x, (p.ends x).localCid.length ≤ 20
  own : ∀ x, r x ≤ s x ∧ s x ≤ r x + 1
  across : ∀ x, r x.peer ≤ s x ∧ s x ≤ r x.peer + 1
  wire : ∀ x, ∀ pkt ∈ p.wire x,
    Sent cipher (secret x) (p.ends x).remoteCid (s x) (p.ends x).nextPn pkt
  window : ∀ x, InWindow (p.ends x) (p.ends x.peer)

variable {pkt : Bytes}

lemma Sent.mono {dcid : Bytes} {out : Bytes} {s s' next next' : ℕ}
    (h : Sent cipher out dcid s next pkt) (hs : s ≤ s') (hnext : next ≤ next') :
    Sent cipher out dcid s' next' pkt := by
  obtain ⟨g, pn, payload, hg, hpn, heq⟩ := h
  exact ⟨g, pn, payload, hg.trans hs, hpn.trans_le hnext, heq⟩

/-- The endpoint may start an update: its last one is confirmed in both directions. -/
def Confirmed (p : Pair) (role : Role) : Prop :=
  (p.ends role).sendKeyPhase = (p.ends role).recvKeyPhase ∧
    (p.ends role).sendKeyPhase = (p.ends role.peer).recvKeyPhase

variable {s r : Role → ℕ} {role : Role}

lemma Agreement.confirmed (h : Agreement cipher secret s r p)
    (hconf : p.Confirmed role) : s role = r role ∧ s role = r role.peer := by
  have hown := h.own role
  have hacross := h.across role
  have hphase := hconf.1
  have hphase' := hconf.2
  rw [(h.keys role).sendPhase, (h.keys role).recvPhase, phaseOf_eq_iff] at hphase
  rw [(h.keys role).sendPhase, (h.keys role.peer).recvPhase, phaseOf_eq_iff] at hphase'
  omega

/-- One endpoint changes and stays within one generation of itself and of its peer. -/
theorem Agreement.set (h : Agreement cipher secret s r p) {e : Endpoint} {s' r' : ℕ}
    (hkeys : e.KeysAt cipher (secret role) (secret role.peer) s' r')
    (hlocal : e.localCid = (p.ends role).localCid) (hremote : e.remoteCid = (p.ends role).remoteCid)
    (hs : s role ≤ s') (hnext : (p.ends role).nextPn ≤ e.nextPn) (hown : r' ≤ s' ∧ s' ≤ r' + 1)
    (hout : r role.peer ≤ s' ∧ s' ≤ r role.peer + 1) (hin : r' ≤ s role.peer ∧ s role.peer ≤ r' + 1)
    (hwindow : InWindow e (p.ends role.peer)) (hwindow' : InWindow (p.ends role.peer) e) :
    Agreement cipher secret (update s role s') (update r role r') (p.set role e) := by
  have hself : ∀ (f : Role → ℕ) n, update f role n role = n := fun f n => update_self _ _ _
  have hpeer : ∀ (f : Role → ℕ) n, update f role n role.peer = f role.peer :=
    fun f n => update_of_ne role.peer_ne _ _
  constructor <;> intro x <;> rcases role.eq_or_eq_peer x with rfl | rfl <;>
    simp [hpeer]
  · exact hkeys
  · simpa using h.keys role.peer
  · rw [hremote]
    exact h.cid _
  · rw [hlocal]
    simpa using h.cid role.peer
  · rw [hlocal]
    exact h.short _
  · exact h.short _
  · exact hown
  · exact h.own _
  · exact hout
  · exact hin
  · intro pkt hpkt
    rw [hremote]
    exact (h.wire _ pkt hpkt).mono hs hnext
  · exact h.wire _
  · exact hwindow
  · exact hwindow'

lemma Agreement.initiate (hc : cipher.Correct) (hsecret : ∀ x, secret x ≠ [])
    (h : Agreement cipher secret s r p) (hconf : p.Confirmed role) :
    Agreement cipher secret (update s role (s role + 1)) (update r role (r role))
      (p.exec cipher (.initiate role)) := by
  obtain ⟨hown, hacross⟩ := h.confirmed hconf
  obtain ⟨e, heq, hkeys, hlocal, hremote, hnext, hreceived⟩ :=
    (h.keys role).initiate hc (hsecret role)
  have hin := h.across role.peer
  have hwindow := h.window role
  have hwindow' := h.window role.peer
  rw [peer_peer] at hin hwindow'
  rw [exec, heq]
  apply h.set hkeys hlocal hremote (le_succ _) (le_of_eq hnext.symm)
  · omega
  · omega
  · exact hin
  · rw [InWindow, hnext]
    exact hwindow
  · rw [InWindow, largest, hreceived]
    exact hwindow'

/-- The network learns of a packet that was really sent. -/
theorem Agreement.addWire (h : Agreement cipher secret s r p)
    (hpkt : Sent cipher (secret role) (p.ends role).remoteCid (s role) (p.ends role).nextPn pkt) :
    Agreement cipher secret s r { p with wire := update p.wire role (p.wire role ++ [pkt]) } := by
  refine { h with wire := ?_ }
  intro x other hother
  rcases role.eq_or_eq_peer x with rfl | rfl
  · dsimp only at hother
    rw [update_self, mem_append, mem_singleton] at hother
    rcases hother with hold | rfl
    · exact h.wire _ _ hold
    · exact hpkt
  · dsimp only at hother
    rw [update_of_ne role.peer_ne] at hother
    exact h.wire _ _ hother

/-- The number of the packet after this one is still in the window. -/
def RoomFor (p : Pair) (role : Role) : Prop :=
  (p.ends role).nextPn ≤ (p.ends role.peer).largest + 2 ^ 31 ∧ (p.ends role).nextPn + 1 < 2 ^ 62

lemma Agreement.send (h : Agreement cipher secret s r p)
    (hroom : p.RoomFor role) (payload : Bytes) :
    Agreement cipher secret (update s role (s role)) (update r role (r role))
      (p.exec cipher (.send role payload)) := by
  have hkeys := h.keys role
  have hin := h.across role.peer
  have hwindow := h.window role
  have hwindow' := h.window role.peer
  rw [peer_peer] at hin hwindow'
  set e : Endpoint := { p.ends role with nextPn := (p.ends role).nextPn + 1 } with he
  have hset : Agreement cipher secret (update s role (s role))
      (update r role (r role)) (p.set role e) := by
    refine h.set ?_ rfl rfl le_rfl (le_succ _) (h.own role) (h.across role) hin ?_ hwindow'
    · exact { hkeys with }
    obtain ⟨hlow, -, -⟩ := hwindow
    obtain ⟨hhigh, hmax⟩ := hroom
    refine ⟨le_succ_of_le hlow, ?_, hmax⟩
    show (p.ends role).nextPn + 1 ≤ _
    omega
  set pkt := cipher.protectShort (cipher.keysOf (secret role) (s role)) (p.ends role).remoteCid
    (p.ends role).nextPn 4 payload (p.ends role).sendKeyPhase with hpkt
  have hexec : p.exec cipher (.send role payload) =
      { (p.set role e) with
        wire := update (p.set role e).wire role ((p.set role e).wire role ++ [pkt]) } := by
    rw [exec, hkeys.buildShort]
    rfl
  rw [hexec]
  apply hset.addWire
  rw [set_ends_self, update_self, hpkt, hkeys.sendPhase]
  exact ⟨s role, (p.ends role).nextPn, payload, le_rfl, lt_succ_self _, rfl⟩

lemma restored_of_window {sender receiver : Endpoint} (h : InWindow sender receiver) :
    restored receiver.largest sender.nextPn = sender.nextPn :=
  restored_eq h.1 h.2.1 h.2.2

/-- What a delivered packet can do to its receiver. -/
theorem Agreement.recvShort_cases (hc : cipher.Correct) (hsecret : ∀ x, secret x ≠ [])
    (h : Agreement cipher secret s r p) (hsep : cipher.Separates (secret role.peer) bound)
    (hbound : s role.peer ≤ bound) (hbound' : r role + 1 ≤ bound) (hpkt : pkt ∈ p.wire role.peer) :
    ((p.ends role).recvShort cipher pkt).1 = p.ends role ∨ ∃ pn < (p.ends role.peer).nextPn,
      ((p.ends role).recvShort cipher pkt).1 =
          { p.ends role with received := ((p.ends role).received.accept pn).1 } ∨
      (s role.peer = r role + 1 ∧ ((p.ends role).recvShort cipher pkt).1 =
        { (p.ends role).commitKeyUpdate cipher with
          received := ((p.ends role).received.accept pn).1 }) := by
  obtain ⟨g, pn, payload, hg, hpn, rfl⟩ := h.wire role.peer pkt hpkt
  have hcid := h.cid role.peer
  rw [peer_peer] at hcid
  have hwindow' := h.window role.peer
  rw [peer_peer] at hwindow'
  have hin := h.across role.peer
  rw [peer_peer] at hin
  have hlargest : (p.ends role).largest < 2 ^ 62 := hwindow'.1.trans_lt hwindow'.2.2
  rw [hcid, recvShort_sealed hc (hsecret role.peer) hsep (h.keys role) (h.short role)
    hbound' (hg.trans hbound) (hpn.trans hwindow'.2.2) hlargest]
  split
  · right
    refine ⟨pn, hpn, ?_⟩
    by_cases hsame : g = r role
    · left
      simp only [if_pos hsame]
    · right
      refine ⟨by omega, ?_⟩
      simp only [if_neg hsame]
      rw [(h.keys role).commit_eq]
  · left
    rfl

lemma InWindow.accept {sender receiver e : Endpoint} (h : InWindow sender receiver) {pn : ℕ}
    (hpn : pn < sender.nextPn) (he : e.received = (receiver.received.accept pn).1) :
    InWindow sender e := by
  obtain ⟨hlow, hhigh, hmax⟩ := h
  have hlargest : e.largest = max (receiver.received.largest.getD pn) pn := by
    rw [largest, he, Received.accept_largest, getD_some]
  unfold InWindow
  rw [hlargest]
  unfold largest at hlow hhigh
  cases hcase : receiver.received.largest with
  | none =>
    rw [hcase, getD_none] at hlow hhigh
    rw [getD_none]
    omega
  | some largest =>
    rw [hcase, getD_some] at hlow hhigh
    rw [getD_some]
    omega

lemma Agreement.deliver (hc : cipher.Correct) (hsecret : ∀ x, secret x ≠ [])
    (hsep : ∀ x, cipher.Separates (secret x) bound) (h : Agreement cipher secret s r p)
    (hbound : ∀ x, s x + 1 ≤ bound) (role : Role) (index : ℕ) :
    ∃ s' r', Agreement cipher secret s' r' (p.exec cipher (.deliver role index)) ∧
      ∀ x, s' x ≤ s x + 1 := by
  rw [exec]
  cases hget : (p.wire role.peer)[index]? with
  | none => exact ⟨s, r, h, fun x => le_succ _⟩
  | some pkt =>
    have hkeys := h.keys role
    have hown := h.own role
    have hown' := h.own role.peer
    have hout := h.across role
    have hin := h.across role.peer
    have hwindow := h.window role
    have hwindow' := h.window role.peer
    rw [peer_peer] at hin hwindow'
    have hpeer := hbound role.peer
    have hcases := h.recvShort_cases hc hsecret (hsep role.peer) (by omega) (by omega)
      (mem_of_getElem? hget)
    rcases hcases with heq | ⟨pn, hpn, heq | ⟨hgen, heq⟩⟩
    · refine ⟨s, r, ?_, fun x => le_succ _⟩
      have hsame : p.set role (p.ends role) = p := by
        rw [Pair.set, update_eq_self]
      dsimp only
      rw [heq, hsame]
      exact h
    · refine ⟨update s role (s role), update r role (r role), ?_, ?_⟩
      · dsimp only
        rw [heq]
        exact h.set (hkeys.receive _) rfl rfl le_rfl le_rfl hown hout hin hwindow
          (hwindow'.accept hpn rfl)
      · rw [update_eq_self]
        omega
    have hfollow : following (s role) (r role) = r role + 1 := by
      unfold following
      split <;> omega
    have hcommit := hkeys.commit
    obtain ⟨hlocal, hremote, hnext⟩ := hkeys.commit_frame
    rw [hfollow] at hcommit
    refine ⟨update s role (r role + 1), update r role (r role + 1), ?_, ?_⟩
    · dsimp only
      rw [heq]
      apply h.set (hcommit.receive ((p.ends role).received.accept pn).1) hlocal hremote
      · omega
      · exact le_of_eq hnext.symm
      · omega
      · omega
      · omega
      · rw [hnext]
        exact hwindow
      · exact hwindow'.accept hpn rfl
    · intro x
      rcases role.eq_or_eq_peer x with rfl | rfl
      · rw [update_self]
        omega
      · rw [update_of_ne role.peer_ne]
        omega

/-- The state before a step that the agreement needs. -/
def Fair (p : Pair) : PairStep → Prop
  | .initiate role => p.Confirmed role
  | .send role _ => p.RoomFor role
  | .deliver _ _ => True

/-- Every step of the run is fair in the state it is taken in. -/
def FairRun (cipher : Cipher) (p : Pair) : List PairStep → Prop
  | [] => True
  | step :: rest => p.Fair step ∧ FairRun cipher (p.exec cipher step) rest

/-- Both sides have completed the handshake and use the secrets it gave them. Packets of
before may still be under way. -/
structure Connected (cipher : Cipher) (secret : Role → Bytes) (p : Pair) : Prop where
  secret_ne : ∀ x, secret x ≠ []
  keys : ∀ x, (p.ends x).KeysAt cipher (secret x) (secret x.peer) 0 0
  cid : ∀ x, (p.ends x).remoteCid = (p.ends x.peer).localCid
  short : ∀ x, (p.ends x).localCid.length ≤ 20
  wire : ∀ x, ∀ pkt ∈ p.wire x, Sent cipher (secret x) (p.ends x).remoteCid 0 (p.ends x).nextPn pkt
  window : ∀ x, InWindow (p.ends x) (p.ends x.peer)

lemma Connected.agreement (h : Connected cipher secret p) :
    Agreement cipher secret (fun _ => 0) (fun _ => 0) p where
  __ := h
  own := fun _ => ⟨le_rfl, zero_le _⟩
  across := fun _ => ⟨le_rfl, zero_le _⟩

lemma Agreement.step (hc : cipher.Correct) (hsecret : ∀ x, secret x ≠ [])
    (hsep : ∀ x, cipher.Separates (secret x) bound) (h : Agreement cipher secret s r p)
    (hbound : ∀ x, s x + 1 ≤ bound) {step : PairStep} (hfair : p.Fair step) :
    ∃ s' r', Agreement cipher secret s' r' (p.exec cipher step) ∧ ∀ x, s' x ≤ s x + 1 := by
  cases step with
  | initiate role =>
    refine ⟨_, _, h.initiate hc hsecret hfair, ?_⟩
    intro x
    rcases role.eq_or_eq_peer x with rfl | rfl
    · rw [update_self]
    · rw [update_of_ne role.peer_ne]
      omega
  | send role payload =>
    refine ⟨_, _, h.send hfair payload, ?_⟩
    rw [update_eq_self]
    omega
  | deliver role index => exact h.deliver hc hsecret hsep hbound role index

lemma Agreement.run (hc : cipher.Correct) (hsecret : ∀ x, secret x ≠ [])
    (hsep : ∀ x, cipher.Separates (secret x) bound) (steps : List PairStep)
    (h : Agreement cipher secret s r p) (hbound : ∀ x, s x + steps.length ≤ bound)
    (hfair : FairRun cipher p steps) : ∃ s' r', Agreement cipher secret s' r' (p.run cipher steps) ∧
      ∀ x, s' x ≤ s x + steps.length := by
  induction steps generalizing p s r with
  | nil => exact ⟨s, r, h, fun x => le_add_right _ _⟩
  | cons step rest ih =>
    rw [length_cons] at hbound
    obtain ⟨hfirst, hrest⟩ := hfair
    obtain ⟨s', r', hnext, hgrow⟩ := h.step hc hsecret hsep
      (fun x => by have := hbound x; omega) hfirst
    obtain ⟨s'', r'', hlast, hgrow'⟩ := ih hnext
      (fun x => by have := hbound x; have := hgrow x; omega) hrest
    refine ⟨s'', r'', hlast, ?_⟩
    intro x
    have hx := hgrow x
    have hx' := hgrow' x
    rw [length_cons]
    omega

/-- The receiver uses the sender's generation or the one before it, and the phase bits tell
which. -/
def InStep (cipher : Cipher) (secret : Bytes) (sender receiver : Endpoint) : Prop :=
  ∃ g, receiver.appRecvSecret = cipher.generation secret g ∧
    (sender.appSendSecret = cipher.generation secret g ∧
        sender.sendKeyPhase = receiver.recvKeyPhase ∨
      sender.appSendSecret = cipher.generation secret (g + 1) ∧
        sender.sendKeyPhase ≠ receiver.recvKeyPhase)

/-- The receiver opens the packet that the sender would make now. -/
def Opens (cipher : Cipher) (sender receiver : Endpoint) : Prop :=
  ∀ payload, ∃ pkt next, sender.buildShort cipher payload = some (pkt, next) ∧
    (receiver.recvShort cipher pkt).2 = some ⟨receiver.localCid, sender.nextPn, payload⟩

lemma Agreement.inStep (h : Agreement cipher secret s r p) (role : Role) :
    InStep cipher (secret role) (p.ends role) (p.ends role.peer) := by
  have hrecv := h.keys role.peer
  rw [peer_peer] at hrecv
  refine ⟨r role.peer, hrecv.recvSecret, ?_⟩
  rw [(h.keys role).sendSecret, (h.keys role).sendPhase, hrecv.recvPhase]
  obtain ⟨hlow, hhigh⟩ := h.across role
  rcases eq_or_lt_of_le hlow with heq | hlt
  · left
    rw [heq]
    exact ⟨rfl, rfl⟩
  right
  have heq : s role = r role.peer + 1 := by omega
  rw [heq]
  refine ⟨rfl, ?_⟩
  rw [ne_eq, phaseOf_eq_iff]
  omega

lemma Agreement.opens (hc : cipher.Correct) (hsecret : ∀ x, secret x ≠ [])
    (hsep : ∀ x, cipher.Separates (secret x) bound) (h : Agreement cipher secret s r p)
    (hbound : ∀ x, s x + 1 ≤ bound) (role : Role) :
    Opens cipher (p.ends role) (p.ends role.peer) := by
  intro payload
  refine ⟨_, _, (h.keys role).buildShort payload, ?_⟩
  have hrecv := h.keys role.peer
  rw [peer_peer] at hrecv
  have hacross := h.across role
  have hself := hbound role
  have hwindow := h.window role
  have hlargest : (p.ends role.peer).largest < 2 ^ 62 := hwindow.1.trans_lt hwindow.2.2
  rw [h.cid role, (h.keys role).sendPhase, recvShort_sealed hc (hsecret role) (hsep role)
    hrecv (h.short role.peer) (by omega) (by omega) hwindow.2.2 hlargest, if_pos]
  refine ⟨by omega, restored_of_window hwindow⟩

/-- In every run whose updates wait for the confirmation of the one before, and whose
senders stay within the window of packet numbers, both directions stay in step and every
freshly sent packet can be opened. -/
theorem key_update_agreement (cipher : Cipher) (secret : Role → Bytes) (start : Pair)
    (steps : List PairStep) (hc : cipher.Correct)
    (hsep : ∀ x, cipher.Separates (secret x) (steps.length + 1))
    (hstart : Connected cipher secret start) (hfair : FairRun cipher start steps) (role : Role) :
    InStep cipher (secret role) ((start.run cipher steps).ends role)
        ((start.run cipher steps).ends role.peer) ∧
      Opens cipher ((start.run cipher steps).ends role)
        ((start.run cipher steps).ends role.peer) := by
  obtain ⟨s, r, hlast, hgrow⟩ := hstart.agreement.run hc hstart.secret_ne hsep steps
    (fun x => by omega) hfair
  refine ⟨hlast.inStep role, hlast.opens hc hstart.secret_ne hsep ?_ role⟩
  intro x
  have hx := hgrow x
  omega

def plainTag (key nonce : Bytes) : Bytes := (key.take 4 ++ nonce ++ List.replicate 16 0).take 16

def plainCipher : Cipher where
  keyLen := 16
  hkdfExpandLabel secret label n :=
    let next := match secret with
      | [] => []
      | b :: rest => (if label = "quic ku" then b + 1 else b) :: rest
    (next ++ List.replicate n 0).take n
  encrypt key nonce _ plaintext := plaintext ++ plainTag key nonce
  decrypt key nonce _ ciphertext :=
    if ciphertext.drop (ciphertext.length - 16) = plainTag key nonce
    then some (ciphertext.take (ciphertext.length - 16)) else none
  headerMask _ _ _ := 0

lemma plainTag_length (key nonce : Bytes) : (plainTag key nonce).length = 16 := by
  simp only [plainTag, length_take, length_append, length_replicate]
  omega

lemma plainCipher_decrypt (key nonce key' nonce' aad plaintext : Bytes) :
    plainCipher.decrypt key' nonce' aad (plainCipher.encrypt key nonce aad plaintext) =
      if plainTag key nonce = plainTag key' nonce' then some plaintext else none := by
  have hlen : (plaintext ++ plainTag key nonce).length - 16 = plaintext.length := by
    rw [length_append, plainTag_length]
    omega
  simp only [plainCipher, hlen, drop_left, take_left]

lemma plainCipher_correct : plainCipher.Correct where
  expand_length := by intro secret label n; simp [plainCipher]
  encrypt_length := by intro key nonce aad plaintext; simp [plainCipher, plainTag_length]
  decrypt_encrypt := by intro key nonce aad plaintext; simp [plainCipher_decrypt]

def plainSecret (_ : Role) : Bytes := List.replicate 16 0

lemma plainCipher_generation (role : Role) (g : ℕ) :
    plainCipher.generation (plainSecret role) g = UInt8.ofNat g :: List.replicate 15 0 := by
  induction g with
  | zero => rfl
  | succ g ih =>
    rw [generation_succ, ih]
    simp [nextKeyUpdateSecret, plainCipher]

lemma plainTag_keysOf (role : Role) (g pn : ℕ) :
    plainTag (plainCipher.keysOf (plainSecret role) g).key
        (nonce (plainCipher.keysOf (plainSecret role) g).iv pn) =
      [UInt8.ofNat g, 0, 0, 0, UInt8.ofNat g, 0, 0, 0] ++ BigEndian.encode 8 pn := by
  rw [keysOf, plainCipher_generation]
  simp [plainTag, deriveUpdatedKv, nonce, BigEndian.encode, plainCipher]

lemma plainCipher_separates (role : Role) (hbound : bound < 256) :
    plainCipher.Separates (plainSecret role) bound := by
  intro g g' pn pn' hg hg' hpn hpn' hne aad plaintext
  rw [openPayload, sealPayload, plainCipher_decrypt, if_neg]
  rw [plainTag_keysOf, plainTag_keysOf]
  intro heq
  simp only [cons_append, nil_append, cons.injEq, true_and] at heq
  apply hne
  have hgen := congrArg UInt8.toNat heq.1
  have hnum := congrArg BigEndian.decode heq.2.2
  rw [BigEndian.decode_encode (by omega), BigEndian.decode_encode (by omega)] at hnum
  simp only [UInt8.toNat_ofNat'] at hgen
  rw [Prod.mk.injEq]
  omega

def plainEnd (role : Role) : Endpoint where
  localCid := [UInt8.ofNat role.initiator]
  remoteCid := [UInt8.ofNat role.peer.initiator]
  sendKeys := some (plainCipher.keysOf (plainSecret role) 0)
  recvKeys := some (plainCipher.keysOf (plainSecret role.peer) 0)
  nextPn := 0
  received := ⟨none, 0⟩
  appSendSecret := plainSecret role
  appRecvSecret := plainSecret role.peer
  sendKeyPhase := false
  recvKeyPhase := false
  keyUpdateAllowed := true

def plainPair : Pair := ⟨plainEnd, fun _ => []⟩

lemma plainPair_connected : Connected plainCipher plainSecret plainPair where
  secret_ne := by intro x; simp [plainSecret]
  keys := fun _ => ⟨rfl, rfl, rfl, rfl, rfl, rfl, rfl⟩
  cid := by intro x; rfl
  short := by intro x; simp [plainPair, plainEnd]
  wire := by intro x pkt hpkt; exact absurd hpkt not_mem_nil
  window := by intro x; simp [InWindow, largest, plainPair, plainEnd]

instance (p : Pair) (role : Role) : Decidable (p.Confirmed role) :=
  inferInstanceAs (Decidable (_ ∧ _))

instance (p : Pair) (role : Role) : Decidable (p.RoomFor role) :=
  inferInstanceAs (Decidable (_ ∧ _))

/-- Two updates in a row, both granted, leave the phase bit where the receiver expects it
while the secret is two generations on: the next packet cannot be opened although none
was sent before. -/
theorem update_twice_locks_out :
    Connected plainCipher plainSecret plainPair ∧
      ((plainPair.ends .client).initiateKeyUpdate plainCipher).2 = true ∧
      (((plainPair.run plainCipher [.initiate .client]).ends .client).initiateKeyUpdate
        plainCipher).2 = true ∧
      ¬InStep plainCipher (plainSecret .client)
        ((plainPair.run plainCipher [.initiate .client, .initiate .client]).ends .client)
        ((plainPair.run plainCipher [.initiate .client, .initiate .client]).ends .server) ∧
      ¬Opens plainCipher
        ((plainPair.run plainCipher [.initiate .client, .initiate .client]).ends .client)
        ((plainPair.run plainCipher [.initiate .client, .initiate .client]).ends .server) := by
  refine ⟨plainPair_connected, by decide +kernel, by decide +kernel, ?_, ?_⟩
  · rintro ⟨g, hrecv, ⟨hsend, -⟩ | ⟨-, hphase⟩⟩
    · exact absurd (hsend.trans hrecv.symm) (by decide +kernel)
    · exact hphase (by decide +kernel)
  intro hopens
  obtain ⟨pkt, next, hbuild, hrecv⟩ := hopens [1]
  have hnone : ((((plainPair.run plainCipher
      [.initiate .client, .initiate .client]).ends .client).buildShort plainCipher [1]).map
        fun built => (((plainPair.run plainCipher
          [.initiate .client, .initiate .client]).ends .server).recvShort plainCipher built.1).2) =
      some none := by
    decide +kernel
  rw [hbuild, map_some, hrecv] at hnone
  exact absurd hnone (by simp)

/-- An update, an answer to it and a second update. -/
def patientSteps : List PairStep :=
  [.initiate .client, .send .client [1], .deliver .server 0, .send .server [2],
    .deliver .client 0, .initiate .client]

lemma patientSteps_fair : FairRun plainCipher plainPair patientSteps := by
  refine ⟨?_, ?_, trivial, ?_, trivial, ?_, trivial⟩
  · show plainPair.Confirmed .client
    decide +kernel
  · show (plainPair.run plainCipher (patientSteps.take 1)).RoomFor .client
    decide +kernel
  · show (plainPair.run plainCipher (patientSteps.take 3)).RoomFor .server
    decide +kernel
  · show (plainPair.run plainCipher (patientSteps.take 5)).Confirmed .client
    decide +kernel

theorem key_update_agreement_patient :
    FairRun plainCipher plainPair patientSteps ∧
      InStep plainCipher (plainSecret .client)
        ((plainPair.run plainCipher patientSteps).ends .client)
        ((plainPair.run plainCipher patientSteps).ends .server) ∧
      Opens plainCipher ((plainPair.run plainCipher patientSteps).ends .client)
        ((plainPair.run plainCipher patientSteps).ends .server) :=
  ⟨patientSteps_fair, key_update_agreement plainCipher plainSecret plainPair patientSteps
    plainCipher_correct (fun x => plainCipher_separates x (by decide)) plainPair_connected
    patientSteps_fair .client⟩

end Pair
end OnetDns.Quic
