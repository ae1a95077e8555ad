import OnetDns.Lib.BigEndian
import OnetDns.Quic.Types

/-!
# Protection of short header packets

`protect.rs` and the short header half of `packet.rs`. The negotiated AEAD, its header
mask and the key expansion come from outside the repository and are the fields of
`Cipher`; nonces, headers and packet numbers are computed as in the source.
-/
namespace OnetDns.Quic
open List BigEndian

/-- The primitives of the negotiated cipher suite. -/
structure Cipher where
  keyLen : ℕ
  hkdfExpandLabel : Bytes → String → ℕ → Bytes
  encrypt : Bytes → Bytes → Bytes → Bytes → Bytes
  decrypt : Bytes → Bytes → Bytes → Bytes → Option Bytes
  headerMask : Bytes → Bytes → Fin 5 → UInt8

structure PacketKeys where
  key : Bytes
  iv : Bytes
  hp : Bytes

structure ShortPacket where
  dcid : Bytes
  pn : ℕ
  payload : Bytes
  deriving DecidableEq

/-- The bytes `low..high` of a slice, if it is that long. -/
def getRange (bytes : Bytes) (low high : ℕ) : Option Bytes :=
  if high ≤ bytes.length then some ((bytes.drop low).take (high - low)) else none

lemma getRange_append (front middle rest : Bytes) {low high : ℕ} (hlow : low = front.length)
    (hhigh : high = front.length + middle.length) :
    getRange (front ++ (middle ++ rest)) low high = some middle := by
  subst hlow hhigh
  simp [getRange]

/-- `Aead::nonce`: the packet number is added bitwise to the last eight bytes. -/
def nonce (iv : Bytes) (pn : ℕ) : Bytes :=
  iv.take 4 ++ List.zipWith (· ^^^ ·) ((iv.drop 4).take 8) (BigEndian.encode 8 pn)

def decodePn (largestPn truncated pnNbits : ℕ) : ℕ :=
  let pnWin := 2 ^ pnNbits
  let pnHwin := pnWin / 2
  let expected := (largestPn + 1) % 2 ^ 64
  let candidate := expected / pnWin * pnWin + truncated
  if candidate + pnHwin ≤ expected ∧ candidate + pnWin < 2 ^ 62 then candidate + pnWin
  else if expected + pnHwin < candidate ∧ pnWin ≤ candidate then candidate - pnWin
  else candidate

/-- The packet numbers received of one space: the largest and a bit for each of the 128
numbers up to it. -/
structure Received where
  largest : Option ℕ
  mask : BitVec 128

/-- `accept_packet_number`. -/
def Received.accept (received : Received) (pn : ℕ) : Received × Bool :=
  match received.largest with
  | none => (⟨some pn, 1⟩, true)
  | some largest =>
    if largest < pn then
      let shift := pn - largest
      (⟨some pn, if 128 ≤ shift then 1 else (received.mask <<< shift) ||| 1⟩, true)
    else
      let distance := largest - pn
      if 128 ≤ distance then (received, false)
      else if received.mask.getLsbD distance then (received, false)
      else (⟨some largest, received.mask ||| (1#128 <<< distance)⟩, true)

lemma Received.accept_largest (received : Received) (pn : ℕ) :
    (received.accept pn).1.largest = some (max (received.largest.getD pn) pn) := by
  unfold accept
  split
  · rename_i hnone
    simp [hnone]
  rename_i largest hsome
  rw [hsome, Option.getD_some]
  split
  · rename_i hlt
    rw [max_eq_right (le_of_lt hlt)]
  rename_i hle
  rw [max_eq_left (Nat.le_of_not_lt hle)]
  dsimp only
  split
  · exact hsome
  · split
    · exact hsome
    · rfl

def maskPn (mask : Fin 5 → UInt8) (pnBytes : Bytes) : Bytes :=
  List.zipWith (· ^^^ ·) pnBytes [mask 1, mask 2, mask 3, mask 4]

namespace Cipher

variable (cipher : Cipher)

def derivePacketKeys (secret : Bytes) : PacketKeys where
  key := cipher.hkdfExpandLabel secret "quic key" cipher.keyLen
  iv := cipher.hkdfExpandLabel secret "quic iv" 12
  hp := cipher.hkdfExpandLabel secret "quic hp" cipher.keyLen

def nextKeyUpdateSecret (secret : Bytes) : Bytes :=
  cipher.hkdfExpandLabel secret "quic ku" secret.length

/-- `derive_updated_kv`: the header protection key stays. -/
def deriveUpdatedKv (secret hp : Bytes) : PacketKeys where
  key := cipher.hkdfExpandLabel secret "quic key" cipher.keyLen
  iv := cipher.hkdfExpandLabel secret "quic iv" 12
  hp := hp

variable (keys : PacketKeys)

/-- `Aead::seal`. -/
def sealPayload (pn : ℕ) (aad plaintext : Bytes) : Bytes :=
  cipher.encrypt keys.key (nonce keys.iv pn) aad plaintext

/-- `Aead::open`. -/
def openPayload (pn : ℕ) (aad ciphertext : Bytes) : Option Bytes :=
  cipher.decrypt keys.key (nonce keys.iv pn) aad ciphertext

def firstByte (keyPhase : Bool) (pnLen : ℕ) : UInt8 :=
  0x40 ||| (if keyPhase then 0x04 else 0) ||| UInt8.ofNat (pnLen - 1)

def protectShort (dcid : Bytes) (pn pnLen : ℕ) (payload : Bytes)
    (keyPhase : Bool) : Bytes :=
  if pnLen < 1 ∨ 4 < pnLen ∨ 20 < dcid.length then []
  else
    let first := firstByte keyPhase pnLen
    let pnBytes := BigEndian.encode pnLen pn
    let aad := first :: (dcid ++ pnBytes)
    let plaintext := payload ++ List.replicate (4 - pnLen - payload.length) 0
    let ct := cipher.sealPayload keys pn aad plaintext
    let mask := cipher.headerMask keys.hp (((pnBytes ++ ct).drop 4).take 16)
    (first ^^^ (mask 0 &&& 0x1f)) :: (dcid ++ (maskPn mask pnBytes ++ ct))

/-- `unprotect_short`. The header with its first byte and number unmasked is authenticated. -/
def unprotectShort (altKeys : Option PacketKeys) (expectedPhase : Bool)
    (pkt : Bytes) (dcidLen largestPn : ℕ) : Option (ShortPacket × Bool) := do
  let first0 ← pkt.head?
  guard (first0 &&& 0x80 = 0)
  let dcid ← getRange pkt 1 (1 + dcidLen)
  let pnOffset := 1 + dcidLen
  let sample ← getRange pkt (pnOffset + 4) (pnOffset + 4 + 16)
  let mask := cipher.headerMask keys.hp sample
  let first := first0 ^^^ (mask 0 &&& 0x1f)
  let pnLen := (first &&& 0x03).toNat + 1
  let keyPhase := first &&& 0x04 != 0
  let masked ← getRange pkt pnOffset (pnOffset + pnLen)
  let pnBytes := maskPn mask masked
  let pn := decodePn largestPn (BigEndian.decode pnBytes) (pnLen * 8)
  let aad := first :: (dcid ++ pnBytes)
  let ct := pkt.drop (pnOffset + pnLen)
  let phaseChanged := keyPhase != expectedPhase
  let pk ← if phaseChanged then altKeys else some keys
  let payload ← cipher.openPayload pk pn aad ct
  return (⟨dcid, pn, payload⟩, phaseChanged)

lemma xor_xor_mask (first mask : UInt8) : first ^^^ mask ^^^ mask = first := by
  rw [UInt8.xor_assoc, UInt8.xor_self, UInt8.xor_zero]

lemma maskPn_maskPn (mask : Fin 5 → UInt8) {pnBytes : Bytes} (h : pnBytes.length ≤ 4) :
    maskPn mask (maskPn mask pnBytes) = pnBytes := by
  match pnBytes, h with
  | [], _ => rfl
  | [_], _ => simp only [maskPn, zipWith_cons_cons, zipWith_nil_left, xor_xor_mask]
  | [_, _], _ => simp only [maskPn, zipWith_cons_cons, zipWith_nil_left, xor_xor_mask]
  | [_, _, _], _ => simp only [maskPn, zipWith_cons_cons, zipWith_nil_left, xor_xor_mask]
  | [_, _, _, _], _ => simp only [maskPn, zipWith_cons_cons, zipWith_nil_left, xor_xor_mask]

lemma maskPn_length (mask : Fin 5 → UInt8) {pnBytes : Bytes} (h : pnBytes.length ≤ 4) :
    (maskPn mask pnBytes).length = pnBytes.length := by
  simp only [maskPn, length_zipWith, length_cons]
  omega

lemma masked_and (first mask : UInt8) {bits keep : UInt8} (h : bits &&& keep = 0) :
    (first ^^^ (mask &&& bits)) &&& keep = first &&& keep := by
  have hmask : mask &&& bits &&& keep = 0 := by rw [UInt8.and_assoc, h, UInt8.and_zero]
  have hnum := congrArg UInt8.toNat hmask
  apply UInt8.toNat.inj
  rw [UInt8.toNat_and] at hnum ⊢
  rw [UInt8.toNat_xor, Nat.and_xor_distrib_right, hnum, UInt8.toNat_and, UInt8.toNat_zero,
    Nat.xor_zero]

variable (keyPhase : Bool)

lemma firstByte_high (mask : UInt8) : (firstByte keyPhase 4 ^^^ (mask &&& 0x1f)) &&& 0x80 = 0 := by
  rw [masked_and _ _ rfl]
  cases keyPhase <;> rfl

lemma firstByte_fixed (mask : UInt8) : (firstByte keyPhase 4 ^^^ (mask &&& 0x1f)) &&& 0x40 ≠ 0 := by
  rw [masked_and _ _ rfl]
  cases keyPhase <;> decide

lemma firstByte_pnLen : (firstByte keyPhase 4 &&& 0x03).toNat + 1 = 4 := by
  cases keyPhase <;> rfl

lemma firstByte_phase : (firstByte keyPhase 4 &&& 0x04 != 0) = keyPhase := by
  cases keyPhase <;> rfl

/-- The authenticated header of a packet with a four byte number. -/
def shortHeader (dcid : Bytes) (pn : ℕ) (keyPhase : Bool) : Bytes :=
  firstByte keyPhase 4 :: (dcid ++ BigEndian.encode 4 pn)

/-- The number that the receiver restores for a four byte number. -/
def restored (largestPn pn : ℕ) : ℕ := decodePn largestPn (pn % 2 ^ 32) 32

variable {dcid : Bytes}

lemma protectShort_eq (keys : PacketKeys) (hdcid : dcid.length ≤ 20) (pn : ℕ)
    (payload : Bytes) (keyPhase : Bool) :
    ∃ mask, mask = cipher.headerMask keys.hp
        ((cipher.sealPayload keys pn (shortHeader dcid pn keyPhase) payload).take 16) ∧
      cipher.protectShort keys dcid pn 4 payload keyPhase =
        (firstByte keyPhase 4 ^^^ (mask 0 &&& 0x1f)) :: (dcid ++
          (maskPn mask (encode 4 pn) ++
            cipher.sealPayload keys pn (shortHeader dcid pn keyPhase) payload)) := by
  have hguard : ¬(4 < 1 ∨ 4 < 4 ∨ 20 < dcid.length) := by omega
  have hnum : (encode 4 pn).length = 4 := encode_length 4 pn
  refine ⟨_, rfl, ?_⟩
  simp only [protectShort, if_neg hguard, Nat.sub_self, Nat.zero_sub, replicate_zero,
    append_nil, drop_append_of_le_length (le_of_eq hnum.symm), shortHeader]
  rw [drop_of_length_le (le_of_eq hnum), nil_append]

lemma protectShort_head (keys : PacketKeys) (hdcid : dcid.length ≤ 20) (pn : ℕ)
    (payload : Bytes) (keyPhase : Bool) :
    ∃ first, (cipher.protectShort keys dcid pn 4 payload keyPhase).head? = some first ∧
      first &&& 0x80 = 0 ∧ first &&& 0x40 ≠ 0 := by
  obtain ⟨mask, -, heq⟩ := cipher.protectShort_eq keys hdcid pn payload keyPhase
  rw [heq]
  exact ⟨_, rfl, firstByte_high _ _, firstByte_fixed _ _⟩

lemma unprotectShort_protectShort {keys sender : PacketKeys} (hhp : keys.hp = sender.hp)
    (alt : Option PacketKeys) (expected : Bool) (hdcid : dcid.length ≤ 20)
    (pn : ℕ) (payload : Bytes) (keyPhase : Bool) (largestPn : ℕ)
    (hlong : 16 ≤ (cipher.sealPayload sender pn (shortHeader dcid pn keyPhase) payload).length) :
    cipher.unprotectShort keys alt expected
        (cipher.protectShort sender dcid pn 4 payload keyPhase) dcid.length largestPn =
      (if keyPhase != expected then alt else some keys).bind fun pk =>
        (cipher.openPayload pk (restored largestPn pn) (shortHeader dcid pn keyPhase)
          (cipher.sealPayload sender pn (shortHeader dcid pn keyPhase) payload)).map
            fun opened => (⟨dcid, restored largestPn pn, opened⟩, keyPhase != expected) := by
  obtain ⟨mask, hmask, heq⟩ := cipher.protectShort_eq sender hdcid pn payload keyPhase
  set ct := cipher.sealPayload sender pn (shortHeader dcid pn keyPhase) payload
  have hnum : (encode 4 pn).length = 4 := encode_length 4 pn
  have hmasked := maskPn_length mask (le_of_eq hnum)
  set masked := maskPn mask (encode 4 pn)
  set first0 := firstByte keyPhase 4 ^^^ (mask 0 &&& 0x1f)
  set pkt := cipher.protectShort sender dcid pn 4 payload keyPhase
  have hcid : getRange pkt 1 (1 + dcid.length) = some dcid := by
    rw [heq]
    exact getRange_append [first0] dcid _ rfl rfl
  have hsample : getRange pkt (1 + dcid.length + 4) (1 + dcid.length + 4 + 16) =
      some (ct.take 16) := by
    have hsplit : pkt = (first0 :: (dcid ++ masked)) ++ (ct.take 16 ++ ct.drop 16) := by
      rw [heq]
      simp
    rw [hsplit]
    apply getRange_append
    · simp [hmasked]
      omega
    · simp [hmasked]
      omega
  have hpn : getRange pkt (1 + dcid.length) (1 + dcid.length + 4) = some masked := by
    have hsplit : pkt = (first0 :: dcid) ++ (masked ++ ct) := by rw [heq]; simp
    rw [hsplit]
    apply getRange_append
    · simp [add_comm]
    · simp [hmasked, add_comm]
  have hct : pkt.drop (1 + dcid.length + 4) = ct := by
    have hsplit : pkt = (first0 :: (dcid ++ masked)) ++ ct := by rw [heq]; simp
    rw [hsplit]
    apply drop_left'
    simp [hmasked]
    omega
  have hhead : pkt.head? = some first0 := by rw [heq]; rfl
  have hfirst : first0 ^^^ (mask 0 &&& 0x1f) = firstByte keyPhase 4 := xor_xor_mask _ _
  have hback : maskPn mask masked = encode 4 pn := maskPn_maskPn mask (le_of_eq hnum)
  have hvalue : decode (encode 4 pn) = pn % 2 ^ 32 := decode_encode_mod 4 pn
  have hhigh : first0 &&& 0x80 = 0 := firstByte_high keyPhase (mask 0)
  unfold unprotectShort
  simp only [hhead, hcid, hsample, Option.bind_eq_bind, Option.bind_some, hhp, ← hmask, hfirst,
    firstByte_pnLen, firstByte_phase, hpn, hct, hback, hvalue, guard, if_pos hhigh]
  split
  · simp only [Option.map_eq_bind]
    rfl
  · simp only [Option.map_eq_bind]
    rfl

lemma restored_lt {largestPn pn : ℕ} (h : largestPn < 2 ^ 62) : restored largestPn pn < 2 ^ 64 := by
  unfold restored decodePn
  have hexpected : (largestPn + 1) % 2 ^ 64 = largestPn + 1 := by omega
  simp only [hexpected]
  split <;> [skip; split] <;> omega

lemma restored_eq {largestPn pn : ℕ} (hlow : largestPn ≤ pn) (hhigh : pn ≤ largestPn + 1 + 2 ^ 31)
    (hmax : pn < 2 ^ 62) : restored largestPn pn = pn := by
  unfold restored decodePn
  have hexpected : (largestPn + 1) % 2 ^ 64 = largestPn + 1 := by omega
  simp only [hexpected]
  split <;> [skip; split] <;> omega

end Cipher
end OnetDns.Quic
