import OnetDns.Lib.PrefixCode
import OnetDns.Quic.Packets

/-!
# Integers of variable length

`varint::read` and `varint::len` of `onetdns-quic`. What `varint::write` writes of a number below
`2 ^ 62` is read back.
-/
namespace OnetDns.Quic.Codec
open PrefixCode Transport Nat BigEndian

def varintLimit : ℕ := 2 ^ 62

/-- The loop of `varint::read` over the bytes behind the first. -/
def readMore : ℕ → ℕ → Bytes → Option ℕ
  | 0, val, _ => some val
  | _ + 1, _, [] => none
  | n + 1, val, b :: rest => readMore n (val * 256 + b.toNat) rest

/-- `varint::read`: the value, and how many bytes it took. -/
def readVarint : Bytes → Option (ℕ × ℕ)
  | [] => none
  | first :: rest => do
    let len := 2 ^ (first.toNat / 64)
    let val ← readMore (len - 1) (first.toNat % 64) rest
    return (val, len)

/-- `varint::len`. -/
def varintLen (v : ℕ) : ℕ :=
  if v < 2 ^ 6 then 1 else if v < 2 ^ 14 then 2 else if v < 2 ^ 30 then 4 else 8

lemma readMore_append (bytes rest : Bytes) (val : ℕ) :
    readMore bytes.length val (bytes ++ rest) = some (val * 256 ^ bytes.length + decode bytes) := by
  induction bytes generalizing val with
  | nil => simp only [List.length_nil, readMore, pow_zero, mul_one, decode, add_zero]
  | cons b bytes ih =>
    rw [List.length_cons, List.cons_append, readMore, ih, decode]
    exact congrArg some (by ring)

variable {v : ℕ}

/-- A number with its length in the two upper bits. -/
theorem readVarint_tagged {w k : ℕ} (hk : k < 4) (hw : 2 ^ k = w + 1) (hv : v < 64 * 256 ^ w)
    (rest : Bytes) :
    readVarint (encode (w + 1) (v + k * 64 * 256 ^ w) ++ rest) = some (v, w + 1) := by
  have hdiv : v / 256 ^ w < 64 := Nat.div_lt_of_lt_mul (by rwa [mul_comm])
  have hfirst : (UInt8.ofNat ((v + k * 64 * 256 ^ w) / 256 ^ w)).toNat = v / 256 ^ w + k * 64 := by
    rw [add_mul_div_right _ _ (by positivity)]
    exact mod_eq_of_lt (by omega)
  have hlen : (v / 256 ^ w + k * 64) / 64 = k := by
    rw [add_mul_div_right _ _ (by decide), div_eq_of_lt hdiv, zero_add]
  have hval : (v / 256 ^ w + k * 64) % 64 = v / 256 ^ w := by
    rw [add_mul_mod_self_right, mod_eq_of_lt hdiv]
  have hmore := readMore_append (encode w v) rest (v / 256 ^ w)
  rw [encode_length, decode_encode_mod, div_add_mod'] at hmore
  rw [encode, List.cons_append, readVarint, hfirst, hlen, hval, hw, Nat.add_sub_cancel,
    encode_add_mul, hmore]
  rfl

/-- The two upper bits do not meet the number. -/
theorem or_tag {w k : ℕ} (hv : v < 64 * 256 ^ w) :
    v ||| k * 64 * 256 ^ w = v + k * 64 * 256 ^ w := by
  have hpow : 64 * 256 ^ w = 2 ^ (8 * w + 6) := by
    rw [pow_add, pow_mul]
    ring
  rw [hpow] at hv
  rw [mul_assoc, hpow, mul_comm k, Nat.or_comm, add_comm v]
  exact (two_pow_add_eq_or_of_lt hv k).symm

/-- The shape of what `varint::write` writes. -/
theorem writeVarint_tagged (h : v < varintLimit) : ∃ w k, k < 4 ∧ 2 ^ k = w + 1 ∧
    v < 64 * 256 ^ w ∧ writeVarint v = encode (w + 1) (v + k * 64 * 256 ^ w) ∧
    varintLen v = w + 1 := by
  unfold writeVarint varintLen
  split_ifs with h6 h14 h30
  · exact ⟨0, 0, by decide, rfl, h6, rfl, rfl⟩
  · refine ⟨1, 1, by decide, rfl, by omega, ?_, rfl⟩
    rw [← or_tag (by omega)]
    rfl
  · refine ⟨3, 2, by decide, rfl, by omega, ?_, rfl⟩
    rw [← or_tag (by omega)]
    rfl
  · refine ⟨7, 3, by decide, rfl, ?_, ?_, rfl⟩
    · exact h
    · rw [← or_tag h]
      rfl

lemma readVarint_write (h : v < varintLimit) (rest : Bytes) :
    readVarint (writeVarint v ++ rest) = some (v, varintLen v) := by
  obtain ⟨w, k, hk, hw, hv, hwrite, hlen⟩ := writeVarint_tagged h
  rw [hwrite, hlen]
  exact readVarint_tagged hk hw hv rest

lemma writeVarint_length (h : v < varintLimit) : (writeVarint v).length = varintLen v := by
  obtain ⟨w, k, -, -, -, hwrite, hlen⟩ := writeVarint_tagged h
  rw [hwrite, hlen, encode_length]

def vi : Parser UInt8 ℕ := fun bytes => do
  let (v, n) ← readVarint bytes
  return (v, bytes.drop n)

lemma reads_vi (h : v < varintLimit) : Reads vi (writeVarint v) v := by
  intro rest
  rw [vi, readVarint_write h rest, ← writeVarint_length h]
  simp only [Option.bind_eq_bind, Option.bind_some, List.drop_left]
  rfl

end OnetDns.Quic.Codec
