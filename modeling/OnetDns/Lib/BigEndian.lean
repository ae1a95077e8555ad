import Mathlib.Data.List.Basic
import Mathlib.Tactic

/-!
# Big-endian integers in byte lists

Fixed-width unsigned encoding and a reader that consumes from the front of a
byte list. Widths are in bytes. A value that fits its width is read back, with
whatever followed it left over.
-/
namespace OnetDns.BigEndian
open Nat

/-- The `width` lowest bytes of `n`, most significant first. -/
def encode : ℕ → ℕ → List UInt8
  | 0, _ => []
  | width + 1, n => UInt8.ofNat (n / 256 ^ width) :: encode width n

/-- The number a byte list spells. -/
def decode : List UInt8 → ℕ
  | [] => 0
  | b :: rest => b.toNat * 256 ^ rest.length + decode rest

@[simp] lemma encode_length (width n : ℕ) : (encode width n).length = width := by
  induction width with
  | zero => rfl
  | succ width ih => simp [encode, ih]

lemma decode_encode_mod (width n : ℕ) : decode (encode width n) = n % 256 ^ width := by
  induction width with
  | zero => simp [encode, decode, mod_one]
  | succ width ih =>
    have hb : (UInt8.ofNat (n / 256 ^ width)).toNat = n / 256 ^ width % 256 := by
      simp
    rw [encode, decode, ih, hb, encode_length, pow_succ, mod_mul]
    ring

variable {width : ℕ}

@[simp] lemma decode_encode {n : ℕ} (h : n < 256 ^ width) : decode (encode width n) = n := by
  rw [decode_encode_mod, mod_eq_of_lt h]

lemma decode_lt (bytes : List UInt8) : decode bytes < 256 ^ bytes.length := by
  induction bytes with
  | nil => simp [decode]
  | cons b rest ih =>
    have hb : b.toNat + 1 ≤ 256 := b.toNat_lt
    calc b.toNat * 256 ^ rest.length + decode rest
        < (b.toNat + 1) * 256 ^ rest.length := by rw [add_one_mul]; omega
      _ ≤ 256 * 256 ^ rest.length := mul_le_mul_right _ hb
      _ = 256 ^ (rest.length + 1) := by rw [pow_succ, mul_comm]

/-- Only the lowest bytes are encoded. -/
theorem encode_add_mul (width n k : ℕ) : encode width (n + k * 256 ^ width) = encode width n := by
  induction width generalizing k with
  | zero => rfl
  | succ width ih =>
    have hpow : k * 256 ^ (width + 1) = k * 256 * 256 ^ width := by rw [pow_succ]; ring
    rw [encode, encode, hpow, ih, add_mul_div_right _ _ (by positivity)]
    simp

lemma encode_decode (bytes : List UInt8) : encode bytes.length (decode bytes) = bytes := by
  induction bytes with
  | nil => rfl
  | cons b rest ih =>
    rw [List.length_cons, encode, decode, add_comm, encode_add_mul, ih,
      add_mul_div_right _ _ (by positivity), div_eq_of_lt (decode_lt rest), zero_add,
      UInt8.ofNat_toNat]

/-- Split off the first `width` bytes, if there are that many. -/
def take (width : ℕ) (bytes : List UInt8) : Option (List UInt8 × List UInt8) :=
  if width ≤ bytes.length then some (bytes.take width, bytes.drop width) else none

lemma take_append {front : List UInt8} (h : front.length = width)
    (rest : List UInt8) : take width (front ++ rest) = some (front, rest) := by
  subst h
  simp [take]

lemma take_eq_none {bytes : List UInt8} (h : bytes.length < width) : take width bytes = none := by
  simp only [take, not_le.mpr h, if_false]

def read (width : ℕ) (bytes : List UInt8) : Option (ℕ × List UInt8) :=
  (take width bytes).map fun (front, rest) => (decode front, rest)

lemma read_encode {n : ℕ} (h : n < 256 ^ width) (rest : List UInt8) :
    read width (encode width n ++ rest) = some (n, rest) := by
  simp [read, take_append (encode_length width n), h]

end OnetDns.BigEndian
