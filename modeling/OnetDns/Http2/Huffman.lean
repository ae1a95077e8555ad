import Mathlib.Tactic

/-!
# The Huffman code of header strings

The code table of `huffman.rs`, its encoder and its decoder, which walks a binary trie built
from the table. An index of the trie's node vector is the subtree it leads to, and the root,
index 0, is `none` in the decoder's position. The decoder accepts the encoder's outputs and
nothing else.
-/
namespace OnetDns.Http2.Huffman
open List Option

abbrev Bytes := List UInt8

/-- Code and number of bits of each symbol; the index is the symbol, the last one is EOS. -/
def codes : List (ℕ × ℕ) :=
  [(0x1ff8, 13), (0x7fffd8, 23), (0xfffffe2, 28), (0xfffffe3, 28), (0xfffffe4, 28),
   (0xfffffe5, 28), (0xfffffe6, 28), (0xfffffe7, 28), (0xfffffe8, 28), (0xffffea, 24),
   (0x3ffffffc, 30), (0xfffffe9, 28), (0xfffffea, 28), (0x3ffffffd, 30), (0xfffffeb, 28),
   (0xfffffec, 28), (0xfffffed, 28), (0xfffffee, 28), (0xfffffef, 28), (0xffffff0, 28),
   (0xffffff1, 28), (0xffffff2, 28), (0x3ffffffe, 30), (0xffffff3, 28), (0xffffff4, 28),
   (0xffffff5, 28), (0xffffff6, 28), (0xffffff7, 28), (0xffffff8, 28), (0xffffff9, 28),
   (0xffffffa, 28), (0xffffffb, 28), (0x14, 6), (0x3f8, 10), (0x3f9, 10), (0xffa, 12),
   (0x1ff9, 13), (0x15, 6), (0xf8, 8), (0x7fa, 11), (0x3fa, 10), (0x3fb, 10), (0xf9, 8),
   (0x7fb, 11), (0xfa, 8), (0x16, 6), (0x17, 6), (0x18, 6), (0x0, 5), (0x1, 5), (0x2, 5),
   (0x19, 6), (0x1a, 6), (0x1b, 6), (0x1c, 6), (0x1d, 6), (0x1e, 6), (0x1f, 6), (0x5c, 7),
   (0xfb, 8), (0x7ffc, 15), (0x20, 6), (0xffb, 12), (0x3fc, 10), (0x1ffa, 13), (0x21, 6),
   (0x5d, 7), (0x5e, 7), (0x5f, 7), (0x60, 7), (0x61, 7), (0x62, 7), (0x63, 7), (0x64, 7),
   (0x65, 7), (0x66, 7), (0x67, 7), (0x68, 7), (0x69, 7), (0x6a, 7), (0x6b, 7), (0x6c, 7),
   (0x6d, 7), (0x6e, 7), (0x6f, 7), (0x70, 7), (0x71, 7), (0x72, 7), (0xfc, 8), (0x73, 7),
   (0xfd, 8), (0x1ffb, 13), (0x7fff0, 19), (0x1ffc, 13), (0x3ffc, 14), (0x22, 6), (0x7ffd, 15),
   (0x3, 5), (0x23, 6), (0x4, 5), (0x24, 6), (0x5, 5), (0x25, 6), (0x26, 6), (0x27, 6), (0x6, 5),
   (0x74, 7), (0x75, 7), (0x28, 6), (0x29, 6), (0x2a, 6), (0x7, 5), (0x2b, 6), (0x76, 7),
   (0x2c, 6), (0x8, 5), (0x9, 5), (0x2d, 6), (0x77, 7), (0x78, 7), (0x79, 7), (0x7a, 7), (0x7b, 7),
   (0x7ffe, 15), (0x7fc, 11), (0x3ffd, 14), (0x1ffd, 13), (0xffffffc, 28), (0xfffe6, 20),
   (0x3fffd2, 22), (0xfffe7, 20), (0xfffe8, 20), (0x3fffd3, 22), (0x3fffd4, 22), (0x3fffd5, 22),
   (0x7fffd9, 23), (0x3fffd6, 22), (0x7fffda, 23), (0x7fffdb, 23), (0x7fffdc, 23), (0x7fffdd, 23),
   (0x7fffde, 23), (0xffffeb, 24), (0x7fffdf, 23), (0xffffec, 24), (0xffffed, 24), (0x3fffd7, 22),
   (0x7fffe0, 23), (0xffffee, 24), (0x7fffe1, 23), (0x7fffe2, 23), (0x7fffe3, 23), (0x7fffe4, 23),
   (0x1fffdc, 21), (0x3fffd8, 22), (0x7fffe5, 23), (0x3fffd9, 22), (0x7fffe6, 23), (0x7fffe7, 23),
   (0xffffef, 24), (0x3fffda, 22), (0x1fffdd, 21), (0xfffe9, 20), (0x3fffdb, 22), (0x3fffdc, 22),
   (0x7fffe8, 23), (0x7fffe9, 23), (0x1fffde, 21), (0x7fffea, 23), (0x3fffdd, 22), (0x3fffde, 22),
   (0xfffff0, 24), (0x1fffdf, 21), (0x3fffdf, 22), (0x7fffeb, 23), (0x7fffec, 23), (0x1fffe0, 21),
   (0x1fffe1, 21), (0x3fffe0, 22), (0x1fffe2, 21), (0x7fffed, 23), (0x3fffe1, 22), (0x7fffee, 23),
   (0x7fffef, 23), (0xfffea, 20), (0x3fffe2, 22), (0x3fffe3, 22), (0x3fffe4, 22), (0x7ffff0, 23),
   (0x3fffe5, 22), (0x3fffe6, 22), (0x7ffff1, 23), (0x3ffffe0, 26), (0x3ffffe1, 26), (0xfffeb, 20),
   (0x7fff1, 19), (0x3fffe7, 22), (0x7ffff2, 23), (0x3fffe8, 22), (0x1ffffec, 25), (0x3ffffe2, 26),
   (0x3ffffe3, 26), (0x3ffffe4, 26), (0x7ffffde, 27), (0x7ffffdf, 27), (0x3ffffe5, 26),
   (0xfffff1, 24), (0x1ffffed, 25), (0x7fff2, 19), (0x1fffe3, 21), (0x3ffffe6, 26),
   (0x7ffffe0, 27), (0x7ffffe1, 27), (0x3ffffe7, 26), (0x7ffffe2, 27), (0xfffff2, 24),
   (0x1fffe4, 21), (0x1fffe5, 21), (0x3ffffe8, 26), (0x3ffffe9, 26), (0xffffffd, 28),
   (0x7ffffe3, 27), (0x7ffffe4, 27), (0x7ffffe5, 27), (0xfffec, 20), (0xfffff3, 24), (0xfffed, 20),
   (0x1fffe6, 21), (0x3fffe9, 22), (0x1fffe7, 21), (0x1fffe8, 21), (0x7ffff3, 23), (0x3fffea, 22),
   (0x3fffeb, 22), (0x1ffffee, 25), (0x1ffffef, 25), (0xfffff4, 24), (0xfffff5, 24),
   (0x3ffffea, 26), (0x7ffff4, 23), (0x3ffffeb, 26), (0x7ffffe6, 27), (0x3ffffec, 26),
   (0x3ffffed, 26), (0x7ffffe7, 27), (0x7ffffe8, 27), (0x7ffffe9, 27), (0x7ffffea, 27),
   (0x7ffffeb, 27), (0xffffffe, 28), (0x7ffffec, 27), (0x7ffffed, 27), (0x7ffffee, 27),
   (0x7ffffef, 27), (0x7fffff0, 27), (0x3ffffee, 26), (0x3fffffff, 30)]

inductive Trie where
  | absent
  | node (sym : Option ℕ) (zero one : Trie)

namespace Trie

def fresh : Trie := .node none .absent .absent

def sym : Trie → Option ℕ
  | .absent => none
  | .node s _ _ => s

def child : Trie → Bool → Option Trie
  | .node _ _ (.node s z o), true => some (.node s z o)
  | .node _ (.node s z o) _, false => some (.node s z o)
  | _, _ => none

/-- Follows the bits, adding the nodes that are missing, and marks the last one. -/
def insert (symbol : ℕ) : List Bool → Trie → Trie
  | [], .absent => .node (some symbol) .absent .absent
  | [], .node _ zero one => .node (some symbol) zero one
  | true :: bits, .absent => .node none .absent (insert symbol bits fresh)
  | false :: bits, .absent => .node none (insert symbol bits fresh) .absent
  | true :: bits, .node s zero one => .node s zero (insert symbol bits one)
  | false :: bits, .node s zero one => .node s (insert symbol bits zero) one

end Trie

/-- The lowest `count` bits of a number, the highest of them first. -/
def bitsOf (count n : ℕ) : List Bool := (List.range count).reverse.map n.testBit

def build : Trie := (codes.zipIdx).foldl (fun t e => t.insert e.2 (bitsOf e.1.2 e.1.1)) Trie.fresh

/-- The decoder between two bits. -/
structure Walk where
  node : Option Trie
  tailBits : ℕ
  tailValue : ℕ
  out : Bytes

def step (trie : Trie) (maxOutput : ℕ) (w : Walk) (bit : Bool) : Option Walk := do
  let node ← (w.node.getD trie).child bit
  match node.sym with
  | none =>
    some { w with
      node := some node
      tailBits := min (w.tailBits + 1) 255
      tailValue := (2 * w.tailValue + bit.toNat) % 256 }
  | some symbol =>
    if symbol = 256 then none
    else
      let out := w.out ++ [UInt8.ofNat symbol]
      if maxOutput < out.length then none
      else some { node := none, tailBits := 0, tailValue := 0, out }

/-- Whether the bits after the last symbol are a padding. -/
def padded (w : Walk) : Bool :=
  match w.node with
  | none => true
  | some _ => decide (w.tailBits ≠ 0 ∧ w.tailBits ≤ 7 ∧ w.tailValue = 2 ^ w.tailBits - 1)

def decode (input : Bytes) : Option Bytes := do
  let bits := input.flatMap fun byte => bitsOf 8 byte.toNat
  let w ← bits.foldlM (step build (input.length * 2 + 16)) ⟨none, 0, 0, []⟩
  if padded w then some w.out else none

/-- Moves the whole octets of the accumulator to the output. -/
def flush (acc nbits : ℕ) (out : Bytes) : Bytes × ℕ :=
  if 8 ≤ nbits then flush acc (nbits - 8) (out ++ [UInt8.ofNat (acc >>> (nbits - 8))])
  else (out, nbits)
termination_by nbits

/-- The encoder between two symbols. -/
structure Packer where
  out : Bytes
  acc : ℕ
  nbits : ℕ

/-- One turn of the encoder's loop; the accumulator is a `u64`. -/
def pack (p : Packer) (byte : UInt8) : Packer :=
  let entry := codes.getD byte.toNat (0, 0)
  let acc := (p.acc <<< entry.2) % 2 ^ 64 ||| entry.1
  let flushed := flush acc (p.nbits + entry.2) p.out
  { out := flushed.1
    acc := if flushed.2 = 0 then 0 else acc &&& (1 <<< flushed.2 - 1)
    nbits := flushed.2 }

def encode (input : Bytes) : Bytes :=
  let p := input.foldl pack ⟨[], 0, 0⟩
  if 0 < p.nbits then
    let pad := 8 - p.nbits
    p.out ++ [UInt8.ofNat ((p.acc <<< pad) % 2 ^ 64 ||| (1 <<< pad - 1))]
  else p.out

def octets (bytes : Bytes) : List Bool := bytes.flatMap fun byte => bitsOf 8 byte.toNat

def symbolBits (symbol : ℕ) : List Bool :=
  bitsOf (codes.getD symbol (0, 0)).2 (codes.getD symbol (0, 0)).1

def codeBits (bytes : Bytes) : List Bool := bytes.flatMap fun byte => symbolBits byte.toNat

def value (bits : List Bool) : ℕ := bits.foldl (fun n bit => 2 * n + bit.toNat) 0

@[simp] lemma length_bitsOf (count n : ℕ) : (bitsOf count n).length = count := by
  simp [bitsOf]

lemma length_octets (bytes : Bytes) : (octets bytes).length = 8 * bytes.length := by
  simp [octets, mul_comm]

lemma getElem?_bitsOf (count n i : ℕ) (h : i < count) :
    (bitsOf count n)[i]? = some (n.testBit (count - 1 - i)) := by
  simp [bitsOf, h]

variable {count n m symbol : ℕ}

lemma bitsOf_congr (h : n % 2 ^ count = m % 2 ^ count) : bitsOf count n = bitsOf count m := by
  refine map_congr_left fun i hi => ?_
  have hlt : i < count := by simpa using hi
  have hbit := congrArg (fun k => k.testBit i) h
  simpa [hlt] using hbit

lemma bitsOf_add (a b n : ℕ) : bitsOf (a + b) n = bitsOf a (n / 2 ^ b) ++ bitsOf b n := by
  rw [bitsOf, add_comm a b, range_add]
  simp [bitsOf, Nat.testBit_div_two_pow, add_comm]

lemma bitsOf_append {a b : ℕ} (h : m < 2 ^ b) :
    bitsOf (a + b) (n * 2 ^ b + m) = bitsOf a n ++ bitsOf b m := by
  rw [bitsOf_add]
  congr 1
  · rw [mul_comm, Nat.mul_add_div (Nat.two_pow_pos b), Nat.div_eq_of_lt h, add_zero]
  · exact bitsOf_congr (by simp)

lemma eq_of_bitsOf (hn : n < 2 ^ count) (hm : m < 2 ^ count)
    (h : bitsOf count n = bitsOf count m) : n = m := by
  refine Nat.eq_of_testBit_eq fun i => ?_
  by_cases hi : i < count
  · have hbit := congrArg (fun bits => bits[count - 1 - i]?) h
    simp only [getElem?_bitsOf count _ (count - 1 - i) (by omega)] at hbit
    simpa [show count - 1 - (count - 1 - i) = i by omega] using hbit
  · have hpow : 2 ^ count ≤ 2 ^ i := Nat.pow_le_pow_right (by decide) (by omega)
    rw [Nat.testBit_lt_two_pow (hn.trans_le hpow), Nat.testBit_lt_two_pow (hm.trans_le hpow)]

lemma octets_injective : Function.Injective octets := by
  intro a
  induction a with
  | nil =>
    intro b h
    simpa [length_octets] using congrArg length h
  | cons x a ih =>
    intro b h
    cases b with
    | nil => simpa [length_octets] using congrArg length h
    | cons y b =>
      obtain ⟨hhead, htail⟩ := append_inj h (by simp)
      rw [UInt8.toNat_inj.mp (eq_of_bitsOf x.toNat_lt y.toNat_lt hhead), ih htail]

lemma value_snoc (bits : List Bool) (bit : Bool) :
    value (bits ++ [bit]) = 2 * value bits + bit.toNat := by
  simp [value]

lemma value_lt (bits : List Bool) : value bits < 2 ^ bits.length := by
  induction bits using reverseRecOn with
  | nil => decide
  | append_singleton bits bit ih =>
    have hbit := bit.toNat_le
    rw [value_snoc, length_append, length_singleton]
    omega

/-- Only a run of ones spells the largest number of its length. -/
theorem ones_iff (bits : List Bool) :
    value bits = 2 ^ bits.length - 1 ↔ bits = replicate bits.length true := by
  induction bits using reverseRecOn with
  | nil => decide
  | append_singleton bits bit ih =>
    have hlt := value_lt bits
    rw [value_snoc, length_append, length_singleton, replicate_succ']
    cases bit with
    | true =>
      rw [append_left_inj, ← ih, Bool.toNat_true]
      omega
    | false =>
      refine ⟨fun h => ?_, fun h => ?_⟩
      · rw [Bool.toNat_false] at h
        omega
      · simpa using congrArg getLast? h

lemma code_fits : ∀ entry ∈ codes, 5 ≤ entry.2 ∧ entry.2 ≤ 30 ∧ entry.1 < 2 ^ entry.2 := by
  decide +kernel

lemma codes_length : codes.length = 257 := by decide +kernel

lemma entry_mem (h : symbol < 257) : codes.getD symbol (0, 0) ∈ codes := by
  rw [getD_eq_getElem?_getD, getElem?_eq_getElem (by rwa [codes_length])]
  exact getElem_mem _

/-- While the accumulator has room, appending bits to it loses none. -/
theorem shift_or {acc nbits bits : ℕ} (hacc : acc < 2 ^ nbits) (hroom : nbits + count ≤ 64)
    (hbits : bits < 2 ^ count) : (acc <<< count) % 2 ^ 64 ||| bits = acc * 2 ^ count + bits := by
  have hsmall : acc * 2 ^ count < 2 ^ 64 := by
    calc acc * 2 ^ count < 2 ^ nbits * 2 ^ count :=
          mul_lt_mul_of_pos_right hacc (Nat.two_pow_pos _)
      _ = 2 ^ (nbits + count) := (pow_add ..).symm
      _ ≤ 2 ^ 64 := Nat.pow_le_pow_right (by decide) hroom
  rw [Nat.shiftLeft_eq, Nat.mod_eq_of_lt hsmall, ← Nat.shiftLeft_eq,
    Nat.shiftLeft_add_eq_or_of_lt hbits]

lemma mask_eq (acc nbits : ℕ) :
    (if nbits = 0 then 0 else acc &&& (1 <<< nbits - 1)) = acc % 2 ^ nbits := by
  split
  · simp_all [Nat.mod_one]
  · rw [Nat.one_shiftLeft, Nat.and_two_pow_sub_one_eq_mod]

lemma bitsOf_ones (count : ℕ) : bitsOf count (1 <<< count - 1) = replicate count true := by
  refine eq_replicate_iff.mpr ⟨by simp, fun bit hbit => ?_⟩
  obtain ⟨i, hi, rfl⟩ := mem_map.mp hbit
  simpa [Nat.one_shiftLeft] using hi

lemma octets_push (out : Bytes) (n : ℕ) :
    octets (out ++ [UInt8.ofNat n]) = octets out ++ bitsOf 8 n := by
  rw [octets, flatMap_append, flatMap_singleton]
  exact congrArg _ (bitsOf_congr (by simp))

lemma flush_bits (acc nbits : ℕ) (out : Bytes) : (flush acc nbits out).2 < 8 ∧
      octets (flush acc nbits out).1 ++ bitsOf (flush acc nbits out).2 acc =
        octets out ++ bitsOf nbits acc := by
  fun_induction flush acc nbits out with
  | case1 nbits out h ih =>
    refine ⟨ih.1, ih.2.trans ?_⟩
    rw [octets_push, append_assoc, Nat.shiftRight_eq_div_pow, ← bitsOf_add, Nat.add_sub_cancel' h]
  | case2 nbits out h => exact ⟨by omega, rfl⟩

/-- What the encoder holds after some symbols. -/
structure Packed (input : Bytes) (p : Packer) : Prop where
  few : p.nbits < 8
  small : p.acc < 2 ^ p.nbits
  bits : octets p.out ++ bitsOf p.nbits p.acc = codeBits input

lemma Packed.pack {input : Bytes} {p : Packer} (h : Packed input p) (byte : UInt8) :
    Packed (input ++ [byte]) (pack p byte) := by
  obtain ⟨-, hlen, hcode⟩ := code_fits _ (entry_mem (Nat.lt_succ_of_lt byte.toNat_lt))
  set entry := codes.getD byte.toNat (0, 0) with hentry
  have hacc := shift_or h.small (show p.nbits + entry.2 ≤ 64 by have := h.few; omega) hcode
  obtain ⟨hfew, hbits⟩ := flush_bits (p.acc * 2 ^ entry.2 + entry.1) (p.nbits + entry.2) p.out
  have hpack : Huffman.pack p byte =
      let flushed := flush (p.acc * 2 ^ entry.2 + entry.1) (p.nbits + entry.2) p.out
      ⟨flushed.1, (p.acc * 2 ^ entry.2 + entry.1) % 2 ^ flushed.2, flushed.2⟩ := by
    simp only [Huffman.pack, ← hentry, hacc, mask_eq]
  rw [hpack]
  refine ⟨hfew, Nat.mod_lt _ (Nat.two_pow_pos _), ?_⟩
  rw [bitsOf_congr (Nat.mod_mod _ _), hbits, bitsOf_append hcode, ← append_assoc, h.bits]
  rw [codeBits, codeBits, flatMap_append, flatMap_singleton, symbolBits]

lemma packed_foldl (input : Bytes) : Packed input (input.foldl pack ⟨[], 0, 0⟩) := by
  induction input using reverseRecOn with
  | nil => exact ⟨by decide, by decide, rfl⟩
  | append_singleton input byte ih =>
    rw [foldl_append]
    exact ih.pack byte

/-- The encoder writes the codes one after another and fills the last octet with ones. -/
theorem octets_encode (input : Bytes) :
    ∃ pad ≤ 7, octets (encode input) = codeBits input ++ replicate pad true := by
  have h := packed_foldl input
  unfold encode
  set p := input.foldl pack ⟨[], 0, 0⟩
  have hfew := h.few
  dsimp only
  split
  · refine ⟨8 - p.nbits, by omega, ?_⟩
    have hlt : 1 <<< (8 - p.nbits) - 1 < 2 ^ (8 - p.nbits) := by
      rw [Nat.one_shiftLeft]
      exact Nat.sub_lt (Nat.two_pow_pos _) one_pos
    have height : bitsOf 8 = bitsOf (p.nbits + (8 - p.nbits)) := by
      rw [Nat.add_sub_cancel' hfew.le]
    rw [octets_push, shift_or h.small (by omega) hlt, height, bitsOf_append hlt,
      ← append_assoc, h.bits, bitsOf_ones]
  · refine ⟨0, by omega, ?_⟩
    have hbits := h.bits
    rw [show p.nbits = 0 by omega] at hbits
    simpa [bitsOf] using hbits

namespace Trie

/-- The symbol that stands at the end of a path. -/
def label : List Bool → Trie → Option ℕ
  | _, .absent => none
  | [], .node s _ _ => s
  | true :: path, .node _ _ one => label path one
  | false :: path, .node _ zero _ => label path zero

/-- The symbol that the bits end at, if there is none on the way. -/
def follow : List Bool → Trie → Option ℕ
  | [], _ => none
  | bit :: bits, t => do
    let next ← t.child bit
    match next.sym with
    | none => follow bits next
    | some symbol => if bits = [] then some symbol else none

lemma label_fresh (path : List Bool) : fresh.label path = none := by
  rcases path with _ | ⟨_ | _, _⟩ <;> simp [fresh, label]

lemma label_insert (symbol : ℕ) (bits path : List Bool) (t : Trie) :
    (t.insert symbol bits).label path = if path = bits then some symbol else t.label path := by
  fun_induction insert symbol bits t generalizing path <;>
    rcases path with _ | ⟨_ | _, path⟩ <;> simp_all [label, label_fresh]

lemma label_foldl (entries : List ((ℕ × ℕ) × ℕ)) (t : Trie) {path : List Bool} {symbol : ℕ}
    (h : (entries.foldl (fun t e => t.insert e.2 (bitsOf e.1.2 e.1.1)) t).label path = some symbol)
    : (∃ e ∈ entries, e.2 = symbol ∧ path = bitsOf e.1.2 e.1.1) ∨ t.label path = some symbol := by
  induction entries generalizing t with
  | nil => exact .inr h
  | cons e entries ih =>
    rcases ih _ h with ⟨e', hmem, he'⟩ | hlabel
    · exact .inl ⟨e', mem_cons_of_mem _ hmem, he'⟩
    · rw [label_insert] at hlabel
      split at hlabel
      · exact .inl ⟨e, mem_cons_self, some.inj hlabel, ‹_›⟩
      · exact .inr hlabel

lemma label_child {t next : Trie} {bit : Bool} (h : t.child bit = some next)
    (path : List Bool) : next.label path = t.label (bit :: path) := by
  unfold child at h
  split at h <;> cases h <;> rfl

lemma label_nil (t : Trie) : t.label [] = t.sym := by
  cases t <;> rfl

end Trie

/-- Each symbol of the trie stands at the end of its code. -/
theorem symbolBits_of_label {path : List Bool}
    (h : build.label path = some symbol) : symbol < 257 ∧ path = symbolBits symbol := by
  rcases Trie.label_foldl _ _ h with ⟨⟨entry, index⟩, hmem, rfl, rfl⟩ | hfresh
  · have hget := mem_zipIdx_iff_getElem?.mp hmem
    refine ⟨codes_length ▸ (List.getElem?_eq_some_iff.mp hget).1, ?_⟩
    rw [symbolBits, getD_eq_getElem?_getD, hget, getD_some]
  · rw [Trie.label_fresh] at hfresh
    cases hfresh

lemma follow_codes : ∀ e ∈ codes.zipIdx, build.follow (bitsOf e.1.2 e.1.1) = some e.2 := by
  decide +kernel

lemma follow_symbolBits (h : symbol < 257) : build.follow (symbolBits symbol) = some symbol := by
  have hget : codes[symbol]? = some (codes.getD symbol (0, 0)) := by
    rw [getD_eq_getElem?_getD, getElem?_eq_getElem (by rwa [codes_length]), getD_some]
  exact follow_codes (codes.getD symbol (0, 0), symbol) (mem_zipIdx_iff_getElem?.mpr hget)

lemma eos_bits : symbolBits 256 = replicate 30 true := by decide +kernel

section

variable {maxOutput : ℕ} {w w' : Walk} {tail bits : List Bool}

/-- The decoder has read `tail` since the last symbol. -/
structure Pending (tail : List Bool) (w : Walk) : Prop where
  start : w.node = none ↔ tail = []
  ahead : ∀ path, (w.node.getD build).label path = build.label (tail ++ path)
  count : w.tailBits = min tail.length 255
  spelled : w.tailValue = value tail % 256

lemma pending_start (out : Bytes) : Pending [] ⟨none, 0, 0, out⟩ :=
  ⟨by simp, fun _ => rfl, rfl, rfl⟩

lemma Pending.step (h : Pending tail w) {bit : Bool}
    (hstep : step build maxOutput w bit = some w') :
    (Pending (tail ++ [bit]) w' ∧ w'.out = w.out) ∨
      ∃ byte : UInt8, tail ++ [bit] = symbolBits byte.toNat ∧
        w' = ⟨none, 0, 0, w.out ++ [byte]⟩ := by
  obtain ⟨next, hchild, hrest⟩ := bind_eq_some_iff.mp hstep
  have hahead (path : List Bool) : next.label path = build.label (tail ++ [bit] ++ path) := by
    rw [Trie.label_child hchild, h.ahead, append_assoc, singleton_append]
  split at hrest
  · cases hrest
    refine .inl ⟨⟨by simp, hahead, ?_, ?_⟩, rfl⟩
    · show min (w.tailBits + 1) 255 = _
      rw [h.count, length_append, length_singleton]
      omega
    · show (2 * w.tailValue + bit.toNat) % 256 = _
      rw [h.spelled, value_snoc]
      omega
  rename_i symbol hsym
  have hlabel := hahead []
  rw [Trie.label_nil, hsym, append_nil] at hlabel
  obtain ⟨hlt, hbits⟩ := symbolBits_of_label hlabel.symm
  split at hrest
  · cases hrest
  dsimp only at hrest
  split at hrest
  · cases hrest
  · refine .inr ⟨.ofNat symbol, ?_, (some.inj hrest).symm⟩
    rwa [UInt8.toNat_ofNat_of_lt' (by simp only [UInt8.size]; omega)]

/-- Whatever the decoder has read is some symbols and a tail. -/
theorem Pending.run (h : Pending tail w)
    (hrun : bits.foldlM (Huffman.step build maxOutput) w = some w') :
    ∃ more rest, tail ++ bits = codeBits more ++ rest ∧ w'.out = w.out ++ more ∧
      Pending rest w' := by
  induction bits generalizing w tail with
  | nil =>
    cases hrun
    exact ⟨[], tail, by simp [codeBits], by simp, h⟩
  | cons bit bits ih =>
    obtain ⟨next, hstep, hrest⟩ := bind_eq_some_iff.mp hrun
    rcases h.step hstep with ⟨hnext, hout⟩ | ⟨byte, hbyte, rfl⟩
    · obtain ⟨more, rest, hbits, hmore, hpend⟩ := ih hnext hrest
      exact ⟨more, rest, by simpa using hbits, by rw [hmore, hout], hpend⟩
    · obtain ⟨more, rest, hbits, hmore, hpend⟩ := ih (pending_start _) hrest
      refine ⟨byte :: more, rest, ?_, by simpa using hmore, hpend⟩
      rw [append_cons, hbyte]
      simpa [codeBits] using hbits

lemma Pending.padded_iff (h : Pending tail w) :
    padded w = true ↔ ∃ pad ≤ 7, tail = replicate pad true := by
  unfold padded
  split
  · rename_i hnode
    exact ⟨fun _ => ⟨0, by omega, h.start.mp hnode⟩, fun _ => rfl⟩
  rename_i hnode
  have hne : tail ≠ [] := fun hnil => by simp [h.start.mpr hnil] at hnode
  have hpos : 0 < tail.length := length_pos_of_ne_nil hne
  rw [decide_eq_true_iff, h.count, h.spelled]
  have hpow : tail.length ≤ 7 → 2 ^ tail.length ≤ 2 ^ 7 := Nat.pow_le_pow_right (by decide)
  have hlt := value_lt tail
  constructor
  · rintro ⟨-, hlen, hvalue⟩
    have hle : tail.length ≤ 7 := by omega
    rw [min_eq_left (by omega), Nat.mod_eq_of_lt (by have := hpow hle; omega)] at hvalue
    exact ⟨tail.length, hle, (ones_iff tail).mp hvalue⟩
  rintro ⟨pad, hle, hones⟩
  have hlen : tail.length = pad := by simpa using congrArg length hones
  subst hlen
  rw [min_eq_left (by omega), Nat.mod_eq_of_lt (by have := hpow hle; omega)]
  exact ⟨by omega, hle, (ones_iff tail).mpr hones⟩

variable {symbol : ℕ} {s x : Bytes}

lemma foldlM_follow (h : (w.node.getD build).follow bits = some symbol) :
    bits.foldlM (step build maxOutput) w =
      if symbol = 256 ∨ maxOutput < w.out.length + 1 then none
      else some ⟨none, 0, 0, w.out ++ [UInt8.ofNat symbol]⟩ := by
  induction bits generalizing w with
  | nil => cases h
  | cons bit bits ih =>
    obtain ⟨next, hchild, hrest⟩ := bind_eq_some_iff.mp h
    rw [foldlM_cons, step, hchild]
    simp only [bind_eq_bind, bind_some]
    cases hsym : next.sym with
    | none =>
      rw [hsym] at hrest
      exact ih hrest
    | some found =>
      simp only [hsym, ite_none_right_eq_some, some.injEq] at hrest
      obtain ⟨rfl, rfl⟩ := hrest
      simp only [length_append, length_singleton, ite_or]
      split
      · rfl
      · split <;> rfl

/-- Inside a code the decoder goes on. -/
theorem walk_prefix {rest : List Bool} (hrest : rest ≠ [])
    (h : (w.node.getD build).follow (bits ++ rest) = some symbol) :
    ∃ w', bits.foldlM (step build maxOutput) w = some w' ∧ w'.out = w.out := by
  induction bits generalizing w with
  | nil => exact ⟨w, rfl, rfl⟩
  | cons bit bits ih =>
    obtain ⟨next, hchild, hnext⟩ := bind_eq_some_iff.mp h
    rw [foldlM_cons, step, hchild]
    simp only [bind_eq_bind, bind_some]
    cases hsym : next.sym with
    | none =>
      rw [hsym] at hnext
      exact ih hnext
    | some found => simp [hsym, hrest] at hnext

lemma foldlM_symbolBits (h : symbol < 257) (out : Bytes) :
    (symbolBits symbol).foldlM (step build maxOutput) ⟨none, 0, 0, out⟩ =
      if symbol = 256 ∨ maxOutput < out.length + 1 then none
      else some ⟨none, 0, 0, out ++ [UInt8.ofNat symbol]⟩ :=
  foldlM_follow (w := ⟨none, 0, 0, out⟩) (follow_symbolBits h)

lemma foldlM_codeBits (input out : Bytes) (hroom : out.length + input.length ≤ maxOutput) :
    (codeBits input).foldlM (step build maxOutput) ⟨none, 0, 0, out⟩ =
      some ⟨none, 0, 0, out ++ input⟩ := by
  induction input generalizing out with
  | nil => simp [codeBits]
  | cons byte input ih =>
    have hlt := byte.toNat_lt
    rw [length_cons] at hroom
    rw [codeBits, flatMap_cons, foldlM_append,
      foldlM_symbolBits (Nat.lt_succ_of_lt hlt), if_neg (by omega), UInt8.ofNat_toNat]
    have hnext : (out ++ [byte]).length + input.length ≤ maxOutput := by
      rw [length_append, length_singleton]
      omega
    refine (ih (out ++ [byte]) hnext).trans ?_
    rw [append_assoc, singleton_append]

lemma length_codeBits (input : Bytes) : 5 * input.length ≤ (codeBits input).length := by
  induction input with
  | nil => exact Nat.zero_le _
  | cons byte input ih =>
    have hlen := (code_fits _ (entry_mem (Nat.lt_succ_of_lt byte.toNat_lt))).1
    rw [codeBits, flatMap_cons, length_append, ← codeBits, symbolBits, length_bitsOf, length_cons]
    omega

/-- The output limit is never the reason for a refusal. -/
theorem output_fits {tail : List Bool} (h : octets s = codeBits x ++ tail) :
    x.length ≤ s.length * 2 + 16 := by
  have hlen := congrArg length h
  rw [length_octets, length_append] at hlen
  have hcodes := length_codeBits x
  omega

lemma decode_eq (s : Bytes) :
    decode s = ((octets s).foldlM (step build (s.length * 2 + 16)) ⟨none, 0, 0, []⟩).bind
      fun w => if padded w then some w.out else none := rfl

/-- After the codes of `x` the decoder stands at the root again. -/
theorem decode_append {tail : List Bool} (h : octets s = codeBits x ++ tail) :
    decode s = (tail.foldlM (step build (s.length * 2 + 16)) ⟨none, 0, 0, x⟩).bind
      fun w => if padded w then some w.out else none := by
  rw [decode_eq, h, foldlM_append, foldlM_codeBits x [] (by simpa using output_fits h)]
  rfl

lemma decode_of_octets {pad : ℕ} (hpad : pad ≤ 7)
    (h : octets s = codeBits x ++ replicate pad true) : decode s = some x := by
  have hcode : ((none : Option Trie).getD build).follow
      (replicate pad true ++ replicate (30 - pad) true) = some 256 := by
    rw [← replicate_add, Nat.add_sub_cancel' (by omega), ← eos_bits]
    exact follow_symbolBits (by decide)
  have hne : replicate (30 - pad) true ≠ [] := by
    simp only [ne_eq, replicate_eq_nil_iff]
    omega
  have hwalk : ∃ w, (replicate pad true).foldlM (step build (s.length * 2 + 16))
      ⟨none, 0, 0, x⟩ = some w ∧ w.out = x := walk_prefix hne hcode
  obtain ⟨w, hrun, hout⟩ := hwalk
  obtain ⟨more, rest, hbits, hmore, hpend⟩ := (pending_start x).run hrun
  have hnil : more = [] := by simpa [hout] using hmore
  subst hnil
  have hpadded : padded w = true := hpend.padded_iff.mpr ⟨pad, hpad, hbits.symm⟩
  rw [decode_append h, hrun, bind_some, if_pos hpadded, hout]

lemma decode_encode (x : Bytes) : decode (encode x) = some x := by
  obtain ⟨pad, hpad, hbits⟩ := octets_encode x
  exact decode_of_octets hpad hbits

lemma octets_of_decode (h : decode s = some x) :
    ∃ pad ≤ 7, octets s = codeBits x ++ replicate pad true := by
  obtain ⟨w, hrun, hrest⟩ := bind_eq_some_iff.mp h
  obtain ⟨more, rest, hbits, hmore, hpend⟩ := (pending_start []).run hrun
  simp only [ite_none_right_eq_some, some.injEq] at hrest
  obtain ⟨hpadded, rfl⟩ := hrest
  obtain ⟨pad, hpad, rfl⟩ := hpend.padded_iff.mp hpadded
  exact ⟨pad, hpad, by rw [hmore]; exact hbits⟩

end

/-- Decoding inverts encoding, and the encoder's outputs are all that the decoder accepts: after
the symbols of `x` nothing is read but at most seven ones. -/
theorem huffman_exact : (∀ x, decode (encode x) = some x) ∧
    (∀ s x, decode s = some x → encode x = s) ∧
    (∀ s x tail, octets s = codeBits x ++ tail → (∀ symbol ≤ 256, ¬ symbolBits symbol <+: tail) →
      ((decode s).isSome ↔ ∃ pad ≤ 7, tail = List.replicate pad true)) ∧
    (∀ s x rest, octets s = codeBits x ++ symbolBits 256 ++ rest → decode s = none) := by
  refine ⟨decode_encode, fun s x h => ?_, fun s x tail hs hcode => ⟨fun h => ?_, ?_⟩,
    fun s x rest hs => ?_⟩
  · obtain ⟨pad, hpad, hs⟩ := octets_of_decode h
    obtain ⟨pad', hpad', hx⟩ := octets_encode x
    have hlens := congrArg length hs
    have hlenx := congrArg length hx
    rw [length_octets, length_append, length_replicate] at hlens hlenx
    have hsame : pad = pad' := by omega
    exact octets_injective (by rw [hs, hx, hsame])
  · obtain ⟨y, hy⟩ := isSome_iff_exists.mp h
    rw [decode_append hs] at hy
    obtain ⟨w, hrun, hrest⟩ := bind_eq_some_iff.mp hy
    obtain ⟨more, rest, hbits, -, hpend⟩ := (pending_start x).run hrun
    cases more with
    | nil =>
      simp only [ite_none_right_eq_some] at hrest
      exact hpend.padded_iff.mp hrest.1 |>.imp fun pad hpad => ⟨hpad.1, hbits.trans hpad.2⟩
    | cons byte more =>
      have hprefix : symbolBits byte.toNat <+: tail :=
        ⟨codeBits more ++ rest, by simpa [codeBits] using hbits.symm⟩
      exact absurd hprefix (hcode _ byte.toNat_lt.le)
  · rintro ⟨pad, hpad, rfl⟩
    rw [decode_of_octets hpad hs]
    rfl
  · rw [decode_append (hs.trans (append_assoc ..)), foldlM_append, foldlM_symbolBits (by decide)]
    rfl

/-- The letter `a` with its three bits of padding, and what is refused beside it. -/
theorem huffman_exact_letter :
    decode [0x1f] = some [97] ∧ encode [97] = [0x1f] ∧
      (decode [0x1f, 0xff]).isSome = false ∧ decode [0x1f, 0xff, 0xff, 0xff, 0xff] = none := by
  have hone : decode [0x1f] = some [97] := by decide +kernel
  refine ⟨hone, huffman_exact.2.1 _ _ hone, ?_, ?_⟩
  · have htail := (huffman_exact.2.2.1 [0x1f, 0xff] [97] (replicate 11 true)
      (by decide +kernel) (by decide +kernel))
    refine Bool.eq_false_iff.mpr fun h => ?_
    obtain ⟨pad, hpad, hlen⟩ := htail.mp h
    have := congrArg length hlen
    simp only [length_replicate] at this
    omega
  · exact huffman_exact.2.2.2 _ [97] (replicate 5 true) (by decide +kernel)

end OnetDns.Http2.Huffman
