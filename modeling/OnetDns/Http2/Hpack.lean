import OnetDns.Quic.QpackTable

/-!
# HPACK

`hpack.rs`: the integer and string codes, the dynamic table of a decoder, which is shared by all
blocks of a connection, and the encoder of responses, which does not use one. Headers are pairs
of a name and a value, the newest of the dynamic table first. A `usize` holds every `u64`.
-/
namespace OnetDns.Http2.Hpack
open List Option Nat

open Quic (Bytes u64Max)
open Quic.Qpack (Field ascii entrySize totalSize pushInt pushIntTail pushInt_cons)
open Quic.Qpack.DynamicTable (evictAbove evictAbove_spec evictAbove_longest)

def maxDecodedHeaderList : ℕ := 32 * 1024

def staticTable : List (String × String) :=
  [(":authority", ""), (":method", "GET"), (":method", "POST"), (":path", "/"),
   (":path", "/index.html"), (":scheme", "http"), (":scheme", "https"), (":status", "200"),
   (":status", "204"), (":status", "206"), (":status", "304"), (":status", "400"),
   (":status", "404"), (":status", "500"), ("accept-charset", ""),
   ("accept-encoding", "gzip, deflate"), ("accept-language", ""), ("accept-ranges", ""),
   ("accept", ""), ("access-control-allow-origin", ""), ("age", ""), ("allow", ""),
   ("authorization", ""), ("cache-control", ""), ("content-disposition", ""),
   ("content-encoding", ""), ("content-language", ""), ("content-length", ""),
   ("content-location", ""), ("content-range", ""), ("content-type", ""), ("cookie", ""),
   ("date", ""), ("etag", ""), ("expect", ""), ("expires", ""), ("from", ""), ("host", ""),
   ("if-match", ""), ("if-modified-since", ""), ("if-none-match", ""), ("if-range", ""),
   ("if-unmodified-since", ""), ("last-modified", ""), ("link", ""), ("location", ""),
   ("max-forwards", ""), ("proxy-authenticate", ""), ("proxy-authorization", ""), ("range", ""),
   ("referer", ""), ("refresh", ""), ("retry-after", ""), ("server", ""), ("set-cookie", ""),
   ("strict-transport-security", ""), ("transfer-encoding", ""), ("user-agent", ""),
   ("vary", ""), ("via", ""), ("www-authenticate", "")]

def staticFields : List Field := staticTable.map fun e => (ascii e.1, ascii e.2)

/-- The loop of `decode_int` at the shift `m`, with `i` bytes read. -/
def decodeIntTail (value m i : ℕ) : Bytes → Option (ℕ × ℕ)
  | [] => none
  | b :: rest =>
    let low := b.toNat % 128
    if 64 ≤ m ∨ u64Max / 2 ^ m < low then none
    else if u64Max < value + low * 2 ^ m then none
    else if b.toNat / 128 % 2 = 0 then some (value + low * 2 ^ m, i + 1)
    else if 63 < m + 7 then none
    else decodeIntTail (value + low * 2 ^ m) (m + 7) (i + 1) rest

/-- `decode_int`: the value and the number of bytes it takes. -/
def decodeInt (buf : Bytes) (prefixBits : ℕ) : Option (ℕ × ℕ) :=
  if 1 ≤ prefixBits ∧ prefixBits ≤ 8 then
    buf.head?.bind fun first =>
      let mask := 2 ^ prefixBits - 1
      let value := first.toNat % 2 ^ prefixBits
      if value < mask then some (value, 1) else decodeIntTail value 0 1 buf.tail
  else none

/-- `encode_int`, which is QPACK's `push_int`. -/
def encodeInt (value prefixBits firstHigh : ℕ) : Bytes := pushInt value prefixBits firstHigh

def decodeString (buf : Bytes) : Option (Bytes × ℕ) := do
  let first ← buf.head?
  let len ← decodeInt buf 7
  let stop := len.2 + len.1
  let raw := (buf.take stop).drop len.2
  if buf.length < stop then none
  else (if first.toNat / 128 % 2 = 1 then Huffman.decode raw else some raw).map fun s => (s, stop)

def encodeString (s : Bytes) (useHuffman : Bool) : Bytes :=
  let enc := Huffman.encode s
  if useHuffman ∧ s.all (· < 128) ∧ enc.length < s.length then
    encodeInt enc.length 7 0x80 ++ enc
  else encodeInt s.length 7 0 ++ s

structure Decoder where
  dynamic : List Field
  size : ℕ
  maxSize : ℕ
  allowedMaxSize : ℕ

namespace Decoder

def new (maxSize : ℕ) : Decoder := ⟨[], 0, maxSize, maxSize⟩

variable (d : Decoder)

def lookup (index : ℕ) : Option Field :=
  if index = 0 then none
  else if index ≤ staticFields.length then staticFields[index - 1]?
  else d.dynamic[index - staticFields.length - 1]?

/-- Drops entries at the back, the old end, while the size is above `max_size`. -/
def evict : Decoder :=
  let kept := evictAbove d.maxSize d.dynamic.reverse d.size
  { d with dynamic := kept.1.reverse, size := kept.2 }

def insert (f : Field) : Decoder :=
  evict { d with dynamic := f :: d.dynamic, size := d.size + entrySize f }

/-- `set_max`, `none` for its `false`. -/
def setMax (m : ℕ) : Option Decoder :=
  if d.allowedMaxSize < m then none else some (evict { d with maxSize := m })

/-- The name that `read_literal` takes behind its index, and where its bytes end. -/
def literalName (buf : Bytes) (idx : ℕ × ℕ) : Option (Bytes × ℕ) :=
  if idx.1 = 0 then (decodeString (buf.drop idx.2)).map fun s => (s.1, idx.2 + s.2)
  else (d.lookup idx.1).map fun f => (f.1, idx.2)

/-- `read_literal`: the header and the number of bytes it takes. -/
def readLiteral (buf : Bytes) (prefixBits : ℕ) : Option (Field × ℕ) := do
  let idx ← decodeInt buf prefixBits
  let name ← d.literalName buf idx
  let value ← decodeString (buf.drop name.2)
  some ((name.1, value.1), name.2 + value.2)

end Decoder

/-- A block that is being decoded. -/
structure Block where
  table : Decoder
  out : List Field
  decodedSize : ℕ
  sizeUpdates : ℕ
  firstSizeUpdate : Option ℕ

open Block

namespace Block

def start (d : Decoder) : Block := ⟨d, [], 0, 0, none⟩

/-- `account`, and the header it lets pass. -/
def account (b : Block) (f : Field) : Option Block :=
  if b.decodedSize + entrySize f ≤ maxDecodedHeaderList then
    some { b with decodedSize := b.decodedSize + entrySize f, out := b.out ++ [f] }
  else none

/-- The first byte of a literal that is inserted. -/
def indexing (first : UInt8) : Bool := first.toNat / 64 = 1

/-- One turn of the loop of `decode`. A turn that fails leaves the table as it was. -/
def turn (b : Block) (first : UInt8) (buf : Bytes) : Option (Block × Bytes) :=
  if first.toNat / 128 % 2 = 1 then do
    let idx ← decodeInt buf 7
    let f ← b.table.lookup idx.1
    let b ← b.account f
    some (b, buf.drop idx.2)
  else if first.toNat / 64 % 2 = 1 then do
    let lit ← b.table.readLiteral buf 6
    let b ← b.account lit.1
    some ({ b with table := b.table.insert lit.1 }, buf.drop lit.2)
  else if first.toNat / 32 % 2 = 1 then do
    let size ← decodeInt buf 5
    if b.out ≠ [] ∨ 2 ≤ b.sizeUpdates ∨ b.firstSizeUpdate.any fun least => size.1 < least then none
    else do
      let table ← b.table.setMax size.1
      some ({ b with
        table
        sizeUpdates := b.sizeUpdates + 1
        firstSizeUpdate := b.firstSizeUpdate.or (some size.1) }, buf.drop size.2)
  else do
    let lit ← b.table.readLiteral buf 4
    let b ← b.account lit.1
    some (b, buf.drop lit.2)

/-- At most `fuel` turns, with the bytes that are left, `none` after a failure. -/
def run : ℕ → Block → Bytes → Block × Option Bytes
  | 0, b, buf => (b, some buf)
  | _ + 1, b, [] => (b, some [])
  | fuel + 1, b, first :: rest =>
    (b.turn first (first :: rest)).elim (b, none) fun next => run fuel next.1 next.2

/-- The entries that these turns insert, the newest first. -/
def inserted : ℕ → Block → Bytes → List Field
  | 0, _, _ => []
  | _ + 1, _, [] => []
  | fuel + 1, b, first :: rest =>
    (b.turn first (first :: rest)).elim [] fun next => inserted fuel next.1 next.2 ++
      if indexing first then next.1.out.drop b.out.length else []

end Block

/-- `decode`: every turn takes a byte, so that the block's length is enough of them. -/
def Decoder.decode (d : Decoder) (buf : Bytes) : Decoder × Option (List Field) :=
  let r := (Block.start d).run buf.length buf
  (r.1.table, r.2.map fun _ => r.1.out)

def encodeHeader (f : Field) : Bytes :=
  if f ∈ staticFields then encodeInt (staticFields.idxOf f + 1) 7 0x80
  else if (staticFields.map Prod.fst).contains f.1 then
    encodeInt ((staticFields.map Prod.fst).idxOf f.1 + 1) 4 0 ++ encodeString f.2 true
  else [0] ++ encodeString f.1 true ++ encodeString f.2 true

def encodeResponse (headers : List Field) : Bytes := headers.flatMap encodeHeader

variable {value v m i fuel bits flags : ℕ} {rest : Bytes}

lemma decodeIntTail_byte {low more : ℕ} (hlow : low < 128) (hmore : more ≤ 1) (hm : m ≤ 63)
    (hsum : value + low * 2 ^ m ≤ u64Max) :
    decodeIntTail value m i (UInt8.ofNat (low + 128 * more) :: rest) =
      if more = 0 then some (value + low * 2 ^ m, i + 1)
      else if 63 < m + 7 then none
      else decodeIntTail (value + low * 2 ^ m) (m + 7) (i + 1) rest := by
  have hbyte : (UInt8.ofNat (low + 128 * more)).toNat = low + 128 * more := by
    rw [UInt8.toNat_ofNat']
    omega
  have hfits : low ≤ u64Max / 2 ^ m := (Nat.le_div_iff_mul_le (Nat.two_pow_pos m)).mpr (by omega)
  have hrest : (low + 128 * more) % 128 = low := by omega
  have hmark : (low + 128 * more) / 128 % 2 = more := by omega
  simp only [decodeIntTail, hbyte, hrest, hmark]
  rw [if_neg (by omega), if_neg (by omega)]

lemma decodeIntTail_pushIntTail (hm : m + 7 * fuel = 63) (hsum : value + v * 2 ^ m ≤ u64Max) :
    decodeIntTail value m i (pushIntTail fuel v ++ rest) =
      some (value + v * 2 ^ m, i + (pushIntTail fuel v).length) := by
  induction fuel generalizing value v m i with
  | zero =>
    obtain rfl : m = 63 := by omega
    have hv : v < 128 := by
      unfold u64Max at hsum
      omega
    exact (decodeIntTail_byte hv (zero_le 1) le_rfl hsum).trans (if_pos rfl)
  | succ fuel ih =>
    rw [pushIntTail]
    split_ifs with hbig
    · have hsplit : value + v % 128 * 2 ^ m + v / 128 * 2 ^ (m + 7) = value + v * 2 ^ m := by
        conv_rhs => rw [← mod_add_div v 128]
        ring
      rw [cons_append]
      refine (decodeIntTail_byte (mod_lt v (by decide)) le_rfl (by omega) (by omega)).trans ?_
      rw [if_neg one_ne_zero, if_neg (by omega), ih (by omega) (by omega), hsplit,
        length_cons, add_right_comm, add_assoc]
    · exact (decodeIntTail_byte (by omega) (zero_le 1) (by omega) hsum).trans (if_pos rfl)

/-- An integer is read back, with the number of its bytes. -/
theorem decodeInt_encodeInt (hbits : 1 ≤ bits ∧ bits ≤ 8) (hflags : flags < 256)
    (hfree : flags % 2 ^ bits = 0) (hv : v ≤ u64Max) :
    decodeInt (encodeInt v bits flags ++ rest) bits =
      some (v, (encodeInt v bits flags).length) := by
  have hdvd : 2 ^ bits ∣ 2 ^ 8 := pow_dvd_pow 2 hbits.2
  have hroom : flags + (2 ^ bits - 1) < 2 ^ 8 := by
    obtain ⟨q, hq⟩ := hdvd
    obtain ⟨k, rfl⟩ := dvd_of_mod_eq_zero hfree
    have hk : k < q := Nat.lt_of_mul_lt_mul_left (by omega : 2 ^ bits * k < 2 ^ bits * q)
    have := mul_le_mul_left (2 ^ bits) hk
    rw [mul_succ] at this
    omega
  have hfirst : ∀ w < 2 ^ bits, (UInt8.ofNat (flags + w)).toNat % 2 ^ bits = w := by
    intro w hw
    have hbyte : flags + w < 2 ^ 8 := by omega
    rw [UInt8.toNat_ofNat', mod_eq_of_lt hbyte, add_mod, hfree, zero_add, mod_mod, mod_eq_of_lt hw]
  rw [decodeInt, encodeInt, pushInt]
  split_ifs with hsmall
  · simp only [singleton_append, head?_cons, bind_some, hfirst v (by omega),
      if_pos hsmall, length_singleton]
  simp only [cons_append, head?_cons, bind_some, tail_cons,
    hfirst (2 ^ bits - 1) (by omega), lt_irrefl, if_false]
  rw [decodeIntTail_pushIntTail (by omega) (by omega), add_comm 1]
  congr 2
  omega

variable {s raw : Bytes} {b b' : Block} {f : Field} {d : Decoder}

lemma decodeString_encodeInt {mark : ℕ} (hmark : mark ≤ 1) (hraw : raw.length ≤ u64Max) :
    decodeString (encodeInt raw.length 7 (128 * mark) ++ raw ++ rest) =
      (if mark = 1 then Huffman.decode raw else some raw).map
        fun s => (s, (encodeInt raw.length 7 (128 * mark) ++ raw).length) := by
  obtain ⟨tail, htail⟩ := pushInt_cons raw.length 7 (128 * mark)
  have hint := @decodeInt_encodeInt raw.length 7 (128 * mark) (raw ++ rest) (by decide) (by omega)
    (by omega) hraw
  have hfirst : (UInt8.ofNat (128 * mark + min raw.length (2 ^ 7 - 1))).toNat / 128 % 2 = mark := by
    rw [UInt8.toNat_ofNat']
    omega
  have hhead : encodeInt raw.length 7 (128 * mark) = _ := htail
  rw [hhead] at hint ⊢
  rw [append_assoc, decodeString, hint]
  simp only [cons_append, head?_cons, bind_eq_bind, bind_some, hfirst]
  rw [← cons_append, ← cons_append, ← append_assoc, ← length_append,
    if_neg (by simp), take_left, drop_left]

lemma decodeString_encodeString (hs : s.length ≤ u64Max) :
    decodeString (encodeString s true ++ rest) = some (s, (encodeString s true).length) := by
  rw [encodeString]
  split_ifs with h
  · have hcoded := @decodeString_encodeInt rest (Huffman.encode s) 1 le_rfl (by omega)
    rwa [Huffman.decode_encode] at hcoded
  · have hplain := @decodeString_encodeInt rest s 0 (zero_le 1) hs
    rwa [if_neg zero_ne_one] at hplain

variable {max fuel : ℕ} {log : List Field} {first : UInt8} {buf : Bytes} {next : Block × Bytes}

/-- What holds of a decoder after the insertions `log`, the newest first. -/
structure Decoder.Sound (max : ℕ) (log : List Field) (d : Decoder) : Prop where
  sized : d.size = totalSize d.dynamic
  fits : d.size ≤ d.maxSize
  within : d.maxSize ≤ d.allowedMaxSize
  allowed : d.allowedMaxSize = max
  newest : d.dynamic <+: log

lemma totalSize_reverse (fields : List Field) : totalSize fields.reverse = totalSize fields := by
  rw [totalSize, map_reverse, sum_reverse, totalSize]

/-- The table keeps the longest run of its newest entries that fits. -/
theorem Decoder.prefix_evict (hsized : d.size = totalSize d.dynamic) {l : List Field}
    (hl : l <+: d.dynamic) (hfits : totalSize l ≤ d.maxSize) : l <+: d.evict.dynamic := by
  have hlongest := evictAbove_longest (reverse_suffix.mpr hl) ((totalSize_reverse l).trans_le hfits)
  rw [totalSize_reverse, ← hsized] at hlongest
  rw [← reverse_suffix, Decoder.evict, reverse_reverse]
  exact hlongest

lemma Decoder.evict_sound (hsized : d.size = totalSize d.dynamic)
    (hwithin : d.maxSize ≤ d.allowedMaxSize) (hallowed : d.allowedMaxSize = max)
    (hnewest : d.dynamic <+: log) : d.evict.Sound max log := by
  obtain ⟨dropped, hkept, hsize, hroom⟩ := evictAbove_spec d.maxSize d.dynamic.reverse
  rw [totalSize_reverse, ← hsized] at hkept hsize hroom
  refine ⟨hsize.trans (totalSize_reverse _).symm, hroom, hwithin, hallowed, IsPrefix.trans ?_ hnewest⟩
  exact ⟨dropped.reverse, by rw [← reverse_reverse d.dynamic, hkept]; simp [evict]⟩

lemma Decoder.Sound.insert (h : d.Sound max log) (f : Field) : (d.insert f).Sound max (f :: log) :=
  evict_sound (by rw [h.sized]; exact add_comm ..) h.within h.allowed
    ((prefix_cons_inj f).mpr h.newest)

lemma Decoder.Sound.setMax (h : d.Sound max log) {m : ℕ} {d' : Decoder}
    (hset : d.setMax m = some d') : d'.Sound max log := by
  rw [Decoder.setMax, ite_none_left_eq_some] at hset
  obtain ⟨hle, ⟨⟩⟩ := hset
  exact evict_sound h.sized (not_lt.mp hle) h.allowed h.newest

lemma Decoder.Sound.lookup_eq (h : d.Sound max log) (index : ℕ) :
    d.lookup index =
      if index = 0 then none
      else if index ≤ 61 then staticFields[index - 1]?
      else if index - 62 < d.dynamic.length then log[index - 62]? else none := by
  obtain ⟨older, hlog⟩ := h.newest
  rw [lookup, show staticFields.length = 61 from rfl, Nat.sub_sub, ← hlog]
  split_ifs with h0 hstatic hlt
  · rfl
  · rfl
  · rw [getElem?_append_left hlt]
  · exact getElem?_eq_none (not_lt.mp hlt)

lemma account_eq_some : b.account f = some b' ↔ b.decodedSize + entrySize f ≤ maxDecodedHeaderList ∧
      { b with decodedSize := b.decodedSize + entrySize f, out := b.out ++ [f] } = b' := by
  rw [account, ite_none_right_eq_some, some_inj]

lemma decodeIntTail_gt {r : ℕ × ℕ} (h : decodeIntTail value m i buf = some r) : i < r.2 := by
  induction buf generalizing value m i with
  | nil => contradiction
  | cons b buf ih =>
    simp only [decodeIntTail] at h
    split_ifs at h
    · obtain rfl := some.inj h
      exact lt_succ_self i
    · exact (lt_succ_self i).trans (ih h)

lemma decodeInt_pos {r : ℕ × ℕ} (h : decodeInt buf bits = some r) : 0 < r.2 := by
  rw [decodeInt, ite_none_right_eq_some] at h
  obtain ⟨-, first, -, h⟩ := And.imp_right bind_eq_some_iff.mp h
  dsimp only at h
  split_ifs at h
  · obtain rfl := some.inj h
    exact one_pos
  · exact one_pos.trans (decodeIntTail_gt h)

lemma readLiteral_pos {r : Field × ℕ} (h : d.readLiteral buf bits = some r) : 0 < r.2 := by
  obtain ⟨idx, hidx, h⟩ := bind_eq_some_iff.mp h
  have hpos := decodeInt_pos hidx
  obtain ⟨name, hname, h⟩ := bind_eq_some_iff.mp h
  obtain ⟨value, -, ⟨⟩⟩ := bind_eq_some_iff.mp h
  refine Nat.add_pos_left ?_ _
  rw [Decoder.literalName] at hname
  split_ifs at hname <;> obtain ⟨_, -, rfl⟩ := map_eq_some_iff.mp hname
  · exact Nat.add_pos_left hpos _
  · exact hpos

/-- A turn takes bytes and passes a header, which it may insert, or resizes the table. -/
theorem turn_cases (h : b.turn first buf = some next) : ∃ n, 0 < n ∧ next.2 = buf.drop n ∧
      ((∃ f b', b.account f = some b' ∧ next.1 =
          if indexing first then { b' with table := b.table.insert f } else b') ∨
        indexing first = false ∧ ∃ m, b.table.setMax m = some next.1.table) := by
  have hbyte := first.toNat_lt
  rw [Block.turn] at h
  split_ifs at h with h80 h40 h20
  · have hplain : indexing first = false := decide_eq_false (by omega)
    obtain ⟨idx, hidx, h⟩ := bind_eq_some_iff.mp h
    obtain ⟨f, -, h⟩ := bind_eq_some_iff.mp h
    obtain ⟨b', hpass, ⟨⟩⟩ := bind_eq_some_iff.mp h
    exact ⟨_, decodeInt_pos hidx, rfl, .inl ⟨f, b', hpass, by rw [hplain]; rfl⟩⟩
  · have hindexing : indexing first = true := decide_eq_true (by omega)
    obtain ⟨lit, hlit, h⟩ := bind_eq_some_iff.mp h
    obtain ⟨b', hpass, ⟨⟩⟩ := bind_eq_some_iff.mp h
    obtain ⟨-, rfl⟩ := account_eq_some.mp hpass
    exact ⟨_, readLiteral_pos hlit, rfl, .inl ⟨_, _, hpass, by rw [hindexing]; rfl⟩⟩
  · obtain ⟨size, hsize, h⟩ := bind_eq_some_iff.mp h
    obtain ⟨-, h⟩ := ite_none_left_eq_some.mp h
    obtain ⟨table, hset, ⟨⟩⟩ := bind_eq_some_iff.mp h
    exact ⟨_, decodeInt_pos hsize, rfl, .inr ⟨decide_eq_false (by omega), _, hset⟩⟩
  · have hplain : indexing first = false := decide_eq_false (by omega)
    obtain ⟨lit, hlit, h⟩ := bind_eq_some_iff.mp h
    obtain ⟨b', hpass, ⟨⟩⟩ := bind_eq_some_iff.mp h
    exact ⟨_, readLiteral_pos hlit, rfl, .inl ⟨_, b', hpass, by rw [hplain]; rfl⟩⟩

lemma turn_sound (h : b.table.Sound max log) (hturn : b.turn first buf = some next) :
    next.1.table.Sound max
      ((if indexing first then next.1.out.drop b.out.length else []) ++ log) := by
  obtain ⟨n, -, -, ⟨f, b', hpass, heq⟩ | ⟨hplain, m, hset⟩⟩ := turn_cases hturn
  · obtain ⟨-, rfl⟩ := account_eq_some.mp hpass
    split_ifs at heq ⊢ with hindexing
    · rw [heq]
      simpa using h.insert f
    · rw [heq]
      exact h
  · rw [hplain]
    exact h.setMax hset

lemma run_sound (h : b.table.Sound max log) (fuel : ℕ) (buf : Bytes) :
    (b.run fuel buf).1.table.Sound max (b.inserted fuel buf ++ log) := by
  induction fuel generalizing b log buf with
  | zero => exact h
  | succ fuel ih =>
    cases buf with
    | nil => exact h
    | cons first rest =>
      rw [Block.run, inserted]
      cases hturn : b.turn first (first :: rest) with
      | none => exact h
      | some next =>
        rw [elim_some, append_assoc]
        exact ih (turn_sound h hturn) next.2

/-- As many turns as bytes are enough. -/
theorem run_ends (h : buf.length ≤ fuel) :
    (b.run fuel buf).2 = none ∨ (b.run fuel buf).2 = some [] := by
  induction fuel generalizing b buf with
  | zero => exact .inr (congrArg some (eq_nil_of_length_eq_zero (le_zero.mp h)))
  | succ fuel ih =>
    cases buf with
    | nil => exact .inr rfl
    | cons first rest =>
      rw [Block.run]
      cases hturn : b.turn first (first :: rest) with
      | none => exact .inl rfl
      | some next =>
        obtain ⟨n, hpos, hrest, -⟩ := turn_cases hturn
        refine ih ?_
        rw [hrest, length_drop]
        omega

/-- A literal that is not inserted: its value follows the bytes of its name. -/
theorem turn_literal {head : Bytes} {idx : ℕ × ℕ} (hfirst : first.toNat < 32)
    (hvalue : f.2.length ≤ u64Max) (hpass : b.account f = some b')
    (hidx : decodeInt (head ++ (encodeString f.2 true ++ rest)) 4 = some idx)
    (hname : b.table.literalName (head ++ (encodeString f.2 true ++ rest)) idx = some (f.1,
      head.length)) : b.turn first (head ++ encodeString f.2 true ++ rest) = some (b', rest) := by
  rw [append_assoc, Block.turn, if_neg (by omega), if_neg (by omega), if_neg (by omega),
    Decoder.readLiteral, hidx]
  simp only [bind_eq_bind, bind_some, hname, drop_left, decodeString_encodeString hvalue, hpass]
  rw [← append_assoc, ← length_append, drop_left]

lemma lookup_static {index : ℕ} (h : index < 61) : d.lookup (index + 1) = staticFields[index]? := by
  exact if_pos (succ_le_of_lt h)

lemma turn_encodeHeader (rest : Bytes) (hpass : b.account f = some b') :
    ∃ first tail, encodeHeader f = first :: tail ∧
      b.turn first (encodeHeader f ++ rest) = some (b', rest) := by
  have hfits := (account_eq_some.mp hpass).1
  have hlong : f.1.length ≤ u64Max ∧ f.2.length ≤ u64Max := by
    unfold entrySize maxDecodedHeaderList at hfits
    unfold u64Max
    omega
  rw [encodeHeader]
  split_ifs with hstatic hnamed
  · have hlt : staticFields.idxOf f < 61 := idxOf_lt_length_of_mem hstatic
    obtain ⟨tail, htail⟩ := pushInt_cons (staticFields.idxOf f + 1) 7 0x80
    refine ⟨_, tail, htail, ?_⟩
    rw [Block.turn, if_pos (by rw [UInt8.toNat_ofNat']; omega),
      decodeInt_encodeInt (by decide) (by decide) (by decide) (by unfold u64Max; omega)]
    simp only [bind_eq_bind, bind_some, lookup_static hlt, getElem?_idxOf hstatic, hpass, drop_left]
  · rw [contains_iff_mem] at hnamed
    have hlt : (staticFields.map Prod.fst).idxOf f.1 < 61 := idxOf_lt_length_of_mem hnamed
    obtain ⟨tail, htail⟩ := pushInt_cons ((staticFields.map Prod.fst).idxOf f.1 + 1) 4 0
    refine ⟨_, tail ++ encodeString f.2 true, congrArg (· ++ _) htail, ?_⟩
    refine turn_literal (by rw [UInt8.toNat_ofNat']; omega) hlong.2 hpass
      (decodeInt_encodeInt (by decide) (by decide) (by decide) (by unfold u64Max; omega)) ?_
    rw [Decoder.literalName, if_neg (succ_ne_zero _), lookup_static hlt]
    have hfound := getElem?_idxOf hnamed
    rw [getElem?_map] at hfound
    obtain ⟨e, he, hfst⟩ := map_eq_some_iff.mp hfound
    rw [he, map_some, hfst]
  · have hzero : decodeInt ([0] ++ encodeString f.1 true ++ (encodeString f.2 true ++ rest)) 4 =
        some (0, 1) := rfl
    refine ⟨0, _, rfl, turn_literal (by decide) hlong.2 hpass hzero ?_⟩
    rw [Decoder.literalName, if_pos rfl]
    refine (congrArg _ (decodeString_encodeString hlong.1)).trans ?_
    rw [map_some, length_append, length_singleton]

lemma run_encodeResponse {headers : List Field} (hfuel : (encodeResponse headers).length ≤ fuel)
    (hfits : b.decodedSize + totalSize headers ≤ maxDecodedHeaderList) :
    ∃ size, b.run fuel (encodeResponse headers) =
      ({ b with decodedSize := size, out := b.out ++ headers }, some []) := by
  induction headers generalizing b fuel with
  | nil =>
    refine ⟨b.decodedSize, ?_⟩
    rw [append_nil]
    cases fuel <;> rfl
  | cons f headers ih =>
    rw [Quic.Qpack.totalSize_cons, ← add_assoc] at hfits
    have hpass := account_eq_some.mpr ⟨(le_add_right ..).trans hfits, rfl⟩
    obtain ⟨first, tail, hhead, hturn⟩ := turn_encodeHeader (encodeResponse headers) hpass
    have hbytes : encodeResponse (f :: headers) = first :: (tail ++ encodeResponse headers) :=
      congrArg (· ++ encodeResponse headers) hhead
    rw [hhead, cons_append, ← hbytes] at hturn
    rw [hbytes, length_cons, length_append] at hfuel
    obtain ⟨fuel, rfl⟩ : ∃ k, fuel = k + 1 := ⟨fuel - 1, by omega⟩
    obtain ⟨size, hrun⟩ := ih
      (b := { b with decodedSize := b.decodedSize + entrySize f, out := b.out ++ [f] })
      (by omega : _ ≤ fuel) hfits
    refine ⟨size, ?_⟩
    rw [hbytes, Block.run, ← hbytes, hturn, elim_some, hrun, append_assoc, singleton_append]

/-- A call of `decode`, next to the entries that were inserted so far. -/
def call (s : Decoder × List Field) (buf : Bytes) : Decoder × List Field :=
  ((s.1.decode buf).1, (Block.start s.1).inserted buf.length buf ++ s.2)

lemma sound_calls (max : ℕ) (blocks : List Bytes) :
    (blocks.foldl call (Decoder.new max, [])).1.Sound max
      (blocks.foldl call (Decoder.new max, [])).2 := by
  induction blocks using reverseRecOn with
  | nil => exact ⟨rfl, zero_le _, le_rfl, rfl, prefix_rfl⟩
  | append_singleton blocks buf ih =>
    rw [foldl_append]
    exact run_sound (b := .start _) ih buf.length buf

/-- Integers are read back with their length; after any calls and in any turn of a further one
the table is consistent; responses are read back and leave the table alone. -/
theorem hpack_consistent :
    (∀ v ≤ u64Max, ∀ bits, 1 ≤ bits ∧ bits ≤ 8 → ∀ flags < 256, flags % 2 ^ bits = 0 → ∀ rest,
      decodeInt (encodeInt v bits flags ++ rest) bits = some (v, (encodeInt v bits flags).length)) ∧
    (∀ (max : ℕ) (blocks : List Bytes) (buf : Bytes) (turns : ℕ),
      let s := blocks.foldl call (Decoder.new max, [])
      let d := ((Block.start s.1).run turns buf).1.table
      let log := (Block.start s.1).inserted turns buf ++ s.2
      d.size = totalSize d.dynamic ∧ d.size ≤ d.maxSize ∧ d.maxSize ≤ d.allowedMaxSize ∧
        d.allowedMaxSize = max ∧
        ∀ index, d.lookup index =
          if index = 0 then none
          else if index ≤ 61 then staticFields[index - 1]?
          else if index - 62 < d.dynamic.length then log[index - 62]? else none) ∧
    (∀ d : Decoder, d.size = totalSize d.dynamic → ∀ l, l <+: d.dynamic →
      totalSize l ≤ d.maxSize → l <+: d.evict.dynamic) ∧
    (∀ b buf, (Block.run buf.length b buf).2 = none ∨ (Block.run buf.length b buf).2 = some []) ∧
    ∀ (d : Decoder) (headers : List Field), totalSize headers ≤ maxDecodedHeaderList →
      d.decode (encodeResponse headers) = (d, some headers) := by
  refine ⟨fun v hv bits hbits flags hflags hfree rest => decodeInt_encodeInt hbits hflags hfree hv,
    fun max blocks buf turns => ?_, fun d hsized l => d.prefix_evict hsized,
    fun b buf => run_ends le_rfl, fun d headers hfits => ?_⟩
  · have h := run_sound (b := .start _) (sound_calls max blocks) turns buf
    exact ⟨h.sized, h.fits, h.within, h.allowed, h.lookup_eq⟩
  · obtain ⟨size, hrun⟩ := run_encodeResponse (b := .start d) le_rfl
      ((zero_add _).trans_le hfits)
    rw [Decoder.decode, hrun]
    rfl

/-- Two entries that are one too many for their table. -/
def crowded : Decoder := { Decoder.new 40 with dynamic := [([99], []), ([97], [98])], size := 67 }

/-- An integer of three bytes, a field that is inserted, one that is kept, and a status line that is
one index. -/
theorem hpack_consistent_example :
    decodeInt (encodeInt 1337 5 0x20) 5 = some (1337, 3) ∧
      (call (Decoder.new 4096, []) [0x40, 1, 97, 1, 98]).1.lookup 62 = some ([97], [98]) ∧
      [([99], [])] <+: crowded.evict.dynamic ∧
      (Decoder.new 4096).decode (encodeResponse [(ascii ":status", ascii "200")]) =
        (Decoder.new 4096, some [(ascii ":status", ascii "200")]) := by
  obtain ⟨hint, htable, hkept, -, hresponse⟩ := hpack_consistent
  refine ⟨hint 1337 (by decide) 5 (by decide) 0x20 (by decide) (by decide) [], ?_,
    hkept crowded rfl _ (by decide) (by decide), hresponse _ _ (by decide)⟩
  exact ((htable 4096 [[0x40, 1, 97, 1, 98]] [] 0).2.2.2.2 62).trans (by decide +kernel)

end OnetDns.Http2.Hpack
