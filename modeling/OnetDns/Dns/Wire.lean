import OnetDns.Lib.BigEndian

/-!
# Byte cursor and output buffer of the DNS codec

`Reader` and `Writer` of `onetdns-proto/src/wire.rs`, with the table of name
offsets (`NameMap`) that a writer keeps. A reading function takes the cursor and
returns the value with the moved cursor, or an error. A writer keeps its first error and
drops every later write.
-/
namespace OnetDns.Dns
open BigEndian

abbrev Bytes := List UInt8

inductive ProtoError where
  | eof
  | name (text : String)
  | message (text : String)
  deriving DecidableEq

/-- The largest message a TCP length prefix can announce. -/
def maxDnsWireLen : ℕ := 65535

/-- Offsets a compression pointer can hold. -/
def pointerLimit : ℕ := 0x4000

def be16 (v : UInt16) : Bytes := encode 2 v.toNat
def be32 (v : UInt32) : Bytes := encode 4 v.toNat

/-- `u16::from_be_bytes`. -/
def ofBe16 (bytes : Bytes) : UInt16 := UInt16.ofNat (decode bytes)

/-- `u32::from_be_bytes`. -/
def ofBe32 (bytes : Bytes) : UInt32 := UInt32.ofNat (decode bytes)

@[simp] lemma be16_length (v : UInt16) : (be16 v).length = 2 := encode_length _ _
@[simp] theorem be32_length (v : UInt32) : (be32 v).length = 4 := encode_length _ _

@[simp] lemma ofBe16_be16 (v : UInt16) : ofBe16 (be16 v) = v := by
  have h : v.toNat < 256 ^ 2 := v.toNat_lt
  rw [ofBe16, be16, decode_encode h, UInt16.ofNat_toNat]

lemma be16_ofBe16 (hi lo : UInt8) : be16 (ofBe16 [hi, lo]) = [hi, lo] := by
  have h : decode [hi, lo] < 2 ^ 16 := (decode_lt [hi, lo]).trans_eq (by norm_num)
  rw [be16, ofBe16, UInt16.toNat_ofNat', Nat.mod_eq_of_lt h]
  exact encode_decode [hi, lo]

lemma be32_ofBe32 (a b c d : UInt8) : be32 (ofBe32 [a, b, c, d]) = [a, b, c, d] := by
  have h : decode [a, b, c, d] < 2 ^ 32 := (decode_lt [a, b, c, d]).trans_eq (by norm_num)
  rw [be32, ofBe32, UInt32.toNat_ofNat', Nat.mod_eq_of_lt h]
  exact encode_decode [a, b, c, d]

/-- The cursor. `limit` is lowered while the data of a record is read. -/
structure Reader where
  buf : Bytes
  pos : ℕ
  limit : ℕ

abbrev ReadM := StateT Reader (Except ProtoError)

namespace Reader

def new (buf : Bytes) : Reader := ⟨buf, 0, buf.length⟩

def remaining (r : Reader) : ℕ := r.limit - r.pos

def u8 : ReadM UInt8 := fun r =>
  if r.limit ≤ r.pos then .error .eof
  else
    match r.buf[r.pos]? with
    | some b => .ok (b, { r with pos := r.pos + 1 })
    | none => .error .eof

def u16 : ReadM UInt16 := do
  let hi ← u8
  let lo ← u8
  return ofBe16 [hi, lo]

def u32 : ReadM UInt32 := do
  let hi ← u16
  let lo ← u16
  return UInt32.ofNat (hi.toNat * 65536 + lo.toNat)

/-- The next `n` bytes. -/
def bytes (n : ℕ) : ReadM Bytes := fun r =>
  if r.limit < r.pos + n then .error .eof
  else if r.buf.length < r.pos + n then .error .eof
  else .ok ((r.buf.drop r.pos).take n, { r with pos := r.pos + n })

end Reader

/-- A suffix that was written, where it starts, and the next slot with the same hash. -/
structure NameMapEntry where
  key : Bytes
  offset : UInt16
  next : Option ℕ

/-- Slots in order of insertion, and the newest slot of every hash. Slots from
`active` on are left over from an earlier message. -/
structure NameMap where
  heads : UInt64 → Option ℕ
  entries : List NameMapEntry
  active : ℕ
  hashBuilder : Bytes → UInt64

namespace NameMap

def maxRetainedNameEntries : ℕ := 64

def default (hashBuilder : Bytes → UInt64) : NameMap := ⟨fun _ => none, [], 0, hashBuilder⟩

/-- Follows the slots of one hash. Links go to older slots only, so the number
of slots is enough fuel. -/
def walk (entries : List NameMapEntry) (key : Bytes) : (fuel : ℕ) → Option ℕ → Option UInt16
  | _, none => none
  | 0, some _ => none
  | fuel + 1, some index =>
    match entries[index]? with
    | none => none
    | some entry => if entry.key = key then some entry.offset else walk entries key fuel entry.next

def get (m : NameMap) (key : Bytes) : Option UInt16 :=
  walk m.entries key m.entries.length (m.heads (m.hashBuilder key))

def insert (m : NameMap) (key : Bytes) (offset : UInt16) : NameMap :=
  let hash := m.hashBuilder key
  let entry : NameMapEntry := ⟨key, offset, m.heads hash⟩
  { m with
    heads := fun other => if other = hash then some m.active else m.heads other
    entries := if m.active < m.entries.length then m.entries.set m.active entry
      else m.entries ++ [entry]
    active := m.active + 1 }

def clear (m : NameMap) : NameMap :=
  { m with
    heads := fun _ => none
    entries := if maxRetainedNameEntries < m.entries.length then [] else m.entries
    active := 0 }

end NameMap

structure Writer where
  buf : Bytes
  names : NameMap
  error : Option ProtoError
  limit : ℕ

namespace Writer

/-- An empty buffer that takes at most `limit` bytes. -/
def withLimit (hashBuilder : Bytes → UInt64) (limit : ℕ) : Writer :=
  ⟨[], NameMap.default hashBuilder, none, min limit maxDnsWireLen⟩

def new (hashBuilder : Bytes → UInt64) : Writer := withLimit hashBuilder maxDnsWireLen

def clear (w : Writer) : Writer := { w with buf := [], names := w.names.clear, error := none }

variable (w : Writer)

def isFailed : Bool := w.error.isSome

def fail (text : String) : Writer :=
  if w.error.isNone then { w with error := some (.message text) } else w

/-- Appends, or fails when the limit would be passed. -/
def pushBytes (bytes : Bytes) : Writer :=
  if w.error.isSome then w
  else if w.limit < w.buf.length + bytes.length then
    w.fail s!"DNS 메시지가 허용 크기인 {w.limit}바이트를 넘었습니다"
  else { w with buf := w.buf ++ bytes }

def pushU8 (v : UInt8) : Writer := w.pushBytes [v]
def pushU16 (v : UInt16) : Writer := w.pushBytes (be16 v)
def pushU32 (v : UInt32) : Writer := w.pushBytes (be32 v)

/-- Room for a length that is filled in later. -/
def placeholderU16 : ℕ × Writer := (w.buf.length, w.pushU16 0)

/-- Writes the number of bytes behind the placeholder into it. -/
def backpatchLen (at' : ℕ) : Writer :=
  if w.error.isSome then w
  else if w.buf.length < at' + 2 then w.fail "DNS 길이 placeholder 범위가 올바르지 않습니다"
  else
    let len := w.buf.length - (at' + 2)
    if 65535 < len then w.fail "DNS 레코드 데이터가 65,535바이트를 넘었습니다"
    else { w with buf := w.buf.take at' ++ be16 (UInt16.ofNat len) ++ w.buf.drop (at' + 2) }

def finish : Except ProtoError Bytes :=
  match w.error with
  | some error => .error error
  | none => .ok w.buf

end Writer

end OnetDns.Dns
