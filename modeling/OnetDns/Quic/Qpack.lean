import OnetDns.Http2.Huffman
import OnetDns.Lib.Instructions
import OnetDns.Quic.Types

/-!
# QPACK

`qpack.rs`: the static and the dynamic table, the two instruction streams and the field
sections. A reader of the source moves a position through a buffer; here it returns the
bytes behind what it read. Its sums of a position and a length do not overflow, as every
length it reads is below `2 ^ 64 - 2 ^ 62`.
-/
namespace OnetDns.Quic.Qpack

open OnetDns.Instructions (Look drain)

/-- A header: its name and its value. -/
abbrev Field := Bytes × Bytes

def staticTable : List (String × String) :=
  [(":authority", ""), (":path", "/"), ("age", "0"), ("content-disposition", ""),
   ("content-length", "0"), ("cookie", ""), ("date", ""), ("etag", ""), ("if-modified-since", ""),
   ("if-none-match", ""), ("last-modified", ""), ("link", ""), ("location", ""), ("referer", ""),
   ("set-cookie", ""), (":method", "CONNECT"), (":method", "DELETE"), (":method", "GET"),
   (":method", "HEAD"), (":method", "OPTIONS"), (":method", "POST"), (":method", "PUT"),
   (":scheme", "http"), (":scheme", "https"), (":status", "103"), (":status", "200"),
   (":status", "304"), (":status", "404"), (":status", "503"), ("accept", "*/*"),
   ("accept", "application/dns-message"), ("accept-encoding", "gzip, deflate, br"),
   ("accept-ranges", "bytes"), ("access-control-allow-headers", "cache-control"),
   ("access-control-allow-headers", "content-type"), ("access-control-allow-origin", "*"),
   ("cache-control", "max-age=0"), ("cache-control", "max-age=2592000"),
   ("cache-control", "max-age=604800"), ("cache-control", "no-cache"),
   ("cache-control", "no-store"), ("cache-control", "public, max-age=31536000"),
   ("content-encoding", "br"), ("content-encoding", "gzip"),
   ("content-type", "application/dns-message"), ("content-type", "application/javascript"),
   ("content-type", "application/json"), ("content-type", "application/x-www-form-urlencoded"),
   ("content-type", "image/gif"), ("content-type", "image/jpeg"), ("content-type", "image/png"),
   ("content-type", "text/css"), ("content-type", "text/html; charset=utf-8"),
   ("content-type", "text/plain"), ("content-type", "text/plain;charset=utf-8"),
   ("range", "bytes=0-"), ("strict-transport-security", "max-age=31536000"),
   ("strict-transport-security", "max-age=31536000; includesubdomains"),
   ("strict-transport-security", "max-age=31536000; includesubdomains; preload"),
   ("vary", "accept-encoding"), ("vary", "origin"), ("x-content-type-options", "nosniff"),
   ("x-xss-protection", "1; mode=block"), (":status", "100"), (":status", "204"),
   (":status", "206"), (":status", "302"), (":status", "400"), (":status", "403"),
   (":status", "421"), (":status", "425"), (":status", "500"), ("accept-language", ""),
   ("access-control-allow-credentials", "FALSE"), ("access-control-allow-credentials", "TRUE"),
   ("access-control-allow-headers", "*"), ("access-control-allow-methods", "get"),
   ("access-control-allow-methods", "get, post, options"),
   ("access-control-allow-methods", "options"),
   ("access-control-expose-headers", "content-length"),
   ("access-control-request-headers", "content-type"), ("access-control-request-method", "get"),
   ("access-control-request-method", "post"), ("alt-svc", "clear"), ("authorization", ""),
   ("content-security-policy", "script-src 'none'; object-src 'none'; base-uri 'none'"),
   ("early-data", "1"), ("expect-ct", ""), ("forwarded", ""), ("if-range", ""), ("origin", ""),
   ("purpose", "prefetch"), ("server", ""), ("timing-allow-origin", "*"),
   ("upgrade-insecure-requests", "1"), ("user-agent", ""), ("x-forwarded-for", ""),
   ("x-frame-options", "deny"), ("x-frame-options", "sameorigin")]

def ascii (s : String) : Bytes := s.toList.map fun c => UInt8.ofNat c.toNat

def staticEntry (idx : ℕ) : Option Field := staticTable[idx]?.map fun e => (ascii e.1, ascii e.2)

def staticFind (name value : Bytes) : Option ℕ :=
  staticTable.findIdx? fun e => decide (ascii e.1 = name ∧ ascii e.2 = value)

def staticFindName (name : Bytes) : Option ℕ :=
  staticTable.findIdx? fun e => decide (ascii e.1 = name)

/-- `StreamParse`: what was read with the bytes behind it, or too few bytes, or a malformed
value. -/
inductive StreamParse (α : Type) where
  | done (value : α) (rest : Bytes)
  | incomplete
  | invalid
  deriving DecidableEq

namespace StreamParse

def bind {α β : Type} (p : StreamParse α) (next : α → Bytes → StreamParse β) : StreamParse β :=
  match p with
  | .done value rest => next value rest
  | .incomplete => .incomplete
  | .invalid => .invalid

/-- The readers of a complete buffer refuse what is short as they refuse what is malformed. -/
def complete {α : Type} : StreamParse α → Option (α × Bytes)
  | .done value rest => some (value, rest)
  | .incomplete => none
  | .invalid => none

end StreamParse

/-- The bytes of an integer after its first one, from the shift `m` on. -/
def readIntTail (val m : ℕ) : Bytes → StreamParse ℕ
  | [] => .incomplete
  | b :: rest =>
    let low := b.toNat % 128
    if 64 ≤ m ∨ u64Max / 2 ^ m < low then .invalid
    else if u64Max < val + low * 2 ^ m then .invalid
    else if b.toNat / 128 % 2 = 0 then .done (val + low * 2 ^ m) rest
    else if 62 < m + 7 then .invalid
    else readIntTail (val + low * 2 ^ m) (m + 7) rest

def readStreamInt (prefixBits : ℕ) : Bytes → StreamParse ℕ
  | [] => if 1 ≤ prefixBits ∧ prefixBits ≤ 8 then .incomplete else .invalid
  | first :: rest =>
    if 1 ≤ prefixBits ∧ prefixBits ≤ 8 then
      let mask := 2 ^ prefixBits - 1
      let val := first.toNat % 2 ^ prefixBits
      if val < mask then .done val rest else readIntTail val 0 rest
    else .invalid

/-- The slice of the next `len` bytes. -/
def readBytes (len : ℕ) (buf : Bytes) : StreamParse Bytes :=
  if len ≤ buf.length then .done (buf.take len) (buf.drop len) else .incomplete

/-- The `len` bytes of a string, decoded when they are marked as Huffman coded. -/
def readCoded (huff : Bool) (len : ℕ) (buf : Bytes) : StreamParse Bytes :=
  (readBytes len buf).bind fun bytes rest =>
    if huff then
      match Http2.Huffman.decode bytes with
      | some value => .done value rest
      | none => .invalid
    else .done bytes rest

/-- A string whose length has `prefixBits` bits in the first byte and whose Huffman mark is
the bit above them. -/
def readText (prefixBits : ℕ) : Bytes → StreamParse Bytes
  | [] => .incomplete
  | first :: rest =>
    (readStreamInt prefixBits (first :: rest)).bind
      (readCoded (first.toNat / 2 ^ prefixBits % 2 = 1))

def readStreamString : Bytes → StreamParse Bytes := readText 7

def readInt (prefixBits : ℕ) (buf : Bytes) : Option (ℕ × Bytes) :=
  (readStreamInt prefixBits buf).complete

def readString (buf : Bytes) : Option (Bytes × Bytes) := (readStreamString buf).complete

/-- The loop of `push_int`: seven bits a byte, the lowest first. A number below `2 ^ 64` ends
within ten bytes. -/
def pushIntTail : ℕ → ℕ → Bytes
  | 0, val => [UInt8.ofNat val]
  | fuel + 1, val =>
    if 128 ≤ val then UInt8.ofNat (val % 128 + 128) :: pushIntTail fuel (val / 128)
    else [UInt8.ofNat val]

/-- `push_int`. The flags lie above the prefix, so that joining them is adding them. -/
def pushInt (val prefixBits flags : ℕ) : Bytes :=
  let mask := 2 ^ prefixBits - 1
  if val < mask then [UInt8.ofNat (flags + val)]
  else UInt8.ofNat (flags + mask) :: pushIntTail 9 (val - mask)

def pushString (s : Bytes) : Bytes := pushInt s.length 7 0 ++ s

def entryOverhead : ℕ := 32

def entrySize (f : Field) : ℕ := f.1.length + f.2.length + entryOverhead

structure DynamicTable where
  entries : List Field := []
  insertCount : ℕ := 0
  capacity : ℕ := 0
  size : ℕ := 0
  deriving DecidableEq

namespace DynamicTable

/-- `evict_oldest`, as long as the size is above `room`. -/
def evictAbove (room : ℕ) : List Field → ℕ → List Field × ℕ
  | [], size => ([], size)
  | e :: entries, size =>
    if room < size then evictAbove room entries (size - entrySize e) else (e :: entries, size)

variable (t : DynamicTable)

def setCapacity (cap : ℕ) : DynamicTable :=
  let kept := evictAbove cap t.entries t.size
  { t with entries := kept.1, size := kept.2, capacity := cap }

def insert (f : Field) : Option DynamicTable :=
  if t.capacity < entrySize f then none
  else
    let kept := evictAbove (t.capacity - entrySize f) t.entries t.size
    if t.capacity < kept.2 + entrySize f then none
    else some { t with
      entries := kept.1 ++ [f]
      size := kept.2 + entrySize f
      insertCount := t.insertCount + 1 }

def insertNoEvict (f : Field) : Option DynamicTable :=
  if t.capacity < t.size + entrySize f then none
  else some { t with
    entries := t.entries ++ [f]
    size := t.size + entrySize f
    insertCount := t.insertCount + 1 }

/-- The number of entries that were evicted, and the absolute index of the oldest one left. -/
def oldest : ℕ := t.insertCount - t.entries.length

def getAbs (abs : ℕ) : Option Field :=
  if abs < t.oldest ∨ t.insertCount ≤ abs then none else t.entries[abs - t.oldest]?

def find (t : DynamicTable) (f : Field) : Option ℕ :=
  (t.entries.zipIdx.reverse.find? fun e => decide (e.1 = f)).map fun e => t.oldest + e.2

/-- The entry `idx` places before the newest. -/
def getRelative (idx : ℕ) : Option Field :=
  if t.insertCount < 1 + idx then none else t.getAbs (t.insertCount - (1 + idx))

end DynamicTable

/-- An instruction of the encoder stream. -/
inductive Instruction where
  | insertStatic (idx : ℕ) (value : Bytes)
  | insertRelative (idx : ℕ) (value : Bytes)
  | insertLiteral (name value : Bytes)
  | setCapacity (cap : ℕ)
  | duplicate (idx : ℕ)

/-- An instruction that starts with the byte `b`. -/
def readInstructionAs (b : UInt8) (buf : Bytes) : StreamParse Instruction :=
  if b.toNat / 128 % 2 = 1 then
    (readStreamInt 6 buf).bind fun idx rest =>
      (readStreamString rest).bind fun value rest =>
        .done (if b.toNat / 64 % 2 = 1 then .insertStatic idx value
          else .insertRelative idx value) rest
  else if b.toNat / 64 % 2 = 1 then
    (readText 5 buf).bind fun name rest =>
      (readStreamString rest).bind fun value rest => .done (.insertLiteral name value) rest
  else if b.toNat / 32 % 2 = 1 then
    (readStreamInt 5 buf).bind fun cap rest => .done (.setCapacity cap) rest
  else
    (readStreamInt 5 buf).bind fun idx rest => .done (.duplicate idx) rest

def readInstruction : Bytes → StreamParse Instruction
  | [] => .incomplete
  | b :: rest => readInstructionAs b (b :: rest)

/-- The effect of an instruction, `none` when it is refused. -/
def DynamicTable.apply (maxCapacity : ℕ) (t : DynamicTable) : Instruction → Option DynamicTable
  | .insertStatic idx value => do
    let entry ← staticEntry idx
    t.insert (entry.1, value)
  | .insertRelative idx value => do
    let entry ← t.getRelative idx
    t.insert (entry.1, value)
  | .insertLiteral name value => t.insert (name, value)
  | .setCapacity cap => if maxCapacity < cap then none else some (t.setCapacity cap)
  | .duplicate idx => do
    let entry ← t.getRelative idx
    t.insert entry

/-- One turn of the loop over an instruction stream: an instruction is read and applied. -/
def lookWith {σ ι : Type} (read : Bytes → StreamParse ι) (apply : σ → ι → Option σ) (s : σ)
    (buf : Bytes) : Look σ UInt8 :=
  match read buf with
  | .incomplete => .more
  | .invalid => .reject
  | .done instruction rest =>
    match apply s instruction with
    | none => .reject
    | some s' => .take s' rest

/-- One turn of the loop of `on_encoder_stream`. -/
def lookInstruction (maxCapacity : ℕ) : DynamicTable → Bytes → Look DynamicTable UInt8 :=
  lookWith readInstruction (DynamicTable.apply maxCapacity)

structure Decoder where
  table : DynamicTable := {}
  maxCapacity : ℕ
  encBuf : Bytes := []
  out : Bytes := []
  deriving DecidableEq

/-- `MAX_ENCODER_BUFFER` and `MAX_DECODER_BUFFER`. -/
def maxBuffer : ℕ := 64 * 1024

namespace Decoder

def onEncoderStream (d : Decoder) (data : Bytes) : Option Decoder :=
  if maxBuffer < d.encBuf.length + data.length then none
  else do
    let r ← drain (lookInstruction d.maxCapacity) d.table (d.encBuf ++ data)
    let inserted := r.1.insertCount - d.table.insertCount
    some { d with
      table := r.1
      encBuf := r.2
      out := d.out ++ if 0 < inserted then pushInt inserted 6 0 else [] }

end Decoder

/-- Where a field line finds its entry. -/
inductive Reference where
  | static (idx : ℕ)
  | relative (idx : ℕ)
  | postBase (idx : ℕ)
  deriving DecidableEq

/-- A line of a field section. -/
inductive FieldLine where
  | indexed (ref : Reference)
  | named (ref : Reference) (value : Bytes)
  | literal (name value : Bytes)
  deriving DecidableEq

/-- The reading half of a turn of `decode_field_section`'s loop: in every branch the source
reads the whole line before it looks at a table. -/
def readFieldLine : Bytes → Option (FieldLine × Bytes)
  | [] => none
  | b :: rest =>
    let buf := b :: rest
    if b.toNat / 128 % 2 = 1 then do
      let (idx, rest) ← readInt 6 buf
      some (.indexed (if b.toNat / 64 % 2 = 1 then .static idx else .relative idx), rest)
    else if b.toNat / 64 % 2 = 1 then do
      let (idx, rest) ← readInt 4 buf
      let (value, rest) ← readString rest
      some (.named (if b.toNat / 16 % 2 = 1 then .static idx else .relative idx) value, rest)
    else if b.toNat / 32 % 2 = 1 then do
      let (name, rest) ← (readText 3 buf).complete
      let (value, rest) ← readString rest
      some (.literal name value, rest)
    else if b.toNat / 16 % 2 = 1 then do
      let (idx, rest) ← readInt 4 buf
      some (.indexed (.postBase idx), rest)
    else do
      let (idx, rest) ← readInt 3 buf
      let (value, rest) ← readString rest
      some (.named (.postBase idx) value, rest)

def Reference.absolute (base : ℕ) : Reference → Option ℕ
  | .static _ => none
  | .relative idx => if base < 1 + idx then none else some (base - (1 + idx))
  | .postBase idx => if u64Max < base + idx then none else some (base + idx)

def Reference.lookup (t : DynamicTable) (base : ℕ) : Reference → Option Field
  | .static idx => staticEntry idx
  | .relative idx => ((Reference.relative idx).absolute base).bind t.getAbs
  | .postBase idx => ((Reference.postBase idx).absolute base).bind t.getAbs

def FieldLine.resolve (t : DynamicTable) (base : ℕ) : FieldLine → Option Field
  | .indexed ref => ref.lookup t base
  | .named ref value => (ref.lookup t base).map fun entry => (entry.1, value)
  | .literal name value => some (name, value)

def maxDecodedSize : ℕ := 32 * 1024
def maxFields : ℕ := 128

/-- The loop of `decode_field_section`; a line has at least one byte. -/
def readFields (t : DynamicTable) (base : ℕ) : ℕ → Bytes → List Field → ℕ → Option (List Field)
  | _, [], out, _ => some out
  | 0, _ :: _, _, _ => none
  | fuel + 1, b :: buf, out, decodedSize => do
    let (line, rest) ← readFieldLine (b :: buf)
    let field ← line.resolve t base
    let decodedSize := decodedSize + entrySize field
    if decodedSize ≤ maxDecodedSize ∧ out.length < maxFields then
      readFields t base fuel rest (out ++ [field]) decodedSize
    else none

inductive DecodeResult where
  | done (headers : List Field)
  | blocked
  | error
  deriving DecidableEq

/-- The Required Insert Count behind its encoded form, at a decoder that has `insertCount`
entries behind it. -/
def requiredInsertCount (maxEntries insertCount encRic : ℕ) : Option ℕ :=
  if encRic = 0 then some 0
  else if maxEntries = 0 then none
  else
    let fullRange := 2 * maxEntries
    if fullRange < encRic then none
    else
      let maxValue := insertCount + maxEntries
      let maxWrapped := maxValue / fullRange * fullRange
      let ric := maxWrapped + encRic - 1
      if maxValue < ric then
        if ric ≤ fullRange then none
        else if ric - fullRange = 0 then none else some (ric - fullRange)
      else if ric = 0 then none else some ric

def readBase (ric : ℕ) : Bytes → Option (ℕ × Bytes)
  | [] => none
  | sb :: rest => do
    let (delta, rest) ← readInt 7 (sb :: rest)
    if sb.toNat / 128 % 2 = 1 then
      if ric < delta + 1 then none else some (ric - (delta + 1), rest)
    else if u64Max < ric + delta then none else some (ric + delta, rest)

namespace Decoder

variable (d : Decoder)

def maxEntries : ℕ := d.maxCapacity / entryOverhead

/-- `decode_field_section`: the result with the Required Insert Count it was read under. -/
def readSection (buf : Bytes) : DecodeResult × ℕ :=
  match readInt 8 buf with
  | none => (.error, 0)
  | some (encRic, rest) =>
    match requiredInsertCount d.maxEntries d.table.insertCount encRic with
    | none => (.error, 0)
    | some ric =>
      if d.table.insertCount < ric then (.blocked, ric)
      else
        match readBase ric rest with
        | none => (.error, ric)
        | some (base, rest) =>
          match readFields d.table base rest.length rest [] 0 with
          | none => (.error, ric)
          | some out => (.done out, ric)

/-- `decode_field_section`: a section read to its end under a Required Insert Count is
acknowledged. -/
def decodeFieldSection (streamId : ℕ) (buf : Bytes) : Decoder × DecodeResult :=
  match d.readSection buf with
  | (.done out, ric) =>
    ({ d with out := d.out ++ if 0 < ric then pushInt streamId 7 0x80 else [] }, .done out)
  | (result, _) => (d, result)

def takeDecoderStream : Decoder × Bytes := ({ d with out := [] }, d.out)

def restoreDecoderStream (data : Bytes) : Decoder := { d with out := data ++ d.out }

end Decoder

structure Encoder where
  table : DynamicTable := {}
  peerMaxCapacity : ℕ := 0
  capacitySent : Bool := false
  knownReceived : ℕ := 0
  out : Bytes := []
  decBuf : Bytes := []

def ourMaxCapacity : ℕ := 4096

/-- An instruction of the decoder stream: a section is acknowledged, a stream cancelled, or
the known received count grows. -/
inductive Acknowledgement where
  | processed (streamId : ℕ)
  | cancel (streamId : ℕ)
  | increment (inc : ℕ)

/-- An instruction that starts with the byte `b`. -/
def readAcknowledgementAs (b : UInt8) (buf : Bytes) : StreamParse Acknowledgement :=
  if b.toNat / 128 % 2 = 1 then
    (readStreamInt 7 buf).bind fun streamId rest => .done (.processed streamId) rest
  else if b.toNat / 64 % 2 = 1 then
    (readStreamInt 6 buf).bind fun streamId rest => .done (.cancel streamId) rest
  else
    (readStreamInt 6 buf).bind fun inc rest => .done (.increment inc) rest

def readAcknowledgement : Bytes → StreamParse Acknowledgement
  | [] => .incomplete
  | b :: rest => readAcknowledgementAs b (b :: rest)

/-- The known received count after an instruction, `none` when it is refused. -/
def acknowledge (insertCount known : ℕ) : Acknowledgement → Option ℕ
  | .processed _ => some known
  | .cancel _ => some known
  | .increment inc =>
    if u64Max < known + inc then none
    else if inc = 0 ∨ insertCount < known + inc then none
    else some (known + inc)

/-- One turn of the loop of `on_decoder_stream`. -/
def lookAcknowledgement (insertCount : ℕ) : ℕ → Bytes → Look ℕ UInt8 :=
  lookWith readAcknowledgement (acknowledge insertCount)

inductive FieldPlan where
  | static (idx : ℕ)
  | dynamic (abs : ℕ)
  | literalNameRef (idx : ℕ) (value : Bytes)
  | literal (name value : Bytes)

/-- A header that no entry stands for. -/
def planLiteral (f : Field) : FieldPlan :=
  match staticFindName f.1 with
  | some idx => .literalNameRef idx f.2
  | none => .literal f.1 f.2

/-- The instruction that tells the decoder of a new entry. -/
def insertBytes (f : Field) : Bytes :=
  (match staticFindName f.1 with
    | some idx => pushInt idx 6 0xC0
    | none => pushInt f.1.length 5 0x40 ++ f.1) ++ pushString f.2

def FieldPlan.bytes (base : ℕ) : FieldPlan → Bytes
  | .static idx => pushInt idx 6 0xC0
  | .dynamic abs => pushInt (base - 1 - abs) 6 0x80
  | .literalNameRef idx value => pushInt idx 4 0x50 ++ pushString value
  | .literal name value => pushInt name.length 3 0x20 ++ name ++ pushString value

def requiredOf (plan : List FieldPlan) : ℕ :=
  (plan.filterMap fun
    | .dynamic abs => some (abs + 1)
    | _ => none).foldl max 0

namespace Encoder

variable (e : Encoder)

def setPeerMaxCapacity (cap : ℕ) : Encoder :=
  let ours := min cap ourMaxCapacity
  if 0 < ours ∧ e.capacitySent = false then
    { e with
      peerMaxCapacity := cap
      out := e.out ++ pushInt ours 5 0x20
      table := e.table.setCapacity ours
      capacitySent := true }
  else { e with peerMaxCapacity := cap }

def onDecoderStream (data : Bytes) : Option Encoder :=
  if maxBuffer < e.decBuf.length + data.length then none
  else do
    let r ← drain (lookAcknowledgement e.table.insertCount) e.knownReceived (e.decBuf ++ data)
    some { e with knownReceived := r.1, decBuf := r.2 }

/-- One turn of the planning loop of `encode_field_section`. -/
def planField (f : Field) : Encoder × FieldPlan :=
  match staticFind f.1 f.2 with
  | some idx => (e, .static idx)
  | none =>
    if 0 < e.table.capacity then
      match e.table.find f with
      | some abs => (e, if abs < e.knownReceived then .dynamic abs else planLiteral f)
      | none =>
        match e.table.insertNoEvict f with
        | some t => ({ e with table := t, out := e.out ++ insertBytes f }, planLiteral f)
        | none => (e, planLiteral f)
    else (e, planLiteral f)

def planFields (e : Encoder) : List Field → Encoder × List FieldPlan
  | [] => (e, [])
  | f :: headers =>
    let (e, plan) := e.planField f
    let (e, plans) := e.planFields headers
    (e, plan :: plans)

def sectionBytes (plan : List FieldPlan) : Bytes :=
  let base := e.table.insertCount
  let ric := requiredOf plan
  let maxEntries := e.peerMaxCapacity / entryOverhead
  let encRic := if ric = 0 then 0 else ric % (2 * maxEntries) + 1
  pushInt encRic 8 0 ++
    (if ric ≤ base then pushInt (base - ric) 7 0 else pushInt (ric - base - 1) 7 0x80) ++
    plan.flatMap (FieldPlan.bytes base)

/-- `encode_field_section`: the section and the instructions to send with it. -/
def encodeFieldSection (headers : List Field) : Encoder × Bytes × Bytes :=
  let (e, plan) := e.planFields headers
  ({ e with out := [] }, e.sectionBytes plan, e.out)

def restoreEncoderStream (data : Bytes) : Encoder := { e with out := data ++ e.out }

end Encoder

end OnetDns.Quic.Qpack
