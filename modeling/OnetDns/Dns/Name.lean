import OnetDns.Dns.Wire

/-!
# Domain names

`Name` of `onetdns-proto/src/name.rs`. The source keeps the uncompressed wire
form; here a name is the list of its labels, and `wire` is derived. A label has
1 to 63 bytes and the wire form at most 255, so a name that breaks these rules
cannot be built.
-/
namespace OnetDns.Dns

def maxJumps : ℕ := 20
def maxNameLen : ℕ := 255

/-- `u8::to_ascii_lowercase`. -/
def asciiLower (b : UInt8) : UInt8 := if 65 ≤ b ∧ b ≤ 90 then b + 32 else b

variable (labels : List Bytes)

/-- Labels with their length bytes, and the root label. -/
def wireOf : Bytes := labels.flatMap (fun label => UInt8.ofNat label.length :: label) ++ [0]

/-- Length of `wireOf`. -/
def wireLen : ℕ := (labels.map fun label => label.length + 1).sum + 1

def lowerLabels : List Bytes := labels.map (·.map asciiLower)

lemma asciiLower_idem (b : UInt8) : asciiLower (asciiLower b) = asciiLower b := by
  by_cases h : 65 ≤ b ∧ b ≤ 90
  · have hlower : asciiLower b = b + 32 := if_pos h
    rw [hlower]
    refine if_neg fun hagain => ?_
    simp only [UInt8.le_iff_toNat_le, UInt8.toNat_add, UInt8.reduceToNat] at h hagain
    omega
  · have hlower : asciiLower b = b := if_neg h
    rw [hlower, hlower]

lemma lowerLabels_idem :
    lowerLabels (lowerLabels labels) = lowerLabels labels := by
  simp only [lowerLabels, List.map_map]
  refine List.map_congr_left fun label _ => ?_
  simp only [Function.comp_apply, List.map_map]
  exact List.map_congr_left fun b _ => asciiLower_idem b

structure Name where
  labels : List Bytes
  label_len : ∀ label ∈ labels, 1 ≤ label.length ∧ label.length ≤ 63
  wire_len : wireLen labels ≤ maxNameLen
  deriving DecidableEq

namespace Name

def root : Name := ⟨[], nofun, by decide⟩

def letter (byte : UInt8) : Name := ⟨[[byte]], by simp, show 3 ≤ 255 by decide⟩

variable (n : Name)

def isRoot : Bool := n.labels.isEmpty

/-- The uncompressed wire form. -/
def wire : Bytes := wireOf n.labels

/-- `from_labels`: the two length rules. -/
def fromLabels : Except ProtoError Name :=
  if hlabel : ∀ label ∈ labels, 1 ≤ label.length ∧ label.length ≤ 63 then
    if hwire : wireLen labels ≤ maxNameLen then .ok ⟨labels, hlabel, hwire⟩
    else .error (.name "이름이 너무 김")
  else .error (.name "라벨 길이가 올바르지 않습니다")

/-- The wire form in lower case, the key of every table of names. -/
def canonicalKey : Bytes := wireOf (lowerLabels n.labels)

/-- `canonicalKey` in a buffer of the caller. -/
def canonicalKeyInto (capacity : ℕ) : Option Bytes :=
  if capacity < wireLen n.labels then none else some n.canonicalKey

def eqIgnoreCase (a b : Name) : Bool := a.wire.map asciiLower == b.wire.map asciiLower

/-- The two upper bits of a length byte. -/
def labelKind (len : UInt8) : UInt8 := len &&& 0xC0

/-- Where the compression pointer with these two bytes leads. -/
def pointerTarget (hi lo : UInt8) : ℕ := (hi.toNat % 64) * 256 + lo.toNat

/-- The loop of `parse`: `stop` is the end of the name in the flow of the
message once a pointer was followed, `jumps` the pointers followed so far and
`total` the length of the expanded name. Every round adds at least two bytes to
`total` or one jump, so `maxNameLen + maxJumps` rounds are enough. -/
def parseLabels (buf : Bytes) (limit : ℕ) : (fuel pos : ℕ) → (stop : Option ℕ) → (jumps total : ℕ) →
    Except ProtoError (List Bytes × ℕ)
  | 0, _, _, _, _ => .error .eof
  | fuel + 1, pos, stop, jumps, total =>
    if stop.isNone ∧ limit ≤ pos then .error .eof
    else
      match buf[pos]? with
      | none => .error .eof
      | some len =>
        if labelKind len = 0 then
          if len = 0 then .ok ([], stop.getD (pos + 1))
          else if stop.isNone ∧ limit < pos + 1 + len.toNat then .error .eof
          else if buf.length < pos + 1 + len.toNat then .error .eof
          else if maxNameLen < total + (len.toNat + 1) then .error (.name "이름이 너무 김")
          else
            match parseLabels buf limit fuel (pos + 1 + len.toNat) stop jumps
                (total + (len.toNat + 1)) with
            | .error error => .error error
            | .ok (labels, stop) => .ok ((buf.drop (pos + 1)).take len.toNat :: labels, stop)
        else if labelKind len = 0xC0 then
          if stop.isNone ∧ limit < pos + 2 then .error .eof
          else
            match buf[pos + 1]? with
            | none => .error .eof
            | some lo =>
              if maxJumps < jumps + 1 then .error (.name "압축 포인터 루프")
              else if pos ≤ pointerTarget len lo then .error (.name "잘못된 압축 포인터")
              else
                parseLabels buf limit fuel (pointerTarget len lo) (some (stop.getD (pos + 2)))
                  (jumps + 1) total
        else .error (.name "예약된 라벨 길이 비트")

/-- Reads a name, following compression pointers backwards. The loop keeps the
length rules, so `fromLabels` never refuses what it returns. -/
def parse : ReadM Name := fun r =>
  match parseLabels r.buf r.limit (maxNameLen + maxJumps) r.pos none 0 1 with
  | .error error => .error error
  | .ok (labels, stop) =>
    match fromLabels labels with
    | .error error => .error error
    | .ok name => .ok (name, { r with pos := stop })

/-- The loop of `parse_uncompressed`. -/
def parsePlainLabels : (fuel : ℕ) → (total : ℕ) → ReadM (List Bytes)
  | 0, _ => throw .eof
  | fuel + 1, total => do
    let len ← Reader.u8
    if len = 0 then return []
    else if labelKind len ≠ 0 ∨ 63 < len then
      throw (.name "압축이 허용되지 않는 DNS 이름에 잘못된 라벨")
    else if maxNameLen < total + (len.toNat + 1) then throw (.name "이름이 너무 김")
    else
      let label ← Reader.bytes len.toNat
      let labels ← parsePlainLabels fuel (total + (len.toNat + 1))
      return label :: labels

def parseUncompressed : ReadM Name := do
  let labels ← parsePlainLabels maxNameLen 1
  liftM (fromLabels labels)

/-- The label loop of `encode`: a suffix that was written before is replaced by
a pointer to it, and one that was not is remembered while its offset fits. -/
def encodeLabels (w : Writer) : List Bytes → Writer
  | [] => w.pushU8 0
  | label :: rest =>
    let key := wireOf (lowerLabels (label :: rest))
    match w.names.get key with
    | some off => w.pushU16 (0xC000 ||| off)
    | none =>
      let w := if w.isFailed = false ∧ w.buf.length < pointerLimit then
          { w with names := w.names.insert key (UInt16.ofNat w.buf.length) }
        else w
      encodeLabels ((w.pushU8 (UInt8.ofNat label.length)).pushBytes label) rest

def encode (w : Writer) : Writer :=
  match n.canonicalKeyInto maxNameLen with
  | none => w.fail "DNS 이름의 정규화된 키가 255바이트를 넘었습니다"
  | some _ => encodeLabels w n.labels

def encodeUncompressed (w : Writer) : Writer := w.pushBytes n.wire

end Name

end OnetDns.Dns
