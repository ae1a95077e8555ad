import Mathlib.Data.List.DropRight
import OnetDns.Dns.RData

/-!
# Type bitmaps

The windows of a NSEC or NSEC3 record that list the types of its owner, from
`onetdns-dnssec/src/lib.rs`. NSEC unpacks the list; NSEC3 checks the form once and looks
types up in the raw bytes.
-/
namespace OnetDns.Dnssec
open Dns List Option

def typeBit (bit : ℕ) : UInt8 := 0x80 >>> UInt8.ofNat bit

def blockTypes (window : UInt8) (block : Bytes) : List RecordType :=
  block.zipIdx.flatMap fun (byte, j) =>
    (List.range 8).filterMap fun bit =>
      if byte &&& typeBit bit ≠ 0 then
        some (UInt16.ofNat (window.toNat * 256 + j * 8 + bit))
      else none

/-- The loop of `parse_type_bitmaps`. Every round takes at least three bytes, so their
number is enough fuel. -/
def parseWindows : (fuel : ℕ) → (previous : Option UInt8) → Bytes → Option (List RecordType)
  | _, _, [] => some []
  | 0, _, _ :: _ => none
  | _ + 1, _, [_] => none
  | fuel + 1, previous, window :: len :: rest =>
    if ¬(1 ≤ len.toNat ∧ len.toNat ≤ 32) ∨ previous.any (window ≤ ·) then none
    else if rest.length < len.toNat then none
    else if (rest.take len.toNat).getLast? = some 0 then none
    else
      (parseWindows fuel (some window) (rest.drop len.toNat)).map
        (blockTypes window (rest.take len.toNat) ++ ·)

def parseTypeBitmaps (bitmap : Bytes) : Option (List RecordType) :=
  parseWindows bitmap.length none bitmap

/-- The loop of `type_bitmaps_valid`. -/
def windowsValid : (fuel : ℕ) → (previous : Option UInt8) → Bytes → Bool
  | _, _, [] => true
  | 0, _, _ :: _ => false
  | _ + 1, _, [_] => false
  | fuel + 1, previous, window :: len :: rest =>
    if ¬(1 ≤ len.toNat ∧ len.toNat ≤ 32) ∨ previous.any (window ≤ ·) then false
    else if rest.length < len.toNat then false
    else if (rest.take len.toNat).getLast? = some 0 then false
    else windowsValid fuel (some window) (rest.drop len.toNat)

def typeBitmapsValid (bitmap : Bytes) : Bool := windowsValid bitmap.length none bitmap

/-- The loop of `type_bitmap_has`. The byte is looked up from the start of the block on,
whether the block is that long or not. -/
def windowsHave (rtype : RecordType) : (fuel : ℕ) → Bytes → Bool
  | 0, _ => false
  | _ + 1, [] => false
  | _ + 1, [_] => false
  | fuel + 1, window :: len :: rest =>
    if window.toNat = rtype.toNat / 256 then
      rest[rtype.toNat % 256 / 8]?.any fun byte => byte &&& typeBit (rtype.toNat % 8) ≠ 0
    else if rtype.toNat / 256 < window.toNat then false
    else windowsHave rtype fuel (rest.drop len.toNat)

def typeBitmapHas (bitmap : Bytes) (rtype : RecordType) : Bool :=
  windowsHave rtype bitmap.length bitmap

variable {t : RecordType}

lemma mem_blockTypes {window : UInt8} {block : Bytes} (hlen : block.length ≤ 32) :
    t ∈ blockTypes window block ↔ window.toNat = t.toNat / 256 ∧
      ∃ byte, block[t.toNat % 256 / 8]? = some byte ∧ byte &&& typeBit (t.toNat % 8) ≠ 0 := by
  unfold blockTypes
  simp only [mem_flatMap, mem_filterMap, mem_range, Prod.exists,
    mem_zipIdx_iff_getElem?, ite_none_right_eq_some, some.injEq]
  have hwindow := window.toNat_lt
  constructor
  · rintro ⟨byte, j, hbyte, bit, hbit, hset, rfl⟩
    have hj : j < block.length := (List.getElem?_eq_some_iff.mp hbyte).1
    have hvalue : (UInt16.ofNat (window.toNat * 256 + j * 8 + bit)).toNat =
        window.toNat * 256 + j * 8 + bit := by
      rw [UInt16.toNat_ofNat']
      omega
    rw [hvalue]
    refine ⟨by omega, byte, ?_, ?_⟩
    · rw [show (window.toNat * 256 + j * 8 + bit) % 256 / 8 = j by omega]
      exact hbyte
    · rw [show (window.toNat * 256 + j * 8 + bit) % 8 = bit by omega]
      exact hset
  · rintro ⟨hw, byte, hbyte, hset⟩
    refine ⟨byte, t.toNat % 256 / 8, hbyte, t.toNat % 8, by omega, hset, ?_⟩
    rw [show window.toNat * 256 + t.toNat % 256 / 8 * 8 + t.toNat % 8 = t.toNat by omega,
      UInt16.ofNat_toNat]

variable {types : List RecordType} {previous : Option UInt8} {fuel : ℕ}

/-- What a window that is read looks like. -/
theorem parseWindows_cons {window len : UInt8} {rest : Bytes}
    (h : parseWindows (fuel + 1) previous (window :: len :: rest) = some types) :
    (∀ p ∈ previous, p.toNat < window.toNat) ∧ 1 ≤ len.toNat ∧ len.toNat ≤ 32 ∧
      len.toNat ≤ rest.length ∧ ∃ more,
        parseWindows fuel (some window) (rest.drop len.toNat) = some more ∧
        types = blockTypes window (rest.take len.toNat) ++ more := by
  rw [parseWindows] at h
  split at h
  · exact absurd h (by simp)
  rename_i hhead
  split at h
  · exact absurd h (by simp)
  rename_i hshort
  split at h
  · exact absurd h (by simp)
  rw [map_eq_some_iff] at h
  obtain ⟨more, hmore, htypes⟩ := h
  simp only [not_or, not_not] at hhead
  refine ⟨?_, hhead.1.1, hhead.1.2, not_lt.mp hshort, more, hmore, htypes.symm⟩
  rintro p rfl
  simpa [UInt8.lt_iff_toNat_lt] using hhead.2

variable {bitmap : Bytes}

/-- Windows come in order, and every type of the list is found in the bytes. -/
theorem windows_of_mem (h : parseWindows fuel previous bitmap = some types) (ht : t ∈ types) :
    (∀ p, previous = some p → p.toNat < t.toNat / 256) ∧ windowsHave t fuel bitmap = true := by
  induction fuel generalizing previous bitmap types with
  | zero =>
    cases bitmap with
    | nil =>
      obtain rfl := some.inj h
      exact absurd ht not_mem_nil
    | cons b rest => exact absurd h (by simp [parseWindows])
  | succ fuel ih =>
    match bitmap with
    | [] =>
      obtain rfl := some.inj h
      exact absurd ht not_mem_nil
    | [_] => exact absurd h (by simp [parseWindows])
    | window :: len :: rest =>
      obtain ⟨horder, -, hlen, -, more, hmore, rfl⟩ := parseWindows_cons h
      rw [windowsHave]
      rcases mem_append.mp ht with hblock | hlater
      · rw [mem_blockTypes (by rw [length_take]; omega)] at hblock
        obtain ⟨hw, byte, hbyte, hset⟩ := hblock
        refine ⟨fun p hp => hw ▸ horder p hp, ?_⟩
        rw [getElem?_take] at hbyte
        split at hbyte
        · rw [if_pos hw, hbyte]
          simpa using hset
        · exact absurd hbyte (by simp)
      · obtain ⟨hlow, hhave⟩ := ih hmore hlater
        have hlow := hlow window rfl
        refine ⟨fun p hp => (horder p hp).trans hlow, ?_⟩
        rw [if_neg (by omega), if_neg (by omega)]
        exact hhave

lemma typeBitmapHas_of_mem
    (h : parseTypeBitmaps bitmap = some types) (ht : t ∈ types) : typeBitmapHas bitmap t = true :=
  (windows_of_mem h ht).2

lemma exists_typeBit {byte : UInt8} (h : byte ≠ 0) : ∃ bit < 8, byte &&& typeBit bit ≠ 0 := by
  have hall : ∀ n : Fin 256, n ≠ 0 → ∃ bit : Fin 8, .ofNat n &&& typeBit bit ≠ 0 := by
    decide +kernel
  obtain ⟨bit, hbit⟩ := hall ⟨byte.toNat, byte.toNat_lt⟩ (by
    intro hzero
    exact h (UInt8.toNat_inj.mp (congrArg Fin.val hzero)))
  rw [UInt8.ofNat_toNat] at hbit
  exact ⟨bit, bit.isLt, hbit⟩

/-- Every window holds a type. -/
theorem parseWindows_ne_nil (h : parseWindows fuel previous bitmap = some []) : bitmap = [] := by
  cases fuel with
  | zero =>
    cases bitmap with
    | nil => rfl
    | cons b rest => exact absurd h (by simp [parseWindows])
  | succ fuel =>
    match bitmap with
    | [] => rfl
    | [_] => exact absurd h (by simp [parseWindows])
    | window :: len :: rest =>
      obtain ⟨-, hpos, hlen, hroom, more, -, hnil⟩ := parseWindows_cons h
      have hlast : (rest.take len.toNat).getLast? ≠ some 0 := by
        intro hzero
        rw [parseWindows] at h
        split at h
        · exact absurd h (by simp)
        · split at h <;> exact absurd h (by simp)
      set block := rest.take len.toNat
      have hsize : block.length = len.toNat := by
        rw [length_take, min_eq_left hroom]
      have hne : block ≠ [] := by
        intro hempty
        rw [hempty] at hsize
        simp only [length_nil] at hsize
        omega
      rw [getLast?_eq_some_getLast hne, Ne, some.injEq] at hlast
      obtain ⟨bit, hbit, hset⟩ := exists_typeBit hlast
      have hwindow := window.toNat_lt
      have hvalue : (UInt16.ofNat (window.toNat * 256 + (block.length - 1) * 8 + bit)).toNat =
          window.toNat * 256 + (block.length - 1) * 8 + bit := by
        rw [UInt16.toNat_ofNat']
        omega
      have hmem : .ofNat (window.toNat * 256 + (block.length - 1) * 8 + bit) ∈
          blockTypes window block := by
        rw [mem_blockTypes (by omega), hvalue]
        refine ⟨by omega, block.getLast hne, ?_, ?_⟩
        · rw [show (window.toNat * 256 + (block.length - 1) * 8 + bit) % 256 / 8 =
            block.length - 1 by omega, getLast_eq_getElem,
            getElem?_eq_getElem (by omega)]
        · rw [show (window.toNat * 256 + (block.length - 1) * 8 + bit) % 8 = bit by omega]
          exact hset
      rw [(append_eq_nil_iff.mp hnil.symm).1] at hmem
      exact absurd hmem not_mem_nil

/-- Looking the type up stays in its block: there is no later window, or the block reaches
as far as the type. -/
def InBlock (types : List RecordType) (t : RecordType) : Prop :=
  (∀ u ∈ types, u.toNat / 256 ≤ t.toNat / 256) ∨
    ∃ u ∈ types, u.toNat / 256 = t.toNat / 256 ∧ t.toNat % 256 / 8 ≤ u.toNat % 256 / 8

/-- A type whose place lies in a block is found only if it is in the list. -/
theorem mem_of_windowsHave (h : parseWindows fuel previous bitmap = some types)
    (hsafe : t.toNat % 256 / 8 = 0 ∨ InBlock types t) (hhave : windowsHave t fuel bitmap = true) : t
    ∈ types := by
  induction fuel generalizing previous bitmap types with
  | zero => exact absurd hhave (by simp [windowsHave])
  | succ fuel ih =>
    match bitmap with
    | [] => exact absurd hhave (by simp [windowsHave])
    | [_] => exact absurd hhave (by simp [windowsHave])
    | window :: len :: rest =>
      obtain ⟨-, hpos, hlen, hroom, more, hmore, rfl⟩ := parseWindows_cons h
      have hsize : (rest.take len.toNat).length ≤ 32 := by
        rw [length_take]
        omega
      rw [windowsHave] at hhave
      split at hhave
      · rename_i hw
        refine mem_append_left _ ((mem_blockTypes hsize).mpr ?_)
        rw [Option.any_eq_true] at hhave
        obtain ⟨byte, hbyte, hset⟩ := hhave
        have hinside : t.toNat % 256 / 8 < len.toNat := by
          by_contra hout
          rcases hsafe with hfirst | hlast | ⟨u, hu, huw, hub⟩
          · omega
          · have hnil : more = [] := by
              rw [eq_nil_iff_forall_not_mem]
              intro u hu
              have hlow := (windows_of_mem hmore hu).1 _ rfl
              have hhigh := hlast u (mem_append_right _ hu)
              omega
            rw [hnil] at hmore
            have hdrop := congrArg length (parseWindows_ne_nil hmore)
            rw [length_drop, length_nil] at hdrop
            have hlt := (List.getElem?_eq_some_iff.mp hbyte).1
            omega
          · rcases mem_append.mp hu with hblock | hlater
            · obtain ⟨-, byte', hbyte', -⟩ := (mem_blockTypes hsize).mp hblock
              have hlt := (List.getElem?_eq_some_iff.mp hbyte').1
              rw [length_take] at hlt
              omega
            · have hlow := (windows_of_mem hmore hlater).1 _ rfl
              omega
        refine ⟨hw, byte, ?_, by simpa using hset⟩
        rw [getElem?_take, if_pos hinside]
        exact hbyte
      · rename_i hw
        split at hhave
        · exact absurd hhave (by decide)
        refine mem_append_right _ (ih hmore ?_ hhave)
        rcases hsafe with hfirst | hlast | ⟨u, hu, huw, hub⟩
        · exact .inl hfirst
        · exact .inr (.inl fun u hu => hlast u (mem_append_right _ hu))
        · refine .inr (.inr ⟨u, ?_, huw, hub⟩)
          rcases mem_append.mp hu with hblock | hlater
          · exact absurd (((mem_blockTypes hsize).mp hblock).1.trans huw) hw
          · exact hlater

lemma mem_of_typeBitmapHas (h : parseTypeBitmaps bitmap = some types)
    (hsafe : t.toNat % 256 / 8 = 0 ∨ InBlock types t) (hhave : typeBitmapHas bitmap t = true) : t ∈
    types :=
  mem_of_windowsHave h hsafe hhave

def setType (window : ℕ) (block : Bytes) (t : RecordType) : Bytes :=
  if t.toNat / 256 = window then block.modify (t.toNat % 256 / 8) (· ||| typeBit (t.toNat % 8))
  else block

/-- The 32 bytes of a window. -/
def windowBlock (types : List RecordType) (window : ℕ) : Bytes :=
  types.foldl (setType window) (List.replicate 32 0)

/-- A window without its last zero bytes; one that is all zero is left out. -/
def windowBytes (types : List RecordType) (window : ℕ) : Bytes :=
  let block := (windowBlock types window).rdropWhile (· == 0)
  if block.length = 0 then []
  else UInt8.ofNat window :: UInt8.ofNat block.length :: block

/-- `type_bitmap` of `sign.rs`. -/
def typeBitmap (types : List RecordType) : Bytes := (List.range 256).flatMap (windowBytes types)

end OnetDns.Dnssec
