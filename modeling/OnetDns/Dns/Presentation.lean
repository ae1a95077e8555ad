import OnetDns.Dns.RecordCodec

/-!
# Names as text

`Name::from_str` and `to_master_lower` of `onetdns-proto/src/name.rs`. A string is the list of its
bytes; what is written is ASCII only.
-/
namespace OnetDns.Dns
open List

def backslash : UInt8 := 0x5C
def dot : UInt8 := 0x2E

/-- `u8::is_ascii_digit`. -/
def isDigit (byte : UInt8) : Bool := 48 ≤ byte ∧ byte ≤ 57

/-- The variables of the loop of `from_str`. -/
structure Scan where
  labels : List Bytes
  current : Bytes
  endedWithSeparator : Bool

namespace Scan

def init : Scan := ⟨[], [], false⟩

def push (s : Scan) (byte : UInt8) : Scan :=
  { s with current := s.current ++ [byte], endedWithSeparator := false }

def separate (s : Scan) : Scan := ⟨s.labels ++ [s.current], [], true⟩

/-- The value of three digits. -/
def decimal (a b c : UInt8) : ℕ := ((a.toNat - 48) * 10 + (b.toNat - 48)) * 10 + (c.toNat - 48)

/-- The loop, over the bytes from `index` on. -/
def run (s : Scan) : Bytes → Except ProtoError Scan
  | [] => .ok s
  | byte :: rest =>
    if byte = backslash then
      match rest with
      | a :: b :: c :: tail =>
        if isDigit a ∧ isDigit b ∧ isDigit c then
          if 255 < decimal a b c then .error (.name "십진 이스케이프가 255를 넘었습니다")
          else run (s.push (UInt8.ofNat (decimal a b c))) tail
        else run (s.push a) (b :: c :: tail)
      | [a, b] => run (s.push a) [b]
      | [a] => run (s.push a) []
      | [] => .error (.name "이스케이프가 끝나지 않았습니다")
    else if byte = dot then run s.separate rest
    else run (s.push byte) rest

/-- The labels after the loop. -/
def finish (s : Scan) : List Bytes :=
  if s.endedWithSeparator then s.labels else s.labels ++ [s.current]

end Scan

namespace Name

def fromStr (s : Bytes) : Except ProtoError Name := do
  let scan ← Scan.init.run s
  let labels := scan.finish
  if labels = [] ∨ labels = [[]] then return root
  else if labels.any (·.isEmpty) then .error (.name "루트 라벨이 두 번 이상 붙었습니다")
  else fromLabels labels

/-- `. \ " ( ) ; @ $`. -/
def isSpecial (byte : UInt8) : Bool := byte ∈ [dot, backslash, 0x22, 0x28, 0x29, 0x3B, 0x40, 0x24]

/-- The digit of a number below ten. -/
def digit (n : ℕ) : UInt8 := UInt8.ofNat (48 + n)

/-- A byte of a label as it is written. -/
def escapeByte (byte : UInt8) : Bytes :=
  if isSpecial byte then [backslash, byte]
  else if 0x21 ≤ byte ∧ byte ≤ 0x7E then [asciiLower byte]
  else [backslash, digit (byte.toNat / 100), digit (byte.toNat / 10 % 10), digit (byte.toNat % 10)]

def toMasterLower (n : Name) : Bytes :=
  n.labels.zipIdx.flatMap fun entry =>
    (if entry.2 ≠ 0 then [dot] else []) ++ entry.1.flatMap escapeByte

end Name

open Name

variable {s : Scan} {byte : UInt8} {rest label : Bytes} {labels : List Bytes} {n : Name}

lemma forall_byte {p : UInt8 → Prop} (h : ∀ i : Fin 256, p (UInt8.ofNat i)) (byte : UInt8) :
    p byte := by
  have hbyte := h ⟨byte.toNat, byte.toNat_lt⟩
  rw [show .ofNat byte.toNat = byte from UInt8.ofNat_toNat] at hbyte
  exact hbyte

lemma special_lower : isSpecial byte = true → isDigit byte = false ∧ asciiLower byte = byte := by
  revert byte
  exact @forall_byte _ (by decide +kernel)

lemma visible_lower : isSpecial byte = false → 0x21 ≤ byte ∧ byte ≤ 0x7E →
    asciiLower byte ≠ backslash ∧ asciiLower byte ≠ dot := by
  revert byte
  exact @forall_byte _ (by decide +kernel)

lemma other_lower : ¬ (0x21 ≤ byte ∧ byte ≤ 0x7E) → asciiLower byte = byte := by
  revert byte
  exact @forall_byte _ (by decide +kernel)

lemma decimal_digits (byte : UInt8) :
    (isDigit (digit (byte.toNat / 100)) = true ∧ isDigit (digit (byte.toNat / 10 % 10)) = true ∧
      isDigit (digit (byte.toNat % 10)) = true) ∧
    Scan.decimal (digit (byte.toNat / 100)) (digit (byte.toNat / 10 % 10)) (digit (byte.toNat % 10)) =
      byte.toNat := by
  revert byte
  exact @forall_byte _ (by decide +kernel)

namespace Scan

lemma run_escaped (h : isDigit byte = false) :
    s.run (backslash :: byte :: rest) = (s.push byte).run rest := by
  have hnot : ∀ b c : UInt8, ¬ (isDigit byte = true ∧ isDigit b = true ∧ isDigit c = true) := by
    intro b c hall
    rw [h] at hall
    exact Bool.false_ne_true hall.1
  rcases rest with _ | ⟨b, _ | ⟨c, tail⟩⟩
  · rfl
  · rfl
  · exact if_neg (hnot b c)

lemma run_decimal (byte : UInt8) (rest : Bytes) :
    s.run (backslash :: digit (byte.toNat / 100) :: digit (byte.toNat / 10 % 10) ::
      digit (byte.toNat % 10) :: rest) = (s.push byte).run rest := by
  obtain ⟨hdigits, hvalue⟩ := decimal_digits byte
  have hlt := byte.toNat_lt
  refine (if_pos hdigits).trans ?_
  rw [hvalue, if_neg (by omega), UInt8.ofNat_toNat]

lemma run_dot (rest : Bytes) : s.run (dot :: rest) = s.separate.run rest := by
  rw [run.eq_def]
  rfl

lemma run_plain (hback : byte ≠ backslash) (hdot : byte ≠ dot) (rest : Bytes) :
    s.run (byte :: rest) = (s.push byte).run rest := by
  rw [run.eq_def]
  dsimp only
  rw [if_neg hback, if_neg hdot]

lemma run_escapeByte (byte : UInt8) (rest : Bytes) :
    s.run (escapeByte byte ++ rest) = (s.push (asciiLower byte)).run rest := by
  unfold escapeByte
  by_cases hspecial : isSpecial byte = true
  · obtain ⟨hdigit, hlower⟩ := special_lower hspecial
    rw [if_pos hspecial, hlower]
    exact run_escaped hdigit
  rw [if_neg hspecial]
  by_cases hvisible : 0x21 ≤ byte ∧ byte ≤ 0x7E
  · obtain ⟨hback, hdot⟩ := visible_lower (Bool.eq_false_iff.mpr hspecial) hvisible
    rw [if_pos hvisible, singleton_append, run_plain hback hdot]
  · rw [if_neg hvisible, other_lower hvisible]
    exact run_decimal byte rest

lemma run_label (label rest : Bytes) (s : Scan) (h : label ≠ []) :
    s.run (label.flatMap escapeByte ++ rest) =
      Scan.run ⟨s.labels, s.current ++ label.map asciiLower, false⟩ rest := by
  induction label generalizing s with
  | nil => exact absurd rfl h
  | cons byte label ih =>
    rw [flatMap_cons, append_assoc, run_escapeByte]
    cases label with
    | nil => rfl
    | cons next label =>
      rw [ih _ (cons_ne_nil next label), map_cons (a := byte)]
      simp only [push, append_assoc, singleton_append]

/-- The labels behind the first one. -/
theorem run_labels (labels : List Bytes) (s : Scan) (hs : s.endedWithSeparator = false)
    (h : ∀ label ∈ labels, label ≠ []) :
    ∃ t, s.run (labels.flatMap fun label => dot :: label.flatMap escapeByte) = .ok t ∧
      t.finish = s.labels ++ s.current :: lowerLabels labels := by
  induction labels generalizing s with
  | nil =>
    refine ⟨s, rfl, ?_⟩
    rw [finish, hs]
    rfl
  | cons label labels ih =>
    obtain ⟨t, hrun, hfinish⟩ := ih ⟨s.labels ++ [s.current], label.map asciiLower, false⟩ rfl
      fun l hl => h l (mem_cons_of_mem _ hl)
    refine ⟨t, ?_, ?_⟩
    · rw [flatMap_cons, cons_append, run_dot, run_label _ _ _ (h label mem_cons_self)]
      exact hrun
    · rw [hfinish, append_assoc]
      rfl

end Scan

lemma flatMap_zipIdx (labels : List Bytes) {start : ℕ} (h : start ≠ 0) :
    (labels.zipIdx start).flatMap (fun entry =>
      (if entry.2 ≠ 0 then [dot] else []) ++ entry.1.flatMap escapeByte) =
    labels.flatMap fun label => dot :: label.flatMap escapeByte := by
  induction labels generalizing start with
  | nil => rfl
  | cons label labels ih =>
    rw [zipIdx_cons, flatMap_cons, ih (Nat.succ_ne_zero start), if_pos h]
    rfl

lemma toMasterLower_cons (h : n.labels = label :: labels) : n.toMasterLower =
    label.flatMap escapeByte ++ labels.flatMap fun label => dot :: label.flatMap escapeByte := by
  rw [toMasterLower, h, zipIdx_cons, flatMap_cons, flatMap_zipIdx _ (Nat.succ_ne_zero 0)]
  rfl

/-- What the loop makes of a name that was written. -/
theorem run_toMasterLower (h : n.labels ≠ []) :
    ∃ t, Scan.init.run n.toMasterLower = .ok t ∧ t.finish = lowerLabels n.labels := by
  have hne : ∀ label ∈ n.labels, label ≠ [] := by
    rintro label hlabel rfl
    have := (n.label_len _ hlabel).1
    exact absurd this (by decide)
  cases hlabels : n.labels with
  | nil => exact absurd hlabels h
  | cons label labels =>
    rw [hlabels] at hne
    rw [toMasterLower_cons hlabels, Scan.run_label _ _ _ (hne label mem_cons_self)]
    exact Scan.run_labels labels _ rfl fun l hl => hne l (mem_cons_of_mem _ hl)

lemma Name.lower_eqIgnoreCase (n : Name) : n.lower.eqIgnoreCase n = true := by
  rw [eqIgnoreCase, beq_iff_eq, wire, wire, map_wireOf n.lower.label_len, map_wireOf n.label_len]
  exact congrArg wireOf (lowerLabels_idem n.labels)

lemma fromStr_toMasterLower (n : Name) : Name.fromStr n.toMasterLower = .ok n.lower := by
  by_cases hroot : n.labels = []
  · have hlower : n.lower = root := by
      simp only [lower, hroot]
      rfl
    rw [hlower, toMasterLower, hroot]
    rfl
  obtain ⟨t, hrun, hfinish⟩ := run_toMasterLower hroot
  have hlen : ∀ label ∈ lowerLabels n.labels, 1 ≤ label.length ∧ label.length ≤ 63 :=
    n.lower.label_len
  have hwire : wireLen (lowerLabels n.labels) ≤ maxNameLen := n.lower.wire_len
  have hempty : ¬ (lowerLabels n.labels).any (·.isEmpty) := by
    rw [any_eq_true]
    rintro ⟨label, hmem, hnil⟩
    exact absurd (isEmpty_iff.mp hnil) (length_pos_iff.mp (hlen label hmem).1)
  have hnot : ¬ (lowerLabels n.labels = [] ∨ lowerLabels n.labels = [[]]) := by
    rintro (hnil | hone)
    · exact hroot (map_eq_nil_iff.mp hnil)
    · rw [hone] at hempty
      exact hempty rfl
  rw [fromStr, hrun]
  change (if t.finish = [] ∨ t.finish = [[]] then _ else _) = _
  rw [hfinish, if_neg hnot, if_neg hempty, fromLabels, dif_pos hlen, dif_pos hwire]
  rfl

/-- A name that is read back from what is written equals the name but for case, and label for
label; so does the name of a string that is accepted. -/
theorem presentation_round_trip :
    (∀ n : Name, ∃ m, Name.fromStr n.toMasterLower = .ok m ∧ m.eqIgnoreCase n = true ∧
      lowerLabels m.labels = lowerLabels n.labels) ∧
    ∀ (s : Bytes) (n : Name), Name.fromStr s = .ok n →
      ∃ m, Name.fromStr n.toMasterLower = .ok m ∧ m.eqIgnoreCase n = true := by
  refine ⟨fun n => ?_, fun s n _ => ?_⟩
  · exact ⟨n.lower, fromStr_toMasterLower n, n.lower_eqIgnoreCase, lowerLabels_idem n.labels⟩
  · exact ⟨n.lower, fromStr_toMasterLower n, n.lower_eqIgnoreCase⟩

end OnetDns.Dns
