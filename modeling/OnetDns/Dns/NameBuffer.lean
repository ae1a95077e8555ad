import OnetDns.Dns.NameCodec
import OnetDns.Lib.Checked

/-!
# The buffer of a name that is read

`Name::parse` of `onetdns-proto/src/name.rs` as the loop that it is, with its buffer of 255 bytes and
every access to it and to the message checked. A slice is shorter than the range of `usize`, so its
positions do not overflow, and where a `checked_add` would, the bound check behind it ends alike.
-/
namespace OnetDns.Dns.NameBuffer
open Checked Guarded List

abbrev Result := Except (Fault ProtoError)

/-- The variables of the loop; `stop` is `end`. -/
structure State where
  wire : Bytes
  wireLen : ℕ
  pos : ℕ
  jumped : Bool
  jumps : ℕ
  stop : ℕ
  total : ℕ

variable (r : Reader)

def init : State := ⟨List.replicate maxNameLen 0, 0, r.pos, false, 0, r.pos, 1⟩

variable (s : State)

/-- A label of `len` bytes. -/
def readLabel (len : ℕ) : Result (Turn State State) :=
  let start := s.pos + 1
  let labelEnd := start + len
  if s.jumped = false ∧ r.limit < labelEnd then refuse .eof
  else do
    let lab ← orRefuse .eof (range r.buf start labelEnd)
    let total := s.total + (len + 1)
    if maxNameLen < total then refuse (.name "이름이 너무 김")
    else
      let wire ← store s.wire s.wireLen (UInt8.ofNat len)
      let wireLen := s.wireLen + 1
      let wireEnd := wireLen + len
      let wire ← copy wire wireLen wireEnd lab
      return .inl { s with wire := wire, wireLen := wireEnd, pos := labelEnd, total := total }

/-- A pointer whose first byte is `len`. -/
def followPointer (len : UInt8) : Result (Turn State State) :=
  if s.jumped = false ∧ r.limit < s.pos + 2 then refuse .eof
  else do
    let lo ← orRefuse .eof r.buf[s.pos + 1]?
    let stop := if s.jumped then s.stop else s.pos + 2
    let jumps := s.jumps + 1
    if maxJumps < jumps then refuse (.name "압축 포인터 루프")
    else
      let ptr := Name.pointerTarget len lo
      if s.pos ≤ ptr then refuse (.name "잘못된 압축 포인터")
      else return .inl { s with pos := ptr, jumped := true, jumps := jumps, stop := stop }

/-- The body of the loop. -/
def round : Result (Turn State State) :=
  if s.jumped = false ∧ r.limit ≤ s.pos then refuse .eof
  else do
    let len ← orRefuse .eof r.buf[s.pos]?
    if Name.labelKind len = 0 then
      if len = 0 then return .inr (if s.jumped then s else { s with stop := s.pos + 1 })
      else readLabel r s len.toNat
    else if Name.labelKind len = 0xC0 then followPointer r s len
    else refuse (.name "예약된 라벨 길이 비트")

/-- What is left of the name: every round takes a pointer or at least two bytes. -/
def left : ℕ := (maxNameLen - s.total) + (maxJumps - s.jumps)

def parse : Result (Bytes × Reader) := do
  let s ← loop (round r) (maxNameLen + maxJumps) (init r)
  let r := { r with pos := s.stop }
  if s.wireLen = 0 then return (Name.root.wire, r)
  else
    let wire ← store s.wire s.wireLen 0
    let wire ← slice wire 0 (s.wireLen + 1)
    return (wire, r)

variable (labels : List Bytes)

def labelBytes : Bytes := labels.flatMap fun label => UInt8.ofNat label.length :: label

lemma wireOf_eq : wireOf labels = labelBytes labels ++ [0] := rfl

lemma labelBytes_snoc (label : Bytes) :
    labelBytes (labels ++ [label]) = labelBytes labels ++ UInt8.ofNat label.length :: label := by
  rw [labelBytes, flatMap_append, flatMap_singleton, ← labelBytes]

/-- The buffer holds the labels that were read, and what they and the labels to come spell stands at
the position where the loop began. -/
structure Holding (r : Reader) (labels : List Bytes) (s : State) : Prop where
  size : s.wire.length = maxNameLen
  total_eq : s.total = s.wireLen + 1
  total_le : s.total ≤ maxNameLen
  jumps_le : s.jumps ≤ maxJumps
  written : s.wire.take s.wireLen = labelBytes labels
  stop_le : s.jumped = true → s.stop ≤ r.limit
  spells : ∀ rest jumps stop, Spells r.buf s.pos rest jumps stop →
    Spells r.buf r.pos (labels ++ rest) (s.jumps + jumps) (if s.jumped then s.stop else stop)

/-- What the loop ends with. -/
structure Ended (r : Reader) (labels : List Bytes) (s : State) : Prop where
  size : s.wire.length = maxNameLen
  wireLen_lt : s.wireLen < maxNameLen
  written : s.wire.take s.wireLen = labelBytes labels
  stop_le : s.stop ≤ r.limit
  spells : ∃ jumps, jumps ≤ maxJumps ∧ Spells r.buf r.pos labels jumps s.stop

def Reading : Prop := ∃ labels, Holding r labels s

def Read : Prop := ∃ labels, Ended r labels s

variable {r : Reader} {labels : List Bytes} {s : State}

lemma holding_init (r : Reader) : Holding r [] (init r) := by
  refine ⟨length_replicate, rfl, show 1 ≤ maxNameLen by decide, Nat.zero_le _, rfl, ?_, ?_⟩
  · exact fun h => absurd h Bool.false_ne_true
  · intro rest jumps stop h
    rw [init, zero_add]
    exact h

variable {len : UInt8}

lemma labelKind_zero (h : Name.labelKind len = 0) : len.toNat ≤ 63 := by
  have hall : ∀ b : Fin 256, Name.labelKind (.ofNat b) = 0 → b.val ≤ 63 := by decide +kernel
  have hlen : .ofNat len.toNat = len := UInt8.ofNat_toNat
  exact hall ⟨len.toNat, len.toNat_lt⟩ (by rw [hlen]; exact h)

/-- A buffer of `size` bytes whose first `n` are the labels. -/
def Filled (size n : ℕ) (labels : List Bytes) (wire : Bytes) : Prop :=
  wire.length = size ∧ wire.take n = labelBytes labels

/-- The buffer after a label was copied into it. -/
theorem filled_snoc (wire : Bytes) (n : ℕ) (label : Bytes) (hwire : n < wire.length)
    (hroom : n + 1 + label.length ≤ wire.length) (h : wire.take n = labelBytes labels) :
    Filled wire.length (n + 1 + label.length) (labels ++ [label])
      ((wire.set n (UInt8.ofNat label.length)).take (n + 1) ++ label ++
        (wire.set n (UInt8.ofNat label.length)).drop (n + 1 + label.length)) := by
  have hhead : (wire.set n (.ofNat label.length)).take (n + 1) =
      labelBytes labels ++ [.ofNat label.length] := by
    rw [← h, take_add_one, take_set, set_eq_of_length_le
      (by rw [length_take]; omega), getElem?_set_self hwire]
    rfl
  have hlen : ((wire.set n (.ofNat label.length)).take (n + 1)).length = n + 1 := by
    rw [length_take, length_set]
    omega
  refine ⟨?_, ?_⟩
  · rw [length_append, length_append, length_drop, length_set]
    omega
  · rw [take_append_of_le_length (by rw [length_append, hlen]),
      take_of_length_le (by rw [length_append, hlen]), hhead, labelBytes_snoc,
      append_assoc]
    rfl

lemma Holding.readLabel (h : Holding r labels s) (hget : r.buf[s.pos]? = some len)
    (hkind : Name.labelKind len = 0) (hlen : len ≠ 0) :
    Meets Handled (Progress (Reading r) left (Read r) s) (readLabel r s len.toNat) := by
  refine meets_ite (fun _ => meets_refuse _) fun _ => ?_
  refine (meets_orRefuse fun lab hlab => hlab).bind fun lab hlab => ?_
  obtain ⟨-, hbound, hdata⟩ := range_eq_some.mp hlab
  have hcount : s.pos + 1 + len.toNat - (s.pos + 1) = len.toNat := by omega
  rw [hcount] at hdata
  have hlab : lab.length = len.toNat := by
    rw [← hdata, length_take, length_drop]
    omega
  refine meets_ite (fun _ => meets_refuse _) fun hroom => ?_
  have hsize := h.size
  have htotal := h.total_eq
  refine (meets_store (Q := (· = s.wire.set s.wireLen (.ofNat len.toNat))) (by omega) rfl).bind
    fun wire hwire => ?_
  subst hwire
  have hnew := filled_snoc s.wire s.wireLen lab (by omega) (by rw [hlab]; omega) h.written
  rw [hlab] at hnew
  refine (meets_copy (Q := Filled s.wire.length (s.wireLen + 1 + len.toNat) (labels ++ [lab]))
    (Nat.le_add_right _ _) (by rw [length_set]; omega) (by omega) hnew).bind fun wire hwire => meets_pure ⟨⟨labels ++ [lab], ?_⟩, ?_⟩
  · have hpos : 1 ≤ len.toNat := by
      refine Nat.one_le_iff_ne_zero.mpr fun hzero => hlen ?_
      exact UInt8.toNat_inj.mp hzero
    refine ⟨hwire.1.trans hsize, ?_, Nat.le_of_not_lt hroom, h.jumps_le, hwire.2, h.stop_le, ?_⟩
    · dsimp only
      omega
    intro rest jumps stop hrest
    rw [append_assoc]
    refine h.spells _ _ _ (.label ?_ ?_ ?_ ?_ ?_)
    · rw [hlab]
      exact ⟨hpos, labelKind_zero hkind⟩
    · rw [hlab, UInt8.ofNat_toNat]
      exact hget
    · rw [hlab]
      exact hbound
    · rw [hlab]
      exact hdata
    · rw [hlab]
      exact hrest
  · simp only [left]
    omega

lemma Holding.followPointer (h : Holding r labels s)
    (hget : r.buf[s.pos]? = some len) (hkind : Name.labelKind len = 0xC0) :
    Meets Handled (Progress (Reading r) left (Read r) s) (followPointer r s len) := by
  refine meets_ite (fun _ => meets_refuse _) fun hlimit => ?_
  refine (meets_orRefuse fun lo hlo => hlo).bind fun lo hlo => ?_
  refine meets_ite (fun _ => meets_refuse _) fun hjumps => ?_
  refine meets_ite (fun _ => meets_refuse _) fun hback => ?_
  refine meets_pure ⟨⟨labels, h.size, h.total_eq, h.total_le, Nat.le_of_not_lt hjumps, h.written,
    fun _ => ?_, ?_⟩, ?_⟩
  · cases hjumped : s.jumped with
    | true =>
      exact h.stop_le hjumped
    | false =>
      exact Nat.le_of_not_lt fun hlt => hlimit ⟨hjumped, hlt⟩
  · intro rest jumps stop hrest
    have hjump := h.spells _ _ _ (.jump hget hkind hlo (Nat.lt_of_not_le hback) hrest)
    rw [show s.jumps + 1 + jumps = s.jumps + (jumps + 1) by omega]
    exact hjump
  · simp only [left]
    omega

lemma Holding.round (h : Holding r labels s) :
    Meets Handled (Progress (Reading r) left (Read r) s) (round r s) := by
  refine meets_ite (fun _ => meets_refuse _) fun hlimit => ?_
  refine (meets_orRefuse fun len hlen => hlen).bind fun len hlen => ?_
  refine meets_ite (fun hkind => ?_) fun _ => ?_
  · refine meets_ite (fun hzero => ?_) fun hzero => h.readLabel hlen hkind hzero
    subst hzero
    have hend := h.spells _ _ _ (.root hlen)
    rw [append_nil] at hend
    have htotal := h.total_eq
    have hle := h.total_le
    cases hjumped : s.jumped with
    | true =>
      rw [if_pos rfl]
      rw [hjumped] at hend
      exact meets_pure ⟨labels, h.size, by omega, h.written, h.stop_le hjumped, _, h.jumps_le, hend⟩
    | false =>
      rw [if_neg Bool.false_ne_true]
      rw [hjumped] at hend
      refine meets_pure ⟨labels, h.size, by dsimp only; omega, h.written, ?_, _, h.jumps_le, hend⟩
      exact Nat.lt_of_not_le fun hle => hlimit ⟨hjumped, hle⟩
  · exact meets_ite (fun hkind => h.followPointer hlen hkind) fun _ => meets_refuse _

/-- The bytes are a name, which is what the labels spell that are reached by at most `maxJumps`
pointers, and the reader is where they end. -/
structure Exact (r : Reader) (result : Bytes × Reader) : Prop where
  spelled : ∃ (name : Name) (jumps : ℕ), result.1 = name.wire ∧ jumps ≤ maxJumps ∧
    Spells r.buf r.pos name.labels jumps result.2.pos
  stop_le : result.2.pos ≤ r.limit
  reader : result.2 = { r with pos := result.2.pos }

lemma Ended.name (h : Ended r labels s) :
    ∃ name : Name, name.labels = labels ∧ s.wireLen + 1 = wireLen labels := by
  obtain ⟨jumps, -, hspells⟩ := h.spells
  have hlen : (labelBytes labels).length = s.wireLen := by
    rw [← h.written, length_take, h.size]
    exact min_eq_left h.wireLen_lt.le
  have hwire : s.wireLen + 1 = wireLen labels := by
    rw [← wireOf_length, wireOf_eq, length_append, hlen, length_singleton]
  exact ⟨hspells.name (by have := h.wireLen_lt; omega), rfl, hwire⟩

/-- Every reader and position: no access leaves the buffer or the message, the loop ends, and what
is returned is right. -/
theorem parse_exact (r : Reader) : Meets Handled (Exact r) (parse r) := by
  have hloop := meets_loop (m := left) (I := Reading r) (Q := Read r)
    (fun s hs => Exists.elim hs fun _ h => h.round) (maxNameLen + maxJumps) ⟨[], holding_init r⟩
    (show maxNameLen - 1 + (maxJumps - 0) < maxNameLen + maxJumps by decide)
  refine hloop.bind fun s hs => ?_
  obtain ⟨labels, h⟩ := hs
  obtain ⟨name, hname, hlen⟩ := h.name
  obtain ⟨jumps, hjumps, hspells⟩ := h.spells
  subst hname
  refine meets_ite (fun hzero => ?_) fun hsome => ?_
  · have hroot : name.labels = [] := by
      have := length_le_wireLen name.labels
      exact length_eq_zero_iff.mp (by omega)
    refine meets_pure ⟨⟨name, jumps, ?_, hjumps, hspells⟩, h.stop_le, rfl⟩
    rw [Name.wire, Name.wire, hroot]
    rfl
  have hlt := h.wireLen_lt
  refine (meets_store (Q := (· = s.wire.set s.wireLen 0)) (by rw [h.size]; exact hlt) rfl).bind
    fun wire hwire => ?_
  subst hwire
  refine (meets_slice (Q := (· = name.wire)) (Nat.zero_le _)
    (by rw [length_set, h.size]; omega) ?_).bind fun wire hwire => ?_
  · have hend : s.wireLen < s.wire.length := by rw [h.size]; exact hlt
    rw [drop_zero, Nat.sub_zero, take_add_one, take_set, set_eq_of_length_le
      (by rw [length_take]; omega), getElem?_set_self hend, h.written]
    rfl
  · exact meets_pure ⟨⟨name, jumps, hwire, hjumps, hspells⟩, h.stop_le, rfl⟩

end OnetDns.Dns.NameBuffer
