import OnetDns.Dns.Name

/-!
# What a written name reads as

`Spells` says which labels stand at an offset of a buffer, how many pointers
have to be followed to see them all, and where the name ends in the flow of the
message. Reading is determined by it, and so is every byte that `encode` adds.
-/
namespace OnetDns.Dns
open List Option UInt8 Nat Name

/-- The labels that start at `pos`, the pointers on the way, and the end. -/
inductive Spells (buf : Bytes) : (pos : ℕ) → List Bytes → (jumps stop : ℕ) → Prop
  | root {pos : ℕ} (h : buf[pos]? = some 0) : Spells buf pos [] 0 (pos + 1)
  | label {pos jumps stop : ℕ} {label : Bytes} {rest : List Bytes}
      (hlen : 1 ≤ label.length ∧ label.length ≤ 63)
      (hbyte : buf[pos]? = some (UInt8.ofNat label.length))
      (hbound : pos + 1 + label.length ≤ buf.length)
      (hdata : (buf.drop (pos + 1)).take label.length = label)
      (h : Spells buf (pos + 1 + label.length) rest jumps stop) :
      Spells buf pos (label :: rest) jumps stop
  | jump {pos jumps stop : ℕ} {hi lo : UInt8} {labels : List Bytes} (hhi : buf[pos]? = some hi)
      (hkind : Name.labelKind hi = 0xC0) (hlo : buf[pos + 1]? = some lo)
      (hback : Name.pointerTarget hi lo < pos)
      (h : Spells buf (Name.pointerTarget hi lo) labels jumps stop) :
      Spells buf pos labels (jumps + 1) (pos + 2)

variable (label : Bytes) (rest : List Bytes)

lemma wireLen_cons : wireLen (label :: rest) = label.length + 1 + wireLen rest := by
  simp only [wireLen, map_cons, sum_cons]
  omega

variable (labels : List Bytes)

lemma wireOf_length : (wireOf labels).length = wireLen labels := by
  induction labels with
  | nil => rfl
  | cons label rest ih =>
    rw [wireLen_cons, ← ih]
    simp only [wireOf, flatMap_cons, length_append, length_cons]
    omega

lemma lowerLabels_cons :
    lowerLabels (label :: rest) = label.map asciiLower :: lowerLabels rest := rfl

lemma wireLen_lower : wireLen (lowerLabels labels) = wireLen labels := by
  induction labels with
  | nil => rfl
  | cons label rest ih => rw [lowerLabels_cons, wireLen_cons, wireLen_cons, ih, length_map]

lemma length_le_wireLen : labels.length < wireLen labels := by
  induction labels with
  | nil => decide
  | cons label rest ih =>
    rw [wireLen_cons, length_cons]
    omega

namespace Spells

variable {buf : Bytes} {pos jumps stop : ℕ} {labels : List Bytes}

section

variable (h : Spells buf pos labels jumps stop)
include h

lemma label_len : ∀ label ∈ labels, 1 ≤ label.length ∧ label.length ≤ 63 := by
  induction h with
  | root _ => simp
  | label hlen _ _ _ _ ih =>
    intro l hl
    rcases mem_cons.mp hl with rfl | hl
    · exact hlen
    · exact ih l hl
  | jump _ _ _ _ _ ih => exact ih

lemma lt_stop : pos < stop := by
  induction h with
  | root _ => omega
  | label _ _ _ _ _ ih => omega
  | jump _ _ _ _ _ _ => omega

lemma stop_le : stop ≤ buf.length := by
  induction h with
  | root h =>
    have := (List.getElem?_eq_some_iff.mp h).1
    omega
  | label _ _ _ _ _ ih => exact ih
  | jump _ _ hlo _ _ _ =>
    have := (List.getElem?_eq_some_iff.mp hlo).1
    omega

/-- More bytes behind a name change nothing. -/
theorem append (more : Bytes) : Spells (buf ++ more) pos labels jumps stop := by
  have hget : ∀ {i : ℕ} {b : UInt8}, buf[i]? = some b → (buf ++ more)[i]? = some b := by
    intro i b hi
    rw [getElem?_append_left (List.getElem?_eq_some_iff.mp hi).1, hi]
  induction h with
  | root h => exact .root (hget h)
  | label hlen hbyte hbound hdata _ ih =>
    refine .label hlen (hget hbyte) (by rw [length_append]; omega) ?_ ih
    rw [drop_append_of_le_length (by omega), take_append_of_le_length
      (by rw [length_drop]; omega), hdata]
  | jump hhi hkind hlo hback _ ih => exact .jump (hget hhi) hkind (hget hlo) hback ih

end

end Spells

variable {k j stop : ℕ} {labels : List Bytes} {w : Writer}

lemma labelKind_of_le (h : k ≤ 63) : labelKind (UInt8.ofNat k) = 0 := by
  interval_cases k <;> rfl

lemma toNat_label (h : k ≤ 63) : (UInt8.ofNat k).toNat = k := by
  rw [toNat_ofNat']
  omega

lemma label_ne_zero (h : 1 ≤ k ∧ k ≤ 63) : UInt8.ofNat k ≠ 0 := by
  intro hz
  have := congrArg toNat hz
  exact absurd this (by simp; omega)

variable {buf : Bytes}

/-- Reading what is spelled succeeds, with at most `maxJumps` pointers. -/
theorem parseLabels_of_spells {pos : ℕ}
    (h : Spells buf pos labels j stop) {limit fuel jumps total : ℕ} {seen : Option ℕ}
    (hfuel : labels.length + j < fuel) (hjumps : jumps + j ≤ maxJumps)
    (htotal : total + wireLen labels ≤ maxNameLen + 1) (hlimit : seen = none → stop ≤ limit) :
    parseLabels buf limit fuel pos seen jumps total = .ok (labels, seen.getD stop) := by
  induction h generalizing fuel jumps total seen with
  | @root pos h =>
    obtain ⟨fuel, rfl⟩ : ∃ k, fuel = k + 1 := ⟨fuel - 1, by omega⟩
    have hin : ¬ (seen.isNone = true ∧ limit ≤ pos) := by
      rintro ⟨hnone, hle⟩
      have := hlimit (isNone_iff_eq_none.mp hnone)
      omega
    rw [parseLabels, if_neg hin]
    simp only [h]
    rfl
  | @label pos jumps' stop label rest hlen hbyte hbound hdata hrest ih =>
    obtain ⟨fuel, rfl⟩ : ∃ k, fuel = k + 1 := ⟨fuel - 1, by omega⟩
    have hnat := toNat_label hlen.2
    have hgt := hrest.lt_stop
    rw [wireLen_cons] at htotal
    have hin : ¬ (seen.isNone = true ∧ limit ≤ pos) := by
      rintro ⟨hnone, hle⟩
      have := hlimit (isNone_iff_eq_none.mp hnone)
      omega
    have hfit : ¬ (seen.isNone = true ∧ limit < pos + 1 + label.length) := by
      rintro ⟨hnone, hle⟩
      have := hlimit (isNone_iff_eq_none.mp hnone)
      omega
    have hpos : 1 ≤ wireLen rest := one_le_iff_ne_zero.mpr (by unfold wireLen; omega)
    rw [parseLabels, if_neg hin]
    simp only [hbyte, hnat, if_pos (labelKind_of_le hlen.2), if_neg (label_ne_zero hlen),
      if_neg hfit, if_neg (show ¬ buf.length < pos + 1 + label.length by omega),
      if_neg (show ¬ maxNameLen < total + (label.length + 1) by omega)]
    rw [ih (by simp at hfuel; omega) hjumps (by omega) hlimit]
    simp only [hdata]
  | @jump pos jumps' stop hi lo labels hhi hkind hlo hback _ ih =>
    obtain ⟨fuel, rfl⟩ : ∃ k, fuel = k + 1 := ⟨fuel - 1, by omega⟩
    have hin : ¬ (seen.isNone = true ∧ limit ≤ pos) := by
      rintro ⟨hnone, hle⟩
      have := hlimit (isNone_iff_eq_none.mp hnone)
      omega
    have hfit : ¬ (seen.isNone = true ∧ limit < pos + 2) := by
      rintro ⟨hnone, hle⟩
      have := hlimit (isNone_iff_eq_none.mp hnone)
      omega
    rw [parseLabels, if_neg hin]
    simp only [hhi, hkind, hlo, if_neg hfit, if_neg (show ¬ maxJumps < jumps + 1 by omega),
      if_neg (not_le.mpr hback)]
    exact ih (by omega) (by omega) htotal nofun

/-- Too many pointers on the way are an error. -/
theorem parseLabels_loop {pos : ℕ} (h : Spells buf pos labels j stop)
    {limit fuel jumps total : ℕ} {seen : Option ℕ} (hstart : jumps ≤ maxJumps)
    (hjumps : maxJumps < jumps + j) :
    ∃ error, parseLabels buf limit fuel pos seen jumps total = .error error := by
  induction h generalizing fuel jumps total seen with
  | root _ => omega
  | @label pos jumps' stop label rest hlen hbyte hbound hdata hrest ih =>
    cases fuel with
    | zero => exact ⟨_, rfl⟩
    | succ fuel =>
      rw [parseLabels]
      split
      · exact ⟨_, rfl⟩
      simp only [hbyte, if_pos (labelKind_of_le hlen.2), if_neg (label_ne_zero hlen),
        toNat_label hlen.2]
      split
      · exact ⟨_, rfl⟩
      split
      · exact ⟨_, rfl⟩
      split
      · exact ⟨_, rfl⟩
      obtain ⟨error, herror⟩ : ∃ error, parseLabels buf limit fuel (pos + 1 + label.length)
          seen jumps (total + (label.length + 1)) = .error error := ih hstart hjumps
      rw [herror]
      exact ⟨error, rfl⟩
  | @jump pos jumps' stop hi lo labels hhi hkind hlo hback _ ih =>
    cases fuel with
    | zero => exact ⟨_, rfl⟩
    | succ fuel =>
      rw [parseLabels]
      split
      · exact ⟨_, rfl⟩
      simp only [hhi, hkind, hlo]
      rw [if_neg (by decide), if_pos trivial]
      split
      · exact ⟨_, rfl⟩
      split
      · exact ⟨_, rfl⟩
      rw [if_neg (not_le.mpr hback)]
      exact ih (by omega) (by omega)

def Spells.name {buf : Bytes} {pos j stop : ℕ} {labels : List Bytes}
    (h : Spells buf pos labels j stop) (hwire : wireLen labels ≤ maxNameLen) : Name :=
  ⟨labels, h.label_len, hwire⟩

/-- A spelled name is read if it takes few enough pointers, and then as it is spelled. -/
theorem parse_of_spells {r : Reader} (h : Spells r.buf r.pos labels j stop)
    (hwire : wireLen labels ≤ maxNameLen) (hlimit : stop ≤ r.limit) :
    (j ≤ maxJumps → parse r = .ok (h.name hwire, { r with pos := stop })) ∧
    (maxJumps < j → ∃ error, parse r = .error error) := by
  constructor
  · intro hj
    have hfuel : labels.length + j < maxNameLen + maxJumps := by
      have := length_le_wireLen labels
      omega
    have hparse : parseLabels r.buf r.limit (maxNameLen + maxJumps) r.pos none 0 1 =
        .ok (labels, (none : Option ℕ).getD stop) :=
      parseLabels_of_spells h hfuel (by omega) (by omega) fun _ => hlimit
    rw [parse, hparse]
    simp only [fromLabels, dif_pos h.label_len, dif_pos hwire]
    rfl
  · intro hj
    obtain ⟨error, herror⟩ : ∃ error, parseLabels r.buf r.limit (maxNameLen + maxJumps) r.pos
        none 0 1 = .error error := parseLabels_loop h (zero_le _) (by omega)
    rw [parse, herror]
    exact ⟨error, rfl⟩

namespace NameMap

/-- Links lead to older slots. -/
structure Wf (m : NameMap) : Prop where
  active_le : m.active ≤ m.entries.length
  head : ∀ hash i, m.heads hash = some i → i < m.active
  next : ∀ i entry j, i < m.active → m.entries[i]? = some entry → entry.next = some j → j < i

lemma wf_default (hash : Bytes → UInt64) : (default hash).Wf := ⟨le_rfl, nofun, nofun⟩

variable {m : NameMap}

/-- A walk sees only older slots, and needs no more rounds than there are. -/
theorem walk_congr (hwf : m.Wf) {entries : List NameMapEntry}
    (hsame : ∀ i < m.active, entries[i]? = m.entries[i]?) (key : Bytes) {i fuel fuel' : ℕ}
    (hi : i < m.active) (hfuel : i < fuel) (hfuel' : i < fuel') :
    walk entries key fuel (some i) = walk m.entries key fuel' (some i) := by
  induction i using Nat.strong_induction_on generalizing fuel fuel' with
  | _ i ih =>
    obtain ⟨fuel, rfl⟩ : ∃ k, fuel = k + 1 := ⟨fuel - 1, by omega⟩
    obtain ⟨fuel', rfl⟩ : ∃ k, fuel' = k + 1 := ⟨fuel' - 1, by omega⟩
    rw [walk, walk, hsame i hi]
    cases hentry : m.entries[i]? with
    | none => rfl
    | some entry =>
      dsimp only
      split
      · rfl
      cases hnext : entry.next with
      | none => cases fuel <;> cases fuel' <;> rfl
      | some j =>
        have hj := hwf.next i entry j hi hentry hnext
        exact ih j hj (hj.trans hi) (by omega) (by omega)

lemma insert_entries (hwf : m.Wf) (key : Bytes) (offset : UInt16) :
    (m.insert key offset).entries[m.active]? = some ⟨key, offset, m.heads (m.hashBuilder key)⟩ ∧
      ∀ i < m.active, (m.insert key offset).entries[i]? = m.entries[i]? := by
  have hle := hwf.active_le
  unfold insert
  split
  · rename_i hlt
    constructor
    · rw [getElem?_set_self hlt]
    · intro i hi
      rw [getElem?_set_ne (by omega)]
  have heq : m.active = m.entries.length := by omega
  constructor
  · rw [heq, getElem?_concat_length]
  · intro i hi
    rw [getElem?_append_left (by omega)]

lemma insert_wf (hwf : m.Wf) (key : Bytes) (offset : UInt16) : (m.insert key offset).Wf := by
  obtain ⟨hnew, hold⟩ := insert_entries hwf key offset
  refine ⟨?_, ?_, ?_⟩
  · have := (List.getElem?_eq_some_iff.mp hnew).1
    exact this
  · intro hash i hi
    change (if hash = m.hashBuilder key then some m.active else m.heads hash) = some i at hi
    change i < m.active + 1
    split at hi
    · cases hi
      omega
    · have := hwf.head hash i hi
      omega
  · intro i entry j hi hentry hnext
    rcases lt_or_eq_of_le (Nat.lt_succ_iff.mp hi) with hlt | rfl
    · rw [hold i hlt] at hentry
      exact hwf.next i entry j hlt hentry hnext
    · rw [hnew] at hentry
      cases hentry
      exact hwf.head _ j hnext

/-- A new offset is found under its key, and hides nothing else. -/
theorem get_insert (hwf : m.Wf) (key : Bytes) (offset : UInt16) (other : Bytes) :
    (m.insert key offset).get other = if other = key then some offset else m.get other := by
  obtain ⟨hnew, hold⟩ := insert_entries hwf key offset
  have hlen := (List.getElem?_eq_some_iff.mp hnew).1
  have hle := hwf.active_le
  have hwalk : ∀ start, m.heads (m.hashBuilder other) = start → ∀ fuel, m.active ≤ fuel →
      walk (m.insert key offset).entries other fuel start =
        walk m.entries other m.entries.length start := by
    intro start hstart fuel hfuel
    cases start with
    | none => cases fuel <;> cases m.entries.length <;> rfl
    | some i =>
      have hi := hwf.head _ i hstart
      exact walk_congr hwf hold other hi (by omega) (by omega)
  change walk _ other _ (if m.hashBuilder other = m.hashBuilder key then some m.active
    else m.heads (m.hashBuilder other)) = _
  split
  · rename_i hhash
    obtain ⟨fuel, hfuel⟩ : ∃ k, (m.insert key offset).entries.length = k + 1 :=
      ⟨(m.insert key offset).entries.length - 1, by omega⟩
    rw [hfuel, walk, hnew]
    dsimp only
    by_cases heq : other = key
    · rw [if_pos heq.symm, if_pos heq]
    · rw [if_neg (Ne.symm heq), if_neg heq, ← hhash]
      exact hwalk _ rfl fuel (by omega)
  · rename_i hhash
    have hne : other ≠ key := fun heq => hhash (by rw [heq])
    rw [if_neg hne]
    exact hwalk _ rfl _ (by omega)

end NameMap

namespace Writer

variable {w : Writer} {bytes : Bytes}

lemma pushBytes_ok (h : (w.pushBytes bytes).error = none) :
    w.error = none ∧ w.pushBytes bytes = { w with buf := w.buf ++ bytes } := by
  unfold pushBytes at h ⊢
  split at h
  · rename_i herr
    rw [h] at herr
    cases herr
  rename_i herr
  have hnone : w.error = none := by simpa using herr
  split at h
  · simp [fail, hnone] at h
  · rename_i hsize
    rw [if_neg herr, if_neg hsize]
    exact ⟨hnone, rfl⟩

lemma pushBytes_limit (bytes : Bytes) : (w.pushBytes bytes).limit = w.limit := by
  unfold pushBytes fail
  split
  · rfl
  split
  · split <;> rfl
  · rfl

lemma pushBytes_room (h : (w.pushBytes bytes).error = none) :
    (w.pushBytes bytes).buf.length ≤ w.limit := by
  obtain ⟨hnone, heq⟩ := pushBytes_ok h
  rw [heq, length_append]
  by_contra hroom
  unfold pushBytes at h
  rw [if_pos (not_le.mp hroom)] at h
  simp [fail, hnone] at h

lemma pushBytes_failed (h : w.error ≠ none) : w.pushBytes bytes = w := by
  rw [pushBytes, if_pos (isSome_iff_ne_none.mpr h)]

end Writer

def suffixKey (labels : List Bytes) : Bytes := wireOf (lowerLabels labels)

lemma suffixKey_length (labels : List Bytes) : (suffixKey labels).length = wireLen labels := by
  rw [suffixKey, wireOf_length, wireLen_lower]

lemma wireOf_cons :
    wireOf (label :: rest) = UInt8.ofNat label.length :: (label ++ wireOf rest) := by
  simp [wireOf]

/-- A wire form has one reading, whatever follows it. -/
theorem wireOf_append_inj {a b : List Bytes} (ha : ∀ l ∈ a, 1 ≤ l.length ∧ l.length ≤ 63)
    (hb : ∀ l ∈ b, 1 ≤ l.length ∧ l.length ≤ 63) {x y : Bytes}
    (h : wireOf a ++ x = wireOf b ++ y) : a = b ∧ x = y := by
  induction a generalizing b with
  | nil =>
    cases b with
    | nil => exact ⟨rfl, (cons.inj h).2⟩
    | cons l rest =>
      exact absurd (cons.inj h).1.symm (label_ne_zero (hb l mem_cons_self))
  | cons k a ih =>
    cases b with
    | nil =>
      exact absurd (cons.inj h).1 (label_ne_zero (ha k mem_cons_self))
    | cons l b =>
      rw [wireOf_cons, wireOf_cons, cons_append, cons_append, append_assoc, append_assoc] at h
      obtain ⟨hhead, htail⟩ := cons.inj h
      have hlen : k.length = l.length := by
        have hnat := congrArg toNat hhead
        rwa [toNat_label (ha k mem_cons_self).2, toNat_label (hb l mem_cons_self).2] at hnat
      obtain ⟨rfl, hrest⟩ := append_inj htail hlen
      obtain ⟨rfl, rfl⟩ := ih (fun x hx => ha x (mem_cons_of_mem _ hx))
        (fun x hx => hb x (mem_cons_of_mem _ hx)) hrest
      exact ⟨rfl, rfl⟩

lemma wireOf_injective {a b : List Bytes} (ha : ∀ l ∈ a, 1 ≤ l.length ∧ l.length ≤ 63)
    (hb : ∀ l ∈ b, 1 ≤ l.length ∧ l.length ≤ 63) (h : wireOf a = wireOf b) : a = b := by
  have h : wireOf a ++ [] = wireOf b ++ [] := by rw [h]
  exact (wireOf_append_inj ha hb h).1

section

variable (h : ∀ l ∈ labels, 1 ≤ l.length ∧ l.length ≤ 63)
include h

lemma lower_label_len : ∀ l ∈ lowerLabels labels, 1 ≤ l.length ∧ l.length ≤ 63 := by
  intro l hl
  obtain ⟨k, hk, rfl⟩ := mem_map.mp hl
  rw [length_map]
  exact h k hk

lemma map_wireOf : (wireOf labels).map asciiLower = wireOf (lowerLabels labels) := by
  induction labels with
  | nil => rfl
  | cons label rest ih =>
    have hlen : asciiLower (ofNat label.length) = ofNat label.length := by
      have hle := (h label mem_cons_self).2
      generalize label.length = k at hle
      interval_cases k <;> rfl
    rw [lowerLabels_cons, wireOf_cons, wireOf_cons, map_cons, map_append, hlen,
      length_map, ih fun l hl => h l (mem_cons_of_mem _ hl)]

end

lemma be16_pointer {offset : ℕ} (h : offset < pointerLimit) :
    ∃ hi lo, be16 (0xC000 ||| UInt16.ofNat offset) = [hi, lo] ∧ labelKind hi = 0xC0 ∧
      pointerTarget hi lo = offset := by
  have hlt : offset < 2 ^ 14 := h
  have hor : (0xC000 ||| UInt16.ofNat offset).toNat = 0xC000 + offset := by
    rw [UInt16.toNat_or, UInt16.toNat_ofNat', mod_eq_of_lt (by omega)]
    exact (two_pow_add_eq_or_of_lt hlt 3).symm
  refine ⟨ofNat (192 + offset / 256), ofNat (offset % 256), ?_, ?_, ?_⟩
  · rw [be16]
    simp only [BigEndian.encode, cons.injEq, and_true]
    constructor
    · congr 1
      omega
    · apply toNat.inj
      rw [toNat_ofNat', toNat_ofNat']
      omega
  · have hk : offset / 256 < 64 := by omega
    generalize offset / 256 = k at hk
    interval_cases k <;> rfl
  · rw [pointerTarget, toNat_ofNat', toNat_ofNat']
    omega

/-- What matters about the names written so far: the size of the message and,
for every suffix a pointer can lead to, its offset and how many pointers are
followed when it is read. -/
structure Plan where
  size : ℕ
  known : Bytes → Option (ℕ × ℕ)

variable {p : Plan}

namespace Plan

def empty : Plan := ⟨0, fun _ => none⟩

/-- The pointers on the way through a name: one more than through the name that
first wrote the longest suffix of it that is known. -/
def links (p : Plan) : List Bytes → ℕ
  | [] => 0
  | label :: rest =>
    match p.known (suffixKey (label :: rest)) with
    | some (_, links) => links + 1
    | none => p.links rest

/-- The bytes a name takes. -/
def cost (p : Plan) : List Bytes → ℕ
  | [] => 1
  | label :: rest =>
    match p.known (suffixKey (label :: rest)) with
    | some _ => 2
    | none => label.length + 1 + p.cost rest

/-- The suffixes of a name written at `start` that become known. -/
def fresh (p : Plan) : (start : ℕ) → List Bytes → Bytes → Option ℕ
  | _, [], _ => none
  | start, label :: rest, key =>
    match p.known (suffixKey (label :: rest)) with
    | some _ => none
    | none =>
      if key = suffixKey (label :: rest) ∧ start < pointerLimit then some start
      else p.fresh (start + 1 + label.length) rest key

/-- The plan after a name was written. -/
def add (p : Plan) (labels : List Bytes) : Plan where
  size := p.size + p.cost labels
  known := fun key =>
    ((p.fresh p.size labels key).map fun offset => (offset, p.links labels)).or (p.known key)

/-- The plan after other bytes were written. -/
def skip (p : Plan) (count : ℕ) : Plan := { p with size := p.size + count }

lemma fresh_length {start offset : ℕ} {labels : List Bytes} {key : Bytes}
    (h : p.fresh start labels key = some offset) : key.length ≤ wireLen labels := by
  induction labels generalizing start with
  | nil => cases h
  | cons label rest ih =>
    unfold fresh at h
    split at h
    · cases h
    split at h
    · rename_i hkey
      rw [hkey.1, suffixKey_length]
    · have := ih h
      rw [wireLen_cons]
      omega

/-- The suffixes that a pointer can lead to are spelled in the buffer. -/
def Spelled (p : Plan) (buf : Bytes) : Prop :=
  ∀ key offset links, p.known key = some (offset, links) → offset < pointerLimit ∧
    ∃ labels stop, Spells buf offset labels links stop ∧ suffixKey labels = key

lemma Spelled.append (h : p.Spelled buf) (more : Bytes) : p.Spelled (buf ++ more) := by
  intro key offset links hk
  obtain ⟨hlt, labels, stop, hs, hkey⟩ := h key offset links hk
  exact ⟨hlt, labels, stop, hs.append more, hkey⟩

end Plan

/-- The writer knows what the plan knows. -/
structure Agrees (w : Writer) (p : Plan) : Prop where
  wf : w.names.Wf
  size : w.buf.length = p.size
  get : ∀ key, w.names.get key = (p.known key).map fun k => UInt16.ofNat k.1
  spelled : p.Spelled w.buf

/-- What the label loop of `encode` has written. -/
structure Encoded (p : Plan) (w : Writer) (labels : List Bytes) (w' : Writer) : Prop where
  before : w.error = none
  limit : w'.limit = w.limit
  wf : w'.names.Wf
  buf : ∃ out, w'.buf = w.buf ++ out ∧ out.length = p.cost labels
  spells : ∃ spelled, lowerLabels spelled = lowerLabels labels ∧
    Spells w'.buf w.buf.length spelled (p.links labels) w'.buf.length
  get : ∀ key, w'.names.get key =
    ((p.fresh w.buf.length labels key).map UInt16.ofNat).or (w.names.get key)
  fresh : ∀ key offset, p.fresh w.buf.length labels key = some offset → offset < pointerLimit ∧
    ∃ labels' stop, Spells w'.buf offset labels' (p.links labels) stop ∧ suffixKey labels' = key

lemma encoded_root (hwf : w.names.Wf)
    (hok : (encodeLabels w []).error = none) : Encoded p w [] (encodeLabels w []) := by
  obtain ⟨hbefore, hpush⟩ := Writer.pushBytes_ok hok
  have hw : encodeLabels w [] = { w with buf := w.buf ++ [0] } := hpush
  rw [hw]
  refine ⟨hbefore, rfl, hwf, ⟨[0], rfl, rfl⟩, ⟨[], rfl, ?_⟩, fun _ => rfl, nofun⟩
  have hroot : Spells (w.buf ++ [0]) w.buf.length [] (p.links []) (w.buf.length + 1) :=
    .root getElem?_concat_length
  simpa using hroot

lemma encoded_pointer (hwf : w.names.Wf) (hspelled : p.Spelled w.buf)
    {label : Bytes} {rest : List Bytes} (hlen : ∀ l ∈ label :: rest, 1 ≤ l.length ∧ l.length ≤ 63)
    {offset links : ℕ} (hknown : p.known (suffixKey (label :: rest)) = some (offset, links))
    (hok : (w.pushU16 (0xC000 ||| UInt16.ofNat offset)).error = none) :
    Encoded p w (label :: rest) (w.pushU16 (0xC000 ||| UInt16.ofNat offset)) := by
  obtain ⟨hlt, spelled, stop, hspell, hkey⟩ := hspelled _ _ _ hknown
  obtain ⟨hi, lo, hbytes, hkind, htarget⟩ := be16_pointer hlt
  obtain ⟨hbefore, hpush⟩ := Writer.pushBytes_ok hok
  have hw : w.pushU16 (0xC000 ||| .ofNat offset) = { w with buf := w.buf ++ [hi, lo] } := by
    rw [← hbytes]
    exact hpush
  have hlinks : p.links (label :: rest) = links + 1 := by simp only [Plan.links, hknown]
  have hfresh : ∀ key, p.fresh w.buf.length (label :: rest) key = none := by
    intro key
    simp only [Plan.fresh, hknown]
  have hback : offset < w.buf.length := by
    have := hspell.lt_stop
    have := hspell.stop_le
    omega
  rw [hw]
  refine ⟨hbefore, rfl, hwf, ⟨[hi, lo], rfl, ?_⟩, ⟨spelled, ?_, ?_⟩, ?_, ?_⟩
  · simp only [Plan.cost, hknown]
    rfl
  · exact wireOf_injective (lower_label_len hspell.label_len) (lower_label_len hlen) hkey
  · rw [hlinks]
    have hhi : (w.buf ++ [hi, lo])[w.buf.length]? = some hi := by
      rw [getElem?_append_right le_rfl, Nat.sub_self]
      rfl
    have hlo : (w.buf ++ [hi, lo])[w.buf.length + 1]? = some lo := by
      rw [getElem?_append_right (by omega), Nat.add_sub_cancel_left]
      rfl
    have hjump : Spells (w.buf ++ [hi, lo]) w.buf.length spelled (links + 1) (w.buf.length + 2) :=
      .jump hhi hkind hlo (htarget ▸ hback) (htarget ▸ hspell.append _)
    simpa using hjump
  · intro key
    rw [hfresh key]
    rfl
  · intro key offset' h
    rw [hfresh key] at h
    cases h

/-- The writer with a suffix remembered at its end, if a pointer can lead there. -/
def Writer.remember (w : Writer) (key : Bytes) : Writer :=
  if w.isFailed = false ∧ w.buf.length < pointerLimit then
    { w with names := w.names.insert key (UInt16.ofNat w.buf.length) }
  else w

open Writer

namespace Writer

variable {w : Writer} (key : Bytes)

lemma remember_buf : (w.remember key).buf = w.buf := by
  unfold remember
  split <;> rfl

lemma remember_error : (w.remember key).error = w.error := by
  unfold remember
  split <;> rfl

lemma remember_limit : (w.remember key).limit = w.limit := by
  unfold remember
  split <;> rfl

lemma remember_wf (hwf : w.names.Wf) (key : Bytes) : (w.remember key).names.Wf := by
  unfold remember
  split
  · exact NameMap.insert_wf hwf key _
  · exact hwf

lemma remember_get (hwf : w.names.Wf) (herr : w.error = none) (key other : Bytes) :
    (w.remember key).names.get other =
      if other = key ∧ w.buf.length < pointerLimit then some (UInt16.ofNat w.buf.length)
      else w.names.get other := by
  unfold remember
  have hfailed : w.isFailed = false := by simp [isFailed, herr]
  by_cases hlt : w.buf.length < pointerLimit
  · rw [if_pos ⟨hfailed, hlt⟩, NameMap.get_insert hwf]
    simp only [hlt, and_true]
  · rw [if_neg (fun h => hlt h.2), if_neg (fun h => hlt h.2)]

end Writer

lemma Encoded.cons {w' : Writer} {label : Bytes} {rest : List Bytes} (hwf : w.names.Wf)
    (herr : w.error = none) (hlen : 1 ≤ label.length ∧ label.length ≤ 63)
    (hknown : p.known (suffixKey (label :: rest)) = none)
    (h : Encoded p { w.remember (suffixKey (label :: rest)) with
      buf := w.buf ++ UInt8.ofNat label.length :: label } rest w') :
    Encoded p w (label :: rest) w' := by
  have hlinks : p.links (label :: rest) = p.links rest := by simp only [Plan.links, hknown]
  have hstart : (w.buf ++ ofNat label.length :: label).length =
      w.buf.length + 1 + label.length := by
    rw [length_append, length_cons]
    omega
  have hfresh : ∀ key, p.fresh w.buf.length (label :: rest) key =
      if key = suffixKey (label :: rest) ∧ w.buf.length < pointerLimit then some w.buf.length
      else p.fresh (w.buf.length + 1 + label.length) rest key := by
    intro key
    simp only [Plan.fresh, hknown]
  obtain ⟨out, hout, hcost⟩ := h.buf
  have hbuf : w'.buf = w.buf ++ (ofNat label.length :: label ++ out) := by
    rw [hout]
    simp
  obtain ⟨spelled, hlower, hspell⟩ := h.spells
  have hget := h.get
  have hnew := h.fresh
  simp only [hstart] at hspell hget hnew
  -- the label stands in front of the rest
  have hhead : Spells w'.buf w.buf.length (label :: spelled) (p.links rest) w'.buf.length := by
    refine .label hlen ?_ ?_ ?_ hspell
    · rw [hbuf, getElem?_append_right le_rfl, Nat.sub_self]
      rfl
    · rw [hbuf]
      simp only [length_append, length_cons]
      omega
    · rw [hbuf, drop_append, drop_of_length_le (by omega), Nat.add_sub_cancel_left]
      exact take_left
  refine ⟨herr, h.limit.trans (remember_limit _), h.wf, ⟨_, hbuf, ?_⟩,
    ⟨label :: spelled, ?_, hlinks ▸ hhead⟩, ?_, ?_⟩
  · simp only [Plan.cost, hknown, length_append, length_cons, hcost]
  · rw [lowerLabels_cons, lowerLabels_cons, hlower]
  · intro key
    rw [hget key, hfresh key, remember_get hwf herr]
    by_cases hkey : key = suffixKey (label :: rest) ∧ w.buf.length < pointerLimit
    · have hnone : p.fresh (w.buf.length + 1 + label.length) rest key = none := by
        rw [eq_none_iff_forall_not_mem]
        intro offset hoff
        have := Plan.fresh_length hoff
        rw [hkey.1, suffixKey_length, wireLen_cons] at this
        omega
      rw [if_pos hkey, if_pos hkey, hnone]
      rfl
    · rw [if_neg hkey, if_neg hkey]
  · intro key offset hoff
    rw [hlinks]
    rw [hfresh key] at hoff
    split at hoff
    · rename_i hkey
      cases hoff
      refine ⟨hkey.2, label :: spelled, _, hhead, ?_⟩
      rw [hkey.1, suffixKey, suffixKey, lowerLabels_cons, lowerLabels_cons, hlower]
    · exact hnew key offset hoff

lemma encodeLabels_before (h : (encodeLabels w labels).error = none) : w.error = none := by
  induction labels generalizing w with
  | nil => exact (pushBytes_ok h).1
  | cons label rest ih =>
    unfold encodeLabels at h
    dsimp only at h
    split at h
    · exact (pushBytes_ok h).1
    · have hpushed := (pushBytes_ok (pushBytes_ok (ih h)).1).1
      split at hpushed <;> exact hpushed

/-- The label loop, on a writer that knows at least what the plan knows about the
suffixes of the name. -/
theorem encodeLabels_encoded (hlen : ∀ l ∈ labels, 1 ≤ l.length ∧ l.length ≤ 63) (hwf : w.names.Wf)
    (hget : ∀ key, key.length ≤ wireLen labels → w.names.get key = (p.known key).map fun k =>
      UInt16.ofNat k.1) (hspelled : p.Spelled w.buf)
    (hok : (encodeLabels w labels).error = none)
    :
    Encoded p w labels (encodeLabels w labels) := by
  induction labels generalizing w with
  | nil => exact encoded_root hwf hok
  | cons label rest ih =>
    have hrest : ∀ l ∈ rest, 1 ≤ l.length ∧ l.length ≤ 63 :=
      fun l hl => hlen l (mem_cons_of_mem _ hl)
    have hfound := hget (suffixKey (label :: rest)) (suffixKey_length _).le
    unfold encodeLabels at hok ⊢
    dsimp only at hok ⊢
    change w.names.get (wireOf (lowerLabels (label :: rest))) = _ at hfound
    rw [hfound] at hok ⊢
    cases hknown : p.known (suffixKey (label :: rest)) with
    | some k =>
      rw [hknown] at hok
      exact encoded_pointer hwf hspelled hlen hknown hok
    | none =>
      rw [hknown] at hok
      change (encodeLabels (((w.remember (suffixKey (label :: rest))).pushU8
        (ofNat label.length)).pushBytes label) rest).error = none at hok
      change Encoded p w (label :: rest) (encodeLabels (((w.remember
        (suffixKey (label :: rest))).pushU8 (ofNat label.length)).pushBytes label) rest)
      obtain ⟨herr₁, hpush₁⟩ := pushBytes_ok (encodeLabels_before hok)
      obtain ⟨herr₀, hpush₀⟩ := pushBytes_ok herr₁
      rw [remember_error] at herr₀
      have hw : ((w.remember (suffixKey (label :: rest))).pushU8 (ofNat label.length)).pushBytes
          label = { w.remember (suffixKey (label :: rest)) with
            buf := w.buf ++ ofNat label.length :: label } := by
        rw [hpush₁, Writer.pushU8, hpush₀]
        simp [remember_buf]
      rw [hw] at hok ⊢
      refine .cons hwf herr₀ (hlen label mem_cons_self) hknown (ih hrest ?_ ?_ ?_ hok)
      · exact remember_wf hwf _
      · intro key hkey
        have hne : key ≠ suffixKey (label :: rest) := by
          rintro rfl
          rw [suffixKey_length, wireLen_cons] at hkey
          omega
        rw [remember_get hwf herr₀, if_neg (fun h => hne h.1)]
        refine hget key ?_
        rw [wireLen_cons]
        omega
      · exact hspelled.append _

lemma Name.encode_eq (n : Name) (w : Writer) : n.encode w = encodeLabels w n.labels := by
  rw [encode, canonicalKeyInto, if_neg (not_lt.mpr n.wire_len)]

lemma Name.encode_before {n : Name} (h : (n.encode w).error = none) : w.error = none := by
  rw [encode_eq] at h
  exact encodeLabels_before h

/-- Writing a name keeps writer and plan together. -/
theorem Agrees.encode (h : Agrees w p) (n : Name) (hok : (n.encode w).error = none) :
    Encoded p w n.labels (n.encode w) ∧ Agrees (n.encode w) (p.add n.labels) := by
  rw [encode_eq] at hok ⊢
  have hE := encodeLabels_encoded n.label_len h.wf (fun key _ => h.get key) h.spelled hok
  refine ⟨hE, hE.wf, ?_, ?_, ?_⟩
  · obtain ⟨out, hbuf, hcost⟩ := hE.buf
    rw [hbuf, length_append, hcost, h.size]
    rfl
  · intro key
    rw [hE.get key, h.get key, h.size]
    change _ = Option.map _ (((p.fresh p.size n.labels key).map _).or (p.known key))
    cases p.fresh p.size n.labels key <;> rfl
  intro key offset links hk
  change ((p.fresh p.size n.labels key).map fun offset => (offset, p.links n.labels)).or
    (p.known key) = some (offset, links) at hk
  cases hfresh : p.fresh p.size n.labels key with
  | none =>
    rw [hfresh] at hk
    obtain ⟨out, hbuf, _⟩ := hE.buf
    rw [hbuf]
    exact h.spelled.append out key offset links hk
  | some start =>
    rw [hfresh] at hk
    cases hk
    rw [← h.size] at hfresh
    exact hE.fresh key offset hfresh

lemma agrees_new (hash : Bytes → UInt64) (limit : ℕ) :
    Agrees (Writer.withLimit hash limit) .empty :=
  ⟨NameMap.wf_default hash, rfl, fun _ => rfl, nofun⟩

/-- Slots left over from an earlier message are never looked at. -/
theorem agrees_clear (w : Writer) : Agrees w.clear .empty := by
  refine ⟨⟨zero_le _, nofun, nofun⟩, rfl, ?_, nofun⟩
  intro key
  change NameMap.walk _ key _ none = none
  cases w.clear.names.entries.length <;> rfl

end OnetDns.Dns
