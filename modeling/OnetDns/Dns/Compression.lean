import OnetDns.Dns.NameCodec

/-!
# Names written one after the other

`Name::encode` points into earlier names, which may end in a pointer themselves,
and does not count how many pointers a reader then has to follow. `Name::parse`
stops at `maxJumps`. So a list of names can be read back exactly when no name of
it needs a longer chain.
-/
namespace OnetDns.Dns

/-- A writer that holds no message: a new one, or one that was cleared for reuse. -/
inductive Writer.Fresh : Writer → Prop
  | new (hash : Bytes → UInt64) (limit : ℕ) : Fresh (Writer.withLimit hash limit)
  | clear (w : Writer) : Fresh w.clear

def encodeNames (w : Writer) (names : List Name) : Writer := names.foldl (fun w n => n.encode w) w

/-- The cursor on `pos` of a whole message. -/
def Reader.at' (buf : Bytes) (pos : ℕ) : Reader := { Reader.new buf with pos := pos }

/-- Where the `i`-th name starts. -/
def offsetOf (w : Writer) (names : List Name) (i : ℕ) : ℕ :=
  (encodeNames w (names.take i)).buf.length

/-- Each name is read from where it was written, up to case, and the cursor stops
where the next one starts. -/
def ReadsBack (w : Writer) (names : List Name) : Prop :=
  ∀ i : Fin names.length, ∃ n : Name,
    Name.parse (Reader.at' (encodeNames w names).buf (offsetOf w names i)) =
        .ok (n, Reader.at' (encodeNames w names).buf (offsetOf w names (i + 1))) ∧
      n.eqIgnoreCase (names.get i) = true

def Plan.names (names : List Name) : Plan := names.foldl (fun p n => p.add n.labels) .empty

/-- No name takes more pointers than a reader follows. -/
def ShortChains (names : List Name) : Prop :=
  ∀ i : Fin names.length, (Plan.names (names.take i)).links (names.get i).labels ≤ maxJumps

instance (names : List Name) : Decidable (ShortChains names) :=
  inferInstanceAs (Decidable (∀ _ : Fin names.length, _ ≤ _))

variable {w : Writer}

lemma Writer.Fresh.agrees (h : w.Fresh) : Agrees w .empty := by
  cases h with
  | new hash limit => exact agrees_new hash limit
  | clear w => exact agrees_clear w

lemma encodeNames_append (w : Writer) (a b : List Name) :
    encodeNames w (a ++ b) = encodeNames (encodeNames w a) b := List.foldl_append

lemma Plan.names_concat (names : List Name) (n : Name) :
    Plan.names (names ++ [n]) = (Plan.names names).add n.labels := by
  simp [Plan.names]

variable {names : List Name}

lemma encodeNames_before (h : (encodeNames w names).error = none) : w.error = none := by
  induction names generalizing w with
  | nil => exact h
  | cons n rest ih =>
    have hn : (n.encode w).error = none := ih h
    exact Name.encode_before hn

lemma encodeNames_agrees (hw : Agrees w .empty)
    (hok : (encodeNames w names).error = none) : Agrees (encodeNames w names) (.names names) := by
  induction names using List.reverseRecOn with
  | nil => exact hw
  | append_singleton names n ih =>
    rw [encodeNames_append] at hok ⊢
    rw [Plan.names_concat]
    have hbefore := ih (encodeNames_before hok)
    exact (hbefore.encode n hok).2

/-- What was written stays in front of what follows. -/
theorem encodeNames_extends {p : Plan} (hw : Agrees w p)
    (hok : (encodeNames w names).error = none) :
    ∃ more, (encodeNames w names).buf = w.buf ++ more := by
  induction names generalizing w p with
  | nil => exact ⟨[], (List.append_nil _).symm⟩
  | cons n rest ih =>
    obtain ⟨hencoded, hagrees⟩ := hw.encode n (encodeNames_before hok)
    obtain ⟨out, hout, -⟩ := hencoded.buf
    obtain ⟨more, hmore⟩ := ih hagrees hok
    refine ⟨out ++ more, ?_⟩
    change (encodeNames (n.encode w) rest).buf = _
    rw [hmore, hout, List.append_assoc]

lemma eqIgnoreCase_iff (a b : Name) :
    a.eqIgnoreCase b = true ↔ lowerLabels a.labels = lowerLabels b.labels := by
  rw [Name.eqIgnoreCase, beq_iff_eq, Name.wire, Name.wire, map_wireOf a.label_len,
    map_wireOf b.label_len]
  constructor
  · exact wireOf_injective (lower_label_len a.label_len) (lower_label_len b.label_len)
  · exact fun h => by rw [h]

/-- One name of a list: in the whole message it is spelled where it was written. -/
theorem encodeNames_spells (hw : Agrees w .empty)
    (hok : (encodeNames w names).error = none) (i : Fin names.length) :
    ∃ spelled, lowerLabels spelled = lowerLabels (names.get i).labels ∧
      Spells (encodeNames w names).buf (offsetOf w names i) spelled
        ((Plan.names (names.take i)).links (names.get i).labels) (offsetOf w names (i + 1)) := by
  have htake : names.take (i + 1) = names.take i ++ [names.get i] := by simp
  have happ : encodeNames w names =
      encodeNames (encodeNames w (names.take (i + 1))) (names.drop (i + 1)) := by
    rw [← encodeNames_append, List.take_append_drop]
  rw [happ] at hok ⊢
  have hn := encodeNames_before hok
  obtain ⟨more, hmore⟩ := encodeNames_extends (encodeNames_agrees hw hn) hok
  rw [htake, encodeNames_append] at hn
  have hagrees := encodeNames_agrees hw (encodeNames_before hn)
  obtain ⟨spelled, hlower, hspells⟩ := (hagrees.encode (names.get i) hn).1.spells
  refine ⟨spelled, hlower, ?_⟩
  rw [hmore, offsetOf, offsetOf, htake, encodeNames_append]
  exact hspells.append more

/-- Names are read back exactly when their pointer chains are short enough. -/
theorem names_read_back_iff {w : Writer} (hw : w.Fresh) {names : List Name}
    (hok : (encodeNames w names).error = none) : ReadsBack w names ↔ ShortChains names := by
  refine forall_congr' fun i => ?_
  obtain ⟨spelled, hlower, hspells⟩ := encodeNames_spells hw.agrees hok i
  have hwire : wireLen spelled ≤ maxNameLen := by
    rw [← wireLen_lower, hlower, wireLen_lower]
    exact (names.get i).wire_len
  obtain ⟨hshort, hlong⟩ := parse_of_spells
    (r := .at' (encodeNames w names).buf (offsetOf w names i)) hspells hwire hspells.stop_le
  constructor
  · rintro ⟨n, hparse, -⟩
    by_contra hlinks
    obtain ⟨error, herror⟩ := hlong (not_le.mp hlinks)
    rw [herror] at hparse
    cases hparse
  · intro hlinks
    exact ⟨hspells.name hwire, hshort hlinks, (eqIgnoreCase_iff _ _).mpr hlower⟩

/-- The name of `k` labels `a`, `b`, `c`, … with the last letter in front. -/
def ladder (k : ℕ) (h : k ≤ 26) : Name where
  labels := ((List.range k).map fun i => [UInt8.ofNat (97 + i)]).reverse
  label_len := by simp
  wire_len := by
    have htwo : (fun label : Bytes => label.length + 1) ∘ (fun i => [UInt8.ofNat (97 + i)]) =
      fun _ => 2 := rfl
    rw [wireLen, List.map_reverse, List.sum_reverse, List.map_map, htwo, List.map_const',
      List.sum_replicate, List.length_range, smul_eq_mul]
    exact Nat.le_trans (Nat.add_le_add_right (Nat.mul_le_mul_right 2 h) 1) (by decide)

/-- Names in which each adds one label in front of the one before. -/
def ladders (k : ℕ) (h : k ≤ 26) : List Name :=
  (List.finRange k).map fun i : Fin k => ladder (i.val + 1) (Nat.le_trans i.isLt h)

theorem names_read_back_ladders : ReadsBack (Writer.new fun _ => 0) (ladders 3 (by decide)) :=
  (names_read_back_iff (.new _ _) (by decide +kernel)).mpr (by decide +kernel)

/-- The 22nd name of a ladder ends in a chain of 21 pointers, which `parse` does
not follow. -/
theorem ladder_not_read_back :
    (encodeNames (Writer.new fun _ => 0) (ladders 22 (by decide))).error = none ∧
      ¬ ReadsBack (Writer.new fun _ => 0) (ladders 22 (by decide)) := by
  refine ⟨by decide +kernel, fun h => ?_⟩
  obtain ⟨n, hparse, -⟩ := h ⟨21, by decide⟩
  have herror : (Name.parse (.at' (encodeNames (.new fun _ => 0)
      (ladders 22 (by decide))).buf (offsetOf (.new fun _ => 0)
      (ladders 22 (by decide)) 21))).toBool = false := by decide +kernel
  rw [hparse] at herror
  cases herror

end OnetDns.Dns
