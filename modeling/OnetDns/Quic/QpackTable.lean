import OnetDns.Quic.QpackCodec

/-!
# The dynamic table over an instruction stream

Every instruction slides the table along one growing list of entries: some are added at the
new end and some dropped at the old one, and an entry keeps its absolute index. So two
tables of one stream agree on every entry that both still hold.
-/
namespace OnetDns.Quic.Qpack
open List Option DynamicTable

open OnetDns.Instructions (drain drain_keeps drain_append drain_rest)

def totalSize (fields : List Field) : ℕ := (fields.map entrySize).sum

@[simp] lemma totalSize_nil : totalSize [] = 0 := rfl

@[simp] lemma totalSize_cons (f : Field) (fields : List Field) :
    totalSize (f :: fields) = entrySize f + totalSize fields := rfl

@[simp] lemma totalSize_append (fields fields' : List Field) :
    totalSize (fields ++ fields') = totalSize fields + totalSize fields' := by
  simp [totalSize]

lemma overhead_mul_length_le (fields : List Field) :
    entryOverhead * fields.length ≤ totalSize fields := by
  induction fields with
  | nil => simp
  | cons f fields ih =>
    simp only [length_cons, totalSize_cons, entrySize, mul_add]
    omega

namespace DynamicTable

/-- The counters of the table fit its entries. -/
structure Sound (maxCapacity : ℕ) (t : DynamicTable) : Prop where
  counted : t.entries.length ≤ t.insertCount
  sized : t.size = totalSize t.entries
  fits : t.size ≤ t.capacity
  allowed : t.capacity ≤ maxCapacity

lemma sound_empty (maxCapacity : ℕ) : Sound maxCapacity {} := ⟨le_rfl, rfl, le_rfl, Nat.zero_le _⟩

/-- Entries were added at the new end and dropped at the old one. -/
def Slides (t t' : DynamicTable) : Prop :=
  ∃ added dropped, t.entries ++ added = dropped ++ t'.entries ∧
    t'.insertCount = t.insertCount + added.length

lemma Slides.refl (t : DynamicTable) : Slides t t := ⟨[], [], by simp, rfl⟩

lemma Slides.trans {t t' t'' : DynamicTable} (h : Slides t t') (h' : Slides t' t'') :
    Slides t t'' := by
  obtain ⟨added, dropped, heq, hcount⟩ := h
  obtain ⟨added', dropped', heq', hcount'⟩ := h'
  refine ⟨added ++ added', dropped ++ dropped', ?_, ?_⟩
  · rw [← append_assoc, heq, append_assoc, heq', append_assoc]
  · rw [hcount', hcount, length_append, add_assoc]

variable {t t' : DynamicTable}

lemma Slides.insertCount_le (h : Slides t t') : t.insertCount ≤ t'.insertCount := by
  obtain ⟨added, -, -, hcount⟩ := h
  omega

lemma Slides.oldest_eq (hcounted : t.entries.length ≤ t.insertCount)
    {added dropped : List Field} (heq : t.entries ++ added = dropped ++ t'.entries)
    (hcount : t'.insertCount = t.insertCount + added.length) :
    t'.oldest = t.oldest + dropped.length := by
  have hlen := congrArg length heq
  simp only [length_append] at hlen
  simp only [oldest]
  omega

variable {abs : ℕ}

lemma getAbs_eq {t : DynamicTable} (hcounted : t.entries.length ≤ t.insertCount)
    (habs : t.oldest ≤ abs) : t.getAbs abs = t.entries[abs - t.oldest]? := by
  simp only [getAbs]
  split_ifs with h
  · symm
    rw [getElem?_eq_none_iff]
    simp only [oldest] at h ⊢ habs
    omega
  · rfl

lemma getAbs_isSome {t : DynamicTable} {f : Field} (h : t.getAbs abs = some f) :
    t.oldest ≤ abs ∧ abs < t.insertCount := by
  simp only [getAbs] at h
  split_ifs at h
  omega

/-- An entry that was inserted before and is not evicted after has one meaning. -/
theorem Slides.getAbs_eq (hcounted : t.entries.length ≤ t.insertCount)
    (hcounted' : t'.entries.length ≤ t'.insertCount) (h : Slides t t')
    (hold : t'.oldest ≤ abs) (hnew : abs < t.insertCount) : t'.getAbs abs = t.getAbs abs := by
  obtain ⟨added, dropped, heq, hcount⟩ := h
  have holdest := oldest_eq hcounted heq hcount
  rw [DynamicTable.getAbs_eq hcounted' hold, DynamicTable.getAbs_eq hcounted (by omega)]
  have hleft : (t.entries ++ added)[abs - t.oldest]? = t.entries[abs - t.oldest]? := by
    rw [getElem?_append_left]
    simp only [oldest] at holdest ⊢ hold
    omega
  have hright : (dropped ++ t'.entries)[abs - t.oldest]? = t'.entries[abs - t'.oldest]? := by
    rw [getElem?_append_right (by omega)]
    congr 1
    omega
  rw [← hleft, heq, hright]

lemma evictAbove_spec (room : ℕ) (entries : List Field) :
    ∃ dropped, entries = dropped ++ (evictAbove room entries (totalSize entries)).1 ∧
      (evictAbove room entries (totalSize entries)).2 =
        totalSize (evictAbove room entries (totalSize entries)).1 ∧
      (evictAbove room entries (totalSize entries)).2 ≤ room := by
  induction entries with
  | nil => exact ⟨[], by simp [evictAbove]⟩
  | cons e entries ih =>
    obtain ⟨dropped, heq, hsize, hroom⟩ := ih
    simp only [evictAbove]
    split_ifs with h
    · have hsub : totalSize (e :: entries) - entrySize e = totalSize entries := by
        simp
      rw [hsub]
      exact ⟨e :: dropped, by rw [cons_append, ← heq], hsize, hroom⟩
    · exact ⟨[], rfl, rfl, by omega⟩

lemma evictAbove_longest {room : ℕ} {entries l : List Field} (hl : l <:+ entries)
    (hfits : totalSize l ≤ room) : l <:+ (evictAbove room entries (totalSize entries)).1 := by
  induction entries with
  | nil => exact hl
  | cons e entries ih =>
    simp only [evictAbove]
    split_ifs with h
    · rw [totalSize_cons, Nat.add_sub_cancel_left]
      rcases suffix_cons_iff.mp hl with rfl | hl
      · exact absurd hfits (not_le.mpr h)
      · exact ih hl
    · exact hl

variable {maxCapacity cap : ℕ} {t t' : DynamicTable} {f : Field}

lemma setCapacity_sound (h : Sound maxCapacity t) (hcap : cap ≤ maxCapacity) :
    Sound maxCapacity (t.setCapacity cap) ∧ Slides t (t.setCapacity cap) := by
  obtain ⟨dropped, heq, hsize, hroom⟩ := evictAbove_spec cap t.entries
  rw [← h.sized] at heq hsize hroom
  refine ⟨⟨?_, hsize, hroom, hcap⟩, [], dropped, by rw [append_nil]; exact heq, rfl⟩
  have hlen := congrArg length heq
  have := h.counted
  simp only [length_append] at hlen
  simp only [setCapacity]
  omega

lemma insert_inv (h : t.insert f = some t') : entrySize f ≤ t.capacity ∧
      t' = { t with
        entries := (evictAbove (t.capacity - entrySize f) t.entries t.size).1 ++ [f]
        size := (evictAbove (t.capacity - entrySize f) t.entries t.size).2 + entrySize f
        insertCount := t.insertCount + 1 } := by
  simp only [insert] at h
  split_ifs at h with h₁ h₂
  exact ⟨by omega, (some.inj h).symm⟩

section

variable (h : Sound maxCapacity t)
include h

lemma insert_sound (hins : t.insert f = some t') : Sound maxCapacity t' ∧ Slides t t' := by
  obtain ⟨hfits, rfl⟩ := insert_inv hins
  obtain ⟨dropped, heq, hsize, hroom⟩ := evictAbove_spec (t.capacity - entrySize f) t.entries
  rw [← h.sized] at heq hsize hroom
  have hlen := congrArg length heq
  have hcounted := h.counted
  simp only [length_append] at hlen
  refine ⟨⟨?_, ?_, ?_, h.allowed⟩, [f], dropped, ?_, rfl⟩
  · simp only [length_append, length_cons, length_nil]
    omega
  · simp only [totalSize_append, totalSize_cons, totalSize_nil, hsize, add_zero]
  · simp only
    omega
  · rw [← append_assoc, ← heq]

lemma apply_sound {i : Instruction}
    (happly : t.apply maxCapacity i = some t') : Sound maxCapacity t' ∧ Slides t t' := by
  cases i with
  | insertStatic idx value =>
    obtain ⟨entry, -, hins⟩ := bind_eq_some_iff.1 happly
    exact insert_sound h hins
  | insertRelative idx value =>
    obtain ⟨entry, -, hins⟩ := bind_eq_some_iff.1 happly
    exact insert_sound h hins
  | insertLiteral name value => exact insert_sound h happly
  | setCapacity cap =>
    simp only [apply] at happly
    split_ifs at happly with hcap
    obtain rfl := some.inj happly
    exact setCapacity_sound h (by omega)
  | duplicate idx =>
    obtain ⟨entry, -, hins⟩ := bind_eq_some_iff.1 happly
    exact insert_sound h hins

lemma Sound.length_le : t.entries.length ≤ maxCapacity / entryOverhead := by
  rw [Nat.le_div_iff_mul_le (by simp [entryOverhead]), mul_comm]
  calc entryOverhead * t.entries.length ≤ totalSize t.entries := overhead_mul_length_le _
    _ = t.size := h.sized.symm
    _ ≤ maxCapacity := h.fits.trans h.allowed

lemma drain_sound {buf rest : Bytes}
    (hdrain : drain (lookInstruction maxCapacity) t buf = some (t', rest)) :
    Sound maxCapacity t' ∧ Slides t t' := by
  refine drain_keeps (P := fun t₁ => Sound maxCapacity t₁ ∧ Slides t t₁)
    (lookInstruction_stable maxCapacity) (fun s buf s' rest hs hlook => ?_)
    ⟨h, .refl t⟩ hdrain
  obtain ⟨i, -, happly⟩ := lookWith_take_iff.1 hlook
  obtain ⟨hsound, hslides⟩ := apply_sound hs.1 happly
  exact ⟨hsound, hs.2.trans hslides⟩

end

end DynamicTable

namespace Decoder

def new (maxCapacity : ℕ) : Decoder := { maxCapacity }

/-- The decoder after it took the pieces one after another. -/
def receive (d : Decoder) (chunks : List Bytes) : Option Decoder := chunks.foldlM onEncoderStream d

lemma onEncoderStream_inv {d d' : Decoder} {data : Bytes} (h : d.onEncoderStream data = some d') :
    d.encBuf.length + data.length ≤ maxBuffer ∧ d'.maxCapacity = d.maxCapacity ∧
      drain (lookInstruction d.maxCapacity) d.table (d.encBuf ++ data) =
        some (d'.table, d'.encBuf) ∧
      d'.out = d.out ++ if 0 < d'.table.insertCount - d.table.insertCount then
        pushInt (d'.table.insertCount - d.table.insertCount) 6 0 else [] := by
  simp only [onEncoderStream] at h
  split_ifs at h with hlen
  obtain ⟨⟨t, rest⟩, hdrain, hout⟩ := bind_eq_some_iff.1 h
  obtain rfl := some.inj hout
  exact ⟨by omega, rfl, hdrain, rfl⟩

/-- What a decoder holds is what the bytes it took spell, however they were cut. -/
theorem receive_eq_drain {d d' : Decoder} {chunks : List Bytes}
    (hrest : drain (lookInstruction d.maxCapacity) d.table d.encBuf = some (d.table, d.encBuf))
    (h : d.receive chunks = some d') : d'.maxCapacity = d.maxCapacity ∧
      drain (lookInstruction d.maxCapacity) d.table (d.encBuf ++ chunks.flatten) =
        some (d'.table, d'.encBuf) := by
  induction chunks generalizing d with
  | nil =>
    obtain rfl := some.inj h
    exact ⟨rfl, by simpa using hrest⟩
  | cons data chunks ih =>
    obtain ⟨d₁, hd₁, hreceive⟩ := bind_eq_some_iff.1 (by simpa [receive] using h)
    obtain ⟨-, hcap, hdrain, -⟩ := onEncoderStream_inv hd₁
    have hstable := lookInstruction_stable d.maxCapacity
    obtain ⟨hcap', hrun⟩ := ih (by rw [hcap]; exact drain_rest hstable hdrain) hreceive
    refine ⟨hcap'.trans hcap, ?_⟩
    rw [flatten_cons, ← append_assoc, drain_append hstable, hdrain]
    rwa [hcap] at hrun

/-- Two prefixes of one stream lead to tables that are states of one slide. -/
theorem receive_slides {maxCapacity : ℕ} {chunks₁ chunks₂ : List Bytes} {d₁ d₂ : Decoder}
    (h₁ : (new maxCapacity).receive chunks₁ = some d₁)
    (h₂ : (new maxCapacity).receive chunks₂ = some d₂) (hpre : chunks₁.flatten <+: chunks₂.flatten)
    : (d₁.table.Sound maxCapacity ∧ d₁.maxCapacity = maxCapacity) ∧
      (d₂.table.Sound maxCapacity ∧ d₂.maxCapacity = maxCapacity) ∧ d₁.table.Slides d₂.table := by
  obtain ⟨hcap₁, hrun₁⟩ := receive_eq_drain (Instructions.drain_nil _) h₁
  obtain ⟨hcap₂, hrun₂⟩ := receive_eq_drain (Instructions.drain_nil _) h₂
  obtain ⟨tail, htail⟩ := hpre
  simp only [new, nil_append] at hrun₁ hrun₂ hcap₁ hcap₂
  have hsound := sound_empty maxCapacity
  obtain ⟨hsound₁, -⟩ := drain_sound hsound hrun₁
  rw [← htail, drain_append (lookInstruction_stable maxCapacity), hrun₁] at hrun₂
  obtain ⟨hsound₂, hslides⟩ := drain_sound hsound₁ hrun₂
  exact ⟨⟨hsound₁, hcap₁⟩, ⟨hsound₂, hcap₂⟩, hslides⟩

end Decoder

end OnetDns.Quic.Qpack
