import OnetDns.Quic.Qpack

/-!
# Reading what QPACK writes

A reader is steady when its verdict does not change as bytes follow, which is what lets the
two instruction streams be cut anywhere. Integers and strings are read back from what
`push_int` and `push_string` write.
-/
namespace OnetDns.Quic.Qpack
open List Nat

open OnetDns.Instructions (Look Stable)

structure Steady {α : Type} (r : Bytes → StreamParse α) : Prop where
  done : ∀ buf tail v rest, r buf = .done v rest → r (buf ++ tail) = .done v (rest ++ tail)
  invalid : ∀ buf tail, r buf = .invalid → r (buf ++ tail) = .invalid
  within : ∀ buf v rest, r buf = .done v rest → rest.length ≤ buf.length

namespace Steady

variable {α β : Type}

lemma pure (v : α) : Steady (StreamParse.done v) where
  done _ _ _ _ h := by cases h; rfl
  invalid _ _ h := by cases h
  within _ _ _ h := by cases h; exact le_rfl

lemma fail : Steady fun _ : Bytes => (.invalid : StreamParse α) where
  done _ _ _ _ h := by cases h
  invalid _ _ _ := rfl
  within _ _ _ h := by cases h

lemma bind {r : Bytes → StreamParse α} {next : α → Bytes → StreamParse β} (hr : Steady r)
    (hnext : ∀ v, Steady (next v)) : Steady fun buf => (r buf).bind next where
  done buf tail v rest h := by
    cases hread : r buf with
    | done w mid =>
      simp only [hread] at h
      simp only [hr.done buf tail w mid hread]
      exact (hnext w).done mid tail v rest h
    | incomplete => simp [hread, StreamParse.bind] at h
    | invalid => simp [hread, StreamParse.bind] at h
  invalid buf tail h := by
    cases hread : r buf with
    | done w mid =>
      simp only [hread] at h
      simp only [hr.done buf tail w mid hread]
      exact (hnext w).invalid mid tail h
    | incomplete => simp [hread, StreamParse.bind] at h
    | invalid => simp [hr.invalid buf tail hread, StreamParse.bind]
  within buf v rest h := by
    cases hread : r buf with
    | done w mid =>
      simp only [hread] at h
      exact ((hnext w).within mid v rest h).trans (hr.within buf w mid hread)
    | incomplete => simp [hread, StreamParse.bind] at h
    | invalid => simp [hread, StreamParse.bind] at h

lemma byFirst {r : Bytes → StreamParse α} {choose : UInt8 → Bytes → StreamParse α}
    (hnil : r [] = .incomplete) (hcons : ∀ b rest, r (b :: rest) = choose b (b :: rest))
    (hchoose : ∀ b, Steady (choose b)) : Steady r where
  done buf tail v rest h := by
    cases buf with
    | nil => simp [hnil] at h
    | cons b buf =>
      rw [hcons] at h
      rw [cons_append, hcons]
      exact (hchoose b).done (b :: buf) tail v rest h
  invalid buf tail h := by
    cases buf with
    | nil => simp [hnil] at h
    | cons b buf =>
      rw [hcons] at h
      rw [cons_append, hcons]
      exact (hchoose b).invalid (b :: buf) tail h
  within buf v rest h := by
    cases buf with
    | nil => simp [hnil] at h
    | cons b buf =>
      rw [hcons] at h
      exact (hchoose b).within (b :: buf) v rest h

end Steady

lemma readIntTail_steady (val m : ℕ) : Steady (readIntTail val m) := by
  refine ⟨fun buf => ?_, fun buf => ?_, fun buf => ?_⟩
  · induction buf generalizing val m with
    | nil => intro tail v rest h; simp [readIntTail] at h
    | cons b buf ih =>
      intro tail v rest h
      simp only [cons_append, readIntTail] at h ⊢
      split_ifs at h ⊢ with h₁ h₂ h₃ h₄
      · cases h; rfl
      · exact ih _ _ tail v rest h
  · induction buf generalizing val m with
    | nil => intro tail h; simp [readIntTail] at h
    | cons b buf ih =>
      intro tail h
      simp only [cons_append, readIntTail] at h ⊢
      split_ifs at h ⊢ with h₁ h₂ h₃ h₄
      · rfl
      · rfl
      · rfl
      · exact ih _ _ tail h
  · induction buf generalizing val m with
    | nil => intro v rest h; simp [readIntTail] at h
    | cons b buf ih =>
      intro v rest h
      simp only [readIntTail] at h
      split_ifs at h with h₁ h₂ h₃ h₄
      · cases h; simp
      · exact (ih _ _ v rest h).trans (by simp)

variable {bits : ℕ}

lemma readStreamInt_steady (hbits : 1 ≤ bits ∧ bits ≤ 8) : Steady (readStreamInt bits) := by
  refine ⟨fun buf tail v rest h => ?_, fun buf tail h => ?_, fun buf v rest h => ?_⟩
  · cases buf with
    | nil => simp [readStreamInt, hbits] at h
    | cons b buf =>
      simp only [cons_append, readStreamInt] at h ⊢
      split_ifs at h ⊢ with hval
      · cases h; rfl
      · exact (readIntTail_steady _ _).done buf tail v rest h
  · cases buf with
    | nil => simp [readStreamInt, hbits] at h
    | cons b buf =>
      simp only [cons_append, readStreamInt] at h ⊢
      split_ifs at h ⊢ with hval
      exact (readIntTail_steady _ _).invalid buf tail h
  · cases buf with
    | nil => simp [readStreamInt, hbits] at h
    | cons b buf =>
      simp only [readStreamInt] at h
      split_ifs at h with hval
      · cases h; simp
      · exact ((readIntTail_steady _ _).within buf v rest h).trans (by simp)

lemma readStreamInt_shorter {v : ℕ} {buf rest : Bytes}
    (h : readStreamInt bits buf = .done v rest) : rest.length < buf.length := by
  cases buf with
  | nil =>
    simp only [readStreamInt] at h
    split_ifs at h
  | cons b buf =>
    simp only [readStreamInt] at h
    split_ifs at h with hbits hval
    · cases h; simp
    · exact lt_succ_of_le ((readIntTail_steady _ _).within buf v rest h)

lemma readBytes_steady (len : ℕ) : Steady (readBytes len) := by
  refine ⟨fun buf tail v rest h => ?_, fun buf tail h => ?_, fun buf v rest h => ?_⟩
  · simp only [readBytes] at h
    split_ifs at h with hlen
    cases h
    have hlen' : len ≤ (buf ++ tail).length := by simp; omega
    simp only [readBytes, if_pos hlen', take_append_of_le_length hlen,
      drop_append_of_le_length hlen]
  · simp only [readBytes] at h
    split_ifs at h
  · simp only [readBytes] at h
    split_ifs at h
    cases h
    simp

lemma readCoded_steady (huff : Bool) (len : ℕ) : Steady (readCoded huff len) := by
  refine (readBytes_steady len).bind fun bytes => ?_
  split_ifs
  · cases Http2.Huffman.decode bytes with
    | some value => exact .pure value
    | none => exact .fail
  · exact .pure bytes

lemma readText_steady (hbits : 1 ≤ bits ∧ bits ≤ 8) : Steady (readText bits) := by
  refine .byFirst rfl (fun b rest => ?_) fun b =>
    (readStreamInt_steady hbits).bind (readCoded_steady (b.toNat / 2 ^ bits % 2 = 1))
  rfl

lemma readStreamString_steady : Steady readStreamString := readText_steady (by omega)

/-- What is read has at least one byte. -/
def Consumes {α : Type} (r : Bytes → StreamParse α) : Prop :=
  ∀ buf v rest, r buf = .done v rest → rest.length < buf.length

lemma Consumes.bind {α β : Type} {r : Bytes → StreamParse α}
    {next : α → Bytes → StreamParse β} (hr : Consumes r) (hnext : ∀ v, Steady (next v)) :
    Consumes fun buf => (r buf).bind next := by
  intro buf v rest h
  cases hread : r buf with
  | done w mid =>
    simp only [hread] at h
    exact ((hnext w).within mid v rest h).trans_lt (hr buf w mid hread)
  | incomplete => simp [hread, StreamParse.bind] at h
  | invalid => simp [hread, StreamParse.bind] at h

lemma readStreamInt_consumes (bits : ℕ) : Consumes (readStreamInt bits) :=
  fun _ _ _ => readStreamInt_shorter

lemma readText_consumes (bits : ℕ) : Consumes (readText bits) := by
  intro buf v rest h
  cases buf with
  | nil => simp [readText] at h
  | cons b buf =>
    exact (readStreamInt_consumes bits).bind (readCoded_steady _) (b :: buf) v rest h

variable (b : UInt8)

lemma readInstruction_cons (rest : Bytes) :
    readInstruction (b :: rest) = readInstructionAs b (b :: rest) := rfl

lemma readInstructionAs_steady : Steady (readInstructionAs b) := by
  unfold readInstructionAs
  split_ifs
  · exact (readStreamInt_steady (by omega)).bind fun idx =>
      readStreamString_steady.bind fun value => .pure _
  · exact (readStreamInt_steady (by omega)).bind fun idx =>
      readStreamString_steady.bind fun value => .pure _
  · exact (readText_steady (by omega)).bind fun name =>
      readStreamString_steady.bind fun value => .pure _
  · exact (readStreamInt_steady (by omega)).bind fun cap => .pure _
  · exact (readStreamInt_steady (by omega)).bind fun idx => .pure _

lemma readInstructionAs_consumes : Consumes (readInstructionAs b) := by
  unfold readInstructionAs
  split_ifs
  · exact (readStreamInt_consumes 6).bind fun idx =>
      readStreamString_steady.bind fun value => .pure _
  · exact (readStreamInt_consumes 6).bind fun idx =>
      readStreamString_steady.bind fun value => .pure _
  · exact (readText_consumes 5).bind fun name =>
      readStreamString_steady.bind fun value => .pure _
  · exact (readStreamInt_consumes 5).bind fun cap => .pure _
  · exact (readStreamInt_consumes 5).bind fun idx => .pure _

lemma readInstruction_steady : Steady readInstruction :=
  .byFirst rfl readInstruction_cons readInstructionAs_steady

lemma readAcknowledgement_cons (rest : Bytes) :
    readAcknowledgement (b :: rest) = readAcknowledgementAs b (b :: rest) := rfl

lemma readAcknowledgementAs_steady : Steady (readAcknowledgementAs b) := by
  unfold readAcknowledgementAs
  split_ifs <;> exact (readStreamInt_steady (by omega)).bind fun _ => .pure _

lemma readAcknowledgementAs_consumes : Consumes (readAcknowledgementAs b) := by
  unfold readAcknowledgementAs
  split_ifs <;> exact (readStreamInt_consumes _).bind fun _ => .pure _

lemma readAcknowledgement_steady : Steady readAcknowledgement :=
  .byFirst rfl readAcknowledgement_cons readAcknowledgementAs_steady

section LookWith

variable {σ ι : Type} {read : Bytes → StreamParse ι} {apply : σ → ι → Option σ} {s s' : σ}
  {buf rest : Bytes}

lemma lookWith_take_iff : lookWith read apply s buf = .take s' rest ↔
    ∃ i, read buf = .done i rest ∧ apply s i = some s' := by
  constructor
  · intro h
    simp only [lookWith] at h
    split at h <;> try contradiction
    rename_i i mid hread
    split at h <;> try contradiction
    rename_i s₁ happly
    obtain ⟨rfl, rfl⟩ := h
    exact ⟨i, hread, happly⟩
  · rintro ⟨i, hread, happly⟩
    simp [lookWith, hread, happly]

lemma lookWith_reject_iff : lookWith read apply s buf = .reject ↔
    read buf = .invalid ∨ ∃ i rest, read buf = .done i rest ∧ apply s i = none := by
  constructor
  · intro h
    simp only [lookWith] at h
    split at h <;> try contradiction
    · exact .inl ‹_›
    · rename_i i mid hread
      split at h <;> try contradiction
      exact .inr ⟨i, mid, hread, ‹_›⟩
  · rintro (hread | ⟨i, mid, hread, happly⟩)
    · simp [lookWith, hread]
    · simp [lookWith, hread, happly]

/-- A loop that reads an instruction steadily and then applies it is stable. -/
theorem lookWith_stable (hr : Steady read) (hshort : Consumes read) :
    Stable (lookWith read apply) where
  reject s buf tail h := by
    rw [lookWith_reject_iff] at h ⊢
    obtain hread | ⟨i, rest, hread, happly⟩ := h
    · exact .inl (hr.invalid buf tail hread)
    · exact .inr ⟨i, rest ++ tail, hr.done buf tail i rest hread, happly⟩
  take s buf tail s' rest h := by
    rw [lookWith_take_iff] at h ⊢
    obtain ⟨i, hread, happly⟩ := h
    exact ⟨i, hr.done buf tail i rest hread, happly⟩
  shorter s buf s' rest h := by
    obtain ⟨i, hread, -⟩ := lookWith_take_iff.1 h
    exact hshort buf i rest hread

end LookWith

lemma readInstruction_consumes : Consumes readInstruction := by
  intro buf v rest h
  cases buf with
  | nil => simp [readInstruction] at h
  | cons b buf => exact readInstructionAs_consumes b (b :: buf) v rest h

lemma readAcknowledgement_consumes : Consumes readAcknowledgement := by
  intro buf v rest h
  cases buf with
  | nil => simp [readAcknowledgement] at h
  | cons b buf => exact readAcknowledgementAs_consumes b (b :: buf) v rest h

lemma lookInstruction_stable (maxCapacity : ℕ) : Stable (lookInstruction maxCapacity) :=
  lookWith_stable readInstruction_steady readInstruction_consumes

lemma lookAcknowledgement_stable (insertCount : ℕ) : Stable (lookAcknowledgement insertCount) :=
  lookWith_stable readAcknowledgement_steady readAcknowledgement_consumes

lemma readIntTail_pushIntTail {fuel k val v : ℕ} {rest : Bytes} (hfuel : k + fuel = 9)
    (hk : k ≤ 8) (hv : v * 2 ^ (7 * k) < 2 ^ 63) (hsum : val + v * 2 ^ (7 * k) ≤ u64Max) :
    readIntTail val (7 * k) (pushIntTail fuel v ++ rest) = .done (val + v * 2 ^ (7 * k)) rest := by
  induction fuel generalizing k val v with
  | zero => omega
  | succ fuel ih =>
    have hroom : ∀ low < 128, ¬ (64 ≤ 7 * k ∨ u64Max / 2 ^ (7 * k) < low) := by
      intro low hlow
      have hpow : (2 : ℕ) ^ (7 * k) ≤ 2 ^ 56 := Nat.pow_le_pow_right (by omega) (by omega)
      have hdiv : 128 ≤ u64Max / 2 ^ (7 * k) := by
        rw [le_div_iff_mul_le (by positivity)]
        calc 128 * 2 ^ (7 * k) ≤ 128 * 2 ^ 56 := mul_le_mul_left _ hpow
          _ ≤ u64Max := by norm_num [u64Max]
      omega
    simp only [pushIntTail]
    split_ifs with hbig
    · have hbyte : (UInt8.ofNat (v % 128 + 128)).toNat = v % 128 + 128 := by
        rw [UInt8.toNat_ofNat']
        omega
      have hlow : (v % 128 + 128) % 128 = v % 128 := by omega
      have hcont : (v % 128 + 128) / 128 % 2 = 1 := by omega
      -- a further byte is due, so the shift is not at its end yet
      have hk' : k ≤ 7 := by
        by_contra hge
        obtain rfl : k = 8 := by omega
        norm_num at hv
        omega
      have hsplit : v % 128 * 2 ^ (7 * k) + v / 128 * 2 ^ (7 * (k + 1)) = v * 2 ^ (7 * k) := by
        calc v % 128 * 2 ^ (7 * k) + v / 128 * 2 ^ (7 * (k + 1))
            = (128 * (v / 128) + v % 128) * 2 ^ (7 * k) := by rw [mul_add]; ring
          _ = v * 2 ^ (7 * k) := by rw [div_add_mod]
      simp only [cons_append, readIntTail, hbyte, hlow]
      rw [if_neg (hroom _ (mod_lt _ (by omega))), if_neg (by omega), if_neg (by omega),
        if_neg (by omega), show 7 * k + 7 = 7 * (k + 1) by omega,
        ih (by omega) (by omega) (by omega) (by omega), add_assoc, hsplit]
    · have hbyte : (UInt8.ofNat v).toNat = v := by
        rw [UInt8.toNat_ofNat']
        omega
      have hlow : v % 128 = v := by omega
      have hlast : v / 128 % 2 = 0 := by omega
      simp only [cons_append, nil_append, readIntTail, hbyte, hlow, hlast]
      rw [if_neg (hroom v (by omega)), if_neg (by omega), if_pos trivial]

lemma pushInt_cons (v bits flags : ℕ) :
    ∃ tail, pushInt v bits flags = UInt8.ofNat (flags + min v (2 ^ bits - 1)) :: tail := by
  simp only [pushInt]
  split_ifs with h
  · exact ⟨[], by rw [min_eq_left h.le]⟩
  · exact ⟨pushIntTail 9 (v - (2 ^ bits - 1)), by rw [min_eq_right (by omega)]⟩

lemma readStreamInt_pushInt {flags v : ℕ} {rest : Bytes} (hbits : 1 ≤ bits ∧ bits ≤ 8)
    (hflags : flags % 2 ^ bits = 0) (hbyte : flags + (2 ^ bits - 1) < 256) (hv : v < 2 ^ 63) :
    readStreamInt bits (pushInt v bits flags ++ rest) = .done v rest := by
  have hfirst : ∀ w ≤ 2 ^ bits - 1, (UInt8.ofNat (flags + w)).toNat % 2 ^ bits = w := by
    intro w hw
    rw [UInt8.toNat_ofNat', mod_eq_of_lt (by omega : flags + w < 2 ^ 8), add_mod, hflags,
      zero_add, mod_mod, mod_eq_of_lt (by omega)]
  simp only [pushInt]
  split_ifs with hsmall
  · simp only [cons_append, nil_append, readStreamInt, if_pos hbits,
      hfirst v (by omega), if_pos hsmall]
  have htail := @readIntTail_pushIntTail 9 0 (2 ^ bits - 1) (v - (2 ^ bits - 1)) rest rfl
    (by omega) (by simp only [mul_zero]; omega)
    (by simp only [u64Max]; omega)
  simp only [cons_append, readStreamInt, if_pos hbits, hfirst _ le_rfl, lt_irrefl,
    if_false] at htail ⊢
  rw [htail]
  congr 1
  omega

end OnetDns.Quic.Qpack
