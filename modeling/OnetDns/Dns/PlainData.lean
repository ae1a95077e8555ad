import OnetDns.Dns.Reading

/-!
# Record data without compressed names

Most types of record data are written as a fixed string of bytes, wherever they
stand in the message. `Appends` says that an encoder adds a given string if its
parts fit the format and the limit of the writer leaves room, and fails otherwise.
-/
namespace OnetDns.Dns
open List Writer

/-- `enc` adds `bytes` when `valid` holds and there is room, and else fails. -/
structure Appends (enc : Writer → Writer) (valid : Prop) (bytes : Bytes) : Prop where
  failed : ∀ {w}, w.error ≠ none → (enc w).error ≠ none
  done : ∀ {w}, w.error = none → valid → w.buf.length + bytes.length ≤ w.limit →
    enc w = { w with buf := w.buf ++ bytes }
  refused : ∀ {w}, w.buf.length ≤ w.limit → ¬ (valid ∧ w.buf.length + bytes.length ≤ w.limit) →
    (enc w).error ≠ none

open Appends

lemma Writer.fail_error (w : Writer) (text : String) : (w.fail text).error ≠ none := by
  unfold fail
  split
  · simp
  · rename_i h
    simpa using h

namespace Appends

variable {enc enc' : Writer → Writer} {valid valid' : Prop} {bytes bytes' : Bytes}

lemma pushBytes (bytes : Bytes) : Appends (·.pushBytes bytes) True bytes := by
  refine ⟨?_, ?_, ?_⟩
  · intro w h
    rwa [pushBytes_failed h]
  · intro w h _ hfit
    simp [Writer.pushBytes, h, if_neg (not_lt.mpr hfit)]
  intro w _ h
  have hroom : w.limit < w.buf.length + bytes.length := by
    simpa using h
  unfold Writer.pushBytes
  split
  · rename_i herr
    exact Option.isSome_iff_ne_none.mp herr
  · exact fail_error _ _

lemma pushU8 (v : UInt8) : Appends (·.pushU8 v) True [v] := pushBytes _
lemma pushU16 (v : UInt16) : Appends (·.pushU16 v) True (be16 v) := pushBytes _
lemma pushU32 (v : UInt32) : Appends (·.pushU32 v) True (be32 v) := pushBytes _

lemma nothing : Appends (fun w => w) True [] := by
  refine ⟨id, ?_, ?_⟩
  · intro w _ _ _
    rw [append_nil]
  · intro w hle h
    exact absurd ⟨trivial, hle⟩ h

/-- One encoder after the other. -/
theorem comp (h : Appends enc valid bytes) (h' : Appends enc' valid' bytes') :
    Appends (fun w => enc' (enc w)) (valid ∧ valid') (bytes ++ bytes') := by
  refine ⟨fun herr => h'.failed (h.failed herr), ?_, ?_⟩
  · intro w herr hv hfit
    rw [length_append] at hfit
    have hsecond := h'.done (w := { w with buf := w.buf ++ bytes }) herr hv.2
      (by simp only [length_append]; omega)
    rw [h.done herr hv.1 (by omega), hsecond]
    simp
  intro w hle hbad
  by_cases hfirst : valid ∧ w.buf.length + bytes.length ≤ w.limit
  · by_cases herr : w.error = none
    · rw [h.done herr hfirst.1 hfirst.2]
      refine h'.refused (by simp only [length_append]; exact hfirst.2) ?_
      rintro ⟨hv', hfit⟩
      simp only [length_append] at hfit
      exact hbad ⟨⟨hfirst.1, hv'⟩, by rw [length_append]; omega⟩
    · exact h'.failed (h.failed herr)
  · exact h'.failed (h.refused hle hfirst)

lemma guard (h : Appends enc valid bytes) (c : Prop) [Decidable c] (text : String) :
    Appends (fun w => if c then w.fail text else enc w) (¬ c ∧ valid) bytes := by
  by_cases hc : c
  · simp only [if_pos hc]
    refine ⟨fun _ => fail_error _ _, fun _ hv => absurd hc hv.1, ?_⟩
    intro w _ _
    exact fail_error _ _
  · simp only [not_false_eq_true, true_and, hc]
    exact h

lemma congr (h : Appends enc valid bytes) (hv : valid ↔ valid') (hb : bytes = bytes') :
    Appends enc valid' bytes' := by
  subst hb
  have : valid = valid' := propext hv
  rwa [← this]

end Appends

lemma writeCharString_appends (s : Bytes) :
    Appends (writeCharString · s) (s.length ≤ 255) (charString s) :=
  (((Appends.pushU8 _).comp (.pushBytes s)).guard _ _).congr (by simp) rfl

lemma writeChunks_appends (chunks : List Bytes) :
    Appends (writeChunks · chunks) (∀ c ∈ chunks, c.length ≤ 255) (chunks.flatMap charString) := by
  induction chunks with
  | nil => exact Appends.nothing.congr (by simp) rfl
  | cons c rest ih =>
    refine (((Appends.pushU8 _).comp (.pushBytes c)).comp ih |>.guard (255 < c.length) _).congr ?_ rfl
    simp

lemma writeParams_appends (params : List (UInt16 × Bytes)) :
    Appends (writeParams · params) (∀ param ∈ params, param.2.length ≤ 65535)
      (params.flatMap paramBytes) := by
  induction params with
  | nil => exact nothing.congr (by simp) rfl
  | cons param rest ih =>
    obtain ⟨key, value⟩ := param
    refine ((Appends.pushU16 key).comp ((((Appends.pushU16 _).comp (.pushBytes value)).comp
      ih).guard (65535 < value.length) "SVCB 매개변수가 65,535바이트를 넘었습니다")).congr ?_ ?_
    · simp
    · simp [paramBytes]

namespace RData

def plain : RData → Option Bytes
  | .a ip => some ip.bytes
  | .aaaa ip => some ip.bytes
  | .dname n => some n.wire
  | .txt chunks => some (chunks.flatMap charString)
  | .srv priority weight port target =>
    some (be16 priority ++ (be16 weight ++ (be16 port ++ target.wire)))
  | .caa flags tag value => some ([flags] ++ (charString tag ++ value))
  | .tlsa usage selector matching data => some ([usage] ++ ([selector] ++ ([matching] ++ data)))
  | .sshfp algorithm fpType fingerprint => some ([algorithm] ++ ([fpType] ++ fingerprint))
  | .naptr n => some (be16 n.order ++ (be16 n.preference ++ (charString n.flags ++
      (charString n.services ++ (charString n.regexp ++ n.replacement.wire)))))
  | .uri priority weight target => some (be16 priority ++ (be16 weight ++ target))
  | .svcb s | .https s => some (be16 s.priority ++ (s.target.wire ++ s.params.flatMap paramBytes))
  | .unknown _ bytes => some bytes
  | .ns _ | .cname _ | .ptr _ | .mx .. | .soa _ => none

/-- Every part fits the field that holds its length, and SVCB parameters are valid. -/
def Fits : RData → Prop
  | .txt chunks => ∀ c ∈ chunks, c.length ≤ 255
  | .caa _ tag _ => tag.length ≤ 255
  | .naptr n => n.flags.length ≤ 255 ∧ n.services.length ≤ 255 ∧ n.regexp.length ≤ 255
  | .svcb s | .https s => validateSvcbParams s.priority s.params = .ok () ∧
      ∀ param ∈ s.params, param.2.length ≤ 65535
  | _ => True

/-- Types with a variant of their own. -/
def typedTypes : List RecordType :=
  [.A, .AAAA, .NS, .CNAME, .DNAME, .PTR, .MX, .TXT, .SOA, .SRV, .CAA, .TLSA, .SSHFP, .NAPTR, .URI,
    .SVCB, .HTTPS]

/-- The variant is the one that `parse` builds for the type. -/
def Natural : RData → Prop
  | .unknown rtype _ => rtype ∉ typedTypes
  | _ => True

/-- `parse` does not refuse the type. -/
def Supported : RData → Prop
  | .unknown rtype _ => isUnsupportedNameBearing rtype = false
  | _ => True

lemma encodeSvcb_appends (s : Svcb) : Appends (encodeSvcb s)
    (validateSvcbParams s.priority s.params = .ok () ∧ ∀ param ∈ s.params, param.2.length ≤ 65535)
    (be16 s.priority ++ (s.target.wire ++ s.params.flatMap paramBytes)) := by
  have hbody : Appends (fun w => writeParams (s.target.encodeUncompressed (w.pushU16 s.priority))
      s.params) (∀ param ∈ s.params, param.2.length ≤ 65535)
      (be16 s.priority ++ (s.target.wire ++ s.params.flatMap paramBytes)) :=
    ((pushU16 s.priority).comp
      ((pushBytes s.target.wire).comp (writeParams_appends s.params))).congr (by simp) rfl
  unfold encodeSvcb
  cases hv : validateSvcbParams s.priority s.params with
  | error e =>
    refine ⟨fun _ => fail_error _ _, ?_, fun _ _ => fail_error _ _⟩
    rintro w _ ⟨h, -⟩
    cases h
  | ok u => exact hbody.congr (by simp) rfl

variable {bytes : Bytes}

lemma encode_appends {x : RData} (h : x.plain = some bytes) : Appends x.encode x.Fits bytes := by
  cases x with
  | a ip => cases h; exact .pushBytes _
  | aaaa ip => cases h; exact .pushBytes _
  | dname n => cases h; exact .pushBytes _
  | txt chunks => cases h; exact writeChunks_appends chunks
  | srv priority weight port target =>
    cases h
    exact ((pushU16 priority).comp ((pushU16 weight).comp
      ((pushU16 port).comp (.pushBytes target.wire)))).congr (by simp [Fits]) rfl
  | caa flags tag value =>
    cases h
    refine ((Appends.pushU8 flags).comp ((((Appends.pushU8 _).comp (.pushBytes tag)).comp
      (.pushBytes value)).guard (255 < tag.length) "CAA 태그가 255바이트를 넘었습니다")).congr ?_ rfl
    simp [Fits]
  | tlsa usage selector matching data =>
    cases h
    exact ((pushU8 usage).comp ((pushU8 selector).comp
      ((pushU8 matching).comp (.pushBytes data)))).congr (by simp [Fits]) rfl
  | sshfp algorithm fpType fingerprint =>
    cases h
    exact ((pushU8 algorithm).comp ((pushU8 fpType).comp
      (.pushBytes fingerprint))).congr (by simp [Fits]) rfl
  | naptr n =>
    cases h
    refine ((pushU16 n.order).comp ((pushU16 n.preference).comp
      ((writeCharString_appends n.flags).comp ((writeCharString_appends n.services).comp
        ((writeCharString_appends n.regexp).comp (.pushBytes n.replacement.wire)))))).congr ?_ rfl
    simp [Fits]
  | uri priority weight target =>
    cases h
    exact ((pushU16 priority).comp ((pushU16 weight).comp
      (.pushBytes target))).congr (by simp [Fits]) rfl
  | svcb s => cases h; exact encodeSvcb_appends s
  | https s => cases h; exact encodeSvcb_appends s
  | unknown rtype bytes => cases h; exact .pushBytes _
  | ns n => cases h
  | cname n => cases h
  | ptr n => cases h
  | mx preference exchange => cases h
  | soa s => cases h

section Parse

lemma parseRest_restores {rdlen used : ℕ} (hlen : rdlen = used + bytes.length) :
    Restores (parseRest rdlen used) bytes bytes := by
  intro buf pos limit h hl
  rw [parseRest, if_neg (by omega), show rdlen - used = bytes.length by omega]
  exact bytes_restores bytes h hl

lemma parseNaptr_restores {n : Naptr} (hfit : (RData.naptr n).Fits)
    (hplain : (RData.naptr n).plain = some bytes) : Restores parseNaptr bytes n := by
  cases hplain
  obtain ⟨hflags, hservices, hregexp⟩ := hfit
  exact (u16_restores _).bind ((u16_restores _).bind ((readCharString_restores hflags).bind
    ((readCharString_restores hservices).bind ((readCharString_restores hregexp).bind
      ((Name.parse_restores n.replacement).last rfl)))))

lemma length_le_flatMap_paramBytes (params : List (UInt16 × Bytes)) :
    params.length ≤ (params.flatMap paramBytes).length := by
  induction params with
  | nil => exact Nat.zero_le _
  | cons param rest ih =>
    rw [flatMap_cons, length_append, length_cons, paramBytes_length]
    omega

lemma length_le_flatMap_charString (chunks : List Bytes) :
    chunks.length ≤ (chunks.flatMap charString).length := by
  induction chunks with
  | nil => exact Nat.zero_le _
  | cons c rest ih =>
    rw [flatMap_cons, length_append, length_cons, charString_length]
    omega

lemma parseSvcb_restores {s : Svcb} (hfit : (RData.svcb s).Fits)
    (hplain : (RData.svcb s).plain = some bytes) : Restores (parseSvcb bytes.length) bytes s := by
  cases hplain
  intro buf pos limit h hl
  obtain ⟨hvalid, hvalues⟩ := hfit
  have hcount := length_le_flatMap_paramBytes s.params
  have htarget := h.right
  have hlen : (be16 s.priority ++ (s.target.wire ++ s.params.flatMap paramBytes)).length =
      2 + (s.target.wire.length + (s.params.flatMap paramBytes).length) := by
    simp
  rw [parseSvcb, get_bind]
  rw [(u16_restores s.priority).front h (by rw [be16_length]; omega),
    (Name.parseUncompressed_restores s.target).front htarget (by rw [be16_length]; omega),
    bind_ok (readParams_holds hvalues htarget.right (by omega) (by rw [be16_length]; omega) hl), hvalid]
  rfl

lemma parse_untyped {rtype : RecordType} (h : rtype ∉ typedTypes) (rdlen : ℕ) :
    parse rtype rdlen = if isUnsupportedNameBearing rtype then
        throw (.message s!"압축 이름을 포함할 수 있는 지원하지 않는 RDATA 유형 {rtype.toNat}")
      else do return .unknown rtype (← Reader.bytes rdlen) := by
  simp only [typedTypes, mem_cons, not_or] at h
  simp [parse, h]

lemma parse_unsupported {rtype : RecordType} (h : isUnsupportedNameBearing rtype = true)
    (rdlen : ℕ) (r : Reader) : ∃ e, parse rtype rdlen r = .error e := by
  have htype : rtype ∉ typedTypes := by
    intro hmem
    fin_cases hmem <;> exact absurd h (by decide)
  rw [parse_untyped htype, if_pos h]
  exact ⟨_, rfl⟩

/-- Natural data is read back as it was. -/
theorem parse_restores {x : RData} (hplain : x.plain = some bytes) (hfit : x.Fits)
    (hnat : x.Natural) (hsup : x.Supported) :
    Restores (parse x.recordType bytes.length) bytes x := by
  cases x with
  | a ip => cases hplain; exact (octets_restores ip).last rfl
  | aaaa ip => cases hplain; exact (octets_restores ip).last rfl
  | dname n => cases hplain; exact (Name.parse_restores n).last rfl
  | txt chunks =>
    cases hplain
    intro buf pos limit h hl
    refine get_bind.trans ?_
    exact bind_ok (readChunks_holds hfit h (length_le_flatMap_charString chunks) rfl hl)
  | srv priority weight port target =>
    cases hplain
    exact (u16_restores _).bind ((u16_restores _).bind
      ((u16_restores _).bind ((Name.parse_restores target).last rfl)))
  | caa flags tag value =>
    cases hplain
    have hrest : Restores (parseRest ([flags] ++ (charString tag ++ value)).length
        (2 + (UInt8.ofNat tag.length).toNat)) value value := by
      refine parseRest_restores ?_
      simp only [length_append, charString_length, length_singleton, toNat_ofNat_le hfit]
      omega
    have htag := bytes_restores tag
    rw [← toNat_ofNat_le hfit] at htag
    exact (u8_restores flags).bind ((u8_restores (.ofNat tag.length)).bind
      (htag.bind (hrest.last rfl)))
  | tlsa usage selector matching data =>
    cases hplain
    exact (u8_restores _).bind ((u8_restores _).bind
      ((u8_restores _).bind ((parseRest_restores (add_comm data.length 3)).last rfl)))
  | sshfp algorithm fpType fingerprint =>
    cases hplain
    exact (u8_restores _).bind
      ((u8_restores _).bind ((parseRest_restores (add_comm fingerprint.length 2)).last rfl))
  | naptr n => exact (parseNaptr_restores hfit hplain).last rfl
  | uri priority weight target =>
    cases hplain
    have hlen : (be16 priority ++ (be16 weight ++ target)).length = 4 + target.length := by
      simp only [length_append, be16_length]
      omega
    exact (u16_restores _).bind ((u16_restores _).bind ((parseRest_restores hlen).last rfl))
  | svcb s => exact (parseSvcb_restores hfit hplain).last rfl
  | https s => exact (parseSvcb_restores hfit hplain).last rfl
  | unknown rtype bytes =>
    cases hplain
    rw [show (unknown rtype bytes).recordType = rtype from rfl, parse_untyped hnat,
      if_neg (by rw [show isUnsupportedNameBearing rtype = false from hsup]; decide)]
    exact (bytes_restores bytes).last rfl
  | ns n => cases hplain
  | cname n => cases hplain
  | ptr n => cases hplain
  | mx preference exchange => cases hplain
  | soa s => cases hplain

end Parse

end RData

end OnetDns.Dns
