import OnetDns.Dns.PlainData

/-!
# Records in a message

A record is written with a placeholder for the length of its data, which is filled
in afterwards. Encoders never look at bytes that are written already, so this is
the same as writing the right length at once. From there on a record is a list of
fields, and what a reader makes of it follows from the fields.
-/
namespace OnetDns.Dns
open List Writer Appends

/-- A writer without an error that holds what the plan says. -/
structure Ready (w : Writer) (p : Plan) : Prop where
  agrees : Agrees w p
  error : w.error = none
  limit : w.limit ≤ maxDnsWireLen
  room : p.size ≤ w.limit

/-- The writer `w` was continued to `w'`. -/
structure Written (w : Writer) (p : Plan) (w' : Writer) : Prop where
  ready : Ready w' p
  limit : w'.limit = w.limit
  grown : ∃ out, w'.buf = w.buf ++ out

/-- `enc` follows the plan when `valid` holds and there is room, and else fails. -/
structure Encodes (enc : Writer → Writer) (valid : Prop) (plan : Plan → Plan) : Prop where
  grows : ∀ p, p.size ≤ (plan p).size
  failed : ∀ {w}, w.error ≠ none → (enc w).error ≠ none
  done : ∀ {w p}, Ready w p → valid → (plan p).size ≤ w.limit → Written w (plan p) (enc w)
  refused : ∀ {w p}, Ready w p → ¬ (valid ∧ (plan p).size ≤ w.limit) → (enc w).error ≠ none

variable {w : Writer} {p : Plan}

lemma Written.trans {w₁ w₂ : Writer} {p' : Plan} (h : Written w p w₁)
    (h' : Written w₁ p' w₂) : Written w p' w₂ := by
  obtain ⟨out, hout⟩ := h.grown
  obtain ⟨more, hmore⟩ := h'.grown
  exact ⟨h'.ready, h'.limit.trans h.limit, out ++ more, by rw [hmore, hout, append_assoc]⟩

namespace Encodes

variable {enc enc' : Writer → Writer} {valid valid' : Prop} {plan plan' : Plan → Plan}

lemma of_ok (h : Encodes enc valid plan) (hw : Ready w p) (hok : (enc w).error = none) :
    valid ∧ (plan p).size ≤ w.limit ∧ Written w (plan p) (enc w) := by
  by_cases hgood : valid ∧ (plan p).size ≤ w.limit
  · exact ⟨hgood.1, hgood.2, h.done hw hgood.1 hgood.2⟩
  · exact absurd hok (h.refused hw hgood)

lemma comp (h : Encodes enc valid plan) (h' : Encodes enc' valid' plan') :
    Encodes (fun w => enc' (enc w)) (valid ∧ valid') (fun p => plan' (plan p)) := by
  refine ⟨fun p => (h.grows p).trans (h'.grows _), fun herr => h'.failed (h.failed herr), ?_, ?_⟩
  · intro w p hw hv hfit
    have hfirst := h.done hw hv.1 ((h'.grows _).trans hfit)
    exact hfirst.trans (h'.done hfirst.ready hv.2 (by rwa [hfirst.limit]))
  intro w p hw hbad
  by_cases hfirst : valid ∧ (plan p).size ≤ w.limit
  · have hdone := h.done hw hfirst.1 hfirst.2
    refine h'.refused hdone.ready ?_
    rintro ⟨hv', hfit⟩
    rw [hdone.limit] at hfit
    exact hbad ⟨⟨hfirst.1, hv'⟩, hfit⟩
  · exact h'.failed (h.refused hw hfirst)

lemma congr (h : Encodes enc valid plan) (hv : valid ↔ valid') (hp : ∀ p, plan p = plan' p) :
    Encodes enc valid' plan' := by
  have hp : plan = plan' := funext hp
  rwa [← hv, ← hp]

end Encodes

lemma Agrees.append (h : Agrees w p) (bytes : Bytes) :
    Agrees { w with buf := w.buf ++ bytes } (p.skip bytes.length) := by
  refine ⟨h.wf, ?_, h.get, h.spelled.append bytes⟩
  simp [Plan.skip, h.size]

variable {bytes : Bytes}

lemma Appends.encodes {enc : Writer → Writer} {valid : Prop}
    (h : Appends enc valid bytes) : Encodes enc valid (·.skip bytes.length) := by
  refine ⟨fun p => Nat.le_add_right _ _, h.failed, ?_, ?_⟩
  · intro w p hw hv hfit
    have hsize := hw.agrees.size
    rw [h.done hw.error hv (by rw [hsize]; exact hfit)]
    exact ⟨⟨hw.agrees.append bytes, hw.error, hw.limit, hfit⟩, rfl, bytes, rfl⟩
  · intro w p hw hbad
    have hsize := hw.agrees.size
    exact h.refused (by rw [hsize]; exact hw.room) (by rw [hsize]; exact hbad)

def Name.lower (n : Name) : Name :=
  ⟨lowerLabels n.labels, lower_label_len n.label_len, (wireLen_lower _).trans_le n.wire_len⟩

open Name Reader

/-- A name ends with a push, which keeps the limit. -/
theorem encodeLabels_room {labels : List Bytes} (h : (encodeLabels w labels).error = none) :
    (encodeLabels w labels).buf.length ≤ w.limit := by
  induction labels generalizing w with
  | nil => exact pushBytes_room h
  | cons label rest ih =>
    unfold encodeLabels at h ⊢
    dsimp only at h ⊢
    cases hget : w.names.get (wireOf (lowerLabels (label :: rest))) with
    | some off =>
      rw [hget] at h
      exact pushBytes_room h
    | none =>
      rw [hget] at h
      have hroom := ih h
      rw [pushBytes_limit, Writer.pushU8, pushBytes_limit] at hroom
      change _ ≤ (w.remember (wireOf (lowerLabels (label :: rest)))).limit at hroom
      rwa [remember_limit] at hroom

/-- With room for the bytes that the plan foresees, a name is written. -/
theorem encodeLabels_done {labels : List Bytes} (hwf : w.names.Wf)
    (hget : ∀ key, key.length ≤ wireLen labels → w.names.get key = (p.known key).map fun k =>
      UInt16.ofNat k.1) (herr : w.error = none) (hroom : w.buf.length + p.cost labels ≤ w.limit) :
    (encodeLabels w labels).error = none := by
  induction labels generalizing w with
  | nil =>
    change (w.pushU8 0).error = none
    rw [(Appends.pushU8 0).done herr trivial hroom]
    exact herr
  | cons label rest ih =>
    have hfound := hget (suffixKey (label :: rest)) (suffixKey_length _).le
    change w.names.get (wireOf (lowerLabels (label :: rest))) = _ at hfound
    unfold encodeLabels
    dsimp only
    rw [hfound]
    unfold Plan.cost at hroom
    cases hknown : p.known (suffixKey (label :: rest)) with
    | some k =>
      rw [hknown] at hroom
      change (w.pushU16 (0xC000 ||| .ofNat k.1)).error = none
      rw [(Appends.pushU16 _).done herr trivial (by rw [be16_length]; exact hroom)]
      exact herr
    | none =>
      rw [hknown] at hroom
      change (encodeLabels (((w.remember (suffixKey (label :: rest))).pushU8
        (.ofNat label.length)).pushBytes label) rest).error = none
      have hlabel := ((Appends.pushU8 (.ofNat label.length)).comp (.pushBytes label)).done
        (w := w.remember (suffixKey (label :: rest))) (by rw [remember_error, herr])
        ⟨trivial, trivial⟩ (by
          rw [remember_buf, remember_limit, length_append, length_singleton]
          dsimp only at hroom
          omega)
      rw [hlabel, remember_buf]
      refine ih (remember_wf hwf _) ?_ ?_ ?_
      · intro key hkey
        have hne : key ≠ suffixKey (label :: rest) := by
          rintro rfl
          rw [suffixKey_length, wireLen_cons] at hkey
          omega
        rw [remember_get hwf herr, if_neg (fun h => hne h.1)]
        refine hget key ?_
        rw [wireLen_cons]
        omega
      · rw [remember_error, herr]
      · rw [remember_limit]
        simp only [length_append, length_singleton] at hroom ⊢
        omega

lemma Name.encode_encodes (n : Name) : Encodes n.encode True (·.add n.labels) := by
  have hdone : ∀ {w p}, Ready w p → (n.encode w).error = none →
      Written w (p.add n.labels) (n.encode w) := by
    intro w p hw hok
    obtain ⟨hencoded, hagrees⟩ := hw.agrees.encode n hok
    obtain ⟨out, hout, -⟩ := hencoded.buf
    refine ⟨⟨hagrees, hok, ?_, ?_⟩, hencoded.limit, out, hout⟩
    · rw [hencoded.limit]
      exact hw.limit
    · rw [← hagrees.size, hencoded.limit]
      rw [encode_eq] at hok ⊢
      exact encodeLabels_room hok
  refine ⟨fun p => Nat.le_add_right _ _, ?_, ?_, ?_⟩
  · intro w herr hok
    exact herr (encode_before hok)
  · intro w p hw _ hfit
    refine hdone hw ?_
    rw [encode_eq]
    refine encodeLabels_done hw.agrees.wf (fun key _ => hw.agrees.get key) hw.error ?_
    rw [hw.agrees.size]
    exact hfit
  · intro w p hw hbad hok
    have hwritten := hdone hw hok
    refine hbad ⟨trivial, ?_⟩
    rw [← hwritten.limit]
    exact hwritten.ready.room

/-- What `enc` has written is read by `par`, wherever it stands and whatever follows. -/
structure Decodes {α : Type} (enc : Writer → Writer) (par : ReadM α) (short : Plan → Prop)
    (post : α → Prop) : Prop where
  reads : ∀ {w p}, Ready w p → (enc w).error = none → ∀ {buf limit}, (enc w).buf <+: buf →
    (enc w).buf.length ≤ limit →
    Reads par ⟨buf, w.buf.length, limit⟩ (short p) post (enc w).buf.length

lemma Name.decodes (n : Name) :
    Decodes n.encode parse (fun p => p.links n.labels ≤ maxJumps)
      (fun n' => n'.lower = n.lower) := by
  refine ⟨fun {w p} hw hok {buf limit} hbuf hlimit => ?_⟩
  obtain ⟨spelled, hlower, hspells⟩ := (hw.agrees.encode n hok).1.spells
  obtain ⟨more, rfl⟩ := hbuf
  have hwire : wireLen spelled ≤ maxNameLen := by
    rw [← wireLen_lower, hlower, wireLen_lower]
    exact n.wire_len
  obtain ⟨hshort, hlong⟩ := parse_of_spells (r := ⟨_, _, limit⟩) (hspells.append more) hwire hlimit
  refine ⟨fun h => ⟨_, hshort h, ?_⟩, fun h => hlong (not_le.mp h)⟩
  rw [mk.injEq]
  exact hlower

section Decodes

variable {α β : Type} {enc enc' : Writer → Writer} {valid valid' : Prop} {plan plan' : Plan → Plan}
  {par : ReadM α} {k : α → ReadM β} {short short' : Plan → Prop} {post : α → Prop}
  {post' : β → Prop}

lemma Decodes.bind (h : Decodes enc par short post) (henc : Encodes enc valid plan)
    (henc' : Encodes enc' valid' plan') (hk : ∀ v, post v → Decodes enc' (k v) short' post') :
    Decodes (fun w => enc' (enc w)) (par >>= k) (fun p => short p ∧ short' (plan p)) post' := by
  refine ⟨fun {w p} hw hok {buf limit} hbuf hlimit => ?_⟩
  have hfirst : (enc w).error = none := by
    by_contra herr
    exact henc'.failed herr hok
  obtain ⟨-, -, hwritten⟩ := henc.of_ok hw hfirst
  obtain ⟨-, -, hwritten'⟩ := henc'.of_ok hwritten.ready hok
  obtain ⟨out, hout⟩ := hwritten'.grown
  have hpre : (enc w).buf <+: (enc' (enc w)).buf := ⟨out, hout.symm⟩
  refine (h.reads hw hfirst (hpre.trans hbuf) (hpre.length_le.trans hlimit)).bind ?_
  intro v hv
  exact (hk v hv).reads hwritten.ready hok hbuf hlimit

/-- The first part has no names. -/
theorem Decodes.bind_plain {v : α} (h : Decodes enc par (fun _ => True) (· = v))
    (henc : Encodes enc valid plan) (henc' : Encodes enc' valid' plan')
    (hk : Decodes enc' (k v) short' post') :
    Decodes (fun w => enc' (enc w)) (par >>= k) (fun p => short' (plan p)) post' := by
  have hall : ∀ v', v' = v → Decodes enc' (k v') short' post' := by
    rintro _ rfl
    exact hk
  refine ⟨fun {w p} hw hok {buf limit} hbuf hlimit => ?_⟩
  exact ((h.bind henc henc' hall).reads hw hok hbuf hlimit).mono (by simp) fun _ => id

lemma Decodes.then_plain (h : Decodes enc par short post) (henc : Encodes enc valid plan)
    (henc' : Encodes enc' valid' plan')
    (hk : ∀ v, post v → Decodes enc' (k v) (fun _ => True) post') :
    Decodes (fun w => enc' (enc w)) (par >>= k) short post' := by
  refine ⟨fun {w p} hw hok {buf limit} hbuf hlimit => ?_⟩
  exact ((h.bind henc henc' hk).reads hw hok hbuf hlimit).mono (by simp) fun _ => id

lemma Decodes.map {f : α → β} (h : Decodes enc par short post) (hf : ∀ v, post v → post' (f v)) :
    Decodes enc (par >>= fun v => pure (f v)) short post' := by
  refine ⟨fun {w p} hw hok {buf limit} hbuf hlimit => ?_⟩
  exact ((h.reads hw hok hbuf hlimit).bind fun v hv => .pure (hf v hv)).mono (by simp) fun _ => id

lemma Decodes.mono {post₂ : α → Prop} (h : Decodes enc par short post)
    (hp : ∀ v, post v → post₂ v) : Decodes enc par short post₂ :=
  ⟨fun hw hok _ _ hbuf hlimit => (h.reads hw hok hbuf hlimit).mono Iff.rfl hp⟩

lemma Appends.decodes {v : α} (h : Appends enc valid bytes) (hread : Restores par bytes v) :
    Decodes enc par (fun _ => True) (· = v) := by
  refine ⟨fun {w p} hw hok {buf limit} hbuf hlimit => ?_⟩
  obtain ⟨hv, hfit, -⟩ := h.encodes.of_ok hw hok
  have hsize := hw.agrees.size
  have heq := h.done hw.error hv (by rw [hsize]; exact hfit)
  rw [heq] at hbuf hlimit ⊢
  obtain ⟨more, rfl⟩ := hbuf
  simp only [length_append] at hlimit ⊢
  exact .of_eq (hread (.mk _ _ _) hlimit)

end Decodes

lemma pushU16_decodes (v : UInt16) : Decodes (·.pushU16 v) u16 (fun _ => True) (· = v) :=
  (pushU16 v).decodes (u16_restores v)

variable {x : RData}

namespace RData

/-- Every name in lower case. -/
def lower : RData → RData
  | .ns n => .ns n.lower
  | .cname n => .cname n.lower
  | .dname n => .dname n.lower
  | .ptr n => .ptr n.lower
  | .mx preference exchange => .mx preference exchange.lower
  | .soa s => .soa { s with mname := s.mname.lower, rname := s.rname.lower }
  | .srv priority weight port target => .srv priority weight port target.lower
  | .naptr n => .naptr { n with replacement := n.replacement.lower }
  | .svcb s => .svcb { s with target := s.target.lower }
  | .https s => .https { s with target := s.target.lower }
  | x => x

def plan (x : RData) (p : Plan) : Plan :=
  match x with
  | .ns n | .cname n | .ptr n => p.add n.labels
  | .mx _ exchange => (p.skip 2).add exchange.labels
  | .soa s => ((p.add s.mname.labels).add s.rname.labels).skip 20
  | x => p.skip (x.plain.getD []).length

/-- The pointer chains of the data are short enough. -/
def Short (x : RData) (p : Plan) : Prop :=
  match x with
  | .ns n | .cname n | .ptr n => p.links n.labels ≤ maxJumps
  | .mx _ exchange => (p.skip 2).links exchange.labels ≤ maxJumps
  | .soa s => p.links s.mname.labels ≤ maxJumps ∧
      (p.add s.mname.labels).links s.rname.labels ≤ maxJumps
  | _ => True

lemma plan_plain (h : x.plain = some bytes) (p : Plan) : x.plan p = p.skip bytes.length := by
  cases x <;> first | (cases h; rfl) | cases h

lemma short_plain (h : x.plain = some bytes) (p : Plan) : x.Short p := by
  cases x <;> first | (cases h; done) | trivial

def timers (s : Soa) (w : Writer) : Writer :=
  ((((w.pushU32 s.serial).pushU32 s.refresh).pushU32 s.retry).pushU32 s.expire).pushU32 s.minimum

lemma timers_appends (s : Soa) : Appends (timers s) True
    (be32 s.serial ++ (be32 s.refresh ++ (be32 s.retry ++ (be32 s.expire ++ be32 s.minimum)))) :=
  ((pushU32 s.serial).comp ((pushU32 s.refresh).comp
    ((pushU32 s.retry).comp ((pushU32 s.expire).comp (.pushU32 s.minimum))))).congr (by simp) rfl

lemma encode_encodes (x : RData) : Encodes x.encode x.Fits x.plan := by
  cases hplain : x.plain with
  | some bytes =>
    exact (encode_appends hplain).encodes.congr Iff.rfl fun p => (plan_plain hplain p).symm
  | none =>
    cases x with
    | ns n => exact n.encode_encodes
    | cname n => exact n.encode_encodes
    | ptr n => exact n.encode_encodes
    | mx preference exchange =>
      exact ((pushU16 preference).encodes.comp exchange.encode_encodes).congr
        (by simp [Fits]) fun p => rfl
    | soa s =>
      exact ((s.mname.encode_encodes.comp s.rname.encode_encodes).comp
        (timers_appends s).encodes).congr (by simp [Fits]) fun p => rfl
    | _ => cases hplain

lemma parseSoa_decodes (s : Soa) : Decodes (encodeSoa s) parseSoa (soa s).Short
    (fun s' => (soa s').lower = (soa s).lower) := by
  have htimers : ∀ mname rname, Decodes (timers s) (do
      let serial ← u32
      let refresh ← u32
      let retry ← u32
      let expire ← u32
      let minimum ← u32
      return (⟨mname, rname, serial, refresh, retry, expire, minimum⟩ : Soa)) (fun _ => True)
      (· = { s with mname, rname }) := by
    intro mname rname
    exact (timers_appends s).decodes ((u32_restores _).bind ((u32_restores _).bind
      ((u32_restores _).bind ((u32_restores _).bind ((u32_restores _).last rfl)))))
  have hrest : ∀ mname, mname.lower = s.mname.lower → Decodes (fun w => timers s (s.rname.encode w))
      (do
        let rname ← Name.parse
        let serial ← u32
        let refresh ← u32
        let retry ← u32
        let expire ← u32
        let minimum ← u32
        return (⟨mname, rname, serial, refresh, retry, expire, minimum⟩ : Soa))
      (fun p => p.links s.rname.labels ≤ maxJumps)
      (fun s' => (soa s').lower = (soa s).lower) := by
    intro mname hmname
    refine s.rname.decodes.then_plain s.rname.encode_encodes (timers_appends s).encodes ?_
    intro rname hrname
    refine (htimers mname rname).mono ?_
    rintro _ rfl
    simp only [lower, hmname, hrname]
  exact s.mname.decodes.bind s.mname.encode_encodes
    (s.rname.encode_encodes.comp (timers_appends s).encodes) hrest

/-- Data with names, read as its type says. -/
theorem named_decodes (h : x.plain = none) (rdlen : ℕ) :
    Decodes x.encode (parse x.recordType rdlen) x.Short (fun x' => x'.lower = x.lower) := by
  cases x with
  | ns n => exact n.decodes.map fun n' h => congrArg ns h
  | cname n => exact n.decodes.map fun n' h => congrArg cname h
  | ptr n => exact n.decodes.map fun n' h => congrArg ptr h
  | mx preference exchange =>
    have hrest : Decodes exchange.encode (Name.parse >>= fun n => pure (mx preference n))
        (fun p => p.links exchange.labels ≤ maxJumps)
        (fun x => x.lower = (mx preference exchange).lower) :=
      exchange.decodes.map fun n' h => congrArg (mx preference) h
    exact (pushU16_decodes preference).bind_plain
      (k := fun preference => Name.parse >>= fun n => pure (mx preference n))
      (Appends.pushU16 _).encodes exchange.encode_encodes hrest
  | soa s => exact (parseSoa_decodes s).map fun s' h => h
  | _ => cases h

/-- Natural data is read up to case, if its type is supported and its chains are short. -/
theorem parse_reads (hnat : x.Natural) (hw : Ready w p)
    (hok : (x.encode w).error = none) {buf : Bytes} (hbuf : (x.encode w).buf <+: buf) {limit : ℕ}
    (hlimit : (x.encode w).buf.length ≤ limit) :
    Reads (parse x.recordType ((x.encode w).buf.length - w.buf.length)) ⟨buf, w.buf.length, limit⟩
      (x.Supported ∧ x.Short p) (fun x' => x'.lower = x.lower) (x.encode w).buf.length := by
  cases hplain : x.plain with
  | none =>
    have hsup : x.Supported := by
      cases x with
      | unknown rtype bytes => cases hplain
      | _ => trivial
    exact ((named_decodes hplain _).reads hw hok hbuf hlimit).mono (by simp [hsup]) fun _ => id
  | some bytes =>
    have happ := encode_appends hplain
    obtain ⟨hfits, hroom, -⟩ := happ.encodes.of_ok hw hok
    have heq := happ.done hw.error hfits (by rw [hw.agrees.size]; exact hroom)
    rw [heq] at hbuf hlimit ⊢
    obtain ⟨more, rfl⟩ := hbuf
    simp only [length_append, Nat.add_sub_cancel_left] at hlimit ⊢
    by_cases hsup : x.Supported
    · have hread := parse_restores hplain hfits hnat hsup (.mk w.buf bytes more) hlimit
      refine (Reads.of_eq hread).mono ?_ ?_
      · simp [hsup, short_plain hplain p]
      · rintro _ rfl
        rfl
    refine ⟨fun h => absurd h.1 hsup, fun _ => ?_⟩
    cases x with
    | unknown rtype bytes =>
      have hrefused : isUnsupportedNameBearing rtype = true := by simpa [Supported] using hsup
      exact parse_unsupported hrefused _ _
    | _ => exact absurd trivial hsup

end RData

/-- The encoder adds the same bytes to every buffer of one length. -/
def Blind (enc : Writer → Writer) : Prop :=
  ∀ (w : Writer) (b : Bytes), b.length = w.buf.length →
    ∃ out, (enc w).buf = w.buf ++ out ∧ enc { w with buf := b } = { enc w with buf := b ++ out }

lemma Blind.comp {enc enc' : Writer → Writer} (h : Blind enc) (h' : Blind enc') :
    Blind (fun w => enc' (enc w)) := by
  intro w b hb
  obtain ⟨out, hout, heq⟩ := h w b hb
  obtain ⟨out', hout', heq'⟩ := h' (enc w) (b ++ out) (by rw [hout]; simp [hb])
  refine ⟨out ++ out', by rw [hout', hout, append_assoc], ?_⟩
  simp [heq, heq']

lemma Blind.pushBytes (bytes : Bytes) : Blind (·.pushBytes bytes) := by
  intro w b hb
  unfold Writer.pushBytes
  simp only [hb]
  split
  · exact ⟨[], (append_nil _).symm, by rw [append_nil]⟩
  split
  · refine ⟨[], ?_, ?_⟩
    · unfold Writer.fail
      split <;> exact (append_nil _).symm
    · unfold Writer.fail
      split <;> rw [append_nil]
  · exact ⟨bytes, rfl, rfl⟩

lemma Blind.remember (key : Bytes) : Blind (·.remember key) := by
  intro w b hb
  refine ⟨[], by rw [remember_buf, append_nil], ?_⟩
  unfold Writer.remember Writer.isFailed
  simp only [hb, append_nil]
  split <;> rfl

lemma encodeLabels_blind (labels : List Bytes) : Blind (encodeLabels · labels) := by
  induction labels with
  | nil => exact .pushBytes _
  | cons label rest ih =>
    intro w b hb
    unfold encodeLabels
    dsimp only
    cases w.names.get (wireOf (lowerLabels (label :: rest))) with
    | some off => exact Blind.pushBytes _ w b hb
    | none =>
      exact (((Blind.remember (wireOf (lowerLabels (label :: rest)))).comp (.pushBytes _)).comp
        (.pushBytes label)).comp ih w b hb

lemma Name.encode_blind (n : Name) : Blind n.encode := by
  have heq : n.encode = (encodeLabels · n.labels) := funext fun w => encode_eq n w
  rw [heq]
  exact encodeLabels_blind n.labels

namespace RData

lemma named_blind (h : x.plain = none) : Blind x.encode := by
  cases x with
  | ns n => exact n.encode_blind
  | cname n => exact n.encode_blind
  | ptr n => exact n.encode_blind
  | mx preference exchange => exact (Blind.pushBytes _).comp exchange.encode_blind
  | soa s =>
    exact (s.mname.encode_blind.comp s.rname.encode_blind).comp ((((Blind.pushBytes _).comp
      (.pushBytes _)).comp (.pushBytes _)).comp (.pushBytes _) |>.comp (.pushBytes _))
  | _ => cases h

/-- Other bytes in front of the data change nothing about it. -/
theorem encode_swap (x : RData) (hw : Ready w p)
    (hok : (x.encode w).error = none) {b : Bytes} (hb : b.length = w.buf.length) :
    ∃ out, (x.encode w).buf = w.buf ++ out ∧
      x.encode { w with buf := b } = { x.encode w with buf := b ++ out } := by
  cases hplain : x.plain with
  | none => exact named_blind hplain w b hb
  | some bytes =>
    have happ := encode_appends hplain
    obtain ⟨hfits, hroom, -⟩ := happ.encodes.of_ok hw hok
    have hroom : w.buf.length + bytes.length ≤ w.limit := by
      rw [hw.agrees.size]
      exact hroom
    have heq := happ.done hw.error hfits hroom
    have heq' := happ.done (w := { w with buf := b }) hw.error hfits (by simpa [hb] using hroom)
    exact ⟨bytes, by rw [heq], by rw [heq', heq]⟩

end RData

lemma Ready.pushU16 {w' : Writer} {v : UInt16} (hw : Ready w p)
    (h : w.pushU16 v = w') (hok : w'.error = none) : w' = { w with buf := w.buf ++ be16 v } ∧
      Ready w' (p.skip 2) := by
  subst h
  obtain ⟨-, hroom, hwritten⟩ := (Appends.pushU16 v).encodes.of_ok hw hok
  exact ⟨(Appends.pushU16 v).done hw.error trivial (by rw [hw.agrees.size]; exact hroom),
    hwritten.ready⟩

/-- Filling in the length afterwards is writing it at once. -/
theorem backpatch_eq (hw : Ready w p) (hok : (x.encode (w.pushU16 0)).error = none) :
    ∃ len : UInt16, (x.encode (w.pushU16 0)).backpatchLen w.buf.length = x.encode (w.pushU16 len) ∧
      (x.encode (w.pushU16 len)).buf.length = (w.pushU16 len).buf.length + len.toNat := by
  have hpush : (w.pushU16 0).error = none := by
    by_contra herr
    exact x.encode_encodes.failed herr hok
  obtain ⟨heq, hready⟩ := hw.pushU16 rfl hpush
  obtain ⟨-, -, hwritten⟩ := x.encode_encodes.of_ok hready hok
  have hlimit : (x.encode (w.pushU16 0)).buf.length ≤ maxDnsWireLen := by
    rw [hwritten.ready.agrees.size]
    exact hwritten.ready.room.trans (hwritten.limit.trans_le hready.limit)
  -- the bytes of the data do not depend on the two bytes in front of them
  have hswap := fun len : UInt16 =>
    x.encode_swap hready hok (b := w.buf ++ be16 len) (by rw [heq]; simp)
  obtain ⟨out, hout, -⟩ := hswap 0
  have hsame : ∀ len : UInt16, w.pushU16 len = { w.pushU16 0 with buf := w.buf ++ be16 len } := by
    intro len
    have hroom : w.buf.length + (be16 len).length ≤ w.limit := by
      have := hready.room
      rw [heq] at this
      rw [hw.agrees.size]
      exact this
    rw [heq]
    exact (pushU16 len).done hw.error trivial hroom
  have hbytes : (w.pushU16 0).buf = w.buf ++ be16 0 := by rw [heq]
  have hlen : (x.encode (w.pushU16 0)).buf.length = w.buf.length + 2 + out.length := by
    rw [hout, hbytes]
    simp only [length_append, be16_length]
  have hfinal : x.encode (w.pushU16 (.ofNat out.length)) =
      { x.encode (w.pushU16 0) with buf := w.buf ++ be16 (.ofNat out.length) ++ out } := by
    obtain ⟨out', hout', hpatched⟩ := hswap (.ofNat out.length)
    have hoo : out' = out := append_cancel_left (hout'.symm.trans hout)
    subst hoo
    exact (congrArg x.encode (hsame _)).trans hpatched
  refine ⟨.ofNat out.length, ?_, ?_⟩
  · rw [hfinal]
    unfold backpatchLen
    simp only [hok, Option.isSome_none, Bool.false_eq_true, if_false]
    rw [if_neg (by omega), show (x.encode (w.pushU16 0)).buf.length - (w.buf.length + 2) =
      out.length by omega, if_neg (by unfold maxDnsWireLen at hlimit; omega), hout, hbytes,
      drop_left' (by simp), append_assoc w.buf (be16 0) out, take_left]
  have hbuf : (w.pushU16 (.ofNat out.length)).buf =
      w.buf ++ be16 (.ofNat out.length) := by rw [hsame]
  rw [hfinal, hbuf]
  simp only [length_append, UInt16.toNat_ofNat']
  unfold maxDnsWireLen at hlimit
  omega

namespace Record

def lower (record : Record) : Record :=
  { record with name := record.name.lower, rdata := record.rdata.lower }

/-- The fields in front of the length. -/
def fields (record : Record) (ttl : UInt32) (w : Writer) : Writer :=
  (((record.name.encode w).pushU16 record.rtype).pushU16 record.class').pushU32 ttl

/-- The record with its length written at once. -/
def encodeSized (record : Record) (ttl : UInt32) (len : UInt16) (w : Writer) : Writer :=
  record.rdata.encode ((record.fields ttl w).pushU16 len)

def plan (record : Record) (p : Plan) : Plan :=
  record.rdata.plan ((p.add record.name.labels).skip 10)

variable (record : Record)

variable (ttl : UInt32)

lemma fieldBytes_appends :
    Appends (fun w => ((w.pushU16 record.rtype).pushU16 record.class').pushU32 ttl) True
      (be16 record.rtype ++ (be16 record.class' ++ be32 ttl)) :=
  ((pushU16 record.rtype).comp ((pushU16 record.class').comp (.pushU32 ttl))).congr (by simp) rfl

lemma fields_encodes :
    Encodes (record.fields ttl) True (fun p => (p.add record.name.labels).skip 8) :=
  (record.name.encode_encodes.comp (record.fieldBytes_appends ttl).encodes).congr (by simp)
    fun _ => rfl

lemma encodeSized_encodes (len : UInt16) :
    Encodes (record.encodeSized ttl len) record.rdata.Fits record.plan :=
  ((record.fields_encodes ttl).comp ((pushU16 len).encodes.comp
    record.rdata.encode_encodes)).congr (by simp) fun _ => rfl

lemma backpatchLen_failed (h : w.error ≠ none) (at' : ℕ) : w.backpatchLen at' = w := by
  rw [backpatchLen, if_pos (Option.isSome_iff_ne_none.mpr h)]

/-- A record is written with the length of its data. -/
theorem encodeWithTtl_eq (hw : Ready w p)
    (hok : (record.encodeSized ttl 0 w).error = none) :
    ∃ len : UInt16, record.encodeWithTtl ttl w = record.encodeSized ttl len w ∧
      (record.encodeSized ttl len w).buf.length =
        ((record.fields ttl w).pushU16 len).buf.length + len.toNat := by
  have hfields : (record.fields ttl w).error = none := by
    by_contra herr
    exact ((pushU16 0).encodes.comp record.rdata.encode_encodes).failed herr hok
  obtain ⟨-, -, hwritten⟩ := (record.fields_encodes ttl).of_ok hw hfields
  exact backpatch_eq hwritten.ready hok

lemma encodeWithTtl_failed (h : (record.encodeSized ttl 0 w).error ≠ none) :
    (record.encodeWithTtl ttl w).error ≠ none := by
  change (backpatchLen (record.encodeSized ttl 0 w) _).error ≠ none
  rwa [backpatchLen_failed h]

lemma encodeWithTtl_encodes :
    Encodes (record.encodeWithTtl ttl) record.rdata.Fits record.plan := by
  have hsized := record.encodeSized_encodes ttl
  refine ⟨(hsized 0).grows, ?_, ?_, ?_⟩
  · intro w herr
    exact encodeWithTtl_failed record ttl ((hsized 0).failed herr)
  · intro w p hw hfits hroom
    have hok := ((hsized 0).done hw hfits hroom).ready.error
    obtain ⟨len, heq, -⟩ := record.encodeWithTtl_eq ttl hw hok
    rw [heq]
    exact (hsized len).done hw hfits hroom
  · intro w p hw hbad
    exact encodeWithTtl_failed record ttl ((hsized 0).refused hw hbad)

variable (updateSection : UpdateSection)

/-- In this section the data of the record is left out, and nothing is known about it
but the type. -/
def Empty (record : Record) : Prop :=
  record.class' ∈ updateSection.emptyClasses ∧ record.rdata.plain = some []

instance (updateSection : UpdateSection) (record : Record) :
    Decidable (record.Empty updateSection) :=
  inferInstanceAs (Decidable (_ ∧ _))

/-- The variant of the data is the one that `parse` builds for the type, or the record is an
empty one of an UPDATE section. -/
def Natural (updateSection : UpdateSection) (record : Record) : Prop :=
  record.rdata.Natural ∨ record.Empty updateSection

def readBack (ttl : UInt32) (record : Record) : Record :=
  { record with
    ttl
    rdata := if record.Empty updateSection then .unknown record.rtype [] else record.rdata }

def Readable (record : Record) (p : Plan) : Prop :=
  p.links record.name.labels ≤ maxJumps ∧ (record.Empty updateSection ∨
    record.rdata.Supported ∧ record.rdata.Short ((p.add record.name.labels).skip 10))

lemma one_le_cost (p : Plan) (labels : List Bytes) : 1 ≤ p.cost labels := by
  cases labels with
  | nil => exact le_rfl
  | cons label rest =>
    unfold Plan.cost
    split <;> omega

/-- Data with names has at least one byte. -/
theorem named_grows (h : x.plain = none) (p : Plan) : p.size < (x.plan p).size := by
  cases x with
  | ns n =>
    have := one_le_cost p n.labels
    change p.size < p.size + _
    omega
  | cname n =>
    have := one_le_cost p n.labels
    change p.size < p.size + _
    omega
  | ptr n =>
    have := one_le_cost p n.labels
    change p.size < p.size + _
    omega
  | mx preference exchange =>
    change p.size < p.size + 2 + _
    omega
  | soa s =>
    change p.size < p.size + _ + _ + 20
    omega
  | _ => cases h

variable {updateSection : UpdateSection} {record : Record}

/-- No bytes in a class that allows it: the data is left out. -/
theorem empty_of_length (hw : Ready w p) (hok : (record.rdata.encode w).error = none)
    (hlen : (record.rdata.encode w).buf.length = w.buf.length)
    (hclass : record.class' ∈ updateSection.emptyClasses) : record.Empty updateSection := by
  refine ⟨hclass, ?_⟩
  obtain ⟨hfits, hroom, hwritten⟩ := record.rdata.encode_encodes.of_ok hw hok
  have hsize := hwritten.ready.agrees.size
  cases hplain : record.rdata.plain with
  | none =>
    have := named_grows hplain p
    have := hw.agrees.size
    omega
  | some bytes =>
    rw [RData.plan_plain hplain] at hsize
    change _ = p.size + bytes.length at hsize
    have := hw.agrees.size
    rw [eq_nil_of_length_eq_zero (show bytes.length = 0 by omega)]

lemma parseData_reads
    (htype : record.rtype = record.rdata.recordType) (hnat : record.Natural updateSection) (hw : Ready w p) (hok : (record.rdata.encode w).error = none) {len : ℕ}
    (hlen : (record.rdata.encode w).buf.length = w.buf.length + len) {buf : Bytes}
    (hbuf : (record.rdata.encode w).buf <+: buf) {limit : ℕ}
    (hlimit : (record.rdata.encode w).buf.length ≤ limit) (ttl : UInt32) :
    Reads (parseData updateSection record.rtype record.class' len) ⟨buf, w.buf.length, limit⟩
      (record.Empty updateSection ∨ record.rdata.Supported ∧ record.rdata.Short p)
      (fun x => x.lower = (record.readBack updateSection ttl).rdata.lower)
      (record.rdata.encode w).buf.length := by
  have hin : ¬ limit < w.buf.length + len := by omega
  by_cases hempty : record.Empty updateSection
  · have happ := RData.encode_appends hempty.2
    obtain ⟨hfits, hroom, -⟩ := happ.encodes.of_ok hw hok
    have heq := happ.done hw.error hfits (by rw [hw.agrees.size]; exact hroom)
    have hzero : len = 0 := by
      rw [heq] at hlen
      simp only [append_nil] at hlen
      omega
    subst hzero
    refine ⟨fun _ => ⟨.unknown record.rtype [], ?_, ?_⟩, fun h => absurd (.inl hempty) h⟩
    · rw [hlen, parseData]
      simp only [hempty.1, if_neg hin]
      exact if_neg fun h => h rfl
    · simp only [readBack, if_pos hempty]
  have hnat : record.rdata.Natural := hnat.resolve_right hempty
  have hdata : ¬ (len = 0 ∧ record.class' ∈ updateSection.emptyClasses) := by
    rintro ⟨rfl, hclass⟩
    exact hempty (empty_of_length hw hok hlen hclass)
  have hend : (record.rdata.encode w).buf.length ≤ w.buf.length + len := hlen.le
  have hreads := RData.parse_reads hnat hw hok hbuf hend
  rw [hlen, Nat.add_sub_cancel_left, ← htype] at hreads
  rw [hlen]
  constructor
  · intro hshort
    obtain ⟨x, hx, hlower⟩ := hreads.ok (hshort.resolve_left hempty)
    refine ⟨x, ?_, ?_⟩
    · rw [parseData]
      simp [if_neg hdata, if_neg hin, hx]
    · simp only [readBack, if_neg hempty, hlower]
  · intro hshort
    obtain ⟨e, he⟩ := hreads.error fun h => hshort (.inr h)
    refine ⟨e, ?_⟩
    rw [parseData]
    simp only [if_neg hdata, if_neg hin, he]

/-- A record is read as it was written, up to case. -/
theorem decodes (htype : record.rtype = record.rdata.recordType)
    (hnat : record.Natural updateSection) (ttl : UInt32) :
    Decodes (record.encodeWithTtl ttl) (parse updateSection) (record.Readable updateSection)
      (fun r => r.lower = (record.readBack updateSection ttl).lower) := by
  refine ⟨fun {w p} hw hok {buf limit} hbuf hlimit => ?_⟩
  have hsized : (record.encodeSized ttl 0 w).error = none := by
    by_contra herr
    exact record.encodeWithTtl_failed ttl herr hok
  obtain ⟨len, heq, hlen⟩ := record.encodeWithTtl_eq ttl hw hsized
  rw [heq] at hok hbuf hlimit ⊢
  -- the writers after the name, the fields and the length
  have hhead : ((record.fields ttl w).pushU16 len).error = none := by
    by_contra herr
    exact record.rdata.encode_encodes.failed herr hok
  have hfields : (record.fields ttl w).error = none := by
    by_contra herr
    exact (pushU16 len).failed herr hhead
  have hname : (record.name.encode w).error = none := by
    by_contra herr
    exact (record.fieldBytes_appends ttl).failed herr hfields
  obtain ⟨-, -, hwname⟩ := record.name.encode_encodes.of_ok hw hname
  obtain ⟨-, hroom, -⟩ := (record.fieldBytes_appends ttl).encodes.of_ok hwname.ready hfields
  have hfieldsEq := (record.fieldBytes_appends ttl).done hname trivial
    (by rw [hwname.ready.agrees.size]; exact hroom)
  obtain ⟨-, -, hwfields⟩ := (record.fields_encodes ttl).of_ok hw hfields
  obtain ⟨hheadEq, hwhead⟩ := hwfields.ready.pushU16 rfl hhead
  obtain ⟨-, -, hwdata⟩ := record.rdata.encode_encodes.of_ok hwhead hok
  -- the bytes between the name and the data
  have hbytes : ((record.fields ttl w).pushU16 len).buf = (record.name.encode w).buf ++
      (be16 record.rtype ++ (be16 record.class' ++ (be32 ttl ++ be16 len))) := by
    rw [hheadEq]
    simp [fields, hfieldsEq]
  have hpre : ((record.fields ttl w).pushU16 len).buf <+: buf := by
    obtain ⟨out, hout⟩ := hwdata.grown
    exact (show _ <+: (record.encodeSized ttl len w).buf from ⟨out, hout.symm⟩).trans hbuf
  have hpos : ((record.fields ttl w).pushU16 len).buf.length =
      (record.name.encode w).buf.length + 2 + 2 + 4 + 2 := by
    rw [hbytes]
    simp
  have hholds : Holds buf (record.name.encode w).buf.length
      (be16 record.rtype ++ (be16 record.class' ++ (be32 ttl ++ be16 len))) := by
    obtain ⟨more, hmore⟩ := hpre
    exact ⟨_, more, by rw [← hmore, hbytes], rfl⟩
  have hprename : (record.name.encode w).buf <+: buf := by
    rw [hbytes] at hpre
    exact (prefix_append _ _).trans hpre
  refine (record.name.decodes.reads hw hname hprename (by omega)).bind fun n hn => ?_
  dsimp only
  refine .bind_front (u16_restores _) hholds (by rw [be16_length]; omega) fun hholds => ?_
  refine .bind_front (u16_restores _) hholds (by simp only [be16_length]; omega) fun hholds => ?_
  refine .bind_front (u32_restores _) hholds (by simp only [be16_length, be32_length]; omega)
    fun hholds => ?_
  refine .bind_plain (u16_restores _ hholds (by simp only [be16_length, be32_length]; omega)) ?_
  have hdata := parseData_reads htype hnat hwhead hok hlen hbuf hlimit ttl
  rw [hpos] at hdata
  refine (hdata.bind fun x hx => .pure ?_).mono (by simp only [and_true]; rfl) fun _ => id
  simp only [lower, hx, hn, readBack]

end Record

end OnetDns.Dns
