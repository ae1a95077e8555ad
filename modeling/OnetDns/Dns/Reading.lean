import OnetDns.Dns.NameCodec
import OnetDns.Dns.Message

/-!
# Reading what stands in a buffer

`Holds` says which bytes stand at an offset. `Reads` states the outcome of a
reading function: it stops at a given offset with a certain result, or fails,
depending on whether the pointer chains are short.
-/
namespace OnetDns.Dns
open BigEndian List UInt16 Reader

/-- `bytes` stand at `pos`. -/
def Holds (buf : Bytes) (pos : ℕ) (bytes : Bytes) : Prop :=
  ∃ before after, buf = before ++ bytes ++ after ∧ before.length = pos

variable {x : UInt8}

namespace Holds

variable {buf a b : Bytes} {pos : ℕ}

lemma mk (before bytes after : Bytes) : Holds (before ++ bytes ++ after) before.length bytes :=
  ⟨before, after, rfl, rfl⟩

lemma left (h : Holds buf pos (a ++ b)) : Holds buf pos a := by
  obtain ⟨before, after, rfl, rfl⟩ := h
  exact ⟨before, b ++ after, by simp, rfl⟩

lemma right (h : Holds buf pos (a ++ b)) : Holds buf (pos + a.length) b := by
  obtain ⟨before, after, rfl, rfl⟩ := h
  exact ⟨before ++ a, after, by simp, by simp⟩

lemma le (h : Holds buf pos a) : pos + a.length ≤ buf.length := by
  obtain ⟨before, after, rfl, rfl⟩ := h
  simp

lemma get_head (h : Holds buf pos (x :: a)) : buf[pos]? = some x := by
  obtain ⟨before, after, rfl, rfl⟩ := h
  simp

lemma tail (h : Holds buf pos (x :: a)) : Holds buf (pos + 1) a := h.right (a := [x])

lemma take (h : Holds buf pos a) : (buf.drop pos).take a.length = a := by
  obtain ⟨before, after, rfl, rfl⟩ := h
  simp

lemma of_prefix (h : a <+: buf.drop pos) (hpos : pos ≤ buf.length) : Holds buf pos a := by
  obtain ⟨after, hafter⟩ := h
  refine ⟨buf.take pos, after, ?_, length_take_of_le hpos⟩
  rw [append_assoc, hafter, take_append_drop]

lemma drop_eq (h : Holds buf pos a) : ∃ after, buf.drop pos = a ++ after := by
  obtain ⟨before, after, rfl, rfl⟩ := h
  exact ⟨after, by simp⟩

lemma eq_of_length (h : Holds buf 0 a) (hlen : a.length = buf.length) : buf = a := by
  obtain ⟨before, after, rfl, hbefore⟩ := h
  cases before with
  | nil =>
    have hafter : after = [] := by simpa using hlen
    simp [hafter]
  | cons x rest => cases hbefore

lemma of_get (h : buf[pos]? = some x) : Holds buf pos [x] := by
  obtain ⟨hlt, rfl⟩ := List.getElem?_eq_some_iff.mp h
  refine of_prefix ⟨buf.drop (pos + 1), ?_⟩ hlt.le
  rw [drop_eq_getElem_cons hlt, singleton_append]

lemma join (ha : Holds buf pos a) (hb : Holds buf (pos + a.length) b) : Holds buf pos (a ++ b) := by
  obtain ⟨after, hafter⟩ := ha.drop_eq
  obtain ⟨after', hafter'⟩ := hb.drop_eq
  refine of_prefix ⟨after', ?_⟩ ((Nat.le_add_right _ _).trans ha.le)
  rw [← drop_drop, hafter, drop_left] at hafter'
  rw [hafter, hafter', append_assoc]

end Holds

section Bind

variable {α β : Type} {p : ReadM α} {k : α → ReadM β} {r : Reader}

lemma bind_ok {v : α} {r' : Reader} (h : p r = .ok (v, r')) : (p >>= k) r = k v r' := by
  change (p r).bind _ = _
  rw [h]
  rfl

lemma bind_error {e : ProtoError} (h : p r = .error e) : (p >>= k) r = .error e := by
  change (p r).bind _ = _
  rw [h]
  rfl

lemma get_bind {k : Reader → ReadM β} : (get >>= k) r = k r r := rfl

lemma bind_inv {v : β} {r' : Reader} (h : (p >>= k) r = .ok (v, r')) :
    ∃ a r₁, p r = .ok (a, r₁) ∧ k a r₁ = .ok (v, r') := by
  change (p r).bind _ = _ at h
  cases hp : p r with
  | error e =>
    rw [hp] at h
    cases h
  | ok res =>
    rw [hp] at h
    exact ⟨res.1, res.2, rfl, h⟩

end Bind

/-- Reading from `r` stops at `stop` with a result as described if the pointer
chains on the way are short, and fails if they are not. -/
structure Reads {α : Type} (p : ReadM α) (r : Reader) (short : Prop) (post : α → Prop)
    (stop : ℕ) : Prop where
  ok : short → ∃ v, p r = .ok (v, { r with pos := stop }) ∧ post v
  error : ¬ short → ∃ e, p r = .error e

namespace Reads

variable {α β : Type} {p : ReadM α} {k : α → ReadM β} {r : Reader} {short short' : Prop}
  {post : α → Prop} {post' : β → Prop} {mid stop : ℕ}

variable {v : α}

lemma of_eq (h : p r = .ok (v, { r with pos := stop })) : Reads p r True (· = v) stop :=
  ⟨fun _ => ⟨v, h, rfl⟩, fun hn => absurd trivial hn⟩

lemma bind (h : Reads p r short post mid)
    (hk : ∀ v, post v → Reads (k v) { r with pos := mid } short' post' stop) :
    Reads (p >>= k) r (short ∧ short') post' stop := by
  constructor
  · rintro ⟨hs, hs'⟩
    obtain ⟨v, hv, hpost⟩ := h.ok hs
    obtain ⟨v', hv', hpost'⟩ := (hk v hpost).ok hs'
    exact ⟨v', (bind_ok hv).trans hv', hpost'⟩
  intro hn
  by_cases hs : short
  · obtain ⟨v, hv, hpost⟩ := h.ok hs
    obtain ⟨e, he⟩ := (hk v hpost).error fun hs' => hn ⟨hs, hs'⟩
    exact ⟨e, (bind_ok hv).trans he⟩
  · obtain ⟨e, he⟩ := h.error hs
    exact ⟨e, bind_error he⟩

lemma bind_plain (h : p r = .ok (v, { r with pos := mid }))
    (hk : Reads (k v) { r with pos := mid } short post' stop) :
    Reads (p >>= k) r short post' stop := by
  constructor
  · intro hs
    rw [bind_ok h]
    exact hk.ok hs
  · intro hs
    rw [bind_ok h]
    exact hk.error hs

lemma get_bind {k : Reader → ReadM β} (h : Reads (k r) r short post' stop) :
    Reads (get >>= k) r short post' stop := ⟨h.ok, h.error⟩

lemma pure (h : post v) : Reads (Pure.pure v) r True post r.pos :=
  ⟨fun _ => ⟨v, rfl, h⟩, fun hn => absurd trivial hn⟩

lemma mono {post₂ : α → Prop} (h : Reads p r short post stop) (hs : short ↔ short')
    (hp : ∀ v, post v → post₂ v) : Reads p r short' post₂ stop := by
  constructor
  · intro hs'
    obtain ⟨v, hv, hpost⟩ := h.ok (hs.mpr hs')
    exact ⟨v, hv, hp v hpost⟩
  · intro hs'
    exact h.error fun h' => hs' (hs.mp h')

end Reads

/-- Bytes that are read as `v` wherever they stand. -/
def Restores {α : Type} (p : ReadM α) (bytes : Bytes) (v : α) : Prop :=
  ∀ ⦃buf : Bytes⦄ ⦃pos limit : ℕ⦄, Holds buf pos bytes → pos + bytes.length ≤ limit →
    p ⟨buf, pos, limit⟩ = .ok (v, ⟨buf, pos + bytes.length, limit⟩)

namespace Restores

variable {α β : Type} {p : ReadM α} {k : α → ReadM β} {bytes rest buf : Bytes} {v : α} {w : β}
  {pos limit : ℕ}

lemma pure (v : α) : Restores (Pure.pure v) [] v := fun _ _ _ _ _ => rfl

lemma bind (h : Restores p bytes v) (hk : Restores (k v) rest w) :
    Restores (p >>= k) (bytes ++ rest) w := by
  intro buf pos limit hb hl
  rw [length_append] at hl ⊢
  rw [bind_ok (h hb.left (by omega)), hk hb.right (by omega), add_assoc]

lemma last (h : Restores p bytes v) (hk : k v = Pure.pure w) : Restores (p >>= k) bytes w := by
  have hend : Restores (k v) [] w := hk ▸ .pure w
  simpa only [append_nil] using h.bind hend

lemma front (h : Restores p bytes v) (hb : Holds buf pos (bytes ++ rest))
    (hl : pos + bytes.length ≤ limit) :
    (p >>= k) ⟨buf, pos, limit⟩ = k v ⟨buf, pos + bytes.length, limit⟩ := bind_ok (h hb.left hl)

end Restores

lemma Reads.bind_front {α β : Type} {p : ReadM α} {k : α → ReadM β} {bytes rest buf : Bytes}
    {v : α} {pos limit stop : ℕ} {short : Prop} {post : β → Prop} (h : Restores p bytes v)
    (hb : Holds buf pos (bytes ++ rest)) (hl : pos + bytes.length ≤ limit)
    (hk : Holds buf (pos + bytes.length) rest → Reads (k v) ⟨buf, pos + bytes.length, limit⟩ short
      post stop) : Reads (p >>= k) ⟨buf, pos, limit⟩ short post stop :=
  .bind_plain (h hb.left hl) (hk hb.right)

section Fields

lemma u8_restores (x : UInt8) : Restores Reader.u8 [x] x := by
  intro buf pos limit h hl
  unfold Reader.u8
  rw [if_neg (show ¬limit ≤ pos by simpa using hl)]
  simp only [h.get_head, length_singleton]

lemma u16_restores (v : UInt16) : Restores u16 (be16 v) v := by
  obtain ⟨hi, lo, hbytes⟩ : ∃ hi lo, be16 v = [hi, lo] := ⟨_, _, rfl⟩
  have hvalue : ofBe16 [hi, lo] = v := hbytes ▸ ofBe16_be16 v
  rw [hbytes]
  exact (u8_restores hi).bind ((u8_restores lo).last (congrArg pure hvalue))

/-- Both halves of a 32-bit field. -/
theorem be32_eq (v : UInt32) :
    be32 v = be16 (ofNat (v.toNat / 65536)) ++ be16 (ofNat (v.toNat % 65536)) := by
  have hv : v.toNat < 65536 * 65536 := v.toNat_lt
  have hhi : (ofNat (v.toNat / 65536)).toNat = v.toNat / 65536 := by
    rw [toNat_ofNat']
    omega
  have hlo : (ofNat (v.toNat % 65536)).toNat = v.toNat % 65536 := by
    rw [toNat_ofNat']
    omega
  rw [be16, be16, be32]
  simp only [encode, cons_append, nil_append, cons.injEq, and_true]
  refine ⟨?_, ?_, ?_, ?_⟩ <;> · apply UInt8.toNat.inj; simp only [UInt8.toNat_ofNat']; omega

lemma u32_restores (v : UInt32) : Restores u32 (be32 v) v := by
  have hv : v.toNat < 65536 * 65536 := v.toNat_lt
  have hvalue : .ofNat ((ofNat (v.toNat / 65536)).toNat * 65536 +
      (ofNat (v.toNat % 65536)).toNat) = v := by
    apply UInt32.toNat.inj
    rw [UInt32.toNat_ofNat', toNat_ofNat', toNat_ofNat']
    omega
  rw [be32_eq]
  exact (u16_restores _).bind ((u16_restores _).last (congrArg pure hvalue))

section

variable {β : Type} {buf rest : Bytes} {pos limit : ℕ}

lemma u8_at {k : UInt8 → ReadM β} (h : Holds buf pos ([x] ++ rest))
    (hl : pos + 1 ≤ limit) : (Reader.u8 >>= k) ⟨buf, pos, limit⟩ = k x ⟨buf, pos + 1, limit⟩ :=
  (u8_restores x).front h hl

lemma u16_at {v : UInt16} {k : UInt16 → ReadM β} (h : Holds buf pos (be16 v ++ rest))
    (hl : pos + 2 ≤ limit) : (u16 >>= k) ⟨buf, pos, limit⟩ = k v ⟨buf, pos + 2, limit⟩ :=
  (u16_restores v).front h hl

lemma u32_at {v : UInt32} {k : UInt32 → ReadM β} (h : Holds buf pos (be32 v ++ rest))
    (hl : pos + 4 ≤ limit) : (u32 >>= k) ⟨buf, pos, limit⟩ = k v ⟨buf, pos + 4, limit⟩ :=
  (u32_restores v).front h hl

end

lemma bytes_restores (bytes : Bytes) : Restores (Reader.bytes bytes.length) bytes bytes := by
  intro buf pos limit h hl
  have hle := h.le
  rw [Reader.bytes, if_neg (by simp only; omega), if_neg (by simp only; omega)]
  simp only [h.take]

variable {n pos limit stop fuel : ℕ} {buf : Bytes}

lemma octets_restores (x : Octets n) : Restores (octets n) x.bytes x := by
  intro buf pos limit h hl
  obtain ⟨bytes, rfl⟩ := x
  have hle : pos + bytes.length ≤ buf.length := h.le
  have hl' : pos + bytes.length ≤ limit := hl
  have htake : (buf.drop pos).take bytes.length = bytes := h.take
  rw [octets, if_neg (by simp only; omega), dif_neg (by simp only; omega)]
  simp only [htake]

def charString (s : Bytes) : Bytes := UInt8.ofNat s.length :: s

@[simp] lemma charString_length (s : Bytes) : (charString s).length = s.length + 1 := rfl

lemma toNat_ofNat_le (h : n ≤ 255) : (UInt8.ofNat n).toNat = n := by
  rw [UInt8.toNat_ofNat']
  omega

lemma toNat_ofNat_le16 (h : n ≤ 65535) : (ofNat n).toNat = n := by
  rw [toNat_ofNat']
  omega

lemma readCharString_restores {s : Bytes} (hs : s.length ≤ 255) :
    Restores readCharString (charString s) s := by
  have hbytes := bytes_restores s
  rw [← toNat_ofNat_le hs] at hbytes
  exact (u8_restores (.ofNat s.length)).bind hbytes

/-- A loop that reads parts until it comes to its end, with fuel for every part. -/
theorem restores_parts {α : Type} (one : ReadM α) {loop : ℕ → ReadM (List α)} {write : α → Bytes}
    {parts : List α} (hempty : loop 0 = pure [])
    (hloop : ∀ fuel, loop (fuel + 1) = do
      if (← get).pos < stop then do
        let part ← one
        return part :: (← loop fuel)
      else return [])
    (hone : ∀ part ∈ parts, Restores one (write part) part) (hpos : ∀ part, 0 < (write part).length)
    (h : Holds buf pos (parts.flatMap write)) (hfuel : parts.length ≤ fuel)
    (hstop : stop = pos + (parts.flatMap write).length) (hl : stop ≤ limit) :
    loop fuel ⟨buf, pos, limit⟩ = .ok (parts, ⟨buf, stop, limit⟩) := by
  induction parts generalizing pos fuel with
  | nil =>
    obtain rfl : stop = pos := hstop
    cases fuel with
    | zero =>
      rw [hempty]
      rfl
    | succ fuel =>
      rw [hloop, get_bind, if_neg (lt_irrefl _)]
      rfl
  | cons part rest ih =>
    obtain ⟨fuel, rfl⟩ : ∃ k, fuel = k + 1 := ⟨fuel - 1, by simp at hfuel; omega⟩
    have hpart := hpos part
    rw [flatMap_cons] at h hstop
    rw [length_append] at hstop
    rw [hloop, get_bind, if_pos (show pos < stop by omega),
      (hone part mem_cons_self).front h (by omega),
      bind_ok (ih (fun x hx => hone x (mem_cons_of_mem _ hx)) h.right (by simpa using hfuel)
        (by omega))]
    rfl

/-- A parameter with its key and length. -/
def paramBytes (param : UInt16 × Bytes) : Bytes :=
  be16 param.1 ++ (be16 (UInt16.ofNat param.2.length) ++ param.2)

lemma paramBytes_length (param : UInt16 × Bytes) :
    (paramBytes param).length = 4 + param.2.length := by
  simp only [paramBytes, length_append, be16_length]
  omega

lemma readChunks_holds {chunks : List Bytes} (hs : ∀ c ∈ chunks, c.length ≤ 255)
    (h : Holds buf pos (chunks.flatMap charString)) (hfuel : chunks.length ≤ fuel)
    (hstop : stop = pos + (chunks.flatMap charString).length) (hl : stop ≤ limit) :
    readChunks stop fuel ⟨buf, pos, limit⟩ = .ok (chunks, ⟨buf, stop, limit⟩) :=
  restores_parts readCharString rfl (fun _ => rfl) (fun c hc => readCharString_restores (hs c hc))
    (fun _ => Nat.succ_pos _) h hfuel hstop hl

lemma readParams_holds {params : List (UInt16 × Bytes)}
    (hs : ∀ param ∈ params, param.2.length ≤ 65535) (h : Holds buf pos (params.flatMap paramBytes))
    (hfuel : params.length ≤ fuel) (hstop : stop = pos + (params.flatMap paramBytes).length)
    (hl : stop ≤ limit) :
    readParams stop fuel ⟨buf, pos, limit⟩ = .ok (params, ⟨buf, stop, limit⟩) := by
  refine restores_parts (do
      let key ← u16
      let plen ← u16
      return (key, ← bytes plen.toNat)) rfl (fun fuel => ?_) (fun param hparam => ?_)
    (fun param => ?_) h hfuel hstop hl
  · simp only [readParams, bind_assoc, pure_bind]
  · have hvalue := bytes_restores param.2
    rw [← toNat_ofNat_le16 (hs param hparam)] at hvalue
    exact (u16_restores param.1).bind ((u16_restores _).bind (hvalue.last rfl))
  · rw [paramBytes_length]
    omega

end Fields

section Plain

variable {buf : Bytes} {pos : ℕ}

lemma spells_of_holds {labels : List Bytes}
    (hlen : ∀ l ∈ labels, 1 ≤ l.length ∧ l.length ≤ 63) (h : Holds buf pos (wireOf labels)) :
    Spells buf pos labels 0 (pos + wireLen labels) := by
  induction labels generalizing pos with
  | nil => exact .root h.get_head
  | cons label rest ih =>
    rw [wireOf_cons] at h
    have hrest := ih (fun l hl => hlen l (mem_cons_of_mem _ hl)) h.tail.right
    have hle := h.tail.left.le
    rw [wireLen_cons, show pos + (label.length + 1 + wireLen rest) =
      pos + 1 + label.length + wireLen rest by omega]
    exact .label (hlen label mem_cons_self) h.get_head hle h.tail.left.take hrest

lemma Name.parse_restores (n : Name) : Restores Name.parse n.wire n := by
  intro buf pos limit h hl
  have hspells := spells_of_holds n.label_len h
  have hlen : n.wire.length = wireLen n.labels := wireOf_length _
  rw [hlen] at hl ⊢
  exact (parse_of_spells (r := ⟨buf, pos, limit⟩) hspells n.wire_len hl).1 (Nat.zero_le _)

lemma parsePlainLabels_restores {labels : List Bytes}
    (hlen : ∀ l ∈ labels, 1 ≤ l.length ∧ l.length ≤ 63) {fuel total : ℕ}
    (hfuel : labels.length < fuel) (htotal : total + wireLen labels ≤ maxNameLen + 1) :
    Restores (Name.parsePlainLabels fuel total) (wireOf labels) labels := by
  induction labels generalizing fuel total with
  | nil =>
    obtain ⟨fuel, rfl⟩ : ∃ k, fuel = k + 1 := ⟨fuel - 1, by omega⟩
    exact (u8_restores 0).last rfl
  | cons label rest ih =>
    obtain ⟨fuel, rfl⟩ : ∃ k, fuel = k + 1 := ⟨fuel - 1, by omega⟩
    have hlabel := hlen label mem_cons_self
    have hpos : 1 ≤ wireLen rest := Nat.one_le_iff_ne_zero.mpr (by unfold wireLen; omega)
    rw [wireLen_cons] at htotal
    have hkind : ¬ (Name.labelKind (UInt8.ofNat label.length) ≠ 0 ∨
        63 < UInt8.ofNat label.length) := by
      rintro (hk | hk)
      · exact hk (labelKind_of_le hlabel.2)
      · rw [UInt8.lt_iff_toNat_lt] at hk
        exact absurd hk (by simp; omega)
    have hrest : Restores (Name.parsePlainLabels fuel (total + (label.length + 1))) (wireOf rest) rest :=
      ih (fun l hl => hlen l (mem_cons_of_mem _ hl)) (by simp at hfuel; omega) (by omega)
    rw [wireOf_cons]
    refine (u8_restores (.ofNat label.length)).bind ?_
    rw [if_neg (label_ne_zero hlabel), if_neg hkind, toNat_label hlabel.2, if_neg (by omega)]
    exact (bytes_restores label).bind (hrest.last rfl)

lemma Name.fromLabels_labels (n : Name) : Name.fromLabels n.labels = .ok n := by
  rw [fromLabels, dif_pos n.label_len, dif_pos n.wire_len]

lemma Name.parseUncompressed_restores (n : Name) : Restores Name.parseUncompressed n.wire n := by
  have hlabels := length_le_wireLen n.labels
  have hwire := n.wire_len
  refine (parsePlainLabels_restores n.label_len (by omega) (by omega)).last ?_
  rw [fromLabels_labels]
  rfl

end Plain

end OnetDns.Dns
