import OnetDns.Dnssec.Zone

/-!
# What a denial with NSEC shows

The checks guess the closest encloser from the owners that are among the records. A
record that spans a name shows that the name owns nothing, but the name may still be
there because of what lies below it. So the checks can be trusted exactly as long as no
record spans such a name right below the guessed encloser.
-/
namespace OnetDns.Dnssec
open Dns LabelTree List

variable {Z : Zone} {records : List Record} {qname : Name} {t : RecordType} {x : Path}

/-- The records are of the chain of the zone. -/
def Zone.NsecSet (Z : Zone) (records : List Record) : Prop := ∀ r ∈ records, ∃ nsec, Z.NsecOf r nsec

open Zone

/-- A name that is said not to exist does not, and no wildcard answers for it. -/
def NameSound (Z : Zone) (records : List Record) (qname : Name) : Prop :=
  proveNameNonexistent records qname = true →
    ¬Present Z.owners qname.path ∧
      ∀ e, Encloses Z.owners e qname.path → ¬Present Z.owners (e ++ [star])

/-- A name that is said to lack a type is served neither that type nor CNAME. -/
def NodataSound (Z : Zone) (records : List Record) (qname : Name) (t : RecordType) : Prop :=
  proveNodata records qname t = true → ¬Z.Serves qname.path t ∧ ¬Z.Serves qname.path .CNAME

/-- Everything that the checks say of a name is true, and they agree with the functions
that choose the records. -/
structure DenialSound (Z : Zone) (records : List Record) (qname : Name) : Prop where
  name : NameSound Z records qname
  nodata : ∀ t, NodataSound Z records qname t
  nameProof : (nsecNameNonexistentProof records qname).isSome = proveNameNonexistent records qname
  nodataProof : ∀ t, (nsecNodataProof records qname t).isSome = proveNodata records qname t

lemma Zone.NsecSet.owned (h : Z.NsecSet records) (hx : Owned records x) : x ∈ Z.owners := by
  obtain ⟨r, hr, -, rfl, -⟩ := hx
  obtain ⟨nsec, hof⟩ := h r hr
  exact hof.next.left

lemma Zone.NsecSet.spanned (h : Z.NsecSet records) (hx : Spanned records x) : x ∉ Z.owners := by
  obtain ⟨r, hr, -, nsec, hparsed, harc⟩ := hx
  obtain ⟨nsec', hof⟩ := h r hr
  obtain rfl := Option.some.inj (hparsed.symm.trans hof.parsed)
  exact hof.next.not_mem harc

lemma Zone.NsecSet.lacking (h : Z.NsecSet records) (hx : Lacking records x t) :
    x ∈ Z.owners ∧ ¬Z.types x t ∧ ¬Z.types x .CNAME := by
  obtain ⟨r, hr, -, rfl, nsec, hparsed, ht, hcname⟩ := hx
  obtain ⟨nsec', hof⟩ := h r hr
  obtain rfl := Option.some.inj (hparsed.symm.trans hof.parsed)
  refine ⟨hof.next.left, ?_, ?_⟩
  · rw [← hof.types, ht]
    exact Bool.false_ne_true
  · rw [← hof.types, hcname]
    exact Bool.false_ne_true

lemma not_serves_of_present (hx : Present Z.owners x) (ht : ¬Z.types x t) : ¬Z.Serves x t := by
  rintro (hown | ⟨hnone, -⟩)
  · exact ht hown
  · exact hnone hx

lemma not_serves_of_encloses {e : Path} (hx : ¬Present Z.owners x)
    (he : Encloses Z.owners e x) (ht : ¬Z.types (e ++ [star]) t) : ¬Z.Serves x t := by
  rintro (hown | ⟨-, e', he', hwild⟩)
  · exact hx (present_of_mem hown.1)
  · rw [he'.unique he] at hwild
    exact ht hwild

/-- Below the guessed encloser, the first `k` labels of the name, no record spans an empty
non-terminal: neither the next name on the way nor, beside it, the wildcard. -/
def Clear (Z : Zone) (records : List Record) (q : Path) : Prop :=
  ∀ k, Deepest (Owned records) q k → Spanned records (q.take (k + 1)) →
    ¬Hollow Z.owners (q.take (k + 1)) ∧
      (Spanned records (q.take k ++ [star]) → ¬Hollow Z.owners (q.take k ++ [star]))

section Soundness

variable (hset : Z.NsecSet records)
include hset

lemma encloses_of_spanned {q : Path} {k : ℕ} (hdeep : Deepest (Owned records) q k)
    (hspan : Spanned records (q.take (k + 1))) (hfull : ¬Hollow Z.owners (q.take (k + 1))) :
    ¬Present Z.owners q ∧ Encloses Z.owners (q.take k) q := by
  have hchild : ¬Present Z.owners (q.take (k + 1)) :=
    fun hpresent => hfull ⟨hpresent, hset.spanned hspan⟩
  refine ⟨fun hq => hchild (hq.above ( take_prefix _ _)), ?_⟩
  exact encloses_take (present_of_mem (hset.owned hdeep.holds)) hchild

lemma nameSound_of_clear (hclear : Clear Z records qname.path) : NameSound Z records qname := by
  intro hprove
  obtain ⟨k, hdeep, hspan, hwild⟩ := proveNameNonexistent_iff.mp hprove
  obtain ⟨hfull, hbeside⟩ := hclear k hdeep hspan
  obtain ⟨hnone, hencl⟩ := encloses_of_spanned hset hdeep hspan hfull
  refine ⟨hnone, ?_⟩
  intro e he hpresent
  rw [he.unique hencl] at hpresent
  exact hbeside hwild ⟨hpresent, hset.spanned hwild⟩

lemma nodataSound_of_clear (hclear : Clear Z records qname.path) :
    NodataSound Z records qname t := by
  intro hprove
  rcases proveNodata_iff.mp hprove with hexact | ⟨k, hdeep, hspan, hlacks⟩
  · obtain ⟨hown, ht, hcname⟩ := hset.lacking hexact
    have hpresent := present_of_mem hown
    exact ⟨not_serves_of_present hpresent ht, not_serves_of_present hpresent hcname⟩
  · obtain ⟨hnone, hencl⟩ := encloses_of_spanned hset hdeep hspan (hclear k hdeep hspan).1
    obtain ⟨-, ht, hcname⟩ := hset.lacking hlacks
    exact ⟨not_serves_of_encloses hnone hencl ht, not_serves_of_encloses hnone hencl hcname⟩

/-- A name with both spans is denied although the wildcard beside the next name is there. -/
lemma not_nameSound_of_hollow_wildcard {k : ℕ} (hdeep : Deepest (Owned records) qname.path k)
    (hspan : Spanned records (qname.path.take (k + 1)))
    (hfull : ¬Hollow Z.owners (qname.path.take (k + 1)))
    (hwild : Spanned records (qname.path.take k ++ [star]))
    (hhollow : Hollow Z.owners (qname.path.take k ++ [star])) : ¬NameSound Z records qname := by
  intro hsound
  obtain ⟨-, hencl⟩ := encloses_of_spanned hset hdeep hspan hfull
  have hprove := proveNameNonexistent_iff.mpr ⟨k, hdeep, hspan, hwild⟩
  exact (hsound hprove).2 _ hencl hhollow.1

omit hset in
/-- An empty non-terminal with both spans is denied. -/
lemma not_nameSound_of_hollow {k : ℕ} (hdeep : Deepest (Owned records) qname.path k)
    (hspan : Spanned records (qname.path.take (k + 1)))
    (hhollow : Hollow Z.owners (qname.path.take (k + 1)))
    (hwild : Spanned records (qname.path.take k ++ [star])) :
    ¬NameSound Z records (qname.suffix (k + 1)) := by
  intro hsound
  have hlen : (qname.suffix (k + 1)).path.length = k + 1 := by
    rw [Name.suffix_path, length_take_of_le hdeep.short]
  have htake : (qname.suffix (k + 1)).path.take k = qname.path.take k := by
    rw [Name.suffix_path, take_take, min_eq_left (Nat.le_succ k)]
  have hself : (qname.suffix (k + 1)).path.take (k + 1) = qname.path.take (k + 1) := by
    rw [Name.suffix_path, take_take, min_self]
  have hprove : proveNameNonexistent records (qname.suffix (k + 1)) = true := by
    rw [proveNameNonexistent_iff]
    refine ⟨k, hdeep.child hlen htake, ?_, ?_⟩
    · rw [hself]
      exact hspan
    · rw [htake]
      exact hwild
  have hnone := (hsound hprove).1
  rw [Name.suffix_path] at hnone
  exact hnone hhollow.1

/-- The checks can be trusted with a name when no record spans an empty non-terminal in their
way. Where one does and the wildcard is spanned too, they deny the name or the non-terminal
although it is there or served. -/
theorem nsec_denial_sound :
    (Clear Z records qname.path → DenialSound Z records qname) ∧
      ∀ k, Deepest (Owned records) qname.path k → Spanned records (qname.path.take (k + 1)) →
        Spanned records (qname.path.take k ++ [star]) →
        (Hollow Z.owners (qname.path.take (k + 1)) →
          ¬DenialSound Z records (qname.suffix (k + 1))) ∧
        (¬Hollow Z.owners (qname.path.take (k + 1)) →
          Hollow Z.owners (qname.path.take k ++ [star]) → ¬DenialSound Z records qname) := by
  refine ⟨fun hclear => ?_, fun k hdeep hspan hwild => ⟨fun hhollow hsound => ?_,
    fun hfull hhollow hsound => ?_⟩⟩
  · exact ⟨nameSound_of_clear hset hclear, fun t => nodataSound_of_clear hset hclear,
      nsecNameNonexistentProof_isSome, fun t => nsecNodataProof_isSome⟩
  · exact not_nameSound_of_hollow hdeep hspan hhollow hwild hsound.name
  · exact not_nameSound_of_hollow_wildcard hset hdeep hspan hfull hwild hhollow hsound.name

end Soundness

def nsecRecord (owner : Name) (raw : Bytes) : Record := ⟨owner, .NSEC, 1, 300, .unknown 47 raw⟩

lemma nsecOf_table {T : Zone.Table} {r : Record} {nsec : Nsec} (entry : Path × List RecordType)
    (hrtype : r.rtype = .NSEC := by decide)
    (hparsed : Nsec.fromRecord r = some nsec := by decide +kernel)
    (hentry : entry ∈ T.entries := by decide) (howner : r.name.path = entry.1 := by decide)
    (honce : ∀ other ∈ T.entries, other.1 = entry.1 → other = entry := by decide)
    (hnext : nsec.next.path ∈ T.entries.map Prod.fst := by decide)
    (hempty : ∀ x ∈ T.entries.map Prod.fst, ¬Arc entry.1 nsec.next.path x := by decide)
    (htypes : nsec.types = entry.2 := by decide) : (Zone.ofTable T).NsecOf r nsec := by
  refine ⟨hrtype, hparsed, ⟨?_, ?_, ?_⟩, ?_⟩
  · rw [mem_ofTable_owners, howner]
    exact mem_map.mpr ⟨entry, hentry, rfl⟩
  · rw [mem_ofTable_owners]
    exact hnext
  · intro x hx
    rw [mem_ofTable_owners] at hx
    rw [howner]
    exact hempty x hx
  · intro t
    rw [ofTable_types, howner, Nsec.hasType, htypes, contains_iff_mem]
    constructor
    · exact fun ht => ⟨entry, hentry, rfl, ht⟩
    · rintro ⟨other, hother, hx, ht⟩
      rw [honce other hother hx] at ht
      exact ht

/-- A zone `z` that has `b.a.z`, so that `a.z` is there without owning anything. -/
def hollowTable : Zone.Table where
  apex := [[122]]
  entries := [([[122]], [2, 6, 46, 47]), ([[122], [97], [98]], [1, 46, 47])]
  within := by decide
  filled := by decide
  apex_soa := by decide
  cuts := by decide

def hollowChain : List Record :=
  [nsecRecord ⟨[[122]], by decide, by decide⟩
      [1, 98, 1, 97, 1, 122, 0, 0, 6, 0x22, 0, 0, 0, 0, 3],
    nsecRecord ⟨[[98], [97], [122]], by decide, by decide⟩ [1, 122, 0, 0, 6, 0x40, 0, 0, 0, 0, 3]]

lemma hollowChain_nsecSet : (Zone.ofTable hollowTable).NsecSet hollowChain :=
  forall_mem_cons.mpr ⟨⟨⟨⟨[[98], [97], [122]], by decide, by decide⟩, [2, 6, 46, 47]⟩,
      nsecOf_table ([[122]], [2, 6, 46, 47])⟩,
    forall_mem_singleton.mpr ⟨⟨⟨[[122]], by decide, by decide⟩, [1, 46, 47]⟩,
      nsecOf_table ([[122], [97], [98]], [1, 46, 47])⟩⟩

/-- The record of `z` spans `a.z` and `*.z`, so `a.z` is said not to exist. -/
theorem hollow_name_denied :
    ¬∀ (Z : Zone) (records : List Record), Z.NsecSet records → ∀ qname : Name,
      Z.InScope qname.path → DenialSound Z records qname := by
  intro h
  have hsound := h _ _ hollowChain_nsecSet ⟨[[97], [122]], by decide, by decide⟩
    (Zone.ofTable_inScope hollowTable (by decide) (by decide))
  have hdenied := (hsound.name (by decide +kernel)).1
  refine hdenied ⟨[[122], [97], [98]], ?_, by decide⟩
  rw [Zone.mem_ofTable_owners]
  decide

/-- A zone `z` with `a.z` and nothing in between. -/
def plainTable : Zone.Table where
  apex := [[122]]
  entries := [([[122]], [2, 6, 46, 47]), ([[122], [97]], [1, 46, 47])]
  within := by decide
  filled := by decide
  apex_soa := by decide
  cuts := by decide

def plainChain : List Record :=
  [nsecRecord ⟨[[122]], by decide, by decide⟩ [1, 97, 1, 122, 0, 0, 6, 0x22, 0, 0, 0, 0, 3],
    nsecRecord ⟨[[97], [122]], by decide, by decide⟩ [1, 122, 0, 0, 6, 0x40, 0, 0, 0, 0, 3]]

lemma plainChain_nsecSet : (Zone.ofTable plainTable).NsecSet plainChain :=
  forall_mem_cons.mpr ⟨⟨⟨⟨[[97], [122]], by decide, by decide⟩, [2, 6, 46, 47]⟩,
      nsecOf_table ([[122]], [2, 6, 46, 47])⟩,
    forall_mem_singleton.mpr ⟨⟨⟨[[122]], by decide, by decide⟩, [1, 46, 47]⟩,
      nsecOf_table ([[122], [97]], [1, 46, 47])⟩⟩

/-- Every name of this zone owns something. -/
lemma plainTable_not_hollow (hx : [[122]] <+: x) : ¬Hollow (Zone.ofTable plainTable).owners x := by
  rintro ⟨⟨o, ho, hinit⟩, hown⟩
  rw [mem_ofTable_owners] at ho hown
  simp only [plainTable, map_cons, map_nil, mem_cons, not_mem_nil, or_false] at ho hown
  rcases ho with rfl | rfl
  · exact hown (.inl (hinit.eq_of_length (le_antisymm hinit.length_le hx.length_le)))
  rw [← mem_inits] at hinit
  simp only [inits, map_cons, map_nil, mem_cons, not_mem_nil, or_false] at hinit
  rcases hinit with rfl | hself
  · exact absurd hx (by decide)
  · exact hown hself

lemma plainChain_clear (q : Path) : Clear (Zone.ofTable plainTable) plainChain q := by
  intro k hdeep _
  have hapex : [[122]] <+: q.take k := apex_above (plainChain_nsecSet.owned hdeep.holds)
  refine ⟨plainTable_not_hollow (hapex.trans ?_), fun _ => plainTable_not_hollow (hapex.trans ?_)⟩
  · exact take_prefix_take_left (l := q) (Nat.le_succ k)
  · exact prefix_append _ _

theorem nsec_denial_sound_plain :
    proveNameNonexistent plainChain ⟨[[98], [122]], by decide, by decide⟩ = true ∧
      proveNodata plainChain ⟨[[97], [122]], by decide, by decide⟩ .AAAA = true ∧
      ∀ qname : Name, DenialSound (Zone.ofTable plainTable) plainChain qname :=
  ⟨by decide +kernel, by decide +kernel,
    fun qname => (nsec_denial_sound plainChain_nsecSet).1 (plainChain_clear qname.path)⟩

end OnetDns.Dnssec
