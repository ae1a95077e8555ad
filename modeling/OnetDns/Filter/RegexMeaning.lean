import OnetDns.Filter.RegexProgram
import OnetDns.Filter.RegexAccepted
import OnetDns.Lib.Blocks

/-!
# What a regular expression means

The positions of an input that a tree relates, and the code of a tree as a block that realises
just this relation, by induction on the tree.
-/
namespace OnetDns.Filter.Regex
open Blocks Guarded List Nat

variable {input : List UInt8} {P insts insts' insts'' : List Inst} {i j n : ℕ}

mutual

/-- From which position to which a tree matches the input. -/
def Matches (input : List UInt8) : Ast → ℕ → ℕ → Prop
  | .empty => Eq
  | .literal b => fun i j => input[i]? = some b ∧ j = i + 1
  | .anyChar dotall => fun i j =>
    (∃ b, input[i]? = some b ∧ (dotall = true ∨ b ≠ newline)) ∧ j = i + 1
  | .charClass negated ranges => fun i j =>
    (∃ b, input[i]? = some b ∧ ((∃ r ∈ ranges, r.1 ≤ b ∧ b ≤ r.2) ↔ negated = false)) ∧ j = i + 1
  | .concat parts => MatchesInTurn input parts
  | .alt branches => MatchesOne input branches
  | .repetition node min max => fun i j =>
    ∃ k, min ≤ k ∧ (∀ m, max = some m → k ≤ m) ∧ Times (Matches input node) k i j
  | .startAnchor multiline => fun i j =>
    i = j ∧ (i = 0 ∨ multiline = true ∧ input[i - 1]? = some newline)
  | .endAnchor multiline => fun i j =>
    i = j ∧ (i = input.length ∨ multiline = true ∧ input[i]? = some newline)
  | .wordBoundary want => fun i j => i = j ∧
    (((0 < i ∧ ∃ b, input[i - 1]? = some b ∧ isWord b) ↔ ∃ b, input[i]? = some b ∧ isWord b) ↔
      want = false)

/-- One tree after the other. -/
def MatchesInTurn (input : List UInt8) : List Ast → ℕ → ℕ → Prop
  | [] => Eq
  | part :: rest => Relation.Comp (Matches input part) (MatchesInTurn input rest)

/-- One of some trees. -/
def MatchesOne (input : List UInt8) : List Ast → ℕ → ℕ → Prop
  | [] => fun _ _ => False
  | branch :: rest => fun i j => Matches input branch i j ∨ MatchesOne input rest i j

end

/-- One step of a thread: to where its instruction goes on, or over the byte that it takes. -/
def Step (P : List Inst) (input : List UInt8) (c d : ℕ × ℕ) : Prop :=
  ∃ inst, P[c.1]? = some inst ∧ (d.1 ∈ follows input c.2 c.1 inst ∧ d.2 = c.2 ∨
    takes input[c.2]? inst = true ∧ d = (c.1 + 1, c.2 + 1))

variable {inst : Inst} {pc : ℕ}

lemma step_iff (h : P[pc]? = some inst) (d : ℕ × ℕ) :
    Step P input (pc, i) d ↔ d.1 ∈ follows input i pc inst ∧ d.2 = i ∨
      takes input[i]? inst = true ∧ d = (pc + 1, i + 1) := by
  simp [Step, h]

lemma step_split {a b : ℕ} (h : P[pc]? = some (.split a b)) (i : ℕ) (d : ℕ × ℕ) :
    Step P input (pc, i) d ↔ d = (a, i) ∨ d = (b, i) := by
  obtain ⟨q, k⟩ := d
  simp only [step_iff h, follows, mem_cons, Prod.mk.injEq]
  tauto

lemma step_jmp {a : ℕ} (h : P[pc]? = some (.jmp a)) (i : ℕ) (d : ℕ × ℕ) :
    Step P input (pc, i) d ↔ d = (a, i) := by
  obtain ⟨q, k⟩ := d
  simp [step_iff h, follows, takes]

lemma step_found (h : P[pc]? = some .found) (i : ℕ) (d : ℕ × ℕ) : ¬Step P input (pc, i) d := by
  simp [step_iff h, follows, takes]

lemma realises_takes (h : P[pc]? = some inst) (hnone : ∀ i, follows input i pc inst = []) :
    Realises (Step P input) pc (pc + 1) fun i j => takes input[i]? inst = true ∧ j = i + 1 := by
  refine .one fun i d => ?_
  obtain ⟨q, k⟩ := d
  simp only [step_iff h, hnone, not_mem_nil, false_and, false_or, Prod.mk.injEq]
  constructor
  · rintro ⟨htakes, rfl, rfl⟩
    exact ⟨i + 1, ⟨rfl, rfl⟩, htakes, rfl⟩
  · rintro ⟨y, ⟨rfl, rfl⟩, htakes, hy⟩
    exact ⟨htakes, rfl, hy⟩

/-- An instruction that tests the position. -/
theorem realises_tests {test : ℕ → Bool} (h : P[pc]? = some inst)
    (hfollows : ∀ i, follows input i pc inst = if test i = true then [pc + 1] else [])
    (htakes : ∀ b, takes b inst = false) :
    Realises (Step P input) pc (pc + 1) fun i j => i = j ∧ test i = true := by
  refine .one fun i d => ?_
  obtain ⟨q, k⟩ := d
  simp only [step_iff h, hfollows, htakes, Bool.false_eq_true, false_and, or_false, Prod.mk.injEq]
  by_cases htest : test i = true
  · simp only [htest, if_true, mem_singleton, and_true]
    constructor
    · rintro ⟨rfl, rfl⟩
      exact ⟨k, ⟨rfl, rfl⟩, rfl⟩
    · rintro ⟨y, ⟨rfl, rfl⟩, rfl⟩
      exact ⟨rfl, rfl⟩
  · simp [htest]

/-- The code that was there stays. -/
def Keeps (insts insts' : List Inst) : Prop :=
  insts.length ≤ insts'.length ∧ ∀ k < insts.length, insts'[k]? = insts[k]?

lemma Keeps.refl (insts : List Inst) : Keeps insts insts := ⟨le_rfl, fun _ _ => rfl⟩

lemma Keeps.trans (h : Keeps insts insts') (h' : Keeps insts' insts'') : Keeps insts insts'' :=
  ⟨h.1.trans h'.1, fun k hk => (h'.2 k (hk.trans_le h.1)).trans (h.2 k hk)⟩

/-- A program that has the new code of a row of instructions, but for some places. -/
def Has (P insts insts' : List Inst) (but : List ℕ) : Prop :=
  ∀ k, insts.length ≤ k → k < insts'.length → k ∉ but → P[k]? = insts'[k]?

/-- What compiling is to give: the code that was there stays, there is no new end of a match, and
the new code is a block that realises a relation in any program. -/
structure Gives (input : List UInt8) (insts insts' : List Inst) (R : ℕ → ℕ → Prop) : Prop where
  keeps : Keeps insts insts'
  quiet : .found ∈ insts' → .found ∈ insts
  block : ∀ P, Has P insts insts' [] → Realises (Step P input) insts.length insts'.length R

lemma Gives.refl (insts : List Inst) : Gives input insts insts Eq :=
  ⟨.refl insts, id, fun _ _ => .skip _⟩

variable {R : ℕ → ℕ → Prop} {S : ℕ → ℕ → Prop}

lemma Gives.trans (h : Gives input insts insts' R)
    (h' : Gives input insts' insts'' S) : Gives input insts insts'' (Relation.Comp R S) := by
  refine ⟨h.keeps.trans h'.keeps, fun hmem => h.quiet (h'.quiet hmem),
    fun P hP => (h.block P ?_).seq (h'.block P ?_)⟩
  · intro k hlo hhi _
    rw [hP k hlo (hhi.trans_le h'.keeps.1) not_mem_nil, h'.keeps.2 k hhi]
  · intro k hlo hhi _
    exact hP k (h.keeps.1.trans hlo) hhi not_mem_nil

lemma Gives.congr (h : Gives input insts insts' R)
    (hiff : ∀ i j, R i j ↔ S i j) : Gives input insts insts' S :=
  ⟨h.keeps, h.quiet, fun P hP => (h.block P hP).congr hiff⟩

lemma emit_ok (h : emit insts inst = .ok insts') : insts' = insts ++ [inst] := by
  rw [emit] at h
  split at h
  · cases h
  · cases h
    rfl

lemma keeps_append (insts tail : List Inst) : Keeps insts (insts ++ tail) :=
  ⟨by simp, fun k hk => getElem?_append_left hk⟩

/-- One instruction. -/
theorem gives_emit (h : emit insts inst = .ok insts') (hinst : inst ≠ .found)
    (hrealises : ∀ P, P[insts.length]? = some inst → Realises (Step P input) insts.length
      (insts.length + 1) R) :
    Gives input insts insts' R := by
  obtain rfl := emit_ok h
  refine ⟨keeps_append _ _, fun hmem => ?_, fun P hP => ?_⟩
  · rcases mem_append.mp hmem with hmem | hmem
    · exact hmem
    · exact absurd (mem_singleton.mp hmem).symm hinst
  rw [length_append]
  refine hrealises P ?_
  rw [hP insts.length le_rfl (by simp) not_mem_nil]
  simp

variable {compileNode : List Inst → Except Stop (List Inst)} {count : ℕ}

lemma gives_times
    (hnode : ∀ insts insts', compileNode insts = .ok insts' → Gives input insts insts' R) (h : times compileNode count insts = .ok insts') :
    Gives input insts insts' (Times R count) := by
  induction count generalizing insts with
  | zero =>
    cases h
    exact .refl _
  | succ count ih =>
    obtain ⟨mid, hmid, h⟩ := bind_inv h
    exact (hnode insts mid hmid).trans (ih h)

def UpTo (R : ℕ → ℕ → Prop) (count i j : ℕ) : Prop := ∃ k ≤ count, Times R k i j

lemma upTo_succ : (i = j ∨ Relation.Comp R (UpTo R count) i j) ↔ UpTo R (count + 1) i j := by
  constructor
  · rintro (rfl | ⟨y, hiy, k, hk, hyj⟩)
    · exact ⟨0, zero_le _, rfl⟩
    · exact ⟨k + 1, succ_le_succ hk, y, hiy, hyj⟩
  rintro ⟨k, hk, hij⟩
  cases k with
  | zero => exact .inl hij
  | succ k =>
    obtain ⟨y, hiy, hyj⟩ := hij
    exact .inr ⟨y, hiy, k, le_of_succ_le_succ hk, hyj⟩

variable {splits : List ℕ}

/-- What the code of options is before its branches know their exit. -/
theorem gives_optionals
    (hnode : ∀ insts insts', compileNode insts = .ok insts' → Gives input insts insts' R) (h : optionals compileNode count insts = .ok (insts', splits)) :
    Keeps insts insts' ∧ (.found ∈ insts' → .found ∈ insts) ∧
      (∀ s ∈ splits, insts.length ≤ s ∧ insts'[s]? = some (.split (s + 1) 0)) ∧
      ∀ P, Has P insts insts' splits → (∀ s ∈ splits, P[s]? = some (.split (s + 1) insts'.length)) →
        Realises (Step P input) insts.length insts'.length (UpTo R count) := by
  induction count generalizing insts splits with
  | zero =>
    cases h
    refine ⟨.refl _, id, by simp, fun P _ _ => (Realises.skip _).congr fun i j => ?_⟩
    constructor
    · rintro rfl
      exact ⟨0, le_rfl, rfl⟩
    · rintro ⟨k, hk, hij⟩
      obtain rfl := le_zero.mp hk
      exact hij
  | succ count ih =>
    obtain ⟨code, hemit, h⟩ := bind_inv h
    obtain ⟨mid, hmid, h⟩ := bind_inv h
    obtain ⟨⟨stop, splits'⟩, hrest, h⟩ := bind_inv h
    cases h
    obtain rfl := emit_ok hemit
    have hcode : (insts ++ [Inst.split 0 0]).set insts.length
        (.split (insts ++ [Inst.split 0 0]).length 0) = insts ++ [.split (insts.length + 1) 0] := by
      simp
    rw [hcode] at hmid
    have hgives := hnode _ _ hmid
    obtain ⟨hkeeps, hquiet, hsplits, hrealises⟩ := ih hrest
    have hone : Keeps insts mid := (keeps_append insts _).trans hgives.keeps
    have hmidLen : insts.length + 1 ≤ mid.length := by
      have := hgives.keeps.1
      simpa using this
    have hhead : insts'[insts.length]? = some (.split (insts.length + 1) 0) := by
      rw [hkeeps.2 _ (by omega), hgives.keeps.2 _ (by simp)]
      simp
    refine ⟨hone.trans hkeeps, fun hmem => ?_, ?_, ?_⟩
    · simpa using hgives.quiet (hquiet hmem)
    · intro s hs
      rcases mem_cons.mp hs with rfl | hs
      · exact ⟨le_rfl, hhead⟩
      · exact ⟨by have := (hsplits s hs).1; omega, (hsplits s hs).2⟩
    intro P hP hPsplits
    have hbody := hgives.block P fun k hlo hhi _ => by
      have hk : k ∉ insts.length :: splits' := by
        simp only [length_append, length_singleton] at hlo
        rw [mem_cons, not_or]
        refine ⟨by omega, fun hmem => ?_⟩
        have := (hsplits k hmem).1
        omega
      rw [hP k (by simp at hlo; omega) (hhi.trans_le hkeeps.1) hk, hkeeps.2 k hhi]
    have hmore := hrealises P
      (fun k hlo hhi hk => hP k (by omega) hhi (by
        rw [mem_cons, not_or]
        exact ⟨by omega, hk⟩))
      fun s hs => hPsplits s (mem_cons_of_mem _ hs)
    rw [length_append] at hbody
    exact ((hbody.seq hmore).option (fun x d => step_split
      (hPsplits _ mem_cons_self) x d)).congr fun i j => upTo_succ

section Patch

variable {patch : List Inst → ℕ → List Inst} (given : ℕ → Inst) (Open : ℕ → Inst → Prop)
  (hpatch : ∀ code s i, code[s]? = some i → Open s i → patch code s = code.set s (given s))
  (hgiven : ∀ s, Open s (given s) ∧ given s ≠ .found) {places : List ℕ}
include hpatch hgiven

lemma foldl_patch (code : List Inst) (h : ∀ s ∈ places, ∃ i, code[s]? = some i ∧ Open s i) :
    (places.foldl patch code).length = code.length ∧
      (∀ k ∉ places, (places.foldl patch code)[k]? = code[k]?) ∧
      (∀ s ∈ places, (places.foldl patch code)[s]? = some (given s)) ∧
      (.found ∈ places.foldl patch code → .found ∈ code) := by
  induction places generalizing code with
  | nil => simp
  | cons s rest ih =>
    obtain ⟨i, hi, hopen⟩ := h s mem_cons_self
    have hs : s < code.length := (List.getElem?_eq_some_iff.mp hi).1
    have hself : (code.set s (given s))[s]? = some (given s) := getElem?_set_self hs
    rw [foldl_cons, hpatch code s i hi hopen]
    have hrest : ∀ r ∈ rest, ∃ i, (code.set s (given s))[r]? = some i ∧ Open r i := by
      intro r hr
      by_cases hrs : r = s
      · subst hrs
        exact ⟨_, hself, (hgiven r).1⟩
      · rw [getElem?_set_ne (Ne.symm hrs)]
        exact h r (mem_cons_of_mem _ hr)
    obtain ⟨hlen, hother, hat, hquiet⟩ := ih _ hrest
    refine ⟨hlen.trans (length_set ..), ?_, ?_, fun hmem => ?_⟩
    · intro k hk
      rw [mem_cons, not_or] at hk
      rw [hother k hk.2, getElem?_set_ne (Ne.symm hk.1)]
    · intro r hr
      by_cases hin : r ∈ rest
      · exact hat r hin
      · obtain rfl := (mem_cons.mp hr).resolve_right hin
        rw [hother r hin, hself]
    · exact (mem_or_eq_of_mem_set (hquiet hmem)).resolve_right (hgiven s).2.symm

/-- Once its open places are patched, code is a block. -/
theorem gives_patched (hkeeps : Keeps insts insts') (hquiet : .found ∈ insts' → .found ∈ insts)
    (hplaces : ∀ s ∈ places, insts.length ≤ s ∧ ∃ i, insts'[s]? = some i ∧ Open s i)
    (hrealises : ∀ P, Has P insts insts' places → (∀ s ∈ places, P[s]? = some (given s)) →
      Realises (Step P input) insts.length insts'.length R) :
    Gives input insts (places.foldl patch insts') R := by
  obtain ⟨hlen, hother, hat, hfound⟩ :=
    foldl_patch given Open hpatch hgiven insts' fun s hs => (hplaces s hs).2
  refine ⟨⟨hlen ▸ hkeeps.1, ?_⟩, fun hmem => hquiet (hfound hmem), ?_⟩
  · intro k hk
    have hnot : k ∉ places := fun hmem => by
      have := (hplaces k hmem).1
      omega
    exact (hother k hnot).trans (hkeeps.2 k hk)
  intro P hP
  rw [hlen]
  refine hrealises P ?_ ?_
  · intro k hlo hhi hk
    rw [hP k hlo (by omega) not_mem_nil]
    exact hother k hk
  · intro s hs
    obtain ⟨hlo, i, hi, -⟩ := hplaces s hs
    have hbound : s < insts'.length := (List.getElem?_eq_some_iff.mp hi).1
    rw [hP s hlo (by omega) not_mem_nil]
    exact hat s hs

end Patch

theorem gives_patchSplits (hkeeps : Keeps insts insts') (hquiet : .found ∈ insts' → .found ∈ insts)
    (hsplits : ∀ s ∈ splits, insts.length ≤ s ∧ insts'[s]? = some (.split (s + 1) 0))
    (hrealises : ∀ P, Has P insts insts' splits → (∀ s ∈ splits, P[s]? = some
      (.split (s + 1) insts'.length)) → Realises (Step P input) insts.length insts'.length R) :
    Gives input insts (patchSplits splits insts') R := by
  refine gives_patched (fun s => .split (s + 1) insts'.length) (fun s i => ∃ b, i = .split (s + 1) b)
    ?_ (fun s => ⟨⟨_, rfl⟩, by simp⟩) hkeeps hquiet ?_ hrealises
  · rintro code s i hi ⟨b, rfl⟩
    rw [patchSplit, hi]
  · exact fun s hs => ⟨(hsplits s hs).1, _, (hsplits s hs).2, 0, rfl⟩

variable {jmps : List ℕ}

theorem gives_patchJumps (hkeeps : Keeps insts insts') (hquiet : .found ∈ insts' → .found ∈ insts)
    (hjmps : ∀ j ∈ jmps, insts.length ≤ j ∧ j < insts'.length)
    (hrealises : ∀ P, Has P insts insts' jmps → (∀ j ∈ jmps, P[j]? = some (.jmp insts'.length)) →
      Realises (Step P input) insts.length insts'.length R) :
    Gives input insts (patchJumps jmps insts') R :=
  gives_patched (fun _ => .jmp insts'.length) (fun _ _ => True) (fun _ _ _ _ _ => rfl)
    (fun _ => ⟨trivial, by simp⟩) hkeeps hquiet
    (fun j hj => ⟨(hjmps j hj).1, _, getElem?_eq_getElem (hjmps j hj).2, trivial⟩) hrealises

lemma comp_atLeast {min : ℕ} : Relation.Comp (Times R min) (Relation.ReflTransGen R) i j ↔
      ∃ k, min ≤ k ∧ (∀ m, (none : Option ℕ) = some m → k ≤ m) ∧ Times R k i j := by
  constructor
  · rintro ⟨y, hiy, hyj⟩
    obtain ⟨l, hl⟩ := reflTransGen_iff_times.mp hyj
    exact ⟨min + l, Nat.le_add_right _ _, by simp, times_add.mpr ⟨y, hiy, hl⟩⟩
  · rintro ⟨k, hk, -, hij⟩
    obtain ⟨l, rfl⟩ := Nat.exists_eq_add_of_le hk
    obtain ⟨y, hiy, hyj⟩ := times_add.mp hij
    exact ⟨y, hiy, reflTransGen_iff_times.mpr ⟨l, hyj⟩⟩

/-- Between two bounds is so many times and then up to their difference. -/
theorem comp_upTo {min max : ℕ} (hle : min ≤ max) :
    Relation.Comp (Times R min) (UpTo R (max - min)) i j ↔
      ∃ k, min ≤ k ∧ (∀ m, some max = some m → k ≤ m) ∧ Times R k i j := by
  constructor
  · rintro ⟨y, hiy, l, hl, hyj⟩
    refine ⟨min + l, Nat.le_add_right _ _, ?_, times_add.mpr ⟨y, hiy, hyj⟩⟩
    rintro m ⟨⟩
    omega
  rintro ⟨k, hk, hmax, hij⟩
  obtain ⟨l, rfl⟩ := Nat.exists_eq_add_of_le hk
  obtain ⟨y, hiy, hyj⟩ := times_add.mp hij
  have := hmax max rfl
  exact ⟨y, hiy, l, by omega, hyj⟩

lemma inClass_iff {negated : Bool} {ranges : List (UInt8 × UInt8)} {b : UInt8} :
    inClass negated ranges b = true ↔ ((∃ r ∈ ranges, r.1 ≤ b ∧ b ≤ r.2) ↔ negated = false) := by
  rw [inClass]
  cases negated <;> simp

lemma wordBoundary_iff {want : Bool} {i : ℕ} :
    wordBoundary input i = want ↔
      (((0 < i ∧ ∃ b, input[i - 1]? = some b ∧ isWord b) ↔ ∃ b, input[i]? = some b ∧ isWord b) ↔
        want = false) := by
  have hbefore : (0 < i ∧ ∃ b, input[i - 1]? = some b ∧ isWord b) ↔
      (decide (i > 0) && (input[i - 1]?).any isWord) = true := by
    simp [Option.any_eq_true]
  have hafter : (∃ b, input[i]? = some b ∧ isWord b) ↔ (input[i]?).any isWord = true := by
    rw [Option.any_eq_true]
  rw [hbefore, hafter, Bool.coe_iff_coe, wordBoundary]
  cases want <;> simp

/-- A loop over the code of a node. -/
theorem gives_loop
    (hnode : ∀ insts insts', compileNode insts = .ok insts' → Gives input insts insts' R)
    {code mid back : List Inst} (hsplit : emit insts (.split 0 0) = .ok code)
    (hmid : compileNode code = .ok mid) (hjmp : emit mid (.jmp insts.length) = .ok back) :
    Gives input insts (back.set insts.length (.split code.length back.length))
      (Relation.ReflTransGen R) := by
  obtain rfl := emit_ok hsplit
  obtain rfl := emit_ok hjmp
  have hgives := hnode _ _ hmid
  have hlen : insts.length + 1 ≤ mid.length := by simpa using hgives.keeps.1
  refine ⟨⟨by simp; omega, ?_⟩, fun hmem => ?_, ?_⟩
  · intro k hk
    rw [getElem?_set_ne (by omega), (keeps_append mid _).2 k (by omega),
      hgives.keeps.2 k (by simp; omega), (keeps_append insts _).2 k hk]
  · have hmid : .found ∈ mid := by
      simpa using (mem_or_eq_of_mem_set hmem).resolve_right (by simp)
    simpa using hgives.quiet hmid
  intro P hP
  have hbranch : P[insts.length]? = some (.split (insts.length + 1) (mid.length + 1)) := by
    rw [hP _ le_rfl (by simp; omega) not_mem_nil, getElem?_set_self (by simp; omega)]
    simp
  have hback : P[mid.length]? = some (.jmp insts.length) := by
    rw [hP _ (by omega) (by simp) not_mem_nil, getElem?_set_ne (by omega)]
    simp
  have hbody := hgives.block P fun k hlo hhi _ => by
    simp only [length_append, length_singleton] at hlo
    rw [hP k (by omega) (by simp; omega) not_mem_nil, getElem?_set_ne (by omega),
      (keeps_append mid _).2 k hhi]
  rw [length_append] at hbody
  rw [length_set, length_append]
  exact .loop (fun x d => step_split hbranch x d) (fun x d => step_jmp hback x d) hbody

/-- What compiling branches is to give, the jumps at some places being left to patch. -/
def GivesBut (input : List UInt8) (insts insts' : List Inst) (jmps : List ℕ)
    (R : ℕ → ℕ → Prop) : Prop :=
  Keeps insts insts' ∧ (.found ∈ insts' → .found ∈ insts) ∧
    (∀ j ∈ jmps, insts.length ≤ j ∧ j < insts'.length) ∧ ∀ P, Has P insts insts' jmps →
      (∀ j ∈ jmps, P[j]? = some (.jmp insts'.length)) →
      Realises (Step P input) insts.length insts'.length R

/-- A branch in front of others. -/
theorem gives_branch {code mid back : List Inst}
    (hsplit : emit insts (.split 0 0) = .ok code) (hgives : Gives input code mid R)
    (hjmp : emit mid (.jmp 0) = .ok back)
    (hrest : GivesBut input (back.set insts.length (.split code.length back.length)) insts' jmps S)
    :
    GivesBut input insts insts' (mid.length :: jmps) fun i j => R i j ∨ S i j := by
  obtain rfl := emit_ok hsplit
  obtain rfl := emit_ok hjmp
  obtain ⟨hkeeps, hquiet, hjmps, hrealises⟩ := hrest
  have hlen : insts.length + 1 ≤ mid.length := by simpa using hgives.keeps.1
  simp only [length_append, length_singleton] at hkeeps hjmps hrealises
  have hset : ((mid ++ [Inst.jmp 0]).set insts.length
      (.split (insts.length + 1) (mid.length + 1))).length = mid.length + 1 := by simp
  rw [hset] at hjmps hrealises
  have hmidLen : mid.length + 1 ≤ insts'.length := hset ▸ hkeeps.1
  have hhead : insts'[insts.length]? = some (.split (insts.length + 1) (mid.length + 1)) := by
    rw [hkeeps.2 _ (by rw [hset]; omega), getElem?_set_self (by simp; omega)]
  have hbody : ∀ k, insts.length < k → k < mid.length → insts'[k]? = mid[k]? := by
    intro k hlo hhi
    rw [hkeeps.2 k (by rw [hset]; omega), getElem?_set_ne (by omega), (keeps_append mid _).2 k hhi]
  refine ⟨⟨by omega, ?_⟩, fun hmem => ?_, ?_, ?_⟩
  · intro k hk
    rw [hkeeps.2 k (by rw [hset]; omega), getElem?_set_ne (by omega),
      (keeps_append mid _).2 k (by omega), hgives.keeps.2 k (by simp; omega),
      (keeps_append insts _).2 k hk]
  · have hmid : .found ∈ mid := by
      simpa using (mem_or_eq_of_mem_set (hquiet hmem)).resolve_right (by simp)
    simpa using hgives.quiet hmid
  · intro j hj
    rcases mem_cons.mp hj with rfl | hj
    · exact ⟨by omega, by omega⟩
    · have := hjmps j hj
      exact ⟨by omega, this.2⟩
  intro P hP hPjmps
  have hnot : ∀ k < mid.length, k ∉ mid.length :: jmps := by
    intro k hk
    rw [mem_cons, not_or]
    refine ⟨by omega, fun hmem => ?_⟩
    have := (hjmps k hmem).1
    omega
  have hbranch : P[insts.length]? = some (.split (insts.length + 1) (mid.length + 1)) := by
    rw [hP _ le_rfl (by omega) (hnot _ (by omega)), hhead]
  have hback : P[mid.length]? = some (.jmp insts'.length) := hPjmps _ mem_cons_self
  have hfirst := hgives.block P fun k hlo hhi _ => by
    simp only [length_append, length_singleton] at hlo
    rw [hP k (by omega) (by omega) (hnot k hhi), hbody k (by omega) hhi]
  rw [length_append] at hfirst
  have hsecond := hrealises P
    (fun k hlo hhi hk => hP k (by omega) hhi (by
      rw [hset] at hlo
      rw [mem_cons, not_or]
      exact ⟨by omega, hk⟩))
    fun j hj => hPjmps j (mem_cons_of_mem _ hj)
  exact .choice (fun x d => step_split hbranch x d) (fun x d => step_jmp hback x d) hfirst hsecond

mutual

/-- The code of a tree realises what the tree means. -/
theorem compile_gives : ∀ a : Ast, Wf a → ∀ insts insts', compile a insts = .ok insts' →
    Gives input insts insts' (Matches input a)
  | .empty, _, insts, insts', h => by
    rw [compile] at h
    cases h
    rw [Matches]
    exact .refl _
  | .literal b, _, insts, insts', h => by
    rw [compile] at h
    refine (gives_emit h (by simp) fun P hP => realises_takes hP fun _ => rfl).congr fun i j => ?_
    simp [Matches, takes]
  | .anyChar dotall, _, insts, insts', h => by
    rw [compile] at h
    refine (gives_emit h (by simp) fun P hP => realises_takes hP fun _ => rfl).congr fun i j => ?_
    simp [Matches, takes, Option.any_eq_true]
  | .charClass negated ranges, _, insts, insts', h => by
    rw [compile] at h
    refine (gives_emit h (by simp) fun P hP => realises_takes hP fun _ => rfl).congr fun i j => ?_
    simp only [Matches, takes, Option.any_eq_true, inClass_iff]
  | .startAnchor multiline, _, insts, insts', h => by
    rw [compile] at h
    refine (gives_emit h (by simp) fun P hP => realises_tests hP (fun _ => rfl) fun _ => rfl).congr
      fun i j => ?_
    simp [Matches, atStart]
  | .endAnchor multiline, _, insts, insts', h => by
    rw [compile] at h
    refine (gives_emit h (by simp) fun P hP => realises_tests hP (fun _ => rfl) fun _ => rfl).congr
      fun i j => ?_
    simp [Matches, atStop]
  | .wordBoundary want, _, insts, insts', h => by
    rw [compile] at h
    have htests : ∀ P : List Inst, P[insts.length]? = some (.wordBoundary want) →
        Realises (Step P input) insts.length (insts.length + 1) fun i j =>
          i = j ∧ decide (wordBoundary input i = want) = true := by
      intro P hP
      exact realises_tests hP (fun i => by simp [follows]) fun _ => rfl
    refine (gives_emit h (by simp) htests).congr fun i j => ?_
    simp only [Matches, decide_eq_true_eq, wordBoundary_iff]
  | .concat parts, hwf, insts, insts', h => by
    rw [compile] at h
    rw [Matches]
    cases hwf with
    | concat hparts => exact compileParts_gives parts hparts insts insts' h
  | .alt branches, hwf, insts, insts', h => by
    rw [compile] at h
    obtain ⟨⟨code, jmps⟩, hcode, h⟩ := bind_inv h
    cases h
    rw [Matches]
    cases hwf with
    | alt hne hbranches =>
      obtain ⟨hkeeps, hquiet, hjmps, hrealises⟩ := compileBranches_gives branches hne hbranches
        insts code jmps hcode
      exact gives_patchJumps hkeeps hquiet hjmps hrealises
  | .repetition node min none, hwf, insts, insts', h => by
    rw [compile] at h
    obtain ⟨code, htimes, h⟩ := bind_inv h
    obtain ⟨branch, hsplit, h⟩ := bind_inv h
    obtain ⟨mid, hmid, h⟩ := bind_inv h
    obtain ⟨back, hjmp, h⟩ := bind_inv h
    cases h
    cases hwf with
    | repetition hnode _ =>
      have hgives := compile_gives node hnode
      refine ((gives_times hgives htimes).trans (gives_loop hgives hsplit hmid hjmp)).congr
        fun i j => ?_
      rw [Matches]
      exact comp_atLeast
  | .repetition node min (some m), hwf, insts, insts', h => by
    rw [compile] at h
    obtain ⟨code, htimes, h⟩ := bind_inv h
    obtain ⟨⟨back, splits⟩, hsplits, h⟩ := bind_inv h
    cases h
    cases hwf with
    | repetition hnode hmax =>
      have hgives := compile_gives node hnode
      obtain ⟨hkeeps, hquiet, hat, hrealises⟩ := gives_optionals hgives hsplits
      refine ((gives_times hgives htimes).trans
        (gives_patchSplits hkeeps hquiet hat hrealises)).congr fun i j => ?_
      rw [Matches]
      exact comp_upTo (hmax m rfl)

theorem compileParts_gives : ∀ parts : List Ast, (∀ part ∈ parts, Wf part) → ∀ insts insts',
    compileParts parts insts = .ok insts' → Gives input insts insts' (MatchesInTurn input parts)
  | [], _, insts, insts', h => by
    rw [compileParts] at h
    cases h
    rw [MatchesInTurn]
    exact .refl _
  | part :: rest, hwf, insts, insts', h => by
    rw [compileParts] at h
    obtain ⟨mid, hmid, h⟩ := bind_inv h
    rw [MatchesInTurn]
    exact (compile_gives part (hwf _ mem_cons_self) insts mid hmid).trans
      (compileParts_gives rest (fun p hp => hwf p (mem_cons_of_mem _ hp)) mid insts' h)

theorem compileBranches_gives : ∀ branches : List Ast, branches ≠ [] →
    (∀ branch ∈ branches, Wf branch) → ∀ insts insts' jmps,
    compileBranches branches insts = .ok (insts', jmps) →
    GivesBut input insts insts' jmps (MatchesOne input branches)
  | [], hne, _, _, _, _, _ => absurd rfl hne
  | [branch], _, hwf, insts, insts', jmps, h => by
    rw [compileBranches] at h
    obtain ⟨code, hcode, h⟩ := bind_inv h
    cases h
    obtain ⟨hkeeps, hquiet, hrealises⟩ := compile_gives branch (hwf _ mem_cons_self) insts _ hcode
    refine ⟨hkeeps, hquiet, by simp, fun P hP _ => (hrealises P hP).congr fun i j => ?_⟩
    simp [MatchesOne]
  | branch :: next :: rest, _, hwf, insts, insts', jmps, h => by
    rw [compileBranches] at h
    obtain ⟨code, hsplit, h⟩ := bind_inv h
    obtain ⟨mid, hmid, h⟩ := bind_inv h
    obtain ⟨back, hjmp, h⟩ := bind_inv h
    obtain ⟨⟨stop, jmps'⟩, hrest, h⟩ := bind_inv h
    cases h
    rw [MatchesOne]
    exact gives_branch hsplit (compile_gives branch (hwf _ mem_cons_self) code mid hmid) hjmp
      (compileBranches_gives (next :: rest) (cons_ne_nil _ _)
        (fun p hp => hwf p (mem_cons_of_mem _ hp)) _ _ _ hrest)

end

end OnetDns.Filter.Regex
