import OnetDns.Lib.Guarded
import OnetDns.Filter.RegexSyntax

/-!
# What the parser of regular expressions accepts

The trees that a pattern is read into are well formed: the compiler relies on alternations that
have a branch and on bounds in order. With fuel for its length, every pattern is read to its end or
to an error of the source.
-/
namespace OnetDns.Filter.Regex
open Guarded

/-- An alternation has a branch, and the bounds of a repetition are in order. -/
inductive Wf : Ast → Prop
  | empty : Wf .empty
  | literal (b : UInt8) : Wf (.literal b)
  | anyChar (dotall : Bool) : Wf (.anyChar dotall)
  | charClass (negated : Bool) (ranges : List (UInt8 × UInt8)) : Wf (.charClass negated ranges)
  | concat {parts : List Ast} : (∀ part ∈ parts, Wf part) → Wf (.concat parts)
  | alt {branches : List Ast} : branches ≠ [] → (∀ branch ∈ branches, Wf branch) →
      Wf (.alt branches)
  | repetition {node : Ast} {min : ℕ} {max : Option ℕ} : Wf node →
      (∀ m, max = some m → min ≤ m) → Wf (.repetition node min max)
  | startAnchor (multiline : Bool) : Wf (.startAnchor multiline)
  | endAnchor (multiline : Bool) : Wf (.endAnchor multiline)
  | wordBoundary (want : Bool) : Wf (.wordBoundary want)

/-- With enough fuel an error is one of the source. -/
def Ample (enough : Prop) (e : Stop) : Prop := enough → e ≠ .outOfFuel

section

variable {α : Type} {P : α → Prop} {r : Except Stop α} {enough more : Prop}

lemma meets_stop (message : String) : Meets (Ample enough) P (.error (.error message)) := by
  refine meets_error fun _ => ?_
  rintro ⟨⟩

lemma meets_empty (h : ¬enough) : Meets (Ample enough) P (.error .outOfFuel) :=
  meets_error fun henough => absurd henough h

lemma Ample.meets (h : Meets (Ample enough) P r) (hmore : more → enough) : Meets (Ample more) P r :=
  ⟨fun e he hm => h.errors e he (hmore hm), h.values⟩

end

lemma ite_wf {c : Prop} [Decidable c] {a b : Ast} (ha : Wf a) (hb : Wf b) :
    Wf (if c then a else b) := by
  by_cases hc : c
  · rwa [if_pos hc]
  · rwa [if_neg hc]

lemma forall_cons {first : Ast} {rest : List Ast} (hfirst : Wf first) (hrest : ∀ b ∈ rest, Wf b) :
    ∀ b ∈ first :: rest, Wf b := by
  intro b hb
  rcases List.mem_cons.mp hb with rfl | hb
  · exact hfirst
  · exact hrest b hb

namespace Parser

variable {p q r : Parser}

def left (p : Parser) : ℕ := p.s.length - p.pos

/-- A later state of a parser. -/
def Later (p q : Parser) : Prop := q.s = p.s ∧ p.pos ≤ q.pos

lemma Later.refl (p : Parser) : Later p p := ⟨rfl, le_rfl⟩

lemma Later.trans (h : Later p q) (h' : Later q r) : Later p r := ⟨h'.1.trans h.1, h.2.trans h'.2⟩

lemma Later.left_le (h : Later p q) : q.left ≤ p.left := by
  rw [left, h.1]
  exact Nat.sub_le_sub_left h.2 _

lemma later_advance (p : Parser) : Later p p.advance := ⟨rfl, Nat.le_succ _⟩

variable {c : UInt8}

lemma left_pos (h : p.peek = some c) : 0 < p.left := by
  have := (getElem?_eq_some_iff.mp h).1
  rw [left]
  omega

lemma left_advance (h : p.peek = some c) : p.advance.left + 1 = p.left := by
  have := left_pos h
  simp only [left, advance] at *
  omega

lemma later_bump (p : Parser) : Later p p.bump.2 := by
  rw [bump]
  by_cases h : p.peek.isSome = true
  · rw [if_pos h]
    exact later_advance p
  · rw [if_neg h]
    exact .refl p

lemma later_eat (p : Parser) (b : UInt8) : Later p (p.eat b).2 := by
  rw [eat]
  by_cases h : p.peek = some b
  · rw [if_pos h]
    exact later_advance p
  · rw [if_neg h]
    exact .refl p

lemma later_setFlag (p : Parser) (c : UInt8) (on : Bool) : Later p (p.setFlag c on) := ⟨rfl, le_rfl⟩

lemma later_skipComment (fuel : ℕ) (p : Parser) : Later p (skipComment fuel p) := by
  induction fuel generalizing p with
  | zero => exact .refl p
  | succ fuel ih =>
    rw [skipComment]
    split
    · exact .refl p
    · split
      · exact later_advance p
      · exact (later_advance p).trans (ih _)

lemma later_skipLoop (fuel : ℕ) (p : Parser) : Later p (skipLoop fuel p) := by
  induction fuel generalizing p with
  | zero => exact .refl p
  | succ fuel ih =>
    rw [skipLoop]
    split
    · exact .refl p
    split
    · exact ((later_advance p).trans (later_skipComment _ _)).trans (ih _)
    · split
      · exact (later_advance p).trans (ih _)
      · exact .refl p

lemma later_skipXWs (p : Parser) : Later p p.skipXWs := by
  rw [skipXWs]
  split
  · exact later_skipLoop _ p
  · exact .refl p

lemma later_uintLoop (fuel n : ℕ) (p : Parser) : Later p (uintLoop fuel n p).2 := by
  induction fuel generalizing n p with
  | zero => exact .refl p
  | succ fuel ih =>
    rw [uintLoop]
    split
    · split
      · exact (later_advance p).trans (ih _ _)
      · exact .refl p
    · exact .refl p

lemma later_parseUint (p : Parser) : Later p p.parseUint.2 := by
  rw [parseUint]
  dsimp only
  split
  · exact later_uintLoop _ _ p
  · exact later_uintLoop _ _ p

lemma later_parseMax (p : Parser) (comma : Bool) (min : ℕ) : Later p (p.parseMax comma min).2 := by
  rw [parseMax]
  split
  · split
    · exact .refl p
    have hnext := later_parseUint p
    split
    · rename_i heq
      rwa [heq] at hnext
    · rename_i heq
      rwa [heq] at hnext
  · exact .refl p

lemma concatOf_wf {parts : List Ast} (h : ∀ part ∈ parts, Wf part) : Wf (concatOf parts) := by
  rcases parts with _ | ⟨part, _ | ⟨next, rest⟩⟩
  · exact .empty
  · exact h part List.mem_cons_self
  · exact .concat h

/-- The bounds of a repetition are in order. -/
def InOrder (bounds : Option (ℕ × Option ℕ)) : Prop :=
  ∀ min max, bounds = some (min, max) → ∀ m, max = some m → min ≤ m

/-- The byte that is next, if there is one, has been read. -/
def Onward (p q : Parser) : Prop := Later p q ∧ (p.peek ≠ none → q.left < p.left)

lemma onward_of_advance (h : Later p.advance q) : Onward p q := by
  refine ⟨(later_advance p).trans h, fun hpeek => ?_⟩
  obtain ⟨c, hc⟩ := Option.ne_none_iff_exists'.mp hpeek
  have := left_advance hc
  have := h.left_le
  omega

lemma Onward.trans (h : Onward p q) (h' : Later q r) : Onward p r :=
  ⟨h.1.trans h', fun hpeek => h'.left_le.trans_lt (h.2 hpeek)⟩

/-- What is read at `p` has a property, and the parser is further on then. -/
def Gives {α : Type} (enough : Prop) (P : α → Prop) (p : Parser) (r : Except Stop (α × Parser)) : Prop :=
  Meets (Ample enough) (fun x => P x.1 ∧ Later p x.2) r

/-- The same, past the byte that is next. -/
def Takes {α : Type} (enough : Prop) (P : α → Prop) (p : Parser) (r : Except Stop (α × Parser)) : Prop :=
  Meets (Ample enough) (fun x => P x.1 ∧ Onward p x.2) r

lemma Gives.takes {α : Type} {enough : Prop} {P : α → Prop} {r : Except Stop (α × Parser)}
    (h : Gives enough P p.advance r) : Takes enough P p r :=
  h.mono fun _ hx => ⟨hx.1, onward_of_advance hx.2⟩

lemma gives_tryParseBounds (p : Parser) : Gives True InOrder p p.tryParseBounds := by
  have hnone : Gives True InOrder p (.ok (none, p)) := meets_ok ⟨fun _ _ h => (by cases h), .refl p⟩
  unfold tryParseBounds
  dsimp only
  split
  · exact hnone
  split
  · exact hnone
  split
  · exact hnone
  split
  · exact meets_stop _
  split
  · exact meets_stop _
  rename_i hnot
  refine meets_ok ⟨?_, ((((later_bump p).trans (later_parseUint _)).trans
    (later_eat _ _)).trans (later_parseMax _ _ _)).trans (later_eat _ _)⟩
  rintro min max ⟨⟩ m rfl
  simpa using hnot

lemma gives_bounds (p : Parser) : Gives True InOrder p
    (if p.peek = some (byte '*') then .ok (some (0, none), p.advance)
      else if p.peek = some (byte '+') then .ok (some (1, none), p.advance)
      else if p.peek = some (byte '?') then .ok (some (0, some 1), p.advance)
      else if p.peek = some (byte '{') then p.tryParseBounds else .ok (none, p)) := by
  refine meets_ite (fun _ => meets_ok ⟨?_, later_advance p⟩) fun _ => ?_
  · rintro min max ⟨⟩ m ⟨⟩
  refine meets_ite (fun _ => meets_ok ⟨?_, later_advance p⟩) fun _ => ?_
  · rintro min max ⟨⟩ m ⟨⟩
  refine meets_ite (fun _ => meets_ok ⟨?_, later_advance p⟩) fun _ => ?_
  · rintro min max ⟨⟩ m _
    exact Nat.zero_le m
  refine meets_ite (fun _ => gives_tryParseBounds p) fun _ => meets_ok ⟨?_, .refl p⟩
  rintro min max ⟨⟩

lemma gives_parseEscape (p : Parser) : Gives True Wf p.advance p.parseEscape := by
  unfold parseEscape
  split
  · exact meets_stop _
  rename_i hbump
  have hlater := later_bump p.advance
  rw [hbump] at hlater
  refine meets_ok ⟨?_, hlater⟩
  repeat' apply ite_wf
  all_goals constructor

lemma bump_left (h : p.bump = (some c, q)) : Later p q ∧ q.left < p.left := by
  obtain ⟨hpeek, hq⟩ := Prod.mk.inj h
  rw [hpeek] at hq
  subst hq
  exact ⟨later_advance p, Nat.lt_of_succ_le (left_advance hpeek).le⟩

lemma meets_classAtom (p : Parser) (ranges : List (UInt8 × UInt8)) :
    Meets (Ample True) (fun x => Later p x.2.2 ∧ x.2.2.left < p.left) (p.classAtom ranges) := by
  unfold classAtom
  split
  · exact meets_stop _
  rename_i hbump
  obtain ⟨hlater, hleft⟩ := bump_left hbump
  split
  · exact meets_ok ⟨hlater, hleft⟩
  split
  · exact meets_stop _
  · rename_i hnext
    obtain ⟨hthen, hfewer⟩ := bump_left hnext
    exact meets_ok ⟨hlater.trans hthen, hfewer.trans hleft⟩

lemma gives_classLoop (fuel : ℕ) (first : Bool) (ranges : List (UInt8 × UInt8)) (p : Parser) :
    Gives (p.left < fuel) (fun _ => True) p (classLoop fuel first ranges p) := by
  induction fuel generalizing first ranges p with
  | zero => exact meets_empty (Nat.not_lt_zero _)
  | succ fuel ih =>
    have hon : ∀ ranges q, Later p q → q.left < p.left →
        Gives (p.left < fuel + 1) (fun _ => True) p (classLoop fuel false ranges q) := by
      intro ranges q hq hless
      exact (Ample.meets (ih false ranges q) fun _ => by omega).mono fun _ hx => ⟨hx.1, hq.trans hx.2⟩
    refine meets_ite (fun _ => meets_stop _) fun _ => ?_
    refine meets_ite (fun _ => meets_ok ⟨trivial, later_advance p⟩) fun _ => ?_
    have hatom := meets_classAtom p ranges
    split
    · rename_i heq
      exact meets_error fun _ => hatom.errors _ heq trivial
    · rename_i heq
      obtain ⟨hq, hless⟩ := hatom.values _ heq
      exact hon _ _ hq hless
    rename_i mid heq
    obtain ⟨hq, hless⟩ : Later p mid ∧ mid.left < p.left := hatom.values _ heq
    refine meets_ite (fun _ => ?_) fun _ => hon _ _ hq hless
    have hnext := meets_classAtom mid.advance
    have hmid := (later_advance mid).left_le
    split
    · rename_i heq
      exact meets_error fun _ => (hnext _).errors _ heq trivial
    · rename_i heq
      obtain ⟨hend, hfewer⟩ := (hnext _).values _ heq
      refine meets_ite (fun _ => hon _ _ ?_ (hfewer.trans_le (hmid.trans hless.le))) fun _ =>
        meets_stop _
      exact (hq.trans (later_advance mid)).trans hend
    · rename_i heq
      obtain ⟨hend, hfewer⟩ := (hnext _).values _ heq
      exact hon _ _ ((hq.trans (later_advance mid)).trans hend)
        (hfewer.trans_le (hmid.trans hless.le))

lemma gives_parseClass (p : Parser) : Gives True Wf p.advance p.parseClass := by
  unfold parseClass
  dsimp only
  have hloop := gives_classLoop (((p.advance.eat (byte '^')).2.s.length) + 1) true []
    (p.advance.eat (byte '^')).2
  split
  · rename_i heq
    refine meets_error fun _ => hloop.errors _ heq ?_
    rw [left]
    omega
  · rename_i heq
    refine meets_ite (fun _ => meets_stop _) fun _ => meets_ok ⟨.charClass _ _, ?_⟩
    exact (later_eat _ _).trans (hloop.values _ heq).2

lemma gives_parseFlagGroup (fuel : ℕ) (negate : Bool) (p : Parser) :
    Gives (p.left < fuel) (fun _ => True) p (parseFlagGroup fuel negate p) := by
  induction fuel generalizing negate p with
  | zero => exact meets_empty (Nat.not_lt_zero _)
  | succ fuel ih =>
    have hdone : Later p p.advance := later_advance p
    rw [parseFlagGroup]
    split
    · exact meets_stop _
    rename_i c hpeek
    have hadvance := left_advance hpeek
    have hon : ∀ negate q, Later p.advance q →
        Gives (p.left < fuel + 1) (fun _ => True) p (parseFlagGroup fuel negate q) := by
      intro negate q hq
      have := hq.left_le
      exact (Ample.meets (ih negate q) fun _ => by omega).mono fun _ hx =>
        ⟨hx.1, (hdone.trans hq).trans hx.2⟩
    refine meets_ite (fun _ => hon _ _ (.refl _)) fun _ => ?_
    refine meets_ite (fun _ => hon _ _ (later_setFlag _ _ _)) fun _ => ?_
    refine meets_ite (fun _ => meets_ok ⟨trivial, hdone⟩) fun _ => ?_
    exact meets_ite (fun _ => meets_ok ⟨trivial, hdone⟩) fun _ => meets_stop _

lemma gives_close {inner : Ast} (hwf : Wf inner) (p : Parser) : Gives True Wf p (p.close inner) := by
  unfold close
  have hlater := later_eat p (byte ')')
  split
  · rename_i heat
    rw [heat] at hlater
    exact meets_ok ⟨hwf, hlater⟩
  · exact meets_stop _

/-- What the functions of the parser give with so much fuel. -/
structure Reads (fuel : ℕ) : Prop where
  alt : ∀ p : Parser, Gives (8 * p.left + 7 ≤ fuel) Wf p (parseAlt fuel p)
  branches : ∀ p : Parser,
    Gives (8 * p.left + 6 ≤ fuel) (fun bs => ∀ b ∈ bs, Wf b) p (parseBranches fuel p)
  concat : ∀ p : Parser, Gives (8 * p.left + 6 ≤ fuel) Wf p (parseConcat fuel p)
  parts : ∀ p : Parser,
    Gives (8 * p.left + 5 ≤ fuel) (fun parts => ∀ part ∈ parts, Wf part) p (parseParts fuel p)
  repetition : ∀ p : Parser, Takes (8 * p.left + 4 ≤ fuel) Wf p (parseRepeat fuel p)
  atom : ∀ p : Parser, Takes (8 * p.left + 3 ≤ fuel) Wf p (parseAtom fuel p)
  group : ∀ p : Parser, p.peek ≠ none → Takes (8 * p.left + 2 ≤ fuel) Wf p (parseGroup fuel p)
  inner : ∀ p : Parser, p.peek ≠ none → Takes (8 * p.left + 1 ≤ fuel) Wf p (parseGroupInner fuel p)

variable {fuel : ℕ}

section

variable (ih : Reads fuel)
include ih

section

variable (p)

lemma Reads.alt_succ :
    Gives (8 * p.left + 7 ≤ fuel + 1) Wf p (parseAlt (fuel + 1) p) := by
  refine (Ample.meets (ih.concat p) fun _ => by omega).bind fun first hfirst => ?_
  have hleft := hfirst.2.left_le
  refine (Ample.meets (ih.branches first.2) fun _ => by omega).bind fun rest hrest => ?_
  refine meets_ok ⟨?_, hfirst.2.trans hrest.2⟩
  exact ite_wf hfirst.1 (.alt (List.cons_ne_nil _ _) (forall_cons hfirst.1 hrest.1))

lemma Reads.branches_succ :
    Gives (8 * p.left + 6 ≤ fuel + 1) (fun bs => ∀ b ∈ bs, Wf b) p (parseBranches (fuel + 1) p) := by
  refine meets_ite (fun hbar => ?_) fun _ => meets_ok ⟨fun _ h => absurd h List.not_mem_nil, .refl p⟩
  have hadvance := left_advance hbar
  refine (Ample.meets (ih.concat p.advance) fun _ => by omega).bind fun branch hbranch => ?_
  have hleft := hbranch.2.left_le
  refine (Ample.meets (ih.branches branch.2) fun _ => by omega).bind fun rest hrest => ?_
  exact meets_ok ⟨forall_cons hbranch.1 hrest.1, ((later_advance p).trans hbranch.2).trans hrest.2⟩

lemma Reads.parts_succ :
    Gives (8 * p.left + 5 ≤ fuel + 1) (fun parts => ∀ part ∈ parts, Wf part) p
      (parseParts (fuel + 1) p) := by
  have hskip := later_skipXWs p
  have hleft := hskip.left_le
  refine meets_ite (fun _ => meets_ok ⟨fun _ h => absurd h List.not_mem_nil, hskip⟩) fun hstop => ?_
  refine (Ample.meets (ih.repetition p.skipXWs) fun _ => by omega).bind fun part hpart => ?_
  have hless := hpart.2.2 fun hnone => hstop (.inl hnone)
  refine (Ample.meets (ih.parts part.2) fun _ => by omega).bind fun rest hrest => ?_
  exact meets_ok ⟨forall_cons hpart.1 hrest.1, (hskip.trans hpart.2.1).trans hrest.2⟩

lemma Reads.repetition_succ :
    Takes (8 * p.left + 4 ≤ fuel + 1) Wf p (parseRepeat (fuel + 1) p) := by
  refine (Ample.meets (ih.atom p) fun _ => by omega).bind fun atom hatom => ?_
  refine .bind (Ample.meets (gives_bounds atom.2.skipXWs) fun _ => trivial) fun read hread => ?_
  obtain ⟨bounds, q⟩ := read
  have hthen := hatom.2.trans ((later_skipXWs atom.2).trans hread.2)
  cases bounds with
  | none => exact meets_ok ⟨hatom.1, hthen⟩
  | some pair =>
    exact meets_ok ⟨.repetition hatom.1 (hread.1 pair.1 pair.2 rfl), hthen.trans (later_eat _ _)⟩

lemma Reads.atom_succ :
    Takes (8 * p.left + 3 ≤ fuel + 1) Wf p (parseAtom (fuel + 1) p) := by
  have hone : ∀ {a : Ast}, Wf a → Takes (8 * p.left + 3 ≤ fuel + 1) Wf p (.ok (a, p.advance)) :=
    fun ha => meets_ok ⟨ha, onward_of_advance (.refl _)⟩
  rw [parseAtom]
  split
  · rename_i hpeek
    exact meets_ok ⟨.empty, .refl p, fun hne => absurd hpeek hne⟩
  rename_i c hpeek
  have hne : p.peek ≠ none := by simp only [hpeek, ne_eq, reduceCtorEq, not_false_eq_true]
  refine meets_ite (fun _ => Ample.meets (ih.group p hne) fun _ => by omega) fun _ => ?_
  refine meets_ite (fun _ => Ample.meets (gives_parseClass p).takes fun _ => trivial) fun _ => ?_
  refine meets_ite (fun _ => hone (.anyChar _)) fun _ => ?_
  refine meets_ite (fun _ => hone (.startAnchor _)) fun _ => ?_
  refine meets_ite (fun _ => hone (.endAnchor _)) fun _ => ?_
  refine meets_ite (fun _ => Ample.meets (gives_parseEscape p).takes fun _ => trivial) fun _ => ?_
  exact meets_ite (fun _ => meets_stop _) fun _ => hone (.literal _)

lemma Reads.inner_succ (hpeek : p.peek ≠ none) :
    Takes (8 * p.left + 1 ≤ fuel + 1) Wf p (parseGroupInner (fuel + 1) p) := by
  have hbump : p.bump.2 = p.advance := if_pos (Option.isSome_iff_ne_none.mpr hpeek)
  obtain ⟨c, hc⟩ := Option.ne_none_iff_exists'.mp hpeek
  have hadvance := left_advance hc
  have hclosed : ∀ q, Later p.advance q → Gives (8 * p.left + 1 ≤ fuel + 1) Wf p.advance
      (parseAlt fuel q >>= fun inner => inner.2.close inner.1) := by
    intro q hq
    have hleft := hq.left_le
    refine (Ample.meets (ih.alt q) fun _ => by omega).bind fun inner hinner => ?_
    exact (Ample.meets (gives_close hinner.1 inner.2) fun _ => trivial).mono fun _ hx =>
      ⟨hx.1, (hq.trans hinner.2).trans hx.2⟩
  refine Gives.takes ?_
  rw [parseGroupInner, hbump]
  refine meets_ite (fun _ => ?_) fun _ => hclosed _ (.refl _)
  have hquestion := later_advance p.advance
  dsimp only
  split
  · exact meets_stop _
  refine meets_ite (fun _ => hclosed _ (hquestion.trans (later_advance _))) fun _ => ?_
  refine meets_ite (fun _ => ?_) fun _ => meets_stop _
  have hflags := gives_parseFlagGroup (p.advance.advance.s.length + 1) false p.advance.advance
  refine (Ample.meets hflags fun _ => by rw [left]; omega).bind fun flagged hflagged => ?_
  have hstart := hquestion.trans hflagged.2
  refine meets_ite (fun _ => ?_) fun _ => meets_ok ⟨.empty, hstart⟩
  have hleft := hstart.left_le
  refine (Ample.meets (ih.alt flagged.2) fun _ => by omega).bind fun inner hinner => ?_
  refine (Ample.meets (gives_close hinner.1 inner.2) fun _ => trivial).bind fun closed hend => ?_
  exact meets_ok ⟨hend.1, (hstart.trans hinner.2).trans hend.2⟩

end

end

lemma reads (fuel : ℕ) : Reads fuel := by
  induction fuel with
  | zero =>
    constructor <;> intros <;> exact meets_empty (by omega)
  | succ fuel ih =>
    refine ⟨ih.alt_succ, ih.branches_succ, fun p => ?_, ih.parts_succ, ih.repetition_succ,
      ih.atom_succ, fun p hpeek => ?_, ih.inner_succ⟩
    · refine (Ample.meets (ih.parts p) fun _ => by omega).bind fun parts hparts => ?_
      exact meets_ok ⟨concatOf_wf hparts.1, hparts.2⟩
    · refine meets_ite (fun _ => meets_stop _) fun _ => ?_
      refine (Ample.meets (ih.inner { p with depth := p.depth + 1 } hpeek)
        fun h => by simp only [left] at h ⊢; omega).bind fun inner hinner => ?_
      exact meets_ok hinner

end Parser

/-- A pattern is read into a well formed tree; with fuel for its length, an error of the source tells
why not. -/
theorem meets_parsePattern (fuel : ℕ) (pattern : List UInt8) :
    Meets (Ample (8 * pattern.length + 7 ≤ fuel)) Wf (parsePattern fuel pattern) := by
  set start : Parser := ⟨pattern, 0, 0, ⟨false, false, false, false⟩⟩
  have hread : Parser.Gives (8 * pattern.length + 7 ≤ fuel) Wf start (Parser.parseAlt fuel start) :=
    (Parser.reads fuel).alt start
  refine .bind hread fun read hread => ?_
  exact meets_ite (fun _ => meets_stop _) fun _ => meets_ok hread.1

lemma parsePattern_wf {fuel : ℕ} {pattern : List UInt8} {a : Ast}
    (h : parsePattern fuel pattern = .ok a) : Wf a :=
  (meets_parsePattern fuel pattern).values a h

end OnetDns.Filter.Regex
