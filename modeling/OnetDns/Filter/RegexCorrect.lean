import OnetDns.Filter.RegexThreads

/-!
# The regular expression machine finds what its tree means

At every position the machine holds just the places that some thread can have come to: those that
code, taken as steps from place to place, leads to from an allowed start. So it stops with a match
if and only if the tree of its pattern matches some part of the input.
-/
namespace OnetDns.Filter.Regex
open Blocks Worklist Relation Guarded List Nat SparseSet

variable {P : List Inst} {input : List UInt8} {pos n s : ℕ} {c d : ℕ × ℕ}

lemma step_cases (h : Step P input c d) :
    (d.1 ∈ succs P input c.2 c.1 ∧ d.2 = c.2) ∨
      ∃ inst, P[c.1]? = some inst ∧ takes input[c.2]? inst = true ∧ d = (c.1 + 1, c.2 + 1) := by
  obtain ⟨inst, hinst, ⟨hmem, hpos⟩ | ⟨htakes, hd⟩⟩ := h
  · refine .inl ⟨?_, hpos⟩
    rw [succs, hinst]
    exact hmem
  · exact .inr ⟨inst, hinst, htakes, hd⟩

lemma step_succs {a b : ℕ} (h : b ∈ succs P input pos a) : Step P input (a, pos) (b, pos) := by
  rw [succs] at h
  split at h
  · rename_i inst hinst
    exact ⟨inst, hinst, .inl ⟨h, rfl⟩⟩
  · cases h

lemma path_reaches {a b : ℕ} (h : Reaches (succs P input pos) a b) :
    ReflTransGen (Step P input) (a, pos) (b, pos) := by
  induction h with
  | refl => exact .refl
  | tail _ hstep ih => exact ih.tail (step_succs hstep)

variable {inst : Inst}

lemma takes_pos (h : takes input[pos]? inst = true) : pos < input.length := by
  by_contra hle
  rw [getElem?_eq_none (by omega)] at h
  cases inst <;> simp [takes] at h

section

variable (h : ReflTransGen (Step P input) c d)
include h

lemma path_le : c.2 ≤ d.2 ∧ (c.2 ≤ input.length → d.2 ≤ input.length) := by
  induction h with
  | refl => exact ⟨le_rfl, id⟩
  | tail _ hstep ih =>
    rcases step_cases hstep with ⟨-, hpos⟩ | ⟨inst, -, htakes, rfl⟩
    · rw [hpos]
      exact ih
    · have := takes_pos htakes
      exact ⟨ih.1.trans (le_succ _), fun _ => this⟩

lemma reaches_path (hpos : c.2 = d.2) : Reaches (succs P input c.2) c.1 d.1 := by
  induction h with
  | refl => exact .refl
  | @tail b d hpath hstep ih =>
    rcases step_cases hstep with ⟨hmem, hd⟩ | ⟨inst, -, -, rfl⟩
    · have hb : c.2 = b.2 := hpos.trans hd
      rw [← hb] at hmem
      exact (ih hb).tail hmem
    · have hle : c.2 ≤ b.2 := (path_le hpath).1
      omega

/-- A path to the next position has taken the byte at some place of this one. -/
theorem path_split (hc : c.2 ≤ pos) (hd : d.2 = pos + 1) :
    ∃ pc inst, ReflTransGen (Step P input) c (pc, pos) ∧ P[pc]? = some inst ∧
      takes input[pos]? inst = true ∧ Reaches (succs P input (pos + 1)) (pc + 1) d.1 := by
  induction h with
  | refl => omega
  | @tail b d hpath hstep ih =>
    rcases step_cases hstep with ⟨hmem, hpos⟩ | ⟨inst, hinst, htakes, rfl⟩
    · have hb : b.2 = pos + 1 := hpos.symm.trans hd
      obtain ⟨pc, inst, hto, hinst, htakes, hreach⟩ := ih hb
      rw [hb] at hmem
      exact ⟨pc, inst, hto, hinst, htakes, hreach.tail hmem⟩
    · obtain ⟨q, k⟩ := b
      obtain rfl : k = pos := succ_injective hd
      exact ⟨q, inst, hpath, hinst, htakes, .refl⟩

end

lemma path_takes {pc q : ℕ} (h : ReflTransGen (Step P input) c (pc, pos))
    (hinst : P[pc]? = some inst) (htakes : takes input[pos]? inst = true)
    (hreach : Reaches (succs P input (pos + 1)) (pc + 1) q) :
    ReflTransGen (Step P input) c (q, pos + 1) :=
  (h.tail ⟨inst, hinst, .inr ⟨htakes, rfl⟩⟩).trans (path_reaches hreach)

/-- No path from a start leaves the program. -/
def Contained (P : List Inst) (input : List UInt8) : Prop :=
  ∀ s pc pos, ReflTransGen (Step P input) (0, s) (pc, pos) → pc < P.length

/-- Some thread that was started before a bound has come to a place. -/
def Alive (prog : Prog) (input : List UInt8) (bound pos pc : ℕ) : Prop :=
  ∃ s < bound, (s = 0 ∨ ¬prog.startAnchored) ∧ ReflTransGen (Step prog.insts input) (0, s) (pc, pos)

/-- The threads that the machine holds at a position. -/
structure Threads (prog : Prog) (input : List UInt8) (bound pos : ℕ) (list : SparseSet) : Prop where
  holds : list.Holds prog.insts.length
  closed : Closed (succs prog.insts input pos) [] list.dense
  mem : ∀ pc, pc ∈ list.dense ↔ Alive prog input bound pos pc

variable {prog : Prog} {list nlist : SparseSet}

lemma start_spec (hcode : Contained prog.insts input) (h : Threads prog input pos pos list) :
    ∃ clist, (if pos = 0 ∨ ¬prog.startAnchored then prog.addThread input list 0 pos
      else some list) = some clist ∧ Threads prog input (pos + 1) pos clist := by
  by_cases hstart : pos = 0 ∨ ¬prog.startAnchored
  · have hwithin : ∀ q, Reaches (succs prog.insts input pos) 0 q → q < prog.insts.length :=
      fun q hq => hcode pos q pos (path_reaches hq)
    obtain ⟨clist, hadd, hholds, hclosed, hmem⟩ := addThread_eq h.holds h.closed hwithin
    rw [if_pos hstart]
    refine ⟨clist, hadd, hholds, hclosed, fun pc => ?_⟩
    rw [hmem, h.mem]
    constructor
    · rintro (⟨s, hs, hallowed, hpath⟩ | hreach)
      · exact ⟨s, lt_succ_of_lt hs, hallowed, hpath⟩
      · exact ⟨pos, lt_succ_self pos, hstart, path_reaches hreach⟩
    · rintro ⟨s, hs, hallowed, hpath⟩
      rcases Nat.lt_succ_iff_lt_or_eq.mp hs with hs | rfl
      · exact .inl ⟨s, hs, hallowed, hpath⟩
      · exact .inr (reaches_path hpath rfl)
  · rw [if_neg hstart]
    refine ⟨list, rfl, h.holds, h.closed, fun pc => ?_⟩
    rw [h.mem]
    constructor
    · rintro ⟨s, hs, hallowed, hpath⟩
      exact ⟨s, lt_succ_of_lt hs, hallowed, hpath⟩
    · rintro ⟨s, hs, hallowed, hpath⟩
      rcases Nat.lt_succ_iff_lt_or_eq.mp hs with hs | rfl
      · exact ⟨s, hs, hallowed, hpath⟩
      · exact absurd hallowed hstart

/-- Some of the threads take the byte of the position, and lead to a place of the next. -/
def Advances (P : List Inst) (input : List UInt8) (pos : ℕ) (threads : List ℕ) (q : ℕ) : Prop :=
  ∃ pc ∈ threads, ∃ inst, P[pc]? = some inst ∧ takes input[pos]? inst = true ∧
    Reaches (succs P input (pos + 1)) (pc + 1) q

variable {threads : List ℕ}

lemma advances_cons {pc q : ℕ} (hinst : P[pc]? = some inst) :
    Advances P input pos (pc :: threads) q ↔
      (takes input[pos]? inst = true ∧ Reaches (succs P input (pos + 1)) (pc + 1) q) ∨
        Advances P input pos threads q := by
  simp only [Advances, exists_mem_cons_iff, hinst, Option.some.injEq, exists_eq_left']

lemma sweep_spec (hthreads : ∀ pc ∈ threads, pc < prog.insts.length)
    (hwithin : ∀ q, Advances prog.insts input pos threads q → q < prog.insts.length)
    (hlist : nlist.Holds prog.insts.length)
    (hclosed : Closed (succs prog.insts input (pos + 1)) [] nlist.dense) :
    ∃ found nlist', prog.sweep input pos threads nlist = some (found, nlist') ∧
      nlist'.Holds prog.insts.length ∧
      (found = true ↔ ∃ pc ∈ threads, prog.insts[pc]? = some .found) ∧
      (found = false → Closed (succs prog.insts input (pos + 1)) [] nlist'.dense ∧
        ∀ q, q ∈ nlist'.dense ↔ q ∈ nlist.dense ∨ Advances prog.insts input pos threads q) := by
  induction threads generalizing nlist with
  | nil => exact ⟨false, nlist, rfl, hlist, by simp, fun _ => ⟨hclosed, by simp [Advances]⟩⟩
  | cons pc threads ih =>
    have hpc := hthreads pc mem_cons_self
    have hinst : prog.insts[pc]? = some prog.insts[pc] := getElem?_eq_getElem hpc
    have htail : ∀ q ∈ threads, q < prog.insts.length :=
      fun q hq => hthreads q (mem_cons_of_mem _ hq)
    have htailWithin : ∀ q, Advances prog.insts input pos threads q → q < prog.insts.length :=
      fun q ⟨a, ha, hrest⟩ => hwithin q ⟨a, mem_cons_of_mem _ ha, hrest⟩
    by_cases hfound : prog.insts[pc] = .found
    · refine ⟨true, nlist, ?_, hlist, ?_, by simp⟩
      · rw [Prog.sweep, hinst, hfound]
      · exact iff_of_true rfl ⟨pc, mem_cons_self, hfound ▸ hinst⟩
    have hsweep : prog.sweep input pos (pc :: threads) nlist =
        if takes input[pos]? prog.insts[pc] then do
          let nlist ← prog.addThread input nlist (pc + 1) (pos + 1)
          prog.sweep input pos threads nlist
        else prog.sweep input pos threads nlist := by
      rw [Prog.sweep, hinst]
      cases hcase : prog.insts[pc] with
      | found => exact absurd hcase hfound
      | _ => rfl
    have hhere : (∃ a ∈ pc :: threads, prog.insts[a]? = some .found) ↔
        ∃ a ∈ threads, prog.insts[a]? = some .found := by
      simp [hinst, hfound]
    rw [hsweep, hhere]
    by_cases htakes : takes input[pos]? prog.insts[pc] = true
    · have hnext : ∀ q, Reaches (succs prog.insts input (pos + 1)) (pc + 1) q →
          q < prog.insts.length :=
        fun q hq => hwithin q ((advances_cons hinst).mpr (.inl ⟨htakes, hq⟩))
      obtain ⟨mid, hadd, hmid, hmidClosed, hmem⟩ := addThread_eq hlist hclosed hnext
      obtain ⟨found, nlist', hrun, hholds, hiff, hthen⟩ := ih htail htailWithin hmid hmidClosed
      refine ⟨found, nlist', ?_, hholds, hiff, fun hnone => ?_⟩
      · rw [if_pos htakes, hadd]
        exact hrun
      · obtain ⟨hafter, hall⟩ := hthen hnone
        refine ⟨hafter, fun q => ?_⟩
        rw [hall, hmem, advances_cons hinst, or_assoc]
        simp only [htakes, true_and]
    · obtain ⟨found, nlist', hrun, hholds, hiff, hthen⟩ := ih htail htailWithin hlist hclosed
      refine ⟨found, nlist', ?_, hholds, hiff, fun hnone => ?_⟩
      · rw [if_neg htakes]
        exact hrun
      · obtain ⟨hafter, hall⟩ := hthen hnone
        refine ⟨hafter, fun q => ?_⟩
        rw [hall, advances_cons hinst]
        simp [htakes]

/-- Where a thread that was started at an allowed place ends with a match. -/
def Finds (prog : Prog) (input : List UInt8) (pos : ℕ) : Prop :=
  ∃ pc, Alive prog input (pos + 1) pos pc ∧ prog.insts[pc]? = some .found

lemma advances_iff (hmem : ∀ pc, pc ∈ threads ↔ Alive prog input (pos + 1) pos pc) (q : ℕ) :
    Advances prog.insts input pos threads q ↔ Alive prog input (pos + 1) (pos + 1) q := by
  constructor
  · rintro ⟨pc, hpc, inst, hinst, htakes, hreach⟩
    obtain ⟨s, hs, hallowed, hpath⟩ := (hmem pc).mp hpc
    exact ⟨s, hs, hallowed, path_takes hpath hinst htakes hreach⟩
  · rintro ⟨s, hs, hallowed, hpath⟩
    obtain ⟨pc, inst, hto, hinst, htakes, hreach⟩ := path_split hpath (le_of_lt_succ hs) rfl
    exact ⟨pc, (hmem pc).mpr ⟨s, hs, hallowed, hto⟩, inst, hinst, htakes, hreach⟩

variable {scratch : Scratch}

/-- What the loop over the positions that are left gives. -/
theorem runFrom_spec {left : ℕ} (hcode : Contained prog.insts input)
    (hclist : Threads prog input pos pos scratch.clist) (hpast : scratch.nlist.Past)
    (hroom : prog.insts.length ≤ scratch.nlist.gen.length) :
    ∃ found scratch', prog.runFrom input left pos scratch = some (found, scratch') ∧
      scratch'.clist.Past ∧ scratch'.nlist.Past ∧
      (found = true ↔ ∃ k, pos ≤ k ∧ k < pos + left ∧ Finds prog input k) := by
  induction left generalizing pos scratch with
  | zero =>
    refine ⟨false, scratch, rfl, hclist.holds.1, hpast, iff_of_false Bool.false_ne_true ?_⟩
    omega
  | succ left ih =>
    obtain ⟨clist, hstart, hthreads⟩ := start_spec hcode hclist
    have hwithin : ∀ q, Advances prog.insts input pos clist.dense q → q < prog.insts.length := by
      intro q hq
      obtain ⟨s, -, -, hpath⟩ := (advances_iff hthreads.mem q).mp hq
      exact hcode s q (pos + 1) hpath
    have hinside : ∀ pc ∈ clist.dense, pc < prog.insts.length := by
      intro pc hpc
      obtain ⟨s, -, -, hpath⟩ := (hthreads.mem pc).mp hpc
      exact hcode s pc pos hpath
    have hempty : Closed (succs prog.insts input (pos + 1)) [] scratch.nlist.clear.dense := by
      rw [dense_clear]
      exact fun a ha => absurd ha not_mem_nil
    obtain ⟨found, nlist, hsweep, hholds, hiff, hthen⟩ := sweep_spec hinside hwithin
      (holds_clear hpast hroom) hempty
    have hfinds : found = true ↔ Finds prog input pos := by
      rw [hiff]
      constructor
      · rintro ⟨pc, hpc, hinst⟩
        exact ⟨pc, (hthreads.mem pc).mp hpc, hinst⟩
      · rintro ⟨pc, halive, hinst⟩
        exact ⟨pc, (hthreads.mem pc).mpr halive, hinst⟩
    rw [Prog.runFrom, hstart]
    simp only [Option.bind_eq_bind, Option.bind_some, hsweep]
    cases found with
    | true =>
      refine ⟨true, ⟨clist, nlist⟩, rfl, hthreads.holds.1, hholds.1, iff_of_true rfl ?_⟩
      exact ⟨pos, le_rfl, by omega, hfinds.mp rfl⟩
    | false =>
      obtain ⟨hclosed, hmem⟩ := hthen rfl
      have hnext : Threads prog input (pos + 1) (pos + 1) nlist := by
        refine ⟨hholds, hclosed, fun q => ?_⟩
        rw [hmem, dense_clear, advances_iff hthreads.mem]
        simp
      have hswapped : Threads prog input (pos + 1) (pos + 1) (Scratch.mk nlist clist).clist := hnext
      obtain ⟨found, scratch', hrun, hpastC, hpastN, hleft⟩ :=
        ih hswapped hthreads.holds.1 hthreads.holds.2.1
      refine ⟨found, scratch', hrun, hpastC, hpastN, hleft.trans ?_⟩
      constructor
      · rintro ⟨k, hle, hlt, hk⟩
        exact ⟨k, by omega, by omega, hk⟩
      rintro ⟨k, hle, hlt, hk⟩
      have hne : k ≠ pos := by
        rintro rfl
        exact Bool.false_ne_true (hfinds.mpr hk)
      exact ⟨k, by omega, by omega, hk⟩

/-- A run over an input, whatever earlier runs have left. -/
theorem run_spec (hcode : Contained prog.insts input)
    (hclist : scratch.clist.Past) (hnlist : scratch.nlist.Past) :
    ∃ found scratch', prog.run input scratch = some (found, scratch') ∧
      scratch'.clist.Past ∧ scratch'.nlist.Past ∧
      (found = true ↔ ∃ k ≤ input.length, Finds prog input k) := by
  set begun : Scratch := ⟨(scratch.clist.ensure prog.insts.length).clear,
    scratch.nlist.ensure prog.insts.length⟩
  have hthreads : Threads prog input 0 0 begun.clist := by
    refine ⟨holds_clear (past_ensure hclist _) (length_ensure _ _), ?_, fun pc => ?_⟩
    · rw [dense_clear]
      exact fun a ha => absurd ha not_mem_nil
    · rw [dense_clear]
      simp [Alive]
  have hpast : begun.nlist.Past := past_ensure hnlist _
  have hroom : prog.insts.length ≤ begun.nlist.gen.length := length_ensure _ _
  obtain ⟨found, scratch', hrun, hpastC, hpastN, hiff⟩ : ∃ found scratch',
      prog.runFrom input (input.length + 1) 0 begun = some (found, scratch') ∧
        scratch'.clist.Past ∧ scratch'.nlist.Past ∧
        (found = true ↔ ∃ k, 0 ≤ k ∧ k < 0 + (input.length + 1) ∧ Finds prog input k) :=
    runFrom_spec hcode hthreads hpast hroom
  refine ⟨found, scratch', hrun, hpastC, hpastN, hiff.trans ?_⟩
  constructor
  · rintro ⟨k, -, hlt, hk⟩
    exact ⟨k, by omega, hk⟩
  · rintro ⟨k, hle, hk⟩
    exact ⟨k, zero_le k, by omega, hk⟩

mutual

/-- The shortcut of an anchored program loses nothing. -/
theorem isStartAnchored_zero : ∀ a : Ast, isStartAnchored a = true → ∀ i j,
    Matches input a i j → i = 0
  | .startAnchor multiline, h, i, j, hm => by
    rw [isStartAnchored, Bool.not_eq_true'] at h
    rw [Matches, h] at hm
    simpa using hm.2
  | .concat parts, h, i, j, hm => by
    rw [isStartAnchored] at h
    rw [Matches] at hm
    exact firstStartAnchored_zero parts h i j hm
  | .alt branches, h, i, j, hm => by
    rw [isStartAnchored, Bool.and_eq_true] at h
    rw [Matches] at hm
    exact allStartAnchored_zero branches h.2 i j hm
  | .empty, h, _, _, _ => by simp [isStartAnchored] at h
  | .literal _, h, _, _, _ => by simp [isStartAnchored] at h
  | .anyChar _, h, _, _, _ => by simp [isStartAnchored] at h
  | .charClass _ _, h, _, _, _ => by simp [isStartAnchored] at h
  | .repetition _ _ _, h, _, _, _ => by simp [isStartAnchored] at h
  | .endAnchor _, h, _, _, _ => by simp [isStartAnchored] at h
  | .wordBoundary _, h, _, _, _ => by simp [isStartAnchored] at h

theorem firstStartAnchored_zero : ∀ parts : List Ast, firstStartAnchored parts = true → ∀ i j,
    MatchesInTurn input parts i j → i = 0
  | [], h, _, _, _ => by simp [firstStartAnchored] at h
  | part :: rest, h, i, j, hm => by
    rw [MatchesInTurn] at hm
    obtain ⟨y, hiy, hyj⟩ := hm
    by_cases hempty : part = .empty
    · subst hempty
      rw [firstStartAnchored] at h
      rw [Matches] at hiy
      subst hiy
      exact firstStartAnchored_zero rest h i j hyj
    · rw [firstStartAnchored] at h
      · exact isStartAnchored_zero part h i y hiy
      · exact hempty

theorem allStartAnchored_zero : ∀ branches : List Ast, allStartAnchored branches = true → ∀ i j,
    MatchesOne input branches i j → i = 0
  | [], _, _, _, hm => by
    rw [MatchesOne] at hm
    exact hm.elim
  | branch :: rest, h, i, j, hm => by
    rw [allStartAnchored, Bool.and_eq_true] at h
    rw [MatchesOne] at hm
    rcases hm with hm | hm
    · exact isStartAnchored_zero branch h.1 i j hm
    · exact allStartAnchored_zero rest h.2 i j hm

end

/-- A tree matches some part of the input. -/
def Occurs (input : List UInt8) (a : Ast) : Prop :=
  ∃ i j, i ≤ j ∧ j ≤ input.length ∧ Matches input a i j

/-- The program of a tree, as one block and the end of a match after it. -/
theorem compileAst_spec {a : Ast} (hwf : Wf a) (h : compileAst a = .ok prog) :
    ∃ code, prog.insts = code ++ [.found] ∧ .found ∉ code ∧ prog.startAnchored = isStartAnchored a ∧
      ∀ input, Realises (Step prog.insts input) 0 code.length (Matches input a) := by
  obtain ⟨code, hcode, h⟩ := bind_inv h
  obtain ⟨whole, hemit, h⟩ := bind_inv h
  cases h
  obtain rfl := emit_ok hemit
  refine ⟨code, rfl, fun hmem => ?_, rfl, fun input => ?_⟩
  · have hgives : Gives [] [] code (Matches [] a) := compile_gives a hwf _ _ hcode
    exact absurd (hgives.quiet hmem) not_mem_nil
  · refine (compile_gives a hwf _ _ hcode).block _ fun k _ hk _ => ?_
    exact getElem?_append_left hk

/-- Every path of a program of a tree stays in it, and those that find a match are its matches. -/
theorem path_iff {code : List Inst} {R : ℕ → ℕ → Prop} (hinsts : P = code ++ [.found])
    (hquiet : .found ∉ code) (hblock : Realises (Step P input) 0 code.length R) :
    Contained P input ∧ ∀ s pos, (∃ pc, ReflTransGen (Step P input) (0, s) (pc, pos) ∧
      P[pc]? = some .found) ↔ R s pos := by
  have hlast : P[code.length]? = some .found := by
    rw [hinsts]
    simp
  have hend : ∀ x d, ¬Step P input (code.length, x) d := fun x d => step_found hlast x d
  have hiff : ∀ s pos, ReflTransGen (Step P input) (0, s) (code.length, pos) ↔ R s pos :=
    fun s pos => hblock.iff hend
  have hle : ∀ s pc pos, ReflTransGen (Step P input) (0, s) (pc, pos) → pc ≤ code.length := by
    intro s pc pos hpath
    by_contra hgt
    obtain ⟨n, hn⟩ := exists_steps_iff.mpr hpath
    obtain ⟨y, m, -, -, hrest⟩ := hblock.leaves n s pc pos hn (.inr (by omega))
    cases hrest with
    | refl => omega
    | head hstep _ => exact hend _ _ hstep
  refine ⟨fun s pc pos hpath => ?_, fun s pos => ⟨?_, fun hR => ?_⟩⟩
  · have := hle s pc pos hpath
    rw [hinsts, length_append, length_singleton]
    omega
  · rintro ⟨pc, hpath, hfound⟩
    have hpc : pc = code.length := by
      by_contra hne
      have hlt : pc < code.length := lt_of_le_of_ne (hle s pc pos hpath) hne
      rw [hinsts, getElem?_append_left hlt] at hfound
      exact hquiet (mem_of_getElem? hfound)
    subst hpc
    exact (hiff s pos).mp hpath
  · exact ⟨code.length, (hiff s pos).mpr hR, hlast⟩

/-- The machine finds a match if and only if the tree occurs in the input. -/
theorem compileAst_run {a : Ast} (hwf : Wf a) (h : compileAst a = .ok prog) (input : List UInt8) (hclist : scratch.clist.Past) (hnlist : scratch.nlist.Past) :
    ∃ found scratch', prog.run input scratch = some (found, scratch') ∧
      scratch'.clist.Past ∧ scratch'.nlist.Past ∧ (found = true ↔ Occurs input a) := by
  obtain ⟨code, hinsts, hquiet, hanchored, hblock⟩ := compileAst_spec hwf h
  obtain ⟨hcode, hiff⟩ := path_iff hinsts hquiet (hblock input)
  obtain ⟨found, scratch', hrun, hpastC, hpastN, hfound⟩ := run_spec hcode hclist hnlist
  refine ⟨found, scratch', hrun, hpastC, hpastN, hfound.trans ?_⟩
  constructor
  · rintro ⟨k, hk, pc, ⟨s, hs, -, hpath⟩, hinst⟩
    exact ⟨s, k, le_of_lt_succ hs, hk, (hiff s k).mp ⟨pc, hpath, hinst⟩⟩
  rintro ⟨i, j, hij, hj, hmatch⟩
  obtain ⟨pc, hpath, hinst⟩ := (hiff i j).mpr hmatch
  refine ⟨j, hj, pc, ⟨i, lt_succ_of_le hij, ?_, hpath⟩, hinst⟩
  by_cases hstart : isStartAnchored a = true
  · exact .inl (isStartAnchored_zero a hstart i j hmatch)
  · exact .inr (hanchored ▸ hstart)

variable {asts : List Ast}

lemma parsePatterns_spec {fuel : ℕ} {patterns : List (List UInt8)}
    (h : parsePatterns fuel patterns = .ok asts) :
    (∀ a ∈ asts, Wf a) ∧ ∀ a, a ∈ asts ↔ ∃ pattern ∈ patterns, parsePattern fuel pattern = .ok a := by
  induction patterns generalizing asts with
  | nil =>
    cases h
    simp
  | cons pattern rest ih =>
    obtain ⟨first, hfirst, h⟩ := bind_inv h
    obtain ⟨others, hothers, h⟩ := bind_inv h
    cases h
    obtain ⟨hwf, hmem⟩ := ih hothers
    refine ⟨fun a ha => ?_, fun a => ?_⟩
    · rcases mem_cons.mp ha with rfl | ha
      · exact parsePattern_wf hfirst
      · exact hwf a ha
    · simp only [mem_cons, hmem, exists_eq_or_imp, hfirst, Except.ok.injEq]
      exact or_congr_left eq_comm

lemma matchesOne_iff {i j : ℕ} : MatchesOne input asts i j ↔ ∃ a ∈ asts, Matches input a i j := by
  induction asts with
  | nil => simp [MatchesOne]
  | cons a asts ih => simp [MatchesOne, ih]

lemma occurs_alt : Occurs input (.alt asts) ↔ ∃ a ∈ asts, Occurs input a := by
  simp only [Occurs, Matches, matchesOne_iff]
  constructor
  · rintro ⟨i, j, hij, hj, a, ha, hmatch⟩
    exact ⟨a, ha, i, j, hij, hj, hmatch⟩
  · rintro ⟨a, ha, i, j, hij, hj, hmatch⟩
    exact ⟨i, j, hij, hj, a, ha, hmatch⟩

/-- The program of a set finds a match if and only if one of its trees occurs in the input. -/
theorem regexSetNew_run {fuel : ℕ} {patterns : List (List UInt8)} {set : Option Prog}
    (h : regexSetNew fuel patterns = .ok set) (input : List UInt8)
    (hclist : scratch.clist.Past) (hnlist : scratch.nlist.Past) :
    ∃ found scratch', regexSetRun set input scratch = some (found, scratch') ∧
      scratch'.clist.Past ∧ scratch'.nlist.Past ∧
      (found = true ↔
        ∃ pattern ∈ patterns, ∃ a, parsePattern fuel pattern = .ok a ∧ Occurs input a) := by
  obtain ⟨asts, hasts, h⟩ := bind_inv h
  obtain ⟨hwf, hmem⟩ := parsePatterns_spec hasts
  have hany : (∃ pattern ∈ patterns, ∃ a, parsePattern fuel pattern = .ok a ∧ Occurs input a) ↔
      ∃ a ∈ asts, Occurs input a := by
    constructor
    · rintro ⟨pattern, hpattern, a, ha, hoccurs⟩
      exact ⟨a, (hmem a).mpr ⟨pattern, hpattern, ha⟩, hoccurs⟩
    · rintro ⟨a, ha, hoccurs⟩
      obtain ⟨pattern, hpattern, hparse⟩ := (hmem a).mp ha
      exact ⟨pattern, hpattern, a, hparse, hoccurs⟩
  rw [hany]
  rcases asts with _ | ⟨a, _ | ⟨b, rest⟩⟩
  · cases h
    exact ⟨false, scratch, rfl, hclist, hnlist, by simp⟩
  · obtain ⟨prog, hprog, h⟩ := bind_inv h
    cases h
    have hone : (∃ x ∈ [a], Occurs input x) ↔ Occurs input a := by simp
    rw [hone]
    exact compileAst_run (hwf a mem_cons_self) hprog input hclist hnlist
  · obtain ⟨prog, hprog, h⟩ := bind_inv h
    cases h
    rw [← occurs_alt]
    exact compileAst_run (.alt (cons_ne_nil _ _) hwf) hprog input hclist hnlist

/-- The work space of a thread: new, or left by the runs of expressions and sets before. -/
inductive Arises : Scratch → Prop
  | fresh : Arises ⟨.new, .new⟩
  | regex {fuel : ℕ} {pattern : List UInt8} {prog : Prog} {scratch scratch' : Scratch}
      {found : Bool} (input : List UInt8) : Arises scratch → regexNew fuel pattern = .ok prog →
      prog.run input scratch = some (found, scratch') → Arises scratch'
  | regexSet {fuel : ℕ} {patterns : List (List UInt8)} {set : Option Prog}
      {scratch scratch' : Scratch} {found : Bool} (input : List UInt8) : Arises scratch →
      regexSetNew fuel patterns = .ok set →
      regexSetRun set input scratch = some (found, scratch') → Arises scratch'

lemma Arises.past (h : Arises scratch) : scratch.clist.Past ∧ scratch.nlist.Past := by
  induction h with
  | fresh => exact ⟨past_new, past_new⟩
  | regex input _ hnew hrun ih =>
    obtain ⟨a, hparse, hcompile⟩ := bind_inv hnew
    obtain ⟨found, left, hresult, hpastC, hpastN, -⟩ :=
      compileAst_run (parsePattern_wf hparse) hcompile input ih.1 ih.2
    rw [hrun] at hresult
    cases hresult
    exact ⟨hpastC, hpastN⟩
  | regexSet input _ hnew hrun ih =>
    obtain ⟨found, left, hresult, hpastC, hpastN, -⟩ := regexSetNew_run hnew input ih.1 ih.2
    rw [hrun] at hresult
    cases hresult
    exact ⟨hpastC, hpastN⟩

/-- An expression matches if and only if its tree matches a part of the input, and a set matches
if and only if one of its patterns does. -/
theorem is_match_iff {scratch : Scratch} (hscratch : Arises scratch) (fuel : ℕ)
    (input : List UInt8) :
    (∀ pattern a prog, parsePattern fuel pattern = .ok a → regexNew fuel pattern = .ok prog →
      ∃ found scratch', prog.run input scratch = some (found, scratch') ∧
        (found = true ↔ Occurs input a)) ∧
    ∀ patterns set, regexSetNew fuel patterns = .ok set →
      ∃ found scratch', regexSetRun set input scratch = some (found, scratch') ∧
        (found = true ↔
          ∃ pattern ∈ patterns, ∃ a, parsePattern fuel pattern = .ok a ∧ Occurs input a) := by
  obtain ⟨hclist, hnlist⟩ := hscratch.past
  constructor
  · intro pattern a prog hparse hnew
    obtain ⟨b, hb, hcompile⟩ := bind_inv hnew
    rw [hparse] at hb
    cases hb
    obtain ⟨found, scratch', hrun, -, -, hiff⟩ :=
      compileAst_run (parsePattern_wf hparse) hcompile input hclist hnlist
    exact ⟨found, scratch', hrun, hiff⟩
  · intro patterns set hnew
    obtain ⟨found, scratch', hrun, -, -, hiff⟩ := regexSetNew_run hnew input hclist hnlist
    exact ⟨found, scratch', hrun, hiff⟩

/-- The pattern `^a|b.` over the input `xby`. -/
theorem is_match_iff_branches : ∃ a prog, parsePattern 60 [94, 97, 124, 98, 46] = .ok a ∧
    regexNew 60 [94, 97, 124, 98, 46] = .ok prog ∧ ∃ found scratch',
      prog.run [120, 98, 121] ⟨.new, .new⟩ = some (found, scratch') ∧
        (found = true ↔ Occurs [120, 98, 121] a) :=
  ⟨_, _, rfl, rfl, (is_match_iff .fresh 60 [120, 98, 121]).1 [94, 97, 124, 98, 46] _ _ rfl rfl⟩

end OnetDns.Filter.Regex
