import Mathlib.Order.Defs.PartialOrder

/-!
# Programs that keep an invariant

Rules for programs over a state that may fail, with the state kept on failure. The state
only grows in some order, so what was found once holds on; a program is started in any
state that has grown from a base.
-/
namespace OnetDns.Runs

/-- An invariant of the states, and an order in which they grow. -/
structure Discipline (σ : Type) where
  inv : σ → Prop
  grows : σ → σ → Prop
  refl : ∀ s, grows s s
  trans : ∀ {a b c}, grows a b → grows b c → grows a c

variable {ε σ α β : Type} {d : Discipline σ} {base : σ}

/-- From every state that has grown from the base, the program keeps the invariant, lets the
state grow, and ends with the property if it succeeds. -/
def Safe (d : Discipline σ) (base : σ) (p : ExceptT ε (StateM σ) α) (post : α → σ → Prop) : Prop :=
  ∀ s, d.inv s → d.grows base s →
    d.inv (p s).2 ∧ d.grows s (p s).2 ∧ ∀ a, (p s).1 = .ok a → post a (p s).2

/-- A safe program of whose result nothing is said. -/
abbrev Keeps (d : Discipline σ) (base : σ) (p : ExceptT ε (StateM σ) α) : Prop :=
  Safe d base p fun _ _ => True

variable {p : ExceptT ε (StateM σ) α} {post : α → σ → Prop}

lemma Safe.mono {post' : α → σ → Prop} (h : Safe d base p post)
    (hpost : ∀ a s, d.inv s → d.grows base s → post a s → post' a s) : Safe d base p post' := by
  intro s hinv hbase
  obtain ⟨hinv', hgrows, hok⟩ := h s hinv hbase
  exact ⟨hinv', hgrows, fun a ha => hpost a _ hinv' (d.trans hbase hgrows) (hok a ha)⟩

lemma Safe.pure {a : α} (h : ∀ s, d.inv s → d.grows base s → post a s) :
    Safe d base (Pure.pure a : ExceptT ε (StateM σ) α) post := by
  intro s hinv hbase
  refine ⟨hinv, d.refl s, fun b hb => ?_⟩
  obtain rfl := Except.ok.inj hb
  exact h s hinv hbase

lemma Safe.done {a : α} : Keeps d base (Pure.pure a : ExceptT ε (StateM σ) α) :=
  .pure fun _ _ _ => trivial

lemma Safe.throw (e : ε) : Safe d base (throw e : ExceptT ε (StateM σ) α) post := by
  intro s hinv _
  exact ⟨hinv, d.refl s, fun b hb => by cases hb⟩

variable {post' : β → σ → Prop}

lemma Safe.bind {k : α → ExceptT ε (StateM σ) β} (h : Safe d base p post)
    (hk : ∀ a s, d.inv s → d.grows base s → post a s → Safe d s (k a) post') :
    Safe d base (p >>= k) post' := by
  intro s hinv hbase
  obtain ⟨hinv', hgrows, hok⟩ := h s hinv hbase
  change d.inv (ExceptT.bindCont k (p s).1 (p s).2).2 ∧
    d.grows s (ExceptT.bindCont k (p s).1 (p s).2).2 ∧
      ∀ b, (ExceptT.bindCont k (p s).1 (p s).2).1 = .ok b →
        post' b (ExceptT.bindCont k (p s).1 (p s).2).2
  cases hp : (p s).1 with
  | error e => exact ⟨hinv', hgrows, fun b hb => by cases hb⟩
  | ok a =>
    obtain ⟨hinv₂, hgrows₂, hok₂⟩ := hk a _ hinv' (d.trans hbase hgrows) (hok a hp) _ hinv'
      (d.refl _)
    exact ⟨hinv₂, d.trans hgrows hgrows₂, hok₂⟩

lemma Safe.map {f : α → β} (h : Safe d base p post)
    (hf : ∀ a s, post a s → post' (f a) s) : Safe d base (f <$> p) post' := by
  intro s hinv hbase
  obtain ⟨hinv', hgrows, hok⟩ := h s hinv hbase
  have hrun : (f <$> p : ExceptT ε (StateM σ) β) s = ((p s).1.map f, (p s).2) := by
    change (match (p s).1 with
      | .ok a => (.pure (.ok (f a)) : StateM σ (Except ε β))
      | .error e => .pure (.error e)) (p s).2 = _
    cases (p s).1 <;> rfl
  rw [hrun]
  refine ⟨hinv', hgrows, fun b hb => ?_⟩
  cases hp : (p s).1 with
  | error e => rw [hp] at hb; cases hb
  | ok a =>
    rw [hp] at hb
    obtain rfl := Except.ok.inj hb
    exact hf a _ (hok a hp)

lemma Safe.tryCatch {handle : ε → ExceptT ε (StateM σ) α} (h : Safe d base p post)
    (hhandle : ∀ e, Safe d base (handle e) post) :
    Safe d base (MonadExcept.tryCatch p handle) post := by
  intro s hinv hbase
  obtain ⟨hinv', hgrows, hok⟩ := h s hinv hbase
  have hrun : (MonadExcept.tryCatch p handle : ExceptT ε (StateM σ) α) s = (match (p s).1 with
    | .ok a => (.pure (.ok a) : StateM σ (Except ε α))
    | .error e => handle e) (p s).2 := rfl
  rw [hrun]
  cases hp : (p s).1 with
  | ok a =>
    rw [hp] at hok
    exact ⟨hinv', hgrows, hok⟩
  | error e =>
    obtain ⟨hinv₂, hgrows₂, hok₂⟩ := hhandle e _ hinv' (d.trans hbase hgrows)
    exact ⟨hinv₂, d.trans hgrows hgrows₂, hok₂⟩

/-- A change of the state that returns something. -/
theorem Safe.modifyGet {f : σ → α × σ}
    (h : ∀ s, d.inv s → d.grows base s → d.inv (f s).2 ∧ d.grows s (f s).2 ∧ post (f s).1 (f s).2) :
    Safe d base (modifyGet f : ExceptT ε (StateM σ) α) post := by
  intro s hinv hbase
  obtain ⟨hinv', hgrows, hpost⟩ := h s hinv hbase
  exact ⟨hinv', hgrows, fun a ha => by cases ha; exact hpost⟩

lemma Safe.modify {f : σ → σ} {post : Unit → σ → Prop}
    (h : ∀ s, d.inv s → d.grows base s → d.inv (f s) ∧ d.grows s (f s) ∧ post () (f s)) :
    Safe d base (modify f : ExceptT ε (StateM σ) Unit) post :=
  .modifyGet h

/-- A result from outside. -/
theorem Safe.lift {x : Except ε α} (h : ∀ a s, d.inv s → d.grows base s → x = .ok a → post a s) :
    Safe d base (liftM x : ExceptT ε (StateM σ) α) post := by
  intro s hinv hbase
  refine ⟨hinv, d.refl s, fun a ha => h a s hinv hbase ?_⟩
  exact ha

/-- From the state, the program succeeds with the property. -/
def Ends (s : σ) (p : ExceptT ε (StateM σ) α) (post : α → σ → Prop) : Prop :=
  ∃ a s', p s = (.ok a, s') ∧ post a s'

variable {s : σ}

lemma Ends.mono {post' : α → σ → Prop} (h : Ends s p post) (hpost : ∀ a s', post a s' → post' a s') :
    Ends s p post' := by
  obtain ⟨a, s', hrun, ha⟩ := h
  exact ⟨a, s', hrun, hpost a s' ha⟩

lemma Ends.pure {a : α} (h : post a s) : Ends s (Pure.pure a : ExceptT ε (StateM σ) α) post :=
  ⟨a, s, rfl, h⟩

lemma Ends.bind {k : α → ExceptT ε (StateM σ) β} (h : Ends s p post)
    (hk : ∀ a s', post a s' → Ends s' (k a) post') : Ends s (p >>= k) post' := by
  obtain ⟨a, s', hrun, ha⟩ := h
  obtain ⟨b, s'', hrun', hb⟩ := hk a s' ha
  refine ⟨b, s'', ?_, hb⟩
  change ExceptT.bindCont k (p s).1 (p s).2 = _
  rw [hrun]
  exact hrun'

lemma Ends.map {f : α → β} (h : Ends s p post)
    (hf : ∀ a s', post a s' → post' (f a) s') : Ends s (f <$> p) post' := by
  obtain ⟨a, s', hrun, ha⟩ := h
  refine ⟨f a, s', ?_, hf a s' ha⟩
  change (match (p s).1 with
    | .ok a => (.pure (.ok (f a)) : StateM σ (Except ε β))
    | .error e => .pure (.error e)) (p s).2 = _
  rw [hrun]
  rfl

lemma Ends.tryCatch {handle : ε → ExceptT ε (StateM σ) α} (h : Ends s p post) :
    Ends s (MonadExcept.tryCatch p handle) post := by
  obtain ⟨a, s', hrun, ha⟩ := h
  refine ⟨a, s', ?_, ha⟩
  change (match (p s).1 with
    | .ok a => (.pure (.ok a) : StateM σ (Except ε α))
    | .error e => handle e) (p s).2 = _
  rw [hrun]
  rfl

lemma Ends.modifyGet {f : σ → α × σ} (h : post (f s).1 (f s).2) :
    Ends s (modifyGet f : ExceptT ε (StateM σ) α) post :=
  ⟨(f s).1, (f s).2, rfl, h⟩

lemma Ends.modify {f : σ → σ} {post : Unit → σ → Prop} (h : post () (f s)) :
    Ends s (modify f : ExceptT ε (StateM σ) Unit) post :=
  ⟨(), f s, rfl, h⟩

lemma Ends.lift {x : Except ε α} {a : α} (hx : x = .ok a) (h : post a s) :
    Ends s (liftM x : ExceptT ε (StateM σ) α) post := by
  subst hx
  exact ⟨a, s, rfl, h⟩

end OnetDns.Runs
