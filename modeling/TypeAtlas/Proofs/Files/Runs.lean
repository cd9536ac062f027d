import TypeAtlas.Workspace

/-! # Runs that may fail half-way

A run ends in a result, which may be an error, and in a state. What was done before an error stays
done, so the state counts in either case.
-/

namespace TypeAtlas

variable {ε σ α β : Type} {m : ExceptT ε (StateM σ) α} {s s' s'' : σ} {r : Except ε α}
  {q : Except ε β} {f : α → ExceptT ε (StateM σ) β}

/-- A run from a state ends with a result, in another state. -/
def Runs (m : ExceptT ε (StateM σ) α) (s : σ) (r : Except ε α) (s' : σ) : Prop :=
  m.run.run s = (r, s')

@[simp] theorem runs_pure {x : α} : Runs (pure x) s r s' ↔ r = .ok x ∧ s' = s := by
  constructor
  · intro h
    cases h
    exact ⟨rfl, rfl⟩
  · rintro ⟨rfl, rfl⟩
    rfl

@[simp] theorem runs_throw {e : ε} : Runs (throw e : ExceptT ε (StateM σ) α) s r s' ↔
    r = .error e ∧ s' = s := by
  constructor
  · intro h
    cases h
    exact ⟨rfl, rfl⟩
  · rintro ⟨rfl, rfl⟩
    rfl

theorem runs_bind : Runs (m >>= f) s q s'' ↔
    (∃ x s', Runs m s (.ok x) s' ∧ Runs (f x) s' q s'') ∨ ∃ e, Runs m s (.error e) s'' ∧ q = .error e := by
  have hbind : (m >>= f).run.run s =
      StateT.run (ExceptT.bindCont f (m.run.run s).1) (m.run.run s).2 := rfl
  unfold Runs
  rw [hbind]
  rcases h : m.run.run s with ⟨e | x, s'⟩
  · constructor
    · intro h
      cases h
      exact .inr ⟨e, rfl, rfl⟩
    · rintro (⟨x, s', h, -⟩ | ⟨e', h, rfl⟩)
      · cases h
      · cases h
        rfl
  · constructor
    · exact fun h => .inl ⟨x, s', rfl, h⟩
    · rintro (⟨x, s', h, hf⟩ | ⟨e, h, -⟩)
      · cases h
        exact hf
      · cases h

theorem runs_bind_ok {y : β} : Runs (m >>= f) s (.ok y) s'' ↔
    ∃ x s', Runs m s (.ok x) s' ∧ Runs (f x) s' (.ok y) s'' := by
  rw [runs_bind]
  constructor
  · rintro (h | ⟨e, -, he⟩)
    · exact h
    · cases he
  · exact .inl

theorem runs_ok_bind {x : α} (h : Runs m s (.ok x) s') :
    Runs (m >>= f) s q s'' ↔ Runs (f x) s' q s'' := by
  rw [runs_bind]
  constructor
  · rintro (⟨y, t, hy, hf⟩ | ⟨e, he, -⟩)
    · cases h.symm.trans hy
      exact hf
    · cases h.symm.trans he
  · exact fun hf => .inl ⟨x, s', h, hf⟩

theorem runs_map_ok {g : α → β} {y : β} :
    Runs (g <$> m) s (.ok y) s' ↔ ∃ x, Runs m s (.ok x) s' ∧ g x = y := by
  rw [map_eq_pure_bind, runs_bind_ok]
  constructor
  · rintro ⟨x, t, hx, h⟩
    obtain ⟨hy, rfl⟩ := runs_pure.1 h
    exact ⟨x, hx, (Except.ok.inj hy).symm⟩
  · rintro ⟨x, hx, rfl⟩
    exact ⟨x, s', hx, runs_pure.2 ⟨rfl, rfl⟩⟩

theorem runs_map_error {g : α → β} {e : ε} : Runs (g <$> m) s (.error e) s' ↔ Runs m s (.error e) s' := by
  rw [map_eq_pure_bind, runs_bind]
  constructor
  · rintro (⟨x, t, -, h⟩ | ⟨e', h, he⟩)
    · cases (runs_pure.1 h).1
    · rwa [Except.error.inj he]
  · exact fun h => .inr ⟨e, h, rfl⟩

@[simp] theorem runs_get {x : Except ε σ} : Runs (get : ExceptT ε (StateM σ) σ) s x s' ↔
    x = .ok s ∧ s' = s := by
  constructor
  · intro h
    cases h
    exact ⟨rfl, rfl⟩
  · rintro ⟨rfl, rfl⟩
    rfl

@[simp] theorem runs_modify {g : σ → σ} {x : Except ε PUnit} :
    Runs (modify g : ExceptT ε (StateM σ) PUnit) s x s' ↔ x = .ok ⟨⟩ ∧ s' = g s := by
  constructor
  · intro h
    cases h
    exact ⟨rfl, rfl⟩
  · rintro ⟨rfl, rfl⟩
    rfl

theorem runs_get_bind {g : σ → ExceptT ε (StateM σ) β} : Runs (get >>= g) s q s' ↔ Runs (g s) s q s' :=
  Iff.rfl

theorem runs_modify_bind {g : σ → σ} {f : PUnit → ExceptT ε (StateM σ) β} :
    Runs (modify g >>= f) s q s' ↔ Runs (f ⟨⟩) (g s) q s' :=
  Iff.rfl

theorem runs_throw_bind {e : ε} : Runs (throw e >>= f) s q s' ↔ q = .error e ∧ s' = s :=
  runs_throw

theorem runs_tryCatch {handle : ε → ExceptT ε (StateM σ) α} :
    Runs (tryCatch m handle) s r s'' ↔
      (∃ x, Runs m s (.ok x) s'' ∧ r = .ok x) ∨
        ∃ e s', Runs m s (.error e) s' ∧ Runs (handle e) s' r s'' := by
  have hcatch : (tryCatch m handle).run.run s =
      StateT.run (match (m.run.run s).1 with
        | .ok x => pure (.ok x)
        | .error e => (handle e).run) (m.run.run s).2 := rfl
  unfold Runs
  rw [hcatch]
  rcases h : m.run.run s with ⟨e | x, s'⟩
  · constructor
    · exact fun h => .inr ⟨e, s', rfl, h⟩
    · rintro (⟨x, h, -⟩ | ⟨e', s', h, hhandle⟩)
      · cases h
      · cases h
        exact hhandle
  · constructor
    · intro h
      cases h
      exact .inl ⟨x, rfl, rfl⟩
    · rintro (⟨x', h, rfl⟩ | ⟨e, s', h, -⟩)
      · cases h
        rfl
      · cases h

/-! ## What runs leave alone -/

section Keeps

variable {γ : Type} {view : σ → γ}

/-- Whatever comes of a run, this view of the state is as it was. -/
def Keeps (view : σ → γ) (m : ExceptT ε (StateM σ) α) : Prop :=
  ∀ s r s', Runs m s r s' → view s' = view s

theorem keeps_pure (x : α) : Keeps view (pure x : ExceptT ε (StateM σ) α) := by
  intro s r s' h
  rw [(runs_pure.1 h).2]

theorem keeps_throw (e : ε) : Keeps view (throw e : ExceptT ε (StateM σ) α) := by
  intro s r s' h
  rw [(runs_throw.1 h).2]

theorem keeps_get : Keeps view (get : ExceptT ε (StateM σ) σ) := by
  intro s r s' h
  rw [(runs_get.1 h).2]

theorem keeps_modify {g : σ → σ} (h : ∀ s, view (g s) = view s) :
    Keeps view (modify g : ExceptT ε (StateM σ) PUnit) := by
  intro s r s' hr
  rw [(runs_modify.1 hr).2, h]

theorem Keeps.bind (hm : Keeps view m) (hf : ∀ x, Keeps view (f x)) : Keeps view (m >>= f) := by
  intro s r s' h
  rcases runs_bind.1 h with ⟨x, s₁, hx, h⟩ | ⟨e, he, -⟩
  · rw [hf x _ _ _ h, hm _ _ _ hx]
  · exact hm _ _ _ he

/-- After a step that leaves the view alone, a run goes on with its value or is over. -/
theorem Keeps.split (hm : Keeps view m) (h : Runs (m >>= f) s q s'') :
    view s'' = view s ∨ ∃ x s', Runs m s (.ok x) s' ∧ view s' = view s ∧ Runs (f x) s' q s'' := by
  rcases runs_bind.1 h with ⟨x, s', hx, h⟩ | ⟨e, he, -⟩
  · exact .inr ⟨x, s', hx, hm _ _ _ hx, h⟩
  · exact .inl (hm _ _ _ he)

theorem Keeps.tryCatch {handle : ε → ExceptT ε (StateM σ) α} (hm : Keeps view m)
    (hf : ∀ e, Keeps view (handle e)) : Keeps view (tryCatch m handle) := by
  intro s r s' h
  rcases runs_tryCatch.1 h with ⟨x, hx, -⟩ | ⟨e, s₁, he, h⟩
  · exact hm _ _ _ hx
  · rw [hf e _ _ _ h, hm _ _ _ he]

theorem keeps_forM {g : β → ExceptT ε (StateM σ) PUnit} (h : ∀ x, Keeps view (g x)) (xs : List β) :
    Keeps view (xs.forM g) := by
  induction xs with
  | nil => exact keeps_pure _
  | cons x xs ih => exact (h x).bind fun _ => ih

end Keeps

/-! ## How runs succeed -/

section Succeeds

variable {Q Q' : α → σ → Prop} {R : β → σ → Prop}

/-- A run from a state ends without an error, in a result and a state with a property. -/
def Succeeds (m : ExceptT ε (StateM σ) α) (s : σ) (Q : α → σ → Prop) : Prop :=
  ∃ x s', Runs m s (.ok x) s' ∧ Q x s'

theorem Runs.succeeds {x : α} (h : Runs m s (.ok x) s') (hQ : Q x s') : Succeeds m s Q := ⟨x, s', h, hQ⟩

theorem Succeeds.imp (h : Succeeds m s Q) (hQ : ∀ x s', Runs m s (.ok x) s' → Q x s' → Q' x s') :
    Succeeds m s Q' := by
  obtain ⟨x, s', hx, h⟩ := h
  exact ⟨x, s', hx, hQ x s' hx h⟩

theorem succeeds_pure {x : α} (h : Q x s) : Succeeds (pure x : ExceptT ε (StateM σ) α) s Q :=
  (runs_pure.2 ⟨rfl, rfl⟩ : Runs _ s (.ok x) s).succeeds h

theorem Succeeds.bind (hm : Succeeds m s Q) (hf : ∀ x s', Q x s' → Succeeds (f x) s' R) :
    Succeeds (m >>= f) s R := by
  obtain ⟨x, s', hx, hQ⟩ := hm
  obtain ⟨y, s'', hy, hR⟩ := hf x s' hQ
  exact ⟨y, s'', (runs_ok_bind hx).2 hy, hR⟩

theorem succeeds_get_bind {g : σ → ExceptT ε (StateM σ) β} (h : Succeeds (g s) s R) :
    Succeeds (get >>= g) s R := h

theorem succeeds_modify_bind {g : σ → σ} {f : PUnit → ExceptT ε (StateM σ) β}
    (h : Succeeds (f ⟨⟩) (g s) R) : Succeeds (modify g >>= f) s R := h

theorem succeeds_forM {I : σ → Prop} {g : β → ExceptT ε (StateM σ) PUnit} {xs : List β}
    (h : ∀ x ∈ xs, ∀ s, I s → Succeeds (g x) s fun _ s' => I s') (hs : I s) :
    Succeeds (xs.forM g) s fun _ s' => I s' := by
  induction xs generalizing s with
  | nil => exact succeeds_pure hs
  | cons x xs ih =>
    obtain ⟨hx, hxs⟩ := List.forall_mem_cons.1 h
    exact (hx s hs).bind fun _ s' hs' => ih hxs hs'

end Succeeds

/-! ## How runs fail -/

section Fails

variable {F : ε → Prop}

/-- Every error of a run is of this kind. -/
def FailsWith (F : ε → Prop) (m : ExceptT ε (StateM σ) α) : Prop :=
  ∀ s e s', Runs m s (.error e) s' → F e

theorem failsWith_pure (x : α) : FailsWith F (pure x : ExceptT ε (StateM σ) α) := by
  intro s e s' h
  cases (runs_pure.1 h).1

theorem failsWith_throw {e : ε} (h : F e) : FailsWith F (throw e : ExceptT ε (StateM σ) α) := by
  intro s e' s' hr
  obtain rfl := Except.error.inj (runs_throw.1 hr).1
  exact h

theorem failsWith_get : FailsWith F (get : ExceptT ε (StateM σ) σ) := by
  intro s e s' h
  cases (runs_get.1 h).1

theorem failsWith_modify (g : σ → σ) : FailsWith F (modify g : ExceptT ε (StateM σ) PUnit) := by
  intro s e s' h
  cases (runs_modify.1 h).1

theorem FailsWith.bind (hm : FailsWith F m) (hf : ∀ x, FailsWith F (f x)) : FailsWith F (m >>= f) := by
  intro s e s' h
  rcases runs_bind.1 h with ⟨x, s₁, -, h⟩ | ⟨e', h, he⟩
  · exact hf x _ _ _ h
  · exact Except.error.inj he ▸ hm _ _ _ h

theorem FailsWith.tryCatch {handle : ε → ExceptT ε (StateM σ) α} (hm : FailsWith F m)
    (hf : ∀ e, F e → FailsWith F (handle e)) : FailsWith F (tryCatch m handle) := by
  intro s e s' h
  rcases runs_tryCatch.1 h with ⟨x, -, he⟩ | ⟨e', s₁, he', h⟩
  · cases he
  · exact hf e' (hm _ _ _ he') _ _ _ h

theorem FailsWith.mono {F' : ε → Prop} (hm : FailsWith F m) (h : ∀ e, F e → F' e) : FailsWith F' m :=
  fun s e s' hr => h e (hm s e s' hr)

end Fails

end TypeAtlas
