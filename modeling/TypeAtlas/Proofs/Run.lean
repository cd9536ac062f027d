import Mathlib.Data.List.Forall2

/-! # Runs of stateful steps

When a step with a state ends without a fault, so do the steps that it is composed of, one after the
other.
-/

namespace TypeAtlas

variable {ε σ α β : Type} {st st' st'' : σ}

abbrev Ends (m : StateT σ (Except ε) α) (st : σ) (x : α) (st' : σ) : Prop :=
  m.run st = .ok (x, st')

theorem ends_pure {x y : α} : Ends (pure x : StateT σ (Except ε) α) st y st' ↔ x = y ∧ st = st' := by
  change (Except.ok (x, st) : Except ε (α × σ)) = .ok (y, st') ↔ _
  simp

theorem ends_bind {m : StateT σ (Except ε) α} {f : α → StateT σ (Except ε) β} {y : β} :
    Ends (m >>= f) st y st'' ↔ ∃ x st', Ends m st x st' ∧ Ends (f x) st' y st'' := by
  simp only [Ends, StateT.run_bind]
  cases h : m.run st with
  | error e => simp [bind, Except.bind]
  | ok p =>
    obtain ⟨x, st'⟩ := p
    simp [bind, Except.bind]

theorem Ends.run_bind {m : StateT σ (Except ε) α} {f : α → StateT σ (Except ε) β} {x : α}
    (h : Ends m st x st') : (m >>= f).run st = (f x).run st' := by
  rw [StateT.run_bind, h]
  rfl

theorem ends_get {x : σ} : Ends (get : StateT σ (Except ε) σ) st x st' ↔ x = st ∧ st' = st := by
  simp [Ends, get, getThe, MonadStateOf.get, StateT.get, StateT.run, pure, Except.pure, eq_comm]

theorem ends_modify {f : σ → σ} {x : PUnit} :
    Ends (modify f : StateT σ (Except ε) PUnit) st x st' ↔ st' = f st := by
  simp [Ends, modify, modifyGet, MonadStateOf.modifyGet, StateT.modifyGet, StateT.run, pure,
    Except.pure, eq_comm]

theorem ends_lift {m : Except ε α} {x : α} :
    Ends (StateT.lift m : StateT σ (Except ε) α) st x st' ↔ m = .ok x ∧ st' = st := by
  cases m with
  | error e => simp [Ends, StateT.lift, StateT.run, bind, Except.bind]
  | ok y => simp [Ends, StateT.lift, StateT.run, bind, Except.bind, pure, Except.pure, eq_comm]

theorem not_ends_throw {e : ε} {x : α} :
    ¬ Ends (throw e : StateT σ (Except ε) α) st x st' := by
  simp [Ends, throw, throwThe, MonadExceptOf.throw, StateT.lift, StateT.run, bind, Except.bind]

theorem ends_of_toOption {m : StateT σ (Except ε) α} {x : α}
    (h : (m.run st).toOption = some (x, st')) : Ends m st x st' := by
  rw [Ends]
  cases hrun : m.run st with
  | error e => simp [hrun, Except.toOption] at h
  | ok p => rw [hrun] at h; exact congrArg Except.ok (Option.some.inj h)

/-- One step for each item, one after the other. -/
inductive Chain (f : α → StateT σ (Except ε) β) : List α → σ → List β → σ → Prop
  | nil {st : σ} : Chain f [] st [] st
  | cons {x : α} {xs : List α} {y : β} {ys : List β} {st st' st'' : σ} (h : Ends (f x) st y st')
      (hs : Chain f xs st' ys st'') : Chain f (x :: xs) st (y :: ys) st''

theorem ends_mapM {f : α → StateT σ (Except ε) β} {xs : List α} {ys : List β} :
    Ends (xs.mapM f) st ys st' ↔ Chain f xs st ys st' := by
  induction xs generalizing st ys with
  | nil =>
    rw [List.mapM_nil, ends_pure]
    constructor
    · rintro ⟨rfl, rfl⟩
      exact .nil
    · intro h
      cases h
      exact ⟨rfl, rfl⟩
  | cons x xs ih =>
    simp only [List.mapM_cons, ends_bind, ends_pure]
    constructor
    · rintro ⟨y, st₁, hy, ys, st₂, hys, rfl, rfl⟩
      exact .cons hy (ih.1 hys)
    · intro h
      cases h with
      | cons hy hys => exact ⟨_, _, hy, _, _, ih.2 hys, rfl, rfl⟩

theorem Chain.length {f : α → StateT σ (Except ε) β} {xs : List α} {ys : List β}
    (h : Chain f xs st ys st') : ys.length = xs.length := by
  induction h with
  | nil => rfl
  | cons _ _ ih => simp [ih]

/-- A property that every step hands on to the next state holds in the end. -/
theorem Chain.preserves {f : α → StateT σ (Except ε) β} {xs : List α} {ys : List β}
    {I : σ → Prop} (h : Chain f xs st ys st')
    (hI : ∀ x ∈ xs, ∀ st y st', Ends (f x) st y st' → I st → I st') (hst : I st) : I st' := by
  induction h with
  | nil => exact hst
  | cons hx _ ih =>
    exact ih (fun x hx => hI x (List.mem_cons_of_mem _ hx)) (hI _ List.mem_cons_self _ _ _ hx hst)

theorem Chain.map {γ : Type} {f : α → StateT σ (Except ε) β} {g : γ → α} {xs : List γ}
    {ys : List β} (h : Chain (fun x => f (g x)) xs st ys st') : Chain f (xs.map g) st ys st' := by
  induction h with
  | nil => exact .nil
  | cons hx _ ih => exact .cons hx ih

theorem Chain.of_map {γ : Type} {f : α → StateT σ (Except ε) β} {g : γ → α} {xs : List γ}
    {ys : List β} (h : Chain f (xs.map g) st ys st') : Chain (fun x => f (g x)) xs st ys st' := by
  induction xs generalizing st ys with
  | nil =>
    cases h
    exact .nil
  | cons x xs ih =>
    cases h with
    | cons hx hs => exact .cons hx (ih hs)

theorem Chain.unzip {γ : Type} {f : α → StateT σ (Except ε) β} {g : α → γ} {xs : List α}
    {ps : List (γ × β)} (h : Chain (fun x => do return (g x, ← f x)) xs st ps st') :
    ∃ ys, Chain f xs st ys st' ∧ ps = (xs.map g).zip ys := by
  induction h with
  | nil => exact ⟨[], .nil, rfl⟩
  | cons hx _ ih =>
    obtain ⟨ys, hys, rfl⟩ := ih
    simp only [ends_bind, ends_pure] at hx
    obtain ⟨y, st₁, hy, rfl, rfl⟩ := hx
    exact ⟨y :: ys, .cons hy hys, rfl⟩

theorem Chain.zip {γ : Type} {f : α → StateT σ (Except ε) β} {g : α → γ} {xs : List α}
    {ys : List β} (h : Chain f xs st ys st') :
    Chain (fun x => do return (g x, ← f x)) xs st ((xs.map g).zip ys) st' := by
  induction h with
  | nil => exact .nil
  | cons hx _ ih => exact .cons (ends_bind.2 ⟨_, _, hx, ends_pure.2 ⟨rfl, rfl⟩⟩) ih

theorem Chain.unique {f : α → StateT σ (Except ε) β} {xs : List α} {ys zs : List β}
    (h : Chain f xs st ys st') (h' : Chain f xs st zs st'') : ys = zs :=
  congrArg Prod.fst (Except.ok.inj ((ends_mapM.2 h).symm.trans (ends_mapM.2 h')))

theorem Chain.append {f : α → StateT σ (Except ε) β} {xs ys : List α} {zs : List β}
    (h : Chain f (xs ++ ys) st zs st'') :
    ∃ us vs st', zs = us ++ vs ∧ Chain f xs st us st' ∧ Chain f ys st' vs st'' := by
  induction xs generalizing st zs with
  | nil => exact ⟨[], zs, st, rfl, .nil, h⟩
  | cons x xs ih =>
    cases h with
    | cons hx hs =>
      obtain ⟨us, vs, st', rfl, hus, hvs⟩ := ih hs
      exact ⟨_, vs, st', rfl, .cons hx hus, hvs⟩

/-- Items taken one after the other, with a result and a change of state for each. -/
inductive Steps (Q : α → σ → β → σ → Prop) : List α → σ → List β → σ → Prop
  | nil {st : σ} : Steps Q [] st [] st
  | cons {x : α} {xs : List α} {y : β} {ys : List β} {st st' st'' : σ} (h : Q x st y st')
      (hs : Steps Q xs st' ys st'') : Steps Q (x :: xs) st (y :: ys) st''

theorem Steps.forall₂ {Q : α → σ → β → σ → Prop} {P : α → β → Prop} {xs : List α} {ys : List β}
    (h : Steps Q xs st ys st') (hP : ∀ x st y st', Q x st y st' → P x y) :
    List.Forall₂ P xs ys := by
  induction h with
  | nil => exact .nil
  | cons hx _ ih => exact .cons (hP _ _ _ _ hx) ih

theorem Steps.map {γ : Type} {Q : α → σ → β → σ → Prop} {g : γ → α} {xs : List γ} {ys : List β}
    (h : Steps (fun x => Q (g x)) xs st ys st') : Steps Q (xs.map g) st ys st' := by
  induction h with
  | nil => exact .nil
  | cons hx _ ih => exact .cons hx ih

/-- When every step ends from each state that it can be in, so do all of them in a row. -/
theorem exists_chain {f : α → StateT σ (Except ε) β} {I : σ → Prop} {Q : α → σ → β → σ → Prop}
    {xs : List α}
    (hf : ∀ x ∈ xs, ∀ st, I st → ∃ y st', Ends (f x) st y st' ∧ I st' ∧ Q x st y st') (hst : I st) :
    ∃ ys st', Chain f xs st ys st' ∧ I st' ∧ Steps Q xs st ys st' := by
  induction xs generalizing st with
  | nil => exact ⟨[], st, .nil, hst, .nil⟩
  | cons x xs ih =>
    obtain ⟨y, st₁, hy, hst₁, hQ⟩ := hf x List.mem_cons_self st hst
    obtain ⟨ys, st₂, hys, hst₂, hQs⟩ := ih (fun z hz => hf z (List.mem_cons_of_mem _ hz)) hst₁
    exact ⟨y :: ys, st₂, .cons hy hys, hst₂, .cons hQ hQs⟩

section Invariants

variable {R : σ → σ → Prop} (hrefl : ∀ st, R st st)
  (htrans : ∀ st st' st'', R st st' → R st' st'' → R st st'')

include hrefl htrans

theorem ends_foldlM {f : β → α → StateT σ (Except ε) β} {g : β → α → β}
    (hf : ∀ b x st c st', Ends (f b x) st c st' → c = g b x ∧ R st st')
    {xs : List α} {b c : β} (h : Ends (xs.foldlM f b) st c st') :
    c = xs.foldl g b ∧ R st st' := by
  induction xs generalizing b st with
  | nil =>
    rw [List.foldlM_nil, ends_pure] at h
    obtain ⟨rfl, rfl⟩ := h
    exact ⟨rfl, hrefl _⟩
  | cons x xs ih =>
    rw [List.foldlM_cons, ends_bind] at h
    obtain ⟨d, st₁, hd, h⟩ := h
    obtain ⟨rfl, hR⟩ := hf _ _ _ _ _ hd
    obtain ⟨rfl, hR'⟩ := ih h
    exact ⟨rfl, htrans _ _ _ hR hR'⟩

theorem ends_forIn {f : α → PUnit → StateT σ (Except ε) (ForInStep PUnit)} {P : α → Prop}
    {xs : List α} {u : PUnit}
    (hf : ∀ x ∈ xs, ∀ st r st', Ends (f x ⟨⟩) st r st' → r = .yield ⟨⟩ ∧ R st st' ∧ P x)
    (h : Ends (forIn xs ⟨⟩ f) st u st') : R st st' ∧ ∀ x ∈ xs, P x := by
  induction xs generalizing st with
  | nil =>
    rw [List.forIn_nil, ends_pure] at h
    obtain ⟨-, rfl⟩ := h
    exact ⟨hrefl _, by simp⟩
  | cons x xs ih =>
    rw [List.forIn_cons, ends_bind] at h
    obtain ⟨r, st₁, hx, h⟩ := h
    obtain ⟨rfl, hR, hP⟩ := hf x List.mem_cons_self _ _ _ hx
    obtain ⟨hR', hall⟩ := ih (fun y hy => hf y (List.mem_cons_of_mem _ hy)) h
    exact ⟨htrans _ _ _ hR hR', List.forall_mem_cons.2 ⟨hP, hall⟩⟩

end Invariants

section Claims

variable {bad I : σ → Prop}

/-- What a step has left: what is wrong stays so, and unless something is wrong a condition holds of
the state and a claim is true. -/
structure Leaves (bad I : σ → Prop) (st st' : σ) (claim : Prop) : Prop where
  stays : bad st → bad st'
  state : bad st' ∨ I st'
  result : bad st' ∨ claim

theorem Leaves.imp {claim claim' : Prop} (h : Leaves bad I st st' claim) (hc : claim → claim') :
    Leaves bad I st st' claim' := ⟨h.stays, h.state, h.result.imp_right hc⟩

theorem leaves_of_chain {f : α → StateT σ (Except ε) β} {R : α → β → Prop} {xs : List α}
    {ys : List β} (h : Chain f xs st ys st')
    (hf : ∀ x ∈ xs, ∀ st y st', Ends (f x) st y st' → bad st ∨ I st → Leaves bad I st st' (R x y))
    (hst : bad st ∨ I st) : Leaves bad I st st' (List.Forall₂ R xs ys) := by
  induction h with
  | nil => exact ⟨fun hb => hb, hst, .inr .nil⟩
  | cons hx _ ih =>
    have hfirst := hf _ List.mem_cons_self _ _ _ hx hst
    have hrest := ih (fun x hx => hf x (List.mem_cons_of_mem _ hx)) hfirst.state
    refine ⟨fun hb => hrest.stays (hfirst.stays hb), hrest.state, ?_⟩
    rcases hfirst.result with hb | hclaim
    · exact .inl (hrest.stays hb)
    · exact hrest.result.imp_right fun hall => .cons hclaim hall

end Claims

section Failures

variable {F : ε → Prop} {m : StateT σ (Except ε) α}

/-- When a step does not end, its fault is of the given kind. -/
def FailsOnly (F : ε → Prop) (m : StateT σ (Except ε) α) : Prop :=
  ∀ st e, m.run st = .error e → F e

theorem failsOnly_pure (x : α) : FailsOnly F (pure x : StateT σ (Except ε) α) := by
  intro st e h
  cases h

theorem failsOnly_throw {e : ε} (h : F e) : FailsOnly F (throw e : StateT σ (Except ε) α) := by
  intro st e' he
  cases he
  exact h

theorem failsOnly_lift {x : Except ε α} (h : ∀ e, x = .error e → F e) :
    FailsOnly F (StateT.lift x : StateT σ (Except ε) α) := by
  intro st e he
  cases x with
  | error e' =>
    cases he
    exact h e rfl
  | ok y => cases he

theorem FailsOnly.bind {f : α → StateT σ (Except ε) β} (hm : FailsOnly F m)
    (hf : ∀ x, FailsOnly F (f x)) : FailsOnly F (m >>= f) := by
  intro st e h
  rw [StateT.run_bind] at h
  cases hx : m.run st with
  | error e' =>
    rw [hx] at h
    cases h
    exact hm st e hx
  | ok p =>
    rw [hx] at h
    exact hf p.1 p.2 e h

theorem failsOnly_get : FailsOnly F (get : StateT σ (Except ε) σ) := by
  intro st e h
  cases h

theorem failsOnly_modify (f : σ → σ) : FailsOnly F (modify f : StateT σ (Except ε) PUnit) := by
  intro st e h
  cases h

theorem failsOnly_mapM {f : α → StateT σ (Except ε) β} (hf : ∀ x, FailsOnly F (f x)) (xs : List α) :
    FailsOnly F (xs.mapM f) := by
  induction xs with
  | nil => exact failsOnly_pure []
  | cons x xs ih =>
    rw [List.mapM_cons]
    exact (hf x).bind fun y => ih.bind fun ys => failsOnly_pure _

end Failures

/-! ## Attempts -/

theorem bind_eq_ok {m : Except ε α} {f : α → Except ε β} {y : β} :
    m >>= f = .ok y ↔ ∃ x, m = .ok x ∧ f x = .ok y := by
  cases m with
  | error e => simp [bind, Except.bind]
  | ok x => simp [bind, Except.bind]

theorem map_eq_ok {m : Except ε α} {f : α → β} {y : β} :
    m.map f = .ok y ↔ ∃ x, m = .ok x ∧ f x = y := by
  cases m <;> simp [Except.map]

theorem bind_eq_error {m : Except ε α} {f : α → Except ε β} {e : ε} :
    m >>= f = .error e ↔ m = .error e ∨ ∃ x, m = .ok x ∧ f x = .error e := by
  cases m with
  | error e' => simp [bind, Except.bind]
  | ok x => simp [bind, Except.bind]

theorem map_eq_error {m : Except ε α} {f : α → β} {e : ε} : m.map f = .error e ↔ m = .error e := by
  cases m <;> simp [Except.map]

theorem exists_bind {m : Except ε α} {f : α → Except ε β} (hm : ∃ x, m = .ok x)
    (hf : ∀ x, m = .ok x → ∃ y, f x = .ok y) : ∃ y, m >>= f = .ok y := by
  obtain ⟨x, rfl⟩ := hm
  exact hf x rfl

theorem exists_mapM {f : α → Except ε β} {xs : List α} (h : ∀ x ∈ xs, ∃ y, f x = .ok y) :
    ∃ ys, xs.mapM f = .ok ys := by
  induction xs with
  | nil => exact ⟨[], rfl⟩
  | cons x xs ih =>
    obtain ⟨hx, hxs⟩ := List.forall_mem_cons.1 h
    rw [List.mapM_cons]
    exact exists_bind hx fun _ _ => exists_bind (ih hxs) fun _ _ => ⟨_, rfl⟩

theorem mapM_eq_ok_map {f : α → Except ε β} {g : α → β} {xs : List α}
    (h : ∀ x ∈ xs, f x = .ok (g x)) : xs.mapM f = .ok (xs.map g) := by
  induction xs with
  | nil => rfl
  | cons x xs ih =>
    obtain ⟨hx, hxs⟩ := List.forall_mem_cons.1 h
    rw [List.mapM_cons, hx, ih hxs]
    rfl

theorem exists_of_mapM_eq_ok {f : α → Except ε β} {xs : List α} {ys : List β}
    (h : xs.mapM f = .ok ys) : ∀ x ∈ xs, ∃ y, f x = .ok y := by
  induction xs generalizing ys with
  | nil => simp
  | cons x xs ih =>
    rw [List.mapM_cons] at h
    obtain ⟨y, hy, h⟩ := bind_eq_ok.1 h
    obtain ⟨zs, hzs, -⟩ := bind_eq_ok.1 h
    rw [List.forall_mem_cons]
    exact ⟨⟨y, hy⟩, ih hzs⟩

theorem exists_foldlM {f : β → α → Except ε β} {xs : List α}
    (h : ∀ b, ∀ x ∈ xs, ∃ c, f b x = .ok c) (b : β) : ∃ c, xs.foldlM f b = .ok c := by
  induction xs generalizing b with
  | nil => exact ⟨b, rfl⟩
  | cons x xs ih =>
    rw [List.foldlM_cons]
    exact exists_bind (h b x List.mem_cons_self) fun c _ =>
      ih (fun b y hy => h b y (List.mem_cons_of_mem x hy)) c

theorem exists_of_foldlM_eq_error {f : β → α → Except ε β} {xs : List α} {b : β} {e : ε}
    (h : xs.foldlM f b = .error e) : ∃ c, ∃ x ∈ xs, f c x = .error e := by
  induction xs generalizing b with
  | nil => cases h
  | cons x xs ih =>
    rw [List.foldlM_cons] at h
    rcases bind_eq_error.1 h with hx | ⟨c, -, hxs⟩
    · exact ⟨b, x, List.mem_cons_self, hx⟩
    · obtain ⟨c, y, hy, hf⟩ := ih hxs
      exact ⟨c, y, List.mem_cons_of_mem x hy, hf⟩

/-- What holds at the start of a fold and after each of its steps holds at its end. -/
theorem foldlM_preserves {f : β → α → Except ε β} {xs : List α} {I : β → Prop} {b c : β}
    (h : xs.foldlM f b = .ok c) (hb : I b)
    (hI : ∀ b, ∀ x ∈ xs, ∀ c, I b → f b x = .ok c → I c) : I c := by
  induction xs generalizing b with
  | nil =>
    obtain rfl := Except.ok.inj h
    exact hb
  | cons x xs ih =>
    rw [List.foldlM_cons] at h
    obtain ⟨b', hx, hxs⟩ := bind_eq_ok.1 h
    exact ih hxs (hI b x List.mem_cons_self b' hb hx) fun b y hy => hI b y (List.mem_cons_of_mem x hy)

/-! ## Options -/

theorem mapM_eq_some {f : α → Option β} {xs : List α} {ys : List β} :
    xs.mapM f = some ys ↔ List.Forall₂ (fun x y => f x = some y) xs ys := by
  induction xs generalizing ys with
  | nil =>
    constructor
    · intro h
      obtain rfl : [] = ys := by simpa using h
      exact .nil
    · intro h
      cases h
      rfl
  | cons x xs ih =>
    simp only [List.mapM_cons, Option.bind_eq_bind, Option.bind_eq_some_iff, Option.pure_def,
      Option.some.injEq]
    constructor
    · rintro ⟨y, hy, zs, hzs, rfl⟩
      exact .cons hy (ih.1 hzs)
    · intro h
      cases h with
      | cons hy hzs => exact ⟨_, hy, _, ih.2 hzs, rfl⟩

theorem mapM_eq_none {f : α → Option β} {xs : List α} :
    xs.mapM f = none ↔ ∃ x ∈ xs, f x = none := by
  induction xs with
  | nil => simp
  | cons x xs ih =>
    rw [List.mapM_cons]
    cases hx : f x with
    | none => simp [hx]
    | some y => cases hxs : xs.mapM f <;> simp_all

theorem mapM_map_some {γ : Type} (f : α → Option β) (g : β → γ) (xs : List α) :
    xs.mapM (fun x => (f x).map g) = (xs.mapM f).map (List.map g) := by
  induction xs with
  | nil => rfl
  | cons x xs ih =>
    rw [List.mapM_cons, List.mapM_cons, ih]
    cases f x <;> cases xs.mapM f <;> rfl

theorem rel_mapM {γ δ : Type} {R : α → β → Prop} {Q : γ → δ → Prop} {f : α → Option γ}
    {g : β → Option δ} {xs : List α} {ys : List β} (h : List.Forall₂ R xs ys)
    (hf : ∀ x y, R x y → Option.Rel Q (f x) (g y)) :
    Option.Rel (List.Forall₂ Q) (xs.mapM f) (ys.mapM g) := by
  induction h with
  | nil => exact .some .nil
  | @cons x y xs ys hx _ ih =>
    have hQ := hf x y hx
    rw [List.mapM_cons, List.mapM_cons]
    generalize f x = u at hQ
    generalize g y = v at hQ
    cases hQ with
    | none => exact .none
    | some hQ =>
      generalize xs.mapM f = us at ih
      generalize ys.mapM g = vs at ih
      cases ih with
      | none => exact .none
      | some hQs => exact .some (.cons hQ hQs)

theorem exists_of_mem_mapM {f : α → Option β} {xs : List α} {ys : List β}
    (h : xs.mapM f = some ys) {y : β} (hy : y ∈ ys) : ∃ x ∈ xs, f x = some y := by
  obtain ⟨i, hi, rfl⟩ := List.getElem_of_mem hy
  have hf := mapM_eq_some.1 h
  have hx : i < xs.length := hf.length_eq ▸ hi
  exact ⟨xs[i], List.getElem_mem _, hf.get _ _⟩

theorem le_foldl_max {xs : List ℕ} {x b : ℕ} (h : x ∈ xs ∨ x ≤ b) : x ≤ xs.foldl max b := by
  induction xs generalizing b with
  | nil => simpa using h
  | cons y ys ih =>
    refine ih ?_
    rcases h with h | h
    · rcases List.mem_cons.1 h with rfl | h
      · exact .inr (Nat.le_max_right b x)
      · exact .inl h
    · exact .inr (Nat.le_trans h (Nat.le_max_left b y))

theorem foldl_max_succ (xs : List ℕ) (b : ℕ) : (xs.map (· + 1)).foldl max (b + 1) = xs.foldl max b + 1 := by
  induction xs generalizing b with
  | nil => rfl
  | cons x xs ih => rw [List.map_cons, List.foldl_cons, List.foldl_cons, Nat.add_max_add_right, ih]

end TypeAtlas
