import TypeAtlas.Proofs.Run

/-! # Runs side by side

Steps that are taken side by side come to corresponding results in corresponding states, or to the
same fault. What cuts the first one off may be left aside: then nothing is said of the second one.
-/

namespace TypeAtlas

variable {ε ε' σ τ α β γ δ : Type} {cut : ε → Prop}

/-- Both attempts come to corresponding results or to the same fault, unless the first is cut off. -/
inductive Parallel (cut : ε → Prop) (P : α → β → Prop) : Except ε α → Except ε β → Prop
  | ok {x : α} {y : β} (h : P x y) : Parallel cut P (.ok x) (.ok y)
  | error {e : ε} : Parallel cut P (.error e) (.error e)
  | cut {e : ε} {o : Except ε β} (h : cut e) : Parallel cut P (.error e) o

abbrev Never : ε → Prop := fun _ => False

namespace Parallel

variable {P : α → β → Prop} {Q : γ → δ → Prop} {m : Except ε α} {m' : Except ε β}

theorem refl {P : α → α → Prop} (h : ∀ x, P x x) (m : Except ε α) : Parallel cut P m m := by
  cases m with
  | ok x => exact .ok (h x)
  | error e => exact .error

theorem imp {P' : α → β → Prop} (h : Parallel cut P m m') (hP : ∀ x y, P x y → P' x y) :
    Parallel cut P' m m' := by
  cases h with
  | ok h => exact .ok (hP _ _ h)
  | error => exact .error
  | cut h => exact .cut h

theorem exists_ok {x : α} (h : Parallel cut P m m') (hm : m = .ok x) : ∃ y, m' = .ok y ∧ P x y := by
  subst hm
  cases h with
  | ok h => exact ⟨_, rfl, h⟩

theorem bind {f : α → Except ε γ} {f' : β → Except ε δ} (hm : Parallel cut P m m')
    (hf : ∀ x y, P x y → Parallel cut Q (f x) (f' y)) : Parallel cut Q (m >>= f) (m' >>= f') := by
  cases hm with
  | ok h => exact hf _ _ h
  | error => exact .error
  | cut h => exact .cut h

theorem map {f : α → γ} {f' : β → δ} (hm : Parallel cut P m m')
    (hf : ∀ x y, P x y → Q (f x) (f' y)) : Parallel cut Q (m.map f) (m'.map f') := by
  cases hm with
  | ok h => exact .ok (hf _ _ h)
  | error => exact .error
  | cut h => exact .cut h

theorem of_map (f : α → β) (m : Except ε α) : Parallel cut (fun x y => y = f x) m (m.map f) := by
  cases m with
  | ok x => exact .ok rfl
  | error e => exact .error

theorem mapM {g : α → β} {f : α → Except ε γ} {f' : β → Except ε δ} {xs : List α}
    (h : ∀ x ∈ xs, Parallel cut Q (f x) (f' (g x))) :
    Parallel cut (List.Forall₂ Q) (xs.mapM f) ((xs.map g).mapM f') := by
  induction xs with
  | nil => exact .ok .nil
  | cons x xs ih =>
    obtain ⟨hx, hxs⟩ := List.forall_mem_cons.1 h
    rw [List.mapM_cons, List.map_cons, List.mapM_cons]
    exact hx.bind fun _ _ hy => (ih hxs).bind fun _ _ hys => .ok (.cons hy hys)

theorem mapM_same {f : α → Except ε γ} {f' : α → Except ε δ}
    (h : ∀ x, Parallel cut Q (f x) (f' x)) (xs : List α) :
    Parallel cut (List.Forall₂ Q) (xs.mapM f) (xs.mapM f') := by
  have hmap : Parallel cut (List.Forall₂ Q) (xs.mapM f) ((xs.map id).mapM f') := mapM fun x _ => h x
  rwa [List.map_id] at hmap

end Parallel

/-- From corresponding states the steps go on side by side. -/
def Along (cut : ε → Prop) (S : σ → τ → Prop) (R : α → β → Prop) (m : StateT σ (Except ε) α)
    (m' : StateT τ (Except ε) β) : Prop :=
  ∀ st st', S st st' → Parallel cut (fun p q => R p.1 q.1 ∧ S p.2 q.2) (m.run st) (m'.run st')

section Rules

variable {S : σ → τ → Prop} {R : α → β → Prop} {Q : γ → δ → Prop} {m : StateT σ (Except ε) α}
  {m' : StateT τ (Except ε) β} {st st₁ : σ} {st' : τ}

theorem Along.ends {x : α} (h : Along cut S R m m') (hS : S st st') (hm : Ends m st x st₁) :
    ∃ y st₁', Ends m' st' y st₁' ∧ R x y ∧ S st₁ st₁' := by
  obtain ⟨⟨y, st₁'⟩, hy, hR, hS'⟩ := (h st st' hS).exists_ok hm
  exact ⟨y, st₁', hy, hR, hS'⟩

theorem Along.fails {e : ε} (h : Along cut S R m m') (hS : S st st') (hm : m.run st = .error e) :
    cut e ∨ m'.run st' = .error e := by
  have hrun := h st st' hS
  rw [hm] at hrun
  generalize m'.run st' = o at hrun ⊢
  cases hrun with
  | error => exact .inr rfl
  | cut h => exact .inl h

theorem Along.imp {R' : α → β → Prop} (h : Along cut S R m m') (hR : ∀ x y, R x y → R' x y) :
    Along cut S R' m m' :=
  fun st st' hS => (h st st' hS).imp fun _ _ hp => ⟨hR _ _ hp.1, hp.2⟩

theorem along_pure {x : α} {y : β} (h : R x y) : Along cut S R (pure x) (pure y) :=
  fun _ _ hS => .ok ⟨h, hS⟩

theorem Along.bind {f : α → StateT σ (Except ε) γ} {f' : β → StateT τ (Except ε) δ}
    (hm : Along cut S R m m') (hf : ∀ x y, R x y → Along cut S Q (f x) (f' y)) :
    Along cut S Q (m >>= f) (m' >>= f') := by
  intro st st' hS
  rw [StateT.run_bind, StateT.run_bind]
  exact (hm st st' hS).bind fun p q hpq => hf p.1 q.1 hpq.1 p.2 q.2 hpq.2

theorem along_throw {e : ε} : Along cut S R (throw e) (throw e) := fun _ _ _ => .error

theorem along_get : Along cut S S get get := fun _ _ hS => .ok ⟨hS, hS⟩

theorem along_modify {f : σ → σ} {f' : τ → τ} (h : ∀ st st', S st st' → S (f st) (f' st')) :
    Along cut S (fun _ _ => True) (modify f : StateT σ (Except ε) PUnit)
      (modify f' : StateT τ (Except ε) PUnit) :=
  fun st st' hS => .ok ⟨trivial, h st st' hS⟩

theorem along_lift {x : Except ε α} {y : Except ε β} (h : Parallel cut R x y) :
    Along cut S R (StateT.lift x) (StateT.lift y) :=
  fun _ _ hS => h.bind fun _ _ hR => .ok ⟨hR, hS⟩

theorem along_mapM_mem {g : α → β} {f : α → StateT σ (Except ε) γ} {f' : β → StateT τ (Except ε) δ}
    {xs : List α} (h : ∀ x ∈ xs, Along cut S Q (f x) (f' (g x))) :
    Along cut S (List.Forall₂ Q) (xs.mapM f) ((xs.map g).mapM f') := by
  induction xs with
  | nil => exact along_pure .nil
  | cons x xs ih =>
    obtain ⟨hx, hxs⟩ := List.forall_mem_cons.1 h
    rw [List.mapM_cons, List.map_cons, List.mapM_cons]
    exact hx.bind fun _ _ hy => (ih hxs).bind fun _ _ hys => along_pure (.cons hy hys)

theorem along_mapM {g : α → β} {f : α → StateT σ (Except ε) γ} {f' : β → StateT τ (Except ε) δ}
    (h : ∀ x, Along cut S Q (f x) (f' (g x))) (xs : List α) :
    Along cut S (List.Forall₂ Q) (xs.mapM f) ((xs.map g).mapM f') :=
  along_mapM_mem fun x _ => h x

theorem along_mapM_same {f : α → StateT σ (Except ε) γ} {f' : α → StateT τ (Except ε) δ}
    (h : ∀ x, Along cut S Q (f x) (f' x)) (xs : List α) :
    Along cut S (List.Forall₂ Q) (xs.mapM f) (xs.mapM f') := by
  have hmap : Along cut S (List.Forall₂ Q) (xs.mapM f) ((xs.map id).mapM f') := along_mapM h xs
  rwa [List.map_id] at hmap

theorem along_mapM_eq {g : α → β} {f : α → StateT σ (Except ε) γ} {f' : β → StateT τ (Except ε) γ}
    (h : ∀ x, Along cut S (· = ·) (f x) (f' (g x))) (xs : List α) :
    Along cut S (· = ·) (xs.mapM f) ((xs.map g).mapM f') := by
  have hmap := along_mapM h xs
  rwa [List.forall₂_eq_eq_eq] at hmap

theorem along_foldlM {g : α → β} {f : γ → α → StateT σ (Except ε) γ}
    {f' : δ → β → StateT τ (Except ε) δ} (h : ∀ c d x, Q c d → Along cut S Q (f c x) (f' d (g x)))
    (xs : List α) {c : γ} {d : δ} (hcd : Q c d) :
    Along cut S Q (xs.foldlM f c) ((xs.map g).foldlM f' d) := by
  induction xs generalizing c d with
  | nil => exact along_pure hcd
  | cons x xs ih =>
    rw [List.foldlM_cons, List.map_cons, List.foldlM_cons]
    exact (h c d x hcd).bind fun _ _ hcd' => ih hcd'

theorem along_forIn {g : α → β} {f : α → PUnit → StateT σ (Except ε) (ForInStep PUnit)}
    {f' : β → PUnit → StateT τ (Except ε) (ForInStep PUnit)}
    (h : ∀ x, Along cut S (· = ·) (f x ⟨⟩) (f' (g x) ⟨⟩)) (xs : List α) :
    Along cut S (· = ·) (forIn xs ⟨⟩ f) (forIn (xs.map g) ⟨⟩ f') := by
  induction xs with
  | nil => exact along_pure rfl
  | cons x xs ih =>
    rw [List.forIn_cons, List.map_cons, List.forIn_cons]
    refine (h x).bind ?_
    rintro (u | u) _ rfl
    · exact along_pure rfl
    · exact ih

theorem along_forIn_same {f : α → PUnit → StateT σ (Except ε) (ForInStep PUnit)}
    {f' : α → PUnit → StateT τ (Except ε) (ForInStep PUnit)}
    (h : ∀ x, Along cut S (· = ·) (f x ⟨⟩) (f' x ⟨⟩)) (xs : List α) :
    Along cut S (· = ·) (forIn xs ⟨⟩ f) (forIn xs ⟨⟩ f') := by
  have hmap : Along cut S (· = ·) (forIn xs ⟨⟩ f) (forIn (xs.map id) ⟨⟩ f') := along_forIn h xs
  rwa [List.map_id] at hmap

end Rules

end TypeAtlas
