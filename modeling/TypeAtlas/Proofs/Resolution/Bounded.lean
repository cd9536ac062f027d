import Mathlib.Data.List.Nodup
import TypeAtlas.Proofs.Resolution.Scoped
import TypeAtlas.Proofs.Tag.Read

/-! # Resolution comes to an end

A chain of declarations holds none twice when look-ups give the declaration that was asked for, and
no description is followed inside itself. So there is a bound on how deeply descriptions are nested,
which depends on nothing but the declarations.
-/

namespace TypeAtlas.Resolution

variable {s : Setting} {α β : Type} {st st' : State} {e : Fault} {x : NodeId} {id : Option NodeId}

/-! ## Faults -/

theorem faults_bind {m : M α} {f : α → M β} :
    Faults (m >>= f) st e ↔ Faults m st e ∨ ∃ x st', Done m st x st' ∧ Faults (f x) st' e := by
  constructor
  · rintro ⟨st'', h⟩
    rcases done_or_faults m st with ⟨x, st', hx⟩ | ⟨e', he'⟩
    · exact .inr ⟨x, st', hx, st'', hx.run_bind.symm.trans h⟩
    · obtain ⟨st₁, hst₁⟩ := he'.bind (f := f)
      cases hst₁.symm.trans h
      exact .inl he'
  · rintro (h | ⟨x, st', hx, st'', h⟩)
    · exact h.bind
    · exact ⟨st'', hx.run_bind.trans h⟩

theorem faults_throw {e' : Fault} : Faults (throw e' : M α) st e ↔ e' = e := by
  constructor
  · rintro ⟨st', h⟩
    cases h
    rfl
  · rintro rfl
    exact ⟨st, rfl⟩

theorem faults_lift {m : Attempt α} : Faults (liftM m : M α) st e ↔ m = .error e := by
  constructor
  · rintro ⟨st', h⟩
    cases m with
    | ok y => cases h
    | error e' =>
      cases h
      rfl
  · rintro rfl
    exact ⟨st, rfl⟩

theorem faults_mapM {f : α → M β} {xs : List α} (h : Faults (xs.mapM f) st e) :
    ∃ before x after ys st', xs = before ++ x :: after ∧ Sequence f before st ys st' ∧
      Faults (f x) st' e := by
  induction xs generalizing st with
  | nil =>
    obtain ⟨st', h⟩ := h
    cases h
  | cons x xs ih =>
    simp only [List.mapM_cons, faults_bind] at h
    rcases h with h | ⟨y, st₁, hy, h | ⟨ys, st₂, -, st₃, h⟩⟩
    · exact ⟨[], x, xs, [], st, rfl, .nil, h⟩
    · obtain ⟨before, z, after, ys, st', rfl, hs, hz⟩ := ih h
      exact ⟨x :: before, z, after, y :: ys, st', rfl, .cons hy hs, hz⟩
    · cases h

def Steady (m : M α) : Prop := ∀ st, ¬ Faults m st .nestingTooDeep

theorem steady_pure (x : α) : Steady (pure x : M α) := by
  rintro st ⟨st', h⟩
  cases h

theorem steady_get : Steady (get : M State) := by
  rintro st ⟨st', h⟩
  cases h

theorem steady_modify (f : State → State) : Steady (modify f : M PUnit) := by
  rintro st ⟨st', h⟩
  cases h

theorem steady_lift {m : Attempt α} (h : m ≠ .error .nestingTooDeep) : Steady (liftM m : M α) :=
  fun _ hfaults => h (faults_lift.1 hfaults)

theorem Steady.bind {m : M α} {f : α → M β} (hm : Steady m) (hf : ∀ x, Steady (f x)) :
    Steady (m >>= f) := by
  intro st h
  rcases faults_bind.1 h with h | ⟨x, st', -, h⟩
  · exact hm st h
  · exact hf x st' h

theorem steady_newId : Steady newId :=
  (steady_modify _).bind fun _ => steady_get.bind fun _ => steady_pure _

theorem steady_idOr (id : Option NodeId) : Steady (idOr id) := by
  cases id with
  | none => exact steady_newId
  | some x => exact steady_pure x

theorem steady_add (n : Node) : Steady (add n) := (steady_modify _).bind fun _ => steady_pure _

theorem steady_current? : Steady current? := steady_get.bind fun _ => steady_pure _

theorem steady_location (position : Option Position) : Steady (location position) := by
  refine steady_current?.bind fun key => ?_
  cases position <;> cases key <;> exact steady_pure _

theorem steady_place (position : Option Position) : Steady (place s position) :=
  steady_current?.bind fun _ => steady_pure _

theorem steady_report (key : DiagnosticKey) (args : List String) (position : Option Position)
    (field : Option String) : Steady (report s key args position field) :=
  steady_current?.bind fun _ => (steady_place _).bind fun _ => steady_modify _

theorem steady_unknown (reason : String) (cause : UnknownCause) (id : Option NodeId)
    (position : Option Position) : Steady (unknown reason cause id position) :=
  (steady_idOr id).bind fun _ => (steady_location _).bind fun _ => steady_add _

theorem steady_unsupported (construct : String) (detail : Option String)
    (position : Option Position) (field : Option String) (id : Option NodeId) :
    Steady (unsupported s construct detail position field id) :=
  (steady_report _ _ _ _).bind fun _ => steady_unknown _ _ _ _

theorem steady_tags (comment field : Option String) (position : Option Position) :
    Steady (tags s comment field position) := by
  unfold tags
  split
  · exact steady_pure _
  · exact steady_pure _
  · refine steady_current?.bind fun _ => (steady_place _).bind fun _ => ?_
    refine (steady_lift fun h => ?_).bind fun _ => (steady_modify _).bind fun _ => steady_pure _
    obtain ⟨n, hn⟩ := exists_of_readTags_eq_error h
    cases hn

theorem steady_checkDeadline : Steady checkDeadline := by
  refine steady_get.bind fun st => ?_
  cases st.deadline with
  | none => exact steady_pure _
  | some d =>
    dsimp only
    rcases d.expired with ⟨_ | _, d'⟩
    · exact (steady_modify _).bind fun _ => steady_pure _
    · refine (steady_modify _).bind fun _ st h => ?_
      cases faults_throw.1 h

theorem steady_limitNode : Steady (limitNode s) := by
  refine steady_get.bind fun st => ?_
  split
  · exact steady_pure _
  · exact (steady_modify _).bind fun _ => (steady_unknown _ _ _ _).bind fun _ =>
      (steady_modify _).bind fun _ => steady_pure _

theorem steady_limited? (id : Option NodeId) : Steady (limited? s id) := by
  refine steady_get.bind fun st => ?_
  split
  · exact steady_pure _
  · refine steady_limitNode.bind fun _ => ?_
    cases id with
    | none => exact steady_pure _
    | some x => exact (steady_unknown _ _ _ _).bind fun _ => steady_pure _

theorem steady_recursiveRef (frame : Frame) (x : NodeId) (position : Option Position)
    (ts : List Tag) : Steady (recursiveRef frame x position ts) :=
  (steady_modify _).bind fun _ => (steady_location _).bind fun _ => steady_add _

theorem steady_frameNamed? (name : String) (file : Option String) :
    Steady (frameNamed? name file) := steady_get.bind fun _ => steady_pure _

theorem steady_backEdge (d : Description) (id : Option NodeId) (field : Option String) :
    Steady (backEdge s d id field) := by
  have hframe : Steady (frameLabelled? d.label) := by
    cases d.label with
    | none => exact steady_pure _
    | some name => exact steady_frameNamed? _ _
  refine hframe.bind fun found => ?_
  cases found with
  | none => exact steady_current?.bind fun _ => (steady_report _ _ _ _).bind fun _ =>
      steady_unknown _ _ _ _
  | some frame => exact (steady_idOr id).bind fun _ => steady_recursiveRef _ _ _ _

theorem steady_sharedBody? (key : DeclarationKey) : Steady (sharedBody? s key) := by
  refine steady_get.bind fun st => ?_
  split
  · exact steady_pure _
  · split
    · exact steady_pure _
    · exact (steady_modify _).bind fun _ => steady_pure _

theorem steady_enter (d : Declaration) : Steady (enter d) :=
  steady_newId.bind fun _ => (steady_modify _).bind fun _ => steady_pure _

/-! ## Room -/

/-- The descriptions of a declaration can be read without a fault of depth. -/
def Legible (types : Descriptions) : Prop :=
  ∀ a ∈ types, a ≠ .error .nestingTooDeep ∧ ∀ d, a = .ok d →
    (∀ fs, d.shape = .object fs → ∀ f ∈ fs, f ≠ .error .nestingTooDeep) ∧
    ∀ ms, d.shape = .enum ms → ∀ m ∈ ms, m ≠ .error .nestingTooDeep

theorem Legible.get_ne {types : Descriptions} (h : Legible types) (i : DescriptionId) :
    types.get i ≠ .error .nestingTooDeep := by
  rw [Descriptions.get]
  cases hi : types[i]? with
  | none => simp
  | some a => exact (h a (Array.mem_of_getElem? hi)).1

theorem Legible.parts {types : Descriptions} (h : Legible types) {i : DescriptionId} {d : Description}
    (hd : types.get i = .ok d) :
    (∀ fs, d.shape = .object fs → ∀ f ∈ fs, f ≠ .error .nestingTooDeep) ∧
    ∀ ms, d.shape = .enum ms → ∀ m ∈ ms, m ≠ .error .nestingTooDeep := by
  rw [Descriptions.get] at hd
  cases hi : types[i]? with
  | none => simp [hi] at hd
  | some a =>
    rw [hi] at hd
    exact (h a (Array.mem_of_getElem? hi)).2 d hd

/-- There are finitely many declarations, with at most the given number of descriptions each. -/
structure Finite (source : DeclarationSource) (keys : List DeclarationKey) (size : ℕ) : Prop where
  lookup : ∀ k, source.lookup k ≠ .error .nestingTooDeep
  declared : ∀ k d, source.lookup k = .ok (some d) → d.key ∈ keys
  size : ∀ k d, source.lookup k = .ok (some d) → d.types.size ≤ size
  legible : ∀ k d, source.lookup k = .ok (some d) → Legible d.types

/-- How many declarations can still be entered; if all have one arena it is enough to count
descriptions. -/
def remaining (s : Setting) (keys : List DeclarationKey) (st : State) : ℕ :=
  if s.source.shared then 0 else keys.length - st.chain.length

/-- How many descriptions of a scope are being followed. -/
def opened (st : State) (scope : ℕ) : ℕ := (st.active.filter fun m => m.1 == scope).length

/-- The fuel suffices for what is not being followed yet. -/
structure Room (s : Setting) (keys : List DeclarationKey) (size : ℕ) (scope fuel : ℕ) (st : State) :
    Prop where
  sane : Sane s st
  distinct : s.source.shared = false → (st.chain.map Frame.key).Nodup
  declared : ∀ f ∈ st.chain, f.key ∈ keys
  marks : st.active.Nodup
  small : ∀ m ∈ st.active, m.2 < size
  common : s.source.shared = true → scope = 0
  enough : remaining s keys st * size + (size - opened st scope) < fuel

variable {keys : List DeclarationKey} {size scope fuel : ℕ}

theorem Later.map_key {chain chain' : List Frame} (h : Later chain chain') :
    chain'.map Frame.key = chain.map Frame.key := by
  induction h with
  | nil => rfl
  | cons hf _ ih => rw [List.map_cons, List.map_cons, hf.key, ih]

theorem Room.grew (h : Room s keys size scope fuel st) (hg : Grew none st st') (hs : Sane s st') :
    Room s keys size scope fuel st' where
  sane := hs
  distinct hns := Later.map_key hg.chain ▸ h.distinct hns
  declared f hf := by
    have hmem : f.key ∈ st.chain.map Frame.key :=
      Later.map_key hg.chain ▸ List.mem_map_of_mem hf
    obtain ⟨g, hg, he⟩ := List.mem_map.1 hmem
    exact he ▸ h.declared g hg
  marks := hg.active ▸ h.marks
  small := hg.active ▸ h.small
  common := h.common
  enough := by
    have hlen := hg.chain.length_eq
    rw [remaining, opened, hg.active, ← hlen]
    exact h.enough

theorem Room.calm (h : Room s keys size scope fuel st) (hc : Calm st st') :
    Room s keys size scope fuel st' := h.grew hc.grew (hc.sane h.sane)

/-- A description that is not being followed leaves room for those in it. -/
theorem Room.push (h : Room s keys size scope (fuel + 1) st) {d : DescriptionId} (hd : d < size)
    (hnew : (scope, d) ∉ st.active) :
    Room s keys size scope fuel { st with active := (scope, d) :: st.active } := by
  have hmarks : ((scope, d) :: st.active).Nodup := List.nodup_cons.2 ⟨hnew, h.marks⟩
  have hsmall : ∀ m ∈ (scope, d) :: st.active, m.2 < size :=
    List.forall_mem_cons.2 ⟨hd, h.small⟩
  have hopened : opened { st with active := (scope, d) :: st.active } scope = opened st scope + 1 := by
    simp [opened]
  have hle : opened st scope + 1 ≤ size := by
    rw [← hopened, opened, ← List.length_map (f := Prod.snd), ← List.length_range (n := size)]
    refine (List.subperm_of_subset ?_ fun i hi => ?_).length_le
    · refine (hmarks.filter _).map_on fun m hm m' hm' he => ?_
      simp only [List.mem_filter, beq_iff_eq] at hm hm'
      exact Prod.ext (hm.2.trans hm'.2.symm) he
    · obtain ⟨m, hm, rfl⟩ := List.mem_map.1 hi
      exact List.mem_range.2 (hsmall m (List.mem_filter.1 hm).1)
  have henough := h.enough
  refine ⟨⟨h.sane.grown, h.sane.numbered, h.sane.nested, h.sane.target, h.sane.bodies, h.sane.limit⟩,
    h.distinct, h.declared, hmarks, hsmall, h.common, ?_⟩
  rw [hopened]
  change remaining s keys st * size + _ < _
  omega

/-- A declaration that is not being followed leaves room for its descriptions. -/
theorem Room.enter (h : Room s keys size scope fuel st) {d : Declaration} {body : NodeId}
    (he : Entered s d st body st') (hd : d.key ∈ keys)
    (hnew : s.source.shared = false → d.key ∉ st.chain.map Frame.key) (n : ℕ) :
    Room s keys size (if s.source.shared then 0 else n) fuel st' := by
  have hkeys : st'.chain.map Frame.key = d.key :: st.chain.map Frame.key := by
    rw [he.chain, List.map_cons]
  have hdistinct : s.source.shared = false → (d.key :: st.chain.map Frame.key).Nodup :=
    fun hns => List.nodup_cons.2 ⟨hnew hns, h.distinct hns⟩
  have hdeclared : ∀ k ∈ d.key :: st.chain.map Frame.key, k ∈ keys := by
    refine List.forall_mem_cons.2 ⟨hd, fun k hk => ?_⟩
    obtain ⟨f, hf, rfl⟩ := List.mem_map.1 hk
    exact h.declared f hf
  have henough := h.enough
  refine ⟨he.sane, hkeys ▸ hdistinct, fun f hf => hdeclared _ (hkeys ▸ List.mem_map_of_mem hf),
    he.active ▸ h.marks, he.active ▸ h.small, fun hs => if_pos hs, ?_⟩
  rw [remaining, opened, he.active, he.chain, List.length_cons]
  rw [remaining] at henough
  cases hs : s.source.shared with
  | true =>
    rw [hs, h.common hs] at henough
    exact henough
  | false =>
    have hlen : st.chain.length + 1 ≤ keys.length := by
      simpa using (List.subperm_of_subset (hdistinct hs) hdeclared).length_le
    obtain ⟨j, hj⟩ := Nat.exists_eq_add_of_le hlen
    have hold : keys.length - st.chain.length = j + 1 := by omega
    have hrest : keys.length - (st.chain.length + 1) = j := by omega
    simp only [hs, Bool.false_eq_true, if_false, hold, hrest, Nat.succ_mul] at henough ⊢
    omega

/-! ## Following -/

/-- What is followed with enough fuel is not nested too deeply. -/
def Ends (s : Setting) (keys : List DeclarationKey) (size fuel : ℕ) (follow : Follow) : Prop :=
  ∀ site d id ts field st, Room s keys size site.scope fuel st → Pending st id →
    site.types.size ≤ size → Legible site.types →
      ¬ Faults (follow site d id ts field) st .nestingTooDeep

section Following

variable {follow : Follow} {site : Site}

theorem not_faults_declaration {d : Declaration} (hends : Ends s keys size fuel follow)
    (hroom : Room s keys size scope fuel st) (hd : d.key ∈ keys) (hsize : d.types.size ≤ size)
    (hlegible : Legible d.types)
    (hnew : s.source.shared = false → d.key ∉ st.chain.map Frame.key) :
    ¬ Faults (declaration s follow d) st .nestingTooDeep := by
  intro h
  simp only [declaration, faults_bind, done_get] at h
  rcases h with h | ⟨body, st₁, hbody, h | ⟨_, _, ⟨rfl, rfl⟩, h | ⟨ts, st₂, hts, h |
    ⟨x, st₃, -, h | ⟨u, st₄, -, h⟩⟩⟩⟩⟩
  · exact steady_enter d _ h
  · exact steady_get _ h
  · exact steady_tags _ _ _ _ h
  · have hentered := (done_enter hbody hroom.sane).calm (done_tags hts).2
    exact hends _ _ _ _ _ _ (hroom.enter hentered hd hnew _) hentered.pending hsize hlegible h
  · exact steady_modify _ _ h
  · exact steady_pure _ _ h

theorem not_faults_bodyOf {name by_ : String} {d : Declaration}
    (hends : Ends s keys size fuel follow) (hroom : Room s keys size scope fuel st)
    (hd : d.key ∈ keys) (hsize : d.types.size ≤ size) (hlegible : Legible d.types)
    (hnew : s.source.shared = false → d.key ∉ st.chain.map Frame.key) :
    ¬ Faults (bodyOf s follow name by_ d) st .nestingTooDeep := by
  intro h
  simp only [bodyOf, faults_bind] at h
  rcases h with h | ⟨out, st₁, hout, h⟩
  · exact steady_sharedBody? _ _ h
  obtain ⟨hs₁, hg₁, -⟩ := done_sharedBody? hout hroom.sane
  have hroom₁ := hroom.grew hg₁ hs₁
  cases out with
  | some body => exact steady_pure _ _ h
  | none =>
    simp only [faults_bind, done_modify] at h
    rcases h with h | ⟨u, st₂, rfl, h⟩
    · exact steady_modify _ _ h
    have hcalm : Calm st₁ { st₁ with events := st₁.events.push (.entered name by_) } :=
      ⟨rfl, rfl, rfl, rfl, rfl, rfl, rfl⟩
    refine not_faults_declaration hends (hroom₁.calm hcalm) hd hsize hlegible (fun hns => ?_) h
    rw [Later.map_key hg₁.chain]
    exact hnew hns

theorem not_faults_lookup {key : DeclarationKey} (hfinite : Finite s.source keys size) :
    ¬ Faults (lookup s key) st .nestingTooDeep := by
  intro h
  simp only [lookup, faults_bind, done_modify] at h
  rcases h with h | ⟨u, st₁, rfl, h⟩
  · exact steady_modify _ _ h
  · split at h
    · exact steady_pure _ _ h
    · next e he =>
      obtain rfl := faults_throw.1 h
      exact hfinite.lookup _ he

theorem not_faults_reference {name : String} {file field : Option String} {x : NodeId}
    {position : Option Position} {ts : List Tag} (hfinite : Finite s.source keys size)
    (hsource : s.source.shared = true ∨ Faithful s.source) (hends : Ends s keys size fuel follow)
    (hroom : Room s keys size scope fuel st) :
    ¬ Faults (reference s follow name file position x ts field) st .nestingTooDeep := by
  intro h
  simp only [reference, faults_bind, done_modify] at h
  rcases h with h | ⟨key, st₀, hkey, h | ⟨u, st₁, hst₁, h | ⟨found, st₂, hfound, h⟩⟩⟩
  · exact steady_current? _ h
  · exact steady_modify _ _ h
  · exact steady_frameNamed? _ _ _ h
  obtain ⟨-, rfl⟩ := done_current?.1 hkey
  have hcalm : Calm st st₁ := by
    subst hst₁
    split
    · exact ⟨rfl, rfl, rfl, rfl, rfl, rfl, rfl⟩
    · exact .refl _
  obtain ⟨hfind, rfl⟩ := done_frameNamed? hfound
  cases found with
  | some f => exact steady_recursiveRef _ _ _ _ _ h
  | none =>
    simp only [faults_bind] at h
    rcases h with h | ⟨d, st₂, hd, h⟩
    · exact not_faults_lookup hfinite h
    obtain ⟨hd, hcalm₂⟩ := done_lookup hd
    have hroom₂ := hroom.calm (hcalm.trans hcalm₂)
    cases d with
    | none =>
      rcases faults_bind.1 h with h | ⟨u, st₃, -, h⟩
      · exact steady_report _ _ _ _ _ h
      · exact steady_unknown _ _ _ _ _ h
    | some d =>
      rcases faults_bind.1 h with h | ⟨target, st₃, -, h⟩
      · refine not_faults_bodyOf hends hroom₂ (hfinite.declared _ _ hd) (hfinite.size _ _ hd)
          (hfinite.legible _ _ hd) (fun hns hmem => ?_) h
        have hfaithful := hsource.resolve_left (by simp [hns])
        obtain ⟨f, hf, hkey⟩ := List.mem_map.1 hmem
        rw [hfaithful _ _ hd] at hkey
        rw [hcalm₂.chain] at hf
        have := List.find?_eq_none.1 hfind.symm f hf
        simp [hkey] at this
      · exact (steady_location _).bind (fun _ => steady_add _) _ h

theorem not_faults_field {f : Attempt FieldDescription} (hends : Ends s keys size fuel follow)
    (hroom : Room s keys size site.scope fuel st) (hsize : site.types.size ≤ size)
    (hlegible : Legible site.types) (hf : f ≠ .error .nestingTooDeep) :
    ¬ Faults (field s follow site f) st .nestingTooDeep := by
  intro h
  simp only [field, faults_bind, faults_lift] at h
  rcases h with h | ⟨fd, st₁, hfd, h | ⟨ts, st₂, hts, h | ⟨x, st₃, -, h | ⟨l, st₄, -, h⟩⟩⟩⟩
  · exact hf h
  · exact steady_tags _ _ _ _ h
  · obtain ⟨-, rfl⟩ := done_lift.1 hfd
    have hcalm := (done_tags hts).2
    have hroom₂ := hroom.calm hcalm
    unfold fieldType at h
    split at h
    · exact steady_unsupported _ _ _ _ _ _ h
    · exact hends _ _ _ _ _ _ hroom₂ (pending_none _) hsize hlegible h
  · exact steady_location _ _ h
  · exact steady_pure _ _ h

theorem not_faults_sequence {step : α → M β} (node : β → NodeId) {xs : List α}
    (hstep : ∀ x st y st', Done (step x) st y st' → Sane s st → Yields s none st (node y) st')
    (hroom : Room s keys size scope fuel st)
    (hends : ∀ x ∈ xs, ∀ st, Room s keys size scope fuel st → ¬ Faults (step x) st .nestingTooDeep) :
    ¬ Faults (xs.mapM step) st .nestingTooDeep := by
  intro h
  obtain ⟨before, x, after, ys, st₁, rfl, hdone, h⟩ := faults_mapM h
  obtain ⟨hs₁, hg, -⟩ := yields_sequence node hstep hdone hroom.sane
  exact hends x (by simp) st₁ (hroom.grew hg hs₁) h

theorem enumMembers_ne {ms : List (Attempt MemberDescription)}
    (hms : ∀ m ∈ ms, m ≠ .error .nestingTooDeep) : enumMembers ms ≠ .error .nestingTooDeep := by
  induction ms with
  | nil => exact fun h => by cases h
  | cons m ms ih =>
    obtain ⟨hm, htail⟩ := List.forall_mem_cons.1 hms
    intro h
    rw [enumMembers] at h
    cases m with
    | error e => exact hm (congrArg Except.error (Except.error.inj h))
    | ok m =>
      cases m with
      | unsupported detail => cases h
      | constant member =>
        cases hrest : enumMembers ms with
        | error e =>
          change enumMembers ms >>= _ = _ at h
          rw [hrest] at h
          exact ih htail (hrest.trans h)
        | ok out =>
          change enumMembers ms >>= _ = _ at h
          rw [hrest] at h
          cases h

theorem not_faults_build {d : Description} {x : NodeId} {ts : List Tag} {inField : Option String}
    (hfinite : Finite s.source keys size) (hsource : s.source.shared = true ∨ Faithful s.source)
    (hfollowed : Followed s follow) (hends : Ends s keys size fuel follow)
    (hroom : Room s keys size site.scope fuel st) (hsize : site.types.size ≤ size)
    (hlegible : Legible site.types) (hd : ∃ i, site.types.get i = .ok d) :
    ¬ Faults (build s follow site d x ts inField) st .nestingTooDeep := by
  have hnode : ∀ shape, Steady (do
      add { id := x, shape := shape, tags := ts, location := ← location d.position }) :=
    fun _ => (steady_location _).bind fun _ => steady_add _
  have hchild : ∀ c st y st', Done (follow site c none [] inField) st y st' → Sane s st →
      Yields s none st y st' := fun _ _ _ _ h hs => hfollowed _ _ _ _ _ _ _ _ h hs (pending_none _)
  have hnone : ∀ c st, Room s keys size site.scope fuel st →
      ¬ Faults (follow site c none [] inField) st .nestingTooDeep :=
    fun _ _ hroom => hends _ _ _ _ _ _ hroom (pending_none _) hsize hlegible
  have hlist : ∀ cs : List DescriptionId,
      ¬ Faults (cs.mapM fun c => follow site c none [] inField) st .nestingTooDeep :=
    fun cs => not_faults_sequence id hchild hroom fun c _ => hnone c
  obtain ⟨i, hi⟩ := hd
  obtain ⟨hobject, henum⟩ := hlegible.parts hi
  intro h
  unfold build at h
  dsimp only at h
  split at h
  · exact hnode _ _ h
  · exact hnode _ _ h
  · rcases faults_bind.1 h with h | ⟨y, st₁, -, h⟩
    · exact hnone _ _ hroom h
    · exact hnode _ _ h
  · rcases faults_bind.1 h with h | ⟨ys, st₁, -, h⟩
    · exact hlist _ h
    · exact hnode _ _ h
  · next fs hfs =>
    rcases faults_bind.1 h with h | ⟨ys, st₁, -, h⟩
    · refine not_faults_sequence Field.type (fun _ _ _ _ h hs => done_field hfollowed h hs) hroom
        (fun f hf st hroom => ?_) h
      exact not_faults_field hends hroom hsize hlegible (hobject fs hfs f hf)
    · exact hnode _ _ h
  · rcases faults_bind.1 h with h | ⟨ys, st₁, -, h⟩
    · exact hlist _ h
    · exact hnode _ _ h
  · rcases faults_bind.1 h with h | ⟨ys, st₁, -, h⟩
    · exact hlist _ h
    · exact hnode _ _ h
  · next ms hms =>
    rcases faults_bind.1 h with h | ⟨out, st₁, -, h⟩
    · exact enumMembers_ne (henum ms hms) (faults_lift.1 h)
    · split at h
      · exact hnode _ _ h
      · exact steady_unsupported _ _ _ _ _ _ h
  · exact not_faults_reference hfinite hsource hends hroom h
  · exact steady_unsupported _ _ _ _ _ _ h

end Following

/-- Enough fuel suffices, by induction on the fuel: a description that is not being followed takes
one of the places that are left, and one that is being followed needs none. -/
theorem ends_follow (hfinite : Finite s.source keys size)
    (hsource : s.source.shared = true ∨ Faithful s.source) (fuel : ℕ) :
    Ends s keys size fuel (follow s fuel) := by
  induction fuel with
  | zero => exact fun _ _ _ _ _ _ hroom => absurd hroom.enough (Nat.not_lt_zero _)
  | succ fuel ih =>
    intro site d id ts field st hroom hp hsize hlegible h
    simp only [follow, faults_bind] at h
    rcases h with h | ⟨u, st₁, hu, h | ⟨out, st₂, hout, h⟩⟩
    · exact steady_checkDeadline _ h
    · exact steady_limited? _ _ h
    have hcalm := done_checkDeadline hu
    have hroom₁ := hroom.calm hcalm
    have hp₁ := hp.filed hcalm.grew.toFiled
    rcases done_limited? hout hroom₁.sane hp₁ with ⟨rfl, rfl, -⟩ | ⟨y, rfl, -⟩
    · simp only [faults_bind, done_get] at h
      rcases h with h | ⟨_, _, ⟨rfl, rfl⟩, h⟩
      · exact steady_get _ h
      split at h
      · simp only [faults_bind, faults_lift] at h
        rcases h with h | ⟨d', st₂, -, h⟩
        · exact hlegible.get_ne d h
        · exact steady_backEdge _ _ _ _ h
      · next hnew =>
        simp only [faults_bind, faults_lift, done_modify] at h
        rcases h with h | ⟨u, st₂, rfl, h | ⟨x, st₃, hx, h | ⟨d', st₄, hd', h | ⟨y, st₅, -, h⟩⟩⟩⟩
        · exact steady_modify _ _ h
        · exact steady_idOr _ _ h
        · exact hlegible.get_ne d h
        · obtain ⟨hget, rfl⟩ := done_lift.1 hd'
          have hlt : d < site.types.size := by
            by_contra hge
            simp [Descriptions.get, Array.getElem?_eq_none (not_lt.1 hge)] at hget
          have hpush := hroom₁.push (hlt.trans_le hsize) (by simpa using hnew)
          have hgiven := given_of_done_idOr hx hpush.sane hp₁
          exact not_faults_build hfinite hsource (followed_follow _) ih
            (hpush.grew hgiven.grew hgiven.sane) hsize hlegible ⟨d, hget⟩ h
        · rcases h with h | ⟨u, st₆, -, h⟩
          · exact steady_modify _ _ h
          · exact steady_pure _ _ h
    · exact steady_pure _ _ h

/-- The depth up to which descriptions can be nested. -/
def bound (source : DeclarationSource) (keys : List DeclarationKey) (size : ℕ) : ℕ :=
  if source.shared then size else keys.length * size + size

theorem not_faults_root {file : String} {deadline : Option Deadline}
    (hfinite : Finite s.source keys size)
    (hsource : s.source.shared = true ∨ Faithful s.source)
    (hdepth : bound s.source keys size < s.source.depth) :
    ¬ Faults (root s file) { deadline } .nestingTooDeep := by
  have hroom : Room s keys size 0 s.source.depth { deadline } := by
    refine ⟨sane_initial, fun _ => List.nodup_nil, by simp, List.nodup_nil, by simp, fun _ => rfl, ?_⟩
    rw [bound] at hdepth
    rw [remaining]
    split at hdepth <;> simp_all [opened]
  intro h
  rcases faults_bind.1 h with h | ⟨d, st₁, hd, h⟩
  · exact not_faults_lookup hfinite h
  obtain ⟨hd, hcalm⟩ := done_lookup hd
  cases d with
  | none =>
    rcases faults_bind.1 h with h | ⟨u, st₂, -, h⟩
    · exact steady_modify _ _ h
    · exact steady_unknown _ _ _ _ _ h
  | some d =>
    refine not_faults_declaration (ends_follow hfinite hsource _) (hroom.calm hcalm)
      (hfinite.declared _ _ hd) (hfinite.size _ _ hd) (hfinite.legible _ _ hd) (fun _ => ?_) h
    rw [hcalm.chain]
    exact List.not_mem_nil

end TypeAtlas.Resolution

namespace TypeAtlas

open Resolution

/-- A resolution among finitely many declarations is never nested too deeply, provided that a
look-up gives the declaration that was asked for or that all declarations have one arena. -/
theorem resolve_ne_nestingTooDeep {source : DeclarationSource} {keys : List DeclarationKey}
    {size : ℕ} (hfinite : Finite source keys size) (hsource : source.shared = true ∨ Faithful source)
    (hdepth : bound source keys size < source.depth) (vocabulary : Vocabulary) (maxNodes : Int)
    (file symbol : String) (deadline : Option Deadline) (sharing : Bool) :
    (resolve source vocabulary maxNodes file symbol deadline sharing).1 ≠ .error .nestingTooDeep := by
  intro h
  have hroot : ¬ Faults (root ⟨source, vocabulary, maxNodes, symbol, sharing⟩ file) { deadline }
      .nestingTooDeep := not_faults_root hfinite hsource hdepth
  rcases hrun : (root ⟨source, vocabulary, maxNodes, symbol, sharing⟩ file).run { deadline } with
    ⟨e | r, st⟩
  · simp only [resolve, hrun, Except.error.injEq] at h
    exact hroot ⟨st, h ▸ hrun⟩
  · simp only [resolve, hrun] at h
    cases h

/-- The declarations of the forest as if each had an arena of its own. -/
def scattered : DeclarationSource where
  lookup := forest.source.lookup
  shared := false
  depth := 41

theorem resolve_ne_nestingTooDeep_scattered :
    (resolve scattered default 100 "forest.ts" "Node").1 ≠ .error .nestingTooDeep := by
  have hlookup : ∀ k d, scattered.lookup k = .ok (some d) → d ∈ forest ∧ d.key = k := by
    intro k d h
    have hfind : forest.find? (fun d => d.key = k) = some d := Except.ok.inj h
    exact ⟨List.mem_of_find?_eq_some hfind, by simpa using List.find?_some hfind⟩
  have hall : ∀ d ∈ forest, d.types.size ≤ 10 ∧ Legible d.types := by
    simp [forest, Legible]
  have hfinite : Finite scattered (forest.map Declaration.key) 10 :=
    ⟨fun k h => (by cases h), fun k d h => List.mem_map_of_mem (hlookup k d h).1,
      fun k d h => (hall d (hlookup k d h).1).1, fun k d h => (hall d (hlookup k d h).1).2⟩
  exact resolve_ne_nestingTooDeep hfinite (.inr fun k d h => (hlookup k d h).2) (by decide) _ _ _ _ _ _

end TypeAtlas
