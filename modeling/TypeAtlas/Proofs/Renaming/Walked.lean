import TypeAtlas.Proofs.Renaming.Basic
import TypeAtlas.Proofs.Resolution.Scoped
import TypeAtlas.Proofs.Resolution.Sourced
import TypeAtlas.Proofs.Tag.Read

/-! # Walks side by side

A walk whose declarations are renamed goes along with the original one: both do the same steps and
file the same nodes, but for names. The second walk may have a larger budget, no deadline and a source that
answers more. It is lost when the first one leaves something out, since what that is depends on the budget. When it need
not agree in what it reports, it is also lost at the first error, since the reason for an unknown node
can be a name.
-/

namespace TypeAtlas

namespace Renaming

variable (ρ : Renaming)

open Resolution

def frame (f : Frame) : Frame := { f with key := ρ.key f.key, names := f.names.map ρ.key }

def sharedBody (b : SharedBody) : SharedBody :=
  { b with key := ρ.key b.key, names := b.names.map ρ.key }

def site (σ : Site) : Site := { σ with types := ρ.descriptions σ.types }

theorem contains_names (names : List DeclarationKey) (k : DeclarationKey) :
    (names.map ρ.key).contains (ρ.key k) = names.contains k := by
  rw [Bool.eq_iff_iff, List.contains_iff_mem, List.contains_iff_mem,
    List.mem_map_of_injective ρ.key_injective]

theorem markOuter_map (body : NodeId) (chain : List Frame) :
    markOuter body (chain.map ρ.frame) = (markOuter body chain).map ρ.frame := by
  induction chain with
  | nil => rfl
  | cons f fs ih =>
    rw [List.map_cons, markOuter, markOuter, show (ρ.frame f).body = f.body from rfl]
    by_cases hbody : f.body = body
    · rw [if_pos hbody, if_pos hbody, List.map_cons]
    · rw [if_neg hbody, if_neg hbody, List.map_cons, ih]
      rfl

theorem addNames_map (names more : List DeclarationKey) :
    addNames (names.map ρ.key) (more.map ρ.key) = (addNames names more).map ρ.key := by
  rw [addNames, addNames]
  induction more generalizing names with
  | nil => rfl
  | cons k more ih =>
    rw [List.map_cons, List.foldl_cons, List.foldl_cons, contains_names]
    split
    · exact ih names
    · rw [← ih, List.map_append, List.map_singleton]

theorem noteNames_map (more : List DeclarationKey) (chain : List Frame) :
    noteNames (more.map ρ.key) (chain.map ρ.frame) = (noteNames more chain).map ρ.frame := by
  cases chain with
  | nil => rfl
  | cons f fs =>
    simp only [List.map_cons, noteNames, frame, addNames_map]

def place (p : Place) : Place :=
  { p with filePath := p.filePath.map ρ.file, symbol := p.symbol.map ρ.name }

theorem place_refl : refl.place = id := by
  funext p
  have hfile : p.filePath.map refl.file = p.filePath := congrFun Option.map_id _
  have hsymbol : p.symbol.map refl.name = p.symbol := congrFun Option.map_id _
  rw [place, hfile, hsymbol]
  rfl

end Renaming

namespace Resolution

variable {ρ : Renaming} {exact : Prop} {s s' : Setting} {st st' st₁ st₁' : State}
  {α α' β β' : Type}

/-- The setting with renamed declarations, and with a budget that is no smaller. Where the first source
fails, the second one may give any answer. -/
structure Setting.Beside (ρ : Renaming) (s s' : Setting) : Prop where
  lookup : ∀ k d, s.source.lookup k = .ok d → s'.source.lookup (ρ.key k) = .ok (d.map ρ.declaration)
  shared : s'.source.shared = s.source.shared
  depth : s'.source.depth = s.source.depth
  vocabulary : s'.vocabulary = s.vocabulary
  maxNodes : s.maxNodes ≤ s'.maxNodes
  symbol : s'.symbol = ρ.name s.symbol
  sharing : s'.sharing = s.sharing

/-- Two walks have come to the same place, but for names. -/
structure State.Beside (ρ : Renaming) (exact : Prop) (st st' : State) : Prop where
  sink : exact → st'.sink = st.sink
  hasErrors : st'.sink.hasErrors = st.sink.hasErrors
  nodes : st'.nodes = ρ.arena st.nodes
  counter : st'.counter = st.counter
  chain : st'.chain = st.chain.map ρ.frame
  bodies : st'.bodies = st.bodies.map ρ.sharedBody
  active : st'.active = st.active
  scopes : st'.scopes = st.scopes
  dependencies : exact → st'.dependencies = st.dependencies
  limit : st.limit = none
  limit' : st'.limit = none
  deadline : st'.deadline = none ∨ st'.deadline = st.deadline

/-- A condition on what was reported and left out that lasts whatever a walk does. -/
structure Enduring (I : State → Prop) : Prop where
  congr : ∀ {st st' : State}, st'.sink = st.sink → st'.limit = st.limit → I st → I st'
  emit : ∀ {st : State} {d : Diagnostic}, d.code ≠ DiagnosticKey.resolutionLimit.code → I st →
    I { st with sink := st.sink.emit d }
  limit : ∀ {st : State} {d : Diagnostic} {i : NodeId}, st.limit = none →
    d.code = DiagnosticKey.resolutionLimit.code → d.isError → I st →
      I { st with sink := st.sink.emit d, limit := some i }

/-- Another walk need not go along any more. -/
def Lost (exact : Prop) (st : State) : Prop := st.limit.isSome ∨ (¬ exact ∧ st.sink.hasErrors)

theorem enduring_lost (exact : Prop) : Enduring (Lost exact) where
  congr hsink hlimit h := by
    rw [Lost, hlimit, hsink]
    exact h
  emit _ h := by
    refine h.imp_right fun h => ⟨h.1, ?_⟩
    rw [Sink.hasErrors_emit, h.2, Bool.true_or]
  limit _ _ _ _ := .inl rfl

def Lasts (m : M α) : Prop :=
  ∀ I, Enduring I → ∀ st x st', Done m st x st' → I st → I st'

/-- Whatever the first walk does next, the second one does alike. -/
structure Mirrors (ρ : Renaming) (exact : Prop) (g : α → α') (m : M α) (m' : M α') : Prop where
  lasts : Lasts m
  along : ∀ st st' x st₁, State.Beside ρ exact st st' → Done m st x st₁ →
    Lost exact st₁ ∨ ∃ st₁', Done m' st' (g x) st₁' ∧ State.Beside ρ exact st₁ st₁'

/-! ## Rules -/

section Rules

variable {m : M α} {m' : M α'} {g : α → α'} {k : β → β'}

theorem lasts_pure (x : α) : Lasts (pure x : M α) := by
  intro I _ st y st₁ h hst
  obtain ⟨rfl, rfl⟩ := done_pure.1 h
  exact hst

theorem Lasts.bind {f : α → M β} (hm : Lasts m) (hf : ∀ x, Lasts (f x)) : Lasts (m >>= f) := by
  intro I hI st y st₂ h hst
  obtain ⟨x, st₁, hx, hy⟩ := done_bind.1 h
  exact hf x I hI _ _ _ hy (hm I hI _ _ _ hx hst)

theorem lasts_get : Lasts get := by
  intro I _ st x st₁ h hst
  obtain ⟨rfl, rfl⟩ := done_get.1 h
  exact hst

theorem mirrors_pure {x : α} {y : α'} (h : y = g x) : Mirrors ρ exact g (pure x) (pure y) := by
  constructor
  · exact lasts_pure x
  · intro st st' z st₁ hst hz
    obtain ⟨rfl, rfl⟩ := done_pure.1 hz
    exact .inr ⟨st', done_pure.2 ⟨h, rfl⟩, hst⟩

theorem Mirrors.bind {f : α → M β} {f' : α' → M β'} (hm : Mirrors ρ exact g m m')
    (hf : ∀ x, Mirrors ρ exact k (f x) (f' (g x))) : Mirrors ρ exact k (m >>= f) (m' >>= f') := by
  constructor
  · exact hm.lasts.bind fun x => (hf x).lasts
  · intro st st' y st₂ hst h
    obtain ⟨x, st₁, hx, hy⟩ := done_bind.1 h
    rcases hm.along _ _ _ _ hst hx with hlost | ⟨st₁', hx', hst₁⟩
    · exact .inl ((hf x).lasts _ (enduring_lost exact) _ _ _ hy hlost)
    · rcases (hf x).along _ _ _ _ hst₁ hy with hlost | ⟨st₂', hy', hst₂⟩
      · exact .inl hlost
      · exact .inr ⟨st₂', done_bind.2 ⟨_, _, hx', hy'⟩, hst₂⟩

/-- Once the first walk is lost, the second one may do anything. -/
theorem mirrors_of_lost (hlasts : Lasts m)
    (h : ∀ st x st₁, Done m st x st₁ → Lost exact st₁) : Mirrors ρ exact g m m' :=
  ⟨hlasts, fun _ _ _ _ _ hx => .inl (h _ _ _ hx)⟩

theorem mirrors_throw {e : Fault} : Mirrors ρ exact g (throw e) m' :=
  ⟨fun _ _ _ _ _ h => absurd h not_done_throw, fun _ _ _ _ _ h => absurd h not_done_throw⟩

theorem mirrors_lift (m : Attempt α) :
    Mirrors ρ exact g (liftM m : M α) (liftM (m.map g) : M α') := by
  constructor
  · intro I _ st x st₁ h hst
    obtain ⟨-, rfl⟩ := done_lift.1 h
    exact hst
  · intro st st' x st₁ hst h
    obtain ⟨rfl, rfl⟩ := done_lift.1 h
    exact .inr ⟨st', done_lift.2 ⟨rfl, rfl⟩, hst⟩

theorem mirrors_lift_id (m : Attempt α) : Mirrors ρ exact id (liftM m : M α) (liftM m : M α) := by
  have h : Mirrors ρ exact id (liftM m : M α) (liftM (m.map id) : M α) := mirrors_lift m
  rwa [show m.map id = m from Except.map_id ▸ rfl] at h

/-- A step without a choice: what it gives corresponds, and so does what it makes of the state. -/
theorem mirrors_of_runs {r : State → α} {r' : State → α'} {u u' : State → State}
    (hm : ∀ st, m.run.run st = (.ok (r st), u st))
    (hm' : ∀ st, m'.run.run st = (.ok (r' st), u' st))
    (hlasts : ∀ I, Enduring I → ∀ st, I st → I (u st))
    (h : ∀ st st', State.Beside ρ exact st st' →
      r' st' = g (r st) ∧ State.Beside ρ exact (u st) (u' st')) : Mirrors ρ exact g m m' := by
  constructor
  · intro I hI st x st₁ hx hst
    cases (hm st).symm.trans hx
    exact hlasts I hI st hst
  · intro st st' x st₁ hst hx
    cases (hm st).symm.trans hx
    obtain ⟨hr, hu⟩ := h st st' hst
    exact .inr ⟨u' st', (hm' st').trans (by rw [hr]), hu⟩

theorem mirrors_read {r : State → α} {r' : State → α'}
    (h : ∀ st st', State.Beside ρ exact st st' → r' st' = g (r st)) :
    Mirrors ρ exact g (do return r (← get)) (do return r' (← get)) :=
  mirrors_of_runs (fun _ => rfl) (fun _ => rfl) (fun _ _ _ hst => hst) fun st st' hst =>
    ⟨h st st' hst, hst⟩

theorem mirrors_modify {f f' : State → State}
    (hf : ∀ st, (f st).sink = st.sink ∧ (f st).limit = st.limit)
    (h : ∀ st st', State.Beside ρ exact st st' → State.Beside ρ exact (f st) (f' st')) :
    Mirrors ρ exact id (modify f) (modify f') :=
  mirrors_of_runs (fun _ => rfl) (fun _ => rfl) (fun _ hI st => hI.congr (hf st).1 (hf st).2)
    fun st st' hst => ⟨rfl, h st st' hst⟩

theorem mirrors_get_bind {f : State → M α} {f' : State → M α'} (P : State → State → Prop)
    (hP : ∀ st st', State.Beside ρ exact st st' → P st st') (hrefl : ∀ st, P st st)
    (h : ∀ st st', P st st' → Mirrors ρ exact g (f st) (f' st')) :
    Mirrors ρ exact g (get >>= f) (get >>= f') := by
  constructor
  · exact lasts_get.bind fun st => (h st st (hrefl st)).lasts
  · intro st st' x st₁ hst hx
    obtain ⟨_, _, hget, hx⟩ := done_bind.1 hx
    obtain ⟨rfl, rfl⟩ := done_get.1 hget
    rcases (h st st' (hP _ _ hst)).along _ _ _ _ hst hx with hlost | ⟨st₁', hx', hst₁⟩
    · exact .inl hlost
    · exact .inr ⟨st₁', done_bind.2 ⟨_, _, done_get.2 ⟨rfl, rfl⟩, hx'⟩, hst₁⟩

theorem mirrors_mapM {f : α → M β} {f' : α → M β'} (hf : ∀ x, Mirrors ρ exact k (f x) (f' x))
    (xs : List α) : Mirrors ρ exact (List.map k) (xs.mapM f) (xs.mapM f') := by
  induction xs with
  | nil => exact mirrors_pure rfl
  | cons x xs ih =>
    rw [List.mapM_cons, List.mapM_cons]
    exact (hf x).bind fun y => ih.bind fun ys => mirrors_pure rfl

end Rules

/-! ## Names and places -/

theorem State.Beside.current (h : State.Beside ρ exact st st') :
    st'.current = st.current.map ρ.key := by
  rw [State.current, State.current, h.chain, List.head?_map, Option.map_map, Option.map_map]
  rfl

theorem mirrors_current? : Mirrors ρ exact (Option.map ρ.key) current? current? :=
  mirrors_read fun _ _ hst => hst.current

theorem mirrors_newId : Mirrors ρ exact id newId newId := by
  refine mirrors_of_runs (fun _ => rfl) (fun _ => rfl) (fun _ hI _ => hI.congr rfl rfl)
    fun st st' hst => ?_
  exact ⟨congrArg (fun n => "r" ++ toString (n + 1)) hst.counter,
    { hst with counter := congrArg (· + 1) hst.counter }⟩

theorem mirrors_idOr (i : Option NodeId) : Mirrors ρ exact id (idOr i) (idOr i) := by
  cases i with
  | none => exact mirrors_newId
  | some i => exact mirrors_pure rfl

theorem mirrors_add (n : Node) : Mirrors ρ exact id (add n) (add (ρ.node n)) := by
  refine mirrors_of_runs (fun _ => rfl) (fun _ => rfl) (fun _ hI _ => hI.congr rfl rfl)
    fun st st' hst => ?_
  exact ⟨rfl, { hst with nodes := by rw [ρ.arena_insert, hst.nodes]; rfl }⟩

theorem mirrors_location (position : Option Position) :
    Mirrors ρ exact (Option.map ρ.location) (location position) (location position) := by
  refine mirrors_current?.bind fun key => ?_
  cases position <;> cases key <;> exact mirrors_pure rfl

theorem mirrors_place (hs : s.Beside ρ s') (position : Option Position) :
    Mirrors ρ exact ρ.place (place s position) (place s' position) := by
  refine mirrors_current?.bind fun key => mirrors_pure ?_
  rw [hs.symbol]
  cases key <;> rfl

/-! ## Reports -/

theorem mirrors_of_emits {m m' : M PUnit} {d d' : State → Diagnostic}
    (hm : ∀ st, m.run.run st = (.ok ⟨⟩, { st with sink := st.sink.emit (d st) }))
    (hm' : ∀ st, m'.run.run st = (.ok ⟨⟩, { st with sink := st.sink.emit (d' st) }))
    (hcode : ∀ st, (d st).code ≠ DiagnosticKey.resolutionLimit.code)
    (herror : ∀ st st', (d' st').isError = (d st).isError)
    (hsame : exact → ∀ st st', State.Beside ρ exact st st' → d' st' = d st) :
    Mirrors ρ exact id m m' := by
  refine mirrors_of_runs hm hm' (fun I hI st => hI.emit (hcode st)) fun st st' hst => ⟨rfl, ?_⟩
  · have hsink (h : exact) : st'.sink.emit (d' st') = st.sink.emit (d st) := by
      rw [hst.sink h, hsame h st st' hst]
    have herrors : (st'.sink.emit (d' st')).hasErrors = (st.sink.emit (d st)).hasErrors := by
      rw [Sink.hasErrors_emit, Sink.hasErrors_emit, hst.hasErrors, herror st st']
    exact { hst with sink := hsink, hasErrors := herrors }

theorem mirrors_emit {d d' : Diagnostic} (hcode : d.code ≠ DiagnosticKey.resolutionLimit.code)
    (herror : d'.isError = d.isError) (hsame : exact → d' = d) :
    Mirrors ρ exact id (modify fun st => { st with sink := st.sink.emit d })
      (modify fun st => { st with sink := st.sink.emit d' }) :=
  mirrors_of_emits (fun _ => rfl) (fun _ => rfl) (fun _ => hcode) (fun _ _ => herror)
    fun h _ _ _ => hsame h

theorem State.Beside.current_refl (h : State.Beside .refl exact st st') : st'.current = st.current :=
  h.current.trans (congrFun Option.map_id _)

theorem mirrors_report (hs : s.Beside ρ s') (hρ : exact → ρ = .refl) {key : DiagnosticKey}
    (hkey : key.code ≠ DiagnosticKey.resolutionLimit.code) {args args' : List String}
    (hargs : exact → args' = args) (position : Option Position) (field : Option String) :
    Mirrors ρ exact id (report s key args position field) (report s' key args' position field) := by
  refine mirrors_of_emits (fun _ => rfl) (fun _ => rfl) (fun _ => hkey) (fun _ _ => rfl)
    fun h st st' hst => ?_
  obtain rfl := hρ h
  have hcurrent : st'.chain.head?.map Frame.key = st.chain.head?.map Frame.key := hst.current_refl
  have hsymbol : s'.symbol = s.symbol := hs.symbol
  rw [hargs h, hcurrent, hsymbol]

theorem exists_report {key : DiagnosticKey} {args : List String} {position : Option Position}
    {field : Option String} {u : Unit} (h : Done (report s key args position field) st u st₁) :
    ∃ d, d.isError = (key.entry.category == .error) ∧ st₁ = { st with sink := st.sink.emit d } :=
  ⟨_, rfl, (Prod.ext_iff.1 h).2.symm⟩

theorem mirrors_unknown (reason : String) (cause : UnknownCause) (i : Option NodeId)
    (position : Option Position) :
    Mirrors ρ exact id (unknown reason cause i position) (unknown reason cause i position) := by
  refine (mirrors_idOr i).bind fun j => (mirrors_location position).bind fun l => ?_
  exact mirrors_add { id := j, shape := .unknown reason cause, location := l }

theorem mirrors_unsupported (hs : s.Beside ρ s') (hρ : exact → ρ = .refl) (construct : String)
    (detail : Option String) (position : Option Position) (field : Option String)
    (i : Option NodeId) :
    Mirrors ρ exact id (unsupported s construct detail position field i)
      (unsupported s' construct detail position field i) :=
  (mirrors_report hs hρ (by decide) (fun _ => rfl) _ _).bind fun _ => mirrors_unknown _ _ _ _

theorem Enduring.absorb {I : State → Prop} (hI : Enduring I) (o : Outcome α)
    (ho : ∀ d ∈ o.diagnostics, d.code ≠ DiagnosticKey.resolutionLimit.code) (st : State) (h : I st) :
    I { st with sink := st.sink.absorb o } := by
  rw [Sink.absorb]
  generalize o.diagnostics = ds at ho
  induction ds generalizing st with
  | nil =>
    rw [Sink.extend_nil]
    exact h
  | cons d ds ih =>
    obtain ⟨hd, hds⟩ := List.forall_mem_cons.1 ho
    rw [Sink.extend_cons]
    exact ih _ (hI.emit hd h) hds

theorem mirrors_absorb {o o' : Outcome (List Tag)}
    (hcodes : ∀ d ∈ o.diagnostics, d.code ≠ DiagnosticKey.resolutionLimit.code)
    (hvalue : o'.value = o.value) (hok : o'.ok = o.ok) (hsame : exact → o' = o) :
    Mirrors ρ exact id
      (do modify fun st => { st with sink := st.sink.absorb o }; return o.value.getD [])
      (do modify fun st => { st with sink := st.sink.absorb o' }; return o'.value.getD []) := by
  refine mirrors_of_runs (fun _ => rfl) (fun _ => rfl) (fun _ hI st => hI.absorb o hcodes st)
    fun st st' hst => ⟨congrArg (Option.getD · []) hvalue, ?_⟩
  have hsink (h : exact) : st'.sink.absorb o' = st.sink.absorb o := by rw [hst.sink h, hsame h]
  have herrors : (st'.sink.absorb o').hasErrors = (st.sink.absorb o).hasErrors := by
    rw [Sink.hasErrors_absorb, Sink.hasErrors_absorb, hst.hasErrors, hok]
  exact { hst with sink := hsink, hasErrors := herrors }

theorem mirrors_reading {r r' : Attempt (Outcome (List Tag))}
    (h : Parallel Never (fun o o' => o'.value = o.value ∧ o'.ok = o.ok) r r')
    (hcodes : ∀ o, r = .ok o → ∀ d ∈ o.diagnostics, d.code ≠ DiagnosticKey.resolutionLimit.code)
    (hsame : exact → r' = r) :
    Mirrors ρ exact id
      (do let o ← r; modify fun st => { st with sink := st.sink.absorb o }; return o.value.getD [])
      (do let o ← r'; modify fun st => { st with sink := st.sink.absorb o }; return o.value.getD []) := by
  cases h with
  | ok h => exact mirrors_absorb (hcodes _ rfl) h.1 h.2 fun he => Except.ok.inj (hsame he)
  | error => exact mirrors_throw
  | cut h => exact h.elim

theorem mirrors_tags (hs : s.Beside ρ s') (hρ : exact → ρ = .refl) (comment field : Option String)
    (position : Option Position) :
    Mirrors ρ exact id (tags s comment field position) (tags s' comment field position) := by
  unfold tags
  split
  · exact mirrors_pure rfl
  · exact mirrors_pure rfl
  · next text _ =>
    refine mirrors_current?.bind fun key => (mirrors_place hs position).bind fun p => ?_
    rw [hs.vocabulary]
    have hmoved := readTags_moved (some text) s.vocabulary (key.map DeclarationKey.name)
      ((key.map ρ.key).map DeclarationKey.name) field (some p) (some (ρ.place p))
    refine mirrors_reading hmoved (fun o ho d hd => ?_) fun h => ?_
    · obtain ⟨k, hk, hcode⟩ := code_of_mem_readTags ho hd
      rw [hcode]
      clear hcode
      revert k
      decide
    · obtain rfl := hρ h
      have hkey : key.map Renaming.refl.key = key := congrFun Option.map_id key
      rw [hkey, Renaming.place_refl]
      rfl

/-! ## Limits -/

theorem done_checkDeadline_iff {u : Unit} : Done checkDeadline st u st₁ ↔
    (st.deadline = none ∧ st₁ = st) ∨ ∃ d, st.deadline = some d ∧ d.expired.1 = false ∧
      st₁ = { st with deadline := some d.expired.2 } := by
  rw [checkDeadline, done_bind]
  constructor
  · rintro ⟨_, _, hget, h⟩
    obtain ⟨rfl, rfl⟩ := done_get.1 hget
    split at h
    · next hd => exact .inl ⟨hd, (done_pure.1 h).2.symm⟩
    · next d hd =>
      rcases hp : d.expired with ⟨late, d'⟩
      simp only [hp] at h
      obtain ⟨_, st₂, hmodify, h⟩ := done_bind.1 h
      obtain rfl := done_modify.1 hmodify
      cases late with
      | true => exact absurd h not_done_throw
      | false => exact .inr ⟨d, hd, by rw [hp], by rw [hp]; exact (done_pure.1 h).2.symm⟩
  · rintro (⟨hd, rfl⟩ | ⟨d, hd, hlate, rfl⟩)
    · refine ⟨_, _, done_get.2 ⟨rfl, rfl⟩, ?_⟩
      rw [hd]
      exact done_pure.2 ⟨rfl, rfl⟩
    · refine ⟨_, _, done_get.2 ⟨rfl, rfl⟩, ?_⟩
      rw [hd]
      rcases hp : d.expired with ⟨late, d'⟩
      obtain rfl : late = false := by simpa [hp] using hlate
      simp only [hp]
      exact done_bind.2 ⟨⟨⟩, _, done_modify.2 rfl, done_pure.2 ⟨rfl, rfl⟩⟩

theorem mirrors_checkDeadline : Mirrors ρ exact id checkDeadline checkDeadline := by
  constructor
  · intro I hI st u st₁ h hst
    rcases done_checkDeadline_iff.1 h with ⟨-, rfl⟩ | ⟨d, -, -, rfl⟩
    · exact hst
    · exact hI.congr (show _ = st.sink from rfl) rfl hst
  · intro st st' u st₁ hst h
    right
    rcases done_checkDeadline_iff.1 h with ⟨hnone, rfl⟩ | ⟨d, hd, hlate, rfl⟩
    · have hnone' : st'.deadline = none := hst.deadline.elim id fun h => h.trans hnone
      exact ⟨st', done_checkDeadline_iff.2 (.inl ⟨hnone', rfl⟩), hst⟩
    · rcases hst.deadline with hnone' | hsame
      · exact ⟨st', done_checkDeadline_iff.2 (.inl ⟨hnone', rfl⟩), { hst with deadline := .inl hnone' }⟩
      · exact ⟨_, done_checkDeadline_iff.2 (.inr ⟨d, hsame.trans hd, hlate, rfl⟩),
          { hst with deadline := .inr rfl }⟩

theorem calm_unknown {reason : String} {cause : UnknownCause} {i : Option NodeId}
    {position : Option Position} {x : NodeId} (h : Done (unknown reason cause i position) st x st₁) :
    st₁.sink = st.sink ∧ st₁.limit = st.limit := by
  simp only [unknown, done_bind] at h
  obtain ⟨j, st₂, hj, l, st₃, hl, h⟩ := h
  obtain ⟨-, rfl⟩ := done_location hl
  obtain ⟨-, rfl⟩ := done_add.1 h
  cases i with
  | some i =>
    obtain ⟨-, rfl⟩ := done_pure.1 hj
    exact ⟨rfl, rfl⟩
  | none =>
    obtain ⟨-, rfl⟩ := done_newId hj
    exact ⟨rfl, rfl⟩

theorem lasts_unknown {reason : String} {cause : UnknownCause} {i : Option NodeId}
    {position : Option Position} : Lasts (unknown reason cause i position) :=
  fun _ hI _ _ _ h hst => hI.congr (calm_unknown h).1 (calm_unknown h).2 hst

theorem limitNode_spec {x : NodeId} (h : Done (limitNode s) st x st₁) :
    st₁.limit.isSome ∧ ∀ I, Enduring I → I st → I st₁ := by
  simp only [limitNode, done_bind, done_get] at h
  obtain ⟨_, _, ⟨rfl, rfl⟩, h⟩ := h
  split at h
  · next x hx =>
    obtain ⟨rfl, rfl⟩ := done_pure.1 h
    exact ⟨by rw [hx]; rfl, fun _ _ hst => hst⟩
  · next hnone =>
    simp only [done_bind, done_modify, done_pure] at h
    obtain ⟨_, _, rfl, y, st₂, hy, _, _, rfl, rfl, rfl⟩ := h
    obtain ⟨hsink, -⟩ := calm_unknown hy
    refine ⟨rfl, fun I hI hst => ?_⟩
    exact @Enduring.congr I hI { st with sink := _, limit := some y } _ hsink rfl
      (hI.limit hnone rfl rfl hst)

theorem limited?_full {i x : Option NodeId} (h : Done (limited? s i) st x st₁)
    (hfull : ¬ (st.nodes.size : Int) < s.maxNodes) :
    st₁.limit.isSome ∧ ∀ I, Enduring I → I st → I st₁ := by
  obtain ⟨_, _, hget, h⟩ := done_bind.1 h
  obtain ⟨rfl, rfl⟩ := done_get.1 hget
  rw [if_neg hfull] at h
  obtain ⟨y, st₂, hy, h⟩ := done_bind.1 h
  have hspec := limitNode_spec hy
  cases i with
  | none =>
    obtain ⟨-, rfl⟩ := done_pure.1 h
    exact hspec
  | some i =>
    obtain ⟨z, st₃, hz, h⟩ := done_bind.1 h
    obtain ⟨-, rfl⟩ := done_pure.1 h
    obtain ⟨hsink, hlimit⟩ := calm_unknown hz
    exact ⟨hlimit ▸ hspec.1, fun I hI hst => hI.congr hsink hlimit (hspec.2 I hI hst)⟩

theorem done_limited?_iff {i x : Option NodeId} (hroom : (st.nodes.size : Int) < s.maxNodes) :
    Done (limited? s i) st x st₁ ↔ x = none ∧ st₁ = st := by
  constructor
  · intro h
    obtain ⟨_, _, hget, h⟩ := done_bind.1 h
    obtain ⟨rfl, rfl⟩ := done_get.1 hget
    rw [if_pos hroom] at h
    obtain ⟨rfl, rfl⟩ := done_pure.1 h
    exact ⟨rfl, rfl⟩
  · rintro ⟨rfl, rfl⟩
    refine done_bind.2 ⟨_, _, done_get.2 ⟨rfl, rfl⟩, ?_⟩
    rw [if_pos hroom]
    exact done_pure.2 ⟨rfl, rfl⟩

theorem mirrors_limited? (hs : s.Beside ρ s') (i : Option NodeId) :
    Mirrors ρ exact id (limited? s i) (limited? s' i) := by
  constructor
  · intro I hI st x st₁ h hst
    by_cases hroom : (st.nodes.size : Int) < s.maxNodes
    · obtain ⟨-, rfl⟩ := (done_limited?_iff hroom).1 h
      exact hst
    · exact (limited?_full h hroom).2 I hI hst
  · intro st st' x st₁ hst h
    by_cases hroom : (st.nodes.size : Int) < s.maxNodes
    · obtain ⟨rfl, rfl⟩ := (done_limited?_iff hroom).1 h
      have hroom' : (st'.nodes.size : Int) < s'.maxNodes := by
        rw [hst.nodes, ρ.size_arena]
        exact lt_of_lt_of_le hroom hs.maxNodes
      exact .inr ⟨st', (done_limited?_iff hroom').2 ⟨rfl, rfl⟩, hst⟩
    · exact .inl (.inl (limited?_full h hroom).1)

/-! ## Recursion -/

theorem mirrors_frameNamed? (name : String) (file : Option String) :
    Mirrors ρ exact (Option.map ρ.frame) (frameNamed? name file)
      (frameNamed? (ρ.name name) (file.map ρ.file)) := by
  refine mirrors_read fun st st' hst => ?_
  rw [hst.chain, List.find?_map]
  congr 2
  funext f
  cases file with
  | none => simp [Renaming.frame, Renaming.key, ρ.name_beq]
  | some file => simp [Renaming.frame, Renaming.key, ρ.name_beq, ρ.file_beq]

theorem mirrors_recursiveRef (f : Frame) (i : NodeId) (position : Option Position) (ts : List Tag) :
    Mirrors ρ exact id (recursiveRef f i position ts) (recursiveRef (ρ.frame f) i position ts) := by
  have hmark : Mirrors ρ exact id
      (modify fun st : State => { st with chain := markOuter f.body st.chain } : M PUnit)
      (modify fun st : State => { st with chain := markOuter f.body st.chain }) := by
    refine mirrors_modify (fun _ => ⟨rfl, rfl⟩) fun st st' hst => { hst with chain := ?_ }
    exact (congrArg _ hst.chain).trans (ρ.markOuter_map _ _)
  refine hmark.bind fun _ => (mirrors_location position).bind fun l => ?_
  exact mirrors_add { id := i, shape := .recursiveRef f.body f.key.name, tags := ts, location := l }

theorem mirrors_frameLabelled? (label : Option String) :
    Mirrors ρ exact (Option.map ρ.frame) (frameLabelled? label) (frameLabelled? (label.map ρ.name)) := by
  cases label with
  | none => exact mirrors_pure rfl
  | some name => exact mirrors_frameNamed? name none

theorem mirrors_backEdge (hs : s.Beside ρ s') (hρ : exact → ρ = .refl) (d : Description)
    (i : Option NodeId) (field : Option String) :
    Mirrors ρ exact id (backEdge s d i field) (backEdge s' (ρ.description d) i field) := by
  refine (mirrors_frameLabelled? d.label).bind fun found => ?_
  cases found with
  | some f => exact (mirrors_idOr i).bind fun j => mirrors_recursiveRef f j d.position []
  | none =>
    refine mirrors_current?.bind fun key => ?_
    refine (mirrors_report hs hρ (by decide) (fun h => ?_) _ _).bind fun _ => mirrors_unknown _ _ _ _
    obtain rfl := hρ h
    cases key <;> rfl

/-! ## Declarations -/

/-- The body of a declaration that may be shared in a state. -/
def State.shared? (sharing : Bool) (st : State) (key : DeclarationKey) : Option SharedBody :=
  (if sharing then st.bodies.find? fun b => b.key = key else none).filter
    fun b => !st.chain.any fun f => b.names.contains f.key

theorem sharedBody?_eq (s : Setting) (key : DeclarationKey) : sharedBody? s key = (do
    match ← (do return (← get).shared? s.sharing key : M (Option SharedBody)) with
    | none => return none
    | some b =>
      modify fun st => { st with chain := noteNames b.names st.chain }
      return some b.body) := by
  rw [sharedBody?, bind_assoc]
  refine congrArg (get >>= ·) (funext fun st => ?_)
  rw [pure_bind, State.shared?]
  cases if s.sharing then st.bodies.find? fun b => b.key = key else none with
  | none => rfl
  | some b =>
    rw [Option.filter_some]
    by_cases hany : st.chain.any fun f => b.names.contains f.key
    · simp only [hany, if_true, Bool.not_true]
      rfl
    · simp only [hany, Bool.not_false, if_true]
      rfl

theorem State.Beside.shared? (hst : State.Beside ρ exact st st') (sharing : Bool)
    (key : DeclarationKey) :
    st'.shared? sharing (ρ.key key) = (st.shared? sharing key).map ρ.sharedBody := by
  have hfind : (st'.bodies.find? fun b => b.key = ρ.key key) =
      (st.bodies.find? fun b => b.key = key).map ρ.sharedBody := by
    rw [hst.bodies, List.find?_map]
    congr 2
    funext b
    simp [Renaming.sharedBody, ρ.key_injective.eq_iff]
  have hany (b : SharedBody) : (st'.chain.any fun f => (ρ.sharedBody b).names.contains f.key) =
      st.chain.any fun f => b.names.contains f.key := by
    rw [hst.chain, List.any_map]
    congr 1
    funext f
    exact ρ.contains_names b.names f.key
  rw [State.shared?, State.shared?, hfind]
  cases sharing with
  | false => rfl
  | true =>
    simp only [if_true]
    cases st.bodies.find? fun b => b.key = key with
    | none => rfl
    | some b =>
      rw [Option.map_some, Option.filter_some, Option.filter_some, hany]
      split <;> rfl

theorem mirrors_sharedBody? (hs : s.Beside ρ s') (key : DeclarationKey) :
    Mirrors ρ exact id (sharedBody? s key) (sharedBody? s' (ρ.key key)) := by
  rw [sharedBody?_eq, sharedBody?_eq, hs.sharing]
  refine (mirrors_read fun st st' hst => hst.shared? s.sharing key).bind fun found => ?_
  cases found with
  | none => exact mirrors_pure rfl
  | some b =>
    dsimp only [Option.map_some]
    refine Mirrors.bind (mirrors_modify (fun _ => ⟨rfl, rfl⟩) fun st st' hst => ?_) fun _ =>
      mirrors_pure rfl
    exact { hst with chain := (congrArg _ hst.chain).trans (ρ.noteNames_map _ _) }

theorem mirrors_enter (d : Declaration) :
    Mirrors ρ exact id (enter d) (enter (ρ.declaration d)) := by
  refine mirrors_newId.bind fun body => ?_
  refine mirrors_of_runs (fun _ => rfl) (fun _ => rfl) (fun _ hI _ => hI.congr rfl rfl)
    fun st st' hst => ⟨rfl, { hst with chain := ?_, scopes := congrArg (· + 1) hst.scopes }⟩
  rw [List.map_cons, hst.chain]
  rfl

theorem mirrors_leave (key : DeclarationKey) (body : NodeId) :
    Mirrors ρ exact id (leave key body) (leave (ρ.key key) body) := by
  refine mirrors_modify (fun st => ?_) fun st st' hst => ?_
  · split <;> exact ⟨rfl, rfl⟩
  · cases hchain : st.chain with
    | nil => simpa [hst.chain, hchain] using hst
    | cons f rest =>
      simp only [hst.chain, hchain, List.map_cons]
      refine { hst with chain := ?_, bodies := ?_ }
      · exact ρ.noteNames_map _ _
      · rw [hst.bodies]
        by_cases hempty : f.outer.isEmpty
        · simp [hempty, Renaming.frame, Renaming.sharedBody]
        · simp [hempty, Renaming.frame]

theorem mirrors_lookup (hs : s.Beside ρ s') (key : DeclarationKey) :
    Mirrors ρ exact (Option.map ρ.declaration) (lookup s key) (lookup s' (ρ.key key)) := by
  refine Mirrors.bind (mirrors_modify (fun _ => ⟨rfl, rfl⟩) fun _ _ hst => { hst with }) fun _ => ?_
  cases hd : s.source.lookup key with
  | ok d =>
    rw [hs.lookup key d hd]
    exact mirrors_pure rfl
  | error e => exact mirrors_throw

abbrev FollowsAlong (ρ : Renaming) (exact : Prop) (follow follow' : Follow) : Prop :=
  ∀ site d i ts field,
    Mirrors ρ exact id (follow site d i ts field) (follow' (ρ.site site) d i ts field)

theorem mirrors_declaration (hs : s.Beside ρ s') (hρ : exact → ρ = .refl) {follow follow' : Follow}
    (hf : FollowsAlong ρ exact follow follow') (d : Declaration) :
    Mirrors ρ exact id (declaration s follow d) (declaration s' follow' (ρ.declaration d)) := by
  refine (mirrors_enter d).bind fun body => ?_
  refine mirrors_get_bind (fun st st' => st'.scopes = st.scopes) (fun _ _ hst => hst.scopes)
    (fun _ => rfl) fun st st' hscopes => ?_
  refine (mirrors_tags hs hρ _ _ _).bind fun ts => ?_
  rw [hs.shared, hscopes]
  refine (hf _ d.type (some body) ts none).bind fun _ => ?_
  exact (mirrors_leave d.key body).bind fun _ => mirrors_pure rfl

theorem mirrors_bodyOf (hs : s.Beside ρ s') (hρ : exact → ρ = .refl) {follow follow' : Follow}
    (hf : FollowsAlong ρ exact follow follow') (name by_ name' by_' : String) (d : Declaration) :
    Mirrors ρ exact id (bodyOf s follow name by_ d)
      (bodyOf s' follow' name' by_' (ρ.declaration d)) := by
  refine (mirrors_sharedBody? hs d.key).bind fun found => ?_
  cases found with
  | some body => exact mirrors_pure rfl
  | none =>
    exact Mirrors.bind (mirrors_modify (fun _ => ⟨rfl, rfl⟩) fun _ _ hst => { hst with }) fun _ =>
      mirrors_declaration hs hρ hf d

/-- After an error has been reported, the reason for an unknown node matters only if the walks must
agree in what they report. -/
theorem mirrors_unknown_after {m m' : M PUnit} (hm : Mirrors ρ exact id m m')
    (herror : ∀ st u st₁, Done m st u st₁ → st₁.sink.hasErrors) {reason reason' : String}
    (hreason : exact → reason' = reason) (cause : UnknownCause) (i : Option NodeId)
    (position : Option Position) :
    Mirrors ρ exact id (do m; unknown reason cause i position)
      (do m'; unknown reason' cause i position) := by
  by_cases h : exact
  · rw [hreason h]
    exact hm.bind fun _ => mirrors_unknown _ _ _ _
  · refine mirrors_of_lost (hm.lasts.bind fun _ => lasts_unknown) fun st x st₁ hx => .inr ⟨h, ?_⟩
    obtain ⟨u, st₂, hu, hx⟩ := done_bind.1 hx
    rw [(calm_unknown hx).1]
    exact herror _ _ _ hu

theorem mirrors_reference (hs : s.Beside ρ s') (hρ : exact → ρ = .refl) {follow follow' : Follow}
    (hf : FollowsAlong ρ exact follow follow') (name : String) (file : Option String)
    (position : Option Position) (i : NodeId) (ts : List Tag) (field : Option String) :
    Mirrors ρ exact id (reference s follow name file position i ts field)
      (reference s' follow' (ρ.name name) (file.map ρ.file) position i ts field) := by
  refine mirrors_current?.bind fun here => ?_
  have hhere : (here.map ρ.key).getD ⟨"", ""⟩ = ρ.key (here.getD ⟨"", ""⟩) := by
    cases here with
    | none => exact ρ.key_empty.symm
    | some k => rfl
  set default := here.getD ⟨"", ""⟩
  have hfile : (file.map ρ.file).getD (ρ.key default).file = ρ.file (file.getD default.file) := by
    cases file <;> rfl
  rw [hhere]
  dsimp only
  rw [hfile]
  refine Mirrors.bind (mirrors_modify (fun _ => ?_) fun st st' hst => ?_) fun _ => ?_
  · split <;> exact ⟨rfl, rfl⟩
  · have hlength : st'.chain.length = st.chain.length := by rw [hst.chain, List.length_map]
    have hinsert (h : exact) :
        st'.dependencies.insert (ρ.name name) = st.dependencies.insert name := by
      obtain rfl := hρ h
      exact congrArg (·.insert name) (hst.dependencies h)
    by_cases hone : st.chain.length = 1
    · rw [if_pos hone, if_pos (hlength.trans hone)]
      exact { hst with dependencies := hinsert }
    · rw [if_neg hone, if_neg (hlength ▸ hone)]
      exact hst
  have hfound : Mirrors ρ exact (Option.map ρ.frame) (frameNamed? name (some (file.getD default.file)))
      (frameNamed? (ρ.name name) (some (ρ.file (file.getD default.file)))) :=
    mirrors_frameNamed? name (some _)
  refine hfound.bind fun found => ?_
  cases found with
  | some f => exact mirrors_recursiveRef f i position ts
  | none =>
    refine (mirrors_lookup hs ⟨file.getD default.file, name⟩).bind fun d => ?_
    cases d with
    | none =>
      have hname (h : exact) : ρ.name name = name := by
        rw [hρ h]
        rfl
      have hreport : Mirrors ρ exact id (report s .typeUnresolved [name] position field)
          (report s' .typeUnresolved [ρ.name name] position field) :=
        mirrors_report hs hρ (by decide) (fun h => congrArg (fun n => [n]) (hname h)) position field
      refine mirrors_unknown_after hreport (fun st u st₁ hu => ?_) (fun h => ?_) _ _ _
      · obtain ⟨d, herror, rfl⟩ := exists_report hu
        rw [Sink.hasErrors_emit, herror]
        exact Bool.or_true _
      · rw [hname h]
    | some d =>
      refine (mirrors_bodyOf hs hρ hf name _ _ _ d).bind fun target => ?_
      refine (mirrors_location position).bind fun l => ?_
      exact mirrors_add { id := i, shape := .reference target name, tags := ts, location := l }

/-! ## Descriptions -/

theorem mirrors_fieldType (hs : s.Beside ρ s') (hρ : exact → ρ = .refl) {follow follow' : Follow}
    (hf : FollowsAlong ρ exact follow follow') (site : Site) (f : FieldDescription) :
    Mirrors ρ exact id (fieldType s follow site f) (fieldType s' follow' (ρ.site site) f) := by
  unfold fieldType
  cases f.type with
  | none => exact mirrors_unsupported hs hρ _ _ _ _ _
  | some d => exact hf _ _ _ _ _

theorem mirrors_field (hs : s.Beside ρ s') (hρ : exact → ρ = .refl) {follow follow' : Follow}
    (hf : FollowsAlong ρ exact follow follow') (site : Site) (f : Attempt FieldDescription) :
    Mirrors ρ exact ρ.field (field s follow site f) (field s' follow' (ρ.site site) f) := by
  refine (mirrors_lift_id f).bind fun f => ?_
  refine (mirrors_tags hs hρ _ _ _).bind fun ts => ?_
  refine (mirrors_fieldType hs hρ hf site f).bind fun type => ?_
  exact (mirrors_location _).bind fun l => mirrors_pure rfl

theorem mirrors_build (hs : s.Beside ρ s') (hρ : exact → ρ = .refl) {follow follow' : Follow}
    (hf : FollowsAlong ρ exact follow follow') (site : Site) (d : Description) (i : NodeId)
    (ts : List Tag) (field : Option String) :
    Mirrors ρ exact id (build s follow site d i ts field)
      (build s' follow' (ρ.site site) (ρ.description d) i ts field) := by
  have hnode (shape : Shape) : Mirrors ρ exact id
      (do add { id := i, shape, tags := ts, location := ← location d.position })
      (do add { id := i, shape := ρ.shape shape, tags := ts, location := ← location d.position }) :=
    (mirrors_location _).bind fun l => mirrors_add { id := i, shape, tags := ts, location := l }
  have hchild (c : DescriptionId) := hf site c none [] field
  have hchildren (cs : List DescriptionId) := mirrors_mapM hchild cs
  simp only [List.map_id_fun] at hchildren
  unfold build
  dsimp only [Renaming.description]
  cases hshape : d.shape with
  | primitive p => exact hnode _
  | literal k v => exact hnode _
  | array e => exact (hchild e).bind fun c => hnode (.array c)
  | tuple es => exact (hchildren es).bind fun cs => hnode (.tuple cs)
  | object fs =>
    exact (mirrors_mapM (mirrors_field hs hρ hf site) fs).bind fun fs => hnode (.object fs)
  | union ms => exact (hchildren ms).bind fun cs => hnode (.union cs none)
  | intersection ms => exact (hchildren ms).bind fun cs => hnode (.intersection cs)
  | enum ms =>
    refine (mirrors_lift_id (enumMembers ms)).bind fun found => ?_
    cases found with
    | ok ms => exact hnode (.enum ms)
    | error detail => exact mirrors_unsupported hs hρ _ _ _ _ _
  | reference name file => exact mirrors_reference hs hρ hf name file d.position i ts field
  | unsupported construct detail => exact mirrors_unsupported hs hρ _ _ _ _ _

theorem mirrors_follow (hs : s.Beside ρ s') (hρ : exact → ρ = .refl) (fuel : ℕ) :
    FollowsAlong ρ exact (follow s fuel) (follow s' fuel) := by
  induction fuel with
  | zero => exact fun _ _ _ _ _ => mirrors_throw
  | succ fuel ih =>
    intro site d i ts field
    rw [follow, follow]
    refine mirrors_checkDeadline.bind fun _ => (mirrors_limited? hs i).bind fun limit => ?_
    cases limit with
    | some limit => exact mirrors_pure rfl
    | none =>
      refine mirrors_get_bind (fun st st' => st'.active = st.active) (fun _ _ hst => hst.active)
        (fun _ => rfl) fun st st' hactive => ?_
      have hget : Mirrors ρ exact ρ.description (liftM (site.types.get d))
          (liftM ((ρ.site site).types.get d)) := by
        rw [Renaming.site, ρ.get_descriptions]
        exact mirrors_lift _
      rw [hactive, show (ρ.site site).scope = site.scope from rfl]
      by_cases hmark : st.active.contains (site.scope, d)
      · rw [if_pos hmark, if_pos hmark]
        exact hget.bind fun e => mirrors_backEdge hs hρ e i field
      · rw [if_neg hmark, if_neg hmark]
        refine Mirrors.bind (mirrors_modify (fun _ => ⟨rfl, rfl⟩) fun st st' hst => ?_) fun _ => ?_
        · exact { hst with active := congrArg ((site.scope, d) :: ·) hst.active }
        refine (mirrors_idOr i).bind fun j => hget.bind fun e => ?_
        refine (mirrors_build hs hρ ih site e j ts field).bind fun x => ?_
        refine Mirrors.bind (mirrors_modify (fun _ => ⟨rfl, rfl⟩) fun st st' hst => ?_) fun _ =>
          mirrors_pure rfl
        exact { hst with active := congrArg (List.erase · _) hst.active }

/-- The walks from a symbol go along with each other. -/
theorem mirrors_root (hs : s.Beside ρ s') (hρ : exact → ρ = .refl) (file : String) :
    Mirrors ρ exact id (root s file) (root s' (ρ.file file)) := by
  unfold root
  rw [hs.symbol, hs.depth]
  refine (mirrors_lookup hs ⟨file, s.symbol⟩).bind fun d => ?_
  cases d with
  | some d => exact mirrors_declaration hs hρ (mirrors_follow hs hρ _) d
  | none =>
    dsimp only [Option.map_none]
    have hname (h : exact) : ρ.name s.symbol = s.symbol ∧ ρ.file file = file := by
      rw [hρ h]
      exact ⟨rfl, rfl⟩
    refine mirrors_unknown_after ?_ (fun st u st₁ hu => ?_) (fun h => ?_) _ _ _
    · refine mirrors_emit ?_ rfl fun h => ?_
      · show DiagnosticKey.typeUnresolved.code ≠ DiagnosticKey.resolutionLimit.code
        decide
      · rw [(hname h).1, (hname h).2]
    · obtain rfl := done_modify.1 hu
      rw [Sink.hasErrors_emit]
      exact Bool.or_true _
    · rw [(hname h).1]

/-! ## Resolutions -/

variable {deadline deadline' : Option Deadline}

theorem State.beside_initial (h : deadline' = none ∨ deadline' = deadline) :
    State.Beside ρ exact { deadline } { deadline := deadline' } where
  sink _ := rfl
  hasErrors := rfl
  nodes := by
    refine Std.ExtTreeMap.ext_getElem? fun k => ?_
    rw [ρ.getElem?_arena]
    simp
  counter := rfl
  chain := rfl
  bodies := rfl
  active := rfl
  scopes := rfl
  dependencies _ := rfl
  limit := rfl
  limit' := rfl
  deadline := h

theorem State.Beside.graph (hst : State.Beside ρ exact st st') (hs : s.Beside ρ s')
    (hρ : exact → ρ = .refl) (root : NodeId) (file : String) :
    Graph.Beside ρ exact ⟨root, st.nodes, s.symbol, file, st.dependencies.toList⟩
      ⟨root, st'.nodes, s'.symbol, ρ.file file, st'.dependencies.toList⟩ where
  root := rfl
  nodes := hst.nodes
  same h := by
    obtain rfl := hρ h
    rw [hst.nodes, Renaming.arena_refl, hs.symbol, hst.dependencies h]
    rfl

end Resolution

end TypeAtlas
