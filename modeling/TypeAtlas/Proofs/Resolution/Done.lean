import TypeAtlas.Resolution.Basic
import Mathlib.Data.List.Forall2

/-! # Steps of a walk

When a walk ends without a fault, so do the steps that it is composed of, one after the other. Put together
again, they lead from a declaration whose description has no parts to a graph of a single node, within any
budget.
-/

namespace TypeAtlas.Resolution

variable {α β : Type} {st st' st'' : State}

/-- A step of a walk ends in a value and a state. -/
abbrev Done (m : M α) (st : State) (x : α) (st' : State) : Prop := m.run.run st = (.ok x, st')

theorem done_pure {x y : α} : Done (pure x) st y st' ↔ x = y ∧ st = st' := by
  change ((.ok x, st) : Except Fault α × State) = (.ok y, st') ↔ _
  simp

/-- A step of a walk ends in a fault. -/
abbrev Faults (m : M α) (st : State) (e : Fault) : Prop := ∃ st', m.run.run st = (.error e, st')

theorem done_or_faults (m : M α) (st : State) : (∃ x st', Done m st x st') ∨ ∃ e, Faults m st e := by
  rcases h : m.run.run st with ⟨_ | _, st'⟩
  · exact .inr ⟨_, _, h⟩
  · exact .inl ⟨_, _, h⟩

theorem Done.not_faults {m : M α} {x : α} {e : Fault} (h : Done m st x st') : ¬ Faults m st e := by
  rintro ⟨st₁, he⟩
  cases h.symm.trans he

theorem Done.run_bind {m : M α} {f : α → M β} {x : α} (h : Done m st x st') :
    (m >>= f).run.run st = (f x).run.run st' := by
  rw [ExceptT.run_bind, StateT.run_bind, h]
  rfl

theorem Faults.bind {m : M α} {f : α → M β} {e : Fault} (h : Faults m st e) :
    Faults (m >>= f) st e := by
  obtain ⟨st', h⟩ := h
  refine ⟨st', ?_⟩
  rw [ExceptT.run_bind, StateT.run_bind, h]
  rfl

theorem done_bind {m : M α} {f : α → M β} {y : β} :
    Done (m >>= f) st y st'' ↔ ∃ x st', Done m st x st' ∧ Done (f x) st' y st'' := by
  constructor
  · intro h
    rcases done_or_faults m st with ⟨x, st', hx⟩ | ⟨e, he⟩
    · exact ⟨x, st', hx, hx.run_bind.symm.trans h⟩
    · exact absurd he.bind h.not_faults
  · rintro ⟨x, st', hx, h⟩
    exact hx.run_bind.trans h

theorem done_get {x : State} : Done get st x st' ↔ st = x ∧ st = st' := by
  change ((.ok st, st) : Except Fault State × State) = (.ok x, st') ↔ _
  simp

theorem done_modify {f : State → State} {x : PUnit} : Done (modify f) st x st' ↔ st' = f st := by
  change ((.ok ⟨⟩, f st) : Except Fault PUnit × State) = (.ok x, st') ↔ _
  simp [eq_comm]

theorem not_done_throw {e : Fault} {x : α} : ¬ Done (throw e) st x st' := by
  change ¬ ((.error e, st) : Except Fault α × State) = (.ok x, st')
  simp

theorem done_lift {m : Attempt α} {x : α} : Done (liftM m : M α) st x st' ↔ m = .ok x ∧ st = st' := by
  cases m with
  | error e =>
    change ((.error e, st) : Except Fault α × State) = (.ok x, st') ↔ _
    simp
  | ok y =>
    change ((.ok y, st) : Except Fault α × State) = (.ok x, st') ↔ _
    simp [eq_comm]

/-! ## Lists -/

/-- One step for each item, one after the other. -/
inductive Sequence (f : α → M β) : List α → State → List β → State → Prop
  | nil {st : State} : Sequence f [] st [] st
  | cons {x : α} {xs : List α} {y : β} {ys : List β} {st st' st'' : State} (h : Done (f x) st y st')
      (hs : Sequence f xs st' ys st'') : Sequence f (x :: xs) st (y :: ys) st''

theorem done_mapM {f : α → M β} {xs : List α} {ys : List β} :
    Done (xs.mapM f) st ys st' ↔ Sequence f xs st ys st' := by
  induction xs generalizing st ys with
  | nil =>
    rw [List.mapM_nil, done_pure]
    constructor
    · rintro ⟨rfl, rfl⟩
      exact .nil
    · intro h
      cases h
      exact ⟨rfl, rfl⟩
  | cons x xs ih =>
    simp only [List.mapM_cons, done_bind, done_pure]
    constructor
    · rintro ⟨y, st₁, hy, ys, st₂, hys, rfl, rfl⟩
      exact .cons hy (ih.1 hys)
    · intro h
      cases h with
      | cons hy hys => exact ⟨_, _, hy, _, _, ih.2 hys, rfl, rfl⟩

/-! ## What a walk reads -/

section Reading

variable (s : Setting)

def State.current (st : State) : Option DeclarationKey := st.chain.head?.map Frame.key

def locationAt : Option DeclarationKey → Option Position → Option SourceLocation
  | some key, some p => some ⟨key.file, p.line, p.column⟩
  | _, _ => none

def placeAt (key : Option DeclarationKey) (position : Option Position) : Place where
  filePath := key.map DeclarationKey.file
  line := position.bind Position.line
  column := position.bind Position.column
  symbol := some s.symbol

/-- The tags of a comment in a declaration, if it can be read. -/
def tagsAt (key : Option DeclarationKey) (comment field : Option String)
    (position : Option Position) : List Tag :=
  match comment with
  | none => []
  | some "" => []
  | some text => ((readTags (some text) s.vocabulary (key.map DeclarationKey.name) field
      (some (placeAt s key position))).toOption.bind Outcome.value).getD []

/-- A state that differs from another at most in diagnostics, events, dependencies and the clock. -/
structure Calm (st st' : State) : Prop where
  nodes : st'.nodes = st.nodes
  counter : st'.counter = st.counter
  chain : st'.chain = st.chain
  bodies : st'.bodies = st.bodies
  active : st'.active = st.active
  scopes : st'.scopes = st.scopes
  limit : st'.limit = st.limit

theorem Calm.refl (st : State) : Calm st st := ⟨rfl, rfl, rfl, rfl, rfl, rfl, rfl⟩

theorem Calm.trans (h : Calm st st') (h' : Calm st' st'') : Calm st st'' :=
  ⟨h'.nodes.trans h.nodes, h'.counter.trans h.counter, h'.chain.trans h.chain,
    h'.bodies.trans h.bodies, h'.active.trans h.active, h'.scopes.trans h.scopes,
    h'.limit.trans h.limit⟩

theorem Calm.current (h : Calm st st') : st'.current = st.current := by
  rw [State.current, h.chain, State.current]

variable {s} {position : Option Position}

theorem done_current? {key : Option DeclarationKey} :
    Done current? st key st' ↔ key = st.current ∧ st = st' := by
  simp only [current?, done_bind, done_get, done_pure]
  constructor
  · rintro ⟨x, st₁, ⟨rfl, rfl⟩, rfl, rfl⟩
    exact ⟨rfl, rfl⟩
  · rintro ⟨rfl, rfl⟩
    exact ⟨_, _, ⟨rfl, rfl⟩, rfl, rfl⟩

theorem done_place {p : Place} (h : Done (place s position) st p st') :
    p = placeAt s st.current position ∧ st = st' := by
  simp only [place, done_bind, done_current?, done_pure] at h
  obtain ⟨key, st₁, ⟨rfl, rfl⟩, rfl, rfl⟩ := h
  exact ⟨rfl, rfl⟩

theorem done_location {l : Option SourceLocation} (h : Done (location position) st l st') :
    l = locationAt st.current position ∧ st = st' := by
  simp only [location, done_bind, done_current?] at h
  obtain ⟨key, st₁, ⟨rfl, rfl⟩, h⟩ := h
  cases position <;> cases hc : st.current <;>
    simp only [hc] at h <;> obtain ⟨rfl, rfl⟩ := done_pure.1 h <;> exact ⟨rfl, rfl⟩

theorem done_report {key : DiagnosticKey} {args : List String} {field : Option String} {u : Unit}
    (h : Done (report s key args position field) st u st') : Calm st st' := by
  simp only [report, done_bind, done_current?, done_modify] at h
  obtain ⟨k, st₁, ⟨rfl, rfl⟩, p, st₂, hp, rfl⟩ := h
  obtain ⟨-, rfl⟩ := done_place hp
  exact ⟨rfl, rfl, rfl, rfl, rfl, rfl, rfl⟩

theorem done_tags {comment field : Option String} {ts : List Tag}
    (h : Done (tags s comment field position) st ts st') :
    ts = tagsAt s st.current comment field position ∧ Calm st st' := by
  unfold tags at h
  unfold tagsAt
  split
  · obtain ⟨rfl, rfl⟩ := done_pure.1 h
    exact ⟨rfl, .refl _⟩
  · obtain ⟨rfl, rfl⟩ := done_pure.1 h
    exact ⟨rfl, .refl _⟩
  · next text hne =>
    simp only [done_bind, done_current?, done_lift, done_modify, done_pure] at h
    obtain ⟨k, st₁, ⟨rfl, rfl⟩, p, st₂, hp, o, st₃, ⟨ho, rfl⟩, u, st₄, rfl, rfl, rfl⟩ := h
    obtain ⟨rfl, rfl⟩ := done_place hp
    rw [ho]
    exact ⟨rfl, rfl, rfl, rfl, rfl, rfl, rfl, rfl⟩

theorem done_checkDeadline {u : Unit} (h : Done checkDeadline st u st') : Calm st st' := by
  simp only [checkDeadline, done_bind, done_get] at h
  obtain ⟨st₁, st₂, ⟨rfl, rfl⟩, h⟩ := h
  split at h
  · obtain ⟨-, rfl⟩ := done_pure.1 h
    exact .refl _
  · simp only [done_bind, done_modify] at h
    obtain ⟨u, st₁, rfl, h⟩ := h
    split at h
    · exact absurd h not_done_throw
    · obtain ⟨-, rfl⟩ := done_pure.1 h
      exact ⟨rfl, rfl, rfl, rfl, rfl, rfl, rfl⟩

theorem done_lookup {key : DeclarationKey} {d : Option Declaration}
    (h : Done (lookup s key) st d st') : s.source.lookup key = .ok d ∧ Calm st st' := by
  simp only [lookup, done_bind, done_modify] at h
  obtain ⟨u, st₁, rfl, h⟩ := h
  split at h
  · next d' hd =>
    obtain ⟨rfl, rfl⟩ := done_pure.1 h
    exact ⟨hd, rfl, rfl, rfl, rfl, rfl, rfl, rfl⟩
  · exact absurd h not_done_throw

theorem done_lookup_iff {key : DeclarationKey} {d d' : Option Declaration}
    (hd : s.source.lookup key = .ok d) : Done (lookup s key) st d' st' ↔
      d' = d ∧ st' = { st with events := st.events.push (.asked key) } := by
  simp only [lookup, done_bind, done_modify, hd, done_pure]
  constructor
  · rintro ⟨_, _, rfl, rfl, rfl⟩
    exact ⟨rfl, rfl⟩
  · rintro ⟨rfl, rfl⟩
    exact ⟨⟨⟩, _, rfl, rfl, rfl⟩

/-- A look-up gives the declaration of the name in the file that was asked for. -/
def Faithful (source : DeclarationSource) : Prop :=
  ∀ k d, source.lookup k = .ok (some d) → d.key = k

theorem done_frameNamed? {name : String} {file : Option String} {f : Option Frame}
    (h : Done (frameNamed? name file) st f st') :
    f = (st.chain.find? fun f => f.key.name == name && file.all (f.key.file == ·)) ∧ st = st' := by
  simp only [frameNamed?, done_bind, done_get, done_pure] at h
  obtain ⟨st₁, st₂, ⟨rfl, rfl⟩, rfl, rfl⟩ := h
  exact ⟨rfl, rfl⟩

theorem done_frameNamed?_some {name file : String} {f : Frame}
    (h : Done (frameNamed? name (some file)) st (some f) st') :
    f ∈ st.chain ∧ f.key = ⟨file, name⟩ ∧ st = st' := by
  obtain ⟨hf, rfl⟩ := done_frameNamed? h
  have hkey := List.find?_some hf.symm
  simp only [Option.all_some, Bool.and_eq_true, beq_iff_eq] at hkey
  obtain ⟨rfl, rfl⟩ := hkey
  exact ⟨List.mem_of_find?_eq_some hf.symm, rfl, rfl⟩

theorem done_frameNamed?_none {name file : String}
    (h : Done (frameNamed? name (some file)) st none st') :
    (∀ f ∈ st.chain, f.key ≠ ⟨file, name⟩) ∧ st = st' := by
  obtain ⟨hnone, rfl⟩ := done_frameNamed? h
  refine ⟨fun f hf he => List.find?_eq_none.1 hnone.symm f hf ?_, rfl⟩
  simp [he]

end Reading

/-- A resolution that ends gives the graph that its walk has left behind. -/
theorem exists_done_of_resolve {source : DeclarationSource} {vocabulary : Vocabulary} {maxNodes : Int}
    {file symbol : String} {deadline : Option Deadline} {sharing : Bool} {o : Outcome Graph}
    (h : (resolve source vocabulary maxNodes file symbol deadline sharing).1 = .ok o) :
    ∃ r st, Done (root ⟨source, vocabulary, maxNodes, symbol, sharing⟩ file) { deadline } r st ∧
      o = st.sink.outcome (some ⟨r, st.nodes, symbol, file, st.dependencies.toList⟩) := by
  rcases hrun : (root ⟨source, vocabulary, maxNodes, symbol, sharing⟩ file).run { deadline } with
    ⟨_ | r, st⟩
  · simp only [resolve, hrun] at h
    cases h
  · simp only [resolve, hrun, Except.ok.injEq] at h
    exact ⟨r, st, hrun, h.symm⟩

theorem resolve_of_done {s : Setting} {file : String} {deadline : Option Deadline} {r : NodeId}
    {st : State} (h : Done (root s file) { deadline } r st) :
    (resolve s.source s.vocabulary s.maxNodes file s.symbol deadline s.sharing).1 =
        .ok (st.sink.outcome (some ⟨r, st.nodes, s.symbol, file, st.dependencies.toList⟩)) ∧
      (resolve s.source s.vocabulary s.maxNodes file s.symbol deadline s.sharing).2.deadline =
        st.deadline := by
  have hrun : (root s file).run { deadline } = (.ok r, st) := h
  constructor
  · simp only [resolve, hrun]
  · simp only [resolve, hrun]

theorem exists_graph_of_any {result : Attempt (Outcome Graph)} {p : Graph → Bool}
    (h : (result.toOption.bind Outcome.value).any p = true) :
    ∃ o g, result = .ok o ∧ o.value = some g ∧ p g = true := by
  cases result with
  | error e => cases h
  | ok o =>
    cases hg : o.value with
    | none => simp [Except.toOption, hg] at h
    | some g => exact ⟨o, g, rfl, hg, by simpa [Except.toOption, hg] using h⟩

end TypeAtlas.Resolution

/-! ## Types without parts -/

namespace TypeAtlas

/-- The node of a description that has no parts. -/
def DescriptionShape.single? : DescriptionShape → Option Shape
  | .primitive p => some (.primitive p)
  | .literal k v => some (.literal k v)
  | .unsupported construct detail => some (.unknown (Construct.describe construct detail) .unsupported)
  | _ => none

namespace Resolution

variable {s : Setting} {st : State} {position : Option Position} {id : NodeId} {d : DescriptionId}
  {x : Description} {shape : Shape}

theorem Done.bind {α β : Type} {m : M α} {f : α → M β} {st st' st'' : State} {x : α} {y : β}
    (hm : Done m st x st') (hf : Done (f x) st' y st'') : Done (m >>= f) st y st'' :=
  done_bind.2 ⟨x, st', hm, hf⟩

theorem done_get_self : Done get st st st := done_get.2 ⟨rfl, rfl⟩

theorem done_current : Done current? st st.current st := done_current?.2 ⟨rfl, rfl⟩

theorem done_location_at (position : Option Position) :
    Done (location position) st (locationAt st.current position) st := by
  apply done_current.bind
  cases position <;> cases st.current <;> exact done_pure.2 ⟨rfl, rfl⟩

theorem done_place_at (position : Option Position) :
    Done (place s position) st (placeAt s st.current position) st :=
  done_current.bind (done_pure.2 ⟨rfl, rfl⟩)

theorem exists_done_report (s : Setting) (st : State) (key : DiagnosticKey) (args : List String)
    (position : Option Position) (field : Option String) :
    ∃ st', Done (report s key args position field) st ⟨⟩ st' ∧ Calm st st' := by
  unfold report
  exact ⟨_, done_current.bind ((done_place_at position).bind (done_modify.2 rfl)), rfl, rfl, rfl, rfl, rfl, rfl,
    rfl⟩

theorem done_add_node (shape : Shape) (position : Option Position) :
    Done (do add { id, shape, location := ← location position }) st id
      { st with nodes := st.nodes.insert id ⟨id, shape, [], locationAt st.current position⟩ } := by
  apply (done_location_at position).bind
  apply Done.bind (x := ⟨⟩) (done_modify.2 rfl)
  exact done_pure.2 ⟨rfl, rfl⟩

theorem exists_done_build (s : Setting) (follow : Follow) (site : Site) (st : State) (id : NodeId)
    (field : Option String) (hshape : x.shape.single? = some shape) :
    ∃ st', Done (build s follow site x id [] field) st id st' ∧
      st'.nodes = st.nodes.insert id ⟨id, shape, [], locationAt st.current x.position⟩ := by
  obtain ⟨shape', label, position⟩ := x
  cases shape' with
  | primitive p =>
    obtain rfl := Option.some.inj hshape
    exact ⟨_, done_add_node _ position, rfl⟩
  | literal k v =>
    obtain rfl := Option.some.inj hshape
    exact ⟨_, done_add_node _ position, rfl⟩
  | unsupported construct detail =>
    obtain rfl := Option.some.inj hshape
    obtain ⟨st₁, hreport, hcalm⟩ := exists_done_report s st .typeUnsupported
      [Construct.describe construct detail] position field
    refine ⟨_, hreport.bind (Done.bind (done_pure.2 ⟨rfl, rfl⟩) (done_add_node _ position)), ?_⟩
    simp only [hcalm.nodes, hcalm.current]
  | _ => cases hshape

theorem done_checkDeadline_none (h : st.deadline = none) : Done checkDeadline st ⟨⟩ st := by
  apply done_get_self.bind
  rw [h]
  exact done_pure.2 ⟨rfl, rfl⟩

theorem done_limited_none (h : (st.nodes.size : Int) < s.maxNodes) (id : Option NodeId) :
    Done (limited? s id) st none st := by
  apply done_get_self.bind
  rw [if_pos h]
  exact done_pure.2 ⟨rfl, rfl⟩

theorem exists_done_follow (fuel : Nat) (site : Site) (st : State) (id : NodeId) (field : Option String)
    (hdeadline : st.deadline = none) (hbudget : (st.nodes.size : Int) < s.maxNodes)
    (hactive : (site.scope, d) ∉ st.active) (htype : site.types.get d = .ok x)
    (hshape : x.shape.single? = some shape) :
    ∃ st', Done (follow s (fuel + 1) site d (some id) [] field) st id st' ∧
      st'.nodes = st.nodes.insert id ⟨id, shape, [], locationAt st.current x.position⟩ := by
  obtain ⟨st', hbuild, hnodes⟩ := exists_done_build s (follow s fuel) site
    { st with active := (site.scope, d) :: st.active } id field hshape
  refine ⟨{ st' with active := st'.active.erase (site.scope, d) }, ?_, hnodes⟩
  unfold follow
  apply (done_checkDeadline_none hdeadline).bind
  apply (done_limited_none hbudget _).bind
  apply done_get_self.bind
  rw [if_neg (by simpa using hactive), htype]
  apply Done.bind (x := ⟨⟩) (done_modify.2 rfl)
  apply Done.bind (done_pure.2 ⟨rfl, rfl⟩)
  apply Done.bind (done_lift.2 ⟨rfl, rfl⟩)
  apply hbuild.bind
  apply Done.bind (x := ⟨⟩) (done_modify.2 rfl)
  exact done_pure.2 ⟨rfl, rfl⟩

theorem done_newId_next (st : State) :
    Done newId st ("r" ++ toString (st.counter + 1)) { st with counter := st.counter + 1 } := by
  apply Done.bind (x := ⟨⟩) (done_modify.2 rfl)
  apply done_get_self.bind
  exact done_pure.2 ⟨rfl, rfl⟩

theorem done_enter_body (st : State) (D : Declaration) :
    Done (enter D) st ("r" ++ toString (st.counter + 1)) { st with
      counter := st.counter + 1
      chain := { key := D.key, body := "r" ++ toString (st.counter + 1), names := [D.key] } :: st.chain
      scopes := st.scopes + 1 } := by
  apply (done_newId_next st).bind
  apply Done.bind (x := ⟨⟩) (done_modify.2 rfl)
  exact done_pure.2 ⟨rfl, rfl⟩

theorem exists_done_leave (st : State) (key : DeclarationKey) (body : NodeId) :
    ∃ st', Done (leave key body) st ⟨⟩ st' ∧ st'.nodes = st.nodes := by
  refine ⟨_, done_modify.2 rfl, ?_⟩
  cases st.chain <;> rfl

theorem exists_done_declaration (fuel : Nat) {D : Declaration} (st : State) (hcomment : D.comment = none)
    (htype : D.types.get D.type = .ok x) (hshape : x.shape.single? = some shape)
    (hdeadline : st.deadline = none) (hbudget : (st.nodes.size : Int) < s.maxNodes) (hactive : st.active = []) :
    ∃ r st' l, Done (declaration s (follow s (fuel + 1)) D) st r st' ∧
      st'.nodes = st.nodes.insert r ⟨r, shape, [], l⟩ := by
  have htags (position : Option Position) (st : State) : Done (tags s D.comment none position) st [] st := by
    rw [hcomment]
    exact done_pure.2 ⟨rfl, rfl⟩
  have henter := done_enter_body st D
  generalize hentered : ({ st with
      counter := st.counter + 1
      chain := { key := D.key, body := "r" ++ toString (st.counter + 1), names := [D.key] } :: st.chain
      scopes := st.scopes + 1 } : State) = st₁ at henter
  generalize "r" ++ toString (st.counter + 1) = r at henter hentered
  have hnodes₁ : st₁.nodes = st.nodes := by rw [← hentered]
  have hactive₁ : st₁.active = [] := by rw [← hentered, ← hactive]
  have hdeadline₁ : st₁.deadline = none := by rw [← hentered, ← hdeadline]
  obtain ⟨st₂, hfollow, hnodes₂⟩ := exists_done_follow (s := s) fuel
    ⟨D.types, if s.source.shared then 0 else st₁.scopes⟩ st₁ r none hdeadline₁ (by rwa [hnodes₁])
    (by simp [hactive₁]) htype hshape
  obtain ⟨st₃, hleave, hnodes₃⟩ := exists_done_leave st₂ D.key r
  refine ⟨r, st₃, locationAt st₁.current x.position, ?_, by rw [hnodes₃, hnodes₂, hnodes₁]⟩
  unfold declaration
  apply henter.bind
  apply done_get_self.bind
  apply (htags _ st₁).bind
  apply hfollow.bind
  apply hleave.bind
  exact done_pure.2 ⟨rfl, rfl⟩

theorem exists_done_root {file : String} {D : Declaration}
    (hlookup : s.source.lookup ⟨file, s.symbol⟩ = .ok (some D)) (hcomment : D.comment = none)
    (htype : D.types.get D.type = .ok x) (hshape : x.shape.single? = some shape)
    (hdepth : s.source.depth ≠ 0) (hbudget : 0 < s.maxNodes) :
    ∃ r st l, Done (root s file) {} r st ∧ st.nodes = (∅ : Arena).insert r ⟨r, shape, [], l⟩ := by
  obtain ⟨fuel, hfuel⟩ := Nat.exists_eq_succ_of_ne_zero hdepth
  have hasked : Done (lookup s ⟨file, s.symbol⟩) {} (some D) { events := #[.asked ⟨file, s.symbol⟩] } :=
    (done_lookup_iff hlookup).2 ⟨rfl, rfl⟩
  obtain ⟨r, st, l, hbody, hnodes⟩ := exists_done_declaration (s := s) fuel
    { events := #[.asked ⟨file, s.symbol⟩] } hcomment htype hshape rfl (by simpa using hbudget) rfl
  refine ⟨r, st, l, ?_, hnodes⟩
  unfold root
  apply hasked.bind
  dsimp only
  rw [hfuel]
  exact hbody

end Resolution

/-- A declaration without parts is resolved to a graph of one node. -/
theorem exists_resolve_single {source : DeclarationSource} (vocabulary : Vocabulary) {maxNodes : Int}
    {file symbol : String} (sharing : Bool) {D : Declaration} {x : Description} {shape : Shape}
    (hlookup : source.lookup ⟨file, symbol⟩ = .ok (some D)) (hcomment : D.comment = none)
    (htype : D.types.get D.type = .ok x) (hshape : x.shape.single? = some shape)
    (hdepth : source.depth ≠ 0) (hbudget : 0 < maxNodes) :
    ∃ o g l, (resolve source vocabulary maxNodes file symbol none sharing).1 = .ok o ∧ o.value = some g ∧
      g.nodes = (∅ : Arena).insert g.root ⟨g.root, shape, [], l⟩ := by
  obtain ⟨r, st, l, hroot, hnodes⟩ := Resolution.exists_done_root
    (s := ⟨source, vocabulary, maxNodes, symbol, sharing⟩) hlookup hcomment htype hshape hdepth hbudget
  exact ⟨_, _, l, (Resolution.resolve_of_done hroot).1, rfl, hnodes⟩

end TypeAtlas
