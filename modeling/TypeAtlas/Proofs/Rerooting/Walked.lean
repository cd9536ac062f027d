import TypeAtlas.Proofs.Rerooting.Basic
import TypeAtlas.Proofs.Resolution.Scoped

/-! # Walks below a new root

When the description of a declaration becomes the only member of a union, the walk goes on below the
union as it went before. Every node gets the name after the one that it had, and recursive references
to the declaration name the union.
-/

namespace TypeAtlas

namespace Resolution

variable {j k : ℕ}

open Classical in
/-- The name that is given out after a name. -/
noncomputable def nextName (id : NodeId) : NodeId :=
  if h : ∃ k, id = numbered (k + 1) then numbered (h.choose + 2) else id

theorem nextName_numbered (k : ℕ) : nextName (numbered (k + 1)) = numbered (k + 2) := by
  have h : ∃ j, numbered (k + 1) = numbered (j + 1) := ⟨k, rfl⟩
  have hk : k + 1 = h.choose + 1 := numbered_injective h.choose_spec
  rw [nextName, dif_pos h]
  exact congrArg numbered (by omega)

theorem nextName_eq_or (id : NodeId) :
    (∃ k, id = numbered (k + 1) ∧ nextName id = numbered (k + 2)) ∨
      (∀ k, id ≠ numbered (k + 1)) ∧ nextName id = id := by
  by_cases h : ∃ k, id = numbered (k + 1)
  · obtain ⟨k, rfl⟩ := h
    exact .inl ⟨k, rfl, nextName_numbered k⟩
  · exact .inr ⟨fun k hk => h ⟨k, hk⟩, dif_neg h⟩

theorem nextName_injective : Function.Injective nextName := by
  intro x y h
  rcases nextName_eq_or x with ⟨j, rfl, hx⟩ | ⟨hx, hx'⟩ <;>
    rcases nextName_eq_or y with ⟨k, rfl, hy⟩ | ⟨hy, hy'⟩
  · have hjk : j + 2 = k + 2 := numbered_injective (hx.symm.trans (h.trans hy))
    rw [show j = k by omega]
  · exact absurd (hy'.symm.trans (h.symm.trans hx)) (hy (j + 1))
  · exact absurd (hx'.symm.trans (h.trans hy)) (hx (k + 1))
  · exact hx'.symm.trans (h.trans hy')

theorem nextName_ne (id : NodeId) : nextName id ≠ numbered 1 := by
  rcases nextName_eq_or id with ⟨k, -, h⟩ | ⟨hne, h⟩
  · rw [h]
    intro he
    have := numbered_injective he
    omega
  · rw [h]
    exact hne 0

/-- Every name is moved on by one, so the first is free for a new root. -/
noncomputable def moved : Rerooting where
  root := numbered 1
  node := nextName
  injective := nextName_injective
  fresh := nextName_ne

theorem target_moved (h : 1 ≤ k) : moved.target (numbered (k + 1)) = numbered (k + 2) := by
  rw [moved.target_of_ne, ← nextName_numbered]
  · rfl
  · intro he
    have : k + 1 = 1 := numbered_injective he
    omega

end Resolution

namespace Rerooting

variable (ρ : Rerooting)

open Resolution

def frame (f : Frame) : Frame := { f with body := ρ.target f.body, outer := f.outer.map ρ.target }

def sharedBody (b : SharedBody) : SharedBody := { b with body := ρ.node b.body }

theorem markOuter_map (body : NodeId) (chain : List Frame) :
    markOuter (ρ.target body) (chain.map ρ.frame) = (markOuter body chain).map ρ.frame := by
  induction chain with
  | nil => rfl
  | cons f fs ih =>
    rw [List.map_cons, markOuter, markOuter, show (ρ.frame f).body = ρ.target f.body from rfl,
      show (ρ.frame f).outer = f.outer.map ρ.target from rfl, ih]
    by_cases hbody : f.body = body
    · rw [if_pos hbody, if_pos (congrArg ρ.target hbody), List.map_cons]
    · have hcontains : (f.outer.map ρ.target).contains (ρ.target body) = f.outer.contains body := by
        rw [Bool.eq_iff_iff, List.contains_iff_mem, List.contains_iff_mem,
          List.mem_map_of_injective ρ.target_injective]
      rw [if_neg hbody, if_neg fun h => hbody (ρ.target_injective h), List.map_cons, hcontains]
      by_cases houter : f.outer.contains body
      · simp only [if_pos houter]
        rfl
      · simp only [if_neg houter]
        rfl

theorem noteNames_map (more : List DeclarationKey) (chain : List Frame) :
    noteNames more (chain.map ρ.frame) = (noteNames more chain).map ρ.frame := by
  cases chain <;> rfl

end Rerooting

theorem Descriptions.get_push_of_ne (ds : Descriptions) (e : Attempt Description) {i : DescriptionId}
    (h : i ≠ ds.size) : Descriptions.get (ds.push e) i = ds.get i := by
  rw [Descriptions.get, Descriptions.get, Array.getElem?_push, if_neg h]

theorem Descriptions.get_push_size (ds : Descriptions) (e : Attempt Description) :
    Descriptions.get (ds.push e) ds.size = e := by
  rw [Descriptions.get, Array.getElem?_push_size, Option.getD_some]

theorem Descriptions.get_size (ds : Descriptions) : ds.get ds.size = .error .notARecord := by
  rw [Descriptions.get, Array.getElem?_eq_none le_rfl, Option.getD_none]

/-- The declaration with one more description in its arena. -/
def Declaration.extended (e : Attempt Description) (d : Declaration) : Declaration :=
  { d with types := d.types.push e }

/-- The description of the declaration is a union. -/
def Declaration.IsUnion (d : Declaration) : Prop :=
  ∃ e ms, d.types.get d.type = .ok e ∧ e.shape = .union ms

/-- A union with the description of the declaration as its only member. -/
def Declaration.union (label : Option String) (position : Option Position) (d : Declaration) :
    Description := { shape := .union [d.type], label, position }

/-- The declaration with that union as its description. -/
def Declaration.united (label : Option String) (position : Option Position) (d : Declaration) :
    Declaration :=
  { d.extended (.ok (d.union label position)) with type := d.types.size }

/-- Where the declaration stands in its file. -/
def Declaration.position (d : Declaration) : Option Position :=
  d.line.map fun line => { line := some line, column := d.column }

namespace Resolution

variable {s s' : Setting} {st st' st₁ st₁' : State} {key : DeclarationKey} {u : DescriptionId}
  {e : Attempt Description} {mark : ℕ × DescriptionId} {keys keys' : List DeclarationKey}
  {α α' β β' : Type}

/-- The same declarations but for one, whose arenas have one more description. -/
structure Setting.Rerooted (key : DeclarationKey) (u : DescriptionId) (e : Attempt Description)
    (s s' : Setting) : Prop where
  lookup : ∀ k, k ≠ key →
    s'.source.lookup k = (s.source.lookup k).map (Option.map (Declaration.extended e))
  size : ∀ k d, s.source.lookup k = .ok (some d) → d.types.size = u
  shared : s'.source.shared = s.source.shared
  vocabulary : s'.vocabulary = s.vocabulary
  maxNodes : s'.maxNodes = s.maxNodes
  symbol : s'.symbol = s.symbol
  sharing : s'.sharing = s.sharing

/-- The same descriptions but for one with the given number. -/
structure Site.Rerooted (u : DescriptionId) (site site' : Site) : Prop where
  scope : site'.scope = site.scope
  types : ∀ i, i ≠ u → site'.types.get i = site.types.get i
  absent : ∃ e, site.types.get u = .error e

theorem Site.rerooted_extended (d : Declaration) (e : Attempt Description) (scope : ℕ) :
    Site.Rerooted d.types.size ⟨d.types, scope⟩ ⟨(d.extended e).types, scope⟩ :=
  ⟨rfl, fun _ hi => d.types.get_push_of_ne e hi, _, d.types.get_size⟩

/-- The second walk has come to the same place below a new root, whose description is marked. -/
structure State.Rerooted (mark : ℕ × DescriptionId) (keys : List DeclarationKey) (st st' : State) :
    Prop where
  sink : st'.sink = st.sink
  nodes : ∀ id, st'.nodes[moved.node id]? = st.nodes[id]?.map moved.graphNode
  named : ∀ id ∈ st'.nodes, ∃ x, id = moved.node x
  size : st'.nodes.size = st.nodes.size
  counter : st'.counter = st.counter + 1
  entered : 1 ≤ st.counter
  chain : st'.chain = st.chain.map moved.frame
  keys : st.chain.map Frame.key = keys
  bodies : st'.bodies = st.bodies.map moved.sharedBody
  active : st'.active = st.active ++ [mark]
  scopes : st'.scopes = st.scopes
  dependencies : st'.dependencies = st.dependencies
  limit : st'.limit = st.limit.map moved.node
  deadline : st.deadline = none
  deadline' : st'.deadline = none

/-- Whatever the first walk does next, the second one does under other names. Both follow the given
declarations before and after. -/
def Shifts (mark : ℕ × DescriptionId) (keys keys' : List DeclarationKey) (g : α → α') (m : M α)
    (m' : M α') : Prop :=
  ∀ st st' x st₁, State.Rerooted mark keys st st' → Done m st x st₁ →
    ∃ st₁', Done m' st' (g x) st₁' ∧ State.Rerooted mark keys' st₁ st₁'

/-! ## Rules -/

section Rules

variable {m : M α} {m' : M α'} {g : α → α'} {k : β → β'}

theorem shifts_pure {x : α} {y : α'} (h : y = g x) : Shifts mark keys keys g (pure x) (pure y) := by
  intro st st' z st₁ hst hz
  obtain ⟨rfl, rfl⟩ := done_pure.1 hz
  exact ⟨st', done_pure.2 ⟨h, rfl⟩, hst⟩

theorem Shifts.bind_of {l : List DeclarationKey} {f : α → M β} {f' : α' → M β'} {P : α → Prop}
    (hm : Shifts mark keys l g m m')
    (hP : ∀ st st' x st₁, State.Rerooted mark keys st st' → Done m st x st₁ → P x)
    (hf : ∀ x, P x → Shifts mark l keys' k (f x) (f' (g x))) :
    Shifts mark keys keys' k (m >>= f) (m' >>= f') := by
  intro st st' y st₂ hst h
  obtain ⟨x, st₁, hx, hy⟩ := done_bind.1 h
  obtain ⟨st₁', hx', hst₁⟩ := hm _ _ _ _ hst hx
  obtain ⟨st₂', hy', hst₂⟩ := hf x (hP _ _ _ _ hst hx) _ _ _ _ hst₁ hy
  exact ⟨st₂', done_bind.2 ⟨_, _, hx', hy'⟩, hst₂⟩

theorem Shifts.bind {l : List DeclarationKey} {f : α → M β} {f' : α' → M β'}
    (hm : Shifts mark keys l g m m') (hf : ∀ x, Shifts mark l keys' k (f x) (f' (g x))) :
    Shifts mark keys keys' k (m >>= f) (m' >>= f') :=
  hm.bind_of (P := fun _ => True) (fun _ _ _ _ _ _ => trivial) fun x _ => hf x

theorem shifts_throw {e : Fault} : Shifts mark keys keys' g (throw e) m' :=
  fun _ _ _ _ _ h => absurd h not_done_throw

theorem shifts_lift {m : Attempt α} {m' : Attempt α'} (h : ∀ x, m = .ok x → m' = .ok (g x)) :
    Shifts mark keys keys g (liftM m : M α) (liftM m' : M α') := by
  intro st st' x st₁ hst hx
  obtain ⟨hm, rfl⟩ := done_lift.1 hx
  exact ⟨st', done_lift.2 ⟨h x hm, rfl⟩, hst⟩

theorem shifts_lift_id (m : Attempt α) : Shifts mark keys keys id (liftM m : M α) (liftM m : M α) :=
  shifts_lift fun _ h => h

theorem shifts_of_runs {p : State → α} {q : State → α'} {v v' : State → State}
    (hm : ∀ st, m.run.run st = (.ok (p st), v st))
    (hm' : ∀ st, m'.run.run st = (.ok (q st), v' st))
    (h : ∀ st st', State.Rerooted mark keys st st' →
      q st' = g (p st) ∧ State.Rerooted mark keys' (v st) (v' st')) :
    Shifts mark keys keys' g m m' := by
  intro st st' x st₁ hst hx
  cases (hm st).symm.trans hx
  obtain ⟨hr, hv⟩ := h st st' hst
  exact ⟨v' st', (hm' st').trans (by rw [hr]), hv⟩

theorem shifts_read {r : State → α} {r' : State → α'}
    (h : ∀ st st', State.Rerooted mark keys st st' → r' st' = g (r st)) :
    Shifts mark keys keys g (do return r (← get)) (do return r' (← get)) :=
  shifts_of_runs (fun _ => rfl) (fun _ => rfl) fun st st' hst => ⟨h st st' hst, hst⟩

theorem shifts_modify {f f' : State → State}
    (h : ∀ st st', State.Rerooted mark keys st st' → State.Rerooted mark keys' (f st) (f' st')) :
    Shifts mark keys keys' id (modify f) (modify f') :=
  shifts_of_runs (fun _ => rfl) (fun _ => rfl) fun st st' hst => ⟨rfl, h st st' hst⟩

theorem shifts_get_bind {f : State → M α} {f' : State → M α'}
    (h : ∀ st st', State.Rerooted mark keys st st' → ∀ x st₁, Done (f st) st x st₁ →
      ∃ st₁', Done (f' st') st' (g x) st₁' ∧ State.Rerooted mark keys' st₁ st₁') :
    Shifts mark keys keys' g (get >>= f) (get >>= f') := by
  intro st st' x st₁ hst hx
  obtain ⟨_, _, hget, hx⟩ := done_bind.1 hx
  obtain ⟨rfl, rfl⟩ := done_get.1 hget
  obtain ⟨st₁', hx', hst₁⟩ := h _ _ hst x st₁ hx
  exact ⟨st₁', done_bind.2 ⟨_, _, done_get.2 ⟨rfl, rfl⟩, hx'⟩, hst₁⟩

theorem shifts_mapM {f : α → M β} {f' : α → M β'} (hf : ∀ x, Shifts mark keys keys k (f x) (f' x))
    (xs : List α) : Shifts mark keys keys (List.map k) (xs.mapM f) (xs.mapM f') := by
  induction xs with
  | nil => exact shifts_pure rfl
  | cons x xs ih =>
    rw [List.mapM_cons, List.mapM_cons]
    exact (hf x).bind fun y => ih.bind fun ys => shifts_pure rfl

end Rules

/-! ## Nodes -/

theorem State.Rerooted.current (h : State.Rerooted mark keys st st') : st'.current = st.current := by
  rw [State.current, State.current, h.chain, List.head?_map, Option.map_map]
  rfl

theorem shifts_current? : Shifts mark keys keys id current? current? :=
  shifts_read fun _ _ hst => hst.current

theorem shifts_newId : Shifts mark keys keys moved.node newId newId := by
  refine shifts_of_runs (fun _ => rfl) (fun _ => rfl) fun st st' hst => ⟨?_, ?_⟩
  · change numbered (st'.counter + 1) = nextName (numbered (st.counter + 1))
    rw [hst.counter, nextName_numbered]
  · exact { hst with counter := congrArg (· + 1) hst.counter, entered := Nat.le_succ_of_le hst.entered }

theorem shifts_idOr (i : Option NodeId) :
    Shifts mark keys keys moved.node (idOr i) (idOr (i.map moved.node)) := by
  cases i with
  | none => exact shifts_newId
  | some i => exact shifts_pure rfl

theorem State.Rerooted.insert (h : State.Rerooted mark keys st st') (n : Node) :
    State.Rerooted mark keys { st with nodes := st.nodes.insert n.id n }
      { st' with nodes := st'.nodes.insert (moved.node n.id) (moved.graphNode n) } := by
  refine { h with nodes := fun id => ?_, named := fun id hid => ?_, size := ?_ }
  · simp only [Std.ExtTreeMap.getElem?_insert, Std.LawfulEqCmp.compare_eq_iff_eq,
      moved.injective.eq_iff, h.nodes]
    split <;> rfl
  · rcases Std.ExtTreeMap.mem_insert.1 hid with he | hid
    · exact ⟨n.id, (Std.LawfulEqCmp.compare_eq_iff_eq.1 he).symm⟩
    · exact h.named id hid
  · have hmem : moved.node n.id ∈ st'.nodes ↔ n.id ∈ st.nodes := by
      rw [← Std.ExtTreeMap.isSome_getElem?_iff_mem, ← Std.ExtTreeMap.isSome_getElem?_iff_mem,
        h.nodes, Option.isSome_map]
    rw [Std.ExtTreeMap.size_insert, Std.ExtTreeMap.size_insert, h.size]
    exact if_congr hmem rfl rfl

theorem shifts_add (n : Node) : Shifts mark keys keys moved.node (add n) (add (moved.graphNode n)) :=
  shifts_of_runs (fun _ => rfl) (fun _ => rfl) fun _ _ hst => ⟨rfl, hst.insert n⟩

theorem shifts_location (position : Option Position) :
    Shifts mark keys keys id (location position) (location position) :=
  shifts_current?.bind fun key => by
    cases position <;> cases key <;> exact shifts_pure rfl

theorem shifts_place (hs : s'.symbol = s.symbol) (position : Option Position) :
    Shifts mark keys keys id (place s position) (place s' position) := by
  refine shifts_current?.bind fun key => shifts_pure ?_
  rw [hs]
  rfl

/-! ## Reports -/

theorem shifts_emit {d d' : State → Diagnostic}
    (h : ∀ st st', State.Rerooted mark keys st st' → d' st' = d st) {m m' : M PUnit}
    (hm : ∀ st, m.run.run st = (.ok ⟨⟩, { st with sink := st.sink.emit (d st) }))
    (hm' : ∀ st, m'.run.run st = (.ok ⟨⟩, { st with sink := st.sink.emit (d' st) })) :
    Shifts mark keys keys id m m' := by
  refine shifts_of_runs hm hm' fun st st' hst => ⟨rfl, { hst with sink := ?_ }⟩
  rw [hst.sink, h st st' hst]

theorem shifts_report (hs : s.Rerooted key u e s') (k : DiagnosticKey) (args : List String)
    (position : Option Position) (field : Option String) :
    Shifts mark keys keys id (report s k args position field) (report s' k args position field) := by
  refine shifts_emit (fun st st' hst => ?_) (fun _ => rfl) fun _ => rfl
  have hcurrent : st'.chain.head?.map Frame.key = st.chain.head?.map Frame.key := hst.current
  rw [hcurrent, hs.symbol]

theorem shifts_unknown (reason : String) (cause : UnknownCause) (i : Option NodeId)
    (position : Option Position) : Shifts mark keys keys moved.node (unknown reason cause i position)
      (unknown reason cause (i.map moved.node) position) :=
  (shifts_idOr i).bind fun i => (shifts_location position).bind fun l =>
    shifts_add { id := i, shape := .unknown reason cause, location := l }

theorem shifts_unsupported (hs : s.Rerooted key u e s') (construct : String) (detail : Option String)
    (position : Option Position) (field : Option String) (i : Option NodeId) :
    Shifts mark keys keys moved.node (unsupported s construct detail position field i)
      (unsupported s' construct detail position field (i.map moved.node)) :=
  (shifts_report hs _ _ _ _).bind fun _ => shifts_unknown _ _ _ _

theorem shifts_tags (hs : s.Rerooted key u e s') (comment field : Option String)
    (position : Option Position) :
    Shifts mark keys keys id (tags s comment field position) (tags s' comment field position) := by
  unfold tags
  split
  · exact shifts_pure rfl
  · exact shifts_pure rfl
  · refine shifts_current?.bind fun key => (shifts_place hs.symbol position).bind fun p => ?_
    rw [hs.vocabulary]
    refine (shifts_lift_id _).bind fun o => ?_
    refine Shifts.bind (shifts_modify fun st st' hst => ?_) fun _ => shifts_pure rfl
    exact { hst with sink := congrArg (Sink.absorb · _) hst.sink }

/-! ## Limits -/

theorem shifts_checkDeadline : Shifts mark keys keys id checkDeadline checkDeadline := by
  refine shifts_get_bind fun st st' hst x st₁ hx => ?_
  rw [hst.deadline] at hx
  rw [hst.deadline']
  obtain ⟨rfl, rfl⟩ := done_pure.1 hx
  exact ⟨st', done_pure.2 ⟨rfl, rfl⟩, hst⟩

theorem shifts_limitNode (hs : s.Rerooted key u e s') :
    Shifts mark keys keys moved.node (limitNode s) (limitNode s') := by
  refine shifts_get_bind fun st st' hst x st₁ hx => ?_
  cases hlimit : st.limit with
  | some limit =>
    rw [hlimit] at hx
    obtain ⟨rfl, rfl⟩ := done_pure.1 hx
    rw [hst.limit, hlimit]
    exact ⟨st', done_pure.2 ⟨rfl, rfl⟩, hst⟩
  | none =>
    have hlast : (st'.chain.getLast?.map fun f => f.key.file) =
        st.chain.getLast?.map fun f => f.key.file := by
      rw [hst.chain, List.getLast?_map, Option.map_map]
      rfl
    rw [hlimit] at hx
    rw [hst.limit, hlimit, hlast, hs.maxNodes, hs.symbol]
    refine Shifts.bind (g := id) (shifts_emit (fun _ _ _ => rfl) (fun _ => rfl) fun _ => rfl)
      (fun _ => (shifts_unknown _ _ none none).bind fun limit => ?_) st st' x st₁ hst hx
    exact Shifts.bind (shifts_modify fun _ _ hst => { hst with limit := rfl }) fun _ => shifts_pure rfl

theorem shifts_limited? (hs : s.Rerooted key u e s') (i : Option NodeId) :
    Shifts mark keys keys (Option.map moved.node) (limited? s i)
      (limited? s' (i.map moved.node)) := by
  refine shifts_get_bind fun st st' hst x st₁ hx => ?_
  rw [hst.size, hs.maxNodes]
  by_cases hroom : (st.nodes.size : Int) < s.maxNodes
  · rw [if_pos hroom] at hx ⊢
    obtain ⟨rfl, rfl⟩ := done_pure.1 hx
    exact ⟨st', done_pure.2 ⟨rfl, rfl⟩, hst⟩
  · rw [if_neg hroom] at hx ⊢
    refine ((shifts_limitNode hs).bind fun limit => ?_) st st' x st₁ hst hx
    cases i with
    | none => exact shifts_pure rfl
    | some i => exact (shifts_unknown limitReason .unsupported (some i) none).bind fun _ => shifts_pure rfl

/-! ## Recursion -/

theorem shifts_frameNamed? (name : String) (file : Option String) :
    Shifts mark keys keys (Option.map moved.frame) (frameNamed? name file) (frameNamed? name file) := by
  refine shifts_read fun st st' hst => ?_
  rw [hst.chain, List.find?_map]
  rfl

theorem shifts_recursiveRef (f : Frame) (i : NodeId) (position : Option Position) (ts : List Tag) :
    Shifts mark keys keys moved.node (recursiveRef f i position ts)
      (recursiveRef (moved.frame f) (moved.node i) position ts) := by
  have hkeys (st : State) : (markOuter f.body st.chain).map Frame.key = st.chain.map Frame.key := by
    induction st.chain with
    | nil => rfl
    | cons g gs ih =>
      rw [markOuter]
      split
      · rfl
      · rw [List.map_cons, List.map_cons, ih]
  refine Shifts.bind (shifts_modify fun st st' hst => ?_) fun _ => (shifts_location position).bind
    fun l => shifts_add { id := i, shape := .recursiveRef f.body f.key.name, tags := ts, location := l }
  refine { hst with chain := ?_, keys := (hkeys st).trans hst.keys }
  exact (congrArg _ hst.chain).trans (moved.markOuter_map _ _)

theorem shifts_frameLabelled? (label : Option String) :
    Shifts mark keys keys (Option.map moved.frame) (frameLabelled? label) (frameLabelled? label) := by
  cases label with
  | none => exact shifts_pure rfl
  | some name => exact shifts_frameNamed? name none

theorem shifts_backEdge (hs : s.Rerooted key u e s') (d : Description) (i : Option NodeId)
    (field : Option String) : Shifts mark keys keys moved.node (backEdge s d i field)
      (backEdge s' d (i.map moved.node) field) := by
  refine (shifts_frameLabelled? d.label).bind fun found => ?_
  cases found with
  | some f => exact (shifts_idOr i).bind fun j => shifts_recursiveRef f j d.position []
  | none =>
    refine shifts_current?.bind fun key => (shifts_report hs _ _ _ _).bind fun _ => ?_
    exact shifts_unknown _ _ _ _

/-! ## Declarations -/

theorem keys_noteNames (more : List DeclarationKey) (chain : List Frame) :
    (noteNames more chain).map Frame.key = chain.map Frame.key := by
  cases chain <;> rfl

theorem shifts_sharedBody? (hs : s.Rerooted key u e s') (k : DeclarationKey) :
    Shifts mark keys keys (Option.map moved.node) (sharedBody? s k) (sharedBody? s' k) := by
  refine shifts_get_bind fun st st' hst x st₁ hx => ?_
  have hfind : (if s'.sharing then st'.bodies.find? fun b => b.key = k else none) =
      (if s.sharing then st.bodies.find? fun b => b.key = k else none).map moved.sharedBody := by
    rw [hs.sharing, hst.bodies, List.find?_map]
    split <;> rfl
  rw [hfind]
  generalize (if s.sharing then st.bodies.find? fun b => b.key = k else none) = found at hx ⊢
  cases found with
  | none =>
    obtain ⟨rfl, rfl⟩ := done_pure.1 hx
    exact ⟨st', done_pure.2 ⟨rfl, rfl⟩, hst⟩
  | some b =>
    have hany : (st'.chain.any fun f => (moved.sharedBody b).names.contains f.key) =
        st.chain.any fun f => b.names.contains f.key := by
      rw [hst.chain, List.any_map]
      rfl
    dsimp only [Option.map_some] at hx ⊢
    rw [hany]
    by_cases hfollowed : st.chain.any fun f => b.names.contains f.key
    · rw [if_pos hfollowed] at hx ⊢
      obtain ⟨rfl, rfl⟩ := done_pure.1 hx
      exact ⟨st', done_pure.2 ⟨rfl, rfl⟩, hst⟩
    · rw [if_neg hfollowed] at hx ⊢
      refine Shifts.bind (k := Option.map moved.node) (f := fun _ => pure (some b.body))
        (shifts_modify fun st st' hst => ?_) (fun _ => shifts_pure rfl) st st' x st₁ hst hx
      refine { hst with chain := ?_, keys := (keys_noteNames _ _).trans hst.keys }
      exact (congrArg _ hst.chain).trans (moved.noteNames_map _ _)

theorem shifts_enter (d : Declaration) :
    Shifts mark keys (d.key :: keys) moved.node (enter d) (enter d) := by
  refine shifts_of_runs (p := fun st => numbered (st.counter + 1))
    (q := fun st => numbered (st.counter + 1)) (fun _ => rfl) (fun _ => rfl) fun st st' hst => ⟨?_, ?_⟩
  · rw [hst.counter]
    exact (nextName_numbered st.counter).symm
  · refine { hst with
      counter := congrArg (· + 1) hst.counter
      entered := Nat.le_succ_of_le hst.entered
      chain := ?_
      keys := congrArg (d.key :: ·) hst.keys
      scopes := congrArg (· + 1) hst.scopes }
    have hbody : moved.target (numbered (st.counter + 1)) = numbered (st'.counter + 1) := by
      rw [hst.counter, target_moved hst.entered]
    change { key := d.key, body := numbered (st'.counter + 1), names := [d.key] } :: st'.chain = _
    rw [hst.chain, ← hbody]
    rfl

theorem shifts_leave (k l : DeclarationKey) (body : NodeId) :
    Shifts mark (l :: keys) keys id (leave k body) (leave k (moved.node body)) := by
  refine shifts_modify fun st st' hst => ?_
  cases hchain : st.chain with
  | nil => simpa [hchain] using hst.keys
  | cons f rest =>
    have hkeys : rest.map Frame.key = keys := by
      have := hst.keys
      rw [hchain, List.map_cons, List.cons.injEq] at this
      exact this.2
    simp only [hst.chain, hchain, List.map_cons]
    refine { hst with chain := moved.noteNames_map _ _, keys := (keys_noteNames _ _).trans hkeys, bodies := ?_ }
    have hempty : (moved.frame f).outer.isEmpty = f.outer.isEmpty := List.isEmpty_map
    rw [hempty, hst.bodies]
    split <;> rfl

theorem shifts_lookup (hs : s.Rerooted key u e s') {k : DeclarationKey} (hk : k ≠ key) :
    Shifts mark keys keys (Option.map (Declaration.extended e)) (lookup s k) (lookup s' k) := by
  refine Shifts.bind (shifts_modify fun _ _ hst => { hst with }) fun _ => ?_
  rw [hs.lookup k hk]
  cases s.source.lookup k with
  | ok d => exact shifts_pure rfl
  | error e => exact shifts_throw

/-- Following goes along, whatever is followed below the given declaration. -/
def FollowShifts (mark : ℕ × DescriptionId) (key : DeclarationKey) (follow follow' : Follow) : Prop :=
  ∀ keys, key ∈ keys → ∀ site site', Site.Rerooted mark.2 site site' → ∀ d i ts field,
    Shifts mark keys keys moved.node (follow site d i ts field)
      (follow' site' d (i.map moved.node) ts field)

theorem shifts_declaration (hs : s.Rerooted key mark.2 e s') {follow follow' : Follow}
    (hf : FollowShifts mark key follow follow') (hkey : key ∈ keys) {d : Declaration}
    (hsize : d.types.size = mark.2) :
    Shifts mark keys keys moved.node (declaration s follow d)
      (declaration s' follow' (d.extended e)) := by
  have hsite := hsize ▸ Site.rerooted_extended d e
  refine (shifts_enter d).bind fun body => shifts_get_bind fun st st' hst x st₁ hx => ?_
  rw [hs.shared, hst.scopes]
  refine ((shifts_tags hs d.comment none _).bind fun ts => ?_) st st' x st₁ hst hx
  refine (hf _ (List.mem_cons_of_mem _ hkey) _ _ (hsite _) _ (some body) _ _).bind fun _ => ?_
  exact (shifts_leave d.key d.key body).bind fun _ => shifts_pure rfl

theorem shifts_bodyOf (hs : s.Rerooted key mark.2 e s') {follow follow' : Follow}
    (hf : FollowShifts mark key follow follow') (hkey : key ∈ keys) (name by_ : String) {d : Declaration}
    (hsize : d.types.size = mark.2) :
    Shifts mark keys keys moved.node (bodyOf s follow name by_ d)
      (bodyOf s' follow' name by_ (d.extended e)) := by
  refine (shifts_sharedBody? hs d.key).bind fun found => ?_
  cases found with
  | some body => exact shifts_pure rfl
  | none =>
    exact Shifts.bind (shifts_modify fun _ _ hst => { hst with }) fun _ =>
      shifts_declaration hs hf hkey hsize

/-- The declaration whose description was changed is being followed, so it is not looked up. -/
theorem shifts_reference (hs : s.Rerooted key mark.2 e s') {follow follow' : Follow}
    (hf : FollowShifts mark key follow follow') (hkey : key ∈ keys) (name : String)
    (file : Option String) (position : Option Position) (i : NodeId) (ts : List Tag)
    (field : Option String) : Shifts mark keys keys moved.node
      (reference s follow name file position i ts field)
      (reference s' follow' name file position (moved.node i) ts field) := by
  refine shifts_current?.bind fun here => ?_
  dsimp only [id]
  generalize (here.getD ⟨"", ""⟩).name = by_
  generalize file.getD (here.getD ⟨"", ""⟩).file = path
  refine Shifts.bind (l := keys) (shifts_modify fun st st' hst => ?_) fun _ => ?_
  · have hlength : st'.chain.length = st.chain.length := by rw [hst.chain, List.length_map]
    rw [hlength]
    split
    · exact { hst with dependencies := congrArg (·.insert name) hst.dependencies }
    · exact hst
  refine (shifts_frameNamed? name (some path)).bind_of (P := fun found => found = none → ⟨path, name⟩ ≠ key)
    (fun st st' found st₁ hst hx hnone => ?_) fun found hfound => ?_
  · subst hnone
    rw [← hst.keys, List.mem_map] at hkey
    obtain ⟨f, hmem, rfl⟩ := hkey
    exact ((done_frameNamed?_none hx).1 f hmem).symm
  cases found with
  | some f => exact shifts_recursiveRef f i position ts
  | none =>
    refine (shifts_lookup hs (hfound rfl)).bind_of
      (P := fun d => s.source.lookup ⟨path, name⟩ = .ok d)
      (fun _ _ _ _ _ hx => (done_lookup hx).1) fun d hd => ?_
    cases d with
    | none => exact (shifts_report hs _ _ _ _).bind fun _ => shifts_unknown _ _ (some i) _
    | some d =>
      refine (shifts_bodyOf hs hf hkey name by_ (hs.size _ d hd)).bind fun target => ?_
      exact (shifts_location position).bind fun l =>
        shifts_add { id := i, shape := .reference target name, tags := ts, location := l }

/-! ## Descriptions -/

theorem shifts_fieldType (hs : s.Rerooted key mark.2 e s') {follow follow' : Follow}
    (hf : FollowShifts mark key follow follow') (hkey : key ∈ keys) {site site' : Site}
    (hsite : Site.Rerooted mark.2 site site') (f : FieldDescription) :
    Shifts mark keys keys moved.node (fieldType s follow site f) (fieldType s' follow' site' f) := by
  unfold fieldType
  cases f.type with
  | none => exact shifts_unsupported hs _ _ _ _ none
  | some d => exact hf keys hkey site site' hsite d none _ _

theorem shifts_field (hs : s.Rerooted key mark.2 e s') {follow follow' : Follow}
    (hf : FollowShifts mark key follow follow') (hkey : key ∈ keys) {site site' : Site}
    (hsite : Site.Rerooted mark.2 site site') (f : Attempt FieldDescription) :
    Shifts mark keys keys moved.field (field s follow site f) (field s' follow' site' f) :=
  (shifts_lift_id f).bind fun f => (shifts_tags hs _ _ _).bind fun _ =>
    (shifts_fieldType hs hf hkey hsite f).bind fun _ => (shifts_location _).bind fun _ => shifts_pure rfl

theorem shifts_build (hs : s.Rerooted key mark.2 e s') {follow follow' : Follow}
    (hf : FollowShifts mark key follow follow') (hkey : key ∈ keys) {site site' : Site}
    (hsite : Site.Rerooted mark.2 site site') (d : Description) (i : NodeId) (ts : List Tag)
    (field : Option String) : Shifts mark keys keys moved.node (build s follow site d i ts field)
      (build s' follow' site' d (moved.node i) ts field) := by
  have hnode (shape : Shape) : Shifts mark keys keys moved.node
      (do add { id := i, shape, tags := ts, location := ← location d.position })
      (do add { id := moved.node i, shape := moved.shape shape, tags := ts,
                location := ← location d.position }) :=
    (shifts_location _).bind fun l => shifts_add { id := i, shape, tags := ts, location := l }
  have hchild (c : DescriptionId) := hf keys hkey site site' hsite c none [] field
  have hchildren (cs : List DescriptionId) := shifts_mapM hchild cs
  unfold build
  cases d.shape with
  | primitive p => exact hnode _
  | literal k v => exact hnode _
  | array e => exact (hchild e).bind fun c => hnode (.array c)
  | tuple es => exact (hchildren es).bind fun cs => hnode (.tuple cs)
  | object fs =>
    exact (shifts_mapM (shifts_field hs hf hkey hsite) fs).bind fun fs => hnode (.object fs)
  | union ms => exact (hchildren ms).bind fun cs => hnode (.union cs none)
  | intersection ms => exact (hchildren ms).bind fun cs => hnode (.intersection cs)
  | enum ms =>
    refine (shifts_lift_id (enumMembers ms)).bind fun found => ?_
    cases found with
    | ok ms => exact hnode (.enum ms)
    | error detail => exact shifts_unsupported hs _ _ _ _ (some i)
  | reference name file => exact shifts_reference hs hf hkey name file d.position i ts field
  | unsupported construct detail => exact shifts_unsupported hs _ _ _ _ (some i)

theorem shifts_marked (hs : s.Rerooted key mark.2 e s') {follow follow' : Follow}
    (hf : FollowShifts mark key follow follow') (hkey : key ∈ keys) {site site' : Site}
    (hsite : Site.Rerooted mark.2 site site') {d : DescriptionId} (hd : d ≠ mark.2) (i : NodeId)
    (ts : List Tag) (field : Option String) :
    Shifts mark keys keys moved.node
      (do
        let result ← build s follow site (← site.types.get d) i ts field
        modify fun st => { st with active := st.active.erase (site.scope, d) }
        return result)
      (do
        let result ← build s' follow' site' (← site'.types.get d) (moved.node i) ts field
        modify fun st => { st with active := st.active.erase (site'.scope, d) }
        return result) := by
  rw [hsite.types d hd, hsite.scope]
  refine (shifts_lift_id _).bind fun e => (shifts_build hs hf hkey hsite e i ts field).bind fun x => ?_
  refine Shifts.bind (l := keys) (shifts_modify fun st st' hst => ?_) fun _ => shifts_pure rfl
  refine { hst with active := ?_ }
  have hne : (site.scope, d) ≠ mark := fun he => hd (congrArg Prod.snd he)
  change st'.active.erase _ = st.active.erase _ ++ [mark]
  rw [hst.active, List.erase_append]
  split
  · rfl
  · next hmem => rw [List.erase_of_not_mem hmem, List.erase_of_not_mem (by simpa using hne)]

/-- What is described under the number of the union cannot be followed in the first walk. -/
theorem ne_of_done {follow : Follow} {site site' : Site} (hsite : Site.Rerooted u site site')
    {d : DescriptionId} {i : Option NodeId} {ts : List Tag} {field : Option String} {x : NodeId}
    {active : Bool}
    (h : Done (do
      if active then backEdge s (← site.types.get d) i field
      else
        modify fun st => { st with active := (site.scope, d) :: st.active }
        let id ← idOr i
        let result ← build s follow site (← site.types.get d) id ts field
        modify fun st => { st with active := st.active.erase (site.scope, d) }
        return result) st x st₁) : d ≠ u := by
  rintro rfl
  obtain ⟨e, he⟩ := hsite.absent
  split at h
  · obtain ⟨_, _, hget, -⟩ := done_bind.1 h
    cases he.symm.trans (done_lift.1 hget).1
  · obtain ⟨_, _, -, h⟩ := done_bind.1 h
    obtain ⟨_, _, -, h⟩ := done_bind.1 h
    obtain ⟨_, _, hget, -⟩ := done_bind.1 h
    cases he.symm.trans (done_lift.1 hget).1

theorem followShifts_follow (hs : s.Rerooted key mark.2 e s') (fuel : ℕ) :
    FollowShifts mark key (follow s fuel) (follow s' fuel) := by
  induction fuel with
  | zero => exact fun _ _ _ _ _ _ _ _ _ => shifts_throw
  | succ fuel ih =>
    intro keys hkey site site' hsite d i ts field
    rw [follow, follow]
    refine shifts_checkDeadline.bind fun _ => (shifts_limited? hs i).bind fun limit => ?_
    cases limit with
    | some limit => exact shifts_pure rfl
    | none =>
      refine shifts_get_bind fun st st' hst x st₁ hx => ?_
      have hd := ne_of_done hsite hx
      have hactive : st'.active.contains (site'.scope, d) = st.active.contains (site.scope, d) := by
        have hne : (site.scope, d) ≠ mark := fun he => hd (congrArg Prod.snd he)
        rw [hst.active, hsite.scope, List.contains_append]
        simp [hne]
      rw [hactive]
      by_cases hmark : st.active.contains (site.scope, d)
      · rw [if_pos hmark] at hx ⊢
        rw [hsite.types d hd]
        exact ((shifts_lift_id _).bind fun e => shifts_backEdge hs e i field) _ _ _ _ hst hx
      · rw [if_neg hmark] at hx ⊢
        refine Shifts.bind (l := keys) (shifts_modify fun st st' hst => ?_)
          (fun _ => (shifts_idOr i).bind fun j => shifts_marked hs ih hkey hsite hd j ts field)
          _ _ _ _ hst hx
        refine { hst with active := ?_ }
        change (site'.scope, d) :: st'.active = (site.scope, d) :: st.active ++ [mark]
        rw [hst.active, hsite.scope, List.cons_append]

/-! ## The root -/

theorem done_follow_iff {site : Site} {d : DescriptionId} {i : Option NodeId} {ts : List Tag}
    {field : Option String} {x : NodeId} {fuel : ℕ} (hdeadline : st.deadline = none)
    (hroom : (st.nodes.size : Int) < s.maxNodes) (hactive : (site.scope, d) ∉ st.active) :
    Done (follow s (fuel + 1) site d i ts field) st x st₁ ↔
      Done (do
        let id ← idOr i
        let result ← build s (follow s fuel) site (← site.types.get d) id ts field
        modify fun st => { st with active := st.active.erase (site.scope, d) }
        return result) { st with active := (site.scope, d) :: st.active } x st₁ := by
  have hcheck : Done checkDeadline st ⟨⟩ st := done_bind.2 ⟨_, _, done_get.2 ⟨rfl, rfl⟩, by
    rw [hdeadline]
    exact done_pure.2 ⟨rfl, rfl⟩⟩
  have hlimit : Done (limited? s i) st none st := done_bind.2 ⟨_, _, done_get.2 ⟨rfl, rfl⟩, by
    rw [if_pos hroom]
    exact done_pure.2 ⟨rfl, rfl⟩⟩
  have hget : Done get st st st := done_get.2 ⟨rfl, rfl⟩
  have hmodify : Done (modify fun st => { st with active := (site.scope, d) :: st.active } : M PUnit) st
      ⟨⟩ { st with active := (site.scope, d) :: st.active } := done_modify.2 rfl
  rw [follow, Done, hcheck.run_bind, hlimit.run_bind]
  dsimp only
  rw [hget.run_bind, if_neg (by simpa using hactive), hmodify.run_bind]

theorem done_leave_keeps {k : DeclarationKey} {body : NodeId} {v : Unit}
    (h : Done (leave k body) st v st₁) :
    st₁.sink = st.sink ∧ st₁.nodes = st.nodes ∧ st₁.limit = st.limit ∧ st₁.deadline = st.deadline := by
  obtain rfl := done_modify.1 h
  cases st.chain <;> exact ⟨rfl, rfl, rfl, rfl⟩

theorem room_of_done_follow {site : Site} {d : DescriptionId} {i : Option NodeId} {ts : List Tag}
    {field : Option String} {x : NodeId} {fuel : ℕ} (hs : Sane s st) (hp : Pending st i)
    (h : Done (follow s fuel site d i ts field) st x st₁) (hlimit : st₁.limit = none) :
    (st.nodes.size : Int) < s.maxNodes := by
  cases fuel with
  | zero => exact absurd h not_done_throw
  | succ fuel =>
    simp only [follow, done_bind] at h
    obtain ⟨_, st₂, hcheck, out, st₃, hout, h⟩ := h
    have hcalm := done_checkDeadline hcheck
    rcases done_limited? hout (hcalm.sane hs) (hp.filed hcalm.grew.toFiled) with
      ⟨-, -, hroom⟩ | ⟨y, rfl, -, hlate⟩
    · rwa [hcalm.nodes] at hroom
    · obtain ⟨-, rfl⟩ := done_pure.1 h
      exact absurd hlimit hlate

theorem done_tags_keeps {comment field : Option String} {position : Option Position} {ts : List Tag}
    (h : Done (tags s comment field position) st ts st₁) : st₁.deadline = st.deadline := by
  unfold tags at h
  split at h
  · rw [← (done_pure.1 h).2]
  · rw [← (done_pure.1 h).2]
  · simp only [done_bind, done_current?, done_lift, done_modify, done_pure] at h
    obtain ⟨_, _, ⟨rfl, rfl⟩, _, _, hp, _, _, ⟨-, rfl⟩, _, _, rfl, -, rfl⟩ := h
    rw [← (done_place hp).2]

theorem tags_congr (hs : s.Rerooted key u e s') (comment field : Option String)
    (position : Option Position) : tags s' comment field position = tags s comment field position := by
  have hplace : place s' position = place s position := by
    unfold place
    rw [hs.symbol]
  unfold tags
  rw [hs.vocabulary, hplace]

/-- Nothing has happened but that the first declaration was entered. -/
structure Opened (key : DeclarationKey) (st : State) : Prop where
  chain : st.chain = [{ key, body := numbered 1, names := [key] }]
  nodes : st.nodes = ∅
  counter : st.counter = 1
  bodies : st.bodies = []
  active : st.active = []
  limit : st.limit = none
  deadline : st.deadline = none

theorem Opened.size_lt (h : Opened key st) (hroom : 1 ≤ s.maxNodes) :
    (st.nodes.size : Int) < s.maxNodes := by
  rw [h.nodes, Std.ExtTreeMap.size_empty]
  exact hroom

/-- When the union has been marked and its member is given a name, the walks correspond. -/
theorem Opened.rerooted (h : Opened key st) (m m' : ℕ × DescriptionId) :
    State.Rerooted m' [key] { st with active := [m] }
      { st with active := [m, m'], counter := st.counter + 1 } where
  sink := rfl
  nodes id := by
    dsimp only
    rw [h.nodes, Std.ExtTreeMap.getElem?_empty, Std.ExtTreeMap.getElem?_empty]
    rfl
  named id hid := by
    dsimp only at hid
    rw [h.nodes] at hid
    exact absurd hid Std.ExtTreeMap.not_mem_empty
  size := rfl
  counter := rfl
  entered := h.counter.ge
  chain := by
    have hroot : moved.target (numbered 1) = numbered 1 := moved.target_root
    change st.chain = _
    rw [h.chain, List.map_singleton, Rerooting.frame, hroot]
    rfl
  keys := by
    change st.chain.map _ = _
    rw [h.chain]
    rfl
  bodies := by
    change st.bodies = st.bodies.map _
    rw [h.bodies]
    rfl
  active := rfl
  scopes := rfl
  dependencies := rfl
  limit := by
    change st.limit = st.limit.map _
    rw [h.limit]
    rfl
  deadline := h.deadline
  deadline' := h.deadline

theorem done_locationAt (position : Option Position) (st : State) :
    Done (location position) st (locationAt st.current position) st := by
  refine done_bind.2 ⟨_, _, done_current?.2 ⟨rfl, rfl⟩, ?_⟩
  cases position <;> cases st.current <;> exact done_pure.2 ⟨rfl, rfl⟩

theorem done_newId_numbered (st : State) :
    Done newId st (numbered (st.counter + 1)) { st with counter := st.counter + 1 } := rfl

/-- The union is followed as its member was, whose node gets the next name. -/
theorem Opened.exists_done_follow {label : Option String} {position : Option Position}
    {d : Declaration} {scope fuel : ℕ} (h : Opened d.key st)
    (hs : s.Rerooted d.key d.types.size (.ok (d.union label position)) s') (hroom : 1 ≤ s.maxNodes)
    (hfollow : Done (follow s fuel ⟨d.types, scope⟩ d.type (some (numbered 1)) [] none) st (numbered 1)
      st₁) :
    ∃ st' st₁', State.Rerooted (scope, d.types.size) [d.key] st₁ st' ∧
      Done (follow s' (fuel + 1) ⟨(d.united label position).types, scope⟩ d.types.size (some (numbered 1))
        [] none) st (numbered 1) st₁' ∧
      st₁'.sink = st'.sink ∧ st₁'.deadline = none ∧ st₁'.nodes = st'.nodes.insert (numbered 1)
        ⟨numbered 1, .union [moved.node (numbered 1)] none, [], locationAt (some d.key) position⟩ := by
  have hsite := Site.rerooted_extended d (.ok (d.union label position)) scope
  have hsize := h.size_lt hroom
  have hsize' : (st.nodes.size : Int) < s'.maxNodes := hs.maxNodes ▸ hsize
  cases fuel with
  | zero => exact absurd hfollow not_done_throw
  | succ fuel =>
    rw [done_follow_iff h.deadline hsize (by simp [h.active]), h.active] at hfollow
    obtain ⟨_, _, hid, hcore⟩ := done_bind.1 hfollow
    obtain ⟨rfl, rfl⟩ := done_pure.1 hid
    have hne : d.type ≠ d.types.size := by
      intro heq
      obtain ⟨_, _, hget, -⟩ := done_bind.1 hcore
      rw [heq] at hget
      cases d.types.get_size.symm.trans (done_lift.1 hget).1
    obtain ⟨st', hmember, hst'⟩ := shifts_marked hs (followShifts_follow hs fuel)
      List.mem_cons_self hsite hne (numbered 1) [] none _ _ _ _ (h.rerooted _ (scope, d.types.size)) hcore
    have hnew : Done newId { st with active := [(scope, d.type), (scope, d.types.size)] } (moved.node (numbered 1))
        { st with active := [(scope, d.type), (scope, d.types.size)], counter := st.counter + 1 } := by
      have hname : moved.node (numbered 1) = numbered (st.counter + 1) := by
        rw [h.counter]
        exact nextName_numbered 0
      rw [hname]
      exact done_newId_numbered _
    have hinner : Done (follow s' (fuel + 1) ⟨(d.united label position).types, scope⟩ d.type none [] none)
        { st with active := [(scope, d.types.size)] } (moved.node (numbered 1)) st' := by
      refine (done_follow_iff ?_ ?_ ?_).2 (done_bind.2 ⟨_, _, hnew, hmember⟩)
      · exact h.deadline
      · exact hsize'
      · simp [hne]
    have hcurrent : st'.current = some d.key := by
      rw [hst'.current, State.current, ← List.head?_map, hst'.keys]
      rfl
    have hunion : Done (build s' (follow s' (fuel + 1)) ⟨(d.united label position).types, scope⟩
        (d.union label position) (numbered 1) [] none)
        { st with active := [(scope, d.types.size)] } (numbered 1)
        { st' with nodes := st'.nodes.insert (numbered 1) ⟨numbered 1,
          .union [moved.node (numbered 1)] none, [], locationAt (some d.key) position⟩ } := by
      refine done_bind.2 ⟨_, _, done_mapM.2 (.cons hinner .nil), ?_⟩
      rw [← hcurrent]
      exact done_bind.2 ⟨_, _, done_locationAt position st', done_add.2 ⟨rfl, rfl⟩⟩
    refine ⟨st', { st' with
      nodes := st'.nodes.insert (numbered 1) ⟨numbered 1, .union [moved.node (numbered 1)] none, [],
        locationAt (some d.key) position⟩
      active := st'.active.erase (scope, d.types.size) }, hst', ?_, rfl, hst'.deadline', rfl⟩
    have hget : (d.united label position).types.get d.types.size = .ok (d.union label position) :=
      d.types.get_push_size _
    rw [done_follow_iff h.deadline hsize' (by simp [h.active]), h.active]
    refine done_bind.2 ⟨_, _, done_pure.2 ⟨rfl, rfl⟩, done_bind.2 ⟨_, _, done_lift.2 ⟨hget, rfl⟩, ?_⟩⟩
    exact done_bind.2 ⟨_, _, hunion, done_bind.2 ⟨⟨⟩, _, done_modify.2 rfl, done_pure.2 ⟨rfl, rfl⟩⟩⟩

theorem State.Rerooted.arena (h : State.Rerooted mark keys st st') (location : Option SourceLocation) :
    st.nodes.Rerooted moved location (st'.nodes.insert moved.root
      ⟨moved.root, .union [moved.node moved.root] none, [], location⟩) where
  node id := by
    rw [Std.ExtTreeMap.getElem?_insert, if_neg, h.nodes]
    simpa using (moved.fresh id).symm
  above := by simp
  named id hid := by
    rcases Std.ExtTreeMap.mem_insert.1 hid with he | hid
    · exact .inl (Std.LawfulEqCmp.compare_eq_iff_eq.1 he).symm
    · exact .inr (h.named id hid)
  size := by
    have hnew : moved.root ∉ st'.nodes := fun hmem => by
      obtain ⟨x, hx⟩ := h.named _ hmem
      exact moved.fresh x hx.symm
    rw [Std.ExtTreeMap.size_insert, h.size]
    exact if_neg hnew

/-- The walk of the first declaration: nothing has happened when its description is followed. -/
structure Entry (s : Setting) (follow : Follow) (d : Declaration) (events : Array Event) (st₁ st₂ st : State) :
    Prop where
  opened : Opened d.key st₁
  sane : Sane s st₁
  tags : Done (tags s d.comment none d.position)
    { events, counter := 1, chain := [{ key := d.key, body := numbered 1, names := [d.key] }], scopes := 1 }
    [] st₁
  body : Done (follow ⟨d.types, if s.source.shared then 0 else 1⟩ d.type (some (numbered 1)) [] none) st₁
    (numbered 1) st₂
  left : Done (leave d.key (numbered 1)) st₂ ⟨⟩ st

theorem exists_entry {d : Declaration} {events : Array Event} {fuel : ℕ} {r : NodeId}
    (huntagged : tagsAt s (some d.key) d.comment none d.position = [])
    (h : Done (declaration s (follow s fuel) d) { events } r st) :
    r = numbered 1 ∧ ∃ st₁ st₂, Entry s (follow s fuel) d events st₁ st₂ st := by
  have hsane : Sane s { events } := ⟨.empty, by simp, trivial, by simp, by simp, by simp⟩
  simp only [declaration, done_bind, done_get, done_pure] at h
  obtain ⟨body, st₁, hbody, _, _, ⟨rfl, rfl⟩, ts, st₂, hts, x, st₃, hx, _, st₄, hleave, rfl, rfl⟩ := h
  have hentered := (done_enter hbody hsane).calm (done_tags hts).2
  have hy := followed_follow _ _ _ _ _ _ _ _ _ hx hentered.sane hentered.pending
  obtain rfl := hy.named _ rfl
  simp only [enter, done_bind, done_modify, done_pure] at hbody
  obtain ⟨_, _, hid, _, _, rfl, rfl, rfl⟩ := hbody
  obtain ⟨rfl, rfl⟩ := done_newId hid
  obtain ⟨hread, hcalm⟩ := done_tags hts
  obtain rfl : ts = [] := hread.trans huntagged
  have hopened : Opened d.key st₂ := ⟨hcalm.chain, hcalm.nodes, hcalm.counter, hcalm.bodies,
    hcalm.active, hcalm.limit, done_tags_keeps hts⟩
  exact ⟨rfl, st₂, st₃, hopened, hentered.sane, hts, hx, hleave⟩

namespace Entry

variable {d : Declaration} {label : Option String} {position : Option Position} {events : Array Event}
  {fuel : ℕ}

theorem room (h : Entry s (follow s fuel) d events st₁ st₁' st) (hlimit : st.limit = none) :
    1 ≤ s.maxNodes := by
  have hpending : Pending st₁ (some (numbered 1)) := by
    rintro x ⟨⟩
    rw [h.opened.nodes]
    exact ⟨Std.ExtTreeMap.not_mem_empty, 1, h.opened.counter.ge, rfl⟩
  have hroom := room_of_done_follow h.sane hpending h.body ((done_leave_keeps h.left).2.2.1 ▸ hlimit)
  rw [h.opened.nodes, Std.ExtTreeMap.size_empty] at hroom
  exact hroom

theorem exists_union (h : Entry s (follow s fuel) d events st₁ st₁' st) (hroom : 1 ≤ s.maxNodes)
    (hunion : d.IsUnion) :
    ∃ n ids δ, st.nodes[numbered 1]? = some n ∧ n.tags = [] ∧ n.shape = .union ids δ := by
  obtain ⟨e, ms, he, hms⟩ := hunion
  have hbody := h.body
  cases fuel with
  | zero => exact absurd hbody not_done_throw
  | succ fuel =>
    rw [done_follow_iff h.opened.deadline (h.opened.size_lt hroom) (by simp [h.opened.active])] at hbody
    simp only [done_bind, done_modify, done_pure] at hbody
    obtain ⟨_, _, hid, _, _, hget, _, st₂, hbuild, _, _, rfl, -, rfl⟩ := hbody
    obtain ⟨rfl, rfl⟩ := done_pure.1 hid
    obtain ⟨he', rfl⟩ := done_lift.1 hget
    obtain rfl := Except.ok.inj (he.symm.trans he')
    simp only [build, hms, done_bind, done_add] at hbuild
    obtain ⟨ids, _, -, l, _, -, -, rfl⟩ := hbuild
    refine ⟨⟨numbered 1, .union ids none, [], l⟩, ids, none, ?_, rfl, rfl⟩
    rw [(done_leave_keeps h.left).2.1]
    exact Std.ExtTreeMap.getElem?_insert_self

/-- The walk of a declaration whose description becomes the only member of a union. -/
theorem exists_done (h : Entry s (follow s fuel) d events st₁ st₁' st)
    (hs : s.Rerooted d.key d.types.size (.ok (d.union label position)) s') (hroom : 1 ≤ s.maxNodes) :
    ∃ st', Done (declaration s' (follow s' (fuel + 1)) (d.united label position)) { events } (numbered 1)
      st' ∧ st'.sink = st.sink ∧ st'.deadline = none ∧
      st.nodes.Rerooted moved (locationAt (some d.key) position) st'.nodes := by
  obtain ⟨st₂', st₃', hst', hx', hsink, hdeadline, hnodes⟩ :=
    h.opened.exists_done_follow hs hroom h.body
  obtain ⟨st₄', hleave'⟩ : ∃ st₄', Done (leave d.key (numbered 1)) st₃' ⟨⟩ st₄' :=
    ⟨_, done_modify.2 rfl⟩
  obtain ⟨hsink₄, hnodes₄, -, -⟩ := done_leave_keeps h.left
  obtain ⟨hsink₄', hnodes₄', -, hdeadline₄'⟩ := done_leave_keeps hleave'
  refine ⟨st₄', ?_, ?_, ?_, ?_⟩
  · have henter : Done (enter (d.united label position)) { events } (numbered 1)
        { events, counter := 1, chain := [{ key := d.key, body := numbered 1, names := [d.key] }],
          scopes := 1 } := rfl
    have htags : Done (Resolution.tags s (d.united label position).comment none
        (d.line.map fun line => { line := some line, column := d.column })) _ [] st₁ := h.tags
    have hleave : Done (leave (d.united label position).key (numbered 1)) st₃' ⟨⟩ st₄' := hleave'
    rw [declaration, Done, henter.run_bind, (done_get.2 ⟨rfl, rfl⟩).run_bind]
    dsimp only
    rw [hs.shared, tags_congr hs]
    exact done_bind.2 ⟨_, _, htags, done_bind.2 ⟨_, _, hx', done_bind.2 ⟨_, _, hleave, done_pure.2 ⟨rfl, rfl⟩⟩⟩⟩
  · rw [hsink₄', hsink, hst'.sink, hsink₄]
  · rw [hdeadline₄', hdeadline]
  · rw [hnodes₄, hnodes₄', hnodes]
    exact hst'.arena _

end Entry

end Resolution

end TypeAtlas
