import TypeAtlas.Graph.Hash
import TypeAtlas.Proofs.Graph.Recorded
import TypeAtlas.Proofs.Json.Rewritten
import TypeAtlas.Proofs.Parallel
import TypeAtlas.Proofs.Resolution.Sourced

/-! # Graphs that are covered alike

Graphs of which a digest covers the same have the same hash. They may differ in positions, in what
declarations are called, and in anything about tags that is not covered.

A digest covers nothing that is lost when a graph is recorded, so a graph that is read back has the
hash that it had before.
-/

namespace TypeAtlas

/-- A change of fields that a digest does not notice. -/
structure Field.Unnoticed (φ : Field → Field) : Prop where
  name : ∀ f, (φ f).name = f.name
  type : ∀ f, (φ f).type = f.type
  payload : ∀ f, (fieldPayload (φ f).name (φ f).optional (φ f).readonly (φ f).tags).canonical =
    (fieldPayload f.name f.optional f.readonly f.tags).canonical

/-- A digest covers the same of both shapes. The symbol of a recursive reference matters only if the
reports must agree, and its target only if it is a node of the arena. -/
inductive Shape.Covered (A : Arena) (exact : Prop) : Shape → Shape → Prop
  | refl {shape : Shape} : Covered A exact shape shape
  | object {φ : Field → Field} {fs : List Field} (h : Field.Unnoticed φ) :
      Covered A exact (.object fs) (.object (fs.map φ))
  | reference {target : NodeId} {symbol symbol' : String} :
      Covered A exact (.reference target symbol) (.reference target symbol')
  | recursiveRef {target target' : NodeId} {symbol symbol' : String} (h : exact → symbol' = symbol)
      (ht : target' = target ∨ target ∉ A ∧ target' ∉ A) :
      Covered A exact (.recursiveRef target symbol) (.recursiveRef target' symbol')

/-- A digest covers the same of both nodes. -/
structure Node.Covered (A : Arena) (exact : Prop) (n n' : Node) : Prop where
  id : n'.id = n.id
  shape : n.shape.Covered A exact n'.shape
  tags : ∀ {fs gs : List (String × Datum)} (b : Bool),
    Datum.canonicalFields gs = Datum.canonicalFields fs →
      Datum.canonicalFields (sharedPayload gs n'.tags b) =
        Datum.canonicalFields (sharedPayload fs n.tags b)

theorem canonicalFields_sharedPayload_congr {fs gs : List (String × Datum)} (tags : List Tag) (b : Bool)
    (h : Datum.canonicalFields gs = Datum.canonicalFields fs) :
    Datum.canonicalFields (sharedPayload gs tags b) =
      Datum.canonicalFields (sharedPayload fs tags b) := by
  simp only [Datum.canonicalFields_eq_map] at h
  simp only [sharedPayload, Datum.canonicalFields_eq_map, List.map_append, h]

theorem Shape.Covered.kind {A : Arena} {exact : Prop} {shape shape' : Shape}
    (h : shape.Covered A exact shape') :
    shape'.kind = shape.kind := by
  cases h <;> rfl

/-- A digest covers the same of both graphs. -/
structure Graph.Covered (exact : Prop) (g g' : Graph) : Prop where
  root : g'.root = g.root
  size : g'.nodes.size = g.nodes.size
  binders : ∀ id ∈ g.nodes, id ∈ g'.binders ↔ id ∈ g.binders
  node : ∀ id, Option.Rel (Node.Covered g.nodes exact) (g.node? id) (g'.node? id)
  place : exact → ∀ id, g'.place id = g.place id

namespace Hasher

variable {exact : Prop} {s s' : Setting} {α β : Type}

/-- The setting with a graph that is covered alike. -/
structure Setting.Covered (exact : Prop) (s s' : Setting) : Prop where
  digester : s'.digester = s.digester
  algorithm : s'.algorithm = s.algorithm
  graph : s.graph.Covered exact s'.graph
  binders : ∀ id ∈ s.graph.nodes, id ∈ s'.binders ↔ id ∈ s.binders

/-- The same digests are remembered, and the reports are errors alike. All that a hash reports is that
it cannot be stable, which is an error. -/
structure State.Covered (exact : Prop) (st st' : State) : Prop where
  closed : st'.closed = st.closed
  hasErrors : st'.sink.hasErrors = st.sink.hasErrors
  sink : exact → st'.sink = st.sink
  unstable : ∀ d ∈ st.sink.toList, d.code = DiagnosticKey.hashUnstableInput.code ∧ d.isError

/-- Whatever the one comes to, the other comes to something that goes with it. -/
abbrev Matches (exact : Prop) (R : α → β → Prop) (m : M α) (m' : M β) : Prop :=
  Along (fun _ => True) (State.Covered exact) R m m'

/-- Content that is covered alike, with the same digests and heights below. -/
def PartsAlike (p q : List (String × Datum) × List String × Heights) : Prop :=
  Datum.canonicalFields q.1 = Datum.canonicalFields p.1 ∧ q.2 = p.2

theorem sortFields_map {φ : Field → Field} (h : ∀ f, (φ f).name = f.name) (fs : List Field) :
    sortFields (fs.map φ) = (sortFields fs).map φ := by
  rw [sortFields, sortFields, List.map_mergeSort]
  intro f _ g _
  rw [h, h]

theorem matches_below {f : α → NodeId} {k : β → NodeId} {h : α → β}
    {visit visit' : NodeId → M (String × Heights)}
    (hvisit : ∀ c, Matches exact (· = ·) (visit c) (visit' c)) (hf : ∀ x, k (h x) = f x) (xs : List α)
    {payload payload' : List (String × Datum)} {g : List String → List String}
    (hpayload : Datum.canonicalFields payload' = Datum.canonicalFields payload) :
    Matches exact PartsAlike
      (do
        let below := together (← xs.mapM fun x => visit (f x))
        return (payload, g below.1, below.2))
      (do
        let below := together (← (xs.map h).mapM fun x => visit' (k x))
        return (payload', g below.1, below.2)) := by
  refine (along_mapM_eq (fun x => ?_) xs).bind ?_
  · rw [hf]
    exact hvisit _
  · rintro qs _ rfl
    exact along_pure ⟨hpayload, rfl⟩

section Below

variable {visit visit' : NodeId → M (String × Heights)}
  (hvisit : ∀ c, Matches exact (· = ·) (visit c) (visit' c))

include hvisit

theorem matches_children (cs : List NodeId) {payload : List (String × Datum)}
    (g : List String → List String) : Matches exact PartsAlike
      (do
        let below := together (← cs.mapM visit)
        return (payload, g below.1, below.2))
      (do
        let below := together (← cs.mapM visit')
        return (payload, g below.1, below.2)) := by
  have h := matches_below (f := id) (k := id) (h := id) (g := g) hvisit (fun _ => rfl) cs
    (rfl : Datum.canonicalFields payload = _)
  rwa [List.map_id] at h

theorem matches_fields {φ : Field → Field} (h : Field.Unnoticed φ) (fs : List Field) :
    Matches exact PartsAlike
      (do
        let below := together (← (sortFields fs).mapM fun f => visit f.type)
        return ([("fields", .list ((sortFields fs).map fun f =>
          fieldPayload f.name f.optional f.readonly f.tags))], below.1, below.2))
      (do
        let below := together (← (sortFields (fs.map φ)).mapM fun f => visit' f.type)
        return ([("fields", .list ((sortFields (fs.map φ)).map fun f =>
          fieldPayload f.name f.optional f.readonly f.tags))], below.1, below.2)) := by
  rw [sortFields_map h.name]
  refine matches_below (f := Field.type) (k := Field.type) (g := fun ds => ds) hvisit h.type _ ?_
  simp only [Datum.canonicalFields, Datum.canonical, Datum.canonicalList_eq_map, List.map_map,
    List.cons.injEq, Prod.mk.injEq, Datum.list.injEq, and_true, true_and]
  exact List.map_congr_left fun f _ => h.payload f

end Below

section Settings

variable (hs : s.Covered exact s')

include hs

theorem matches_unstable {detail detail' : String} (hdetail : exact → detail' = detail) (id : NodeId) :
    Matches exact (fun _ _ => True) (unstable s detail id) (unstable s' detail' id) := by
  refine along_modify fun st st' hst => { hst with
    hasErrors := ?_, sink := fun h => ?_, unstable := fun d hd => ?_ }
  · rw [Sink.hasErrors_emit, Sink.hasErrors_emit, hst.hasErrors]
    rfl
  · rw [hst.sink h, hdetail h, hs.graph.place h]
  · rw [Sink.toList_emit, List.mem_append, List.mem_singleton] at hd
    rcases hd with hd | rfl
    · exact hst.unstable d hd
    · exact ⟨rfl, rfl⟩

theorem matches_nodeDigest (kind : String) {fs gs : List (String × Datum)} (cs : List String)
    (h : Datum.canonicalFields gs = Datum.canonicalFields fs) :
    Matches exact (· = ·) (nodeDigest s kind fs cs) (nodeDigest s' kind gs cs) := by
  rw [nodeDigest, nodeDigest, hs.digester, hs.algorithm]
  refine along_lift ?_
  cases hx : s.digester.node s.algorithm kind fs cs with
  | error e => exact .cut trivial
  | ok x =>
    rw [Digester.node_congr h.symm hx]
    exact .ok rfl

theorem matches_brokenDigest : Matches exact (· = ·) (brokenDigest s) (brokenDigest s') := by
  refine (matches_nodeDigest hs _ [] rfl).bind ?_
  rintro x _ rfl
  exact along_pure rfl

theorem matches_recursionPart {stack : List NodeId} (hstack : ∀ x ∈ stack, x ∈ s.graph.nodes)
    {target target' : NodeId} (ht : target' = target ∨ target ∉ s.graph.nodes ∧ target' ∉ s.graph.nodes)
    {symbol symbol' : String} (h : exact → symbol' = symbol) (id : NodeId) : Matches exact PartsAlike
      (match stack.idxOf? target with
        | none => do
          unstable s ("dangling recursive reference to " ++ symbol) id
          return (recursionPayload none, [], ∅)
        | some depth => return (recursionPayload (some depth), [],
          Std.ExtTreeSet.ofList [stack.length - 1 - depth]))
      (match stack.idxOf? target' with
        | none => do
          unstable s' ("dangling recursive reference to " ++ symbol') id
          return (recursionPayload none, [], ∅)
        | some depth => return (recursionPayload (some depth), [],
          Std.ExtTreeSet.ofList [stack.length - 1 - depth])) := by
  have hsame : stack.idxOf? target' = stack.idxOf? target := by
    rcases ht with rfl | ⟨ht, ht'⟩
    · rfl
    · rw [List.idxOf?_eq_none_iff.2 fun hm => ht (hstack _ hm),
        List.idxOf?_eq_none_iff.2 fun hm => ht' (hstack _ hm)]
  rw [hsame]
  cases stack.idxOf? target with
  | none =>
    exact (matches_unstable hs (fun he => by rw [h he]) _).bind fun _ _ _ => along_pure ⟨rfl, rfl⟩
  | some depth => exact along_pure ⟨rfl, rfl⟩

theorem matches_parts {n n' : Node} (hn : n.Covered s.graph.nodes exact n') {stack : List NodeId}
    (hstack : ∀ x ∈ stack, x ∈ s.graph.nodes) {visit visit' : NodeId → M (String × Heights)}
    (hvisit : ∀ c, Matches exact (· = ·) (visit c) (visit' c)) :
    Matches exact PartsAlike (parts s n stack visit) (parts s' n' stack visit') := by
  have hleaf {p : List (String × Datum) × List String × Heights} :
      Matches exact PartsAlike (pure p) (pure p) := along_pure ⟨rfl, rfl⟩
  obtain ⟨hid, hshape, -⟩ := hn
  obtain ⟨id, shape, tags, l⟩ := n
  obtain ⟨_, shape', tags', l'⟩ := n'
  obtain rfl : _ = id := hid
  unfold parts
  cases hshape with
  | object h => exact matches_fields hvisit h _
  | reference => exact matches_children hvisit [_] fun ds => ds
  | recursiveRef h ht => exact matches_recursionPart hs hstack ht h _
  | refl =>
    cases shape with
    | recursiveRef target symbol => exact matches_recursionPart hs hstack (.inl rfl) (fun _ => rfl) _
    | unknown reason cause =>
      dsimp only
      split
      · exact (matches_unstable hs (fun _ => rfl) _).bind fun _ _ _ => hleaf
      · exact hleaf
    | primitive p => exact hleaf
    | literal k v => exact hleaf
    | enum ms => exact hleaf
    | object fs =>
      have h := matches_fields hvisit ⟨fun _ => rfl, fun _ => rfl, fun _ => rfl⟩ fs (φ := fun f => f)
      rwa [List.map_id'] at h
    | union ms δ => exact matches_children hvisit ms sortDigests
    | intersection ms => exact matches_children hvisit ms sortDigests
    | array e => exact matches_children hvisit [e] fun ds => ds
    | tuple es => exact matches_children hvisit es fun ds => ds
    | reference target symbol => exact matches_children hvisit [target] fun ds => ds

/-- Graphs that are covered alike have the same digests. -/
theorem matches_digest (fuel : ℕ) (id : NodeId) {stack : List NodeId}
    (hstack : ∀ x ∈ stack, x ∈ s.graph.nodes) (path : Std.ExtTreeSet NodeId) :
    Matches exact (· = ·) (digest s fuel id stack path) (digest s' fuel id stack path) := by
  induction fuel generalizing id stack path with
  | zero => exact matches_brokenDigest hs
  | succ fuel ih =>
    rw [digest, digest]
    refine along_get.bind fun st st' hst => ?_
    rw [hst.closed]
    split
    · exact along_pure rfl
    · have hnode := hs.graph.node id
      generalize hm : s.graph.node? id = m at hnode
      generalize s'.graph.node? id = m' at hnode
      cases hnode with
      | none => exact (matches_unstable hs (fun _ => rfl) _).bind fun _ _ _ => matches_brokenDigest hs
      | @some n n' hn =>
        dsimp only
        by_cases hpath : path.contains id
        · rw [if_pos hpath, if_pos hpath]
          exact (matches_unstable hs (fun _ => rfl) _).bind fun _ _ _ => matches_brokenDigest hs
        · have hid : id ∈ s.graph.nodes := mem_iff_exists_getElem?.2 ⟨n, hm⟩
          have hbinder : s'.binders.contains id = s.binders.contains id := by
            rw [Bool.eq_iff_iff]
            exact hs.binders id hid
          have hinner : ∀ x ∈ (if s.binders.contains id then id :: stack else stack), x ∈ s.graph.nodes := by
            split
            · exact List.forall_mem_cons.2 ⟨hid, hstack⟩
            · exact hstack
          rw [if_neg hpath, if_neg hpath, hbinder, hn.shape.kind]
          refine (matches_parts hs hn hinner fun c => ih c hinner _).bind ?_
          rintro ⟨payload, below⟩ ⟨payload', below'⟩ ⟨hpayload, hbelow⟩
          obtain rfl : below' = below := hbelow
          refine (matches_nodeDigest hs n.shape.kind below'.1
            (hn.tags (s.binders.contains id) hpayload)).bind ?_
          rintro x _ rfl
          dsimp only
          generalize (if s.binders.contains id then _ else _) = free
          split
          · refine (along_modify fun st st' hst => ?_).bind fun _ _ _ => along_pure rfl
            exact { hst with closed := by rw [hst.closed] }
          · exact along_pure rfl

end Settings

end Hasher

/-- Graphs that are covered alike hash alike. -/
theorem Graph.Covered.hash {exact : Prop} {g g' : Graph} {d : Digester} {a : Algorithm}
    {o : Outcome String} (hg : g.Covered exact g') (h : g.hash d a = .ok o) :
    ∃ o', g'.hash d a = .ok o' ∧ o'.ok = o.ok ∧ o'.value = o.value ∧
      (exact → o'.diagnostics = o.diagnostics) ∧
      ∀ d ∈ o.diagnostics, d.code = DiagnosticKey.hashUnstableInput.code ∧ d.isError := by
  obtain ⟨⟨p, st⟩, hp, h⟩ := bind_eq_ok.1 h
  obtain rfl := Except.ok.inj h
  have hs : Hasher.Setting.Covered exact ⟨d, a, g, g.binders⟩ ⟨d, a, g', g'.binders⟩ :=
    ⟨rfl, rfl, hg, hg.binders⟩
  have hinitial : Hasher.State.Covered exact {} {} :=
    ⟨rfl, rfl, fun _ => rfl, by simp [Sink.toList]⟩
  obtain ⟨_, st', hp', rfl, hst⟩ :=
    (Hasher.matches_digest hs (g.nodes.size + 1) g.root (by simp) ∅).ends hinitial hp
  refine ⟨st'.sink.outcome (if st'.sink.hasErrors then none else some p.1), ?_, ?_, ?_, fun he => ?_,
    hst.unstable⟩
  · rw [Graph.hash, hg.size, hg.root]
    exact bind_eq_ok.2 ⟨(p, st'), hp', rfl⟩
  · rw [Sink.ok_outcome, Sink.ok_outcome, hst.hasErrors]
  · simp only [Sink.outcome, hst.hasErrors]
  · simp only [Sink.outcome, hst.sink he]

theorem Graph.errors_of_hash {g : Graph} {d : Digester} {a : Algorithm} {o : Outcome String}
    (h : g.hash d a = .ok o) :
    ∀ d ∈ o.diagnostics, d.code = DiagnosticKey.hashUnstableInput.code ∧ d.isError := by
  have hg : g.Covered True g := ⟨rfl, rfl, fun _ _ => .rfl, fun id => ?_, fun _ _ => rfl⟩
  · obtain ⟨_, -, -, -, -, herrors⟩ := hg.hash h
    exact herrors
  · cases g.node? id with
    | none => exact .none
    | some n => exact .some ⟨rfl, .refl, canonicalFields_sharedPayload_congr n.tags⟩

/-! ## Recorded graphs -/

theorem Tag.canonical_payload_recorded (t : Tag) : t.recorded.payload.canonical = t.payload.canonical := by
  have hparsed : (Datum.optional .record t.recorded.parsed).canonical =
      (Datum.optional .record t.parsed).canonical := by
    cases hp : t.parsed with
    | none => simp only [recorded, hp, Option.map_none]
    | some fs =>
      simp only [recorded, hp, Option.map_some, Datum.optional]
      exact Datum.canonical_canonical (.record fs)
  simp only [payload, Datum.canonical, Datum.canonicalList, hparsed]
  rfl

theorem canonicalFields_sharedPayload {fs gs : List (String × Datum)} (tags : List Tag) (b : Bool)
    (h : Datum.canonicalFields gs = Datum.canonicalFields fs) :
    Datum.canonicalFields (sharedPayload gs (tags.map Tag.recorded) b) =
      Datum.canonicalFields (sharedPayload fs tags b) := by
  simp only [Datum.canonicalFields_eq_map] at h
  simp only [sharedPayload, Datum.canonicalFields_eq_map, List.map_append, h, List.isEmpty_map]
  cases tags.isEmpty with
  | true => rfl
  | false => simpa using fun t _ => t.canonical_payload_recorded

theorem Field.canonical_payload_recorded (f : Field) :
    (fieldPayload f.name f.optional f.readonly f.recorded.tags).canonical =
      (fieldPayload f.name f.optional f.readonly f.tags).canonical := by
  simp only [fieldPayload, Datum.canonical, Field.recorded,
    canonicalFields_sharedPayload f.tags false rfl]

theorem Field.unnoticed_recorded : Field.Unnoticed Field.recorded where
  name _ := rfl
  type _ := rfl
  payload := Field.canonical_payload_recorded

theorem Node.covered_recorded (A : Arena) (n : Node) : n.Covered A True n.recorded where
  id := rfl
  tags b h := canonicalFields_sharedPayload n.tags b h
  shape := by
    rw [recorded]
    cases n.shape with
    | object fs => exact .object Field.unnoticed_recorded
    | _ => exact .refl

namespace Graph

variable {g : Graph}

theorem node?_recorded (id : NodeId) : g.recorded.node? id = (g.node? id).map Node.recorded := by
  rw [node?, recorded, Std.ExtTreeMap.getElem?_map]
  rfl

theorem binders_recorded : g.recorded.binders = g.binders := by
  have htarget (n : Node) : n.recorded.shape.recursionTarget? = n.shape.recursionTarget? := by
    rw [Node.recorded]
    cases n.shape <;> rfl
  simp only [binders, recorded, Std.ExtTreeMap.toList_map, List.filterMap_map, Function.comp_def,
    htarget]

theorem place_recorded (id : NodeId) : g.recorded.place id = g.place id := by
  rw [place, place, node?_recorded]
  cases g.node? id <;> rfl

theorem covered_recorded : g.Covered True g.recorded where
  root := rfl
  size := Std.ExtTreeMap.size_map
  binders id _ := by rw [binders_recorded]
  place _ := place_recorded
  node id := by
    rw [node?_recorded]
    cases g.node? id with
    | none => exact .none
    | some n => exact .some (n.covered_recorded g.nodes)

/-- A recorded graph has the hash of the graph. -/
theorem hash_recorded {d : Digester} {a : Algorithm} {o : Outcome String} (h : g.hash d a = .ok o) :
    g.recorded.hash d a = .ok o := by
  obtain ⟨⟨value, diagnostics⟩, h', -, rfl, hdiagnostics, -⟩ := covered_recorded.hash h
  obtain rfl := hdiagnostics trivial
  exact h'

end Graph

end TypeAtlas
