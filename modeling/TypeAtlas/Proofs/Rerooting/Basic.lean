import TypeAtlas.Proofs.Normal.Hashed

/-! # Graphs under a new root

A graph whose root becomes the only member of a union. The union takes over the name of the root, so all
nodes get other names, but recursive references to the root still name the root, which is the union now.
-/

namespace TypeAtlas

/-- Other names for nodes, which leave the name of the root free. -/
structure Rerooting where
  root : NodeId
  node : NodeId → NodeId
  injective : Function.Injective node
  fresh : ∀ id, node id ≠ root

namespace Rerooting

variable (ρ : Rerooting)

/-- Recursive references to the root still name the root. -/
def target (id : NodeId) : NodeId := if id = ρ.root then ρ.root else ρ.node id

theorem target_root : ρ.target ρ.root = ρ.root := if_pos rfl

theorem target_of_ne {id : NodeId} (h : id ≠ ρ.root) : ρ.target id = ρ.node id := if_neg h

theorem target_injective : Function.Injective ρ.target := by
  intro x y h
  unfold target at h
  split at h
  · next hx =>
    split at h
    · next hy => rw [hx, hy]
    · exact absurd h.symm (ρ.fresh y)
  · split at h
    · exact absurd h (ρ.fresh x)
    · exact ρ.injective h

theorem target_eq_root {id : NodeId} : ρ.target id = ρ.root ↔ id = ρ.root := by
  constructor
  · intro h
    exact ρ.target_injective (h.trans ρ.target_root.symm)
  · rintro rfl
    exact ρ.target_root

theorem target_eq_node {x y : NodeId} : ρ.target x = ρ.node y ↔ x = y ∧ y ≠ ρ.root := by
  by_cases hx : x = ρ.root
  · rw [hx, target_root]
    exact ⟨fun h => absurd h.symm (ρ.fresh y), fun h => absurd h.1.symm h.2⟩
  · rw [ρ.target_of_ne hx, ρ.injective.eq_iff]
    exact ⟨fun h => ⟨h, h ▸ hx⟩, fun h => h.1⟩

/-! ## Nodes -/

def field (f : Field) : Field := { f with type := ρ.node f.type }

def shape : Shape → Shape
  | .array e => .array (ρ.node e)
  | .tuple es => .tuple (es.map ρ.node)
  | .object fs => .object (fs.map ρ.field)
  | .union ms d => .union (ms.map ρ.node) d
  | .intersection ms => .intersection (ms.map ρ.node)
  | .reference target symbol => .reference (ρ.node target) symbol
  | .recursiveRef target symbol => .recursiveRef (ρ.target target) symbol
  | shape => shape

def graphNode (n : Node) : Node := { n with id := ρ.node n.id, shape := ρ.shape n.shape }

theorem recursionTarget?_shape (shape : Shape) :
    (ρ.shape shape).recursionTarget? = shape.recursionTarget?.map ρ.target := by
  cases shape <;> rfl

end Rerooting

/-- The second arena holds the nodes of the first one under other names, and a union at the given place
with the old root as its only member. -/
structure Arena.Rerooted (ρ : Rerooting) (location : Option SourceLocation) (A B : Arena) : Prop where
  node : ∀ id, B[ρ.node id]? = A[id]?.map ρ.graphNode
  above : B[ρ.root]? = some { id := ρ.root, shape := .union [ρ.node ρ.root] none, location }
  named : ∀ id ∈ B, id = ρ.root ∨ ∃ x, id = ρ.node x
  size : B.size = A.size + 1

/-- The second graph is the first one with its root as the only member of a union at the given place. -/
structure Graph.Rerooted (ρ : Rerooting) (location : Option SourceLocation) (g g' : Graph) : Prop where
  root : g.root = ρ.root
  root' : g'.root = ρ.root
  nodes : g.nodes.Rerooted ρ location g'.nodes
  symbol : g'.symbol = g.symbol
  filePath : g'.filePath = g.filePath

namespace Graph

namespace Rerooted

variable {ρ : Rerooting} {location : Option SourceLocation} {g g' : Graph}

theorem node (h : g.Rerooted ρ location g') (id : NodeId) :
    g'.node? (ρ.node id) = (g.node? id).map ρ.graphNode := h.nodes.node id

theorem mem_binders (h : g.Rerooted ρ location g') (t : NodeId) :
    ρ.target t ∈ g'.binders ↔ t ∈ g.binders := by
  rw [Graph.mem_binders, Graph.mem_binders]
  constructor
  · rintro ⟨id, n', hn', ht⟩
    rcases h.nodes.named id (mem_iff_exists_getElem?.2 ⟨n', hn'⟩) with rfl | ⟨x, rfl⟩
    · obtain rfl := Option.some.inj (h.nodes.above.symm.trans hn')
      cases ht
    · change g'.node? (ρ.node x) = some n' at hn'
      rw [h.node, Option.map_eq_some_iff] at hn'
      obtain ⟨n, hn, rfl⟩ := hn'
      rw [Rerooting.graphNode, ρ.recursionTarget?_shape, Option.map_eq_some_iff] at ht
      obtain ⟨u, hu, he⟩ := ht
      obtain rfl := ρ.target_injective he
      exact ⟨x, n, hn, hu⟩
  · rintro ⟨id, n, hn, ht⟩
    have hnode : g'.node? (ρ.node id) = some (ρ.graphNode n) := by
      rw [h.node, show g.node? id = some n from hn]
      rfl
    refine ⟨ρ.node id, ρ.graphNode n, hnode, ?_⟩
    rw [Rerooting.graphNode, ρ.recursionTarget?_shape, ht]
    rfl

/-- The old root is no recursion target, since the new one is in its place. -/
theorem mem_binders_node (h : g.Rerooted ρ location g') (id : NodeId) :
    ρ.node id ∈ g'.binders ↔ id ≠ ρ.root ∧ id ∈ g.binders := by
  by_cases hid : id = ρ.root
  · refine ⟨fun hmem => ?_, fun hmem => absurd hid hmem.1⟩
    rw [Graph.mem_binders] at hmem
    obtain ⟨x, n', hn', ht⟩ := hmem
    rcases h.nodes.named x (mem_iff_exists_getElem?.2 ⟨n', hn'⟩) with rfl | ⟨x, rfl⟩
    · obtain rfl := Option.some.inj (h.nodes.above.symm.trans hn')
      cases ht
    · change g'.node? (ρ.node x) = some n' at hn'
      rw [h.node, Option.map_eq_some_iff] at hn'
      obtain ⟨n, hn, rfl⟩ := hn'
      rw [Rerooting.graphNode, ρ.recursionTarget?_shape, Option.map_eq_some_iff] at ht
      obtain ⟨u, -, he⟩ := ht
      exact absurd hid (ρ.target_eq_node.1 he).2
  · rw [← ρ.target_of_ne hid, h.mem_binders]
    exact ⟨fun hmem => ⟨hid, hmem⟩, fun hmem => hmem.2⟩

theorem renderWithin (h : g.Rerooted ρ location g') (levels : ℕ) (id : NodeId) :
    g'.renderWithin levels (ρ.node id) = g.renderWithin levels id := by
  have hcomposite (id : NodeId) : isComposite (g'.node? (ρ.node id)) = isComposite (g.node? id) := by
    rw [h.node]
    cases g.node? id with
    | none => rfl
    | some n =>
      simp only [isComposite, Option.map_some, Rerooting.graphNode]
      cases n.shape <;> rfl
  induction levels generalizing id with
  | zero =>
    rw [Graph.renderWithin, Graph.renderWithin, h.node, Option.isSome_map]
  | succ levels ih =>
    have hall (ids : List NodeId) : (ids.map ρ.node).mapM (g'.renderWithin levels) =
        ids.mapM (g.renderWithin levels) := by
      rw [List.mapM_map]
      exact congrArg (fun f => ids.mapM f) (funext ih)
    rw [Graph.renderWithin, Graph.renderWithin, h.node]
    cases g.node? id with
    | none => rfl
    | some n =>
      obtain ⟨_, shape, _, _⟩ := n
      cases shape with
      | array e =>
        simp only [Option.map_some, Rerooting.graphNode, Rerooting.shape, ih, hcomposite]
      | object fs =>
        cases fs with
        | nil => rfl
        | cons f fs =>
          simp only [Option.map_some, Rerooting.graphNode, Rerooting.shape, List.map_cons]
          rw [← List.map_cons, List.mapM_map]
          simp only [Function.comp_def, Rerooting.field, ih]
          rfl
      | _ => simp only [Option.map_some, Rerooting.graphNode, Rerooting.shape, hall]

theorem render (h : g.Rerooted ρ location g') (id : NodeId) :
    g'.render (ρ.node id) = g.render id := h.renderWithin _ id

end Rerooted

end Graph

end TypeAtlas
