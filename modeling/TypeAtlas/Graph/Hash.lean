import TypeAtlas.Diagnostic.Outcome
import TypeAtlas.Digest
import TypeAtlas.Graph.Basic

/-! # Structural hashes

The content hash of a graph, from its nodes alone. Recursive references enter by their distance
from the node they name, so the hash does not depend on how nodes are named or shared. A graph that
cannot be hashed stably is refused with diagnostics.
-/

/-! ## Payloads -/

namespace TypeAtlas

def sharedPayload (payload : List (String × Datum)) (tags : List Tag) (binder : Bool) :
    List (String × Datum) :=
  payload ++ (if tags.isEmpty then [] else [("tags", .list (tags.map Tag.payload))]) ++
    (if binder then [("binder", .bool true)] else [])

def fieldPayload (name : String) (optional readonly : Bool) (tags : List Tag) : Datum :=
  .record (sharedPayload
    [("name", .text name), ("optional", .bool optional), ("readonly", .bool readonly)] tags false)

def sortMembers (ms : List EnumMember) : List EnumMember :=
  ms.mergeSort fun a b => decide (a.name ≤ b.name)

def enumPayload (ms : List EnumMember) : List (String × Datum) :=
  [("members", .list ((sortMembers ms).map fun m => .list [.text m.name, m.value.toDatum]))]

/-- The values in order; of values that the order does not tell apart, the former comes first. -/
def sortValues (vs : List Scalar) : List Scalar :=
  vs.foldr (fun v ws => (ws.takeWhile fun w => !v.le w) ++ v :: ws.dropWhile fun w => !v.le w) []

def unionPayload : Option Discriminant → List (String × Datum)
  | none => []
  | some d =>
    [("discriminant", .record [("property", .text d.property),
      ("values", .list ((sortValues d.values).map Scalar.toDatum))])]

def primitivePayload (p : Primitive) : List (String × Datum) := [("name", .text p.name)]

def literalPayload (k : LiteralKind) (v : Scalar) : List (String × Datum) :=
  [("literal_kind", .text k.name), ("value", v.toDatum)]

def unknownPayload (reason : String) (c : UnknownCause) : List (String × Datum) :=
  [("cause", .text c.name), ("reason", .text reason)]

/-- A recursive reference is covered by its distance from the node that it names. -/
def recursionPayload (depth : Option Nat) : List (String × Datum) :=
  [("depth", Datum.optional (fun n => .int n) depth)]

/-! ## Hashes -/

/-- Positions on the stack of enclosing recursion targets, counted from the outermost. -/
abbrev Heights := Std.ExtTreeSet Nat

/-- The place of a node in a diagnostic: its own position, or else the file of the graph. -/
def Graph.place (g : Graph) (id : NodeId) : Place :=
  match (g.node? id).bind Node.location with
  | some l => ⟨some l.file, l.line, l.column, some g.symbol⟩
  | none => { filePath := some g.filePath, symbol := some g.symbol }

namespace Hasher

structure Setting where
  digester : Digester
  algorithm : Algorithm
  graph : Graph
  binders : Std.ExtTreeSet NodeId

structure State where
  /-- The digests of nodes that refer to no enclosing target. -/
  closed : Std.ExtTreeMap NodeId String := ∅
  sink : Sink := {}

abbrev M := StateT State (Except Json.WriteError)

def unstable (s : Setting) (detail : String) (id : NodeId) : M Unit :=
  modify fun st => { st with
    sink := st.sink.emit
      (Diagnostic.make .hashUnstableInput [.text detail] (some (s.graph.place id))) }

def nodeDigest (s : Setting) (kind : String) (payload : List (String × Datum))
    (children : List String) : M String :=
  StateT.lift (s.digester.node s.algorithm kind payload children)

/-- The digest that stands for a node which is missing or contains itself. -/
def brokenDigest (s : Setting) : M (String × Heights) := do
  return (← nodeDigest s "unknown" [("cause", .text "recursion")] [], ∅)

def sortFields (fs : List Field) : List Field := fs.mergeSort fun a b => decide (a.name ≤ b.name)

def together (parts : List (String × Heights)) : List String × Heights :=
  (parts.map Prod.fst, parts.foldl (fun hs p => hs ∪ p.2) ∅)

def sortDigests (ds : List String) : List String := ds.mergeSort fun a b => decide (a ≤ b)

/-- Content, child digests and heights of a node's shape. The stack has the innermost target
first; `visit` gives the digest of a child. -/
def parts (s : Setting) (node : Node) (stack : List NodeId)
    (visit : NodeId → M (String × Heights)) :
    M (List (String × Datum) × List String × Heights) := do
  match node.shape with
  | .recursiveRef target symbol =>
    match stack.idxOf? target with
    | none =>
      unstable s ("dangling recursive reference to " ++ symbol) node.id
      return (recursionPayload none, [], ∅)
    | some depth =>
      return (recursionPayload (some depth), [], Std.ExtTreeSet.ofList [stack.length - 1 - depth])
  | .unknown reason cause =>
    if cause = .recursion then
      unstable s ("unresolved recursion (" ++ reason ++ ")") node.id
    return (unknownPayload reason cause, [], ∅)
  | .primitive p => return (primitivePayload p, [], ∅)
  | .literal k v => return (literalPayload k v, [], ∅)
  | .enum ms => return (enumPayload ms, [], ∅)
  | .object fs =>
    let ordered := sortFields fs
    let (ds, hs) := together (← ordered.mapM fun f => visit f.type)
    let payload := ordered.map fun f => fieldPayload f.name f.optional f.readonly f.tags
    return ([("fields", .list payload)], ds, hs)
  | .union ms d =>
    let (ds, hs) := together (← ms.mapM visit)
    return (unionPayload d, sortDigests ds, hs)
  | .intersection ms =>
    let (ds, hs) := together (← ms.mapM visit)
    return ([], sortDigests ds, hs)
  | .array _ | .tuple _ | .reference .. =>
    let (ds, hs) := together (← node.shape.children.mapM visit)
    return ([], ds, hs)

/-- The digest of a node and the heights that it refers to. The nodes on the path are being visited;
the fuel exceeds the number of nodes that are not. -/
def digest (s : Setting) :
    Nat → NodeId → List NodeId → Std.ExtTreeSet NodeId → M (String × Heights)
  | 0, _, _, _ => brokenDigest s
  | fuel + 1, id, stack, path => do
    match (← get).closed[id]? with
    | some d => return (d, ∅)
    | none =>
      match s.graph.node? id with
      | none =>
        unstable s ("missing node " ++ id) id
        brokenDigest s
      | some node =>
        if path.contains id then
          unstable s ("cycle without recursive_ref " ++ id) id
          brokenDigest s
        else
          let binder := s.binders.contains id
          let inner := if binder then id :: stack else stack
          let (payload, children, heights) ←
            parts s node inner fun child => digest s fuel child inner (path.insert id)
          let free := if binder then heights.erase stack.length else heights
          let d ← nodeDigest s node.shape.kind (sharedPayload payload node.tags binder) children
          if free.isEmpty then modify fun st => { st with closed := st.closed.insert id d }
          return (d, free)

end Hasher

/-- The structural hash of a graph; absent when the graph cannot be hashed stably. -/
def Graph.hash (digester : Digester) (a : Algorithm) (g : Graph) :
    Except Json.WriteError (Outcome String) := do
  let s : Hasher.Setting := ⟨digester, a, g, g.binders⟩
  let ((d, _), st) ← (Hasher.digest s (g.nodes.size + 1) g.root [] ∅).run {}
  return st.sink.outcome (if st.sink.hasErrors then none else some d)

end TypeAtlas
