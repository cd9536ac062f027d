import TypeAtlas.Deadline
import TypeAtlas.Graph.Render
import TypeAtlas.Normal.Term

/-! # Folding graphs

A graph is folded bottom-up into a term. On the way unions and intersections are flattened and
sorted, equal members are dropped, object intersections are merged, and members that do not belong
together are reported and left out.

A recursion target is folded as such first. When every reference to it turns out to be dropped, the
target is marked as dead and folded again as a plain node.
-/

namespace TypeAtlas.Folding

/-- What a fold needs to know is what a hash needs to know. -/
abbrev Setting := Hasher.Setting

structure State where
  sink : Sink := {}
  /-- The terms of nodes that refer to no enclosing target. -/
  closed : Std.ExtTreeMap NodeId Term := ∅
  /-- The recursion targets to which no reference is left. -/
  dead : Std.ExtTreeSet NodeId := ∅
  deadline : Option Deadline := none

abbrev M := StateT State (Except Fault)

variable (s : Setting)

def written {α : Type} (x : Except Json.WriteError α) : M α := StateT.lift (Attempt.ofWrite x)

def checkDeadline : M Unit := do
  match (← get).deadline with
  | none => return
  | some d =>
    let (late, d) := d.expired
    modify fun st => { st with deadline := some d }
    if late then throw (.deadlineExpired d.seconds)

def report (key : DiagnosticKey) (args : List Datum) (id : NodeId) (field : Option String) :
    M Unit :=
  modify fun st => { st with
    sink := st.sink.emit (Diagnostic.make key args (some (s.graph.place id))
      (some { entity := some s.graph.symbol, field })) }

def render (id : NodeId) : M String := written (s.graph.render id)

def term (shape : TermShape) (rawId : NodeId) (children : List Term) (tags : List Tag)
    (location : Option SourceLocation) : M Term :=
  written (Term.make s.digester s.algorithm shape rawId children tags location)

def unknownTerm (rawId : NodeId) (reason : String) (cause : UnknownCause) : M Term :=
  term s (.unknown reason cause) rawId [] [] none

/-! ## Members -/

/-- The members of a node if it may be spliced into a composite of the same kind. -/
def spliceable? (members? : Shape → Option (List NodeId)) (id : NodeId) : Option (List NodeId) :=
  match s.graph.node? id with
  | some n =>
    if n.tags.isEmpty && !s.binders.contains id then members? n.shape else none
  | none => none

/-- Members with nested composites of the same kind replaced by their own members, each of them
once. The fuel bounds the nesting. -/
def flatten (members? : Shape → Option (List NodeId)) :
    Nat → List NodeId → Std.ExtTreeSet NodeId → List NodeId × Std.ExtTreeSet NodeId
  | 0, ids, seen => (ids, seen)
  | fuel + 1, ids, seen => ids.foldl (fun acc id =>
      match spliceable? s members? id with
      | some inner =>
        if acc.2.contains id then (acc.1 ++ [id], acc.2)
        else
          let (more, seen) := flatten members? fuel inner (acc.2.insert id)
          (acc.1 ++ more, seen)
      | none => (acc.1 ++ [id], acc.2)) ([], seen)

def unionMembers? : Shape → Option (List NodeId)
  | .union ms _ => some ms
  | _ => none

def intersectionMembers? : Shape → Option (List NodeId)
  | .intersection ms => some ms
  | _ => none

/-- A member together with the node it is reported as. -/
abbrev Member := NodeId × Term

/-- A member, or its own members when a collapse left a composite of the same kind. -/
def splice (kind : String) (m : Member) : List Member :=
  let t := m.2
  if t.shape.kind = kind && t.head.tags.isEmpty && !t.binder then
    t.children.map fun c => (c.head.rawId, c)
  else [m]

def members (build : NodeId → M Term) (kind : String)
    (members? : Shape → Option (List NodeId)) (ids : List NodeId) : M (List Member) := do
  let flat := (flatten s members? s.graph.nodes.size ids ∅).1
  let built ← flat.mapM fun id => do return (id, ← build id)
  return built.flatMap (splice kind)

/-- One term for each digest, in the order of the digests; the first of its digest stays. -/
def sortedUnique (ts : List Term) : List Term :=
  (ts.foldl (fun (m : Std.ExtTreeMap String Term) t => m.insertIfNew t.digest t) ∅).toList.map
    Prod.snd

/-! ## Fields -/

abbrev FieldTerm := FieldHead × Term

/-- Takes in a field. The first field of a name stays, a required one makes it required, and one of
another type is reported. -/
def mergeField (owner : NodeId) (merged : Std.ExtTreeMap String FieldTerm) (f : FieldTerm) :
    M (Std.ExtTreeMap String FieldTerm) := do
  match merged[f.1.name]? with
  | none => return merged.insert f.1.name f
  | some g =>
    if g.2.digest ≠ f.2.digest then
      let detail := f.1.name ++ " (" ++ (← render s g.1.rawType) ++ " vs " ++
        (← render s f.1.rawType) ++ ")"
      report s .intersectionConflict [.text detail] owner (some f.1.name)
      return merged
    else if g.1.optional && !f.1.optional then
      return merged.insert f.1.name ({ g.1 with optional := false }, g.2)
    else return merged

/-- Fields in the order of their names, each name once. -/
def mergeFields (owner : NodeId) (fs : List FieldTerm) : M (List FieldTerm) := do
  let merged ← fs.foldlM (mergeField s owner) ∅
  return merged.toList.map Prod.snd

def objectTerm (fs : List FieldTerm) (n : Node) : M Term :=
  term s (.object (fs.map Prod.fst)) n.id (fs.map Prod.snd) n.tags n.location

/-! ## Composites -/

/-- Whether literals are the same. What is not a number is the same only at its own node. -/
def sameLiteral (a b : Term.Literal) : Bool :=
  a.kind == b.kind && (a.value.same b.value || (a.node == b.node && a.value == b.value))

def distinctLiterals : List Term.Literal → Bool
  | [] => true
  | l :: rest => !rest.any (sameLiteral l) && distinctLiterals rest

def fieldNamed? (body : List FieldTerm) (name : String) : Option FieldTerm :=
  body.find? fun f => f.1.name == name

/-- The values by which a field name tells the members of a union apart. -/
def discriminantAt? (bodies : List (List FieldTerm)) (name : String) : Option Discriminant := do
  let fields ← bodies.mapM fun b => fieldNamed? b name
  let literals ← fields.mapM Term.requiredLiteral?
  if distinctLiterals literals then some ⟨name, literals.map Term.Literal.value⟩ else none

/-- The first field, by name, whose required literals differ in every member of a union of
objects. -/
def discriminant? (ts : List Term) : Option Discriminant := do
  let bodies ← ts.mapM Term.objectBody?
  match bodies with
  | first :: _ :: _ => (first.map fun f => f.1.name).findSome? (discriminantAt? bodies)
  | _ => none

/-- A composite over sorted members. A single member takes the place of an untagged composite that
is no recursion target. -/
def composite (kind : String) (shape : TermShape) (n : Node) (ts : List Term) (binder : Bool)
    (field : Option String) : M Term := do
  match ts with
  | [only] =>
    if n.tags.isEmpty && !binder then
      report s .compositeCollapsed [.text kind, .text (← render s only.head.rawId)] n.id field
      return only
    else term s shape n.id ts n.tags n.location
  | _ => term s shape n.id ts n.tags n.location

/-- The members of a union that stay, and the first that does not belong to the rest. -/
structure Sorting where
  expected : Option Family := none
  offending : Option NodeId := none
  kept : List Term := []

def Sorting.add (acc : Sorting) (m : Member) : Sorting :=
  let t := m.2
  if t.family = .neutral then { acc with kept := acc.kept ++ [t] }
  else
    let expected := acc.expected.getD t.family
    if t.family = expected then { acc with expected := some expected, kept := acc.kept ++ [t] }
    else { acc with expected := some expected, offending := acc.offending.or (some m.1) }

def heterogeneousReason : String := "heterogeneous union members dropped"

def unionTerm (n : Node) (ms : List Member) (binder : Bool) (field : Option String) : M Term := do
  let sorting := ms.foldl Sorting.add {}
  let kept ← match sorting.offending with
    | none => pure sorting.kept
    | some id =>
      report s .unionHeterogeneous [.text (← render s id)] n.id field
      let rest ← unknownTerm s n.id heterogeneousReason .heterogeneous
      pure (sorting.kept ++ [rest])
  let ts := sortedUnique kept
  composite s "union" (.union (discriminant? ts)) n ts binder field

def intersectionTerm (n : Node) (ms : List Member) (binder : Bool) (field : Option String) :
    M Term := do
  let ts := ms.map Prod.snd
  match ts, ts.mapM Term.objectBody? with
  | _ :: _, some bodies => objectTerm s (← mergeFields s n.id bodies.flatten) n
  | _, _ => composite s "intersection" .intersection n (sortedUnique ts) binder field

/-! ## Tags -/

def reportIncompatible (tag : Tag) (t : Term) (id : NodeId) (field : Option String) : M Unit := do
  report s .tagIncompatibleType [.text ("@" ++ tag.name), .text (← render s t.head.rawId)] id field

def indexFields (tag : Tag) : M (List Datum) :=
  match Datum.field? (tag.parsed.getD []) "fields" with
  | none => pure []
  | some (.list ds) => pure ds
  | some (.text t) => pure (t.toList.map fun c => .text (String.ofList [c]))
  | some (.record fs) => pure (fs.map fun f => .text f.1)
  | some _ => throw .wrongType

def namesField (fs : List FieldTerm) : Datum → M Bool
  | .text name => pure (fs.any fun f => f.1.name == name)
  | .list _ | .record _ => throw .wrongType
  | _ => pure false

/-- An index must stand at an object and name fields of it. -/
def checkIndex (tag : Tag) (t : Term) (id : NodeId) : M Unit := do
  match t.dereference.fields? with
  | none => if t.kinds?.isSome then reportIncompatible s tag t id none
  | some fs =>
    for name in ← indexFields tag do
      if !(← namesField fs name) then
        report s .tagFieldNotFound [name, .text "@index"] id none

/-- Reports tags that cannot annotate the type at which they stand. -/
def checkTags (tags : List Tag) (t : Term) (id : NodeId) (field : Option String)
    (entity : Bool) : M Unit := do
  for tag in tags do
    if tag.parsed.isSome then
      if tag.name = "index" then
        if entity then checkIndex s tag t id
      else
        match t.kinds? with
        | some kinds => if !tagFits tag.name kinds then reportIncompatible s tag t id field
        | none => pure ()

/-! ## Nodes -/

/-- The term of a recursive reference; the stack has the innermost target first. -/
def recursiveTerm (n : Node) (target : NodeId) (symbol : String) (stack : List NodeId) :
    M Term :=
  let link := (stack.idxOf? target).map fun depth => (depth, stack.length - 1 - depth)
  term s (.recursiveRef symbol target link) n.id [] n.tags n.location

/-- The term of a node's shape; `build` folds a child that stands in the named field. -/
def nodeTerm (build : Option String → NodeId → M Term) (n : Node) (stack : List NodeId)
    (field : Option String) (binder : Bool) : M Term := do
  match n.shape with
  | .primitive p => term s (.primitive p) n.id [] n.tags n.location
  | .literal k v => term s (.literal k v) n.id [] n.tags n.location
  | .enum ms => term s (.enum (sortMembers ms)) n.id [] n.tags n.location
  | .unknown r c => term s (.unknown r c) n.id [] n.tags n.location
  | .recursiveRef target symbol => recursiveTerm s n target symbol stack
  | .array e => term s .array n.id [← build field e] n.tags n.location
  | .tuple es => term s .tuple n.id (← es.mapM (build field)) n.tags n.location
  | .reference target symbol =>
    term s (.reference symbol) n.id [← build field target] n.tags n.location
  | .object fs =>
    let built ← fs.mapM fun f => do
      let t ← build (some f.name) f.type
      return (⟨f.name, f.optional, f.readonly, f.tags, f.location, f.type⟩, t)
    let merged ← mergeFields s n.id built
    for f in merged do
      checkTags s f.1.tags f.2 n.id (some f.1.name) false
    objectTerm s merged n
  | .union ms _ => unionTerm s n (← members s (build field) "union" unionMembers? ms) binder field
  | .intersection ms =>
    intersectionTerm s n (← members s (build field) "intersection" intersectionMembers? ms) binder
      field

/-- A node as a recursion target, or as a plain node when no reference to it is left. -/
def targetTerm (build : List NodeId → Option String → NodeId → M Term) (id : NodeId) (n : Node)
    (stack : List NodeId) (field : Option String) : M Term := do
  if s.binders.contains id && !(← get).dead.contains id then
    let before ← get
    let t ← nodeTerm s (build (id :: stack)) n (id :: stack) field true
    if t.free.contains stack.length then
      written (t.asTarget s.digester s.algorithm stack.length)
    else
      modify fun st => { st with
        sink := before.sink, closed := before.closed, dead := st.dead.insert id }
      nodeTerm s (build stack) n stack field false
  else nodeTerm s (build stack) n stack field false

/-- The term of a node. The nodes on the path are being folded; the fuel exceeds the number of nodes
that are not. -/
def build : Nat → Std.ExtTreeSet NodeId → List NodeId → Option String → NodeId → M Term
  | 0, _, _, _, id => unknownTerm s id "cycle without recursive_ref" .recursion
  | fuel + 1, path, stack, field, id => do
    checkDeadline
    match (← get).closed[id]? with
    | some t => return t
    | none =>
      match s.graph.node? id with
      | none => unknownTerm s id ("missing node " ++ id) .unresolved
      | some n =>
        if path.contains id then
          report s .recursionCycle [.text id] id field
          unknownTerm s id "cycle without recursive_ref" .recursion
        else
          let t ← targetTerm s (build fuel (path.insert id)) id n stack field
          if !n.tags.isEmpty then checkTags s n.tags t id none true
          if t.free.isEmpty then modify fun st => { st with closed := st.closed.insert id t }
          return t

def root : M Term := build s (s.graph.nodes.size + 1) ∅ [] none s.graph.root

end TypeAtlas.Folding
