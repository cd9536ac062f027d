import TypeAtlas.Normal.Term

/-! # Emission

Writing a term out as an arena of nodes named by content. A closed term is named by its digest; a
term that refers to enclosing targets is named by its digest together with the names of these.
-/

namespace TypeAtlas.Emission

abbrev M := StateT Arena (Except Fault)

/-- The target at a height; the outermost one comes first. -/
def targetAt (targets : List NodeId) (height : Nat) : M NodeId :=
  match targets[height]? with
  | some id => pure id
  | none => throw .noEnclosingTarget

def name (d : Digester) (a : Algorithm) (h : TermHead) (targets : List NodeId) : M NodeId := do
  if h.free.isEmpty then return h.digest
  else
    let ids ← h.free.toList.mapM (targetAt targets)
    StateT.lift (Attempt.ofWrite (d.node a "open" [("binders", .texts ids)] [h.digest]))

/-- The shape of the node for a term whose children have the given names. -/
def shapeOf (shape : TermShape) (targets ids : List NodeId) : M Shape := do
  match shape with
  | .primitive p => return .primitive p
  | .literal k v => return .literal k v
  | .array => return .array (ids.headD "")
  | .tuple => return .tuple ids
  | .object heads =>
    return .object ((heads.zip ids).map fun (f, id) =>
      { name := f.name, type := id, optional := f.optional, readonly := f.readonly, tags := f.tags,
        location := f.location })
  | .union d => return .union ids d
  | .intersection => return .intersection ids
  | .enum ms => return .enum ms
  | .reference symbol => return .reference (ids.headD "") symbol
  | .recursiveRef symbol target link =>
    match link with
    | some (_, height) => return .recursiveRef (← targetAt targets height) symbol
    | none => return .recursiveRef target symbol
  | .unknown r c => return .unknown r c

mutual

/-- Files the nodes of a term, and gives its name. -/
def emit (d : Digester) (a : Algorithm) : Term → List NodeId → M NodeId
  | .mk h cs, targets => do
    let id ← name d a h targets
    if (← get).contains id then return id
    else
      let inner := if h.binder then targets ++ [id] else targets
      let ids ← emitAll d a cs inner
      let shape ← shapeOf h.shape inner ids
      modify fun arena => arena.insertIfNew id
        { id, shape, tags := h.tags, location := h.location }
      return id

def emitAll (d : Digester) (a : Algorithm) : List Term → List NodeId → M (List NodeId)
  | [], _ => return []
  | t :: ts, targets => do
    let id ← emit d a t targets
    return id :: (← emitAll d a ts targets)

end

end TypeAtlas.Emission
