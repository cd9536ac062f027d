import TypeAtlas.Deadline
import TypeAtlas.Declaration.Basic
import TypeAtlas.Tag.Reading

/-! # Walking descriptions

Following the description of a declaration into a raw graph. A name that is not being followed
becomes a reference to the body of its declaration. Bodies are shared, except those that refer back
to an enclosing declaration; a name that is being followed becomes a recursive reference, so the
walk ends.

The walk counts the nodes that are done against a budget. When it is used up, everything that
remains is left out and reported once.
-/

namespace TypeAtlas.Resolution

/-- What a walk does with names, in order. -/
inductive Event where
  /-- A name is looked up. -/
  | asked (key : DeclarationKey)
  /-- The declaration of a name that another one refers to is followed. -/
  | entered (name by_ : String)
deriving DecidableEq, Inhabited, Repr

/-- A declaration that is being followed. -/
structure Frame where
  key : DeclarationKey
  /-- The node of the declaration's body. -/
  body : NodeId
  /-- The bodies of enclosing declarations that this one refers back to. -/
  outer : List NodeId := []
  /-- The declarations followed below this one, itself included. -/
  names : List DeclarationKey
deriving Inhabited

/-- A body that may be shared, with the declarations that were followed below it. -/
structure SharedBody where
  key : DeclarationKey
  body : NodeId
  names : List DeclarationKey
deriving Inhabited

structure Setting where
  source : DeclarationSource
  vocabulary : Vocabulary
  maxNodes : Int
  /-- The symbol that the walk starts from. -/
  symbol : String
  /-- Whether bodies are shared at all. -/
  sharing : Bool

structure State where
  sink : Sink := {}
  nodes : Arena := ∅
  /-- How many node names have been given out. -/
  counter : Nat := 0
  /-- The declarations that are being followed, the innermost first. -/
  chain : List Frame := []
  bodies : List SharedBody := []
  /-- The descriptions that are being followed, each with the scope of its arena. -/
  active : List (Nat × DescriptionId) := []
  /-- How many scopes have been opened. -/
  scopes : Nat := 0
  dependencies : Std.ExtTreeSet String := ∅
  /-- The node that stands for what the budget leaves out. -/
  limit : Option NodeId := none
  deadline : Option Deadline := none
  events : Array Event := #[]

/-- What was done so far is kept when a walk ends with a fault. -/
abbrev M := ExceptT Fault (StateM State)

/-- The arena of the declaration at hand. -/
structure Site where
  types : Descriptions
  scope : Nat

variable (s : Setting)

/-! ## Nodes -/

def newId : M NodeId := do
  modify fun st => { st with counter := st.counter + 1 }
  return "r" ++ toString (← get).counter

def idOr : Option NodeId → M NodeId
  | some id => pure id
  | none => newId

def add (node : Node) : M NodeId := do
  modify fun st => { st with nodes := st.nodes.insert node.id node }
  return node.id

/-! ## Places -/

/-- The file and name of the declaration at hand. -/
def current? : M (Option DeclarationKey) := do
  return (← get).chain.head?.map Frame.key

def place (position : Option Position) : M Place := do
  let key ← current?
  return {
    filePath := key.map DeclarationKey.file
    line := position.bind Position.line
    column := position.bind Position.column
    symbol := some s.symbol }

def location (position : Option Position) : M (Option SourceLocation) := do
  match position, ← current? with
  | some p, some key => return some ⟨key.file, p.line, p.column⟩
  | _, _ => return none

def report (key : DiagnosticKey) (args : List String) (position : Option Position)
    (field : Option String) : M Unit := do
  let entity := ((← current?).map DeclarationKey.name).getD s.symbol
  let d := Diagnostic.make key (args.map .text) (some (← place s position))
    (some { entity := some entity, field })
  modify fun st => { st with sink := st.sink.emit d }

def unknown (reason : String) (cause : UnknownCause) (id : Option NodeId := none)
    (position : Option Position := none) : M NodeId := do
  let id ← idOr id
  add { id, shape := .unknown reason cause, location := ← location position }

def unsupported (construct : String) (detail : Option String) (position : Option Position)
    (field : Option String) (id : Option NodeId) : M NodeId := do
  let text := Construct.describe construct detail
  report s .typeUnsupported [text] position field
  unknown text .unsupported id position

/-- The tags of a comment, whose diagnostics the walk takes over. -/
def tags (comment : Option String) (field : Option String) (position : Option Position) :
    M (List Tag) := do
  match comment with
  | none => return []
  | some "" => return []
  | some text =>
    let entity := (← current?).map DeclarationKey.name
    let r ← readTags (some text) s.vocabulary entity field (some (← place s position))
    modify fun st => { st with sink := st.sink.absorb r }
    return r.value.getD []

/-! ## Limits -/

def checkDeadline : M Unit := do
  match (← get).deadline with
  | none => return
  | some d =>
    let (late, d) := d.expired
    modify fun st => { st with deadline := some d }
    if late then throw (.deadlineExpired d.seconds)

def limitReason : String := "node budget exceeded"

/-- The node that stands for what the budget leaves out; the first time this is reported. -/
def limitNode : M NodeId := do
  let st ← get
  match st.limit with
  | some limit => return limit
  | none =>
    let d := Diagnostic.make .resolutionLimit [.int s.maxNodes, .text s.symbol]
      (some { filePath := st.chain.getLast?.map fun f => f.key.file, symbol := some s.symbol })
    modify fun st => { st with sink := st.sink.emit d }
    let limit ← unknown limitReason .unsupported
    modify fun st => { st with limit := some limit }
    return limit

/-- The node that is left out once the budget is used up. -/
def limited? (id : Option NodeId) : M (Option NodeId) := do
  if ((← get).nodes.size : Int) < s.maxNodes then return none
  else
    let limit ← limitNode s
    match id with
    | some id => return some (← unknown limitReason .unsupported (some id))
    | none => return some limit

/-! ## Recursion -/

/-- The innermost declaration of a name that is being followed. -/
def frameNamed? (name : String) (file : Option String) : M (Option Frame) := do
  return (← get).chain.find? fun f => f.key.name == name && file.all (f.key.file == ·)

/-- The chain with a reference from the innermost declaration to one that encloses it. -/
def markOuter (body : NodeId) : List Frame → List Frame
  | [] => []
  | f :: fs =>
    if f.body = body then f :: fs
    else { f with outer := if f.outer.contains body then f.outer else body :: f.outer } ::
      markOuter body fs

def recursiveRef (frame : Frame) (id : NodeId) (position : Option Position) (tags : List Tag) :
    M NodeId := do
  modify fun st => { st with chain := markOuter frame.body st.chain }
  let shape : Shape := .recursiveRef frame.body frame.key.name
  add { id, shape, tags, location := ← location position }

/-- The innermost declaration that a description is labelled with. -/
def frameLabelled? : Option String → M (Option Frame)
  | some name => frameNamed? name none
  | none => return none

def backEdge (d : Description) (id : Option NodeId) (field : Option String) : M NodeId := do
  match ← frameLabelled? d.label with
  | some frame => recursiveRef frame (← idOr id) d.position []
  | none =>
    let entity := (← current?).map DeclarationKey.name
    let path := Text.join "." (([entity, field].filterMap fun part => part).filter (· != ""))
    report s .recursionCycle [if path = "" then "<anonymous>" else path] d.position field
    unknown "anonymous recursive shape" .recursion id d.position

/-! ## Declarations -/

def addNames (names more : List DeclarationKey) : List DeclarationKey :=
  more.foldl (fun acc k => if acc.contains k then acc else acc ++ [k]) names

/-- The chain after its innermost declaration has followed the given ones. -/
def noteNames (more : List DeclarationKey) : List Frame → List Frame
  | [] => []
  | f :: fs => { f with names := addNames f.names more } :: fs

/-- The body of a declaration if it may be shared here. One that contains a declaration which is
being followed would turn out differently. -/
def sharedBody? (key : DeclarationKey) : M (Option NodeId) := do
  let st ← get
  match if s.sharing then st.bodies.find? fun b => b.key = key else none with
  | none => return none
  | some b =>
    if st.chain.any fun f => b.names.contains f.key then return none
    else
      modify fun st => { st with chain := noteNames b.names st.chain }
      return some b.body

/-- Follows a description in an arena, as the node of the given name if there is one. -/
abbrev Follow :=
  Site → DescriptionId → Option NodeId → List Tag → Option String → M NodeId

/-- A declaration is the innermost one from now on; its body gets a name. -/
def enter (d : Declaration) : M NodeId := do
  let body ← newId
  modify fun st => { st with
    chain := { key := d.key, body, names := [d.key] } :: st.chain
    scopes := st.scopes + 1 }
  return body

def leave (key : DeclarationKey) (body : NodeId) : M Unit :=
  modify fun st =>
    match st.chain with
    | [] => st
    | f :: rest =>
      { st with
        chain := noteNames f.names rest
        bodies := if f.outer.isEmpty then ⟨key, body, f.names⟩ :: st.bodies else st.bodies }

def declaration (follow : Follow) (d : Declaration) : M NodeId := do
  let body ← enter d
  let scope := (← get).scopes
  let site : Site := ⟨d.types, if s.source.shared then 0 else scope⟩
  let position := d.line.map fun line => ({ line := some line, column := d.column } : Position)
  let ts ← tags s d.comment none position
  let _ ← follow site d.type (some body) ts none
  leave d.key body
  return body

def lookup (key : DeclarationKey) : M (Option Declaration) := do
  modify fun st => { st with events := st.events.push (.asked key) }
  match s.source.lookup key with
  | .ok d => return d
  | .error f => throw f

/-- The body of a declaration that the given one refers to, shared if it may be. -/
def bodyOf (follow : Follow) (name by_ : String) (d : Declaration) : M NodeId := do
  match ← sharedBody? s d.key with
  | some body => return body
  | none =>
    modify fun st => { st with events := st.events.push (.entered name by_) }
    declaration s follow d

def reference (follow : Follow) (name : String) (file : Option String)
    (position : Option Position) (id : NodeId) (tags : List Tag) (field : Option String) :
    M NodeId := do
  let at_ := (← current?).getD ⟨"", ""⟩
  let key : DeclarationKey := ⟨file.getD at_.file, name⟩
  modify fun st =>
    if st.chain.length = 1 then { st with dependencies := st.dependencies.insert name } else st
  match ← frameNamed? name (some key.file) with
  | some frame => recursiveRef frame id position tags
  | none =>
    match ← lookup s key with
    | none =>
      report s .typeUnresolved [name] position field
      unknown ("unresolved " ++ name) .unresolved (some id) position
    | some d =>
      let target ← bodyOf s follow name at_.name d
      add { id, shape := .reference target name, tags, location := ← location position }

/-! ## Descriptions -/

def fieldType (follow : Follow) (site : Site) (f : FieldDescription) : M NodeId :=
  match f.type with
  | none => unsupported s "missing field type" none f.position (some f.name) none
  | some id => follow site id none [] (some f.name)

def field (follow : Follow) (site : Site) (f : Attempt FieldDescription) : M Field := do
  let f ← f
  let ts ← tags s f.comment (some f.name) f.position
  let type ← fieldType s follow site f
  return {
    name := f.name, type, optional := f.optional, readonly := f.readonly, tags := ts
    location := ← location f.position }

/-- The members of an enum, or what is unsupported about the first that is not constant. -/
def enumMembers : List (Attempt MemberDescription) → Attempt (Except String (List EnumMember))
  | [] => return .ok []
  | m :: ms => do
    match ← m with
    | .unsupported detail => return .error detail
    | .constant member => return (← enumMembers ms).map (member :: ·)

def build (follow : Follow) (site : Site) (d : Description) (id : NodeId) (tags : List Tag)
    (inField : Option String) : M NodeId := do
  let node (shape : Shape) : M NodeId := do
    add { id, shape, tags, location := ← location d.position }
  let child (c : DescriptionId) : M NodeId := follow site c none [] inField
  match d.shape with
  | .primitive p => node (.primitive p)
  | .literal k v => node (.literal k v)
  | .array e => node (.array (← child e))
  | .tuple es => node (.tuple (← es.mapM child))
  | .object fs => node (.object (← fs.mapM (field s follow site)))
  | .union ms => node (.union (← ms.mapM child) none)
  | .intersection ms => node (.intersection (← ms.mapM child))
  | .enum ms =>
    match ← enumMembers ms with
    | .ok ms => node (.enum ms)
    | .error detail => unsupported s "enum" (some detail) d.position inField (some id)
  | .reference name file => reference s follow name file d.position id tags inField
  | .unsupported construct detail =>
    unsupported s construct detail d.position inField (some id)

/-- Follows a description; the fuel bounds how deeply descriptions are nested. -/
def follow : Nat → Follow
  | 0, _, _, _, _, _ => throw .nestingTooDeep
  | fuel + 1, site, d, id, tags, field => do
    checkDeadline
    match ← limited? s id with
    | some limit => return limit
    | none =>
      let mark := (site.scope, d)
      let description := site.types.get d
      if (← get).active.contains mark then
        backEdge s (← description) id field
      else
        modify fun st => { st with active := mark :: st.active }
        let id ← idOr id
        let result ← build s (follow fuel) site (← description) id tags field
        modify fun st => { st with active := st.active.erase mark }
        return result

end TypeAtlas.Resolution
