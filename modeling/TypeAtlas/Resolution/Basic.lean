import TypeAtlas.Resolution.Walk

/-! # Resolution

The raw graph of a symbol. Whatever cannot be represented becomes an unknown node with a
diagnostic, and so does a symbol that is not declared.
-/

namespace TypeAtlas

/-- What is left of a resolution besides its result. -/
structure ResolutionTrace where
  deadline : Option Deadline
  events : List Resolution.Event

namespace Resolution

def root (s : Setting) (file : String) : M NodeId := do
  match ← lookup s ⟨file, s.symbol⟩ with
  | some d => declaration s (follow s s.source.depth) d
  | none =>
    let d := Diagnostic.make .typeUnresolved [.text s.symbol]
      (some { filePath := some file, symbol := some s.symbol })
    modify fun st => { st with sink := st.sink.emit d }
    unknown ("unresolved " ++ s.symbol) .unresolved

end Resolution

/-- How many nodes a resolution may complete unless told otherwise. -/
def defaultMaxNodes : Int := 10000

def resolve (source : DeclarationSource) (vocabulary : Vocabulary) (maxNodes : Int)
    (file symbol : String) (deadline : Option Deadline := none) (sharing : Bool := true) :
    Attempt (Outcome Graph) × ResolutionTrace :=
  let s : Resolution.Setting := { source, vocabulary, maxNodes, symbol, sharing }
  let (result, st) := (Resolution.root s file).run { deadline }
  let trace : ResolutionTrace := ⟨st.deadline, st.events.toList⟩
  match result with
  | .error f => (.error f, trace)
  | .ok root =>
    let g : Graph := {
      root, nodes := st.nodes, symbol, filePath := file, dependencies := st.dependencies.toList }
    (.ok (st.sink.outcome (some g)), trace)

end TypeAtlas
