import TypeAtlas.Normal.Emission
import TypeAtlas.Normal.Fold

/-! # Normalization

The canonical form of a graph: structurally equal parts are one node, unions and intersections are
flat and sorted, and the names of nodes are digests of their content.
-/

namespace TypeAtlas

structure Normalized where
  outcome : Outcome CanonicalGraph
  /-- The recursion targets to which no reference was left. -/
  dead : Std.ExtTreeSet NodeId
  deadline : Option Deadline

namespace Graph

/-- Normalises with some recursion targets known to be dead from the start. -/
def normalizeFrom (digester : Digester) (a : Algorithm) (g : Graph) (dead : Std.ExtTreeSet NodeId)
    (deadline : Option Deadline) : Attempt Normalized := do
  let s : Folding.Setting := { digester, algorithm := a, graph := g, binders := g.binders }
  let (t, st) ← (Folding.root s).run { dead, deadline }
  let (root, nodes) ← (Emission.emit digester a t []).run ∅
  let canonical : CanonicalGraph := { g with root, nodes, algorithm := a.name }
  return ⟨st.sink.outcome (some canonical), st.dead, st.deadline⟩

def normalize (digester : Digester) (a : Algorithm) (g : Graph)
    (deadline : Option Deadline := none) : Attempt Normalized :=
  g.normalizeFrom digester a ∅ deadline

end Graph

def Algorithm.named (name : String) : Attempt Algorithm :=
  match ofName? name with
  | some a => .ok a
  | none => .error (.unsupportedAlgorithm name)

/-- The algorithm to use: the one asked for, unless it is empty, or else the recorded one. -/
def Algorithm.choose (asked recorded : Option String) : Attempt Algorithm :=
  Algorithm.named <| match asked with
    | some s => if s = "" then recorded.getD "sha256" else s
    | none => recorded.getD "sha256"

end TypeAtlas
