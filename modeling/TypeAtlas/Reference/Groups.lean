import Std.Data.ExtTreeMap
import Std.Data.ExtTreeSet

/-! # References between symbols

Which symbols the declaration of a symbol refers to directly, and which symbols refer to each other.
-/

namespace TypeAtlas

/-- A symbol qualified by the file that declares it. -/
def symbolKey (file symbol : String) : String := file ++ "#" ++ symbol

/-- For each symbol the symbols that it refers to. -/
abbrev ReferenceGraph := Std.ExtTreeMap String (Std.ExtTreeSet String)

namespace ReferenceGraph

/-- Adds references of a symbol. The symbols referred to become part of the graph. -/
def addReferences (g : ReferenceGraph) (source : String) (targets : List String) :
    ReferenceGraph :=
  let g := g.insert source ((g.getD source ∅).insertMany targets)
  targets.foldl (fun g target => g.insertIfNew target ∅) g

def ofReferences (references : List (String × List String)) : ReferenceGraph :=
  references.foldl (fun g r => addReferences g r.1 r.2) ∅

def successors (g : ReferenceGraph) (node : String) : List String := (g.getD node ∅).toList

end ReferenceGraph

end TypeAtlas

/-! ## Recursive groups -/

namespace TypeAtlas.ReferenceGraph

/-- Why a search for groups stops. -/
inductive SearchFault where
  /-- The first symbol of a group is not on the stack. -/
  | missing (root : String)
  /-- The search goes deeper than there are symbols. -/
  | tooDeep
deriving DecidableEq, Repr

/-- What a search has found: the positions of the symbols it has come to, the symbols whose group is
not complete, last one first, and the groups. -/
structure Search where
  index : Nat := 0
  indices : Std.ExtTreeMap String Nat := ∅
  stack : List String := []
  groups : List (List String) := []

/-- Takes from a stack what lies above a symbol, and the symbol. -/
def popComponent (root : String) : List String → Except SearchFault (List String × List String)
  | [] => throw (.missing root)
  | member :: stack =>
    if member = root then return ([member], stack)
    else do
      let (component, stack) ← popComponent root stack
      return (member :: component, stack)

namespace Search

def enter (st : Search) (node : String) : Search :=
  { st with
    index := st.index + 1
    indices := st.indices.insert node st.index
    stack := node :: st.stack }

/-- A component is complete. Only mutual references and self-references make a group of it. -/
def complete (st : Search) (refersToItself : Bool) (component stack : List String) : Search :=
  { st with
    stack := stack
    groups :=
      if 1 < component.length || refersToItself then
        st.groups ++ [component.mergeSort fun a b => decide (a ≤ b)]
      else st.groups }

end Search

/-- Follows a reference. The number is the least position on the stack that was found to be reached. -/
def follow (visit : String → Search → Except SearchFault (Nat × Search)) :
    Nat × Search → String → Except SearchFault (Nat × Search)
  | (low, st), neighbor =>
    match st.indices[neighbor]? with
    | none => do
      let (reached, st) ← visit neighbor st
      return (min low reached, st)
    | some index => return (if neighbor ∈ st.stack then min low index else low, st)

def visit (g : ReferenceGraph) : Nat → String → Search → Except SearchFault (Nat × Search)
  | 0, _, _ => throw .tooDeep
  | fuel + 1, node, st => do
    let (low, after) ← (g.successors node).foldlM (follow (visit g fuel)) (st.index, st.enter node)
    if low = st.index then
      let (component, stack) ← popComponent node after.stack
      return (low, after.complete ((g.successors node).contains node) component stack)
    else return (low, after)

/-- The symbols of a graph, those included that are only referred to. -/
def symbols (g : ReferenceGraph) : List String := g.keys ++ g.keys.flatMap g.successors

/-- Searches from each symbol that the search has not come to yet. -/
def search (g : ReferenceGraph) : Except SearchFault (List (List String)) := do
  let st ← g.keys.foldlM (fun (st : Search) node =>
    if node ∈ st.indices then pure st else Prod.snd <$> visit g g.symbols.length node st) {}
  return st.groups.mergeSort fun a b => !decide (b < a)

/-- The groups of mutually recursive symbols. Each group is sorted, and so are the groups. -/
def recursiveGroups (g : ReferenceGraph) : List (List String) :=
  match search g with
  | .ok groups => groups
  | .error _ => []

end TypeAtlas.ReferenceGraph
