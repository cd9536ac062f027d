import TypeAtlas.Graph.Basic
import TypeAtlas.Json.Writer

/-! # Rendering types

Nodes as type expressions for messages. References show the symbol they name, and what is nested
too deeply is left out.
-/

namespace TypeAtlas

namespace Graph

def maxRenderDepth : Nat := 6

/-- A value as a message shows it: texts are quoted. -/
def renderValue (d : Datum) : Except Json.WriteError String := Json.compact d

def renderLiteral (kind : LiteralKind) (value : Scalar) : Except Json.WriteError String :=
  match kind with
  | .string => renderValue value.toDatum
  | .boolean => .ok (if value.toDatum.holds then "true" else "false")
  | .bigint => .ok (value.toDatum.display ++ "n")
  | .number => .ok value.toDatum.display

def isComposite : Option Node → Bool
  | some n => match n.shape with
    | .union .. | .intersection _ => true
    | _ => false
  | none => false

/-- A node as a type expression, with the number of levels that may still be shown. -/
def renderWithin (g : Graph) : Nat → NodeId → Except Json.WriteError String
  | 0, id => .ok (if (g.node? id).isSome then "..." else "unknown")
  | levels + 1, id =>
    match g.node? id with
    | none => .ok "unknown"
    | some n =>
      match n.shape with
      | .primitive p => .ok p.name
      | .literal k v => renderLiteral k v
      | .array e => do
        let text ← g.renderWithin levels e
        return (if isComposite (g.node? e) then "(" ++ text ++ ")" else text) ++ "[]"
      | .tuple es => do
        let texts ← es.mapM (g.renderWithin levels)
        return "[" ++ Text.join ", " texts ++ "]"
      | .object [] => .ok "\x7b\x7d"
      | .object fs => do
        let texts ← fs.mapM fun f => do
          let type ← g.renderWithin levels f.type
          return (if f.readonly then "readonly " else "") ++ f.name ++
            (if f.optional then "?" else "") ++ ": " ++ type
        return "\x7b " ++ Text.join "; " texts ++ " \x7d"
      | .union ms _ => do return Text.join " | " (← ms.mapM (g.renderWithin levels))
      | .intersection ms => do return Text.join " & " (← ms.mapM (g.renderWithin levels))
      | .enum ms => do
        let texts ← ms.mapM fun m => do return m.name ++ " = " ++ (← renderValue m.value.toDatum)
        return "enum \x7b " ++ Text.join ", " texts ++ " \x7d"
      | .reference _ s => .ok s
      | .recursiveRef _ s => .ok s
      | .unknown .. => .ok "unknown"

def render (g : Graph) (id : NodeId) : Except Json.WriteError String :=
  g.renderWithin (maxRenderDepth + 1) id

end Graph

end TypeAtlas
