import TypeAtlas.Tag.Core

/-! # Vocabularies

The closed set of tag names that a reading of comments recognises: core tags, all of them or a
choice, and free-form tags that accept any payload or none.
-/

namespace TypeAtlas

/-- How the payload of a recognised tag is read. -/
inductive Grammar where
  | core (t : CoreTag)
  | freeForm
deriving DecidableEq, Repr

namespace Grammar

def arity : Grammar → Arity
  | core t => t.arity
  | freeForm => .optional

def accepts : Grammar → List Char → Bool
  | core t, payload => t.accepts payload
  | freeForm, _ => true

def read : Grammar → List Char → Attempt (Option (List (String × Datum)))
  | core t, payload => t.read payload
  | freeForm, payload =>
    .ok (some (if payload.isEmpty then [] else [("text", .text (String.ofList payload))]))

end Grammar

structure Vocabulary where
  core : List CoreTag
  /-- The free-form names; one that is also an enabled core tag has the core grammar. -/
  extra : List String
deriving DecidableEq, Repr

namespace Vocabulary

def standard : Vocabulary := ⟨CoreTag.all, []⟩

instance : Inhabited Vocabulary := ⟨standard⟩

def sortedNames (names : List String) : List String :=
  (names.foldl (fun acc s => if acc.contains s then acc else s :: acc) []).mergeSort
    fun a b => decide (a ≤ b)

/-- The vocabulary with the enabled core tags and extra names; the error lists the enabled names
that are no core tags. -/
def make (enabled : Option (List String)) (extra : List String) :
    Except (List String) Vocabulary :=
  match enabled with
  | none => .ok ⟨CoreTag.all, extra⟩
  | some names =>
    let unknown := sortedNames (names.filter fun s => (CoreTag.ofName? s).isNone)
    if unknown.isEmpty then .ok ⟨CoreTag.all.filter fun t => names.contains t.name, extra⟩
    else .error unknown

def get? (v : Vocabulary) (name : String) : Option Grammar :=
  match v.core.find? fun t => t.name == name with
  | some t => some (.core t)
  | none => if v.extra.contains name then some .freeForm else none

def names (v : Vocabulary) : List String := sortedNames (v.core.map CoreTag.name ++ v.extra)

/-- The text that identifies a vocabulary: its names in order, each with its arity. -/
def signature (v : Vocabulary) : String :=
  Text.join "," (v.names.map fun name =>
    name ++ ":" ++ ((v.get? name).map fun g => g.arity.name).getD "")

end Vocabulary

end TypeAtlas
