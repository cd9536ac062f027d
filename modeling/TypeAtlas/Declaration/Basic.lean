import TypeAtlas.Description.Basic

/-! # Declarations

The named types of a source file, and where they are looked up.
-/

namespace TypeAtlas

inductive DeclarationKind where
  | interface
  | typeAlias
  | enum
deriving DecidableEq, Inhabited, Repr

def DeclarationKind.name : DeclarationKind → String
  | interface => "interface"
  | typeAlias => "type_alias"
  | enum => "enum"

structure Declaration where
  name : String
  filePath : String
  /-- The arena that holds the description. -/
  types : Descriptions
  type : DescriptionId
  comment : Option String := none
  line : Option Int := none
  column : Option Int := none
  kind : DeclarationKind := .typeAlias
deriving Inhabited

structure DeclarationKey where
  file : String
  name : String
deriving DecidableEq, Inhabited, Repr

def Declaration.key (d : Declaration) : DeclarationKey := ⟨d.filePath, d.name⟩

structure DeclarationSource where
  /-- The declaration that a name stands for in a file. -/
  lookup : DeclarationKey → Attempt (Option Declaration)
  /-- Whether all declarations have one arena, so that a part of one may occur in another. -/
  shared : Bool
  /-- How deeply the descriptions that are followed may be nested. -/
  depth : Nat

end TypeAtlas
