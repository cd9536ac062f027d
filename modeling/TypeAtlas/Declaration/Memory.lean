import TypeAtlas.Declaration.Basic
import TypeAtlas.Description.Record

/-! # Declarations in memory

A collection of declarations given as records. The last declaration of a name in a file counts.
-/

namespace TypeAtlas

structure RecordDeclaration where
  file : String
  name : String
  type : Datum
  comment : Option String := none
  line : Option Int := none
  column : Option Int := none
  kind : DeclarationKind := .typeAlias

namespace RecordDeclaration

/-- The record of a declaration and its place among the others. -/
def placeAll : List RecordDeclaration →
    StateM Description.Placing (List (RecordDeclaration × DescriptionId))
  | [] => return []
  | d :: ds => do
    let part ← Description.Placing.place d.type
    return (d, part.child) :: (← placeAll ds)

/-- A record with an arena of its own. -/
def alone (d : RecordDeclaration) : Declaration :=
  let (types, type) := Description.ofDatum d.type
  { name := d.name, filePath := d.file, types, type, comment := d.comment, line := d.line,
    column := d.column, kind := d.kind }

def toDatum (d : RecordDeclaration) : Datum :=
  .record [("name", .text d.name), ("file_path", .text d.file), ("type", d.type),
    ("comment", Datum.optional .text d.comment), ("line", Datum.optional .int d.line),
    ("column", Datum.optional .int d.column), ("kind", .text d.kind.name)]

end RecordDeclaration

/-- Declarations, the latest first. -/
abbrev DeclarationTable := List Declaration

namespace DeclarationTable

def ofRecords (ds : List RecordDeclaration) : DeclarationTable :=
  let (placed, s) := (RecordDeclaration.placeAll ds).run {}
  let types := Description.readAll s
  (placed.map fun (d, id) =>
    { name := d.name, filePath := d.file, types, type := id, comment := d.comment, line := d.line,
      column := d.column, kind := d.kind : Declaration }).reverse

def lookup (t : DeclarationTable) (k : DeclarationKey) : Option Declaration :=
  t.find? fun d => d.key = k

/-- The names that a file declares, without repetition and in order. -/
def names (t : DeclarationTable) (file : String) : List String :=
  ((t.filter fun d => d.filePath == file).map Declaration.name).eraseDups.mergeSort
    fun a b => decide (a ≤ b)

/-- The declarations as a source. Nothing is nested more deeply than there are descriptions. -/
def source (t : DeclarationTable) : DeclarationSource where
  lookup k := .ok (t.lookup k)
  shared := true
  depth := (t.map fun d => d.types.size).foldl max 0 + 1

end DeclarationTable

end TypeAtlas
