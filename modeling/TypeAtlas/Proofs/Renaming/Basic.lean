import Mathlib.Logic.Function.Basic
import TypeAtlas.Declaration.Memory
import TypeAtlas.Resolution.Basic

/-! # Renamings

Declarations and files under other names. Different names stay different. Descriptions and nodes are
the same but for the names they use: those of declarations, of files and of anonymous parts. Names of
nodes, of fields and of members of enums are not touched.
-/

namespace TypeAtlas

/-- Other names for declarations and for files. The empty text, which names nothing, stays. -/
structure Renaming where
  name : String → String
  file : String → String
  name_injective : Function.Injective name
  file_injective : Function.Injective file
  name_empty : name "" = ""
  file_empty : file "" = ""

namespace Renaming

def refl : Renaming := ⟨id, id, Function.injective_id, Function.injective_id, rfl, rfl⟩

variable (ρ : Renaming)

/-! ## Declarations -/

def key (k : DeclarationKey) : DeclarationKey := ⟨ρ.file k.file, ρ.name k.name⟩

/-- What is unsupported is never followed, so its detail stays even if it is a name. -/
def descriptionShape : DescriptionShape → DescriptionShape
  | .reference name file => .reference (ρ.name name) (file.map ρ.file)
  | shape => shape

def description (d : Description) : Description :=
  { d with shape := ρ.descriptionShape d.shape, label := d.label.map ρ.name }

def descriptions (ds : Descriptions) : Descriptions := ds.map fun d => d.map ρ.description

def declaration (d : Declaration) : Declaration :=
  { d with name := ρ.name d.name, filePath := ρ.file d.filePath, types := ρ.descriptions d.types }

def table (t : DeclarationTable) : DeclarationTable := List.map ρ.declaration t

theorem key_injective : Function.Injective ρ.key := by
  rintro ⟨f, n⟩ ⟨g, m⟩ h
  simp only [key, DeclarationKey.mk.injEq] at h
  rw [ρ.file_injective h.1, ρ.name_injective h.2]

theorem key_empty : ρ.key ⟨"", ""⟩ = ⟨"", ""⟩ := by rw [key, ρ.file_empty, ρ.name_empty]

theorem name_beq (a b : String) : (ρ.name a == ρ.name b) = (a == b) := by
  rw [Bool.eq_iff_iff, beq_iff_eq, beq_iff_eq, ρ.name_injective.eq_iff]

theorem file_beq (a b : String) : (ρ.file a == ρ.file b) = (a == b) := by
  rw [Bool.eq_iff_iff, beq_iff_eq, beq_iff_eq, ρ.file_injective.eq_iff]

theorem key_declaration (d : Declaration) : (ρ.declaration d).key = ρ.key d.key := rfl

theorem get_descriptions (ds : Descriptions) (i : DescriptionId) :
    (ρ.descriptions ds).get i = (ds.get i).map ρ.description := by
  rw [Descriptions.get, Descriptions.get, descriptions, Array.getElem?_map]
  cases ds[i]? <;> rfl

theorem size_descriptions (ds : Descriptions) : (ρ.descriptions ds).size = ds.size :=
  Array.size_map

theorem lookup_table (t : DeclarationTable) (k : DeclarationKey) :
    (ρ.table t).lookup (ρ.key k) = (t.lookup k).map ρ.declaration := by
  rw [DeclarationTable.lookup, DeclarationTable.lookup, table, List.find?_map]
  congr 2
  funext d
  simp only [Function.comp_apply, key_declaration, ρ.key_injective.eq_iff]

theorem depth_table (t : DeclarationTable) : (ρ.table t).source.depth = t.source.depth := by
  simp only [DeclarationTable.source, table, List.map_map, Function.comp_def, declaration,
    size_descriptions]

/-! ## Graphs -/

def location (l : SourceLocation) : SourceLocation := { l with file := ρ.file l.file }

def field (f : Field) : Field := { f with location := f.location.map ρ.location }

def shape : Shape → Shape
  | .object fs => .object (fs.map ρ.field)
  | .reference target symbol => .reference target (ρ.name symbol)
  | .recursiveRef target symbol => .recursiveRef target (ρ.name symbol)
  | shape => shape

def node (n : Node) : Node :=
  { n with shape := ρ.shape n.shape, location := n.location.map ρ.location }

def arena (nodes : Arena) : Arena := nodes.map fun _ n => ρ.node n

theorem getElem?_arena (nodes : Arena) (id : NodeId) : (ρ.arena nodes)[id]? = nodes[id]?.map ρ.node := by
  rw [arena, Std.ExtTreeMap.getElem?_map]

theorem size_arena (nodes : Arena) : (ρ.arena nodes).size = nodes.size := Std.ExtTreeMap.size_map

theorem arena_insert (nodes : Arena) (id : NodeId) (n : Node) :
    ρ.arena (nodes.insert id n) = (ρ.arena nodes).insert id (ρ.node n) := by
  refine Std.ExtTreeMap.ext_getElem? fun k => ?_
  rw [getElem?_arena, Std.ExtTreeMap.getElem?_insert, Std.ExtTreeMap.getElem?_insert, getElem?_arena]
  split <;> rfl

theorem mem_arena (nodes : Arena) (id : NodeId) : id ∈ ρ.arena nodes ↔ id ∈ nodes :=
  Std.ExtTreeMap.mem_map

theorem recursionTarget?_shape (shape : Shape) :
    (ρ.shape shape).recursionTarget? = shape.recursionTarget? := by
  cases shape <;> rfl

/-! ## No renaming -/

theorem location_refl : refl.location = id := rfl

theorem field_refl : refl.field = id := by
  funext f
  simp only [field, location_refl, Option.map_id, id]

theorem shape_refl : refl.shape = id := by
  funext shape
  cases shape with
  | object fs => simp only [Renaming.shape, field_refl, List.map_id, id]
  | _ => rfl

theorem node_refl : refl.node = id := by
  funext n
  simp only [node, shape_refl, location_refl, Option.map_id, id]

theorem arena_refl (nodes : Arena) : refl.arena nodes = nodes := by
  refine Std.ExtTreeMap.ext_getElem? fun k => ?_
  rw [getElem?_arena, node_refl, Option.map_id, id]

theorem descriptionShape_refl : refl.descriptionShape = id := by
  funext shape
  cases shape with
  | reference name file =>
    cases file <;> rfl
  | _ => rfl

theorem description_refl : refl.description = id := by
  funext d
  have hlabel : d.label.map refl.name = d.label := Option.map_id'
  simp only [description, descriptionShape_refl, hlabel, id]

theorem declaration_refl : refl.declaration = id := by
  funext d
  have htypes : refl.descriptions d.types = d.types := by
    rw [descriptions, description_refl]
    simp [Except.map_id]
  simp only [declaration, htypes, id]
  rfl

end Renaming

/-- The graph whose nodes are renamed. What the graph itself is called matters only if the graphs must
agree in what is reported. -/
structure Graph.Beside (ρ : Renaming) (exact : Prop) (g g' : Graph) : Prop where
  root : g'.root = g.root
  nodes : g'.nodes = ρ.arena g.nodes
  same : exact → g' = g

namespace Graph.Beside

variable {ρ : Renaming} {exact : Prop} {g g' : Graph}

theorem node? (h : g.Beside ρ exact g') (id : NodeId) : g'.node? id = (g.node? id).map ρ.node := by
  rw [Graph.node?, h.nodes, ρ.getElem?_arena]
  rfl

theorem binders (h : g.Beside ρ exact g') : g'.binders = g.binders := by
  simp only [Graph.binders, h.nodes, Renaming.arena, Std.ExtTreeMap.toList_map, List.filterMap_map,
    Function.comp_def, Renaming.node, Renaming.recursionTarget?_shape]

theorem size (h : g.Beside ρ exact g') : g'.nodes.size = g.nodes.size := by
  rw [h.nodes, ρ.size_arena]

end Graph.Beside

end TypeAtlas
