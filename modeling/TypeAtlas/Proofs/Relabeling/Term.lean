import TypeAtlas.Normal.Fold
import TypeAtlas.Proofs.Normal.Subterm
import TypeAtlas.Proofs.Run

/-! # Relabelled terms

The nodes from which terms were folded, positions and symbols are no part of what is digested. A term
with other ones has the same digest and the same heights, and everything that a fold reads off terms is
read off it alike. Different nodes must stay different, since what is not a number is the same only at
its own node.
-/

namespace TypeAtlas

namespace Term

variable (d : Digester) (a : Algorithm) (n : Node)

/-- The term, as though it was folded from the node. -/
def ascribed (t : Term) : Term :=
  .mk { t.head with rawId := n.id, location := n.location } t.children

theorem make_ascribed (shape : TermShape) (id : NodeId) (ts : List Term) (tags : List Tag)
    (location : Option SourceLocation) :
    make d a shape n.id ts tags n.location =
      (make d a shape id ts tags location).map fun t => t.ascribed n := by
  simp only [make]
  cases d.node a shape.kind (sharedPayload shape.payload tags false) (ts.map digest) <;> rfl

theorem asTarget_ascribed (t : Term) (height : ℕ) :
    (t.ascribed n).asTarget d a height = (t.asTarget d a height).map fun u => u.ascribed n := by
  cases t with
  | mk h cs =>
    change (d.node a h.shape.kind (sharedPayload h.shape.payload h.tags true) (cs.map digest) >>= _) =
      Except.map _ (d.node a h.shape.kind (sharedPayload h.shape.payload h.tags true) (cs.map digest) >>= _)
    cases d.node a h.shape.kind (sharedPayload h.shape.payload h.tags true) (cs.map digest) <;> rfl

end Term

/-- Other nodes, positions and symbols for terms. -/
structure Relabeling where
  symbol : String → String
  location : SourceLocation → SourceLocation
  node : NodeId → NodeId
  target : NodeId → NodeId
  node_injective : Function.Injective node
  target_injective : Function.Injective target

namespace Relabeling

variable (σ : Relabeling)

/-! ## Nodes -/

def field (f : Field) : Field :=
  { f with type := σ.node f.type, location := f.location.map σ.location }

def shape : Shape → Shape
  | .array e => .array (σ.node e)
  | .tuple es => .tuple (es.map σ.node)
  | .object fs => .object (fs.map σ.field)
  | .union ms d => .union (ms.map σ.node) d
  | .intersection ms => .intersection (ms.map σ.node)
  | .reference target symbol => .reference (σ.node target) (σ.symbol symbol)
  | .recursiveRef target symbol => .recursiveRef (σ.target target) (σ.symbol symbol)
  | shape => shape

def graphNode (n : Node) : Node :=
  { n with
    id := σ.node n.id
    shape := σ.shape n.shape
    location := n.location.map σ.location }

/-! ## Terms -/

def fieldHead (f : FieldHead) : FieldHead :=
  { f with location := f.location.map σ.location, rawType := σ.node f.rawType }

def termShape : TermShape → TermShape
  | .object fs => .object (fs.map σ.fieldHead)
  | .reference symbol => .reference (σ.symbol symbol)
  | .recursiveRef symbol target link => .recursiveRef (σ.symbol symbol) (σ.target target) link
  | shape => shape

def termHead (h : TermHead) : TermHead :=
  { h with
    shape := σ.termShape h.shape
    rawId := σ.node h.rawId
    location := h.location.map σ.location }

mutual

def term : Term → Term
  | .mk h cs => .mk (σ.termHead h) (terms cs)

def terms : List Term → List Term
  | [] => []
  | t :: ts => term t :: terms ts

end

def fieldTerm (f : Folding.FieldTerm) : Folding.FieldTerm := (σ.fieldHead f.1, σ.term f.2)

def member (m : Folding.Member) : Folding.Member := (σ.node m.1, σ.term m.2)

def literal (l : Term.Literal) : Term.Literal := { l with node := σ.node l.node }

theorem terms_eq_map (ts : List Term) : σ.terms ts = ts.map σ.term := by
  induction ts with
  | nil => rfl
  | cons t ts ih => rw [terms, ih, List.map_cons]

theorem term_mk (h : TermHead) (cs : List Term) :
    σ.term (.mk h cs) = .mk (σ.termHead h) (cs.map σ.term) := by
  rw [term, terms_eq_map]

section Parts

variable (t : Term)

@[simp] theorem head_term : (σ.term t).head = σ.termHead t.head := by
  cases t
  rfl

@[simp] theorem children_term : (σ.term t).children = t.children.map σ.term := by
  cases t with
  | mk h cs => rw [term_mk, Term.children_mk, Term.children_mk]

@[simp] theorem shape_term : (σ.term t).shape = σ.termShape t.shape := by rw [Term.shape, head_term]; rfl

@[simp] theorem digest_term : (σ.term t).digest = t.digest := by rw [Term.digest, head_term]; rfl

@[simp] theorem free_term : (σ.term t).free = t.free := by rw [Term.free, head_term]; rfl

@[simp] theorem binder_term : (σ.term t).binder = t.binder := by rw [Term.binder, head_term]; rfl

@[simp] theorem family_term : (σ.term t).family = t.family := by rw [Term.family, head_term]; rfl

end Parts

section Shapes

variable (shape : TermShape)

@[simp] theorem kind_termShape : (σ.termShape shape).kind = shape.kind := by cases shape <;> rfl

@[simp] theorem payload_termShape : (σ.termShape shape).payload = shape.payload := by
  cases shape with
  | object fs => simp only [termShape, TermShape.payload, List.map_map, Function.comp_def, fieldHead]
  | _ => rfl

theorem familyOf_termShape (below : List Family) :
    Term.familyOf (σ.termShape shape) below = Term.familyOf shape below := by
  cases shape <;> rfl

end Shapes

/-! ## Making terms -/

theorem freeOf_map (ts : List Term) : Term.freeOf (ts.map σ.term) = Term.freeOf ts := by
  simp only [Term.freeOf, List.foldl_map, free_term]

variable (d : Digester) (a : Algorithm)

theorem make_term (shape : TermShape) (id : NodeId) (ts : List Term) (tags : List Tag)
    (location : Option SourceLocation) :
    Term.make d a (σ.termShape shape) (σ.node id) (ts.map σ.term) tags (location.map σ.location) =
      (Term.make d a shape id ts tags location).map σ.term := by
  have hdigests : (ts.map σ.term).map Term.digest = ts.map Term.digest := by simp
  have hfamilies : (ts.map σ.term).map Term.family = ts.map Term.family := by simp
  simp only [Term.make, kind_termShape, payload_termShape, hdigests, hfamilies, familyOf_termShape,
    freeOf_map]
  cases d.node a shape.kind (sharedPayload shape.payload tags false) (ts.map Term.digest) with
  | error e => rfl
  | ok digest =>
    refine congrArg Except.ok ?_
    rw [term_mk]
    cases shape with
    | recursiveRef symbol target link => cases link <;> rfl
    | _ => rfl

theorem asTarget_term (t : Term) (height : ℕ) :
    (σ.term t).asTarget d a height = (t.asTarget d a height).map σ.term := by
  have hdigests : (t.children.map σ.term).map Term.digest = t.children.map Term.digest := by simp
  have htags : (σ.termHead t.head).tags = t.head.tags := rfl
  simp only [Term.asTarget, shape_term, kind_termShape, payload_termShape, head_term, htags,
    children_term, hdigests, free_term]
  cases d.node a t.shape.kind (sharedPayload t.shape.payload t.head.tags true)
      (t.children.map Term.digest) with
  | error e => rfl
  | ok digest =>
    refine congrArg Except.ok ?_
    rw [term_mk]
    rfl

/-! ## Reading terms -/

theorem dereference_term (t : Term) : (σ.term t).dereference = σ.term t.dereference := by
  induction t with
  | mk h cs ih =>
    rw [term_mk]
    cases hs : h.shape with
    | reference symbol =>
      cases cs with
      | nil => simp [Term.dereference, termHead, termShape, hs, term_mk]
      | cons c cs =>
        simpa [Term.dereference, termHead, termShape, hs] using ih c List.mem_cons_self
    | _ => simp [Term.dereference, termHead, termShape, hs, term_mk]

theorem dereferenceFree_term (t : Term) : (σ.term t).dereferenceFree = σ.term t.dereferenceFree := by
  induction t with
  | mk h cs ih =>
    rw [term_mk]
    cases hs : h.shape with
    | reference symbol =>
      cases hb : h.binder with
      | true => simp [Term.dereferenceFree, termHead, termShape, hs, hb, term_mk]
      | false =>
        cases cs with
        | nil => simp [Term.dereferenceFree, termHead, termShape, hs, hb, term_mk]
        | cons c cs =>
          simpa [Term.dereferenceFree, termHead, termShape, hs, hb] using ih c List.mem_cons_self
    | _ => simp [Term.dereferenceFree, termHead, termShape, hs, term_mk]

theorem fields?_term (t : Term) : (σ.term t).fields? = t.fields?.map (List.map σ.fieldTerm) := by
  rw [Term.fields?, Term.fields?, shape_term, children_term]
  cases t.shape with
  | object heads => exact congrArg some List.zip_map
  | _ => rfl

theorem objectBody?_term (t : Term) :
    (σ.term t).objectBody? = t.objectBody?.map (List.map σ.fieldTerm) := by
  simp only [Term.objectBody?, dereferenceFree_term, binder_term, fields?_term]
  split <;> rfl

theorem requiredLiteral?_fieldTerm (f : Folding.FieldTerm) :
    Term.requiredLiteral? (σ.fieldTerm f) = (Term.requiredLiteral? f).map σ.literal := by
  simp only [Term.requiredLiteral?, fieldTerm, fieldHead, dereferenceFree_term, shape_term, head_term,
    termHead]
  cases f.1.optional <;> cases f.2.dereferenceFree.shape <;> rfl

theorem sameLiteral_literal (l m : Term.Literal) :
    Folding.sameLiteral (σ.literal l) (σ.literal m) = Folding.sameLiteral l m := by
  have hnode : (σ.node l.node == σ.node m.node) = (l.node == m.node) := by
    rw [Bool.eq_iff_iff, beq_iff_eq, beq_iff_eq, σ.node_injective.eq_iff]
  simp only [Folding.sameLiteral, literal, hnode]

theorem distinctLiterals_map (ls : List Term.Literal) :
    Folding.distinctLiterals (ls.map σ.literal) = Folding.distinctLiterals ls := by
  induction ls with
  | nil => rfl
  | cons l ls ih =>
    simp only [List.map_cons, Folding.distinctLiterals, ih, List.any_map, Function.comp_def,
      sameLiteral_literal]

theorem kinds?_term (t : Term) : (σ.term t).kinds? = t.kinds? := by
  induction t with
  | mk h cs ih =>
    have hall : Term.allKinds? (cs.map σ.term) = Term.allKinds? cs := by
      induction cs with
      | nil => rfl
      | cons c cs ihs =>
        obtain ⟨hc, hcs⟩ := List.forall_mem_cons.1 ih
        rw [List.map_cons, Term.allKinds?, Term.allKinds?, hc, ihs hcs]
    have hhead : Term.headKinds? (cs.map σ.term) = Term.headKinds? cs := by
      cases cs with
      | nil => rfl
      | cons c cs => exact ih c List.mem_cons_self
    rw [term_mk, Term.kinds?, Term.kinds?, hall, hhead]
    obtain ⟨shape⟩ := h
    cases shape <;> rfl

/-! ## Members and fields -/

open Folding

theorem splice_member (kind : String) (m : Member) :
    splice kind (σ.member m) = (splice kind m).map σ.member := by
  have htags : (σ.termHead m.2.head).tags = m.2.head.tags := rfl
  simp only [splice, member, shape_term, kind_termShape, head_term, htags, binder_term, children_term]
  split
  · rw [List.map_map, List.map_map]
    refine List.map_congr_left fun c _ => ?_
    rw [Function.comp_apply, Function.comp_apply, head_term]
    rfl
  · rfl

theorem sortedUnique_map (ts : List Term) :
    sortedUnique (ts.map σ.term) = (sortedUnique ts).map σ.term := by
  have hfold (m : Std.ExtTreeMap String Term) :
      (ts.map σ.term).foldl (fun m t => m.insertIfNew t.digest t) (m.map fun _ t => σ.term t) =
        (ts.foldl (fun m t => m.insertIfNew t.digest t) m).map fun _ t => σ.term t := by
    induction ts generalizing m with
    | nil => rfl
    | cons t ts ih =>
      rw [List.map_cons, List.foldl_cons, List.foldl_cons, ← ih]
      congr 1
      refine Std.ExtTreeMap.ext_getElem? fun k => ?_
      simp only [Std.ExtTreeMap.getElem?_insertIfNew, Std.ExtTreeMap.getElem?_map, digest_term,
        Std.ExtTreeMap.mem_map]
      split <;> rfl
  have hempty : (∅ : Std.ExtTreeMap String Term).map (fun _ t => σ.term t) = ∅ := by
    refine Std.ExtTreeMap.ext_getElem? fun k => ?_
    simp
  rw [sortedUnique, sortedUnique, ← hempty, hfold, Std.ExtTreeMap.toList_map, List.map_map,
    List.map_map, hempty]
  rfl

def sorting (acc : Sorting) : Sorting :=
  { acc with offending := acc.offending.map σ.node, kept := acc.kept.map σ.term }

theorem foldl_sorting (ms : List Member) (acc : Sorting) :
    (ms.map σ.member).foldl Sorting.add (σ.sorting acc) = σ.sorting (ms.foldl Sorting.add acc) := by
  induction ms generalizing acc with
  | nil => rfl
  | cons m ms ih =>
    rw [List.map_cons, List.foldl_cons, List.foldl_cons, ← ih]
    congr 1
    simp only [Sorting.add, member, family_term, sorting]
    split
    · rw [List.map_append]
      rfl
    · split
      · rw [List.map_append]
        rfl
      · cases acc.offending <;> rfl

theorem fieldNamed?_map (body : List FieldTerm) (name : String) :
    fieldNamed? (body.map σ.fieldTerm) name = (fieldNamed? body name).map σ.fieldTerm := by
  rw [fieldNamed?, fieldNamed?, List.find?_map]
  rfl

theorem discriminantAt?_map (bodies : List (List FieldTerm)) (name : String) :
    discriminantAt? (bodies.map (List.map σ.fieldTerm)) name = discriminantAt? bodies name := by
  have hfields : (bodies.map (List.map σ.fieldTerm)).mapM (fun b => fieldNamed? b name) =
      (bodies.mapM fun b => fieldNamed? b name).map (List.map σ.fieldTerm) := by
    rw [List.mapM_map, ← mapM_map_some]
    simp only [Function.comp_def, fieldNamed?_map]
  have hliterals (fields : List FieldTerm) : (fields.map σ.fieldTerm).mapM Term.requiredLiteral? =
      (fields.mapM Term.requiredLiteral?).map (List.map σ.literal) := by
    rw [List.mapM_map, ← mapM_map_some]
    simp only [Function.comp_def, requiredLiteral?_fieldTerm]
  rw [discriminantAt?, discriminantAt?, hfields]
  cases bodies.mapM fun b => fieldNamed? b name with
  | none => rfl
  | some fields =>
    simp only [Option.map_some, Option.bind_eq_bind, Option.bind_some, hliterals]
    cases fields.mapM Term.requiredLiteral? with
    | none => rfl
    | some literals =>
      simp only [Option.map_some, Option.bind_some, distinctLiterals_map, List.map_map]
      rfl

theorem mapM_objectBody? (ts : List Term) :
    (ts.map σ.term).mapM Term.objectBody? =
      (ts.mapM Term.objectBody?).map (List.map (List.map σ.fieldTerm)) := by
  rw [List.mapM_map, ← mapM_map_some]
  simp only [Function.comp_def, objectBody?_term]

/-- Members are told apart by what they hold, whatever they are called. -/
theorem discriminant?_map (ts : List Term) : discriminant? (ts.map σ.term) = discriminant? ts := by
  rw [discriminant?, discriminant?, mapM_objectBody?]
  cases ts.mapM Term.objectBody? with
  | none => rfl
  | some bodies =>
    match bodies with
    | [] => rfl
    | [_] => rfl
    | first :: second :: rest =>
      have hnames : (first.map σ.fieldTerm).map (fun f => f.1.name) = first.map fun f => f.1.name := by
        simp only [List.map_map, Function.comp_def, fieldTerm, fieldHead]
      have hat := funext (σ.discriminantAt?_map (first :: second :: rest))
      rw [List.map_cons, List.map_cons] at hat
      simp only [Option.map_some, Option.bind_eq_bind, Option.bind_some, List.map_cons, hnames, hat]

end Relabeling

end TypeAtlas
