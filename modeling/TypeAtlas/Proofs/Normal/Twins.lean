import TypeAtlas.Proofs.Normal.Formed

/-! # What twins have in common

Terms that say the same have the same tags and the same fields, lead to the same bodies through
references, and are told apart by the same discriminants when their literals are finite.
-/

namespace TypeAtlas

theorem Primitive.name_inj {p q : Primitive} (h : p.name = q.name) : p = q := by
  cases p <;> cases q <;> simp_all [name]

theorem LiteralKind.name_inj {k l : LiteralKind} (h : k.name = l.name) : k = l := by
  cases k <;> cases l <;> simp_all [name]

theorem UnknownCause.name_inj {b c : UnknownCause} (h : b.name = c.name) : b = c := by
  cases b <;> cases c <;> simp_all [name]

/-- Tags that are alike up to the order of fields in their payloads and numbers that are not
finite. -/
def TagsAlike (ss ts : List Tag) : Prop :=
  ss.map (fun t => t.payload.canonical) = ts.map fun t => t.payload.canonical

theorem TagsAlike.isEmpty {ss ts : List Tag} (h : TagsAlike ss ts) : ss.isEmpty = ts.isEmpty := by
  cases ss <;> cases ts <;> simp_all [TagsAlike]

theorem mem_sharedPayload_tags {payload : List (String × Datum)} {tags : List Tag} {b : Bool}
    {x : Datum} (hp : ∀ f ∈ payload, f.1 ≠ "tags") :
    ("tags", x) ∈ sharedPayload payload tags b ↔
      tags ≠ [] ∧ x = .list (tags.map Tag.payload) := by
  have hno : ("tags", x) ∉ payload := fun h => hp _ h rfl
  simp only [sharedPayload, List.mem_append, hno, false_or]
  split_ifs <;> simp_all

theorem tagsAlike_of_fieldsAlike {p q : List (String × Datum)} {ss ts : List Tag} {b c : Bool}
    (hp : ∀ f ∈ p, f.1 ≠ "tags") (hq : ∀ f ∈ q, f.1 ≠ "tags")
    (h : Datum.FieldsAlike (sharedPayload p ss b) (sharedPayload q ts c)) : TagsAlike ss ts := by
  have hone {p q : List (String × Datum)} {ss ts : List Tag} {b c : Bool}
      (hp : ∀ f ∈ p, f.1 ≠ "tags") (hq : ∀ f ∈ q, f.1 ≠ "tags")
      (h : Datum.FieldsAlike (sharedPayload p ss b) (sharedPayload q ts c)) (hss : ss ≠ []) :
      TagsAlike ss ts := by
    obtain ⟨w, hw, he⟩ := h.exists_mem ((mem_sharedPayload_tags hp).2 ⟨hss, rfl⟩)
    obtain ⟨-, rfl⟩ := (mem_sharedPayload_tags hq).1 hw
    simpa [TagsAlike, Function.comp_def] using he.symm
  by_cases hss : ss = []
  · by_cases hts : ts = []
    · rw [hss, hts, TagsAlike]
    · exact (hone hq hp h.symm hts).symm
  · exact hone hp hq h hss

/-- Fields that are alike, apart from where they stand. -/
structure FieldHead.Alike (f g : FieldHead) : Prop where
  name : f.name = g.name
  optional : f.optional = g.optional
  readonly : f.readonly = g.readonly
  tags : TagsAlike f.tags g.tags

theorem FieldHead.alike_of_payload {f g : FieldHead}
    (h : (fieldPayload f.name f.optional f.readonly f.tags).canonical =
      (fieldPayload g.name g.optional g.readonly g.tags).canonical) : f.Alike g := by
  have hkeys (name : String) (optional readonly : Bool) : ∀ f ∈ [("name", Datum.text name),
      ("optional", .bool optional), ("readonly", .bool readonly)], f.1 ≠ "tags" := by simp
  have halike : Datum.FieldsAlike _ _ := h
  have hentry {k : String} {x : Datum} (hk : k ≠ "tags") (hx : (k, x) ∈ [("name", Datum.text f.name),
      ("optional", .bool f.optional), ("readonly", .bool f.readonly)]) :
      ∃ y, (k, y) ∈ [("name", Datum.text g.name), ("optional", .bool g.optional),
        ("readonly", .bool g.readonly)] ∧ y.canonical = x.canonical := by
    obtain ⟨y, hy, he⟩ := halike.exists_mem (List.mem_append_left _ (List.mem_append_left _ hx))
    refine ⟨y, ?_, he⟩
    simp only [sharedPayload, List.mem_append] at hy
    rcases hy with (hy | hy) | hy
    · exact hy
    · split at hy <;> simp_all
    · simp at hy
  obtain ⟨x, hx, hxe⟩ := hentry (k := "name") (by simp) (.head _)
  obtain ⟨y, hy, hye⟩ := hentry (k := "optional") (by simp) (.tail _ (.head _))
  obtain ⟨z, hz, hze⟩ := hentry (k := "readonly") (by simp) (.tail _ (.tail _ (.head _)))
  obtain rfl : x = .text g.name := by simpa using hx
  obtain rfl : y = .bool g.optional := by simpa using hy
  obtain rfl : z = .bool g.readonly := by simpa using hz
  exact ⟨by simpa using hxe.symm, by simpa using hye.symm, by simpa using hze.symm,
    tagsAlike_of_fieldsAlike (hkeys _ _ _) (hkeys _ _ _) halike⟩

/-- Shapes of terms that are alike. Where the discriminant comes from the members, it is not
compared. -/
inductive TermShape.Alike : TermShape → TermShape → Prop
  | primitive {p : Primitive} : Alike (.primitive p) (.primitive p)
  | literal {k : LiteralKind} {x y : Scalar} (h : x.toDatum.canonical = y.toDatum.canonical) :
      Alike (.literal k x) (.literal k y)
  | array : Alike .array .array
  | tuple : Alike .tuple .tuple
  | object {fs gs : List FieldHead} (h : List.Forall₂ FieldHead.Alike fs gs) :
      Alike (.object fs) (.object gs)
  | union {δ ε : Option Discriminant} : Alike (.union δ) (.union ε)
  | intersection : Alike .intersection .intersection
  | enum {ms ns : List EnumMember} (h : List.Forall₂ (fun m n : EnumMember => m.name = n.name ∧
      m.value.toDatum.canonical = n.value.toDatum.canonical) (sortMembers ms) (sortMembers ns)) :
      Alike (.enum ms) (.enum ns)
  | reference {s s' : String} : Alike (.reference s) (.reference s')
  | recursiveRef {s s' : String} {r r' : NodeId} {l l' : Option (ℕ × ℕ)}
      (h : l.map Prod.fst = l'.map Prod.fst) :
      Alike (.recursiveRef s r l) (.recursiveRef s' r' l')
  | unknown {r : String} {c : UnknownCause} : Alike (.unknown r c) (.unknown r c)

namespace Term

open Folding

variable {t u v : Term} {fs : List FieldTerm} {f : FieldTerm}

theorem Alike.tags (h : Alike u v) : TagsAlike u.head.tags v.head.tags :=
  tagsAlike_of_fieldsAlike (fun _ hf => (payload_keys _ hf).1) (fun _ hf => (payload_keys _ hf).1)
    h.payload

theorem forall₂_of_map_eq {α β γ : Type} {f : α → γ} {g : β → γ} {R : α → β → Prop} {xs : List α}
    {ys : List β} (h : xs.map f = ys.map g) (hR : ∀ x y, f x = g y → R x y) :
    List.Forall₂ R xs ys := by
  induction xs generalizing ys with
  | nil =>
    obtain rfl := List.map_eq_nil_iff.1 h.symm
    exact .nil
  | cons x xs ih =>
    cases ys with
    | nil => cases h
    | cons y ys => exact .cons (hR _ _ (List.cons.inj h).1) (ih (List.cons.inj h).2)

theorem Alike.shape (h : Alike u v) : u.shape.Alike v.shape := by
  have hkind := h.kind
  have hentry {k : String} {x : Datum} (hx : (k, x) ∈ u.shape.payload) := h.entry hx
  cases hu : u.shape <;> cases hv : v.shape <;> simp only [hu, hv, TermShape.kind] at hkind hentry <;>
    try simp at hkind
  case array.array => exact .array
  case tuple.tuple => exact .tuple
  case union.union => exact .union
  case intersection.intersection => exact .intersection
  case reference.reference => exact .reference
  case primitive.primitive p q =>
    obtain ⟨x, hx, he⟩ := hentry (k := "name") (.head _)
    obtain rfl : x = .text q.name := by simpa [TermShape.payload, primitivePayload] using hx
    obtain rfl : q = p := Primitive.name_inj (by simpa using he)
    exact .primitive
  case literal.literal k x l y =>
    obtain ⟨w, hw, he⟩ := hentry (k := "literal_kind") (.head _)
    obtain ⟨z, hz, hze⟩ := hentry (k := "value") (.tail _ (.head _))
    obtain rfl : w = .text l.name := by simpa [TermShape.payload, literalPayload] using hw
    obtain rfl : z = y.toDatum := by simpa [TermShape.payload, literalPayload] using hz
    obtain rfl : l = k := LiteralKind.name_inj (by simpa using he)
    exact .literal hze.symm
  case object.object fs gs =>
    obtain ⟨x, hx, he⟩ := hentry (k := "fields") (.head _)
    obtain rfl : x = _ := by simpa [TermShape.payload] using hx
    refine .object (forall₂_of_map_eq (Datum.list.inj ?_) fun _ _ => FieldHead.alike_of_payload)
    simpa [Function.comp_def] using he.symm
  case enum.enum ms ns =>
    obtain ⟨x, hx, he⟩ := hentry (k := "members") (.head _)
    obtain rfl : x = _ := by simpa [TermShape.payload, enumPayload] using hx
    have hlist : (sortMembers ms).map (fun m => (Datum.list [.text m.name, m.value.toDatum]).canonical) =
        (sortMembers ns).map fun m => (Datum.list [.text m.name, m.value.toDatum]).canonical :=
      Datum.list.inj (by simpa [Function.comp_def] using he.symm)
    exact .enum (forall₂_of_map_eq hlist fun m n hmn => by simpa using hmn)
  case recursiveRef.recursiveRef s r l s' r' l' =>
    obtain ⟨x, hx, he⟩ := hentry (k := "depth") (.head _)
    obtain rfl : x = _ := by simpa [TermShape.payload, recursionPayload] using hx
    refine .recursiveRef ?_
    cases l with
    | none => cases l' <;> simp_all [Datum.optional]
    | some p => cases l' <;> simp_all [Datum.optional]
  case unknown.unknown r c r' c' =>
    obtain ⟨x, hx, he⟩ := hentry (k := "cause") (.head _)
    obtain ⟨y, hy, hye⟩ := hentry (k := "reason") (.tail _ (.head _))
    obtain rfl : x = .text c'.name := by simpa [TermShape.payload, unknownPayload] using hx
    obtain rfl : y = .text r' := by simpa [TermShape.payload, unknownPayload] using hy
    obtain rfl : c' = c := UnknownCause.name_inj (by simpa using he)
    obtain rfl : r' = r := by simpa using hye
    exact .unknown

/-! ## Bodies -/

theorem Twin.forall₂_children (h : Twin u v) : List.Forall₂ Twin u.children v.children :=
  List.forall₂_iff_get.2 ⟨h.length, fun _ hi hj => h.child hi hj⟩

theorem Twin.shape (h : Twin u v) : u.shape.Alike v.shape := h.alike.shape

theorem dereferenceFree_sub (t : Term) : t.dereferenceFree.Sub t := by
  induction t with
  | mk head cs ih =>
    rcases dereferenceFree_cases (.mk head cs) with he | ⟨-, symbol, c, rest, -, hc, he⟩
    · rw [he]
      exact .refl
    · have hm : c ∈ (Term.mk head cs).children := hc ▸ List.mem_cons_self
      rw [he]
      exact .step hm (ih c hm)

theorem objectBody?_sub (h : t.objectBody? = some fs) (hf : f ∈ fs) : f.2.Sub t := by
  simp only [objectBody?] at h
  split at h
  · cases h
  · unfold fields? at h
    split at h
    · obtain rfl := Option.some.inj h
      exact .trans (.child (List.of_mem_zip hf).2) t.dereferenceFree_sub
    · cases h

theorem Twin.dereferenceFree (h : Twin u v) : Twin u.dereferenceFree v.dereferenceFree := by
  induction u generalizing v with
  | mk head cs ih =>
    have hshape := h.shape
    have hbinder := h.binder
    have hchildren := h.forall₂_children
    cases v with
    | mk head' cs' =>
      simp only [shape_mk, binder_mk, children_mk] at hshape hbinder hchildren
      unfold Term.dereferenceFree
      generalize hs : head.shape = s at hshape
      generalize hs' : head'.shape = s' at hshape
      cases hshape
      case reference =>
        cases hb : head.binder with
        | true => simpa [← hbinder, hb] using h
        | false =>
          cases hchildren with
          | nil => simpa [← hbinder, hb] using h
          | cons hc _ => simpa [← hbinder, hb] using ih _ List.mem_cons_self hc
      all_goals simpa using h

/-- Twins that are well-formed are of one family. -/
theorem Twin.family (h : Twin u v) (hu : u.Throughout (Formed d a))
    (hv : v.Throughout (Formed d a)) : u.family = v.family := by
  induction h with
  | @intro u v hal hc ih =>
    have hfamilies : u.children.map Term.family = v.children.map Term.family := by
      refine List.ext_getElem (by simpa using hal.length) fun i hi hj => ?_
      rw [List.length_map] at hi hj
      simpa using ih i hi hj (hu.child (List.getElem_mem hi)) (hv.child (List.getElem_mem hj))
    rw [hu.here.family, hv.here.family, hfamilies]
    have hshape := hal.shape
    generalize u.shape = s at hshape
    generalize v.shape = s' at hshape
    cases hshape <;> rfl

def FieldsTwin (fs gs : List FieldTerm) : Prop :=
  List.Forall₂ (fun f g : FieldTerm => f.1.Alike g.1 ∧ Twin f.2 g.2) fs gs

theorem Twin.fields? (h : Twin u v) :
    Option.Rel FieldsTwin u.fields? v.fields? := by
  have hshape := h.shape
  have hchildren := h.forall₂_children
  unfold Term.fields?
  generalize hs : u.shape = s at hshape
  generalize hs' : v.shape = s' at hshape
  cases hshape
  case object fs gs hfs =>
    refine .some ?_
    clear hs hs'
    generalize u.children = us at hchildren
    generalize v.children = vs at hchildren
    induction hfs generalizing us vs with
    | nil => exact .nil
    | cons hf _ ih =>
      cases hchildren with
      | nil => exact .nil
      | cons hc hcs => exact .cons ⟨hf, hc⟩ (ih _ _ hcs)
  all_goals exact .none

theorem Twin.objectBody? (h : Twin u v) :
    Option.Rel FieldsTwin u.objectBody? v.objectBody? := by
  have hfree := h.dereferenceFree
  unfold Term.objectBody?
  simp only [hfree.binder]
  split
  · exact .none
  · exact hfree.fields?

theorem Twin.isSome_objectBody? (h : Twin u v) :
    u.objectBody?.isSome = v.objectBody?.isSome := by
  have hbody := h.objectBody?
  generalize u.objectBody? = x at hbody
  generalize v.objectBody? = y at hbody
  cases hbody <;> rfl

end Term

end TypeAtlas
