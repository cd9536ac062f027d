import TypeAtlas.Proofs.Json.Unambiguous
import TypeAtlas.Proofs.Normal.Subterm

/-! # Sealed terms

A term is sealed when its digest and those of all terms below it are taken of what they say. When no
two of the digested texts collide, terms with the same digest say the same, down to the ends: they
are of one kind, cover the same content and refer to enclosing targets at the same distances.
-/

namespace TypeAtlas

/-- The digests of the given texts differ. -/
def Digester.CollisionFree (d : Digester) (a : Algorithm) (texts : Set String) : Prop :=
  texts.InjOn (d.text a)

theorem Digester.value_eq_ok {d : Digester} {a : Algorithm} {v : Datum} {x : String} :
    d.value a v = .ok x ↔ ∃ text, Json.compact v = .ok text ∧ d.text a text = x := by
  unfold Digester.value
  cases Json.compact v <;> simp [Except.map]

namespace Datum

/-- Fields that differ at most in their order and in numbers that are not finite. -/
def FieldsAlike (fs gs : List (String × Datum)) : Prop :=
  (record fs).canonical = (record gs).canonical

variable {fs gs : List (String × Datum)}

theorem FieldsAlike.symm (h : FieldsAlike fs gs) : FieldsAlike gs fs := Eq.symm h

theorem FieldsAlike.exists_mem {k : String} {v : Datum} (h : FieldsAlike fs gs) (hv : (k, v) ∈ fs) :
    ∃ w, (k, w) ∈ gs ∧ w.canonical = v.canonical := by
  simp only [FieldsAlike, canonical, record.injEq, canonicalFields_eq_map] at h
  have hm : (k, v.canonical) ∈ Json.sortFields (fs.map fun f => (f.1, f.2.canonical)) :=
    Json.mem_sortFields.2 (List.mem_map.2 ⟨_, hv, rfl⟩)
  rw [h] at hm
  obtain ⟨⟨l, w⟩, hw, he⟩ := List.mem_map.1 (Json.mem_sortFields.1 hm)
  simp only [Prod.mk.injEq] at he
  exact ⟨w, he.1 ▸ hw, he.2⟩

@[simp] theorem canonical_text (s : String) : (text s).canonical = text s := rfl

@[simp] theorem canonical_bool (b : Bool) : (bool b).canonical = bool b := rfl

@[simp] theorem canonical_null : null.canonical = null := rfl

@[simp] theorem canonical_int (n : Int) : (int n).canonical = int n := rfl

@[simp] theorem canonical_list (ds : List Datum) : (list ds).canonical = list (ds.map canonical) := by
  rw [canonical, canonicalList_eq_map]

@[simp] theorem canonical_texts (ss : List String) : (texts ss).canonical = texts ss := by
  simp [texts, Function.comp_def]

theorem texts_inj {ss ts : List String} (h : texts ss = texts ts) : ss = ts := by
  simp only [texts, list.injEq] at h
  exact List.map_injective_iff.2 (fun a b h => by simpa using h) h

end Datum

theorem Digester.nodeValue_canonical_inj {k l : String} {fs gs : List (String × Datum)}
    {cs ds : List String}
    (h : (Digester.nodeValue k fs cs).canonical = (Digester.nodeValue l gs ds).canonical) :
    k = l ∧ Datum.FieldsAlike fs gs ∧ cs = ds := by
  simp only [Digester.nodeValue, Datum.canonical_list, List.map_cons, List.map_nil,
    Datum.canonical_text, Datum.canonical_texts, Datum.list.injEq, List.cons.injEq,
    Datum.text.injEq, and_true] at h
  exact ⟨h.1, h.2.1, Datum.texts_inj h.2.2⟩

/-- Values with the same digest are the same, up to the order of fields. -/
theorem Digester.canonical_eq_of_value_eq {d : Digester} {a : Algorithm} {S : Set String}
    {v w : Datum} {x : String} (hS : d.CollisionFree a S) (hv : d.value a v = .ok x)
    (hw : d.value a w = .ok x) (hvs : ∀ text, Json.compact v = .ok text → text ∈ S)
    (hws : ∀ text, Json.compact w = .ok text → text ∈ S) : v.canonical = w.canonical := by
  obtain ⟨s, hs, hsd⟩ := Digester.value_eq_ok.1 hv
  obtain ⟨t, ht, htd⟩ := Digester.value_eq_ok.1 hw
  obtain rfl : s = t := hS (hvs s hs) (hws t ht) (hsd.trans htd.symm)
  exact Json.canonical_eq_of_compact_eq hs ht

theorem TermShape.kind_ne_open (shape : TermShape) : shape.kind ≠ "open" := by
  cases shape <;> simp [TermShape.kind]

namespace Term

/-- The value of which the digest of a term is taken. -/
def value (t : Term) : Datum :=
  Digester.nodeValue t.shape.kind (sharedPayload t.shape.payload t.head.tags t.binder)
    (t.children.map digest)

/-- The digest is that of the term's value. -/
def Digested (d : Digester) (a : Algorithm) (t : Term) : Prop := d.value a t.value = .ok t.digest

/-- The digests of a term and of all terms below it are those of their values. -/
abbrev Sealed (d : Digester) (a : Algorithm) : Term → Prop := Throughout (Digested d a)

/-- The texts that are digested for a term and for the terms below it. -/
def encodings (t : Term) : Set String := {x | ∃ u : Term, u.Sub t ∧ Json.compact u.value = .ok x}

theorem Sub.encodings_subset {u t : Term} (h : u.Sub t) : u.encodings ⊆ t.encodings :=
  fun _ ⟨v, hv, hx⟩ => ⟨v, hv.trans h, hx⟩

/-- What terms with the same digest have in common. -/
structure Alike (u v : Term) : Prop where
  kind : u.shape.kind = v.shape.kind
  payload : Datum.FieldsAlike (sharedPayload u.shape.payload u.head.tags u.binder)
    (sharedPayload v.shape.payload v.head.tags v.binder)
  children : u.children.map digest = v.children.map digest

variable {d : Digester} {a : Algorithm} {S : Set String}

theorem alike_of_digest_eq (hS : d.CollisionFree a S) {u v : Term} (hu : u.Sealed d a)
    (hv : v.Sealed d a) (hus : u.encodings ⊆ S) (hvs : v.encodings ⊆ S)
    (h : u.digest = v.digest) : Alike u v := by
  have hu' : d.value a u.value = .ok u.digest := hu.here
  have hv' : d.value a v.value = .ok u.digest := h ▸ hv.here
  have hcan := Digester.canonical_eq_of_value_eq hS hu' hv' (fun x hx => hus ⟨u, .refl, hx⟩)
    fun x hx => hvs ⟨v, .refl, hx⟩
  obtain ⟨hk, hp, hc⟩ := Digester.nodeValue_canonical_inj hcan
  exact ⟨hk, hp, hc⟩

/-! ## Twins -/

/-- Terms that say the same, down to the ends. -/
inductive Twin : Term → Term → Prop
  | intro {u v : Term} (alike : Alike u v)
      (children : ∀ i (hi : i < u.children.length) (hj : i < v.children.length),
        Twin u.children[i] v.children[i]) : Twin u v

theorem twin_of_digest_eq (hS : d.CollisionFree a S) {u v : Term} (hu : u.Sealed d a)
    (hv : v.Sealed d a) (hus : u.encodings ⊆ S) (hvs : v.encodings ⊆ S)
    (h : u.digest = v.digest) : Twin u v := by
  induction u generalizing v with
  | mk head cs ih =>
    have hal := alike_of_digest_eq hS hu hv hus hvs h
    refine .intro hal fun i hi hj => ?_
    have hci := List.getElem_mem hi
    have hcj := List.getElem_mem hj
    refine ih _ hci (hu.child hci) (hv.child hcj) ((Sub.child hci).encodings_subset.trans hus)
      ((Sub.child hcj).encodings_subset.trans hvs) ?_
    have hd := List.getElem_of_eq hal.children (i := i) (by simpa using hi)
    simpa only [List.getElem_map] using hd

theorem Alike.length (h : Alike u v) : u.children.length = v.children.length := by
  simpa using congrArg List.length h.children

theorem payload_keys (s : TermShape) {f : String × Datum} (hf : f ∈ s.payload) :
    f.1 ≠ "tags" ∧ f.1 ≠ "binder" := by
  cases s with
  | union δ => cases δ <;> simp_all [TermShape.payload, unionPayload]
  | _ =>
    simp only [TermShape.payload, primitivePayload, literalPayload, enumPayload, recursionPayload,
      unknownPayload, List.mem_cons, List.not_mem_nil, or_false] at hf
    try rcases hf with rfl | rfl <;> simp

theorem mem_sharedPayload_binder (s : TermShape) (tags : List Tag) (b : Bool) {v : Datum} :
    ("binder", v) ∈ sharedPayload s.payload tags b ↔ b ∧ v = .bool true := by
  have hp : ("binder", v) ∉ s.payload := fun h => (payload_keys s h).2 rfl
  simp only [sharedPayload, List.mem_append, hp, false_or]
  split_ifs <;> simp_all

theorem Alike.binder (h : Alike u v) : u.binder = v.binder := by
  have hab {u v : Term} (h : Alike u v) (hu : u.binder = true) : v.binder = true := by
    obtain ⟨w, hw, -⟩ := h.payload.exists_mem
      ((mem_sharedPayload_binder _ _ _).2 ⟨hu, rfl⟩ : ("binder", Datum.bool true) ∈ _)
    exact ((mem_sharedPayload_binder _ _ _).1 hw).1
  have hsymm : Alike v u := ⟨h.kind.symm, h.payload.symm, h.children.symm⟩
  cases hu : u.binder <;> cases hv : v.binder
  · rfl
  · rw [← hu, hab hsymm hv]
  · rw [← hv, hab h hu]
  · rfl

theorem Alike.symm (h : Alike u v) : Alike v u := ⟨h.kind.symm, h.payload.symm, h.children.symm⟩

theorem Alike.trans {w : Term} (h : Alike u v) (h' : Alike v w) : Alike u w :=
  ⟨h.kind.trans h'.kind, Eq.trans h.payload h'.payload, h.children.trans h'.children⟩

theorem mem_sharedPayload {s : TermShape} {tags : List Tag} {b : Bool} {k : String} {v : Datum}
    (ht : k ≠ "tags") (hb : k ≠ "binder") :
    (k, v) ∈ sharedPayload s.payload tags b ↔ (k, v) ∈ s.payload := by
  simp only [sharedPayload, List.mem_append]
  split_ifs <;> simp_all

theorem Alike.entry (h : Alike u v) {k : String} {x : Datum} (hx : (k, x) ∈ u.shape.payload) :
    ∃ y, (k, y) ∈ v.shape.payload ∧ y.canonical = x.canonical := by
  obtain ⟨ht, hb⟩ := payload_keys _ hx
  obtain ⟨y, hy, he⟩ := h.payload.exists_mem ((mem_sharedPayload ht hb).2 hx)
  exact ⟨y, (mem_sharedPayload ht hb).1 hy, he⟩

theorem Alike.own_distance (h : Alike u v) {k l : ℕ} (hk : (k, l) ∈ ownLinks u.shape) :
    ∃ m, (k, m) ∈ ownLinks v.shape := by
  have hkind := h.kind
  cases hu : u.shape with
  | recursiveRef symbol target link =>
    cases hv : v.shape with
    | recursiveRef symbol' target' link' =>
      rw [hu] at hk
      cases link with
      | none => cases hk
      | some p =>
        obtain rfl := List.mem_singleton.1 hk
        obtain ⟨y, hy, he⟩ := h.entry (k := "depth") (x := .int k)
          (by simp [hu, TermShape.payload, recursionPayload, Datum.optional])
        cases link' with
        | none =>
          obtain rfl : y = .null := by
            simpa [hv, TermShape.payload, recursionPayload, Datum.optional] using hy
          simp at he
        | some q =>
          obtain rfl : y = .int q.1 := by
            simpa [hv, TermShape.payload, recursionPayload, Datum.optional] using hy
          have hq : q.1 = k := by simpa using he
          exact ⟨q.2, by simp [ownLinks, ← hq]⟩
    | _ => simp [hu, hv, TermShape.kind] at hkind
  | _ => simp [hu, ownLinks] at hk

namespace Twin

theorem length (h : Twin u v) : u.children.length = v.children.length := by
  cases h with
  | intro hal _ => exact hal.length

theorem alike (h : Twin u v) : Alike u v := by
  cases h with
  | intro hal _ => exact hal

theorem child (h : Twin u v) {i : ℕ} (hi : i < u.children.length) (hj : i < v.children.length) :
    Twin u.children[i] v.children[i] := by
  cases h with
  | intro _ hc => exact hc i hi hj

theorem symm (h : Twin u v) : Twin v u := by
  induction h with
  | intro hal _ ih => exact .intro hal.symm fun i hi hj => ih i hj hi

theorem trans {w : Term} (h : Twin u v) (h' : Twin v w) : Twin u w := by
  induction h generalizing w with
  | @intro u v hal _ ih =>
    refine .intro (hal.trans h'.alike) fun i hi hj => ?_
    have hv : i < v.children.length := h'.length ▸ hj
    exact ih i hi hv (h'.child hv hj)

theorem binder (h : Twin u v) : u.binder = v.binder := h.alike.binder

theorem depth (h : Twin u v) : u.depth = v.depth := by
  simp only [Term.depth, h.binder]

theorem height (h : Twin u v) : u.height = v.height := by
  induction h with
  | @intro u v hal _ ih =>
    cases u with
    | mk uh us =>
    cases v with
    | mk vh vs =>
      have hm : us.map Term.height = vs.map Term.height :=
        List.ext_getElem (by simpa using hal.length) fun i hi hj => by
          simpa using ih i (by simpa using hi) (by simpa using hj)
      rw [Term.height, Term.height, heightAll_eq, heightAll_eq, hm]

theorem exists_mem_inward (h : Twin u v) {k l : ℕ} (hk : (k, l) ∈ u.inward) :
    ∃ m, (k, m) ∈ v.inward := by
  induction h generalizing k l with
  | @intro u v hal hc ih =>
    rcases mem_inward.1 hk with ho | ⟨c, hcm, hcl⟩
    · obtain ⟨m, hm⟩ := hal.own_distance ho
      exact ⟨m, mem_inward.2 (.inl hm)⟩
    · obtain ⟨i, hi, rfl⟩ := List.getElem_of_mem hcm
      have hj : i < v.children.length := hal.length ▸ hi
      obtain ⟨m, hm⟩ := ih i hi hj (mem_links.1 hcl)
      rw [(hc i hi hj).depth] at hm
      exact ⟨m, mem_inward_of_child (List.getElem_mem hj) (mem_links.2 hm)⟩

theorem mem_reach_iff (h : Twin u v) {k : ℕ} : k ∈ u.reach ↔ k ∈ v.reach := by
  have hmem {u v : Term} (h : Twin u v) (hk : k ∈ u.reach) : k ∈ v.reach := by
    obtain ⟨l, hl⟩ := mem_reach.1 hk
    obtain ⟨m, hm⟩ := h.exists_mem_inward (mem_links.1 hl)
    rw [h.depth] at hm
    exact mem_reach.2 ⟨m, mem_links.2 hm⟩
  exact ⟨hmem h, hmem h.symm⟩

theorem links_eq_nil_iff (h : Twin u v) : u.links = [] ↔ v.links = [] := by
  rw [← reach_eq_nil, ← reach_eq_nil, List.eq_nil_iff_forall_not_mem,
    List.eq_nil_iff_forall_not_mem]
  exact forall_congr' fun k => not_congr h.mem_reach_iff

end Twin

end Term

end TypeAtlas
