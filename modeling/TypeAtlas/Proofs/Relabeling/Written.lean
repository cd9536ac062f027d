import TypeAtlas.Normal.Emission
import TypeAtlas.Proofs.Graph.Covered
import TypeAtlas.Proofs.Normal.Hashed
import TypeAtlas.Proofs.Relabeling.Term

/-! # Writing out terms side by side

The name of a node is a digest. Terms with the same digests are written out under the same names, and
what their arenas hold under these names corresponds if what the terms say does. For relabelled terms a
digest covers the same of all nodes.
-/

namespace TypeAtlas

open Emission

variable {R : Node → Node → Prop} {σ : Relabeling} {d : Digester} {a : Algorithm} {α β : Type}

/-- Both arenas hold corresponding nodes under the same names. -/
def Arena.Corresponds (R : Node → Node → Prop) (A B : Arena) : Prop :=
  ∀ id : NodeId, Option.Rel R A[id]? B[id]?

namespace Arena.Corresponds

variable {A B : Arena} {n n' : Node} {id : NodeId}

theorem contains (h : Arena.Corresponds R A B) (id : NodeId) : B.contains id = A.contains id := by
  rw [← Std.ExtTreeMap.isSome_getElem?_eq_contains, ← Std.ExtTreeMap.isSome_getElem?_eq_contains]
  have hid := h id
  generalize A[id]? = x at hid ⊢
  generalize B[id]? = y at hid ⊢
  cases hid <;> rfl

theorem insertIfNew (h : Arena.Corresponds R A B) (hn : R n n') (id : NodeId) :
    Arena.Corresponds R (A.insertIfNew id n) (B.insertIfNew id n') := by
  intro k
  have hcontains := h.contains id
  simp only [Std.ExtTreeMap.getElem?_insertIfNew, ← Std.ExtTreeMap.contains_iff_mem, hcontains]
  split
  · exact .some hn
  · exact h k

theorem size_eq (h : Arena.Corresponds R A B) : B.size = A.size := by
  have hkeys : B.map (fun _ _ => ()) = A.map fun _ _ => () := by
    refine Std.ExtTreeMap.ext_getElem? fun id => ?_
    have hid := h id
    rw [Std.ExtTreeMap.getElem?_map, Std.ExtTreeMap.getElem?_map]
    generalize A[id]? = x at hid ⊢
    generalize B[id]? = y at hid ⊢
    cases hid <;> rfl
  rw [← Std.ExtTreeMap.size_map (f := fun _ _ => ()), hkeys, Std.ExtTreeMap.size_map]

theorem empty : Arena.Corresponds R ∅ ∅ := fun id => by simp

end Arena.Corresponds

theorem Shape.Covered.recursionTarget?_iff {A : Arena} {exact : Prop} {shape shape' : Shape} {id : NodeId}
    (h : shape.Covered A exact shape') (hid : id ∈ A) :
    shape'.recursionTarget? = some id ↔ shape.recursionTarget? = some id := by
  cases h with
  | recursiveRef _ ht =>
    rcases ht with rfl | ⟨ht, ht'⟩
    · rfl
    · constructor
      · rintro ⟨⟩
        exact absurd hid ht'
      · rintro ⟨⟩
        exact absurd hid ht
  | _ => rfl

/-- Graphs with the same root whose nodes are covered alike are covered alike. -/
theorem Graph.covered_of_corresponds {g g' : Graph} (hroot : g'.root = g.root)
    (h : Arena.Corresponds (Node.Covered g.nodes False) g.nodes g'.nodes) : g.Covered False g' where
  root := hroot
  size := h.size_eq
  binders id hid := by
    rw [Graph.mem_binders, Graph.mem_binders]
    refine exists_congr fun x => ?_
    have hx := h x
    generalize g.nodes[x]? = m at hx ⊢
    generalize g'.nodes[x]? = m' at hx ⊢
    cases hx with
    | none => simp
    | some hn => simp [hn.shape.recursionTarget?_iff hid]
  node := h
  place := False.elim

namespace Emission

/-- Whatever is written out of the one term is written out of the other. -/
abbrev Writes (R : Node → Node → Prop) (P : α → β → Prop) (m : M α) (m' : M β) : Prop :=
  Along Never (Arena.Corresponds R) P m m'

theorem writes_targetAt (targets : List NodeId) (height : ℕ) :
    Writes R (· = ·) (targetAt targets height) (targetAt targets height) := by
  unfold targetAt
  split
  · exact along_pure rfl
  · exact along_throw

end Emission

/-- Heads under the same name, with corresponding nodes. -/
structure TermHead.Corresponds (R : Node → Node → Prop) (h h' : TermHead) : Prop where
  digest : h'.digest = h.digest
  free : h'.free = h.free
  binder : h'.binder = h.binder
  node : ∀ id targets ids, Writes R
    (fun x y => R { id, shape := x, tags := h.tags, location := h.location }
      { id, shape := y, tags := h'.tags, location := h'.location })
    (shapeOf h.shape targets ids) (shapeOf h'.shape targets ids)

namespace Emission

variable {h h' : TermHead} {cs cs' : List Term}

theorem writes_name (hh : h.Corresponds R h') (targets : List NodeId) :
    Writes R (· = ·) (name d a h targets) (name d a h' targets) := by
  unfold name
  rw [hh.free, hh.digest]
  split
  · exact along_pure rfl
  · refine (along_mapM_same (writes_targetAt targets) h.free.toList).bind fun ids ids' hids => ?_
    rw [List.forall₂_eq_eq_eq] at hids
    subst hids
    exact along_lift (.refl (fun _ => rfl) _)

theorem writes_emitAll (h : List.Forall₂ (fun c c' => ∀ targets,
      Writes R (· = ·) (emit d a c targets) (emit d a c' targets)) cs cs') (targets : List NodeId) :
    Writes R (· = ·) (emitAll d a cs targets) (emitAll d a cs' targets) := by
  induction h with
  | nil => exact along_pure rfl
  | cons hc _ ih =>
    rw [emitAll, emitAll]
    refine (hc targets).bind ?_
    rintro id _ rfl
    refine ih.bind ?_
    rintro ids _ rfl
    exact along_pure rfl

theorem writes_emit (hh : h.Corresponds R h') (hcs : List.Forall₂ (fun c c' => ∀ targets,
      Writes R (· = ·) (emit d a c targets) (emit d a c' targets)) cs cs') (targets : List NodeId) :
    Writes R (· = ·) (emit d a (.mk h cs) targets) (emit d a (.mk h' cs') targets) := by
  rw [emit, emit]
  refine (writes_name hh targets).bind ?_
  rintro id _ rfl
  refine along_get.bind fun A B hAB => ?_
  rw [hAB.contains, hh.binder]
  split
  · exact along_pure rfl
  · refine (writes_emitAll hcs _).bind ?_
    rintro ids _ rfl
    refine (hh.node id _ ids).bind fun x y hxy => ?_
    exact (along_modify fun A B hAB => hAB.insertIfNew hxy id).bind fun _ _ _ => along_pure rfl

end Emission

/-! ## Relabelled terms -/

namespace Relabeling

variable (σ : Relabeling) {A : Arena} {t : Term}

/-- A recursive reference that has lost its target names no node of the arena, before and after. -/
def Loses (A : Arena) (t : Term) : Prop :=
  t.Throughout fun u => ∀ symbol raw, u.shape = .recursiveRef symbol raw none →
    raw ∉ A ∧ σ.target raw ∉ A

/-- A digest covers the same of the nodes of relabelled heads, wherever these stand. -/
theorem corresponds_head {h : TermHead} (hlost : ∀ symbol raw, h.shape = .recursiveRef symbol raw none →
      raw ∉ A ∧ σ.target raw ∉ A) (id : NodeId) (location : Option SourceLocation) :
    h.Corresponds (Node.Covered A False) { σ.termHead h with rawId := id, location } where
  digest := rfl
  free := rfl
  binder := rfl
  node id targets ids := by
    have hcovered {x y : Shape} (hxy : x.Covered A False y) {l l' : Option SourceLocation} :
        Node.Covered A False { id, shape := x, tags := h.tags, location := l }
          { id, shape := y, tags := h.tags, location := l' } :=
      ⟨rfl, hxy, canonicalFields_sharedPayload_congr h.tags⟩
    simp only [termHead]
    cases hs : h.shape with
    | object heads =>
      have hplaced {fs gs : List Field}
          (hgs : gs = fs.map fun f => { f with location := f.location.map σ.location }) :
          Shape.Covered A False (.object fs) (.object gs) :=
        hgs ▸ .object ⟨fun _ => rfl, fun _ => rfl, fun _ => rfl⟩
      refine along_pure (hcovered (hplaced ?_))
      rw [List.zip_map_left, List.map_map, List.map_map]
      rfl
    | reference symbol => exact along_pure (hcovered .reference)
    | recursiveRef symbol target link =>
      cases link with
      | none => exact along_pure (hcovered (.recursiveRef False.elim (.inr (hlost symbol target hs))))
      | some link =>
        refine (writes_targetAt targets link.2).bind ?_
        rintro id _ rfl
        exact along_pure (hcovered (.recursiveRef False.elim (.inl rfl)))
    | _ => exact along_pure (hcovered .refl)

/-- A relabelled term is written out under the same names. -/
theorem writes_term (hlost : σ.Loses A t) (targets : List NodeId) :
    Writes (Node.Covered A False) (· = ·) (emit d a t targets) (emit d a (σ.term t) targets) := by
  induction t generalizing targets with
  | mk h cs ih =>
    rw [σ.term_mk]
    refine writes_emit (σ.corresponds_head hlost.here (σ.node h.rawId) (h.location.map σ.location)) ?_ targets
    rw [List.forall₂_map_right_iff, List.forall₂_same]
    exact fun c hc targets => ih c hc (hlost.child hc) targets

theorem writes_ascribed (hlost : σ.Loses A t) (n : Node) (targets : List NodeId) :
    Writes (Node.Covered A False) (· = ·) (emit d a t targets) (emit d a ((σ.term t).ascribed n) targets) := by
  cases t with
  | mk h cs =>
    rw [σ.term_mk]
    refine writes_emit (σ.corresponds_head hlost.here n.id n.location) ?_ targets
    rw [Term.children_mk, List.forall₂_map_right_iff, List.forall₂_same]
    exact fun c hc targets => σ.writes_term (hlost.child hc) targets

end Relabeling

end TypeAtlas
