import TypeAtlas.Proofs.Relabeling.Term
import TypeAtlas.Proofs.Relabeling.Written
import TypeAtlas.Proofs.Renaming.Basic

/-! # Renamed terms

Renaming declarations and files relabels terms: their symbols and positions are other ones, and the
nodes from which they were folded are the same. The name of a node is a digest, so a renamed term is
written out under the same names, and the nodes of its arena are those of the term, renamed.
-/

namespace TypeAtlas

namespace Renaming

variable (ρ : Renaming)

def fieldHead (f : FieldHead) : FieldHead := { f with location := f.location.map ρ.location }

def termShape : TermShape → TermShape
  | .object fs => .object (fs.map ρ.fieldHead)
  | .reference symbol => .reference (ρ.name symbol)
  | .recursiveRef symbol target link => .recursiveRef (ρ.name symbol) target link
  | shape => shape

def termHead (h : TermHead) : TermHead :=
  { h with shape := ρ.termShape h.shape, location := h.location.map ρ.location }

mutual

def term : Term → Term
  | .mk h cs => .mk (ρ.termHead h) (terms cs)

def terms : List Term → List Term
  | [] => []
  | t :: ts => term t :: terms ts

end

theorem terms_eq_map (ts : List Term) : ρ.terms ts = ts.map ρ.term := by
  induction ts with
  | nil => rfl
  | cons t ts ih => rw [terms, ih, List.map_cons]

theorem term_mk (h : TermHead) (cs : List Term) :
    ρ.term (.mk h cs) = .mk (ρ.termHead h) (cs.map ρ.term) := by
  rw [term, terms_eq_map]

/-! ## Renaming as relabelling -/

def relabeling : Relabeling where
  symbol := ρ.name
  location := ρ.location
  node := id
  target := id
  node_injective := Function.injective_id
  target_injective := Function.injective_id

theorem relabeling_graphNode (n : Node) : ρ.relabeling.graphNode n = ρ.node n := by
  obtain ⟨_, shape, _, _⟩ := n
  rw [Relabeling.graphNode, node]
  cases shape with
  | tuple es => simp only [Relabeling.shape, Renaming.shape, relabeling, List.map_id]; rfl
  | union ms d => simp only [Relabeling.shape, Renaming.shape, relabeling, List.map_id]; rfl
  | intersection ms => simp only [Relabeling.shape, Renaming.shape, relabeling, List.map_id]; rfl
  | _ => rfl

theorem relabeling_termShape (shape : TermShape) : ρ.relabeling.termShape shape = ρ.termShape shape := by
  cases shape <;> rfl

theorem relabeling_term (t : Term) : ρ.relabeling.term t = ρ.term t := by
  induction t with
  | mk h cs ih =>
    have hhead : ρ.relabeling.termHead h = ρ.termHead h := by
      rw [Relabeling.termHead, relabeling_termShape]
      rfl
    rw [Relabeling.term_mk, term_mk, hhead, List.map_congr_left ih]

/-! ## No renaming -/

theorem termShape_refl : refl.termShape = id := by
  funext shape
  cases shape with
  | object fs =>
    have hfields : refl.fieldHead = id := by
      funext f
      simp only [fieldHead, location_refl, Option.map_id, id]
    simp only [termShape, hfields, List.map_id, id]
  | _ => rfl

theorem term_refl (t : Term) : refl.term t = t := by
  induction t with
  | mk h cs ih =>
    rw [term_mk, List.map_congr_left ih, List.map_id']
    simp only [termHead, termShape_refl, location_refl, Option.map_id, id]

end Renaming

/-! ## Writing out renamed terms -/

namespace Emission

variable {ρ : Renaming} {d : Digester} {a : Algorithm} {α β : Type}

/-- The second arena holds the nodes of the first one, renamed. -/
abbrev Mirrors (ρ : Renaming) (R : α → β → Prop) (m : M α) (m' : M β) : Prop :=
  Along Never (fun A B : Arena => B = ρ.arena A) R m m'

theorem corresponds_iff {A B : Arena} :
    Arena.Corresponds (fun n n' => n' = ρ.node n) A B ↔ B = ρ.arena A := by
  constructor
  · intro h
    refine Std.ExtTreeMap.ext_getElem? fun id => ?_
    have hid := h id
    rw [ρ.getElem?_arena]
    generalize A[id]? = x at hid ⊢
    generalize B[id]? = y at hid ⊢
    cases hid with
    | none => rfl
    | some hn => exact congrArg some hn
  · rintro rfl id
    rw [ρ.getElem?_arena]
    cases A[id]? with
    | none => exact .none
    | some n => exact .some rfl

theorem corresponds_termHead (h : TermHead) :
    h.Corresponds (fun n n' => n' = ρ.node n) (ρ.termHead h) where
  digest := rfl
  free := rfl
  binder := rfl
  node id targets ids := by
    simp only [Renaming.termHead, Renaming.node]
    cases h.shape with
    | object heads =>
      refine along_pure ?_
      simp only [Renaming.shape, List.zip_map_left, List.map_map]
      rfl
    | recursiveRef symbol target link =>
      cases link with
      | none => exact along_pure rfl
      | some link =>
        refine (writes_targetAt targets link.2).bind ?_
        rintro id _ rfl
        exact along_pure rfl
    | _ => exact along_pure rfl

/-- A renamed term is written out under the same names. -/
theorem mirrors_emit (t : Term) (targets : List NodeId) :
    Mirrors ρ (· = ·) (emit d a t targets) (emit d a (ρ.term t) targets) := by
  have hwrites : Writes (fun n n' => n' = ρ.node n) (· = ·) (emit d a t targets)
      (emit d a (ρ.term t) targets) := by
    induction t generalizing targets with
    | mk h cs ih =>
      rw [ρ.term_mk]
      refine writes_emit (corresponds_termHead h) ?_ targets
      rw [List.forall₂_map_right_iff, List.forall₂_same]
      exact ih
  intro A B hAB
  exact (hwrites A B (corresponds_iff.2 hAB)).imp fun p q hpq => ⟨hpq.1, corresponds_iff.1 hpq.2⟩

end Emission

end TypeAtlas
