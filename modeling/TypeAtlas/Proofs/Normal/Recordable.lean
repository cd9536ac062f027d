import TypeAtlas.Proofs.Graph.Recorded
import TypeAtlas.Proofs.Normal.Enclosed
import TypeAtlas.Proofs.Normal.Known
import TypeAtlas.Proofs.Renaming.Folded

/-! # Canonical graphs can be recorded

If what the nodes of a graph say is not lost when they are recorded, the same is true of the nodes of
its normal form.
-/

namespace TypeAtlas

open Emission Term

variable {d : Digester} {a : Algorithm} {g : Graph} {t : Term} {id root : NodeId} {A : Arena} {n : Node}

/-- The values that a term's shape holds are finite, and the payloads of its tags have no repeated
names. -/
def TermShape.Recordable : TermShape → Prop
  | .literal _ x => x.isFinite
  | .enum ms => ∀ m ∈ ms, m.value.toDatum.isFinite
  | .object heads => ∀ f ∈ heads, ∀ t ∈ f.tags, t.Recordable
  | .union δ => ∀ d ∈ δ, ∀ x ∈ d.values, x.isFinite
  | _ => True

abbrev Term.Recordable (t : Term) : Prop :=
  t.Throughout fun u => u.shape.Recordable ∧ ∀ tag ∈ u.head.tags, tag.Recordable

theorem Graph.Folds.recordable (h : g.Folds d a t)
    (hg : ∀ id n, g.node? id = some n → n.Lossless) : t.Recordable := by
  refine h.derives.throughout (P := fun shape tags => shape.Recordable ∧ ∀ tag ∈ tags, tag.Recordable)
    (fun id u hu => ?_) fun id n ts shape hn hts hshape => ?_
  · obtain ⟨reason, cause, -, hu⟩ := hu
    obtain ⟨digest, -, rfl⟩ := make_eq_ok hu
    exact ⟨trivial, by simp⟩
  have hn := hg id n hn
  have hwithin {v : Term} (hv : Folding.Within ts v) : v.shape.Recordable :=
    let ⟨c, hc, hsub⟩ := hv
    (hts c hc v hsub).1
  refine ⟨?_, hn.tags⟩
  cases shape with
  | literal k x => exact hn.literal k x hshape
  | enum ms =>
    obtain ⟨ms', hms, rfl⟩ := hshape
    exact fun m hm => hn.enum ms' hms m (List.mem_mergeSort.1 hm)
  | object heads =>
    intro f hf
    rcases hshape f hf with ⟨fs, hfs, e, he, htags⟩ | ⟨v, heads', hv, hheads, e, he, htags⟩
    · rw [htags]
      exact hn.fields fs hfs e he
    · have hv := hwithin hv
      rw [hheads] at hv
      rw [htags]
      exact hv e he
  | union δ =>
    intro δ' hδ x hx
    obtain ⟨v, k, hv, hliteral⟩ := hshape δ' hδ x hx
    have hv := hwithin hv
    rw [hliteral] at hv
    exact hv
  | _ => trivial

theorem Term.Recordable.node (ht : t.Recordable) (h : Ends (emit d a t []) ∅ root A)
    (hn : A[id]? = some n) : n.Recordable := by
  have hfiled := (filed_of_emit h (fun _ _ _ h => h) fun _ hn => by simp at hn).1
  obtain ⟨e, he⟩ := hfiled id (mem_iff_exists_getElem?.2 ⟨n, hn⟩)
  obtain ⟨B, hask, -⟩ := he.asked
  obtain rfl := Option.some.inj (he.node.symm.trans hn)
  obtain ⟨hshape, htags⟩ := ht _ hask.sub
  unfold Entry.node
  have hplain {shape : Shape} (hl : ∀ k x, shape ≠ .literal k x) (he : ∀ ms, shape ≠ .enum ms)
      (ho : ∀ fs, shape ≠ .object fs) (hu : ∀ ms δ, shape ≠ .union ms (some δ)) :
      (Node.mk id shape e.term.head.tags e.term.head.location).Recordable :=
    ⟨⟨htags, fun fs hs => absurd hs (ho fs), fun k x hs => absurd hs (hl k x),
      fun ms hs => absurd hs (he ms)⟩, fun ms δ hs => absurd hs (hu ms δ)⟩
  cases hs : e.term.shape with
  | literal k x =>
    rw [hs] at hshape
    refine ⟨⟨htags, by simp [outline], fun k' x' hx => ?_, by simp [outline]⟩, by simp [outline]⟩
    cases hx
    exact hshape
  | enum ms =>
    rw [hs] at hshape
    refine ⟨⟨htags, by simp [outline], by simp [outline], fun ms' hms => ?_⟩, by simp [outline]⟩
    cases hms
    exact hshape
  | object heads =>
    rw [hs] at hshape
    refine ⟨⟨htags, fun fs hfs f hf => ?_, by simp [outline], by simp [outline]⟩, by simp [outline]⟩
    rw [outline_object] at hfs
    cases hfs
    obtain ⟨p, hp, rfl⟩ := List.mem_map.1 hf
    exact hshape p.1 (List.of_mem_zip hp).1
  | union δ =>
    rw [hs] at hshape
    refine ⟨⟨htags, by simp [outline], by simp [outline], by simp [outline]⟩, fun ms δ' hδ => ?_⟩
    cases hδ
    exact hshape δ' rfl
  | recursiveRef symbol raw link =>
    cases link <;> exact hplain (by simp [outline]) (by simp [outline]) (by simp [outline])
      (by simp [outline])
  | _ => exact hplain (by simp [outline]) (by simp [outline]) (by simp [outline]) (by simp [outline])

/-- The normal form of a graph that loses nothing can be recorded. -/
theorem Graph.recordable_of_normalize {deadline : Option Deadline} {normal : Normalized}
    {c : CanonicalGraph} (hg : ∀ id n, g.node? id = some n → n.Lossless)
    (hn : g.normalize d a deadline = .ok normal) (hc : normal.outcome.value = some c) :
    c.toGraph.Recordable := by
  obtain ⟨t, st, root, nodes, hfold, hemit, rfl⟩ := normalize_eq_ok hn
  obtain rfl := Option.some.inj hc
  have hf : g.Folds d a t := ⟨_, Folding.ends_root_untimed hfold⟩
  exact fun id n hn => (hf.recordable hg).node hemit hn

end TypeAtlas
