import TypeAtlas.Proofs.Normal.Settled

/-! # Walking down an arena

The way down the arena of a settled term follows the term: below a node of a term stand nodes for the
terms below it, and the recursion targets on the way are those that enclose it. On the way down the
terms get lower, so it never comes back to a node, and it is no longer than the arena is large.
-/

namespace TypeAtlas.Term

open Emission

variable {d : Digester} {a : Algorithm} {S : Set String} {t : Term} {r id : NodeId}
  {A : Arena} {trail stack : List NodeId} {e : Entry} {k l : ℕ}

theorem Laid.forall₂_children {α : Type} {P Q : Term → α → Prop} {ys : List α}
    (h : Laid d a S t r A) (he : Written d a t A id e)
    (hys : List.Forall₂ (fun x y => ∃ f, Written d a t A x f ∧ P f.term y) e.names ys)
    (hPQ : ∀ u v y, Twin u v → u.digest = v.digest → P v y → Q u y) :
    List.Forall₂ Q e.term.children ys := by
  refine List.forall₂_iff_get.2 ⟨he.children.length_eq.trans hys.length_eq, fun i hi hj => ?_⟩
  have hn : i < e.names.length := hys.length_eq ▸ hj
  obtain ⟨f, hf, htwin, hd, -⟩ := h.child he hi hn
  obtain ⟨f', hf', hP⟩ := hys.get hn hj
  obtain ⟨htwin', hd', -⟩ := h.agree_of_written h hf hf'
  exact hPQ _ _ _ (htwin.trans htwin') (hd.trans hd') hP

/-! ## Walks -/

/-- A walk down the arena of a term stands at a node, below the nodes of the trail and the recursion
targets of the stack, the last ones first. -/
structure Stands (d : Digester) (a : Algorithm) (t : Term) (A : Arena)
    (trail stack : List NodeId) (id : NodeId) (e : Entry) : Prop where
  written : Written d a t A id e
  agree : ∀ k ∈ e.term.reach, e.under.reverse[k]? = stack[k]?
  sublist : stack.Sublist trail
  nodup : trail.Nodup
  higher : ∀ x ∈ trail, ∃ f, Written d a t A x f ∧ e.term.height < f.term.height

namespace Stands

theorem root (h : Laid d a S t r A) :
    ∃ e, Stands d a t A [] [] r e ∧ Twin t e.term ∧ t.digest = e.term.digest := by
  obtain ⟨e, he⟩ := h.filed r (extends_of_ends_emit h.run).2
  obtain ⟨B, hask, -⟩ := he.asked
  obtain ⟨htwin, hd, hag⟩ := h.agree h .here hask h.named he.named
  refine ⟨e, ⟨he, fun k hk => ?_, .slnil, .nil, by simp⟩, htwin, hd⟩
  exact (hag k (htwin.mem_reach_iff.2 hk)).symm

theorem not_mem_trail (h : Laid d a S t r A) (hs : Stands d a t A trail stack id e) :
    id ∉ trail := by
  intro hmem
  obtain ⟨f, hf, hlt⟩ := hs.higher id hmem
  exact absurd hlt ((h.agree_of_written h hs.written hf).1.height ▸ lt_irrefl _)

theorem length_lt (h : Laid d a S t r A) (hs : Stands d a t A trail stack id e) :
    trail.length < A.size := by
  have hall : ∀ x ∈ id :: trail, x ∈ A := by
    rw [List.forall_mem_cons]
    refine ⟨mem_iff_exists_getElem?.2 ⟨_, hs.written.node⟩, fun x hx => ?_⟩
    obtain ⟨f, hf, -⟩ := hs.higher x hx
    exact mem_iff_exists_getElem?.2 ⟨_, hf.node⟩
  rw [← Std.ExtTreeMap.length_keys, ← Nat.succ_le_iff]
  have hnodup : (id :: trail).Nodup := List.nodup_cons.2 ⟨hs.not_mem_trail h, hs.nodup⟩
  refine (List.subperm_of_subset hnodup fun x hx => ?_).length_le
  exact Std.ExtTreeMap.mem_keys.2 (hall x hx)

theorem sublist_push (hs : Stands d a t A trail stack id e) :
    (e.term.push id stack).Sublist (id :: trail) := by
  unfold push
  split
  · exact hs.sublist.cons_cons id
  · exact hs.sublist.cons id

theorem child (h : Laid d a S t r A) (hs : Stands d a t A trail stack id e) {i : ℕ}
    (hi : i < e.term.children.length) (hj : i < e.names.length) :
    ∃ f, Stands d a t A (id :: trail) (e.term.push id stack) e.names[i] f ∧
      Twin e.term.children[i] f.term ∧ e.term.children[i].digest = f.term.digest := by
  obtain ⟨f, hf, htwin, hd, hag⟩ := h.child hs.written hi hj
  have hmem := List.getElem_mem hi
  have hlt : f.term.height < e.term.height := htwin.height ▸ height_lt_of_mem_children hmem
  refine ⟨f, ⟨hf, fun k hk => ?_, hs.sublist_push, ?_, ?_⟩, htwin, hd⟩
  · have hk := htwin.mem_reach_iff.2 hk
    obtain ⟨l, hl⟩ := mem_reach.1 hk
    rw [← hag k hk, Entry.inner, reverse_inner]
    exact Agree.push hs.agree (mem_inward_of_child hmem hl)
  · exact List.nodup_cons.2 ⟨hs.not_mem_trail h, hs.nodup⟩
  · rw [List.forall_mem_cons]
    refine ⟨⟨e, hs.written, hlt⟩, fun x hx => ?_⟩
    obtain ⟨g, hg, hgt⟩ := hs.higher x hx
    exact ⟨g, hg, hlt.trans hgt⟩

/-- Every node right below is that of a term right below. -/
theorem exists_child (h : Laid d a S t r A) (hs : Stands d a t A trail stack id e) {x : NodeId}
    (hx : x ∈ e.names) :
    ∃ f, Stands d a t A (id :: trail) (e.term.push id stack) x f := by
  obtain ⟨i, hi, rfl⟩ := List.getElem_of_mem hx
  obtain ⟨f, hf, -⟩ := hs.child h (hs.written.children.length_eq ▸ hi) hi
  exact ⟨f, hf⟩

theorem lt_length (h : Laid d a S t r A) (hs : Stands d a t A trail stack id e)
    (hk : k ∈ e.term.reach) : k < stack.length := by
  have hlt := (h.level_of_written hs.written).lt_of_mem_reach hk
  by_contra hle
  have hnone := hs.agree k hk
  rw [List.getElem?_eq_none_iff.2 (Nat.le_of_not_lt hle), List.getElem?_eq_none_iff,
    List.length_reverse] at hnone
  omega

/-- The target of a recursive reference stands on the stack at the reference's distance. -/
theorem idxOf_target (h : Laid d a S t r A) (hs : Stands d a t A trail stack id e)
    (hk : (k, l) ∈ ownLinks e.term.shape) :
    (e.term.push id stack).idxOf? e.target = some k := by
  have hlink := h.link hs.written hk
  rw [Entry.inner, reverse_inner, Agree.push hs.agree (mem_inward.2 (.inl hk))] at hlink
  obtain ⟨hlt, hget⟩ := List.getElem?_eq_some_iff.1 hlink
  have hnodup : (e.term.push id stack).Nodup :=
    hs.sublist_push.nodup (List.nodup_cons.2 ⟨hs.not_mem_trail h, hs.nodup⟩)
  rw [List.idxOf?_eq_some_iff]
  refine ⟨hlt, hget, fun j hj hje => ?_⟩
  have hinj := (hnodup.getElem_inj_iff (i := j) (j := k)).1 (hje.trans hget.symm)
  omega

theorem not_mem_push (hs : Stands d a t A trail stack id e) {x : NodeId} (hx : x ∉ A) :
    x ∉ e.term.push id stack := by
  intro hmem
  rcases List.mem_cons.1 (hs.sublist_push.subset hmem) with rfl | hmem
  · exact hx (mem_iff_exists_getElem?.2 ⟨_, hs.written.node⟩)
  · obtain ⟨f, hf, -⟩ := hs.higher x hmem
    exact hx (mem_iff_exists_getElem?.2 ⟨_, hf.node⟩)

end Stands

end TypeAtlas.Term
