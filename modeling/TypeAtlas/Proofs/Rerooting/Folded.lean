import TypeAtlas.Proofs.Normal.Legible
import TypeAtlas.Proofs.Normal.Refolded
import TypeAtlas.Proofs.Relabeling.Folded
import TypeAtlas.Proofs.Rerooting.Basic

/-! # Folds below a new root

A union above the root of a graph leaves no trace in the term. If the root is an untagged union as well,
its members become those of the union above. Otherwise the union above gives way to its only member,
unless it is a recursion target.
-/

namespace TypeAtlas

open Folding Relation

namespace Folding

variable {s : Setting} {st st' : State} {t u : Term} {n : Node} {id : NodeId} {field : Option String}
  {stack : List NodeId} {path : Std.ExtTreeSet NodeId} {fuel : ℕ}

theorem ends_build_iff (hdeadline : st.deadline = none) (hclosed : st.closed[id]? = none)
    (hn : s.graph.node? id = some n) (htags : n.tags = []) (hpath : path.contains id = false) :
    Ends (build s (fuel + 1) path stack field id) st t st' ↔
      ∃ st₁, Ends (targetTerm s (build s fuel (path.insert id)) id n stack field) st t st₁ ∧
        st' = if t.free.isEmpty then { st₁ with closed := st₁.closed.insert id t } else st₁ := by
  rw [build, Ends, (ends_checkDeadline_none hdeadline).run_bind, Ends.run_bind (ends_get.2 ⟨rfl, rfl⟩), hclosed, hn]
  dsimp only
  rw [hpath, if_neg Bool.false_ne_true]
  change Ends _ st t st' ↔ _
  rw [ends_bind]
  simp only [htags, List.isEmpty_nil, Bool.not_true, Bool.false_eq_true, if_false]
  constructor
  · rintro ⟨u, st₁, hu, h⟩
    obtain ⟨rfl, rfl⟩ := ends_remember h
    exact ⟨st₁, hu, rfl⟩
  · rintro ⟨st₁, ht, rfl⟩
    refine ⟨t, st₁, ht, ?_⟩
    split
    · exact ends_bind.2 ⟨⟨⟩, _, ends_modify.2 rfl, ends_pure.2 ⟨rfl, rfl⟩⟩
    · exact ends_pure.2 ⟨rfl, rfl⟩

theorem exists_ends_unionTerm_alone {k : ℕ} (hu : u.Sits s.digester s.algorithm k)
    (hrender : ∃ text, s.graph.render u.head.rawId = .ok text) (htags : n.tags = []) (id : NodeId)
    (field : Option String) (st : State) :
    ∃ t st', Ends (unionTerm s n (splice "union" (id, u)) false field) st t st' ∧
      (t = u ∨ t = u.ascribed n) ∧ st'.sink.hasErrors = st.sink.hasErrors := by
  by_cases hspliced : u.shape.kind = "union" ∧ u.head.tags = [] ∧ u.binder = false
  · obtain ⟨hkind, hnone, hplain⟩ := hspliced
    have hformed := hu.formed.here
    obtain ⟨δ, hδ⟩ := TermShape.eq_union_of_kind hkind
    have hcov := hformed.covers
    rw [hδ] at hcov
    obtain ⟨hdiscriminant, hrising, -, hkin⟩ := hcov
    have hms : splice "union" (id, u) = u.children.map fun c => (c.head.rawId, c) := by
      simp [splice, hkind, hnone, hplain]
    have hsnd : (u.children.map fun c => (c.head.rawId, c)).map Prod.snd = u.children := by
      rw [List.map_map]
      exact List.map_id _
    have hmany (hlen : u.children.length = 1) : n.tags ≠ [] ∨ false = true := by
      have hsingle := hformed.single (by rw [hδ]; rfl) hlen
      simp [hnone, hplain] at hsingle
    have hmake := hu.make_eq hplain
    rw [hδ, hnone] at hmake
    refine ⟨u.ascribed n, st, ?_, .inr rfl, rfl⟩
    rw [hms, unionTerm_of_kin (hsnd.symm ▸ hkin), hsnd, sortedUnique_of_rising hrising, ← hdiscriminant,
      composite_eq_term hmany, htags]
    refine ends_written.2 ⟨?_, rfl⟩
    rw [Term.make_ascribed s.digester s.algorithm n (.union δ) u.head.rawId u.children [] u.head.location,
      hmake]
    rfl
  · obtain ⟨text, htext⟩ := hrender
    have hsorted : sortedUnique [u] = [u] := sortedUnique_of_rising (List.pairwise_singleton _ _)
    obtain ⟨st', hreport, hsame⟩ : ∃ st', Ends (report s .compositeCollapsed [.text "union", .text text] n.id field) st
        ⟨⟩ st' ∧ st'.sink.hasErrors = st.sink.hasErrors := by
      refine ⟨_, ends_modify.2 rfl, ?_⟩
      rw [Sink.hasErrors_emit]
      exact Bool.or_false _
    refine ⟨u, st', ?_, .inl rfl, hsame⟩
    rw [splice_eq_self hspliced, unionTerm_of_kin (by simp [Kin]), List.map_singleton, hsorted]
    simp only [composite, htags, List.isEmpty_nil, Bool.not_false, Bool.and_self, if_true]
    exact ends_bind.2 ⟨text, st, ends_written.2 ⟨htext, rfl⟩,
      ends_bind.2 ⟨⟨⟩, st', hreport, ends_pure.2 ⟨rfl, rfl⟩⟩⟩

end Folding

namespace Rerooting

variable (ρ : Rerooting) {node : NodeId → NodeId} (hnode : Function.Injective node)

/-- Other names for the nodes of terms, while recursive references to the root name the root. -/
def naming (hnode : Function.Injective node) : Relabeling where
  symbol := id
  location := id
  node := node
  target := ρ.target
  node_injective := hnode
  target_injective := ρ.target_injective

def above (location : Option SourceLocation) : Node :=
  { id := ρ.root, shape := .union [ρ.node ρ.root] none, location }

theorem naming_graphNode {n : Node} (hid : node n.id = ρ.node n.id)
    (hc : ∀ c ∈ n.shape.children, node c = ρ.node c) : (ρ.naming hnode).graphNode n = ρ.graphNode n := by
  have hmap {ids : List NodeId} (h : ∀ c ∈ ids, node c = ρ.node c) : ids.map node = ids.map ρ.node :=
    List.map_congr_left h
  have hshape : (ρ.naming hnode).shape n.shape = ρ.shape n.shape := by
    revert hc
    cases n.shape with
    | array e => exact fun hc => congrArg Shape.array (hc e List.mem_cons_self)
    | reference target symbol => exact fun hc => congrArg (Shape.reference · symbol) (hc target List.mem_cons_self)
    | tuple es => exact fun hc => congrArg Shape.tuple (hmap hc)
    | union ms δ => exact fun hc => congrArg (Shape.union · δ) (hmap hc)
    | intersection ms => exact fun hc => congrArg Shape.intersection (hmap hc)
    | object fs =>
      intro hc
      refine congrArg Shape.object (List.map_congr_left fun f hf => ?_)
      have hf : node f.type = ρ.node f.type := hc f.type (List.mem_map_of_mem hf)
      simp only [Relabeling.field, field, naming, hf, Option.map_id_fun, id]
    | _ => exact fun _ => rfl
  rw [Relabeling.graphNode, hshape]
  simp only [naming, hid, Option.map_id_fun, id, graphNode]

end Rerooting

/-- The root of the graph is an untagged union. -/
def Graph.UnionRooted (g : Graph) : Prop :=
  ∃ n ms δ, g.node? g.root = some n ∧ n.tags = [] ∧ n.shape = .union ms δ

namespace Graph.Rerooted

variable {ρ : Rerooting} {location : Option SourceLocation} {g g' : Graph} {d : Digester} {a : Algorithm}
  (h : g.Rerooted ρ location g') (hg : g.nodes.Grown)

include h hg

theorem node_naming {node : NodeId → NodeId} (hnode : Function.Injective node) {id : NodeId}
    (hid : node id = ρ.node id) (hc : ∀ c, g.nodes.HasChild id c → node c = ρ.node c) :
    g'.node? (node id) = (g.node? id).map (ρ.naming hnode).graphNode := by
  rw [hid, h.node]
  cases hn : g.node? id with
  | none => rfl
  | some n =>
    refine congrArg some (ρ.naming_graphNode hnode ?_ fun c hm => hc c ⟨n, hn, hm⟩).symm
    rw [hg.keyed hn]
    exact hid

/-- Unless the root is a recursion target, all nodes are folded alike under their new names. -/
theorem relabeled (hroot : g.root ∉ g.binders) :
    (g.setting d a).Relabeled (ρ.naming ρ.injective) (· ∈ g.nodes) (fun _ => True) False
      (g'.setting d a) where
  digester := rfl
  algorithm := rfl
  node _ _ := h.node_naming hg ρ.injective rfl fun _ _ => rfl
  size := h.nodes.size ▸ Nat.le_succ _
  child _ _ _ hc := by
    obtain ⟨n, hn, hmem⟩ := hc
    exact hg.child_mem hn hmem
  binders id _ := by
    refine (h.mem_binders_node id).trans ⟨fun hb => hb.2, fun hb => ⟨?_, hb⟩⟩
    rintro rfl
    exact hroot (h.root ▸ hb)
  target id _ hb := by
    refine ρ.target_of_ne ?_
    rintro rfl
    exact hroot (h.root ▸ hb)
  missing id hid hn := by
    obtain ⟨n, hn'⟩ := mem_iff_exists_getElem?.1 hid
    cases hn.symm.trans hn'
  cyclic := False.elim
  symbol := False.elim
  place := False.elim
  render id := by
    have hrender : g'.render (ρ.node id) = g.render id := h.render id
    change Parallel Never _ _ (g'.render (ρ.node id))
    rw [hrender]
    exact .refl (fun _ => False.elim) _
  reports _ _ _ _ _ := trivial

theorem ne_root_of_below {id : NodeId} (hid : TransGen g.nodes.HasChild g.root id) : id ≠ ρ.root := by
  rintro rfl
  exact hg.acyclic _ (h.root ▸ hid)

omit hg in
theorem exists_render_root (hlegible : g.Legible g.root) : ∃ text, g'.render ρ.root = .ok text := by
  obtain ⟨text, htext⟩ := hlegible.exists_renderWithin maxRenderDepth
  have hmember : g'.renderWithin maxRenderDepth (ρ.node ρ.root) = .ok text := by
    rw [h.renderWithin, ← h.root]
    exact htext
  have habove : g'.node? ρ.root = some (ρ.above location) := h.nodes.above
  refine ⟨Text.join " | " [text], ?_⟩
  rw [Graph.render, Graph.renderWithin, habove]
  simp only [Rerooting.above, List.mapM_cons, hmember]
  rfl

theorem relabeled_below (hlegible : g.Legible g.root) :
    (g.setting d a).Relabeled (ρ.naming ρ.target_injective) (TransGen g.nodes.HasChild g.root)
      (fun _ => True) False (g'.setting d a) where
  digester := rfl
  algorithm := rfl
  node id hid := by
    refine h.node_naming hg ρ.target_injective (ρ.target_of_ne (h.ne_root_of_below hg hid)) fun c hc => ?_
    exact ρ.target_of_ne (h.ne_root_of_below hg (hid.tail hc))
  size := h.nodes.size ▸ Nat.le_succ _
  child _ _ hx hc := hx.tail hc
  binders id _ := h.mem_binders id
  target _ _ _ := rfl
  missing id hid hn := by
    obtain ⟨x, -, n, hx, hmem⟩ := TransGen.tail'_iff.1 hid
    obtain ⟨n, hn'⟩ := mem_iff_exists_getElem?.1 (hg.child_mem hx hmem)
    cases hn.symm.trans hn'
  cyclic := False.elim
  symbol := False.elim
  place := False.elim
  render id := by
    change Parallel Never _ (g.render id) (g'.render (ρ.target id))
    by_cases hid : id = ρ.root
    · obtain ⟨x, hx⟩ : ∃ x, g.render g.root = .ok x := hlegible.exists_renderWithin _
      obtain ⟨y, hy⟩ := h.exists_render_root hlegible
      rw [hid, ρ.target_root, ← h.root, hx, h.root, hy]
      exact .ok False.elim
    · have hrender : g'.render (ρ.node id) = g.render id := h.render id
      rw [ρ.target_of_ne hid, hrender]
      exact .refl (fun _ => False.elim) _
  reports _ _ _ _ _ := trivial

omit hg in
theorem exists_ends_root_of_target {t : Term} {st : State}
    (ht : Ends (targetTerm (g'.setting d a) (build (g'.setting d a) (g.nodes.size + 1)
      (Std.ExtTreeSet.insert ∅ ρ.root)) ρ.root (ρ.above location) [] none) {} t st) :
    ∃ st', Ends (Folding.root (g'.setting d a)) {} t st' ∧ st'.sink = st.sink := by
  obtain ⟨st', hst', hsink⟩ : ∃ st', st' = (if t.free.isEmpty then
      { st with closed := st.closed.insert ρ.root t } else st) ∧ st'.sink = st.sink := by
    refine ⟨_, rfl, ?_⟩
    split <;> rfl
  have habove : g'.node? ρ.root = some (ρ.above location) := h.nodes.above
  have hsize : g'.nodes.size = g.nodes.size + 1 := h.nodes.size
  refine ⟨st', ?_, hsink⟩
  rw [Folding.root, hsize, h.root']
  exact (ends_build_iff rfl (by simp) habove rfl (by simp)).2 ⟨st, ht, hst'⟩

/-- A union above that is no recursion target and takes no members over gives way to the old root. -/
theorem exists_ends_root_alone {t : Term} {st : State} (hmem : g.root ∈ g.nodes)
    (hroot : g.root ∉ g.binders)
    (halone : spliceable? (g'.setting d a) unionMembers? (ρ.node ρ.root) = none)
    (hends : Ends (Folding.root (g.setting d a)) {} t st) :
    ∃ t' st', Ends (Folding.root (g'.setting d a)) {} t' st' ∧
      (t' = (ρ.naming ρ.injective).term t ∨
        t' = ((ρ.naming ρ.injective).term t).ascribed (ρ.above location)) ∧
      st'.sink.hasErrors = st.sink.hasErrors := by
  have habove : g'.node? ρ.root = some (ρ.above location) := h.nodes.above
  have hsize : g'.nodes.size = g.nodes.size + 1 := h.nodes.size
  have hflat (fuel : ℕ) : flatten (g'.setting d a) unionMembers? fuel [ρ.node ρ.root] ∅ =
      ([ρ.node ρ.root], ∅) := by
    refine flatten_of_seen (fun x hx inner hinner => ?_) fuel
    rw [List.mem_singleton.1 hx, halone] at hinner
    cases hinner
  have hpath : SamePath (ρ.naming ρ.injective) (· ∈ g.nodes) (g.setting d a) ∅
      (Std.ExtTreeSet.insert ∅ ρ.root) g.root :=
    ⟨by simp, fun x _ => by simp [Rerooting.naming, (ρ.fresh x).symm]⟩
  have halong : Accompanies (ρ.naming ρ.injective) (· ∈ g.nodes) (fun _ => True) False false _ _ _ :=
    accompanies_build (h.relabeled hg hroot) (g.nodes.size + 1) ∅ _ [] none hmem hpath
  obtain ⟨u, st₁, hu, rfl, hst₁⟩ := halong.ends (State.relabeled_initial rfl) hends
  have hname : (ρ.naming ρ.injective).node g.root = ρ.node ρ.root := congrArg ρ.node h.root
  rw [hname] at hu
  have hsits : ((ρ.naming ρ.injective).term t).Sits d a 0 := by
    have hvisited : Visited (g'.setting d a) [ρ.root] [] (ρ.node ρ.root) := by
      have hroot' : Visited (g'.setting d a) [] [] ρ.root := h.root' ▸ .root
      refine .plain hroot' habove ?_
      simp [sourceIds, sources, Rerooting.above, flat, hflat]
    have hderives := build_derives hu sound_nil hvisited (by simp) (by simp [hsize]) (.inl trivial)
    exact hderives.1.sits
  have hrender : ∃ text, g'.render ((ρ.naming ρ.injective).term t).head.rawId = .ok text := by
    have hbelow := ((derives_of_ends_root hends (.inl trivial)).rawId_below fun _ _ => hg.keyed).here
    have hlegible := legible_of_ends_root (sturdy_of_grown hg hmem) hends
    obtain ⟨text, htext⟩ := Legible.exists_renderWithin (fun x hx => hlegible x (hbelow.trans hx)) _
    refine ⟨text, ?_⟩
    rw [Relabeling.head_term]
    exact (h.render _).trans htext
  obtain ⟨t', st₂, hunion, ht', hsame⟩ := exists_ends_unionTerm_alone (s := g'.setting d a)
    (n := ρ.above location) hsits hrender rfl (ρ.node ρ.root) none st₁
  have hmembers : Ends (members (g'.setting d a) (build (g'.setting d a) (g.nodes.size + 1)
      (Std.ExtTreeSet.insert ∅ ρ.root) [] none) "union" unionMembers? [ρ.node ρ.root]) {}
      (splice "union" (ρ.node ρ.root, (ρ.naming ρ.injective).term t)) st₁ := by
    rw [members, hflat]
    refine ends_bind.2 ⟨_, st₁, ends_mapM.2 (.cons (ends_bind.2 ⟨_, st₁, hu, ends_pure.2 ⟨rfl, rfl⟩⟩) .nil), ?_⟩
    exact ends_pure.2 ⟨by simp, rfl⟩
  have htarget : Ends (targetTerm (g'.setting d a) (build (g'.setting d a) (g.nodes.size + 1)
      (Std.ExtTreeSet.insert ∅ ρ.root)) ρ.root (ρ.above location) [] none) {} t' st₂ := by
    have hbinder : ¬ (g'.setting d a).binders.contains ρ.root := fun hb => by
      have hb : ρ.target ρ.root ∈ g'.binders := ρ.target_root.symm ▸ hb
      exact hroot (h.root ▸ (h.mem_binders _).1 hb)
    rw [targetTerm, Ends, Ends.run_bind (ends_get.2 ⟨rfl, rfl⟩), Bool.eq_false_iff.2 hbinder]
    exact ends_bind.2 ⟨_, st₁, hmembers, hunion⟩
  obtain ⟨st', hends', hsink⟩ := h.exists_ends_root_of_target htarget
  exact ⟨t', st', hends', ht', by rw [hsink, hsame, hst₁.hasErrors]⟩

/-! ## A union below a union -/

section Merged

variable {n : Node} {ms : List NodeId} {δ : Option Discriminant} (hn : g.node? g.root = some n)
  (htags : n.tags = []) (hshape : n.shape = .union ms δ)

include hn hshape

omit h hg in
theorem below_of_member {x : NodeId} (hx : x ∈ ms) : TransGen g.nodes.HasChild g.root x :=
  .single ⟨n, hn, by rwa [hshape]⟩

include htags

omit hg in
theorem spliceable?_root :
    spliceable? (g'.setting d a) unionMembers? (ρ.node ρ.root) = some (ms.map ρ.node) := by
  have hnode : g'.node? (ρ.node ρ.root) = some (ρ.graphNode n) := by
    rw [h.node, ← h.root, hn]
    rfl
  have hbinder : g'.binders.contains (ρ.node ρ.root) = false :=
    Bool.eq_false_iff.2 fun hb => ((h.mem_binders_node _).1 hb).1 rfl
  simp only [spliceable?, hnode, Rerooting.graphNode, htags, hbinder, hshape]
  rfl

theorem flatten_above (hlegible : g.Legible g.root) :
    (flatten (g'.setting d a) unionMembers? g'.nodes.size [ρ.node ρ.root] ∅).1 =
      (flatten (g.setting d a) unionMembers? g.nodes.size ms ∅).1.map ρ.target := by
  have hsize : g'.nodes.size = g.nodes.size + 1 := h.nodes.size
  have hmembers : ms.map ρ.node = ms.map ρ.target := List.map_congr_left fun x hx =>
    (ρ.target_of_ne (h.ne_root_of_below hg (below_of_member hn hshape hx))).symm
  have hseen (x : NodeId) (hx : TransGen g.nodes.HasChild g.root x) :
      ρ.target x ∈ (∅ : Std.ExtTreeSet NodeId).insert (ρ.node ρ.root) ↔ x ∈ (∅ : Std.ExtTreeSet NodeId) := by
    have hne := h.ne_root_of_below hg hx
    simp [ρ.target_of_ne hne, ρ.injective.eq_iff, hne.symm]
  have hrenamed (shape : Shape) : unionMembers? ((ρ.naming ρ.target_injective).shape shape) =
      (unionMembers? shape).map (List.map ρ.target) := by
    cases shape <;> rfl
  have hflat := flatten_relabeled (h.relabeled_below (d := d) (a := a) hg hlegible) hrenamed
    (fun _ _ => eq_children_of_unionMembers) g.nodes.size (fun x hx => below_of_member hn hshape hx) hseen
  rw [hsize, flatten, List.foldl_cons, List.foldl_nil, h.spliceable?_root hn htags hshape]
  simp only [Std.ExtTreeSet.contains_empty, Bool.false_eq_true, if_false, List.nil_append, hmembers]
  exact hflat.flat

/-- The unions are folded alike below the targets on the stack. -/
theorem accompanies_above (hlegible : g.Legible g.root) (stack : List NodeId) (binder : Bool) :
    Accompanies (ρ.naming ρ.target_injective) (TransGen g.nodes.HasChild g.root) (fun _ => True) False false
      (Ascribes (ρ.naming ρ.target_injective) n (ρ.above location))
      (nodeTerm (g.setting d a) (build (g.setting d a) (g.nodes.size + 1)
        ((∅ : Std.ExtTreeSet NodeId).insert g.root) stack) n stack none binder)
      (nodeTerm (g'.setting d a) (build (g'.setting d a) (g.nodes.size + 1)
        ((∅ : Std.ExtTreeSet NodeId).insert ρ.root) (stack.map ρ.target)) (ρ.above location)
        (stack.map ρ.target) none binder) := by
  have hs := h.relabeled_below (d := d) (a := a) hg hlegible
  have hid : (ρ.above location).id = (ρ.naming ρ.target_injective).node n.id := by
    rw [hg.keyed hn, h.root]
    exact ρ.target_root.symm
  simp only [nodeTerm, hshape]
  refine Along.bind (R := fun ms ms' => ms' = ms.map (ρ.naming ρ.target_injective).member) ?_ ?_
  · rw [members, members]
    simp only [h.flatten_above hg hn htags hshape hlegible]
    refine accompanies_spliced "union" fun x hx => ?_
    obtain ⟨y, hy, hyx⟩ := exists_of_mem_flatten
      (fun shape ms hms m hm => eq_children_of_unionMembers hms ▸ hm) hx
    have hbelow := (below_of_member hn hshape hy).trans_left hyx
    refine accompanies_build hs _ _ _ stack none hbelow ⟨fun z hz => ?_, fun z _ => ?_⟩
    · obtain rfl : g.root = z := by simpa using hz
      exact hbelow
    · have htarget : ρ.root = ρ.target z ↔ g.root = z := by
        rw [h.root, eq_comm, ρ.target_eq_root, eq_comm]
      simpa [Rerooting.naming] using htarget
  · rintro ms _ rfl
    exact accompanies_unionTerm_of hs hid htags.symm ms binder none

/-- A union above an untagged union takes its place. -/
theorem exists_ends_root_merged {t : Term} {st : State}
    (hends : Ends (Folding.root (g.setting d a)) {} t st) :
    ∃ t' st', Ends (Folding.root (g'.setting d a)) {} t' st' ∧
      (t' = (ρ.naming ρ.target_injective).term t ∨
        t' = ((ρ.naming ρ.target_injective).term t).ascribed (ρ.above location)) ∧
      st'.sink.hasErrors = st.sink.hasErrors := by
  have hmem : g.root ∈ g.nodes := mem_iff_exists_getElem?.2 ⟨n, hn⟩
  have hlegible := legible_of_ends_root (sturdy_of_grown hg hmem) hends
  have hs := h.relabeled_below (d := d) (a := a) hg hlegible
  rw [← (ample (g.setting d a)).build (g.nodes.size + 2) (by simp)] at hends
  obtain ⟨st₁, htarget, rfl⟩ := (ends_build_iff rfl (by simp) hn htags (by simp)).1 hends
  have hname : ρ.target g.root = ρ.root := by rw [h.root, ρ.target_root]
  have hbinder : g'.binders.contains ρ.root = g.binders.contains g.root := by
    rw [← hname, Bool.eq_iff_iff]
    exact h.mem_binders g.root
  have htried := h.accompanies_above (d := d) (a := a) hg hn htags hshape hlegible [g.root] true
  rw [List.map_singleton, hname] at htried
  have hplain := h.accompanies_above (d := d) (a := a) hg hn htags hshape hlegible [] false
  obtain ⟨⟨t', st'⟩, htarget', ht', hst'⟩ := (parallel_targetTerm hs (fun _ _ h => h.free)
    (fun _ _ height h => h.asTarget d a height) hname rfl hbinder (fun _ => htried) hplain
    (State.relabeled_initial rfl) (by simp)).exists_ok htarget
  obtain ⟨st'', hends', hsink⟩ := h.exists_ends_root_of_target htarget'
  refine ⟨t', st'', hends', ht'.imp_right And.left, ?_⟩
  rw [hsink, hst'.hasErrors]
  split <;> rfl

end Merged

omit hg in
theorem unionRooted_of_spliceable {inner : List NodeId}
    (hsome : spliceable? (g'.setting d a) unionMembers? (ρ.node ρ.root) = some inner) : g.UnionRooted := by
  simp only [spliceable?, h.node, ← h.root] at hsome
  cases hn : g.node? g.root with
  | none => simp [hn] at hsome
  | some n =>
    simp only [hn, Option.map_some, Rerooting.graphNode] at hsome
    split at hsome
    · next hplain =>
      have htags : n.tags = [] := List.isEmpty_iff.1 (Bool.and_eq_true_iff.1 hplain).1
      cases hshape : n.shape with
      | union ms δ => exact ⟨n, ms, δ, hn, htags, hshape⟩
      | _ => simp [hshape, Rerooting.shape, unionMembers?] at hsome
    · cases hsome

/-- The term of a graph is that of its root below a union, but for names and positions, if the root is an
untagged union itself or no recursion target. -/
theorem exists_ends_root {t : Term} {st : State} (hmem : g.root ∈ g.nodes)
    (hback : g.UnionRooted ∨ g.root ∉ g.binders)
    (hends : Ends (Folding.root (g.setting d a)) {} t st) :
    ∃ (node : NodeId → NodeId) (hnode : Function.Injective node) (t' : Term) (st' : State),
      Ends (Folding.root (g'.setting d a)) {} t' st' ∧
      (t' = (ρ.naming hnode).term t ∨ t' = ((ρ.naming hnode).term t).ascribed (ρ.above location)) ∧
      st'.sink.hasErrors = st.sink.hasErrors := by
  by_cases hunion : g.UnionRooted
  · obtain ⟨n, ms, δ, hn, htags, hshape⟩ := hunion
    exact ⟨ρ.target, ρ.target_injective, h.exists_ends_root_merged hg hn htags hshape hends⟩
  · refine ⟨ρ.node, ρ.injective, h.exists_ends_root_alone hg hmem (hback.resolve_left hunion) ?_ hends⟩
    rw [Option.eq_none_iff_forall_ne_some]
    exact fun inner hinner => hunion (h.unionRooted_of_spliceable hinner)

end Graph.Rerooted

end TypeAtlas
