import TypeAtlas.Proofs.Graph.WellFormed
import TypeAtlas.Proofs.Normal.Formed
import TypeAtlas.Proofs.Normal.Unmerged

/-! # Folds without an error

The terms below the term of a node come from the nodes that it is folded from, or are made for the
node itself. A fold says that a type is not known only where the graph says so or where it reports
an error, and giving up a recursion target does not take back a report from outside.
-/

namespace TypeAtlas

open Term

def TermShape.isUnknown : TermShape → Bool
  | .unknown .. => true
  | _ => false

abbrev Term.Known (t : Term) : Prop := t.Throughout fun u => u.shape.isUnknown = false

namespace Folding

variable {s : Setting} {st st' st'' : State} {n : Node} {t u c : Term} {ts : List Term}
  {field : Option String} {binder : Bool} {stack : List NodeId} {loose : Prop} {id : NodeId}
  {kind : String} {ids : List NodeId} {shape : TermShape}

/-! ## What terms are made of -/

/-- A term that stands in one of the given ones. -/
def Within (ts : List Term) (u : Term) : Prop := ∃ c ∈ ts, u.Sub c

theorem Within.of_mem (h : c ∈ ts) : Within ts c := ⟨c, h, .refl⟩

theorem Within.sub (h : Within ts c) (hu : u.Sub c) : Within ts u :=
  let ⟨x, hx, hc⟩ := h
  ⟨x, hx, hu.trans hc⟩

/-- A shape that the term of a node can have: what it says is said by the node, or by the terms of
its sources. -/
def Shaped (n : Node) (ts : List Term) : TermShape → Prop
  | .primitive p => n.shape = .primitive p
  | .literal k v => n.shape = .literal k v
  | .enum ms => ∃ ms', n.shape = .enum ms' ∧ ms = sortMembers ms'
  | .unknown r c => n.shape = .unknown r c
  | .object heads => ∀ f ∈ heads, (∃ fs, n.shape = .object fs ∧ ∃ g ∈ fs, f.tags = g.tags) ∨
      ∃ v heads', Within ts v ∧ v.shape = .object heads' ∧ ∃ g ∈ heads', f.tags = g.tags
  | .union δ => ∀ d, δ = some d → ∀ x ∈ d.values, ∃ v k, Within ts v ∧ v.shape = .literal k x
  | .recursiveRef symbol raw _ => n.shape = .recursiveRef raw symbol
  | _ => True

/-- Where a term below the term of a node comes from. -/
inductive Origin (s : Setting) (loose : Prop) (n : Node) (ts : List Term) (u : Term) : Prop
  | source (h : Within ts u)
  | remark (hl : loose) (h : Unmade s n.id u)
  | made (htags : u.head.tags = n.tags) (hraw : u.head.rawId = n.id) (h : Shaped n ts u.shape)

theorem Made.origin {cs : List Term} (h : Made s n shape cs t) (hshape : Shaped n ts shape)
    (hcs : ∀ c ∈ cs, ∀ u : Term, u.Sub c → Origin s loose n ts u) (hu : u.Sub t) :
    Origin s loose n ts u := by
  obtain ⟨digest, -, rfl⟩ := make_eq_ok h
  cases hu with
  | refl => exact .made rfl rfl hshape
  | step hc hu => exact hcs _ hc u hu

theorem Composed.origin {cs : List Term} (h : Composed s n shape cs binder t)
    (hshape : Shaped n ts shape) (hcs : ∀ c ∈ cs, ∀ u : Term, u.Sub c → Origin s loose n ts u)
    (hu : u.Sub t) : Origin s loose n ts u := by
  unfold Composed at h
  split at h
  · split at h
    · obtain rfl := h
      exact hcs _ List.mem_cons_self u hu
    · exact h.origin hshape hcs hu
  · exact h.origin hshape hcs hu

theorem Kept.origin {kept : List Term} (h : Kept s loose n (spliced kind ids ts) kept)
    (hc : c ∈ kept) (hu : u.Sub c) : Origin s loose n ts u := by
  have hsorted (hc : c ∈ ((spliced kind ids ts).foldl Sorting.add {}).kept) :
      Origin s loose n ts u := by
    obtain ⟨m, hm, rfl⟩ := (sorting_spec _ c hc).1
    exact .source (Within.sub (sub_of_mem_spliced hm) hu)
  unfold Kept at h
  dsimp only at h
  split at h
  · exact hsorted (h ▸ hc)
  · obtain ⟨hl, rest, hrest, rfl⟩ := h
    rcases List.mem_append.1 hc with hc | hc
    · exact hsorted hc
    · obtain rfl := List.mem_singleton.1 hc
      obtain ⟨reason, cause, hr, ht⟩ := hrest
      obtain ⟨digest, -, rfl⟩ := make_eq_ok ht
      cases hu with
      | refl => exact .remark hl ⟨reason, cause, hr, ht⟩
      | step hx _ => cases hx

/-- The values that tell the members of a union apart are those of literals below them. -/
theorem exists_literal_of_discriminant {cs : List Term} {d : Discriminant} {x : Scalar}
    (h : discriminant? cs = some d) (hx : x ∈ d.values) :
    ∃ v k, Within cs v ∧ v.shape = .literal k x := by
  unfold discriminant? at h
  obtain ⟨bodies, hbodies, h⟩ := Option.bind_eq_some_iff.1 h
  split at h
  · next first second rest =>
    obtain ⟨name, -, hname⟩ := List.exists_of_findSome?_eq_some h
    obtain ⟨fields, hfields, hname⟩ := Option.bind_eq_some_iff.1 hname
    obtain ⟨literals, hliterals, hname⟩ := Option.bind_eq_some_iff.1 hname
    split at hname
    · obtain rfl := Option.some.inj hname
      obtain ⟨l, hl, rfl⟩ := List.mem_map.1 hx
      obtain ⟨f, hf, hlit⟩ := exists_of_mem_mapM hliterals hl
      obtain ⟨body, hbody, hnamed⟩ := exists_of_mem_mapM hfields hf
      obtain ⟨c, hc, hobject⟩ := exists_of_mem_mapM hbodies hbody
      have hsub : f.2.Sub c := objectBody?_sub hobject (List.mem_of_find?_eq_some hnamed)
      unfold requiredLiteral? at hlit
      dsimp only at hlit
      split at hlit
      · next k v _ hs =>
        obtain rfl := Option.some.inj hlit
        exact ⟨f.2.dereferenceFree, k, ⟨c, hc, (dereferenceFree_sub _).trans hsub⟩, hs⟩
      · cases hlit
    · cases hname
  · cases h

theorem exists_head_of_objectBody {fs : List FieldTerm} {f : FieldTerm}
    (h : c.objectBody? = some fs) (hf : f ∈ fs) :
    ∃ (v : Term) (heads : List FieldHead), v.Sub c ∧ v.shape = .object heads ∧ f.1 ∈ heads := by
  unfold objectBody? at h
  dsimp only at h
  split at h
  · cases h
  · unfold fields? at h
    split at h
    · next heads hs =>
      obtain rfl := Option.some.inj h
      exact ⟨_, heads, dereferenceFree_sub c, hs, (List.of_mem_zip hf).1⟩
    · cases h

theorem exists_tags_of_mem_mergedFields {fs : List FieldTerm} {f : FieldTerm}
    (h : f ∈ mergedFields fs) : ∃ g ∈ fs, f.2 = g.2 ∧ f.1.tags = g.1.tags := by
  have hunited := mem_mergedFields.1 h
  cases hfs : fieldsNamed fs f.1.name with
  | nil =>
    rw [hfs] at hunited
    cases hunited
  | cons g rest =>
    have hg : g ∈ fieldsNamed fs f.1.name := by
      rw [hfs]
      exact List.mem_cons_self
    rw [hfs] at hunited
    obtain rfl := Option.some.inj hunited
    exact ⟨g, (List.mem_filter.1 hg).1, rfl, rfl⟩

theorem MadeObject.origin {fs : List FieldTerm} (h : MadeObject s n (mergedFields fs) t)
    (hshape : ∀ f ∈ fs, (∃ gs, n.shape = .object gs ∧ ∃ g ∈ gs, f.1.tags = g.tags) ∨
      ∃ v heads, Within ts v ∧ v.shape = .object heads ∧ ∃ g ∈ heads, f.1.tags = g.tags)
    (hfs : ∀ f ∈ fs, Within ts f.2) (hu : u.Sub t) : Origin s loose n ts u := by
  refine Made.origin h (fun f hf => ?_) (fun c hc u hu => ?_) hu
  · obtain ⟨x, hx, rfl⟩ := List.mem_map.1 hf
    obtain ⟨g, hg, -, htags⟩ := exists_tags_of_mem_mergedFields hx
    rw [htags]
    exact hshape g hg
  · obtain ⟨x, hx, rfl⟩ := List.mem_map.1 hc
    obtain ⟨g, hg, he, -⟩ := exists_tags_of_mem_mergedFields hx
    rw [he] at hu
    exact .source ((hfs g hg).sub hu)

/-- Whatever stands below the term of a node comes from its sources or is made for it. -/
theorem Assembled.origin (h : Assembled s loose n stack binder ts t) (hu : u.Sub t) :
    Origin s loose n ts u := by
  have hts (c : Term) (hc : c ∈ ts) (u : Term) (hu : u.Sub c) : Origin s loose n ts u :=
    .source ⟨c, hc, hu⟩
  have hnil (c : Term) (hc : c ∈ ([] : List Term)) (u : Term) (_ : u.Sub c) :
      Origin s loose n ts u := absurd hc List.not_mem_nil
  unfold Assembled at h
  cases hs : n.shape with
  | primitive p =>
    rw [hs] at h
    exact h.origin hs hnil hu
  | literal k v =>
    rw [hs] at h
    exact h.origin hs hnil hu
  | enum ms =>
    rw [hs] at h
    exact h.origin ⟨ms, hs, rfl⟩ hnil hu
  | unknown r c =>
    rw [hs] at h
    exact h.origin hs hnil hu
  | recursiveRef target symbol =>
    rw [hs] at h
    exact h.origin hs hnil hu
  | array e =>
    rw [hs] at h
    exact h.origin trivial hts hu
  | tuple es =>
    rw [hs] at h
    exact h.origin trivial hts hu
  | reference target symbol =>
    rw [hs] at h
    exact h.origin trivial hts hu
  | object fs =>
    rw [hs] at h
    refine MadeObject.origin h (fun f hf => .inl ⟨fs, hs, ?_⟩) (fun f hf => ?_) hu
    · obtain ⟨g, hg, he⟩ := List.mem_map.1 (List.of_mem_zip hf).1
      exact ⟨g, hg, he ▸ rfl⟩
    · exact .of_mem (List.of_mem_zip hf).2
  | union ms δ =>
    rw [hs] at h
    obtain ⟨kept, hkept, h⟩ := h
    have horigin (c : Term) (hc : c ∈ sortedUnique kept) (u : Term) (hu : u.Sub c) :
        Origin s loose n ts u := hkept.origin (mem_of_mem_sortedUnique hc) hu
    refine h.origin (fun d hd x hx => ?_) horigin hu
    obtain ⟨v, k, ⟨c, hc, hv⟩, hshape⟩ := exists_literal_of_discriminant hd hx
    cases horigin c hc v hv with
    | source hin => exact ⟨v, k, hin, hshape⟩
    | remark _ hr =>
      obtain ⟨reason, cause, -, ht⟩ := hr
      obtain ⟨digest, -, rfl⟩ := make_eq_ok ht
      cases hshape
    | made _ _ hm =>
      rw [hshape] at hm
      exact absurd (hs.symm.trans hm) (by simp)
  | intersection ms =>
    simp only [hs] at h
    have hmem (c : Term) (hc : c ∈ (spliced "intersection" (flat s intersectionMembers? ms) ts).map
        Prod.snd) : Within ts c := by
      obtain ⟨m, hm, rfl⟩ := List.mem_map.1 hc
      exact sub_of_mem_spliced hm
    unfold Intersected at h
    split at h
    · next bodies hlist hbodies =>
      have hbody (f : FieldTerm) (hf : f ∈ bodies.flatten) :
          ∃ c fs, Within ts c ∧ c.objectBody? = some fs ∧ f ∈ fs := by
        obtain ⟨fs, hfs, hf⟩ := List.mem_flatten.1 hf
        obtain ⟨c, hc, hobject⟩ := exists_of_mem_mapM hbodies hfs
        exact ⟨c, fs, hmem c (hlist ▸ hc), hobject, hf⟩
      refine MadeObject.origin h (fun f hf => .inr ?_) (fun f hf => ?_) hu
      · obtain ⟨c, fs, hc, hobject, hf⟩ := hbody f hf
        obtain ⟨v, heads, hv, hshape, hhead⟩ := exists_head_of_objectBody hobject hf
        exact ⟨v, heads, hc.sub hv, hshape, f.1, hhead, rfl⟩
      · obtain ⟨c, fs, hc, hobject, hf⟩ := hbody f hf
        exact hc.sub (objectBody?_sub hobject hf)
    · refine h.origin trivial (fun c hc u hu => ?_) hu
      exact .source ((hmem c (mem_of_mem_sortedUnique hc)).sub hu)

/-- What is true of remarks, and of what is made for a node if it is true below, is true of every
shape and its annotations at which a fold can arrive. -/
theorem Derives.throughout {P : TermShape → List Tag → Prop} (h : Derives s loose stack id t)
    (hremark : ∀ id u, Unmade s id u → P u.shape u.head.tags)
    (hmade : ∀ id n ts shape, s.graph.node? id = some n →
      (∀ c ∈ ts, c.Throughout fun u => P u.shape u.head.tags) → Shaped n ts shape → P shape n.tags) :
    t.Throughout fun u => P u.shape u.head.tags := by
  have hunmade {id : NodeId} {u : Term} (hu : Unmade s id u) :
      u.Throughout fun u => P u.shape u.head.tags := by
    refine .of_children (hremark _ _ hu) fun c hc => ?_
    obtain ⟨reason, cause, -, ht⟩ := hu
    obtain ⟨digest, -, rfl⟩ := make_eq_ok ht
    cases hc
  have hassembled {id : NodeId} {n : Node} {stack : List NodeId} {ts : List Term} {binder : Bool}
      {u : Term} (hn : s.graph.node? id = some n)
      (hts : ∀ c ∈ ts, c.Throughout fun u => P u.shape u.head.tags)
      (hu : Assembled s loose n stack binder ts u) :
      u.Throughout fun u => P u.shape u.head.tags := by
    intro v hv
    cases hu.origin hv with
    | source hin =>
      obtain ⟨c, hc, hv⟩ := hin
      exact hts c hc v hv
    | remark _ hr => exact hremark _ _ hr
    | made htags _ hshape => exact htags ▸ hmade id n ts v.shape hn hts hshape
  induction h with
  | recalled _ _ _ ih => exact ih
  | abandoned _ h => exact hunmade h
  | plain hn _ _ _ ht _ ih =>
    refine hassembled hn (fun c hc => ?_) ht
    obtain ⟨i, hi, rfl⟩ := List.getElem_of_mem hc
    exact ih i hi
  | target hn _ _ _ hu _ ht _ ih =>
    have hall := hassembled hn (fun c hc => by
      obtain ⟨i, hi, rfl⟩ := List.getElem_of_mem hc
      exact ih i hi) hu
    obtain ⟨digest, -, rfl⟩ := asTarget_eq_ok ht
    exact .of_children hall.here fun c hc => hall.child hc

/-! ## Ways down -/

theorem exists_of_mem_flatten {members? : Shape → Option (List NodeId)}
    (hmembers : ∀ shape ms, members? shape = some ms → ∀ m ∈ ms, m ∈ shape.children) {fuel : ℕ}
    {seen : Std.ExtTreeSet NodeId} {x : NodeId} (h : x ∈ (flatten s members? fuel ids seen).1) :
    ∃ y ∈ ids, Relation.ReflTransGen s.graph.nodes.HasChild y x := by
  induction fuel generalizing ids seen with
  | zero => exact ⟨x, h, .refl⟩
  | succ fuel ih =>
    rw [flatten] at h
    revert h
    refine List.foldlRecOn (motive := fun acc : List NodeId × Std.ExtTreeSet NodeId => x ∈ acc.1 →
      ∃ y ∈ ids, Relation.ReflTransGen s.graph.nodes.HasChild y x) ids _ ?_ ?_
    · intro hx
      cases hx
    intro acc hacc id hid hx
    have hself (hx : x ∈ acc.1 ++ [id]) :
        ∃ y ∈ ids, Relation.ReflTransGen s.graph.nodes.HasChild y x := by
      rcases List.mem_append.1 hx with hx | hx
      · exact hacc hx
      · exact ⟨id, hid, List.mem_singleton.1 hx ▸ .refl⟩
    split at hx
    · next inner hinner =>
      split at hx
      · exact hself hx
      · rcases List.mem_append.1 hx with hx | hx
        · exact hacc hx
        · obtain ⟨y, hy, hyx⟩ := ih hx
          unfold spliceable? at hinner
          split at hinner
          · next n hn =>
            split at hinner
            · exact ⟨id, hid, .head ⟨n, hn, hmembers _ _ hinner y hy⟩ hyx⟩
            · cases hinner
          · cases hinner
    · exact hself hx

theorem eq_children_of_unionMembers {shape : Shape} {ms : List NodeId}
    (h : unionMembers? shape = some ms) : ms = shape.children := by
  cases shape with
  | union => exact (Option.some.inj h).symm
  | _ => cases h

theorem exists_union_of_unionMembers {shape : Shape} {ms : List NodeId} (h : unionMembers? shape = some ms) :
    ∃ δ, shape = .union ms δ := by
  cases shape with
  | union ms δ => exact ⟨δ, congrArg (Shape.union · δ) (Option.some.inj h)⟩
  | _ => cases h

theorem eq_children_of_intersectionMembers {shape : Shape} {ms : List NodeId}
    (h : intersectionMembers? shape = some ms) : ms = shape.children := by
  cases shape with
  | intersection => exact (Option.some.inj h).symm
  | _ => cases h

theorem below_of_mem_sourceIds {x : NodeId} (hn : s.graph.node? id = some n)
    (hx : x ∈ sourceIds s n) : Relation.TransGen s.graph.nodes.HasChild id x := by
  have hflat {ids : List NodeId} {members? : Shape → Option (List NodeId)}
      (hmembers : ∀ shape ms, members? shape = some ms → ms = shape.children)
      (hids : members? n.shape = some ids) (hx : x ∈ flat s members? ids) :
      Relation.TransGen s.graph.nodes.HasChild id x := by
    obtain ⟨y, hy, hyx⟩ := exists_of_mem_flatten (fun shape ms h m hm => hmembers shape ms h ▸ hm) hx
    exact .head' ⟨n, hn, hmembers _ _ hids ▸ hy⟩ hyx
  have hchild (hx : x ∈ n.shape.children) : Relation.TransGen s.graph.nodes.HasChild id x :=
    .single ⟨n, hn, hx⟩
  unfold sourceIds sources at hx
  cases hs : n.shape with
  | object fs =>
    rw [hs] at hx
    exact hchild (by simpa [hs, Shape.children] using hx)
  | union ms δ =>
    rw [hs] at hx
    exact hflat (fun _ _ => eq_children_of_unionMembers) (by rw [hs]; rfl) (by simpa using hx)
  | intersection ms =>
    rw [hs] at hx
    exact hflat (fun _ _ => eq_children_of_intersectionMembers) (by rw [hs]; rfl) (by simpa using hx)
  | _ =>
    rw [hs] at hx
    obtain ⟨p, hp, rfl⟩ := List.mem_map.1 hx
    obtain ⟨c, hc, rfl⟩ := List.mem_map.1 hp
    exact hchild (hs ▸ hc)

theorem Visited.reaches {trail : List NodeId} (h : Visited s trail stack id) :
    Relation.ReflTransGen s.graph.nodes.HasChild s.graph.root id := by
  induction h with
  | root => exact .refl
  | plain _ hn hx ih => exact ih.trans (below_of_mem_sourceIds hn hx).to_reflTransGen
  | target _ hn _ hx ih => exact ih.trans (below_of_mem_sourceIds hn hx).to_reflTransGen

theorem Visited.transGen {trail : List NodeId} {x : NodeId} (h : Visited s trail stack id)
    (hx : x ∈ trail) : Relation.TransGen s.graph.nodes.HasChild x id := by
  have hstep {trail : List NodeId} {id x y : NodeId} {n : Node} (hn : s.graph.node? id = some n)
      (hy : y ∈ sourceIds s n) (hx : x ∈ id :: trail)
      (ih : x ∈ trail → Relation.TransGen s.graph.nodes.HasChild x id) :
      Relation.TransGen s.graph.nodes.HasChild x y := by
    rcases List.mem_cons.1 hx with rfl | hx
    · exact below_of_mem_sourceIds hn hy
    · exact (ih hx).trans (below_of_mem_sourceIds hn hy)
  induction h with
  | root => cases hx
  | plain _ hn hy ih => exact hstep hn hy hx ih
  | target _ hn _ hy ih => exact hstep hn hy hx ih

theorem sturdy_of_grown (hg : s.graph.nodes.Grown) (hroot : s.graph.root ∈ s.graph.nodes) :
    Sturdy s := by
  intro trail stack id hv
  have hmem : id ∈ s.graph.nodes := by
    rcases Relation.ReflTransGen.cases_tail hv.reaches with rfl | ⟨y, -, m, hm, hid⟩
    · exact hroot
    · exact hg.child_mem hm hid
  obtain ⟨n, hn⟩ := mem_iff_exists_getElem?.1 hmem
  exact ⟨by simp [Graph.node?, hn], fun hm => hg.acyclic id (hv.transGen hm)⟩

/-! ## Runs without an error -/

def Honest (st : State) : Prop := ∀ (id : NodeId) (t : Term), st.closed[id]? = some t → t.Known

abbrev Faulty (st : State) : Prop := st.sink.hasErrors

theorem Quiet.faulty (h : Quiet st st') (he : Faulty st) : Faulty st' :=
  let ⟨d, hd, herror⟩ := Array.any_eq_true'.1 he
  Array.any_eq_true'.2 ⟨d, h.sink d hd, herror⟩

theorem Quiet.honest (h : Quiet st st') (hst : Faulty st ∨ Honest st) : Faulty st' ∨ Honest st' :=
  hst.imp h.faulty fun hknown id t ht => hknown id t (h.closed ▸ ht)

theorem Assembled.known (h : Assembled s False n stack binder ts t)
    (hn : n.shape.isUnknown = false) (hts : ∀ c ∈ ts, c.Known) : t.Known := by
  intro u hu
  cases h.origin hu with
  | source hin =>
    obtain ⟨c, hc, hu⟩ := hin
    exact hts c hc u hu
  | remark hl _ => exact hl.elim
  | made _ _ hshape =>
    by_contra hunknown
    cases hs : u.shape with
    | unknown r c =>
      rw [hs] at hshape
      simp [show n.shape = .unknown r c from hshape, Shape.isUnknown] at hn
    | _ => simp [hs, TermShape.isUnknown] at hunknown

theorem known_asTarget {height : ℕ} (h : u.asTarget s.digester s.algorithm height = .ok t)
    (hu : u.Known) : t.Known := by
  obtain ⟨digest, -, rfl⟩ := asTarget_eq_ok h
  exact .of_children hu.here fun c hc => hu.child hc

variable (hgraph : ∀ (id : NodeId) (n : Node), s.graph.node? id = some n → n.shape.isUnknown = false)

include hgraph

theorem leaves_of_nodeTerm {build : Option String → NodeId → M Term}
    (h : Ends (nodeTerm s build n stack field binder) st t st') (hn : s.graph.node? id = some n)
    (hbuild : ∀ p ∈ sources s n field, ∀ st t st', Ends (build p.1 p.2) st t st' →
      Faulty st ∨ Honest st → Leaves Faulty Honest st st' t.Known)
    (hst : Faulty st ∨ Honest st) : Leaves Faulty Honest st st' t.Known := by
  obtain ⟨ts, st₁, hchain, hq, ht⟩ := ends_nodeTerm h fun hm : Mixed st' => hm.hasErrors
  have hleaves := leaves_of_chain (R := fun _ t => t.Known) hchain hbuild hst
  refine ⟨fun he => hq.faulty (hleaves.stays he), hq.honest hleaves.state, ?_⟩
  by_cases he : Faulty st'
  · exact .inl he
  · right
    have hall := hleaves.result.resolve_left fun hc => he (hq.faulty hc)
    rw [show (st'.sink.hasErrors = true) = False from eq_false he] at ht
    exact ht.known (hgraph id n hn) fun c hc => by
      obtain ⟨i, hi, rfl⟩ := List.getElem_of_mem hc
      exact hall.get (hall.length_eq ▸ hi) hi

/-- Without a report a fold of known types comes to a known type. -/
theorem leaves_of_build (hs : Sturdy s) {fuel : ℕ} {path : Std.ExtTreeSet NodeId}
    {trail : List NodeId} (h : Ends (build s fuel path stack field id) st t st')
    (hst : Faulty st ∨ Honest st) (hv : Visited s trail stack id)
    (hpath : ∀ x, path.contains x → x ∈ trail)
    (hfuel : fuel + trail.length = s.graph.nodes.size + 1) :
    Leaves Faulty Honest st st' t.Known := by
  induction fuel generalizing path trail stack field id st t st' with
  | zero =>
    have := hv.length_le hs
    omega
  | succ fuel ih =>
    obtain ⟨hsome, hout⟩ := hs _ _ _ hv
    have hpath' := @mem_trail_of_contains_insert path trail id hpath
    obtain ⟨st₁, hq, ⟨ht, rfl⟩ | ⟨hgone, -⟩ | ⟨n, st₂, st₃, hn, hp, ht, -, hq', rfl⟩⟩ :=
      ends_build h
    · exact ⟨hq.faulty, hq.honest hst, (hq.honest hst).imp_right fun hknown => hknown id t ht⟩
    · rcases hgone with ⟨hn, -⟩ | ⟨hp, -⟩
      · simp [hn] at hsome
      · exact absurd (hpath id hp) hout
    · have hnode {stack' : List NodeId} {binder : Bool} {st u}
          (h : Ends (nodeTerm s (build s fuel (path.insert id) stack') n stack' field binder) st u st₂)
          (hst : Faulty st ∨ Honest st)
          (hvis : ∀ x ∈ sourceIds s n, Visited s (id :: trail) stack' x) :
          Leaves Faulty Honest st st₂ u.Known :=
        leaves_of_nodeTerm hgraph h hn (fun p hp st t st' h hst =>
          ih h hst (hvis p.2 (map_snd_sources field ▸ List.mem_map_of_mem hp)) hpath'
            (by simp only [List.length_cons]; omega)) hst
      have hst₁ := hq.honest hst
      have hleaves : Leaves Faulty Honest st₁ st₂ t.Known := by
        rcases ends_targetTerm ht with ⟨hb, u, hu, -, ht⟩ | ⟨-, st₄, hu⟩ | ⟨-, hu⟩
        · exact (hnode hu hst₁ fun x hx => .target hv hn hb hx).imp (known_asTarget ht)
        · -- what the given up fold has reported and remembered is taken back
          have hu := hnode hu hst₁ fun x hx => .plain hv hn hx
          exact ⟨hu.stays, hu.state, hu.result⟩
        · exact hnode hu hst₁ fun x hx => .plain hv hn hx
      have hbad (he : Faulty st) : Faulty st₃ := hq'.faulty (hleaves.stays (hq.faulty he))
      have hknown : Faulty st₃ ∨ t.Known := hleaves.result.imp_left hq'.faulty
      have hst₃ := hq'.honest hleaves.state
      split
      · refine ⟨hbad, ?_, hknown⟩
        rcases hknown with he | hknown
        · exact .inl he
        · refine hst₃.imp_right fun hclosed x u hx => ?_
          rw [Std.ExtTreeMap.getElem?_insert] at hx
          split at hx
          · exact Option.some.inj hx ▸ hknown
          · exact hclosed x u hx
      · exact ⟨hbad, hst₃, hknown⟩

end Folding

end TypeAtlas
