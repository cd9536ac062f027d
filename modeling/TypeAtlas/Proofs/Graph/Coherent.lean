import TypeAtlas.Proofs.Graph.NormalForm
import TypeAtlas.Proofs.Normal.Emitted
import TypeAtlas.Proofs.Normal.Fuel
import TypeAtlas.Proofs.Normal.Known
import TypeAtlas.Proofs.Normal.Upright

/-! # Normalizing whatever graph

A fold reports a cycle exactly if a node that it can get to is built from itself. What it reports is a
cycle, for the nodes on the path are built from one another. And unless it reports one, every way down
from a node that it has folded comes to an end, also where members were spliced that it did not fold.

A graph may lack nodes, and its nodes may be built from themselves: it is normalized all the same. What
is written out is whole, and the cycles of the graph are reported.
-/

namespace TypeAtlas

open Relation

/-- On the way down from the root, a node is built from itself. -/
def Graph.Cyclic (g : Graph) : Prop :=
  ∃ id, ReflTransGen g.nodes.HasChild g.root id ∧ TransGen g.nodes.HasChild id id

theorem Arena.Grounded.not_cyclic {g : Graph} (h : g.nodes.Grounded g.root) : ¬ g.Cyclic :=
  fun ⟨_, hreach, hcycle⟩ => (h.of_reaches hreach).acyclic hcycle

namespace Folding

variable {s : Setting} {st st' : State} {n : Node} {t : Term} {field : Option String} {binder : Bool}
  {stack trail ids : List NodeId} {id : NodeId} {path seen : Std.ExtTreeSet NodeId} {fuel : ℕ}

theorem Reports.cycled (h : Reports st st') (hst : Cycled st) : Cycled st' :=
  let ⟨d, hd, hcode⟩ := hst
  ⟨d, h.sink d hd, hcode⟩

theorem Quiet.cycled (h : Quiet st st') (hst : Cycled st') : Cycled st :=
  let ⟨d, hd, hcode⟩ := hst
  ⟨d, h.cycle d hd hcode, hcode⟩

/-! ## What is reported -/

theorem cyclic_of_build (h : Ends (build s fuel path stack field id) st t st')
    (hv : Visited s trail stack id) (hpath : ∀ x, path.contains x → x ∈ trail)
    (hst : Cycled st → s.graph.Cyclic) (hst' : Cycled st') : s.graph.Cyclic := by
  induction fuel generalizing path trail stack field id st t st' with
  | zero =>
    obtain ⟨-, rfl⟩ := ends_unknownTerm h .cycle
    exact hst hst'
  | succ fuel ih =>
    obtain ⟨st₁, hq, ⟨-, rfl⟩ | ⟨hgone, -⟩ | ⟨n, st₂, st₃, hn, -, ht, -, hq', rfl⟩⟩ := ends_build h
    · exact hst (hq.cycled hst')
    · rcases hgone with ⟨-, hq'⟩ | ⟨hp, -, -⟩
      · exact hst (hq.cycled (hq'.cycled hst'))
      · exact ⟨id, hv.reaches, hv.transGen (hpath id hp)⟩
    · have hnode {stack' : List NodeId} {binder : Bool} {st u}
          (h : Ends (nodeTerm s (build s fuel (path.insert id) stack') n stack' field binder) st u st₂)
          (hst : Cycled st → s.graph.Cyclic)
          (hvis : ∀ x ∈ sourceIds s n, Visited s (id :: trail) stack' x) (hst₂ : Cycled st₂) :
          s.graph.Cyclic := by
        obtain ⟨ts, st₄, hchain, hq₄, -⟩ := ends_nodeTerm h fun _ => trivial
        refine hchain.preserves (I := fun st => Cycled st → s.graph.Cyclic) (fun p hp st t st' h hst => ?_)
          hst (hq₄.cycled hst₂)
        exact ih h (hvis p.2 (map_snd_sources field ▸ List.mem_map_of_mem hp))
          (mem_trail_of_contains_insert hpath) hst
      have hst₁ (hc : Cycled st₁) : s.graph.Cyclic := hst (hq.cycled hc)
      have hst₂ : Cycled st₂ := by
        refine hq'.cycled ?_
        split at hst' <;> exact hst'
      rcases ends_targetTerm ht with ⟨hb, u, hu, -⟩ | ⟨-, st₄, hu⟩ | ⟨-, hu⟩
      · exact hnode hu hst₁ (fun x hx => .target hv hn hb hx) hst₂
      · -- what the given up fold has reported is taken back
        exact hnode hu hst₁ (fun x hx => .plain hv hn hx) hst₂
      · exact hnode hu hst₁ (fun x hx => .plain hv hn hx) hst₂

/-! ## What is not reported -/

/-- If every way down from what takes the place of members comes to an end, so does every way down from
the members, be they spliced or not. -/
theorem grounded_of_flatten {members? : Shape → Option (List NodeId)}
    (hmembers : ∀ shape ms, members? shape = some ms → ms = shape.children)
    (h : ∀ x ∈ (flatten s members? fuel ids seen).1, s.graph.nodes.Grounded x) :
    ∀ id ∈ ids, s.graph.nodes.Grounded id := by
  induction fuel generalizing ids seen with
  | zero => exact h
  | succ fuel ih =>
    rw [flatten] at h
    induction ids using List.reverseRecOn with
    | nil => simp
    | append_singleton ids id ihids =>
      rw [List.foldl_append, List.foldl_cons, List.foldl_nil] at h
      generalize ids.foldl _ ([], seen) = acc at h ihids
      have hlast (hacc : ∀ x ∈ acc.1, s.graph.nodes.Grounded x) (hid : s.graph.nodes.Grounded id) :
          ∀ x ∈ ids ++ [id], s.graph.nodes.Grounded x := by
        intro x hx
        rcases List.mem_append.1 hx with hx | hx
        · exact ihids hacc x hx
        · exact List.mem_singleton.1 hx ▸ hid
      cases hinner : spliceable? s members? id with
      | none =>
        rw [hinner] at h
        exact hlast (fun x hx => h x (List.mem_append_left _ hx)) (h id (by simp))
      | some inner =>
        simp only [hinner] at h
        split at h
        · exact hlast (fun x hx => h x (List.mem_append_left _ hx)) (h id (by simp))
        · refine hlast (fun x hx => h x (List.mem_append_left _ hx)) (.mk fun c hc => ?_)
          have hall := ih fun x hx => h x (List.mem_append_right _ hx)
          obtain ⟨n, hn, hmem⟩ := hc
          unfold spliceable? at hinner
          rw [show s.graph.node? id = some n from hn] at hinner
          obtain ⟨-, hinner⟩ := Option.ite_none_right_eq_some.1 hinner
          exact hall c (hmembers _ _ hinner ▸ hmem)

theorem grounded_of_sources (hn : s.graph.node? id = some n)
    (h : ∀ x ∈ sourceIds s n, s.graph.nodes.Grounded x) : s.graph.nodes.Grounded id := by
  refine .mk fun c ⟨m, hm, hc⟩ => ?_
  obtain rfl := Option.some.inj (hm.symm.trans hn)
  unfold sourceIds sources at h
  cases hs : m.shape with
  | object fs =>
    rw [hs] at h hc
    exact h c (by simpa [Shape.children] using hc)
  | union ms δ =>
    rw [hs] at h hc
    change c ∈ ms at hc
    exact grounded_of_flatten (fun _ _ => eq_children_of_unionMembers)
      (fun x hx => h x (by simpa [flat] using hx)) c hc
  | intersection ms =>
    rw [hs] at h hc
    change c ∈ ms at hc
    exact grounded_of_flatten (fun _ _ => eq_children_of_intersectionMembers)
      (fun x hx => h x (by simpa [flat] using hx)) c hc
  | _ =>
    rw [hs] at h hc
    exact h c (by simpa using hc)

/-- From what is remembered, every way down comes to an end. -/
def Rested (s : Setting) (st : State) : Prop :=
  ∀ (id : NodeId) (t : Term), st.closed[id]? = some t → s.graph.nodes.Grounded id

theorem Reports.rested (h : Reports st st') (hst : Cycled st ∨ Rested s st) :
    Cycled st' ∨ Rested s st' :=
  hst.imp h.cycled fun hrest id t ht => hrest id t (h.closed ▸ ht)

/-- Unless a fold reports a cycle, every way down from its node comes to an end. -/
theorem leaves_grounded (h : Ends (build s fuel path stack field id) st t st')
    (hst : Cycled st ∨ Rested s st) (hpath : ∀ x ∈ path, x ∈ s.graph.nodes)
    (hfuel : s.graph.nodes.size < fuel + path.size) :
    Leaves Cycled (Rested s) st st' (s.graph.nodes.Grounded id) := by
  induction fuel generalizing path stack field id st t st' with
  | zero =>
    have := size_le_of_subset hpath
    omega
  | succ fuel ih =>
    obtain ⟨st₁, hq, ⟨ht, rfl⟩ | ⟨hgone, -⟩ | ⟨n, st₂, st₃, hn, hp, ht, -, hq', rfl⟩⟩ := ends_build h
    · have hst₁ := hq.rested hst
      exact ⟨hq.toReports.cycled, hst₁, hst₁.imp_right fun hrest => hrest id t ht⟩
    · have hst' := hgone.reports.rested (hq.rested hst)
      refine ⟨fun hc => hgone.reports.cycled (hq.toReports.cycled hc), hst', ?_⟩
      rcases hgone with ⟨hn, -⟩ | ⟨-, -, hcycled⟩
      · exact .inr (.mk fun c ⟨n, hm, _⟩ => by cases hn.symm.trans hm)
      · exact .inl hcycled
    · have hid : id ∈ s.graph.nodes := mem_iff_exists_getElem?.2 ⟨n, hn⟩
      have hgrown : (path.insert id).size = path.size + 1 :=
        size_insert_of_not_mem fun hm => Bool.false_ne_true (hp.symm.trans hm)
      have hnode {stack' : List NodeId} {binder : Bool} {st u}
          (h : Ends (nodeTerm s (build s fuel (path.insert id) stack') n stack' field binder) st u st₂)
          (hst : Cycled st ∨ Rested s st) :
          Leaves Cycled (Rested s) st st₂ (s.graph.nodes.Grounded id) := by
        obtain ⟨ts, st₄, hchain, hq₄, -⟩ := ends_nodeTerm h fun _ => trivial
        have hleaves := leaves_of_chain (R := fun p _ => s.graph.nodes.Grounded p.2) hchain
          (fun p _ st t st' h hst => ih h hst (forall_mem_insert hid hpath) (by omega)) hst
        refine ⟨fun hc => hq₄.toReports.cycled (hleaves.stays hc), hq₄.rested hleaves.state, ?_⟩
        refine hleaves.result.imp hq₄.toReports.cycled fun hall => grounded_of_sources hn fun x hx => ?_
        rw [← map_snd_sources field] at hx
        obtain ⟨p, hp, rfl⟩ := List.mem_map.1 hx
        obtain ⟨i, hi, rfl⟩ := List.getElem_of_mem hp
        exact hall.get hi (hall.length_eq ▸ hi)
      have hst₁ := hq.rested hst
      have hleaves : Leaves Cycled (Rested s) st₁ st₂ (s.graph.nodes.Grounded id) := by
        rcases ends_targetTerm ht with ⟨-, u, hu, -⟩ | ⟨-, st₄, hu⟩ | ⟨-, hu⟩
        · exact hnode hu hst₁
        · -- what the given up fold has reported and remembered is taken back
          have hu := hnode hu hst₁
          exact ⟨hu.stays, hu.state, hu.result⟩
        · exact hnode hu hst₁
      have hbad (hc : Cycled st) : Cycled st₃ :=
        hq'.toReports.cycled (hleaves.stays (hq.toReports.cycled hc))
      have hgrounded : Cycled st₃ ∨ s.graph.nodes.Grounded id :=
        hleaves.result.imp_left hq'.toReports.cycled
      have hst₃ := hq'.rested hleaves.state
      split
      · refine ⟨hbad, ?_, hgrounded⟩
        rcases hgrounded with hc | hgrounded
        · exact .inl hc
        · refine hst₃.imp_right fun hrest x u hx => ?_
          rw [Std.ExtTreeMap.getElem?_insert] at hx
          split at hx
          · next he =>
            obtain rfl : id = x := by simpa using he
            exact hgrounded
          · exact hrest x u hx
      · exact ⟨hbad, hst₃, hgrounded⟩

/-- A fold of a whole graph reports a cycle exactly if there is one on the way down from the root. -/
theorem cycled_iff_cyclic {deadline : Option Deadline}
    (h : Ends (root s) { deadline } t st) : Cycled st ↔ s.graph.Cyclic := by
  have hstart : ¬ Cycled ({ deadline } : State) := by simp [Cycled]
  constructor
  · exact cyclic_of_build h .root (by simp) fun hc => absurd hc hstart
  · intro hcyclic
    have hleaves := leaves_grounded h (.inr fun id t ht => by simp at ht) (by simp) (by simp)
    exact hleaves.result.resolve_right fun hgrounded => hgrounded.not_cyclic hcyclic

end Folding

end TypeAtlas

/-! ## What is written out -/

namespace TypeAtlas.Graph

open Relation Term

variable {d : Digester} {a : Algorithm} {S : Set String} {g : Graph} {t : Term} {root : NodeId} {A : Arena}

/-- Nothing is missing, no node is built from itself, and whatever there is, the root is built from it. -/
structure Coherent (g : Graph) : Prop where
  root : g.root ∈ g.nodes
  child : ∀ x y, g.nodes.HasChild x y → y ∈ g.nodes
  acyclic : ∀ id, ¬ TransGen g.nodes.HasChild id id
  reached : ∀ id ∈ g.nodes, ReflTransGen g.nodes.HasChild g.root id

theorem coherent_of_spelled (h : Spelled d a S t root A) : Coherent { g with root, nodes := A } where
  root := (extends_of_ends_emit h.run).2
  child _ _ hc := h.child_mem hc
  acyclic := h.acyclic
  reached _ hid := h.reaches hid

/-- Folding a graph never runs out of fuel, and normalizing it gives a graph that is coherent; a cycle is
reported exactly if there is one on the way down from the root. All this may only fail for a recursive
reference in a closed term that is written out at another height than that at which it was folded, and
where no target has this height. -/
theorem normalize_coherent (hgraph : ∀ id n, g.node? id = some n → n.Encodable)
    (hread : ∀ id n, g.node? id = some n → ∀ t, Folding.TagsReadable n.tags t)
    (hsize : g.nodes.size < 0x10000000000000000) (hfree : d.CollisionFree a (g.texts d a)) :
    Folding.Ample (g.setting d a) ∧
      ((∃ r c, g.normalize d a = .ok r ∧ r.outcome.value = some c ∧ c.toGraph.Coherent ∧
          (DiagnosticKey.recursionCycle.code ∈ r.outcome.codes ↔ g.Cyclic)) ∨
        g.normalize d a = .error .noEnclosingTarget ∧ ¬ g.Settled d a) := by
  refine ⟨Folding.ample _, ?_⟩
  obtain ⟨t, st, hfold, -, hcases⟩ := normalize_cases (d := d) (a := a) hgraph hread hsize
  refine hcases.imp_left fun ⟨root, A, hemit, hnormal⟩ => ?_
  have hf : g.Folds d a t := ⟨st, hfold⟩
  refine ⟨_, _, hnormal, rfl, coherent_of_spelled (hf.spelled hemit hfree subset_rfl), ?_⟩
  rw [← Folding.cycled_iff_cyclic hfold]
  simp [Outcome.codes, Sink.outcome, Sink.toList, Folding.Cycled]

/-- A pair of a union that contains itself and of something that is missing. -/
def tangled : Graph := ofNodes "Pair" [
  ⟨"Pair", .tuple ["U", "gone"], [], none⟩, ⟨"U", .union ["S", "U"] none, [], none⟩,
  ⟨"S", .primitive .string, [], none⟩]

theorem mem_of_tangled {id : NodeId} {n : Node} (h : tangled.node? id = some n) :
    n.Encodable ∧ n.tags = [] := by
  have hmem := mem_of_node?_ofNodes h
  simp only [List.mem_cons, List.not_mem_nil, or_false] at hmem
  rcases hmem with rfl | rfl | rfl <;> exact ⟨⟨by simp, by simp, by simp, by simp⟩, rfl⟩

/-- The pair is normalized. -/
theorem tangled_normalized : Folding.Ample (tangled.setting .legible .sha256) ∧
    ((∃ r c, tangled.normalize .legible .sha256 = .ok r ∧ r.outcome.value = some c ∧
        c.toGraph.Coherent ∧ (DiagnosticKey.recursionCycle.code ∈ r.outcome.codes ↔ tangled.Cyclic)) ∨
      tangled.normalize .legible .sha256 = .error .noEnclosingTarget ∧
        ¬ tangled.Settled .legible .sha256) :=
  normalize_coherent (fun _ _ h => (mem_of_tangled h).1)
    (fun _ _ h _ => by simp [Folding.TagsReadable, (mem_of_tangled h).2]) (by decide +kernel)
    (Digester.legible_collisionFree .sha256 _)

end TypeAtlas.Graph
