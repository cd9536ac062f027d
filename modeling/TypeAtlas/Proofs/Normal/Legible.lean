import TypeAtlas.Proofs.Json.Encodable
import TypeAtlas.Proofs.Normal.Fuel
import TypeAtlas.Proofs.Normal.Known

/-! # What a fold has read

A fold that ends has folded every node below the one that it began with, but for composites whose members
took their place. What these nodes hold was written into digests, so they can be rendered.
-/

namespace TypeAtlas

open Relation

/-- The parts of a digested value can be written. -/
abbrev TermShape.Written (shape : TermShape) : Prop :=
  ∀ f ∈ shape.payload, ∃ y, Json.write .compact 2 f.2 = .ok y

theorem TermShape.Written.literal {k : LiteralKind} {x : Scalar} (h : (TermShape.literal k x).Written) :
    ∃ y, Json.compact x.toDatum = .ok y := by
  obtain ⟨y, hy⟩ := h ("value", x.toDatum) (by simp [payload, literalPayload])
  rw [Json.write_scalar (by cases x <;> simp [Scalar.toDatum])
    (by cases x <;> simp [Scalar.toDatum])] at hy
  exact ⟨y, hy⟩

theorem TermShape.Written.enum {ms : List EnumMember} (h : (TermShape.enum ms).Written) :
    ∀ m ∈ ms, ∃ y, Json.compact m.value.toDatum = .ok y := by
  intro m hm
  obtain ⟨y, hy⟩ := h _ (List.mem_singleton_self _)
  obtain ⟨y, hy⟩ := Json.write_list_eq_ok hy (.list [.text m.name, m.value.toDatum])
    (List.mem_map.2 ⟨m, List.mem_mergeSort.2 hm, rfl⟩)
  obtain ⟨y, hy⟩ := Json.write_list_eq_ok hy m.value.toDatum (by simp)
  rw [Json.write_scalar (by cases m.value <;> simp [EnumValue.toDatum])
    (by cases m.value <;> simp [EnumValue.toDatum])] at hy
  exact ⟨y, hy⟩

namespace Folding

variable {s : Setting} {st st' : State} {n : Node} {t u : Term} {ts : List Term} {field : Option String}
  {binder : Bool} {stack trail : List NodeId} {loose : Prop} {id : NodeId}

/-! ## The nodes that are folded -/

theorem Made.written {shape : TermShape} (h : Made s n shape ts t) : shape.Written := by
  obtain ⟨digest, hd, -⟩ := Term.make_eq_ok h
  intro f hf
  exact Digester.exists_write_of_node hd f (List.mem_append_left _ (List.mem_append_left _ hf))

theorem Assembled.writable (h : Assembled s loose n stack binder ts t) : n.Writable where
  literal k x hs := by
    simp only [Assembled, hs] at h
    exact h.written.literal
  enum ms hs m hm := by
    simp only [Assembled, hs] at h
    exact h.written.enum m (List.mem_mergeSort.2 hm)

/-- What stands below a member is a composite that was spliced, or stands below one of the members that
are left. -/
theorem spliced_or_below_flat {members? : Shape → Option (List NodeId)}
    (hmembers : ∀ shape ms, members? shape = some ms → ms = shape.children) (fuel : ℕ)
    (ids : List NodeId) (seen : Std.ExtTreeSet NodeId) {y x : NodeId} (hy : y ∈ ids)
    (hx : ReflTransGen s.graph.nodes.HasChild y x) :
    (∃ n, s.graph.node? x = some n ∧ (members? n.shape).isSome) ∨
      ∃ z ∈ (flatten s members? fuel ids seen).1, ReflTransGen s.graph.nodes.HasChild z x := by
  induction fuel generalizing ids seen y with
  | zero => exact .inr ⟨y, hy, hx⟩
  | succ fuel ih =>
    rw [flatten]
    induction ids using List.reverseRecOn with
    | nil => cases hy
    | append_singleton ids id ihs =>
      rw [List.foldl_append, List.foldl_cons, List.foldl_nil]
      generalize List.foldl _ ([], seen) ids = acc at ihs ⊢
      rcases List.mem_append.1 hy with hy | hy
      · rcases ihs hy with hspliced | ⟨z, hz, hzx⟩
        · exact .inl hspliced
        · refine .inr ⟨z, ?_, hzx⟩
          dsimp only
          split
          · split <;> exact List.mem_append_left _ hz
          · exact List.mem_append_left _ hz
      · obtain rfl := List.mem_singleton.1 hy
        have hself : ∃ z ∈ acc.1 ++ [y], ReflTransGen s.graph.nodes.HasChild z x := ⟨y, by simp, hx⟩
        dsimp only
        split
        · next inner hinner =>
          split
          · exact .inr hself
          · obtain ⟨n, hn, hms⟩ := exists_of_spliceable hinner
            rcases ReflTransGen.cases_head hx with rfl | ⟨c, ⟨m, hm, hc⟩, hcx⟩
            · exact .inl ⟨n, hn, by simp [hms]⟩
            · obtain rfl := Option.some.inj (hm.symm.trans hn)
              rcases ih inner (acc.2.insert y) (hmembers _ _ hms ▸ hc) hcx with hspliced | ⟨z, hz, hzx⟩
              · exact .inl hspliced
              · exact .inr ⟨z, List.mem_append_right _ hz, hzx⟩
        · exact .inr hself

/-- What stands below a node is a composite, or stands below one of the nodes that the node is folded
from. -/
theorem composite_or_below_source {x c : NodeId} (hc : c ∈ n.shape.children)
    (hx : ReflTransGen s.graph.nodes.HasChild c x) :
    (∃ m, s.graph.node? x = some m ∧
        ((unionMembers? m.shape).isSome ∨ (intersectionMembers? m.shape).isSome)) ∨
      ∃ z ∈ sourceIds s n, ReflTransGen s.graph.nodes.HasChild z x := by
  unfold sourceIds sources
  cases hs : n.shape with
  | object fs =>
    rw [hs] at hc
    exact .inr ⟨c, by simpa [Shape.children] using hc, hx⟩
  | union ms δ =>
    rw [hs] at hc
    rcases spliced_or_below_flat (fun _ _ => eq_children_of_unionMembers) s.graph.nodes.size ms ∅ hc hx with
      ⟨m, hm, hsome⟩ | ⟨z, hz, hzx⟩
    · exact .inl ⟨m, hm, .inl hsome⟩
    · exact .inr ⟨z, by simpa [flat] using hz, hzx⟩
  | intersection ms =>
    rw [hs] at hc
    rcases spliced_or_below_flat (fun _ _ => eq_children_of_intersectionMembers) s.graph.nodes.size ms ∅ hc
      hx with ⟨m, hm, hsome⟩ | ⟨z, hz, hzx⟩
    · exact .inl ⟨m, hm, .inr hsome⟩
    · exact .inr ⟨z, by simpa [flat] using hz, hzx⟩
  | _ =>
    rw [hs] at hc
    exact .inr ⟨c, by simpa using hc, hx⟩

/-- What is true of a node whose term is made if it is true of the nodes that the node is folded from, is
true of every node that is folded. -/
theorem folded_of_build {Q : NodeId → Prop} (hs : Sturdy s)
    (hnode : ∀ id n ts stack binder t, s.graph.node? id = some n →
      Assembled s True n stack binder ts t → (∀ x ∈ sourceIds s n, Q x) → Q id)
    {fuel : ℕ} {path : Std.ExtTreeSet NodeId} (h : Ends (build s fuel path stack field id) st t st')
    (hst : ∀ x u, st.closed[x]? = some u → Q x) (hv : Visited s trail stack id)
    (hpath : ∀ x, path.contains x → x ∈ trail) (hfuel : fuel + trail.length = s.graph.nodes.size + 1) :
    Q id ∧ ∀ x u, st'.closed[x]? = some u → Q x := by
  induction fuel generalizing path trail stack field id st t st' with
  | zero =>
    have := hv.length_le hs
    omega
  | succ fuel ih =>
    obtain ⟨hsome, hout⟩ := hs _ _ _ hv
    have hpath' := @mem_trail_of_contains_insert path trail id hpath
    obtain ⟨st₁, hq, ⟨ht, rfl⟩ | ⟨hgone, -⟩ | ⟨n, st₂, st₃, hn, hp, ht, -, hq', rfl⟩⟩ :=
      ends_build h
    · have hst₁ := hq.closed ▸ hst
      exact ⟨hst₁ id t ht, hst₁⟩
    · rcases hgone with ⟨hn, -⟩ | ⟨hp, -⟩
      · simp [hn] at hsome
      · exact absurd (hpath id hp) hout
    · have hfolded {stack' : List NodeId} {binder : Bool} {st : State} {u : Term}
          (h : Ends (nodeTerm s (build s fuel (path.insert id) stack') n stack' field binder) st u st₂)
          (hst : ∀ x u, st.closed[x]? = some u → Q x)
          (hvis : ∀ x ∈ sourceIds s n, Visited s (id :: trail) stack' x) :
          Q id ∧ ∀ x u, st₂.closed[x]? = some u → Q x := by
        obtain ⟨ts, st₄, hchain, hq₄, hassembled⟩ := ends_nodeTerm h fun _ => trivial
        have hleaves : Leaves (fun _ => False) (fun st : State => ∀ x u, st.closed[x]? = some u → Q x)
            st st₄ (List.Forall₂ (fun p _ => Q p.2) (sources s n field) ts) := by
          refine leaves_of_chain hchain (fun p hp st u st' h hst => ?_) (.inr hst)
          have hsource : p.2 ∈ sourceIds s n := map_snd_sources field ▸ List.mem_map_of_mem hp
          obtain ⟨hQ, hst'⟩ := ih h (hst.resolve_left not_false) (hvis p.2 hsource) hpath'
            (by simp only [List.length_cons]; omega)
          exact ⟨False.elim, .inr hst', .inr hQ⟩
        have hall := hleaves.result.resolve_left not_false
        refine ⟨hnode id n ts _ _ _ hn hassembled fun x hx => ?_,
          hq₄.closed ▸ hleaves.state.resolve_left not_false⟩
        obtain ⟨p, hp, rfl⟩ := List.mem_map.1 (map_snd_sources field ▸ hx)
        obtain ⟨i, hi, rfl⟩ := List.getElem_of_mem hp
        exact hall.get hi (hall.length_eq ▸ hi)
      have hst₁ := hq.closed ▸ hst
      have htarget : Q id ∧ ∀ x u, st₂.closed[x]? = some u → Q x := by
        rcases ends_targetTerm ht with ⟨hb, u, hu, -, -⟩ | ⟨-, st₄, hu⟩ | ⟨-, hu⟩
        · exact hfolded hu hst₁ fun x hx => .target hv hn hb hx
        · exact hfolded hu hst₁ fun x hx => .plain hv hn hx
        · exact hfolded hu hst₁ fun x hx => .plain hv hn hx
      have hst₃ : ∀ x u, st₃.closed[x]? = some u → Q x := hq'.closed ▸ htarget.2
      refine ⟨htarget.1, ?_⟩
      split
      · intro x u hx
        rw [Std.ExtTreeMap.getElem?_insert] at hx
        split at hx
        · next he =>
          obtain rfl : id = x := by simpa using he
          exact htarget.1
        · exact hst₃ x u hx
      · exact hst₃

/-- When a fold has ended, the values below its root can be written. -/
theorem legible_of_ends_root (hs : Sturdy s) (h : Ends (root s) {} t st) : s.graph.Legible s.graph.root := by
  refine (folded_of_build (Q := s.graph.Legible) hs ?_ h (by simp) .root (by simp) rfl).1
  intro id n ts stack binder t hn hassembled hsources x hx m hm
  rcases ReflTransGen.cases_head hx with rfl | ⟨c, ⟨n', hn', hc⟩, hcx⟩
  · obtain rfl := Option.some.inj (hn.symm.trans hm)
    exact hassembled.writable
  · obtain rfl := Option.some.inj (hn'.symm.trans hn)
    rcases composite_or_below_source (s := s) hc hcx with ⟨m', hm', hcomposite⟩ | ⟨z, hz, hzx⟩
    · obtain rfl := Option.some.inj (hm'.symm.trans hm)
      constructor
      · intro k x hs
        simp [hs, unionMembers?, intersectionMembers?] at hcomposite
      · intro ms hs
        simp [hs, unionMembers?, intersectionMembers?] at hcomposite
    · exact hsources z hz x hzx m hm

/-! ## The nodes from which terms were folded -/

/-- Every part of a term was folded from a node below the one of the term. -/
theorem Derives.rawId_below (hkeyed : ∀ id n, s.graph.node? id = some n → n.id = id)
    (h : Derives s loose stack id t) :
    t.Throughout fun u => ReflTransGen s.graph.nodes.HasChild id u.head.rawId := by
  have hassembled {id : NodeId} {n : Node} {stack : List NodeId} {ts : List Term} {binder : Bool}
      {t : Term} (hn : s.graph.node? id = some n) (hlen : ts.length = (sourceIds s n).length)
      (hts : ∀ i (hi : i < ts.length), ts[i].Throughout fun u =>
        ReflTransGen s.graph.nodes.HasChild ((sourceIds s n)[i]) u.head.rawId)
      (ht : Assembled s loose n stack binder ts t) :
      t.Throughout fun u => ReflTransGen s.graph.nodes.HasChild id u.head.rawId := by
    intro u hu
    cases ht.origin hu with
    | source hin =>
      obtain ⟨c, hc, hu⟩ := hin
      obtain ⟨i, hi, rfl⟩ := List.getElem_of_mem hc
      have hbelow := below_of_mem_sourceIds hn (List.getElem_mem (hlen ▸ hi))
      exact hbelow.to_reflTransGen.trans (hts i hi u hu)
    | remark _ hr =>
      obtain ⟨reason, cause, -, hu⟩ := hr
      obtain ⟨digest, -, rfl⟩ := Term.make_eq_ok hu
      rw [Term.head_mk, hkeyed id n hn]
    | made _ hraw _ => rw [hraw, hkeyed id n hn]
  induction h with
  | recalled _ _ _ ih => exact ih
  | abandoned _ h =>
    obtain ⟨reason, cause, -, hu⟩ := h
    obtain ⟨digest, -, rfl⟩ := Term.make_eq_ok hu
    exact .of_children .refl fun c hc => absurd hc List.not_mem_nil
  | plain hn _ hlen _ ht _ ih => exact hassembled hn hlen ih ht
  | target hn _ hlen _ hu _ ht _ ih =>
    have hall := hassembled hn hlen ih hu
    obtain ⟨digest, -, rfl⟩ := Term.asTarget_eq_ok ht
    exact .of_children hall.here fun c hc => hall.child hc

end Folding

end TypeAtlas
