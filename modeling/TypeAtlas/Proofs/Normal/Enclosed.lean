import TypeAtlas.Proofs.Normal.Hashed

/-! # Hashes without a report

A graph that is hashed without a report is acyclic on the way down from its root, no recursion is left
unresolved there, and every recursive reference that is met is met below the node that it names. The
heights that a hash gives out are those of the enclosing nodes that are still named.
-/

namespace TypeAtlas

/-- A recursion for which no target was found. -/
def Shape.isUnresolved : Shape → Bool
  | .unknown _ .recursion => true
  | _ => false

/-- Below a node everything is in scope, and no recursion is unresolved. -/
structure Arena.Determined (A : Arena) (E : Set NodeId) (id : NodeId) : Prop where
  enclosed : A.Scoped E id
  resolved : ∀ x n, Relation.ReflTransGen A.HasChild id x → A[x]? = some n → n.shape.isUnresolved = false

namespace Arena.Determined

variable {A : Arena} {E F : Set NodeId} {id : NodeId} {n : Node}

theorem mono (h : A.Determined E id) (hE : E ⊆ F) : A.Determined F id :=
  ⟨h.enclosed.mono (.refl A) hE, h.resolved⟩

theorem of_children (hn : A[id]? = some n) (ht : ∀ t, n.shape.recursionTarget? = some t → t ∈ insert id E)
    (hresolved : n.shape.isUnresolved = false)
    (hc : ∀ c ∈ n.shape.children, A.Determined (insert id E) c) : A.Determined E id where
  enclosed := .mk hn ht fun c h => (hc c h).enclosed
  resolved x m hx hm := by
    rcases Relation.ReflTransGen.cases_head hx with rfl | ⟨c, ⟨n', hn', hmem⟩, hx⟩
    · obtain rfl := Option.some.inj (hm.symm.trans hn)
      exact hresolved
    · obtain rfl := Option.some.inj (hn'.symm.trans hn)
      exact (hc c hmem).resolved x m hx hm

end Arena.Determined

end TypeAtlas

namespace TypeAtlas.Hasher

variable {s : Setting} {st st' : State} {n : Node} {id c : NodeId} {stack inner trail : List NodeId}
  {hs : Heights} {visit : NodeId → M (String × Heights)} {fuel : ℕ}
  {path : Std.ExtTreeSet NodeId} {q : String × Heights}

abbrev Faulty (st : State) : Prop := st.sink.hasErrors

/-- What is met below the remembered nodes is determined. -/
def Safe (s : Setting) (st : State) : Prop :=
  ∀ id x, st.closed[id]? = some x → s.graph.nodes.Determined ∅ id

theorem Safe.remember (h : Safe s st) (hid : s.graph.nodes.Determined ∅ id) (x : String) :
    Safe s { st with closed := st.closed.insert id x } := by
  intro y z hz
  rw [Std.ExtTreeMap.getElem?_insert] at hz
  split at hz
  · next hy =>
    obtain rfl : id = y := Std.LawfulEqCmp.compare_eq_iff_eq.1 hy
    exact hid
  · exact h y z hz

/-- The nodes on a stack that heights stand for; the innermost comes first. -/
def named (stack : List NodeId) (hs : Heights) : Set NodeId :=
  {y | ∃ l ∈ hs, stack.reverse[l]? = some y}

theorem named_empty : named stack ∅ = ∅ := by
  ext y
  simp [named]

theorem faulty_of_unstable {detail : String} {u : Unit}
    (h : Ends (unstable s detail id) st u st') : Faulty st' := by
  obtain rfl := ends_modify.1 h
  simp [Faulty, Sink.hasErrors, Sink.emit, Diagnostic.isError, Diagnostic.make, DiagnosticKey.entry]

theorem ends_of_nodeDigest {kind x : String} {payload : List (String × Datum)} {cs : List String}
    (h : Ends (nodeDigest s kind payload cs) st x st') : st' = st := (ends_lift.1 h).2

theorem ends_of_brokenDigest (h : Ends (brokenDigest s) st q st') : st' = st := by
  rw [brokenDigest, ends_bind] at h
  obtain ⟨x, st₁, hx, h⟩ := h
  obtain rfl := ends_of_nodeDigest hx
  exact (ends_pure.1 h).2.symm

theorem determined_together {cs : List NodeId} {qs : List (String × Heights)}
    (h : List.Forall₂ (fun c q => s.graph.nodes.Determined (named inner q.2) c) cs qs) :
    ∀ c ∈ cs, s.graph.nodes.Determined (named inner (together qs).2) c := by
  intro c hc
  obtain ⟨i, hi, rfl⟩ := List.getElem_of_mem hc
  have hj : i < qs.length := h.length_eq ▸ hi
  refine (h.get hi hj).mono ?_
  rintro y ⟨l, hl, hy⟩
  exact ⟨l, mem_together.2 ⟨qs[i], List.getElem_mem hj, hl⟩, hy⟩

/-- A node is no unresolved recursion, and its parts are in the scope of the heights that it gives
out. -/
structure Spanned (s : Setting) (n : Node) (inner : List NodeId) (hs : Heights) : Prop where
  target : ∀ t, n.shape.recursionTarget? = some t → t ∈ named inner hs
  resolved : n.shape.isUnresolved = false
  children : ∀ c ∈ n.shape.children, s.graph.nodes.Determined (named inner hs) c

/-- The parts of a node are those of its children, unless the node is reported: as an unresolved
recursion, or as a reference to what does not enclose it. -/
theorem parts_cases {p : List (String × Datum) × List String × Heights}
    (h : Ends (parts s n inner visit) st p st') :
    ((∃ detail, ∃ u : Unit, Ends (unstable s detail n.id) st u st') ∧
      (n.shape.isUnresolved ∨ ∃ t, n.shape.recursionTarget? = some t ∧ t ∉ inner)) ∨
    n.shape.isUnresolved = false ∧ (∀ t, n.shape.recursionTarget? = some t → t ∈ named inner p.2.2) ∧
      ∃ cs qs, Chain visit cs st qs st' ∧ (∀ c, c ∈ cs ↔ c ∈ n.shape.children) ∧
        (cs ≠ [] → p.2.2 = (together qs).2) := by
  have hleaf {hs : Heights} (hchildren : n.shape.children = []) (hresolved : n.shape.isUnresolved = false)
      (htarget : ∀ t, n.shape.recursionTarget? = some t → t ∈ named inner hs) :
      n.shape.isUnresolved = false ∧ (∀ t, n.shape.recursionTarget? = some t → t ∈ named inner hs) ∧
        ∃ cs qs, Chain visit cs st qs st ∧ (∀ c, c ∈ cs ↔ c ∈ n.shape.children) ∧
          (cs ≠ [] → hs = (together qs).2) :=
    ⟨hresolved, htarget, [], [], .nil, by simp [hchildren], fun hne => absurd rfl hne⟩
  have hnodes {α : Type} {xs : List α} {f : α → NodeId} {payload : List (String × Datum)}
      {digests : List (String × Heights) → List String}
      (h : Ends (xs.mapM (fun x => visit (f x)) >>= fun qs => pure (payload, digests qs, (together qs).2)) st p st')
      (hcs : ∀ c, c ∈ xs.map f ↔ c ∈ n.shape.children) (htarget : n.shape.recursionTarget? = none)
      (hresolved : n.shape.isUnresolved = false) :
      n.shape.isUnresolved = false ∧ (∀ t, n.shape.recursionTarget? = some t → t ∈ named inner p.2.2) ∧
        ∃ cs qs, Chain visit cs st qs st' ∧ (∀ c, c ∈ cs ↔ c ∈ n.shape.children) ∧
          (cs ≠ [] → p.2.2 = (together qs).2) := by
    obtain ⟨qs, st₁, hqs, h⟩ := ends_bind.1 h
    obtain ⟨rfl, rfl⟩ := ends_pure.1 h
    refine ⟨hresolved, fun t ht => ?_, xs.map f, qs, (ends_mapM.1 hqs).map, hcs, fun _ => rfl⟩
    rw [htarget] at ht
    cases ht
  unfold parts at h
  cases hs : n.shape with
  | recursiveRef target symbol =>
    simp only [hs] at h
    split at h
    · next hnone =>
      rw [ends_bind] at h
      obtain ⟨u, st₁, hu, h⟩ := h
      obtain ⟨rfl, rfl⟩ := ends_pure.1 h
      exact .inl ⟨⟨_, u, hu⟩, .inr ⟨target, rfl, List.idxOf?_eq_none_iff.1 hnone⟩⟩
    · next depth hdepth =>
      obtain ⟨rfl, rfl⟩ := ends_pure.1 h
      refine .inr (hs ▸ hleaf (by simp [hs, Shape.children]) (by simp [hs, Shape.isUnresolved]) fun t ht => ?_)
      obtain rfl : target = t := by simpa [hs, Shape.recursionTarget?] using ht
      obtain ⟨hlt, hget, -⟩ := List.idxOf?_eq_some_iff.1 hdepth
      refine ⟨inner.length - 1 - depth, by simp, ?_⟩
      rw [List.getElem?_reverse (by omega), show inner.length - 1 - (inner.length - 1 - depth) = depth by omega,
        List.getElem?_eq_getElem hlt, ← hget]
  | unknown reason cause =>
    simp only [hs] at h
    split at h
    · next hcause =>
      rw [ends_bind] at h
      obtain ⟨u, st₁, hu, h⟩ := h
      obtain ⟨rfl, rfl⟩ := ends_pure.1 h
      exact .inl ⟨⟨_, u, hu⟩, .inl (by rw [hcause]; rfl)⟩
    · next hcause =>
      obtain ⟨rfl, rfl⟩ := ends_pure.1 h
      have hresolved : n.shape.isUnresolved = false := by
        rw [hs]
        unfold Shape.isUnresolved
        split
        · next he =>
          cases he
          exact absurd rfl hcause
        · rfl
      exact .inr (hs ▸ hleaf (by simp [hs, Shape.children]) hresolved (by simp [hs, Shape.recursionTarget?]))
  | object fs =>
    simp only [hs] at h
    exact .inr (hs ▸ hnodes h (by simp [hs, Shape.children, sortFields]) (by simp [hs, Shape.recursionTarget?])
      (by simp [hs, Shape.isUnresolved]))
  | union ms δ =>
    simp only [hs] at h
    exact .inr (hs ▸ hnodes h (by simp [hs, Shape.children]) (by simp [hs, Shape.recursionTarget?])
      (by simp [hs, Shape.isUnresolved]))
  | intersection ms =>
    simp only [hs] at h
    exact .inr (hs ▸ hnodes h (by simp [hs, Shape.children]) (by simp [hs, Shape.recursionTarget?])
      (by simp [hs, Shape.isUnresolved]))
  | array e =>
    simp only [hs] at h
    exact .inr (hs ▸ hnodes h (by simp [hs]) (by simp [hs, Shape.recursionTarget?])
      (by simp [hs, Shape.isUnresolved]))
  | tuple es =>
    simp only [hs] at h
    exact .inr (hs ▸ hnodes h (by simp [hs]) (by simp [hs, Shape.recursionTarget?])
      (by simp [hs, Shape.isUnresolved]))
  | reference target symbol =>
    simp only [hs] at h
    exact .inr (hs ▸ hnodes h (by simp [hs]) (by simp [hs, Shape.recursionTarget?])
      (by simp [hs, Shape.isUnresolved]))
  | _ =>
    simp only [hs] at h
    obtain ⟨rfl, rfl⟩ := ends_pure.1 h
    exact .inr (hs ▸ hleaf (by simp [hs, Shape.children]) (by simp [hs, Shape.isUnresolved])
      (by simp [hs, Shape.recursionTarget?]))

theorem leaves_of_parts {p : List (String × Datum) × List String × Heights}
    (h : Ends (parts s n inner visit) st p st')
    (hvisit : ∀ c ∈ n.shape.children, ∀ st q st', Ends (visit c) st q st' →
      Faulty st ∨ Safe s st →
        Leaves Faulty (Safe s) st st' (s.graph.nodes.Determined (named inner q.2) c))
    (hst : Faulty st ∨ Safe s st) : Leaves Faulty (Safe s) st st' (Spanned s n inner p.2.2) := by
  rcases parts_cases h with ⟨⟨detail, u, hu⟩, -⟩ | ⟨hresolved, htarget, cs, qs, hchain, hcs, hheights⟩
  · have hf := faulty_of_unstable hu
    exact ⟨fun _ => hf, .inl hf, .inl hf⟩
  · have hleaves := leaves_of_chain
      (R := fun c (q : String × Heights) => s.graph.nodes.Determined (named inner q.2) c) hchain
      (fun c hc => hvisit c ((hcs c).1 hc)) hst
    refine hleaves.imp fun hall => ⟨htarget, hresolved, fun c hc => ?_⟩
    have hc := (hcs c).2 hc
    rw [hheights (List.ne_nil_of_mem hc)]
    exact determined_together hall c hc

/-- Outside a node on a stack, its own height is left out. -/
theorem named_cons : named (id :: stack) hs ⊆ insert id (named stack (hs.erase stack.length)) := by
  rintro y ⟨l, hl, hy⟩
  rw [List.reverse_cons, List.getElem?_append, List.length_reverse] at hy
  split at hy
  · next hlt =>
    right
    refine ⟨l, Std.ExtTreeSet.mem_erase.2 ⟨?_, hl⟩, hy⟩
    simp only [ne_eq, Nat.compare_eq_eq]
    omega
  · left
    obtain ⟨-, rfl⟩ := List.mem_singleton.1 (List.mem_of_getElem? hy)
    rfl

/-- A way down without repetitions is no longer than the graph. -/
theorem length_le_size (hnodup : trail.Nodup) (htrail : ∀ x ∈ trail, x ∈ s.graph.nodes) :
    trail.length ≤ s.graph.nodes.size := by
  rw [← Std.ExtTreeMap.length_keys]
  exact (hnodup.subperm fun x hx => Std.ExtTreeMap.mem_keys.2 (htrail x hx)).length_le

/-- The digest of a node is remembered, or the node is reported as missing or as part of a cycle, or the
digest is made of the node's parts. -/
theorem digest_cases (h : Ends (digest s (fuel + 1) id stack path) st q st') :
    (∃ x, st.closed[id]? = some x ∧ q = (x, ∅) ∧ st' = st) ∨
    ((id ∉ s.graph.nodes ∨ path.contains id) ∧ ∃ detail, ∃ u : Unit, Ends (unstable s detail id) st u st') ∨
    ∃ n p st₁ inner free, s.graph.node? id = some n ∧ ¬ path.contains id ∧
      inner = (if s.binders.contains id then id :: stack else stack) ∧
      free = (if s.binders.contains id then p.2.2.erase stack.length else p.2.2) ∧
      Ends (parts s n inner fun child => digest s fuel child inner (path.insert id)) st p st₁ ∧
      q.2 = free ∧
      st' = if free.isEmpty then { st₁ with closed := st₁.closed.insert id q.1 } else st₁ := by
  simp only [digest, ends_bind] at h
  obtain ⟨_, st, hx, h⟩ := h
  obtain ⟨rfl, rfl⟩ := ends_get.1 hx
  cases hclosed : st.closed[id]? with
  | some y =>
    rw [hclosed] at h
    obtain ⟨rfl, rfl⟩ := ends_pure.1 h
    exact .inl ⟨y, rfl, rfl, rfl⟩
  | none =>
    simp only [hclosed] at h
    cases hnode : s.graph.node? id with
    | none =>
      simp only [hnode, ends_bind] at h
      obtain ⟨u, st₁, hu, h⟩ := h
      obtain rfl := ends_of_brokenDigest h
      refine .inr (.inl ⟨.inl fun hmem => ?_, _, u, hu⟩)
      obtain ⟨n, hn⟩ := mem_iff_exists_getElem?.1 hmem
      cases hnode.symm.trans hn
    | some n =>
      simp only [hnode] at h
      split at h
      · next hin =>
        rw [ends_bind] at h
        obtain ⟨u, st₁, hu, h⟩ := h
        obtain rfl := ends_of_brokenDigest h
        exact .inr (.inl ⟨.inr hin, _, u, hu⟩)
      · next hout =>
        rw [ends_bind] at h
        obtain ⟨p, st₁, hparts, h⟩ := h
        rw [ends_bind] at h
        obtain ⟨x, st₂, hx, h⟩ := h
        obtain rfl := ends_of_nodeDigest hx
        set free := if s.binders.contains id then p.2.2.erase stack.length else p.2.2 with hfree
        refine .inr (.inr ⟨n, p, st₂, _, free, rfl, hout, rfl, hfree, hparts, ?_⟩)
        split at h
        · next hempty =>
          rw [ends_bind] at h
          obtain ⟨u, st₃, hu, h⟩ := h
          obtain ⟨rfl, rfl⟩ := ends_pure.1 h
          exact ⟨rfl, by rw [if_pos hempty]; exact ends_modify.1 hu⟩
        · next hopen =>
          obtain ⟨rfl, rfl⟩ := ends_pure.1 h
          exact ⟨rfl, by rw [if_neg hopen]⟩

theorem contains_insert_iff (hpath : ∀ x, path.contains x ↔ x ∈ trail) (x : NodeId) :
    (path.insert id).contains x ↔ x ∈ id :: trail := by
  rw [List.mem_cons, ← hpath x, Std.ExtTreeSet.contains_insert, Bool.or_eq_true, beq_iff_eq,
    Std.LawfulEqCmp.compare_eq_iff_eq, eq_comm]

/-- Without a report, the digest of a node has met below it only nodes of the graph, each recursive
reference below the node that it names or with the height of an enclosing one. -/
theorem leaves_of_digest (hnodup : trail.Nodup) (htrail : ∀ x ∈ trail, x ∈ s.graph.nodes)
    (hpath : ∀ x, path.contains x ↔ x ∈ trail) (hfuel : s.graph.nodes.size < fuel + trail.length)
    (h : Ends (digest s fuel id stack path) st q st') (hst : Faulty st ∨ Safe s st) :
    Leaves Faulty (Safe s) st st' (s.graph.nodes.Determined (named stack q.2) id) := by
  induction fuel generalizing id stack path trail st q st' with
  | zero =>
    have := length_le_size hnodup htrail
    omega
  | succ fuel ih =>
    rcases digest_cases h with ⟨y, hclosed, rfl, rfl⟩ | ⟨-, detail, u, hu⟩ |
      ⟨n, p, st₁, inner, free, hnode, hout, rfl, hfree, hparts, hq, rfl⟩
    · exact ⟨fun hf => hf, hst, hst.imp_right fun hsafe => named_empty ▸ hsafe id y hclosed⟩
    · have hf := faulty_of_unstable hu
      exact ⟨fun _ => hf, .inl hf, .inl hf⟩
    · have hid : id ∉ trail := fun hm => hout ((hpath id).2 hm)
      have hinner : ∀ x ∈ id :: trail, x ∈ s.graph.nodes := by
        rw [List.forall_mem_cons]
        exact ⟨mem_iff_exists_getElem?.2 ⟨n, hnode⟩, htrail⟩
      have hleaves := leaves_of_parts hparts (fun c _ st q st' hq hst =>
        ih (List.nodup_cons.2 ⟨hid, hnodup⟩) hinner (contains_insert_iff hpath)
          (by simp only [List.length_cons]; omega) hq hst) hst
      have hdetermined : Leaves Faulty (Safe s) st st₁ (s.graph.nodes.Determined (named stack free) id) := by
        refine hleaves.imp fun hspanned => ?_
        have hsub : named (if s.binders.contains id then id :: stack else stack) p.2.2 ⊆
            insert id (named stack free) := by
          rw [hfree]
          split
          · exact named_cons
          · exact Set.subset_insert _ _
        exact .of_children hnode (fun t ht => hsub (hspanned.target t ht)) hspanned.resolved
          fun c hc => (hspanned.children c hc).mono hsub
      rw [hq]
      split
      · next hempty =>
        have hnone : free = ∅ := Std.ExtTreeSet.isEmpty_iff.1 hempty
        refine ⟨hdetermined.stays, ?_, hdetermined.result⟩
        rcases hdetermined.state with hf | hsafe
        · exact .inl hf
        · refine hdetermined.result.imp_right fun hnode => hsafe.remember ?_ q.1
          rwa [hnone, named_empty] at hnode
      · exact hdetermined

end TypeAtlas.Hasher

namespace TypeAtlas

/-- Without a report, the hash of a graph is the digest of its root. -/
theorem Graph.exists_digest_of_hash {d : Digester} {a : Algorithm} {g : Graph} {o : Outcome String}
    (h : g.hash d a = .ok o) (hok : o.ok) :
    ∃ p st, Ends (Hasher.digest ⟨d, a, g, g.binders⟩ (g.nodes.size + 1) g.root [] ∅) {} p st ∧
      ¬ Hasher.Faulty st ∧ o.value = some p.1 := by
  unfold hash at h
  obtain ⟨⟨p, st⟩, hrun, h⟩ := bind_eq_ok.1 h
  obtain rfl := Except.ok.inj h
  have hclean : ¬ st.sink.hasErrors := by simpa using hok
  refine ⟨p, st, hrun, hclean, ?_⟩
  simp only [Sink.outcome, if_neg hclean]

/-- A graph that is hashed without a report has below its root no unresolved recursion, and recursive
references only to nodes that they are met below. -/
theorem Graph.determined_of_hash {d : Digester} {a : Algorithm} {g : Graph} {o : Outcome String}
    (h : g.hash d a = .ok o) (hok : o.ok) : g.nodes.Determined ∅ g.root := by
  obtain ⟨p, st, hp, hclean, -⟩ := g.exists_digest_of_hash h hok
  have hleaves := Hasher.leaves_of_digest .nil (by simp) (by simp) (Nat.lt_succ_self _) hp
    (.inr fun _ _ hx => by simp at hx)
  refine (hleaves.result.resolve_left hclean).mono ?_
  rintro y ⟨l, -, hy⟩
  simp at hy

theorem Graph.scoped_of_hash {d : Digester} {a : Algorithm} {g : Graph} {o : Outcome String}
    (h : g.hash d a = .ok o) (hok : o.ok) : g.nodes.Scoped ∅ g.root := (determined_of_hash h hok).enclosed

end TypeAtlas
