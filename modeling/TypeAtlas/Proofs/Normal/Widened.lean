import TypeAtlas.Proofs.Digest.Legible
import TypeAtlas.Proofs.Normal.Nullable
import TypeAtlas.Proofs.Normal.Upright
import TypeAtlas.Proofs.Renaming.Folded

/-! # Fields that may be null

Below a reference to a type, or a union of it with null, a fold goes the way it goes when the type stands
there alone, as long as the type does not lead back to them. What is made of the type's members is then of the
kinds of the type, so the same tags are rejected for a field.
-/

namespace TypeAtlas

open Term Relation

namespace Folding

variable {s : Setting} {n : Node} {t u : Term} {ts ds : List Term} {binder : Bool} {δ : Option Discriminant}
  {S : Set String} {id x v : NodeId} {xs ys : List NodeId}

/-! ## Primitives -/

/-- What is remembered of primitives is what they are. -/
def Primitives (s : Setting) (st : State) : Prop :=
  ∀ id n p t, s.graph.node? id = some n → n.shape = .primitive p → st.closed[id]? = some t →
    Made s n (.primitive p) [] t

variable {st st' : State} {stack : List NodeId} {path path' : Std.ExtTreeSet NodeId} {fuel : ℕ}
  {field : Option String} {p : Primitive}

theorem Reports.primitives (h : Reports st st') (hst : Primitives s st) : Primitives s st' :=
  fun id n p t hn hp ht => hst id n p t hn hp (h.closed ▸ ht)

theorem made_of_nodeTerm {build : Option String → NodeId → M Term} (hp : n.shape = .primitive p)
    (h : Ends (nodeTerm s build n stack field binder) st t st') : Made s n (.primitive p) [] t := by
  obtain ⟨ts, st₁, -, -, ht⟩ := ends_nodeTerm h fun _ => trivial
  rwa [Assembled, hp] at ht

theorem made_of_targetTerm {build : List NodeId → Option String → NodeId → M Term}
    (hp : n.shape = .primitive p) (h : Ends (targetTerm s build id n stack field) st t st') :
    Made s n (.primitive p) [] t := by
  rcases ends_targetTerm h with ⟨-, u, hu, hlive, -⟩ | ⟨-, st₁, ht⟩ | ⟨-, ht⟩
  · obtain ⟨digest, -, rfl⟩ := make_eq_ok (made_of_nodeTerm hp hu)
    simp [Term.free, freeFor, freeOf] at hlive
  · exact made_of_nodeTerm hp ht
  · exact made_of_nodeTerm hp ht

theorem primitives_of_build (h : Ends (build s fuel path stack field id) st t st') (hst : Primitives s st) :
    Primitives s st' := by
  induction fuel generalizing path stack field id st t st' with
  | zero =>
    obtain ⟨-, rfl⟩ := ends_unknownTerm h .cycle
    exact hst
  | succ fuel ih =>
    obtain ⟨st₁, hq, ⟨-, rfl⟩ | ⟨hgone, -⟩ | ⟨n, st₂, st₃, hn, -, ht, -, hq', rfl⟩⟩ := ends_build h
    · exact hq.toReports.primitives hst
    · exact hgone.reports.primitives (hq.toReports.primitives hst)
    · have hnode {stack' : List NodeId} {binder : Bool} {st u}
          (h : Ends (nodeTerm s (build s fuel (path.insert id) stack') n stack' field binder) st u st₂)
          (hst : Primitives s st) : Primitives s st₂ := by
        obtain ⟨ts, st₄, hchain, hq₄, -⟩ := ends_nodeTerm h fun _ => trivial
        exact hq₄.toReports.primitives (hchain.preserves (fun p _ st t st' h hst => ih h hst) hst)
      have hst₁ : Primitives s st₁ := hq.toReports.primitives hst
      have hst₂ : Primitives s st₂ := by
        rcases ends_targetTerm ht with ⟨-, u, hu, -⟩ | ⟨-, st₄, hu⟩ | ⟨-, hu⟩
        · exact hnode hu hst₁
        · -- what the given up fold has remembered is taken back
          exact hnode hu fun id n p t hn hp ht => hst₁ id n p t hn hp ht
        · exact hnode hu hst₁
      have hst₃ := hq'.toReports.primitives hst₂
      split
      · intro y m p u hm hp hu
        rw [Std.ExtTreeMap.getElem?_insert] at hu
        split at hu
        · next he =>
          obtain rfl : id = y := by simpa using he
          obtain rfl := Option.some.inj hu
          obtain rfl := Option.some.inj (hn.symm.trans hm)
          exact made_of_targetTerm hp ht
        · exact hst₃ y m p u hm hp hu
      · exact hst₃

theorem made_of_build (h : Ends (build s (fuel + 1) path stack field id) st t st') (hst : Primitives s st)
    (hn : s.graph.node? id = some n) (hp : n.shape = .primitive p) (hid : path.contains id = false) :
    Made s n (.primitive p) [] t := by
  obtain ⟨st₁, hq, ⟨ht, -⟩ | ⟨hgone, -⟩ | ⟨m, st₂, st₃, hm, -, ht, -⟩⟩ := ends_build h
  · exact hq.toReports.primitives hst id n p t hn hp ht
  · rcases hgone with ⟨hnone, -⟩ | ⟨hon, -⟩
    · cases hnone.symm.trans hn
    · exact absurd hon (by simp [hid])
  · obtain rfl := Option.some.inj (hm.symm.trans hn)
    exact made_of_targetTerm hp ht

/-! ## Ways -/

variable {D : NodeId → Prop} {trail : List NodeId}

theorem Setting.Relabeled.restrict {σ : Relabeling} {P : Diagnostic → Prop} {exact : Prop} {s' : Setting}
    (hs : s.Relabeled σ (fun _ => True) P exact s')
    (hD : ∀ x y, D x → s.graph.nodes.HasChild x y → D y) : s.Relabeled σ D P exact s' :=
  { hs with
    node := fun id _ => hs.node id trivial
    child := hD
    binders := fun id _ => hs.binders id trivial
    target := fun id _ => hs.target id trivial
    missing := fun id _ => hs.missing id trivial
    cyclic := fun he id _ => hs.cyclic he id trivial }

theorem Setting.relabeled_refl (s : Setting) (hD : ∀ x y, D x → s.graph.nodes.HasChild x y → D y) :
    s.Relabeled Renaming.refl.relabeling D (fun _ => True) True s :=
  (s.beside_refl.relabeled fun _ _ _ _ _ => trivial).restrict hD

theorem State.relabeled_untimed (st : State) :
    State.Relabeled Renaming.refl.relabeling D (fun _ => True) True false st st.untimed where
  sink _ := rfl
  hasErrors := rfl
  reported _ _ := trivial
  closed id _ := by
    change st.closed[id]? = _
    cases st.closed[id]? with
    | none => rfl
    | some t => rw [Option.map_some, Renaming.relabeling_term, Renaming.term_refl]
  dead _ _ := .rfl
  deadline := rfl

/-- What stands below some nodes, with these. -/
def Beneath (s : Setting) (xs : List NodeId) (y : NodeId) : Prop :=
  ∃ x ∈ xs, ReflTransGen s.graph.nodes.HasChild x y

/-- Folds go the same way when the paths to them hold the same of the nodes below, and without a deadline as
well. -/
theorem chain_untimed (h : Chain (build s fuel path stack field) xs st ts st')
    (habove : ∀ x ∈ xs, ∀ y ∈ path, TransGen s.graph.nodes.HasChild y x)
    (hsame : ∀ y, Beneath s xs y → (y ∈ path' ↔ y ∈ path)) :
    ∃ st₁, Chain (build s fuel path' stack field) xs st.untimed ts st₁ := by
  have hs := s.relabeled_refl (D := Beneath s xs) fun _ _ ⟨x, hx, hxy⟩ hyz => ⟨x, hx, hxy.tail hyz⟩
  have halong : Accompanies Renaming.refl.relabeling (Beneath s xs) (fun _ => True) True false
      (List.Forall₂ (Relabels Renaming.refl.relabeling))
      (xs.mapM (build s fuel path stack field))
      ((xs.map Renaming.refl.relabeling.node).mapM (build s fuel path' stack field)) := by
    refine along_mapM_mem fun x hx => ?_
    have hpath : SamePath Renaming.refl.relabeling (Beneath s xs) s path path' x := ⟨habove x hx, hsame⟩
    have hbuild : Accompanies Renaming.refl.relabeling (Beneath s xs) (fun _ => True) True false (Relabels _) _ _ :=
      accompanies_build hs fuel path path' stack field ⟨x, hx, .refl⟩ hpath
    rwa [show stack.map Renaming.refl.relabeling.target = stack from List.map_id _] at hbuild
  obtain ⟨us, st₁, hus, hts, -⟩ := halong.ends st.relabeled_untimed (ends_mapM.2 h)
  have heq : us = ts := by
    rw [eq_map_of_forall₂ hts]
    exact (List.map_congr_left fun t _ => (Renaming.relabeling_term _ t).trans (Renaming.term_refl t)).trans
      (List.map_id _)
  rw [heq, show xs.map Renaming.refl.relabeling.node = xs from List.map_id _] at hus
  exact ⟨st₁, ends_mapM.1 hus⟩

theorem exists_ends_untimed (h : Ends (build s fuel path stack field x) st t st')
    (habove : ∀ y ∈ path, TransGen s.graph.nodes.HasChild y x)
    (hsame : ∀ y, ReflTransGen s.graph.nodes.HasChild x y → (y ∈ path' ↔ y ∈ path)) :
    ∃ st₁, Ends (build s fuel path' stack field x) st.untimed t st₁ := by
  obtain ⟨st₁, hchain⟩ := chain_untimed (.cons h .nil) (by simpa using habove) (by simpa [Beneath] using hsame)
  cases hchain with
  | cons h hnil =>
    cases hnil
    exact ⟨_, h⟩

/-! ## Members -/

theorem flat_eq_self (h : ∀ x ∈ xs, spliceable? s unionMembers? x = none) : flat s unionMembers? xs = xs := by
  rw [flat, flatten_of_seen fun id hid inner hinner => by cases (h id hid).symm.trans hinner]

/-- Members that are not spliced stay where they are. -/
theorem flatten_append {members? : Shape → Option (List NodeId)} {seen : Std.ExtTreeSet NodeId}
    (h : ∀ y ∈ ys, spliceable? s members? y = none) :
    (flatten s members? fuel (xs ++ ys) seen).1 = (flatten s members? fuel xs seen).1 ++ ys := by
  cases fuel with
  | zero => rfl
  | succ fuel =>
    induction ys using List.reverseRecOn with
    | nil => rw [List.append_nil, List.append_nil]
    | append_singleton ys y ih =>
      have ih := ih fun z hz => h z (List.mem_append_left _ hz)
      rw [flatten, List.foldl_append] at ih ⊢
      rw [List.foldl_append, List.foldl_cons, List.foldl_nil, h y (by simp), ih, List.append_assoc]

/-- A union stands for its own members, which do not contain it. -/
theorem flat_cons {inner : List NodeId} (hx : spliceable? s unionMembers? x = some inner)
    (hacyclic : ¬ TransGen s.graph.nodes.HasChild x x)
    (hxs : ∀ y ∈ xs, spliceable? s unionMembers? y = none) :
    flat s unionMembers? (x :: xs) = flat s unionMembers? inner ++ xs := by
  have hnodes : ∀ y ∈ (∅ : Std.ExtTreeSet NodeId).insert x, y ∈ s.graph.nodes :=
    forall_mem_insert (mem_of_spliceable hx) (by simp)
  have hsize : ((∅ : Std.ExtTreeSet NodeId).insert x).size = 1 := by
    rw [size_insert_of_not_mem (by simp), Std.ExtTreeSet.size_empty]
  obtain ⟨k, hk⟩ : ∃ k, s.graph.nodes.size = k + 1 :=
    ⟨s.graph.nodes.size - 1, by have := size_le_of_subset hnodes; omega⟩
  obtain ⟨n, hn, hmembers⟩ := exists_of_spliceable hx
  have hbelow : ∀ y ∈ inner, TransGen s.graph.nodes.HasChild x y := fun y hy =>
    .single ⟨n, hn, eq_children_of_unionMembers hmembers ▸ hy⟩
  have hsame : (flatten s unionMembers? (k + 1) inner ((∅ : Std.ExtTreeSet NodeId).insert x)).1 =
      (flatten s unionMembers? (k + 1) inner ∅).1 := by
    have hs := s.relabeled_refl (D := TransGen s.graph.nodes.HasChild x) fun _ _ hy hyz => hy.tail hyz
    have hseen : ∀ y, TransGen s.graph.nodes.HasChild x y →
        (Renaming.refl.relabeling.node y ∈ (∅ : Std.ExtTreeSet NodeId).insert x ↔
          y ∈ (∅ : Std.ExtTreeSet NodeId)) := fun y hy => by
      have hne : x ≠ y := fun he => hacyclic (he ▸ hy)
      simpa [show Renaming.refl.relabeling.node = id from rfl] using hne
    have hflat := (flatten_relabeled hs (fun shape => by cases shape <;> rfl)
      (fun _ _ => eq_children_of_unionMembers) (k + 1) hbelow hseen).flat
    simpa [show Renaming.refl.relabeling.node = id from rfl] using hflat
  have hmore : flatten s unionMembers? k inner ((∅ : Std.ExtTreeSet NodeId).insert x) =
      flatten s unionMembers? (k + 1) inner ((∅ : Std.ExtTreeSet NodeId).insert x) :=
    flatten_eq_of_le hnodes (by omega) (by omega)
  have hone : (flatten s unionMembers? (k + 1) [x] ∅).1 =
      (flatten s unionMembers? k inner ((∅ : Std.ExtTreeSet NodeId).insert x)).1 := by
    rw [flatten, List.foldl_cons, List.foldl_nil, hx]
    simp
  rw [flat, flat, hk, ← List.singleton_append, flatten_append hxs, hone, hmore, hsame]

/-! ## Places -/

/-- The place at which a fold has arrived: the nodes on the way there are being folded, and what is remembered
is right. -/
structure Standing (s : Setting) (fuel : ℕ) (path : Std.ExtTreeSet NodeId) (trail : List NodeId) (st : State) :
    Prop where
  path : ∀ x, x ∈ path ↔ x ∈ trail
  nodup : trail.Nodup
  fuel : fuel + trail.length = s.graph.nodes.size + 1
  sound : Sound s True st
  primitives : Primitives s st

theorem standing_initial (s : Setting) (deadline : Option Deadline) :
    Standing s (s.graph.nodes.size + 1) ∅ [] { deadline } where
  path := by simp
  nodup := .nil
  fuel := rfl
  sound _ _ h := by simp at h
  primitives _ _ _ _ _ _ h := by simp at h

namespace Standing

theorem below (h : Standing s (fuel + 1) path trail st) (hx : x ∉ trail) :
    Standing s fuel (path.insert x) (x :: trail) st where
  path y := by rw [Std.ExtTreeSet.mem_insert, Std.LawfulEqCmp.compare_eq_iff_eq, h.path, List.mem_cons, eq_comm]
  nodup := List.nodup_cons.2 ⟨hx, h.nodup⟩
  fuel := by
    have := h.fuel
    simp only [List.length_cons]
    omega
  sound := h.sound
  primitives := h.primitives

theorem untimed (h : Standing s fuel path trail st) : Standing s fuel path trail st.untimed := { h with }

theorem size_path (h : Standing s fuel path trail st) : path.size = trail.length := by
  rw [← Std.ExtTreeSet.length_toList]
  have hnodup : path.toList.Nodup := Std.ExtTreeSet.distinct_toList.imp fun hab he => hab (by simp [he])
  exact ((List.perm_ext_iff_of_nodup hnodup h.nodup).2 fun x => by rw [Std.ExtTreeSet.mem_toList, h.path]).length_eq

theorem above (h : Standing s fuel path trail st) (hv : Visited s trail stack x) :
    ∀ y ∈ path, TransGen s.graph.nodes.HasChild y x := fun y hy => hv.transGen ((h.path y).1 hy)

theorem mem_nodes (h : Standing s fuel path trail st) (hv : Visited s trail stack x) :
    ∀ y ∈ path, y ∈ s.graph.nodes := by
  intro y hy
  obtain ⟨z, ⟨n, hn, -⟩, -⟩ := TransGen.head'_iff.1 (h.above hv y hy)
  exact mem_iff_exists_getElem?.2 ⟨n, hn⟩

theorem exists_fuel (h : Standing s fuel path trail st) (hv : Visited s trail stack x) : ∃ k, fuel = k + 1 := by
  have hsize := size_le_of_subset (h.mem_nodes hv)
  rw [h.size_path] at hsize
  have hfuel := h.fuel
  exact ⟨fuel - 1, by omega⟩

/-- The fuel suffices below a node. -/
theorem build_eq (h : Standing s (fuel + 1) path trail st) (hv : Visited s trail stack x) (hx : x ∉ trail)
    (hn : s.graph.node? x = some n) : build s fuel (path.insert x) = build s (fuel + 1) (path.insert x) := by
  refine build_eq_of_le s _ (forall_mem_insert (mem_iff_exists_getElem?.2 ⟨n, hn⟩) (h.mem_nodes hv)) ?_
    (Nat.le_succ fuel)
  rw [size_insert_of_not_mem fun hm => hx ((h.path x).1 hm), h.size_path]
  have hfuel := h.fuel
  omega

end Standing

theorem assembled_of_build (hdeadline : st.deadline = none) (hclosed : st.closed[x]? = none)
    (hn : s.graph.node? x = some n) (hpath : path.contains x = false) (hplain : s.binders.contains x = false)
    (h : Ends (build s (fuel + 1) path stack field x) st t st') :
    ∃ ts st₁, Chain (fun p => build s fuel (path.insert x) stack p.1 p.2) (sources s n field) st ts st₁ ∧
      Assembled s True n stack false ts t := by
  rw [build, Ends, (ends_checkDeadline_none hdeadline).run_bind, Ends.run_bind (ends_get.2 ⟨rfl, rfl⟩), hclosed,
    hn] at h
  dsimp only at h
  rw [hpath, if_neg Bool.false_ne_true] at h
  obtain ⟨u, st₁, hu, h⟩ := ends_bind.1 (show Ends _ st t st' from h)
  have hut : u = t := by
    split at h
    · obtain ⟨_, st₂, -, h⟩ := ends_bind.1 h
      exact (ends_remember h).1
    · exact (ends_remember h).1
  subst hut
  rcases ends_targetTerm hu with ⟨hb, -⟩ | ⟨hb, -⟩ | ⟨-, hu⟩
  · exact absurd hb (by simp [hplain])
  · exact absurd hb (by simp [hplain])
  · obtain ⟨ts, st₂, hchain, -, ht⟩ := ends_nodeTerm hu fun _ => trivial
    exact ⟨ts, st₂, hchain, ht⟩

/-! ## What a fold comes to -/

def IsNull (s : Setting) (y : NodeId) : Prop :=
  ∃ n p, s.graph.node? y = some n ∧ n.shape = .primitive p ∧ p.isNeutral

theorem IsNull.not_hasChild {y z : NodeId} (h : IsNull s y) : ¬ s.graph.nodes.HasChild y z := by
  rintro ⟨m, hm, hz⟩
  obtain ⟨n, p, hn, hp, -⟩ := h
  obtain rfl := Option.some.inj (hn.symm.trans hm)
  simp [hp, Shape.children] at hz

theorem IsNull.not_spliceable {y : NodeId} (h : IsNull s y) : spliceable? s unionMembers? y = none := by
  obtain ⟨n, p, hn, hp, -⟩ := h
  simp [spliceable?, hn, hp, unionMembers?]

theorem nullary_of_chain (h : Chain (build s (fuel + 1) path stack field) xs st ts st') (hst : Primitives s st)
    (hxs : ∀ y ∈ xs, IsNull s y ∧ path.contains y = false) : ∀ t ∈ ts, Nullary t := by
  induction h with
  | nil => simp
  | cons hx _ ih =>
    obtain ⟨⟨n, p, hn, hp, hneutral⟩, hpath⟩ := hxs _ List.mem_cons_self
    refine List.forall_mem_cons.2 ⟨(made_of_build hx hst hn hp hpath).nullary hneutral, ?_⟩
    exact ih (primitives_of_build hx hst) fun y hy => hxs y (List.mem_cons_of_mem _ hy)

theorem Standing.derives (hst : Standing s fuel path trail st) (hx : Visited s trail stack x)
    (h : Ends (build s fuel path stack field x) st t st') : Derives s True stack x t :=
  (build_derives h hst.sound hx (fun y hy => (hst.path y).1 hy) hst.fuel (.inl trivial)).1

theorem derives_of_sources (hst : Standing s (fuel + 1) path trail st) (hv : Visited s trail stack v)
    (hn : s.graph.node? v = some n)
    (h : Chain (fun p => build s fuel (path.insert v) stack p.1 p.2) (sources s n field) st ts st') :
    ∀ c ∈ ts, ∃ y, Visited s (v :: trail) stack y ∧ Derives s True stack y c := by
  have hvis : ∀ y ∈ sourceIds s n, Visited s (v :: trail) stack y := fun y hy => .plain hv hn hy
  have hfuel := hst.fuel
  obtain ⟨-, hlen, hall⟩ := derives_of_chain (D := Derives s True stack) h
    (fun p hp st t st' h hst' _ =>
      build_derives h hst' (hvis p.2 (map_snd_sources field ▸ List.mem_map_of_mem hp))
        (mem_trail_of_contains_insert fun x hx => (hst.path x).1 hx)
        (by simp only [List.length_cons]; omega) (.inl trivial))
    (fun p _ st t st' h hw => whole_of_ends_build h hw) hst.sound (.inl trivial)
  intro c hc
  obtain ⟨i, hi, rfl⟩ := List.getElem_of_mem hc
  have hmem := List.getElem_mem (hlen ▸ hi)
  exact ⟨_, hvis _ (map_snd_sources field ▸ hmem), hall i hi (hlen ▸ hi)⟩

/-! ## The same place -/

section Beside

variable {st₁ st₂ : State} {k : ℕ} (hst : Standing s (k + 1) path trail st) (hx : Visited s trail stack x)
  (hv : Visited s trail stack v) (hn : s.graph.node? v = some n) (hchild : x ∈ n.shape.children)
  (hxx : ¬ TransGen s.graph.nodes.HasChild x x) (hvv : ¬ TransGen s.graph.nodes.HasChild v v)

include hst hv hvv in
theorem contains_eq_false : path.contains v = false := by
  rw [Bool.eq_false_iff]
  exact fun hm => hvv (hv.transGen ((hst.path v).1 hm))

include hst hv hn hvv in
theorem exists_assembled (hplain : s.binders.contains v = false) (hfresh : st.closed[v]? = none)
    (hu : Ends (build s (k + 1) path stack field v) st u st₂) :
    ∃ ts st₃, Chain (fun p => build s k (path.insert v) stack p.1 p.2) (sources s n field) st.untimed ts st₃ ∧
      Assembled s True n stack false ts u := by
  have hsame : ∀ y, ReflTransGen s.graph.nodes.HasChild v y → (y ∈ path ↔ y ∈ path) := fun _ _ => .rfl
  obtain ⟨st₃, hu⟩ := exists_ends_untimed hu (hst.above hv) hsame
  exact assembled_of_build rfl hfresh hn (contains_eq_false hst hv hvv) hplain hu

include hst hx hv hn hchild hvv in
theorem head_eq {t' : Term} (ht : Ends (build s (k + 1) path stack field x) st t st₁)
    (ht' : Ends (build s k (path.insert v) stack field x) st.untimed t' st₂) : t = t' := by
  have hout : v ∉ trail := fun hm => hvv (hv.transGen hm)
  have hsame : ∀ y, ReflTransGen s.graph.nodes.HasChild x y → (y ∈ path.insert v ↔ y ∈ path) := by
    intro y hy
    have hne : v ≠ y := fun he => hvv (.head' ⟨n, hn, hchild⟩ (he ▸ hy))
    simp [hne]
  obtain ⟨st₃, ht⟩ := exists_ends_untimed ht (hst.above hx) hsame
  rw [hst.build_eq hv hout hn] at ht'
  exact congrArg Prod.fst (Except.ok.inj (ht.symm.trans ht'))

include hst hx hv hn hvv in
/-- A reference is of the kinds of what it refers to. -/
theorem sameKinds_of_reference {symbol : String} (hshape : n.shape = .reference x symbol)
    (hplain : s.binders.contains v = false) (hfresh : st.closed[v]? = none)
    (ht : Ends (build s (k + 1) path stack field x) st t st₁)
    (hu : Ends (build s (k + 1) path stack field v) st u st₂) : SameKinds t u := by
  obtain ⟨ts, st₃, hchain, hmade⟩ := exists_assembled hst hv hn hvv hplain hfresh hu
  have hsources : sources s n field = [(field, x)] := by simp [sources, hshape, Shape.children]
  rw [hsources] at hchain
  rw [Assembled, hshape] at hmade
  cases hchain with
  | cons hhead hnil =>
    cases hnil
    obtain rfl := head_eq hst hx hv hn (by simp [hshape, Shape.children]) hvv ht hhead
    obtain ⟨digest, -, rfl⟩ := make_eq_ok hmade
    exact (sameKinds_reference rfl rfl).symm

include hst hv hn hchild hvv in
theorem nullary_of_members (hys : ∀ y ∈ ys, IsNull s y) (hprimitives : Primitives s st₁)
    (h : Chain (build s k (path.insert v) stack field) ys st₁ ds st₂) : ∀ d ∈ ds, Nullary d := by
  rw [hst.build_eq hv (fun hm => hvv (hv.transGen hm)) hn] at h
  refine nullary_of_chain h hprimitives fun y hy => ⟨hys y hy, Bool.eq_false_iff.2 fun hm => ?_⟩
  obtain ⟨z, hz⟩ : ∃ z, s.graph.nodes.HasChild y z := by
    rcases Std.ExtTreeSet.mem_insert.1 hm with he | hm
    · obtain rfl : v = y := by simpa using he
      exact ⟨x, n, hn, hchild⟩
    · obtain ⟨z, hz, -⟩ := TransGen.head'_iff.1 (hst.above hv y hm)
      exact ⟨z, hz⟩
  exact (hys y hy).not_hasChild hz

/-! ## Unions beside their members -/

include hst hx hv hn hchild hvv in
theorem unites_alone (ht : Ends (build s (k + 1) path stack field x) st t st₁)
    (h : Chain (build s k (path.insert v) stack field) [x] st.untimed ts st₂) :
    Unites t ((spliced "union" [x] ts).map Prod.snd) := by
  cases h with
  | cons hhead hnil =>
    cases hnil
    obtain rfl := head_eq hst hx hv hn hchild hvv ht hhead
    have hself : spliced "union" [x] [t] = splice "union" (x, t) := by simp [spliced]
    exact hself ▸ unites_splice (hst.derives hx ht).sits.formed.here x

variable (hS : s.digester.CollisionFree s.algorithm S)
  (henc : ∀ trail stack id t, Visited s trail stack id → Derives s True stack id t → t.encodings ⊆ S)
  (hkeyed : ∀ id n, s.graph.node? id = some n → n.id = id)

include hst hv hn hvv hS henc hkeyed in
theorem exists_members {ids : List NodeId} (hshape : n.shape = .union ids δ)
    (hplain : s.binders.contains v = false) (hfresh : st.closed[v]? = none)
    (hu : Ends (build s (k + 1) path stack field v) st u st₂) :
    ∃ ts st₃, Chain (build s k (path.insert v) stack field) (flat s unionMembers? ids) st.untimed ts st₃ ∧
      Unites u ((spliced "union" (flat s unionMembers? ids) ts).map Prod.snd) := by
  obtain ⟨ts, st₃, hchain, hassembled⟩ := exists_assembled hst hv hn hvv hplain hfresh hu
  have hlegitimate {y : NodeId} {trail : List NodeId} {c : Term} (hy : Visited s trail stack y)
      (hd : Derives s True stack y c) : Legitimate s S c :=
    ⟨hd.sits.formed.mono fun _ h => h.digested, henc _ _ _ _ hy hd⟩
  have hmembers : ∀ c ∈ (spliced "union" (flat s unionMembers? ids) ts).map Prod.snd, Legitimate s S c := by
    intro c hc
    obtain ⟨m, hm, rfl⟩ := List.mem_map.1 hc
    obtain ⟨w, hw, hsub⟩ := sub_of_mem_spliced hm
    obtain ⟨y, hy, hd⟩ := derives_of_sources hst.untimed hv hn hchain w hw
    obtain ⟨hsealed, hsubset⟩ := hlegitimate hy hd
    exact ⟨hsealed.sub hsub, hsub.encodings_subset.trans hsubset⟩
  have hsources : sources s n field = (flat s unionMembers? ids).map (field, ·) := by simp [sources, hshape]
  rw [hsources] at hchain
  rw [Assembled, hshape] at hassembled
  obtain ⟨kept, hk, hc⟩ := hassembled
  refine ⟨ts, st₃, hchain.of_map, unites_of_kept hS hk hc hmembers fun w hw => ?_⟩
  exact hlegitimate hv (.abandoned trivial (hkeyed v n hn ▸ hw))

include hst hx hn hchild hxx hvv hS henc hkeyed in
/-- A union beside the node unites what its members are folded into below the node: they contain neither of
the two, so it is all the same on the way to which of them they are folded. -/
theorem unites_members {inner : List NodeId} (hinner : spliceable? s unionMembers? x = some inner)
    (hfresh : st.closed[x]? = none) (ht : Ends (build s (k + 1) path stack field x) st t st₁)
    (h : Chain (build s k (path.insert v) stack field) (flat s unionMembers? inner) st.untimed ts st₂) :
    Unites t ((spliced "union" (flat s unionMembers? inner) ts).map Prod.snd) := by
  obtain ⟨m, hm, hmembers⟩ := exists_of_spliceable hinner
  obtain ⟨δ, hshape⟩ := exists_union_of_unionMembers hmembers
  obtain ⟨ts', st₃, hchain, hunites⟩ := exists_members hst hx hm hxx hS henc hkeyed hshape
    (plain_of_spliceable hinner) hfresh ht
  have hbelow : ∀ z ∈ flat s unionMembers? inner, TransGen s.graph.nodes.HasChild x z := by
    intro z hz
    refine below_of_mem_sourceIds hm ?_
    simpa [sourceIds, sources, hshape] using hz
  have habove : ∀ z ∈ flat s unionMembers? inner, ∀ y ∈ path.insert x, TransGen s.graph.nodes.HasChild y z := by
    intro z hz y hy
    rcases Std.ExtTreeSet.mem_insert.1 hy with he | hy
    · obtain rfl : x = y := by simpa using he
      exact hbelow z hz
    · exact (hst.above hx y hy).trans (hbelow z hz)
  have hsame : ∀ y, Beneath s (flat s unionMembers? inner) y → (y ∈ path.insert v ↔ y ∈ path.insert x) := by
    rintro y ⟨z, hz, hzy⟩
    have hxy := (hbelow z hz).trans_left hzy
    have hne : x ≠ y := fun he => hxx (he ▸ hxy)
    have hne' : v ≠ y := fun he => hvv (.head ⟨n, hn, hchild⟩ (he ▸ hxy))
    simp [hne, hne']
  obtain ⟨st₄, hchain⟩ := chain_untimed hchain habove hsame
  exact hchain.unique h ▸ hunites

include hst hx hv hn hxx hvv hS henc hkeyed in
/-- A union of a type with null is of the kinds of the type, unless this has no values. -/
theorem sameKinds_of_union {rest : List NodeId} (hshape : n.shape = .union (x :: rest) δ)
    (hrest : ∀ y ∈ rest, IsNull s y) (hplain : s.binders.contains v = false)
    (hfresh : st.closed[v]? = none) (hfresh' : (spliceable? s unionMembers? x).isSome → st.closed[x]? = none)
    (ht : Ends (build s (k + 1) path stack field x) st t st₁)
    (hu : Ends (build s (k + 1) path stack field v) st u st₂) (hsome : t.kinds? ≠ some []) :
    SameKinds t u := by
  have hchild : x ∈ n.shape.children := by simp [hshape, Shape.children]
  have hlone : ∀ y ∈ rest, spliceable? s unionMembers? y = none := fun y hy => (hrest y hy).not_spliceable
  obtain ⟨front, hflat, hfront⟩ : ∃ front, flat s unionMembers? (x :: rest) = front ++ rest ∧
      ∀ ts st₃, Chain (build s k (path.insert v) stack field) front st.untimed ts st₃ →
        Unites t ((spliced "union" front ts).map Prod.snd) := by
    cases hinner : spliceable? s unionMembers? x with
    | none =>
      refine ⟨[x], flat_eq_self (List.forall_mem_cons.2 ⟨hinner, hlone⟩), fun ts st₃ h => ?_⟩
      exact unites_alone hst hx hv hn hchild hvv ht h
    | some inner =>
      refine ⟨flat s unionMembers? inner, flat_cons hinner hxx hlone, fun ts st₃ h => ?_⟩
      exact unites_members hst hx hn hchild hxx hvv hS henc hkeyed hinner (hfresh' (by simp [hinner])) ht h
  obtain ⟨us, st₃, hchain, hunites⟩ := exists_members hst hv hn hvv hS henc hkeyed hshape hplain hfresh hu
  rw [hflat] at hchain hunites
  obtain ⟨ts, ds, st₄, rfl, hhead, hnulls⟩ := hchain.append
  have hprimitives : Primitives s st₄ :=
    hhead.preserves (fun _ _ _ _ _ h => primitives_of_build h) hst.untimed.primitives
  have hds := nullary_of_members hst hv hn hchild hvv hrest hprimitives hnulls
  rw [map_snd_spliced_append hhead.length hnulls.length hds] at hunites
  exact (hfront ts st₄ hhead).sameKinds hunites hds hsome

end Beside

end Folding

namespace Graph

open Folding

variable {d : Digester} {a : Algorithm} {g : Graph} {x v owner : NodeId}

/-- The type at the second node is that at the first one, behind a reference or in a union with null. -/
inductive Widens (d : Digester) (a : Algorithm) (g : Graph) (x v : NodeId) : Prop
  | reference {n : Node} {symbol : String} (hn : g.node? v = some n) (hshape : n.shape = .reference x symbol)
  | nullable {n : Node} {rest : List NodeId} {δ : Option Discriminant} (hn : g.node? v = some n)
      (hshape : n.shape = .union (x :: rest) δ) (hrest : ∀ y ∈ rest, IsNull (g.setting d a) y)

/-- Around a type that does not contain itself, a reference or a union with null does not either. -/
theorem Widens.acyclic (h : g.Widens d a x v) (hx : ¬ TransGen g.nodes.HasChild x x) :
    ¬ TransGen g.nodes.HasChild v v := by
  intro hcycle
  obtain ⟨y, ⟨m, hm, hy⟩, hback⟩ := TransGen.head'_iff.1 hcycle
  cases h with
  | @reference n symbol hn hshape =>
    obtain rfl := Option.some.inj (hm.symm.trans hn)
    obtain rfl : y = x := by simpa [hshape, Shape.children] using hy
    exact hx (.tail' hback ⟨m, hm, hy⟩)
  | @nullable n rest δ hn hshape hrest =>
    obtain rfl := Option.some.inj (hm.symm.trans hn)
    have hchildren : m.shape.children = x :: rest := by rw [hshape]; rfl
    rcases List.mem_cons.1 (hchildren ▸ hy) with rfl | hy'
    · exact hx (.tail' hback ⟨m, hm, hy⟩)
    · rcases ReflTransGen.cases_head hback with rfl | ⟨z, hz, -⟩
      · exact (hrest y hy').not_hasChild ⟨m, hm, hy⟩
      · exact (hrest y hy').not_hasChild hz

/-- The tags of a field are checked against its type through references and but for null: at one place, a
field of a type, one of a reference to it and one of a union of it with null have the same tags rejected,
provided that the type has values. No recursive reference may lead to the union, since it would lead nowhere
from the type alone, and what stands in the field must not have been folded at another place. -/
theorem checkTags_widened {fuel : ℕ} {path : Std.ExtTreeSet NodeId} {trail stack : List NodeId}
    {field : String} {tags : List Tag} {t u : Term} {st st₁ st₂ st₁' st₂' : State} {w w' : Unit}
    (hfree : d.CollisionFree a (g.texts d a)) (hkeyed : ∀ id n, g.node? id = some n → n.id = id)
    (hst : Standing (g.setting d a) fuel path trail st) (hx : Visited (g.setting d a) trail stack x)
    (hv : Visited (g.setting d a) trail stack v) (hwidens : g.Widens d a x v)
    (hacyclic : ¬ TransGen g.nodes.HasChild x x) (hplain : v ∉ g.binders) (hfresh : st.closed[v]? = none)
    (hfresh' : (spliceable? (g.setting d a) unionMembers? x).isSome → st.closed[x]? = none)
    (ht : Ends (build (g.setting d a) fuel path stack (some field) x) st t st₁)
    (hu : Ends (build (g.setting d a) fuel path stack (some field) v) st u st₂) (hsome : t.kinds? ≠ some [])
    (htags : Ends (checkTags (g.setting d a) tags t owner (some field) false) st₁ w st₁')
    (hutags : Ends (checkTags (g.setting d a) tags u owner (some field) false) st₂ w' st₂') :
    ∃ type type', st₁' = reject (g.setting d a) owner field type (tags.filter (clashes t)) st₁ ∧
      st₂' = reject (g.setting d a) owner field type' (tags.filter (clashes t)) st₂ := by
  obtain ⟨k, rfl⟩ := hst.exists_fuel hx
  have hbinder : (g.setting d a).binders.contains v = false := Bool.eq_false_iff.2 hplain
  have hcyclic' := hwidens.acyclic hacyclic
  have hsame : SameKinds t u := by
    cases hwidens with
    | reference hn hshape => exact sameKinds_of_reference hst hx hv hn hcyclic' hshape hbinder hfresh ht hu
    | nullable hn hshape hrest =>
      exact sameKinds_of_union hst hx hv hn hacyclic hcyclic' hfree
        (fun _ _ _ _ hv hd _ h => .inl ⟨_, _, _, _, hv, hd, h⟩) hkeyed hshape hrest hbinder hfresh hfresh' ht hu
        hsome
  obtain ⟨type, htype⟩ := exists_reject htags
  obtain ⟨type', htype'⟩ := exists_reject hutags
  exact ⟨type, type', htype, clashes_eq hsame ▸ htype'⟩

theorem keyed_of_all (h : (g.nodes.toList.all fun p => p.2.id == p.1) = true) (id : NodeId) (n : Node)
    (hn : g.node? id = some n) : n.id = id :=
  eq_of_beq (List.all_eq_true.1 h (id, n) (Std.ExtTreeMap.mem_toList_iff_getElem?_eq_some.2 hn))

/-- A book with a title, and with a subtitle that may be null. -/
def book : Node := ⟨"Book", .object [⟨"subtitle", "U", false, false, [], none⟩,
  ⟨"title", "S", false, false, [], none⟩], [], none⟩

def titled : Graph := ofNodes "Book" [book, ⟨"S", .primitive .string, [], none⟩,
  ⟨"U", .union ["S", "N"] none, [], none⟩, ⟨"N", .primitive .null, [], none⟩]

def atLeastOne : Tag := { name := "min", rawArguments := "1", parsed := some [("value", .number (.int 1))] }

/-- The type of a field of the book is folded into one of texts, and the check of its tag ends. -/
def folds (id : NodeId) : Bool :=
  ((build (titled.setting .legible .sha256) 4 ((∅ : Std.ExtTreeSet NodeId).insert "Book") [] (some "title")
    id).run {}).toOption.any fun p => p.1.kinds? == some ["string"] &&
      ((checkTags (titled.setting .legible .sha256) [atLeastOne] p.1 "Book" (some "title") false).run
        p.2).toOption.isSome

theorem exists_ends_of_folds (id : NodeId) (h : folds id = true) : ∃ t st st',
    Ends (build (titled.setting .legible .sha256) 4 ((∅ : Std.ExtTreeSet NodeId).insert "Book") [] (some "title")
      id) {} t st ∧ t.kinds? = some ["string"] ∧
      Ends (checkTags (titled.setting .legible .sha256) [atLeastOne] t "Book" (some "title") false) st ⟨⟩ st' := by
  obtain ⟨⟨t, st⟩, hbuild, hboth⟩ := (Option.any_eq_true _ _).1 h
  obtain ⟨hkinds, hchecks⟩ := Bool.and_eq_true_iff.1 hboth
  obtain ⟨⟨_, st'⟩, hcheck⟩ := Option.isSome_iff_exists.1 hchecks
  exact ⟨t, st, st', ends_of_toOption hbuild, eq_of_beq hkinds, ends_of_toOption hcheck⟩

/-- A least number is rejected for a title, be it one that may be null or not. -/
theorem checkTags_widened_titled : ∃ t u st₁ st₂ st₁' st₂' type type',
    Ends (build (titled.setting .legible .sha256) 4 ((∅ : Std.ExtTreeSet NodeId).insert "Book") [] (some "title")
      "S") {} t st₁ ∧
    Ends (build (titled.setting .legible .sha256) 4 ((∅ : Std.ExtTreeSet NodeId).insert "Book") [] (some "title")
      "U") {} u st₂ ∧
    Ends (checkTags (titled.setting .legible .sha256) [atLeastOne] t "Book" (some "title") false) st₁ ⟨⟩ st₁' ∧
    Ends (checkTags (titled.setting .legible .sha256) [atLeastOne] u "Book" (some "title") false) st₂ ⟨⟩ st₂' ∧
    st₁' = reject (titled.setting .legible .sha256) "Book" "title" type [atLeastOne] st₁ ∧
    st₂' = reject (titled.setting .legible .sha256) "Book" "title" type' [atLeastOne] st₂ := by
  obtain ⟨t, st₁, st₁', ht, hkinds, htags⟩ := exists_ends_of_folds "S" (by decide +kernel)
  obtain ⟨u, st₂, st₂', hu, -, hutags⟩ := exists_ends_of_folds "U" (by decide +kernel)
  have hbook : titled.node? "Book" = some book := by decide +kernel
  have hsources : sourceIds (titled.setting .legible .sha256) book = ["U", "S"] := rfl
  have hst : Standing (titled.setting .legible .sha256) 4 _ ["Book"] {} :=
    (standing_initial (titled.setting .legible .sha256) none).below (by simp)
  have hclash : [atLeastOne].filter (clashes t) = [atLeastOne] :=
    List.filter_cons_of_pos (by simp [clashes, hkinds, atLeastOne]; decide)
  have hacyclic : ¬ TransGen titled.nodes.HasChild "S" "S" := fun hcycle => by
    obtain ⟨y, ⟨n, hn, hy⟩, -⟩ := TransGen.head'_iff.1 hcycle
    obtain rfl := Option.some.inj (hn.symm.trans (by decide +kernel : _ = some ⟨"S", .primitive .string, [], none⟩))
    cases hy
  have hwidens : titled.Widens .legible .sha256 "S" "U" :=
    .nullable (by decide +kernel : _ = some ⟨"U", .union ["S", "N"] none, [], none⟩) rfl fun y hy =>
      List.mem_singleton.1 hy ▸ ⟨⟨"N", .primitive .null, [], none⟩, .null, by decide +kernel, rfl, rfl⟩
  obtain ⟨type, type', htype, htype'⟩ := checkTags_widened (Digester.legible_collisionFree .sha256 _)
    (keyed_of_all (by decide +kernel)) hst (.plain .root hbook (hsources ▸ by simp))
    (.plain .root hbook (hsources ▸ by simp)) hwidens hacyclic (by decide +kernel) (by simp) (by simp) ht hu
    (by simp [hkinds]) htags hutags
  exact ⟨t, u, st₁, st₂, st₁', st₂', type, type', ht, hu, htags, hutags, hclash ▸ htype, hclash ▸ htype'⟩

end Graph

end TypeAtlas
