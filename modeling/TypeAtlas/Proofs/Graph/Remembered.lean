import TypeAtlas.Proofs.Graph.Covered
import TypeAtlas.Proofs.Graph.NormalForm
import TypeAtlas.Proofs.Graph.Plain

/-! # Remembered digests

The hash of a graph remembers digests of nodes, and recalls them wherever such a node is used again. It
is the plain hash of the tree into which the graph unfolds: what is remembered refers to nothing above,
and the heights tell so.
-/

namespace TypeAtlas

open Relation

/-! ## Nodes that are named -/

section Stacks

variable {α : Type} {p : α → Bool} {flags : List Bool} {k : ℕ}

theorem idxOf?_filter [BEq α] [LawfulBEq α] {l : List α} {x : α} (h : l.idxOf? x = some k) (hx : p x) :
    (l.filter p).idxOf? x = some (((l.map p).take k).count true) := by
  induction l generalizing k with
  | nil => cases h
  | cons y l ih =>
    rw [List.idxOf?_cons] at h
    by_cases he : y = x
    · subst he
      obtain rfl : 0 = k := by simpa using h
      simp [hx, List.idxOf?_cons]
    · simp only [beq_eq_false_iff_ne.2 he, Bool.false_eq_true, if_false] at h
      obtain ⟨j, hj, rfl⟩ := Option.map_eq_some_iff.1 h
      have hrest := ih hj
      cases hy : p y <;> simp [hy, List.idxOf?_cons, he, hrest]

theorem length_filter (l : List α) : (l.filter p).length = (l.map p).count true := by
  rw [← List.countP_eq_length_filter, List.count_eq_countP, List.countP_map]
  exact List.countP_congr fun x _ => by simp

theorem count_of_getElem? (h : flags[k]? = some true) :
    flags.count true = (flags.take k).count true + ((flags.drop (k + 1)).count true + 1) := by
  obtain ⟨hk, he⟩ := List.getElem?_eq_some_iff.1 h
  conv_lhs => rw [← List.take_append_drop k flags, List.drop_eq_getElem_cons hk]
  rw [List.count_append, List.count_cons, he]
  rfl

end Stacks

variable {A : Arena} {g : Graph} {trail : List NodeId} {id x r : NodeId} {t : Tree} {n : Node} {k : ℕ}

namespace Arena.Unfolds

theorem grounded (h : A.Unfolds trail id t) : A.Grounded id := (Arena.scoped_of_unfolds h).grounded

theorem exists_target (h : A.Unfolds trail id t) (hk : t.names k) :
    ∃ (x r : NodeId) (n : Node), (id :: trail)[k]? = some x ∧ A[r]? = some n ∧
      n.shape.recursionTarget? = some x := by
  induction h generalizing k with
  | @mk trail id n ts hn _ hlen _ ih =>
    rcases Tree.names_node.1 hk with hk | ⟨t, ht, hk⟩
    · obtain ⟨x, hx, hidx⟩ := Option.bind_eq_some_iff.1 hk
      obtain ⟨hlt, he, -⟩ := List.idxOf?_eq_some_iff.1 hidx
      exact ⟨x, id, n, List.getElem?_eq_some_iff.2 ⟨hlt, he⟩, hn, hx⟩
    · obtain ⟨i, hi, rfl⟩ := List.getElem_of_mem ht
      obtain ⟨x, r, m, hx, hm⟩ := ih _ (getElem_mem_zip hlen hi) hk
      exact ⟨x, r, m, by simpa using hx, hm⟩

/-- A recursive reference below a node names in its tree what it names in the arena. -/
theorem names_of_reaches (h : A.Unfolds trail id t) (hr : ReflTransGen A.HasChild id r)
    (hn : A[r]? = some n) (hx : n.shape.recursionTarget? = some x) (hid : ReflTransGen A.HasChild x id)
    (hacyclic : ¬ TransGen A.HasChild x x) (hk : (id :: trail).idxOf? x = some k) : t.names k := by
  induction hr using ReflTransGen.head_induction_on generalizing trail t k with
  | refl =>
    cases h with
    | mk hm _ _ _ =>
      obtain rfl := Option.some.inj (hm.symm.trans hn)
      exact Tree.names_node.2 (.inl (by simp [Node.label, hx, hk]))
  | @head y c hc _ ih =>
    -- The target is above, so it is not met again on the way down.
    have hne : c ≠ x := fun he => hacyclic (.tail' hid (he ▸ hc))
    have hbelow : (c :: y :: trail).idxOf? x = some (k + 1) := by
      rw [List.idxOf?_cons, if_neg (by simpa using hne), hk, Option.map_some]
    have hc' := hid.tail hc
    cases h with
    | @mk _ _ m ts hm _ hlen hchild =>
      obtain ⟨m', hm', hmem⟩ := hc
      obtain rfl := Option.some.inj (hm'.symm.trans hm)
      obtain ⟨i, hi, rfl⟩ := List.getElem_of_mem hmem
      have hpair := getElem_mem_zip hlen (hlen ▸ hi)
      exact Tree.names_node.2 (.inr ⟨_, List.getElem_mem _, ih (hchild _ hpair) hc' hbelow⟩)

end Arena.Unfolds

/-- A recursive reference that names something below the root stands itself below what it names. -/
def Graph.RefersUp (g : Graph) : Prop :=
  ∀ id n x, g.node? id = some n → n.shape.recursionTarget? = some x →
    ReflTransGen g.nodes.HasChild g.root x → ReflTransGen g.nodes.HasChild x id

/-- So it is if nothing is filed beside what the root is built from. -/
theorem Graph.refersUp_of_reached (hg : g.nodes.Scoped ∅ g.root)
    (h : ∀ id ∈ g.nodes, ReflTransGen g.nodes.HasChild g.root id) : g.RefersUp := by
  intro id n x hn hx _
  obtain ⟨trail, hroute⟩ := exists_route (h id (mem_iff_exists_getElem?.2 ⟨n, hn⟩))
  cases scoped_of_route hg hroute with
  | mk hm ht _ =>
    obtain rfl := Option.some.inj (hm.symm.trans hn)
    rcases ht x hx with rfl | hmem
    · exact .refl
    · exact (hroute.transGen hmem).to_reflTransGen

/-- Which nodes of a way are recursion targets. -/
def Graph.flags (g : Graph) (trail : List NodeId) : List Bool := trail.map g.binders.contains

theorem Graph.flag_of_names (ht : g.nodes.Unfolds trail id t) (hk : t.names (k + 1)) :
    (g.flags trail)[k]? = some true := by
  obtain ⟨x, r, m, hx, hm, hr⟩ := ht.exists_target hk
  have hbinder : g.binders.contains x := Std.ExtTreeSet.contains_iff_mem.2 (mem_binders.2 ⟨r, m, hm, hr⟩)
  rw [List.getElem?_cons_succ] at hx
  rw [flags, List.getElem?_map, hx, Option.map_some, hbinder]

/-- The trees of nodes that recursive references name are those that are named from below. -/
theorem Graph.RefersUp.names_zero (hg : g.RefersUp) (hroute : g.Route trail id)
    (ht : g.nodes.Unfolds trail id t) : t.names 0 = g.binders.contains id := by
  rw [Bool.eq_iff_iff, Std.ExtTreeSet.contains_iff_mem, mem_binders]
  constructor
  · intro h
    obtain ⟨x, r, n, hx, hn, hr⟩ := ht.exists_target h
    obtain rfl : id = x := by simpa using hx
    exact ⟨r, n, hn, hr⟩
  · rintro ⟨r, n, hn, hr⟩
    exact ht.names_of_reaches (hg r n id hn hr hroute.reaches) hn hr .refl ht.grounded.acyclic
      (by simp [List.idxOf?_cons])

/-! ## Steps of a hash -/

namespace Hasher

variable {s : Setting} {st : State} {α β γ δ : Type} {R : α → β → Prop} {Q : γ → δ → Prop} {b b' : Bool}
  {flags : List Bool} {visit : NodeId → M (String × Heights)}
  {ts : List Tree}

/-- What is remembered are the plain digests of nodes that refer to nothing above. If a recursion below
such a node is unresolved, it has been reported. -/
def Remembers (s : Setting) (st : State) : Prop :=
  ∀ id x, st.closed[id]? = some x → ∃ t, s.graph.nodes.Unfolds [] id t ∧ t.Within 0 ∧
    t.digest s.digester s.algorithm [] = .ok x ∧ (t.unresolved → Faulty st)

/-- Steps come to what goes with a plain computation, or to its fault, and report an error if told so. -/
def Computes (s : Setting) (R : α → β → Prop) (m : M α) (e : Except Json.WriteError β) (b : Bool) : Prop :=
  ∀ st, Remembers s st → Parallel Never (fun p y => R p.1 y ∧ Remembers s p.2 ∧
    p.2.sink.hasErrors = (st.sink.hasErrors || b)) (m.run st) e

theorem computes_pure {x : α} {y : β} (h : R x y) : Computes s R (pure x) (.ok y) false :=
  fun _ hst => .ok ⟨h, hst, (Bool.or_false _).symm⟩

theorem Computes.bind {m : M α} {e : Except Json.WriteError β} {f : α → M γ}
    {f' : β → Except Json.WriteError δ} (hm : Computes s R m e b)
    (hf : ∀ x y, R x y → Computes s Q (f x) (f' y) b') : Computes s Q (m >>= f) (e >>= f') (b || b') := by
  intro st hst
  rw [StateT.run_bind]
  refine (hm st hst).bind fun p y ⟨hR, hst', he⟩ => ?_
  have hrest := hf _ _ hR p.2 hst'
  rwa [he, Bool.or_assoc] at hrest

theorem Computes.map {m : M α} {e : Except Json.WriteError β} (f : α → γ) (f' : β → δ)
    (hm : Computes s R m e b) (hf : ∀ x y, R x y → Q (f x) (f' y)) :
    Computes s Q (do return f (← m)) (f' <$> e) b := by
  have h := hm.bind fun x y hR => computes_pure (s := s) (hf x y hR)
  rwa [Bool.or_false] at h

theorem computes_unstable (detail : String) (id : NodeId) :
    Computes s (fun _ _ => True) (unstable s detail id) (.ok ()) true := by
  intro st hst
  have hf := faulty_of_unstable (s := s) (u := ()) (ends_modify.2 rfl : Ends (unstable s detail id) st () _)
  refine .ok ⟨trivial, fun id x hx => ?_, by rw [Bool.or_true]; exact hf⟩
  obtain ⟨t, ht, hwithin, hdigest, -⟩ := hst id x hx
  exact ⟨t, ht, hwithin, hdigest, fun _ => hf⟩

/-- The plain digest of a tree, and the heights of what the tree names above. -/
def Digests (flags : List Bool) (t : Tree) (q : String × Heights) (x : String) : Prop :=
  q.1 = x ∧ ∀ k, t.names (k + 1) → (flags.drop (k + 1)).count true ∈ q.2

theorem computes_mapM {node : γ → NodeId} {tree : γ → Tree} {ps : List γ}
    (h : ∀ p ∈ ps, Computes s (Digests flags (tree p)) (visit (node p))
      ((tree p).digest s.digester s.algorithm flags) (tree p).unresolved) :
    Computes s (fun qs xs => (together qs).1 = xs ∧ ∀ p ∈ ps, ∀ k, (tree p).names (k + 1) →
        (flags.drop (k + 1)).count true ∈ (together qs).2)
      (ps.mapM fun p => visit (node p)) (ps.mapM fun p => (tree p).digest s.digester s.algorithm flags)
      (ps.any fun p => (tree p).unresolved) := by
  induction ps with
  | nil => exact computes_pure ⟨rfl, by simp⟩
  | cons p ps ih =>
    obtain ⟨hp, hps⟩ := List.forall_mem_cons.1 h
    rw [List.mapM_cons, List.mapM_cons, List.any_cons]
    refine hp.bind fun q x ⟨hx, hq⟩ => (ih hps).map _ _ fun qs xs ⟨hxs, hqs⟩ => ⟨?_, ?_⟩
    · rw [← hx, ← hxs]
      rfl
    · simp only [mem_together, List.mem_cons, exists_eq_or_imp, forall_eq_or_imp] at hqs ⊢
      exact ⟨fun k hk => .inl (hq k hk), fun p hp k hk => .inr (hqs p hp k hk)⟩

/-- The content of a node, the digests below it, and the heights of what its tree names. -/
def Gathers (flags : List Bool) (l : Label) (ts : List Tree)
    (p : List (String × Datum) × List String × Heights) (xs : List String) : Prop :=
  p.1 = l.payload flags ∧ p.2.1 = xs ∧
    ∀ k, (Tree.node l ts).names k → (flags.drop (k + 1)).count true ∈ p.2.2

/-- The parts of a node without a target are those of its children, taken in some order. -/
theorem computes_below (visit : NodeId → M (String × Heights)) {l : Label} {node : γ → NodeId}
    {tree : γ → Tree} {ps : List γ} {payload : List (String × Datum)} (f : List String → List String)
    (h : ∀ p ∈ ps, Computes s (Digests flags (tree p)) (visit (node p))
      ((tree p).digest s.digester s.algorithm flags) (tree p).unresolved)
    (htarget : l.target = none) (hpayload : payload = l.payload flags) (hps : (ps.map tree).Perm ts) :
    Computes s (Gathers flags l ts)
      (do
        let below := together (← ps.mapM fun p => visit (node p))
        return (payload, f below.1, below.2))
      (f <$> ps.mapM fun p => (tree p).digest s.digester s.algorithm flags) (ts.any Tree.unresolved) := by
  rw [← hps.any_eq, List.any_map]
  refine (computes_mapM h).map (fun qs => (payload, f (together qs).1, (together qs).2)) f
    fun qs xs ⟨hxs, hqs⟩ => ⟨hpayload, congrArg f hxs, fun k hk => ?_⟩
  rcases Tree.names_node.1 hk with hk | ⟨t, ht, hk⟩
  · rw [htarget] at hk
    cases hk
  · obtain ⟨p, hp, rfl⟩ := List.mem_map.1 (hps.mem_iff.2 ht)
    exact hqs p hp k hk

section Parts

variable {l : Label} {payload : List (String × Datum)}

theorem computes_children {cs : List NodeId} (f : List String → List String) (hlen : cs.length = ts.length)
    (hvisit : ∀ p ∈ cs.zip ts, Computes s (Digests flags p.2) (visit p.1)
      (p.2.digest s.digester s.algorithm flags) p.2.unresolved)
    (htarget : l.target = none) (hpayload : payload = l.payload flags) :
    Computes s (Gathers flags l ts)
      (do
        let below := together (← cs.mapM visit)
        return (payload, f below.1, below.2))
      (f <$> (ts.map (Tree.digest s.digester s.algorithm flags)).mapM fun x => x)
      (ts.any Tree.unresolved) := by
  have hcs : (cs.zip ts).map Prod.fst = cs := List.map_fst_zip hlen.le
  have hts : (cs.zip ts).map Prod.snd = ts := List.map_snd_zip hlen.ge
  have h := computes_below visit f hvisit htarget hpayload (.of_eq hts)
  have hnodes : (cs.zip ts).mapM (fun p => visit p.1) = cs.mapM visit := by
    conv_rhs => rw [← hcs, List.mapM_map]
    rfl
  have htrees : ((cs.zip ts).mapM fun p => p.2.digest s.digester s.algorithm flags) =
      (ts.map (Tree.digest s.digester s.algorithm flags)).mapM fun x => x := by
    conv_rhs => rw [← hts, List.mapM_map, List.mapM_map]
    rfl
  rwa [hnodes, htrees] at h

theorem computes_fields {fs : List Field} (hlen : fs.length = ts.length)
    (hvisit : ∀ p ∈ (fs.map Field.type).zip ts, Computes s (Digests flags p.2) (visit p.1)
      (p.2.digest s.digester s.algorithm flags) p.2.unresolved)
    (hshape : l.shape = .object (fs.map fun f => { f with type := "" })) (htarget : l.target = none) :
    Computes s (Gathers flags l ts)
      (do
        let below := together (← (sortFields fs).mapM fun f => visit f.type)
        return ([("fields", .list ((sortFields fs).map fun f =>
          fieldPayload f.name f.optional f.readonly f.tags))], below.1, below.2))
      (l.arrange (ts.map (Tree.digest s.digester s.algorithm flags))) (ts.any Tree.unresolved) := by
  set ps := Label.byName (fs.zip ts) with hps
  have hfields : ps.map Prod.fst = sortFields fs := by
    rw [hps, Label.map_fst_byName, List.map_fst_zip hlen.le]
  have htrees : (ps.map Prod.snd).Perm ts := by
    have hsort := (Label.byName_perm (fs.zip ts)).map Prod.snd
    rwa [List.map_snd_zip hlen.ge] at hsort
  have hpayload : [("fields", Datum.list ((sortFields fs).map fun f =>
      fieldPayload f.name f.optional f.readonly f.tags))] = l.payload flags := by
    simp only [Label.payload, hshape, sortFields_map (φ := fun f => { f with type := "" }) fun _ => rfl,
      List.map_map, Function.comp_def]
  have hnodes : (ps.mapM fun p => visit p.1.type) = (sortFields fs).mapM fun f => visit f.type := by
    rw [← hfields, List.mapM_map]
    rfl
  have harrange : l.arrange (ts.map (Tree.digest s.digester s.algorithm flags)) =
      ps.mapM fun p => p.2.digest s.digester s.algorithm flags := by
    simp only [Label.arrange, hshape, List.zip_map]
    rw [Label.byName_map (φ := fun f => { f with type := "" }) fun _ => rfl, List.mapM_map]
    rfl
  have hvisit' : ∀ p ∈ ps, Computes s (Digests flags p.2) (visit p.1.type)
      (p.2.digest s.digester s.algorithm flags) p.2.unresolved := by
    intro p hp
    refine hvisit (p.1.type, p.2) ?_
    rw [List.zip_map_left]
    exact List.mem_map.2 ⟨p, (Label.byName_perm _).mem_iff.1 hp, rfl⟩
  have h := computes_below visit (fun ds => ds) hvisit' htarget hpayload htrees
  rw [harrange]
  rwa [hnodes, id_map'] at h

end Parts

section Nodes

variable {d : Digester} {a : Algorithm}

/-- A recursive reference is covered by the number of targets on the way to its own. -/
theorem computes_recursion {target : NodeId} {symbol : String} (hn : g.node? id = some n)
    (hs : n.shape = .recursiveRef target symbol) (ht : target ∈ id :: trail) :
    Computes ⟨d, a, g, g.binders⟩ (Gathers (g.flags (id :: trail)) (n.label (id :: trail)) [])
      (match (g.targets (id :: trail)).idxOf? target with
        | none => do
          unstable ⟨d, a, g, g.binders⟩ ("dangling recursive reference to " ++ symbol) n.id
          return (recursionPayload none, [], ∅)
        | some depth => return (recursionPayload (some depth), [],
          Std.ExtTreeSet.ofList [(g.targets (id :: trail)).length - 1 - depth]))
      (.ok []) false := by
  obtain ⟨k, hk⟩ := Option.isSome_iff_exists.1 (List.isSome_idxOf?.2 ht)
  have hbinder : g.binders.contains target :=
    Std.ExtTreeSet.contains_iff_mem.2 (Graph.mem_binders.2 ⟨id, n, hn, by rw [hs]; rfl⟩)
  have htarget : (n.label (id :: trail)).target = some k := by
    simp [Node.label, hs, Shape.recursionTarget?, hk]
  rw [Graph.targets, idxOf?_filter hk hbinder]
  refine computes_pure ⟨?_, rfl, fun j hj => ?_⟩
  · rw [Label.payload, htarget, ← Graph.flags]
    simp [Node.label, hs, Shape.blank]
  · obtain rfl : k = j := by simpa [Tree.names_node, htarget] using hj
    obtain ⟨hlt, he, -⟩ := List.idxOf?_eq_some_iff.1 hk
    have hflag : (g.flags (id :: trail))[k]? = some true := by
      rw [Graph.flags, List.getElem?_map, List.getElem?_eq_getElem hlt, he, Option.map_some, hbinder]
    have hcount := count_of_getElem? hflag
    rw [length_filter, Std.ExtTreeSet.mem_ofList, List.contains_iff_mem, List.mem_singleton, ← Graph.flags]
    omega

theorem computes_parts (visit : NodeId → M (String × Heights)) (hn : g.node? id = some n)
    (ht : ∀ x, n.shape.recursionTarget? = some x → x ∈ id :: trail)
    (hlen : n.shape.children.length = ts.length)
    (hvisit : ∀ p ∈ n.shape.children.zip ts, Computes ⟨d, a, g, g.binders⟩
      (Digests (g.flags (id :: trail)) p.2) (visit p.1) (p.2.digest d a (g.flags (id :: trail))) p.2.unresolved) :
    Computes ⟨d, a, g, g.binders⟩ (Gathers (g.flags (id :: trail)) (n.label (id :: trail)) ts)
      (parts ⟨d, a, g, g.binders⟩ n (g.targets (id :: trail)) visit)
      ((n.label (id :: trail)).arrange (ts.map (Tree.digest d a (g.flags (id :: trail)))))
      (Tree.node (n.label (id :: trail)) ts).unresolved := by
  have hleaf {payload : List (String × Datum)} (hts : ts = [])
      (htarget : (n.label (id :: trail)).target = none)
      (hpayload : payload = (n.label (id :: trail)).payload (g.flags (id :: trail))) :
      Computes ⟨d, a, g, g.binders⟩ (Gathers (g.flags (id :: trail)) (n.label (id :: trail)) ts)
        (pure (payload, [], ∅)) (.ok []) false :=
    computes_pure ⟨hpayload, rfl, fun k hk => by simp [Tree.names_node, htarget, hts] at hk⟩
  have hplain {cs : List NodeId} (hcs : n.shape.children = cs)
      (htarget : (n.label (id :: trail)).target = none)
      (hpayload : [] = (n.label (id :: trail)).payload (g.flags (id :: trail))) :
      Computes ⟨d, a, g, g.binders⟩ (Gathers (g.flags (id :: trail)) (n.label (id :: trail)) ts)
        (do
          let below := together (← cs.mapM visit)
          return ([], below.1, below.2))
        ((ts.map (Tree.digest d a (g.flags (id :: trail)))).mapM fun x => x) (ts.any Tree.unresolved) := by
    subst hcs
    have h := computes_children (fun ds => ds) hlen hvisit htarget hpayload
    rwa [id_map'] at h
  rw [Tree.unresolved_node]
  unfold parts
  obtain ⟨own, shape, tags, location⟩ := n
  cases shape with
  | recursiveRef target symbol =>
    obtain rfl := List.length_eq_zero_iff.1 hlen.symm
    exact computes_recursion hn rfl (ht target rfl)
  | unknown reason cause =>
    obtain rfl := List.length_eq_zero_iff.1 hlen.symm
    dsimp only
    by_cases hcause : cause = .recursion
    · subst hcause
      exact (computes_unstable _ _).bind fun _ _ _ => hleaf rfl rfl rfl
    · rw [if_neg hcause]
      cases cause with
      | recursion => exact absurd rfl hcause
      | _ => exact hleaf rfl rfl rfl
  | object fs => exact computes_fields (by simpa [Shape.children] using hlen) hvisit rfl rfl
  | union ms δ => exact computes_children sortDigests hlen hvisit rfl rfl
  | intersection ms => exact computes_children sortDigests hlen hvisit rfl rfl
  | array e => exact hplain rfl rfl rfl
  | tuple es => exact hplain rfl rfl rfl
  | reference target symbol => exact hplain rfl rfl rfl
  | primitive | literal | enum =>
    obtain rfl := List.length_eq_zero_iff.1 hlen.symm
    exact hleaf rfl rfl rfl

theorem run_get_bind {α : Type} (f : State → M α) : StateT.run (get >>= f) st = StateT.run (f st) st :=
  rfl

/-- What is recalled is the digest of the tree, wherever the node is met. -/
theorem parallel_recall {x : String} (hst : Remembers s st) (hclosed : st.closed[id]? = some x)
    (ht : s.graph.nodes.Unfolds trail id t) :
    Parallel Never (fun p y => Digests flags t p.1 y ∧ Remembers s p.2 ∧
        p.2.sink.hasErrors = (st.sink.hasErrors || t.unresolved))
      (.ok ((x, ∅), st)) (t.digest s.digester s.algorithm flags) := by
  obtain ⟨u, hu, hwithin, hdigest, hfaulty⟩ := hst id x hclosed
  obtain rfl := (hu.of_within [] hwithin).unique ht
  have hsame : u.digest s.digester s.algorithm flags = .ok x :=
    (Tree.digest_append_congr [] hwithin).trans hdigest
  rw [hsame]
  apply Parallel.ok
  refine ⟨⟨rfl, ?_⟩, hst, ?_⟩
  · intro k hk
    have := Tree.within_iff.1 hwithin _ hk
    omega
  · cases hu : u.unresolved with
    | false => exact (Bool.or_false _).symm
    | true => exact (hfaulty hu).trans (Bool.or_true _).symm

theorem mem_free {heights : Heights} {k : ℕ} (hflag : flags[k]? = some true)
    (hmem : (flags.drop (k + 1)).count true ∈ heights) :
    (flags.drop (k + 1)).count true ∈ if b then heights.erase (flags.count true) else heights := by
  split
  · have hcount := count_of_getElem? hflag
    refine Std.ExtTreeSet.mem_erase.2 ⟨?_, hmem⟩
    rw [ne_eq, Nat.compare_eq_eq]
    omega
  · exact hmem

/-- A node may be remembered if its tree names nothing above. -/
theorem Remembers.insert {x : String} (hst : Remembers s st) (ht : s.graph.nodes.Unfolds [] id t)
    (hwithin : t.Within 0) (hdigest : t.digest s.digester s.algorithm [] = .ok x)
    (hfaulty : t.unresolved → Faulty st) :
    Remembers s { st with closed := st.closed.insert id x } := by
  intro y z hz
  rw [Std.ExtTreeMap.getElem?_insert] at hz
  split at hz
  · next hy =>
    obtain rfl : id = y := Std.LawfulEqCmp.compare_eq_iff_eq.1 hy
    obtain rfl := Option.some.inj hz
    exact ⟨t, ht, hwithin, hdigest, hfaulty⟩
  · exact hst y z hz

theorem within_of_isEmpty {free : Heights}
    (hfree : ∀ k, t.names (k + 1) → (flags.drop (k + 1)).count true ∈ free) (hempty : free.isEmpty) :
    t.Within 0 := by
  apply Tree.within_iff.2
  intro k hk
  cases k with
  | zero => exact le_rfl
  | succ k =>
    have hmem := hfree k hk
    rw [Std.ExtTreeSet.isEmpty_iff.1 hempty] at hmem
    cases Std.ExtTreeSet.not_mem_empty hmem

theorem parallel_close {kind : String} {payload : List (String × Datum)} {ds : List String} {free : Heights}
    (hst : Remembers s st) (ht : s.graph.nodes.Unfolds trail id t)
    (hdigest : t.digest s.digester s.algorithm flags = s.digester.node s.algorithm kind payload ds)
    (hfree : ∀ k, t.names (k + 1) → (flags.drop (k + 1)).count true ∈ free)
    (hfaulty : t.unresolved → Faulty st) :
    Parallel Never (fun p y => Digests flags t p.1 y ∧ Remembers s p.2 ∧
        p.2.sink.hasErrors = st.sink.hasErrors)
      (StateT.run (do
        let d ← nodeDigest s kind payload ds
        if free.isEmpty then modify fun st => { st with closed := st.closed.insert id d }
        return (d, free)) st)
      (t.digest s.digester s.algorithm flags) := by
  rw [hdigest, StateT.run_bind, nodeDigest]
  cases hnode : s.digester.node s.algorithm kind payload ds with
  | error e => exact .error
  | ok x =>
    change Parallel Never _ (StateT.run (if free.isEmpty then _ else _) st) _
    split
    · next hempty =>
      have hwithin := within_of_isEmpty hfree hempty
      have hplain : t.digest s.digester s.algorithm [] = .ok x :=
        (Tree.digest_append_congr [] hwithin).trans (hdigest.trans hnode)
      exact .ok ⟨⟨rfl, hfree⟩, hst.insert (ht.of_within [] hwithin) hwithin hplain hfaulty, rfl⟩
    · exact .ok ⟨⟨rfl, hfree⟩, hst, rfl⟩

theorem computes_node {m : M (List (String × Datum) × List String × Heights)}
    (ht : g.nodes.Unfolds trail id (.node (n.label (id :: trail)) ts))
    (hname : (Tree.node (n.label (id :: trail)) ts).names 0 = g.binders.contains id)
    (hm : Computes ⟨d, a, g, g.binders⟩ (Gathers (g.flags (id :: trail)) (n.label (id :: trail)) ts) m
      ((n.label (id :: trail)).arrange (ts.map (Tree.digest d a (g.flags (id :: trail)))))
      (Tree.node (n.label (id :: trail)) ts).unresolved) :
    Computes ⟨d, a, g, g.binders⟩ (Digests (g.flags trail) (.node (n.label (id :: trail)) ts))
      (do
        let (payload, children, heights) ← m
        let free := if g.binders.contains id then heights.erase (g.targets trail).length else heights
        let x ← nodeDigest ⟨d, a, g, g.binders⟩ n.shape.kind
          (sharedPayload payload n.tags (g.binders.contains id)) children
        if free.isEmpty then modify fun st => { st with closed := st.closed.insert id x }
        return (x, free))
      ((Tree.node (n.label (id :: trail)) ts).digest d a (g.flags trail))
      (Tree.node (n.label (id :: trail)) ts).unresolved := by
  intro st hst
  have hdigest : (Tree.node (n.label (id :: trail)) ts).digest d a (g.flags trail) = _ := Tree.digest_node
  rw [hname, show g.binders.contains id :: g.flags trail = g.flags (id :: trail) from rfl,
    show (n.label (id :: trail)).shape.kind = n.shape.kind from n.shape.kind_blank] at hdigest
  have hrun := hm st hst
  rw [StateT.run_bind, hdigest]
  generalize m.run st = p at hrun ⊢
  generalize ((n.label (id :: trail)).arrange _ : Except Json.WriteError _) = e at hrun hdigest ⊢
  cases hrun with
  | error => exact .error
  | cut h => exact h.elim
  | @ok p xs hp =>
    obtain ⟨⟨payload, ds, heights⟩, st₁⟩ := p
    obtain ⟨⟨hpayload, hds, hheights⟩, hst₁, herr⟩ := hp
    dsimp only at hpayload hds hheights hst₁ herr
    subst hpayload hds
    have hfree : ∀ k, (Tree.node (n.label (id :: trail)) ts).names (k + 1) →
        ((g.flags trail).drop (k + 1)).count true ∈
          if g.binders.contains id then heights.erase (g.targets trail).length else heights := by
      intro k hk
      rw [Graph.targets, length_filter]
      exact mem_free (Graph.flag_of_names ht hk) (hheights (k + 1) hk)
    have hclose := parallel_close hst₁ ht hdigest hfree fun hu => by rw [Faulty, herr, hu, Bool.or_true]
    rw [herr, hdigest] at hclose
    exact hclose

/-- The digest of a node is that of its tree, also where it is recalled. -/
theorem computes_digest {fuel : ℕ} {path : Std.ExtTreeSet NodeId} (hg : g.RefersUp)
    (hroot : g.nodes.Grounded g.root) (hroute : g.Route trail id) (ht : g.nodes.Unfolds trail id t)
    (hpath : ∀ x, path.contains x ↔ x ∈ trail) (hfuel : g.nodes.size < fuel + trail.length) :
    Computes ⟨d, a, g, g.binders⟩ (Digests (g.flags trail) t)
      (digest ⟨d, a, g, g.binders⟩ fuel id (g.targets trail) path) (t.digest d a (g.flags trail))
      t.unresolved := by
  obtain ⟨hid, hnodup⟩ := List.nodup_cons.1 (hroute.nodup hroot)
  induction fuel generalizing id trail t path with
  | zero =>
    have hle : trail.length ≤ g.nodes.size :=
      length_le_size (s := ⟨d, a, g, g.binders⟩) hnodup fun x hx => hroute.mem hx
    omega
  | succ fuel ih =>
    intro st hst
    rw [digest, run_get_bind]
    cases hclosed : st.closed[id]? with
    | some x => exact parallel_recall hst hclosed ht
    | none =>
      have hname := hg.names_zero hroute ht
      have hunfolds := ht
      cases ht with
      | @mk _ _ n ts hn htarget hlen hc =>
        have hout : ¬ path.contains id := fun hin => hid ((hpath id).1 hin)
        have hinner : (if g.binders.contains id then id :: g.targets trail else g.targets trail) =
            g.targets (id :: trail) := (List.filter_cons ..).symm
        have hvisit : ∀ p ∈ n.shape.children.zip ts, Computes ⟨d, a, g, g.binders⟩
            (Digests (g.flags (id :: trail)) p.2)
            (digest ⟨d, a, g, g.binders⟩ fuel p.1 (g.targets (id :: trail)) (path.insert id))
            (p.2.digest d a (g.flags (id :: trail))) p.2.unresolved := by
          intro p hp
          have hstep := hroute.step ⟨n, hn, (List.of_mem_zip hp).1⟩
          obtain ⟨hid', hnodup'⟩ := List.nodup_cons.1 (hstep.nodup hroot)
          exact ih hstep (hc p hp) (contains_insert_iff hpath) (by simp only [List.length_cons]; omega)
            hid' hnodup'
        dsimp only
        rw [show g.node? id = some n from hn]
        dsimp only
        rw [if_neg hout, hinner]
        exact computes_node hunfolds hname (computes_parts _ hn htarget hlen hvisit) st hst

end Nodes

end Hasher

/-- The hash of a graph is that of the tree into which it unfolds. -/
theorem Graph.RefersUp.hash_eq {d : Digester} {a : Algorithm} (hg : g.RefersUp) (ht : g.Unfolds t) :
    (g.hash d a).map Outcome.value = t.hash d a := by
  have hinitial : Hasher.Remembers ⟨d, a, g, g.binders⟩ {} := fun _ _ hx => by simp at hx
  have hpath : ∀ x, (∅ : Std.ExtTreeSet NodeId).contains x ↔ x ∈ ([] : List NodeId) := by simp
  have hrun := Hasher.computes_digest (d := d) (a := a) hg ht.grounded .root ht hpath (Nat.lt_succ_self _) {}
    hinitial
  unfold Graph.hash Tree.hash
  rw [show g.flags [] = [] from rfl] at hrun
  generalize t.digest d a [] = e at hrun ⊢
  change Parallel Never _ (StateT.run (Hasher.digest _ _ _ [] _) _) e at hrun
  dsimp only
  generalize StateT.run (Hasher.digest _ (g.nodes.size + 1) _ _ _) _ = p at hrun ⊢
  cases hrun with
  | error => rfl
  | cut h => exact h.elim
  | @ok p x hp =>
    obtain ⟨⟨hx, -⟩, -, herr⟩ := hp
    subst hx
    change Except.ok (if p.2.sink.hasErrors then none else some p.1.1) = _
    have hclean : ({} : Hasher.State).sink.hasErrors = false := by simp [Sink.hasErrors]
    rw [herr, hclean, Bool.false_or]
    rfl

/-- A graph of which every node is built into the root has the hash of a tree. -/
theorem Graph.exists_hash_eq_of_reached (d : Digester) (a : Algorithm) (hg : g.nodes.Scoped ∅ g.root)
    (h : ∀ id ∈ g.nodes, ReflTransGen g.nodes.HasChild g.root id) :
    ∃ t, g.Unfolds t ∧ (g.hash d a).map Outcome.value = t.hash d a := by
  obtain ⟨t, ht⟩ := exists_unfolds_iff.2 hg
  exact ⟨t, ht, (refersUp_of_reached hg h).hash_eq ht⟩

end TypeAtlas
