import TypeAtlas.Proofs.Graph.NormalForm
import TypeAtlas.Proofs.Normal.Hashed
import TypeAtlas.Proofs.Normal.Unmerged

/-! # Arenas in normal form

What holds of the terms of a fold holds of the arena in which they are written out: it is in normal
form, provided that the terms are settled and no recursive reference has lost its target.
-/

namespace TypeAtlas

open Folding Term

variable {d : Digester} {a : Algorithm} {S : Set String} {t : Term} {g : Graph} {id x y root : NodeId}
  {n : Node} {e f : Entry} {trail stack : List NodeId} {k l : ℕ}

/-! ## Shapes -/

section Shapes

variable {shape : TermShape} {ids ms : List NodeId} {target : NodeId} {fs : List Family}

theorem object_of_outline {fields : List Field} (h : outline shape ids target = .object fields) :
    ∃ heads, shape = .object heads ∧ fields = (heads.zip ids).map fieldOf := by
  cases shape with
  | object heads => exact ⟨heads, rfl, (Shape.object.inj h).symm⟩
  | recursiveRef symbol raw link => cases link <;> simp [outline] at h
  | _ => simp [outline] at h

theorem reference_of_outline {symbol : String} (h : outline shape ids target = .reference x symbol) :
    shape = .reference symbol ∧ x = ids.headD "" := by
  cases shape with
  | reference symbol' =>
    obtain ⟨rfl, rfl⟩ := Shape.reference.inj h
    exact ⟨rfl, rfl⟩
  | recursiveRef symbol raw link => cases link <;> simp [outline] at h
  | _ => simp [outline] at h

theorem union_of_outline {δ : Option Discriminant} (h : outline shape ids target = .union ms δ) :
    shape = .union δ ∧ ms = ids := by
  cases shape with
  | union δ' =>
    obtain ⟨rfl, rfl⟩ := Shape.union.inj h
    exact ⟨rfl, rfl⟩
  | recursiveRef symbol raw link => cases link <;> simp [outline] at h
  | _ => simp [outline] at h

theorem intersection_of_outline (h : outline shape ids target = .intersection ms) :
    shape = .intersection ∧ ms = ids := by
  cases shape with
  | intersection => exact ⟨rfl, (Shape.intersection.inj h).symm⟩
  | recursiveRef symbol raw link => cases link <;> simp [outline] at h
  | _ => simp [outline] at h

theorem family?_outline (shape : TermShape) (ids : List NodeId) (target : NodeId)
    (fs : List Family) : (outline shape ids target).family? = some (familyOf shape fs) ∨
      (∃ symbol, shape = .reference symbol) ∨ ∃ δ, shape = .union δ := by
  cases shape with
  | reference symbol => exact .inr (.inl ⟨symbol, rfl⟩)
  | union δ => exact .inr (.inr ⟨δ, rfl⟩)
  | recursiveRef symbol raw link => cases link <;> exact .inl rfl
  | _ => exact .inl rfl

theorem familyOf_union_mem {δ : Option Discriminant} (h : familyOf (.union δ) fs ≠ .neutral) :
    familyOf (.union δ) fs ∈ fs := by
  simp only [familyOf] at h ⊢
  cases hf : fs.find? (· != .neutral) with
  | none => simp [hf] at h
  | some f => exact List.mem_of_find?_eq_some hf

theorem familyOf_union_eq_neutral {δ : Option Discriminant} :
    familyOf (.union δ) fs = .neutral ↔ ∀ f ∈ fs, f = .neutral := by
  simp only [familyOf]
  cases hf : fs.find? (· != .neutral) with
  | none => simpa using List.find?_eq_none.1 hf
  | some f =>
    have hne : f ≠ .neutral := by simpa using List.find?_some hf
    exact ⟨fun h => absurd h hne, fun h => absurd (h f (List.mem_of_find?_eq_some hf)) hne⟩

end Shapes

theorem Term.Formed.composite (hf : e.term.Formed d a) {ms : List NodeId}
    (hm : (e.node id).shape.members? = some ms) :
    ms = e.names ∧ e.term.shape.isComposite ∧ Rising Term.digest e.term.children ∧
      Flat e.term.shape.kind e.term.children := by
  have hcov := hf.covers
  cases hs : e.term.shape with
  | union δ =>
    rw [hs] at hcov
    refine ⟨?_, rfl, hcov.2.1, hcov.2.2.1⟩
    simpa [Entry.node, hs, outline, Shape.members?, eq_comm] using hm
  | intersection =>
    rw [hs] at hcov
    refine ⟨?_, rfl, hcov.1, hcov.2⟩
    simpa [Entry.node, hs, outline, Shape.members?, eq_comm] using hm
  | recursiveRef symbol raw link =>
    cases link <;> simp [Entry.node, hs, outline, Shape.members?] at hm
  | _ => simp [Entry.node, hs, outline, Shape.members?] at hm

theorem Term.objectBody?_of_object {heads : List FieldHead} (hs : t.shape = .object heads)
    (hb : t.binder = false) : t.objectBody?.isSome := by
  have hself : t.dereferenceFree = t := by
    rcases dereferenceFree_cases t with he | ⟨-, symbol, c, rest, hr, -⟩
    · exact he
    · simp [hs] at hr
  simp [objectBody?, hself, hb, fields?, hs]

theorem Term.dereferenceFree_of_reference {symbol : String} {c : Term} {rest : List Term}
    (hs : t.shape = .reference symbol) (hc : t.children = c :: rest) (hb : t.binder = false) :
    t.dereferenceFree = c.dereferenceFree := by
  cases t with
  | mk head cs =>
    simp only [shape_mk, children_mk, binder_mk] at hs hc hb
    subst hc
    rw [dereferenceFree] <;> assumption

theorem Term.objectBody?_of_reference {symbol : String} {c : Term} {rest : List Term}
    (hs : t.shape = .reference symbol) (hc : t.children = c :: rest) (hb : t.binder = false) :
    t.objectBody? = c.objectBody? := by
  rw [objectBody?, objectBody?, dereferenceFree_of_reference hs hc hb]

/-- Below a reference is the node of the only term below its term. -/
theorem Term.Laid.exists_written_target {A : Arena} {symbol : String} (h : Laid d a S t root A)
    (he : Written d a t A id e) (hs : e.term.shape = .reference symbol) :
    ∃ x c f, (e.node id).shape = .reference x symbol ∧ e.term.children = [c] ∧
      Written d a t A x f ∧ Twin c f.term := by
  have hcov := (h.formed_of_written he).here.covers
  rw [hs] at hcov
  obtain ⟨c, hc⟩ := List.length_eq_one_iff.1 hcov
  obtain ⟨x, hx⟩ := List.length_eq_one_iff.1 (he.children.length_eq.symm.trans hcov)
  obtain ⟨f, hf, c', hc', htwin, -⟩ := h.exists_written_child he (hx ▸ List.mem_singleton_self x)
  obtain rfl : c' = c := by simpa [hc] using hc'
  exact ⟨x, c', f, by simp [Entry.node, hs, outline, hx], hc, hf, htwin⟩

theorem Term.Laid.isSome_objectBody? (h : Laid d a S t root g.nodes) (hdet : t.Detached g.nodes)
    (hbody : g.ObjectBody id) (he : Written d a t g.nodes id e) : e.term.objectBody?.isSome := by
  have hplain {id e} (he : Written d a t g.nodes id e) (hb : id ∉ g.binders) :
      e.term.binder = false := by
    rw [← Hasher.contains_binders h hdet he, Bool.eq_false_iff, ne_eq,
      Std.ExtTreeSet.contains_iff_mem]
    exact hb
  induction hbody generalizing e with
  | object hn hs hb =>
    obtain rfl := he.node_eq hn
    obtain ⟨heads, hshape, -⟩ := object_of_outline hs
    exact objectBody?_of_object hshape (hplain he hb)
  | @reference id target n symbol hn hs hb _ ih =>
    obtain rfl := he.node_eq hn
    obtain ⟨hshape, -⟩ := reference_of_outline hs
    obtain ⟨x, c, f, hx, hc, hf, htwin⟩ := h.exists_written_target he hshape
    obtain rfl : target = x := by simpa [hs] using hx
    rw [objectBody?_of_reference hshape hc (hplain he hb), htwin.isSome_objectBody?]
    exact ih hf

namespace Graph

/-- A graph whose arena is that of a term in which every recursive reference has its target. -/
structure Holds (d : Digester) (a : Algorithm) (S : Set String) (g : Graph) (t : Term) : Prop where
  laid : Laid d a S t g.root g.nodes
  linked : t.Linked
  unmerged : t.Throughout Unmerged

namespace Holds

variable (h : Holds d a S g t)
include h

theorem binder_iff (he : Written d a t g.nodes id e) : id ∈ g.binders ↔ e.term.binder = true := by
  rw [mem_binders, h.laid.binder_iff h.linked.detached he]

theorem contains_binders (he : Written d a t g.nodes id e) :
    g.binders.contains id = e.term.binder :=
  Hasher.contains_binders h.laid h.linked.detached he

theorem targets_cons (he : Written d a t g.nodes id e) :
    g.targets (id :: trail) = e.term.push id (g.targets trail) := by
  rw [targets, List.filter_cons, h.contains_binders he, push, targets]

theorem exists_stands (hr : g.Route trail id) :
    ∃ e, Stands d a t g.nodes trail (g.targets trail) id e := by
  induction hr with
  | root =>
    obtain ⟨e, hs, -⟩ := Stands.root h.laid
    exact ⟨e, hs⟩
  | @step trail x y _ hc ih =>
    obtain ⟨e, hs⟩ := ih
    obtain ⟨n, hn, hy⟩ := hc
    rw [hs.written.node_eq hn, h.laid.children_node hs.written] at hy
    rw [h.targets_cons hs.written]
    exact hs.exists_child h.laid hy

/-! ## Nodes -/

theorem target_mem (hr : g.Route trail id) (hn : g.node? id = some n)
    (ht : n.shape.recursionTarget? = some x) : x ∈ id :: trail := by
  obtain ⟨e, hs⟩ := h.exists_stands hr
  obtain rfl := hs.written.node_eq hn
  obtain ⟨B, hask, -⟩ := hs.written.asked
  cases hshape : e.term.shape with
  | recursiveRef symbol raw link =>
    cases link with
    | none => exact absurd hshape (h.linked _ hask.sub symbol raw)
    | some p =>
      obtain rfl : e.target = x := by
        simpa [Entry.node, hshape, outline, Shape.recursionTarget?] using ht
      have hlink := hs.idxOf_target h.laid (k := p.1) (l := p.2) (by simp [hshape, ownLinks])
      obtain ⟨hlt, hget, -⟩ := List.idxOf?_eq_some_iff.1 hlink
      exact hs.sublist_push.subset (hget ▸ List.getElem_mem hlt)
  | _ => simp [Entry.node, hshape, outline, Shape.recursionTarget?] at ht

theorem mem_of_mem_trail (hr : g.Route trail id) (hx : x ∈ id :: trail) : x ∈ g.nodes := by
  obtain ⟨e, hs⟩ := h.exists_stands hr
  rcases List.mem_cons.1 hx with rfl | hx
  · exact mem_iff_exists_getElem?.2 ⟨_, hs.written.node⟩
  · obtain ⟨f, hf, -⟩ := hs.higher x hx
    exact mem_iff_exists_getElem?.2 ⟨_, hf.node⟩

theorem wellFormed : g.WellFormed where
  keyed id n hn := by
    obtain ⟨e, -, rfl⟩ := h.laid.exists_written hn
    rfl
  root := (extends_of_ends_emit h.laid.run).2
  child id n hn c hc := by
    obtain ⟨e, he, rfl⟩ := h.laid.exists_written hn
    rw [h.laid.children_node he] at hc
    obtain ⟨f, hf, -⟩ := h.laid.exists_written_child he hc
    exact mem_iff_exists_getElem?.2 ⟨_, hf.node⟩
  target id n hn x hx := by
    obtain ⟨trail, hr⟩ := exists_route (h.laid.reaches (mem_iff_exists_getElem?.2 ⟨n, hn⟩))
    exact h.mem_of_mem_trail hr (h.target_mem hr hn hx)
  acyclic := h.laid.acyclic
  below _ _ _ hr hn _ hx := h.target_mem hr hn hx

/-! ## Members -/

theorem digest?_eq (hs : Stands d a t g.nodes trail stack id e) :
    g.digest? d a stack id = some e.term.digest := by
  have hnone : Hasher.Recalls d a t g.nodes {} := fun x y hy => by simp at hy
  have hpath : ∀ x, (∅ : Std.ExtTreeSet NodeId).contains x → x ∈ trail := by simp
  obtain ⟨p, st, hp, -, hhash⟩ := Hasher.ends_digest h.laid h.linked.detached hs hnone hpath
    (Nat.lt_add_right trail.length g.nodes.size.lt_succ_self)
  have hrun : (Hasher.digest ⟨d, a, g, g.binders⟩ (g.nodes.size + 1) id stack ∅).run {} =
      .ok (p, st) := hp
  rw [digest?, hrun, ← hhash.digest]

theorem digests_eq (hs : Stands d a t g.nodes trail stack id e) :
    e.names.map (g.digest? d a (e.term.push id stack)) =
      (e.term.children.map Term.digest).map some := by
  refine List.ext_getElem (by simp [hs.written.children.length_eq]) fun i hi hj => ?_
  rw [List.length_map] at hi
  rw [List.length_map, List.length_map] at hj
  obtain ⟨f, hf, -, hd⟩ := hs.child h.laid hj hi
  simp [h.digest?_eq hf, hd]

theorem anchored_iff (he : Written d a t g.nodes id e) :
    g.Anchored id (e.node id) ↔ e.term.head.tags ≠ [] ∨ e.term.binder = true := by
  rw [Anchored, h.binder_iff he, Entry.node]

theorem flat {ms : List NodeId} (hn : g.node? id = some n) (hm : n.shape.members? = some ms)
    (hx : x ∈ ms) {m : Node} (hnx : g.node? x = some m) (hkind : m.shape.kind = n.shape.kind) :
    g.Anchored x m := by
  obtain ⟨e, he, rfl⟩ := h.laid.exists_written hn
  obtain ⟨rfl, -, -, hflat⟩ := (h.laid.formed_of_written he).here.composite hm
  obtain ⟨f, hf, c, hc, htwin, -⟩ := h.laid.exists_written_child he hx
  obtain rfl := hf.node_eq hnx
  rw [h.anchored_iff hf]
  by_contra hno
  rw [not_or, not_not, Bool.not_eq_true] at hno
  refine hflat c hc ⟨?_, ?_, htwin.binder.trans hno.2⟩
  · simpa [htwin.alike.kind, Entry.node, outline_kind] using hkind
  · have hempty := htwin.alike.tags.isEmpty
    rw [hno.1] at hempty
    exact List.isEmpty_iff.1 hempty

theorem single (hn : g.node? id = some n) (hm : n.shape.members? = some [x]) :
    g.Anchored id n := by
  obtain ⟨e, he, rfl⟩ := h.laid.exists_written hn
  have hf := (h.laid.formed_of_written he).here
  obtain ⟨hnames, hcomp, -⟩ := hf.composite hm
  rw [h.anchored_iff he]
  exact hf.single hcomp (he.children.length_eq.trans (by rw [← hnames]; rfl))

/-! ## Families -/

/-- The families of the terms below a term are those of the terms of the nodes below. -/
theorem families (he : Written d a t g.nodes id e) :
    List.Forall₂ (fun c x => ∃ f, Written d a t g.nodes x f ∧ c.family = f.term.family ∧
      f.term.height < e.term.height) e.term.children e.names := by
  refine List.forall₂_iff_get.2 ⟨he.children.length_eq, fun i hi hj => ?_⟩
  obtain ⟨f, hf, htwin, -⟩ := h.laid.child he hi hj
  have hc := List.getElem_mem hi
  exact ⟨f, hf, htwin.family ((h.laid.formed_of_written he).child hc)
    (h.laid.formed_of_written hf), htwin.height ▸ height_lt_of_mem_children hc⟩

theorem ofFamily (he : Written d a t g.nodes id e) : g.OfFamily id e.term.family := by
  induction hheight : e.term.height using Nat.strong_induction_on generalizing id e with
  | _ k ih =>
    have hn : g.node? id = some (e.node id) := he.node
    have hf := (h.laid.formed_of_written he).here
    have hcov := hf.covers
    have hbelow : List.Forall₂ (fun c x => g.OfFamily x c.family) e.term.children e.names :=
      (h.families he).imp fun c x ⟨f, hwf, hfam, hlt⟩ => hfam ▸ ih _ (hheight ▸ hlt) hwf rfl
    rw [hf.family]
    rcases family?_outline e.term.shape e.names e.target (e.term.children.map Term.family) with
      hown | ⟨symbol, hs⟩ | ⟨δ, hs⟩
    · exact .own hn hown
    · rw [hs] at hcov ⊢
      obtain ⟨c, hc⟩ := List.length_eq_one_iff.1 hcov
      rw [hc] at hbelow ⊢
      obtain ⟨x, hx⟩ := List.length_eq_one_iff.1 hbelow.length_eq.symm
      have hshape : (e.node id).shape = .reference x symbol := by simp [Entry.node, hs, outline, hx]
      rw [hx] at hbelow
      exact .reference hn hshape (List.forall₂_cons.1 hbelow).1
    · rw [hs] at hcov ⊢
      have hshape : (e.node id).shape = .union e.names δ := by simp [Entry.node, hs, outline]
      by_cases hneutral : familyOf (.union δ) (e.term.children.map Term.family) = .neutral
      · rw [hneutral]
        refine .neutral hn hshape fun x hx => ?_
        obtain ⟨i, hi, rfl⟩ := List.getElem_of_mem hx
        have hj : i < e.term.children.length := hbelow.length_eq ▸ hi
        have hfam := familyOf_union_eq_neutral.1 hneutral _
          (List.mem_map_of_mem (List.getElem_mem hj))
        exact hfam ▸ hbelow.get hj hi
      · obtain ⟨c, hc, hfam⟩ := List.mem_map.1 (familyOf_union_mem hneutral)
        obtain ⟨i, hi, rfl⟩ := List.getElem_of_mem hc
        have hj : i < e.names.length := hbelow.length_eq ▸ hi
        exact .union hn hshape (List.getElem_mem hj) (hfam ▸ hbelow.get hi hj) hneutral

theorem family_eq {f : Family} (hf : g.OfFamily id f) (he : Written d a t g.nodes id e) :
    f = e.term.family := by
  induction hf generalizing e with
  | @own id n f hn hf =>
    obtain rfl := he.node_eq hn
    rw [(h.laid.formed_of_written he).here.family]
    rcases family?_outline e.term.shape e.names e.target (e.term.children.map Term.family) with
      hown | ⟨symbol, hs⟩ | ⟨δ, hs⟩
    · exact Option.some.inj (hf.symm.trans hown)
    · simp [Entry.node, hs, outline, Shape.family?] at hf
    · simp [Entry.node, hs, outline, Shape.family?] at hf
  | @reference id target n symbol f hn hs _ ih =>
    obtain rfl := he.node_eq hn
    obtain ⟨hshape, rfl⟩ := reference_of_outline hs
    have hbelow := h.families he
    have hform := (h.laid.formed_of_written he).here
    have hcov := hform.covers
    rw [hshape] at hcov
    obtain ⟨c, hc⟩ := List.length_eq_one_iff.1 hcov
    rw [hc] at hbelow
    obtain ⟨x, hx⟩ := List.length_eq_one_iff.1 hbelow.length_eq.symm
    rw [hx] at hbelow ih
    obtain ⟨f', hf', hfam, -⟩ := (List.forall₂_cons.1 hbelow).1
    rw [ih hf', ← hfam, hform.family, hshape, hc]
    rfl
  | @union id m n ms δ f hn hs hm _ hne ih =>
    obtain rfl := he.node_eq hn
    obtain ⟨hshape, rfl⟩ := union_of_outline hs
    have hbelow := h.families he
    have hform := (h.laid.formed_of_written he).here
    have hcov := hform.covers
    rw [hshape] at hcov
    obtain ⟨i, hi, rfl⟩ := List.getElem_of_mem hm
    have hj : i < e.term.children.length := hbelow.length_eq ▸ hi
    obtain ⟨f', hf', hfam, -⟩ := hbelow.get hj hi
    have hfam : f = (e.term.children[i]).family := (ih hf').trans hfam.symm
    have hneutral : familyOf (.union δ) (e.term.children.map Term.family) ≠ .neutral := fun hall =>
      hne (hfam.trans (familyOf_union_eq_neutral.1 hall _ (List.mem_map_of_mem (List.getElem_mem hj))))
    obtain ⟨c, hc, he'⟩ := List.mem_map.1 (familyOf_union_mem hneutral)
    rw [hform.family, hshape, ← he', hfam]
    exact hcov.2.2.2 _ (List.getElem_mem hj) c hc (hfam ▸ hne) (he' ▸ hneutral)
  | @neutral id n ms δ hn hs _ ih =>
    obtain rfl := he.node_eq hn
    obtain ⟨hshape, rfl⟩ := union_of_outline hs
    have hbelow := h.families he
    rw [(h.laid.formed_of_written he).here.family, hshape, eq_comm, familyOf_union_eq_neutral]
    intro f hf
    obtain ⟨c, hc, rfl⟩ := List.mem_map.1 hf
    obtain ⟨i, hi, rfl⟩ := List.getElem_of_mem hc
    have hj : i < e.names.length := hbelow.length_eq ▸ hi
    obtain ⟨f', hf', hfam, -⟩ := hbelow.get hi hj
    exact hfam.trans (ih _ (List.getElem_mem hj) hf').symm

theorem normalForm : g.NormalForm d a where
  wellFormed := h.wellFormed
  reached id hid := h.laid.reaches hid
  fields id n fs hn hs := by
    obtain ⟨e, he, rfl⟩ := h.laid.exists_written hn
    obtain ⟨heads, hshape, rfl⟩ := object_of_outline hs
    have hcov := (h.laid.formed_of_written he).here.covers
    rw [hshape] at hcov
    exact Hasher.rising_fieldOf hcov.2 (hcov.1.trans he.children.length_eq)
  members trail id n ms hr hn hm := by
    obtain ⟨e, hs⟩ := h.exists_stands hr
    obtain rfl := hs.written.node_eq hn
    obtain ⟨rfl, -, hrising, -⟩ := (h.laid.formed_of_written hs.written).here.composite hm
    refine ⟨e.term.children.map Term.digest, ?_, List.pairwise_map.2 hrising⟩
    rw [h.targets_cons hs.written, h.digests_eq hs]
  flat _ _ _ hn hm _ hx _ hnx hkind := h.flat hn hm hx hnx hkind
  single _ _ _ hn hm := h.single hn hm
  family id hid := by
    obtain ⟨e, he⟩ := h.laid.filed id hid
    exact ⟨_, h.ofFamily he⟩
  kin id n ms δ hn hs c hc c' hc' f f' hf hf' hne hne' := by
    obtain ⟨e, he⟩ := h.laid.filed id (mem_iff_exists_getElem?.2 ⟨n, hn⟩)
    rw [h.family_eq (.union hn hs hc hf hne) he, h.family_eq (.union hn hs hc' hf' hne') he]
  unmerged id n ms hn hs hne := by
    obtain ⟨e, he, rfl⟩ := h.laid.exists_written hn
    obtain ⟨hshape, rfl⟩ := intersection_of_outline hs
    obtain ⟨B, hask, -⟩ := he.asked
    by_contra hall
    rcases h.unmerged _ hask.sub hshape with hnil | hnone
    · exact hne (List.length_eq_zero_iff.1 (he.children.length_eq.symm.trans (by rw [hnil]; rfl)))
    · obtain ⟨c, hc, hcnone⟩ := mapM_eq_none.1 hnone
      obtain ⟨i, hi, rfl⟩ := List.getElem_of_mem hc
      obtain ⟨f, hf, htwin, -⟩ := h.laid.child he hi (he.children.length_eq ▸ hi)
      have hsome := htwin.isSome_objectBody?
      rw [hcnone] at hsome
      exact hall ⟨_, List.getElem_mem (he.children.length_eq ▸ hi), fun hb => by
        simp [h.laid.isSome_objectBody? h.linked.detached hb hf] at hsome⟩

end Holds

variable {c : CanonicalGraph}

/-- The canonical graph is in normal form if its closed terms are written out at their own heights and
none of its recursive references has lost its target. -/
theorem normalForm_of_canonical? (hc : g.canonical? d a = some c)
    (hfree : d.CollisionFree a (g.texts d a)) (hset : g.Settled d a)
    (hlinked : ∀ t, g.Folds d a t → t.Linked) : c.toGraph.NormalForm d a := by
  obtain ⟨t, hfold, hlaid⟩ := exists_laid hc hfree subset_rfl hset
  have hunmerged : t.Throughout Unmerged :=
    hfold.derives.unmerged hfree
      (fun trail stack id t hv hd x hx => .inl ⟨trail, stack, id, t, hv, hd, hx⟩) .root
  exact Holds.normalForm ⟨hlaid, hlinked t hfold, hunmerged⟩

/-- Lists of lists come to a graph in normal form. -/
theorem normalForm_of_canonical?_nested :
    ∃ c, nested.canonical? .legible .sha256 = some c ∧
      Digester.legible.CollisionFree .sha256 (nested.texts .legible .sha256) ∧
      nested.Settled .legible .sha256 ∧ (∀ t, nested.Folds .legible .sha256 t → t.Linked) ∧
      c.toGraph.NormalForm .legible .sha256 := by
  have hsome : (nested.canonical? .legible .sha256).isSome := by decide +kernel
  obtain ⟨c, hc⟩ := Option.isSome_iff_exists.1 hsome
  have hfree := Digester.legible_collisionFree .sha256 (nested.texts .legible .sha256)
  have hset := settled_of_upright nested_upright
  have hlinked := linked_of_upright nested_upright
  exact ⟨c, hc, hfree, hset, hlinked, normalForm_of_canonical? hc hfree hset hlinked⟩

end Graph

end TypeAtlas
