import TypeAtlas.Proofs.Normal.Descent
import TypeAtlas.Proofs.Normal.Erased
import TypeAtlas.Proofs.Normal.Known
import TypeAtlas.Proofs.Normal.Upright

/-! # Content addressing

The name of a node determines the node and everything below it, up to positions and symbols.
Arenas with the same root therefore hold the same nodes. All this is so where numbers are finite, and
those of a canonical graph are if those of the graph are.
-/

namespace TypeAtlas

open Folding Term

variable {d : Digester} {a : Algorithm} {S : Set String} {t t' u v : Term} {r r' id : NodeId}
  {A A' : Arena} {e e' : Entry} {ids : List NodeId} {x y : NodeId}

/-! ## Nodes -/

theorem EnumMember.eq_of_canonical {m n : EnumMember} (hfin : m.value.toDatum.isFinite)
    (hn : n.value.toDatum.isFinite) (h : m.name = n.name)
    (hv : m.value.toDatum.canonical = n.value.toDatum.canonical) : m = n := by
  rw [Datum.canonical_eq_ordered _ hfin, Datum.canonical_eq_ordered _ hn] at hv
  obtain ⟨name, value⟩ := m
  obtain ⟨name', value'⟩ := n
  obtain rfl : name = name' := h
  cases value <;> cases value' <;> simp_all [EnumValue.toDatum, Datum.ordered]

theorem eq_of_forall₂ {α : Type} {R : α → α → Prop} {xs ys : List α} (h : List.Forall₂ R xs ys)
    (hR : ∀ x ∈ xs, ∀ y ∈ ys, R x y → x = y) : xs = ys := by
  induction h with
  | nil => rfl
  | cons hx _ ih =>
    rw [hR _ List.mem_cons_self _ List.mem_cons_self hx,
      ih fun x hx y hy => hR x (List.mem_cons_of_mem _ hx) y (List.mem_cons_of_mem _ hy)]

theorem erased_fields_eq {fs gs : List FieldHead} (h : List.Forall₂ FieldHead.Alike fs gs)
    (hf : ((fs.zip ids).map fieldOf).all fun f => f.tags.all Tag.isFinite)
    (hg : ((gs.zip ids).map fieldOf).all fun f => f.tags.all Tag.isFinite) :
    ((fs.zip ids).map fieldOf).map Field.erased = ((gs.zip ids).map fieldOf).map Field.erased := by
  induction h generalizing ids with
  | nil => rfl
  | @cons f g fs gs hfg _ ih =>
    cases ids with
    | nil => rfl
    | cons x ids =>
      simp only [List.zip_cons_cons, List.map_cons, List.all_cons, Bool.and_eq_true] at hf hg ⊢
      have hfield : (fieldOf (f, x)).erased = (fieldOf (g, x)).erased := by
        simp only [Field.erased, fieldOf, hfg.name, hfg.optional, hfg.readonly,
          hfg.tags.ordered hf.1 hg.1]
      rw [hfield, ih hf.2 hg.2]

/-- Finite nodes of alike terms differ at most in positions and symbols, if the terms below and the
targets have the same names. -/
theorem erased_eq_of_alike (h : Alike u v) (hu : u.Formed d a) (hv : v.Formed d a)
    (hδ : discriminant? u.children = discriminant? v.children)
    (hlink : ∀ symbol raw, u.shape ≠ .recursiveRef symbol raw none)
    {target target' : NodeId} (htarget : ownLinks u.shape ≠ [] → target = target')
    (hm : (Node.mk id (outline u.shape ids target) u.head.tags u.head.location).isFinite)
    (hn : (Node.mk id (outline v.shape ids target') v.head.tags v.head.location).isFinite) :
    (Node.mk id (outline u.shape ids target) u.head.tags u.head.location).erased =
      (Node.mk id (outline v.shape ids target') v.head.tags v.head.location).erased := by
  obtain ⟨hms, hmt⟩ := Bool.and_eq_true_iff.1 hm
  obtain ⟨hns, hnt⟩ := Bool.and_eq_true_iff.1 hn
  have htags := h.tags.ordered hmt hnt
  suffices hshape : (outline u.shape ids target).erased = (outline v.shape ids target').erased by
    simp only [Node.erased, hshape, htags]
  clear hm hn hmt hnt htags
  have halike := h.shape
  have hcu := hu.covers
  have hcv := hv.covers
  generalize u.shape = s at *
  generalize v.shape = s' at *
  cases halike with
  | primitive => rfl
  | array => rfl
  | tuple => rfl
  | intersection => rfl
  | reference => rfl
  | unknown => rfl
  | literal he =>
    rw [outline, outline, Scalar.eq_of_canonical_eq hms he]
  | union =>
    rw [outline, outline, hcu.1, hcv.1, hδ]
  | enum hmembers =>
    rw [← hcu.1, ← hcv.1] at hmembers
    rw [outline, outline, eq_of_forall₂ hmembers fun m hm n hn hmn =>
      EnumMember.eq_of_canonical (List.all_eq_true.1 hms m hm) (List.all_eq_true.1 hns n hn) hmn.1
        hmn.2]
  | @recursiveRef s s' raw raw' l l' hl =>
    cases l with
    | none => exact absurd rfl (hlink s raw)
    | some p =>
      cases l' with
      | none => cases hl
      | some q =>
        obtain rfl := htarget (by simp [ownLinks])
        rfl
  | @object fs gs hfs => exact congrArg Shape.object (erased_fields_eq hfs hms hns)

/-! ## Arenas -/

namespace Term.Laid

/-- Nodes of the same name are built from the same nodes. -/
theorem names_eq (h : Laid d a S t r A) (h' : Laid d a S t' r' A') (he : Written d a t A id e)
    (he' : Written d a t' A' id e') : e.names = e'.names := by
  obtain ⟨B, hask, -⟩ := he'.asked
  have hnames := h.children_named h' he hask he'.named (h'.placed he')
  refine List.ext_getElem (hnames.length_eq.symm.trans he'.children.length_eq) fun i hi hj => ?_
  have hc : i < e'.term.children.length := he'.children.length_eq ▸ hj
  exact (hnames.get hc hi).unique (he'.children.get hc hj).1

theorem target_eq (h : Laid d a S t r A) (h' : Laid d a S t' r' A') (he : Written d a t A id e)
    (he' : Written d a t' A' id e') (hown : ownLinks e.term.shape ≠ []) : e.target = e'.target := by
  obtain ⟨htwin, -, hag⟩ := h.agree_of_written h' he he'
  obtain ⟨⟨k, l⟩, hk⟩ := List.exists_mem_of_ne_nil _ hown
  obtain ⟨m, hm⟩ := htwin.alike.own_distance hk
  have hlink := h.link he hk
  rw [Entry.inner, reverse_inner, Agree.push hag (mem_inward.2 (.inl hk)), push, htwin.binder,
    ← push, ← reverse_inner, ← Entry.inner, h'.link he' hm] at hlink
  exact (Option.some.inj hlink).symm

theorem finite_of_written (h : Laid d a S t r A) (hfin : Arena.Finite A)
    (he : Written d a t A id e) : e.term.Finite := by
  induction hn : e.term.height using Nat.strong_induction_on generalizing e id with
  | _ n ih =>
    refine .of_children (fun k x hx => ?_) fun c hc => ?_
    · have hnode := hfin id _ he.node
      simp only [Entry.node, Node.isFinite, hx, outline, Shape.isFinite, Bool.and_eq_true] at hnode
      exact hnode.1
    · obtain ⟨i, hi, rfl⟩ := List.getElem_of_mem hc
      obtain ⟨f, hf, htwin, -⟩ := h.child he hi (he.children.length_eq ▸ hi)
      have hlt : f.term.height < n := htwin.height ▸ hn ▸ height_lt_of_mem_children hc
      exact htwin.finite (ih _ hlt hf rfl)

/-- Nodes of the same name are the same, up to positions and symbols. -/
theorem erased_eq (h : Laid d a S t r A) (h' : Laid d a S t' r' A') (hlinked : t.Linked)
    (hfin : Arena.Finite A) (hfin' : Arena.Finite A') (he : Written d a t A id e)
    (he' : Written d a t' A' id e') : (e.node id).erased = (e'.node id).erased := by
  obtain ⟨htwin, -⟩ := h.agree_of_written h' he he'
  have hf := h.finite_of_written hfin he
  have hnode := hfin id _ he.node
  have hnode' := hfin' id _ he'.node
  rw [Entry.node] at hnode hnode' ⊢
  rw [Entry.node, ← names_eq h h' he he'] at *
  exact erased_eq_of_alike htwin.alike (h.formed_of_written he).here
    (h'.formed_of_written he').here
    (discriminant?_congr htwin.forall₂_children fun c hc => hf.child hc)
    (hlinked _ he.asked.choose_spec.1.sub) (target_eq h h' he he') hnode hnode'

/-- Whatever one of two arenas with the same root holds, the other holds. -/
theorem mem_of_mem (h : Laid d a S t r A) (h' : Laid d a S t' r A') (hid : id ∈ A) : id ∈ A' := by
  have hreach := h.reaches hid
  clear hid
  induction hreach with
  | refl => exact (extends_of_ends_emit h'.run).2
  | @tail x y _ hxy ihx =>
    obtain ⟨m, hm, hy⟩ := hxy
    obtain ⟨e, he⟩ := h.filed x (mem_iff_exists_getElem?.2 ⟨m, hm⟩)
    obtain ⟨e', he'⟩ := h'.filed x ihx
    obtain rfl := Option.some.inj (hm.symm.trans he.node)
    rw [h.children_node he, names_eq h h' he he'] at hy
    obtain ⟨i, hi, rfl⟩ := List.getElem_of_mem hy
    exact (he'.children.get (he'.children.length_eq ▸ hi) hi).2.1

end Term.Laid

/-! ## Finite numbers -/

/-- Whether the numbers that a term's own shape holds are finite. -/
def TermShape.isFinite : TermShape → Bool
  | .literal _ x => x.isFinite
  | .enum ms => ms.all fun m => m.value.toDatum.isFinite
  | .object heads => heads.all fun f => f.tags.all Tag.isFinite
  | _ => true

theorem isFinite_outline {shape : TermShape} (h : shape.isFinite) (ids : List NodeId) (target : NodeId) :
    (outline shape ids target).isFinite := by
  cases shape with
  | literal k x => exact h
  | enum ms => exact h
  | object heads =>
    simp only [TermShape.isFinite, List.all_eq_true] at h
    simp only [outline_object, Shape.isFinite, List.all_eq_true]
    intro f hf
    obtain ⟨p, hp, rfl⟩ := List.mem_map.1 hf
    exact h p.1 (List.of_mem_zip hp).1
  | recursiveRef symbol raw link => cases link <;> rfl
  | _ => rfl

namespace Graph

variable {g h : Graph} {b c : CanonicalGraph}

theorem Folds.isFinite (h : g.Folds d a t) (hg : Arena.Finite g.nodes) :
    t.Throughout fun u => u.shape.isFinite ∧ u.head.tags.all Tag.isFinite := by
  refine h.derives.throughout (P := fun shape tags => shape.isFinite ∧ tags.all Tag.isFinite)
    (fun id u hu => ?_) fun id n ts shape hn hts hshape => ?_
  · obtain ⟨reason, cause, -, hu⟩ := hu
    obtain ⟨digest, -, rfl⟩ := make_eq_ok hu
    exact ⟨rfl, rfl⟩
  obtain ⟨hown, htags⟩ := Bool.and_eq_true_iff.1 (hg id n hn)
  refine ⟨?_, htags⟩
  cases shape with
  | literal k x => exact (congrArg Shape.isFinite hshape).symm.trans hown
  | enum ms =>
    obtain ⟨ms', hms, rfl⟩ := hshape
    rw [hms] at hown
    simp only [Shape.isFinite, TermShape.isFinite, List.all_eq_true] at hown ⊢
    exact fun m hm => hown m (List.mem_mergeSort.1 hm)
  | object heads =>
    refine List.all_eq_true.2 fun f hf => ?_
    rcases hshape f hf with ⟨fs, hfs, e, he, htags⟩ | ⟨v, heads', ⟨u, hu, hv⟩, hheads, e, he, htags⟩
    · rw [hfs] at hown
      exact htags ▸ List.all_eq_true.1 hown e he
    · have hfinite := (hts u hu v hv).1
      rw [hheads] at hfinite
      exact htags ▸ List.all_eq_true.1 hfinite e he
  | _ => rfl

/-- The numbers of a canonical graph are finite if those of the graph are. -/
theorem finite_of_canonical? (hc : g.canonical? d a = some c) (hg : Arena.Finite g.nodes) :
    Arena.Finite c.nodes := by
  obtain ⟨n, hn, hc⟩ := canonical?_eq_some.1 hc
  obtain ⟨t, st, root, nodes, hfold, hemit, rfl⟩ := normalize_eq_ok hn
  obtain rfl := Option.some.inj hc
  have hf : g.Folds d a t := ⟨st, hfold⟩
  intro id n hn
  obtain ⟨e, he⟩ := (filed_of_emit hemit (fun _ _ _ h => h) fun _ hn => by simp at hn).1 id
    (mem_iff_exists_getElem?.2 ⟨n, hn⟩)
  obtain ⟨hshape, htags⟩ := hf.isFinite hg _ he.asked.choose_spec.1.sub
  rw [he.node_eq hn]
  exact Bool.and_eq_true_iff.2 ⟨isFinite_outline hshape _ _, htags⟩

theorem finite_ofNodes {root : NodeId} {nodes : List Node} (h : nodes.all Node.isFinite) :
    Arena.Finite (ofNodes root nodes).nodes :=
  fun _ _ hn => List.all_eq_true.1 h _ (mem_of_node?_ofNodes hn)

/-- Canonical graphs with the same root hold the same nodes, up to positions and symbols. -/
theorem nodes_eq_of_root_eq (hb : g.canonical? d a = some b) (hc : h.canonical? d a = some c)
    (hfree : d.CollisionFree a (g.texts d a ∪ h.texts d a)) (hg : g.Settled d a)
    (hh : h.Settled d a) (hlinked : ∀ t, g.Folds d a t → t.Linked) (hbfin : Arena.Finite b.nodes)
    (hcfin : Arena.Finite c.nodes) (hroot : b.root = c.root) (id : NodeId) :
    (b.node? id).map Node.erased = (c.node? id).map Node.erased := by
  obtain ⟨t, hfold, hlaid⟩ := exists_laid hb hfree Set.subset_union_left hg
  obtain ⟨t', -, hlaid'⟩ := exists_laid hc hfree Set.subset_union_right hh
  rw [← hroot] at hlaid'
  by_cases hid : id ∈ b.nodes
  · obtain ⟨e, he⟩ := hlaid.filed id hid
    obtain ⟨e', he'⟩ := hlaid'.filed id (hlaid.mem_of_mem hlaid' hid)
    have heq := hlaid.erased_eq hlaid' (hlinked t hfold) hbfin hcfin he he'
    simp only [node?, he.node, he'.node, Option.map_some, heq]
  · have hid' : id ∉ c.nodes := fun hid' => hid (hlaid'.mem_of_mem hlaid hid')
    simp only [node?, Std.ExtTreeMap.getElem?_eq_none hid, Std.ExtTreeMap.getElem?_eq_none hid']

/-- A type and a union of two copies of it come to the same nodes. -/
theorem nodes_eq_of_root_eq_repeated :
    ∃ b c, endless.canonical? .legible .sha256 = some b ∧
      repeated.canonical? .legible .sha256 = some c ∧
      Digester.legible.CollisionFree .sha256
        (endless.texts .legible .sha256 ∪ repeated.texts .legible .sha256) ∧
      endless.Settled .legible .sha256 ∧ repeated.Settled .legible .sha256 ∧
      (∀ t, endless.Folds .legible .sha256 t → t.Linked) ∧
      Arena.Finite b.nodes ∧ Arena.Finite c.nodes ∧ b.root = c.root ∧
      ∀ id, (b.node? id).map Node.erased = (c.node? id).map Node.erased := by
  have hrun : ((endless.canonical? .legible .sha256).any fun b =>
      (repeated.canonical? .legible .sha256).any fun c => b.root == c.root) = true := by decide +kernel
  obtain ⟨b, hb, hrun⟩ := (Option.any_eq_true _ _).1 hrun
  obtain ⟨c, hc, hrun⟩ := (Option.any_eq_true _ _).1 hrun
  have hroot := beq_iff_eq.1 hrun
  have hfree := Digester.legible_collisionFree .sha256
    (endless.texts .legible .sha256 ∪ repeated.texts .legible .sha256)
  have hg := settled_of_upright endless_upright
  have hh := settled_of_upright repeated_upright
  have hlinked := linked_of_upright endless_upright
  have hbfin := finite_of_canonical? hb (finite_ofNodes rfl)
  have hcfin := finite_of_canonical? hc (finite_ofNodes rfl)
  exact ⟨b, c, hb, hc, hfree, hg, hh, hlinked, hbfin, hcfin, hroot,
    nodes_eq_of_root_eq hb hc hfree hg hh hlinked hbfin hcfin hroot⟩

end Graph

end TypeAtlas
