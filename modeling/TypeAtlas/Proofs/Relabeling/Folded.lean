import TypeAtlas.Proofs.Normal.Fuel
import TypeAtlas.Proofs.Normal.Known
import TypeAtlas.Proofs.Parallel
import TypeAtlas.Proofs.Relabeling.Term
import TypeAtlas.Proofs.Resolution.Sourced

/-! # Folds side by side

A fold below a relabelled node goes along with that below the node: both come to the same terms, but
for labels. The second fold may also go without the deadline of the first one. Then they end alike
unless the first one is out of time.
-/

namespace TypeAtlas.Folding

open Relation

variable {σ : Relabeling} {D : NodeId → Prop} {P : Diagnostic → Prop} {exact : Prop} {timed : Bool}
  {s s' : Setting} {α β : Type}

def reportable : List DiagnosticKey := [.unionHeterogeneous, .intersectionConflict, .recursionCycle,
  .compositeCollapsed, .tagIncompatibleType, .tagFieldNotFound]

/-- The second graph holds the nodes that satisfy the predicate, and all below them, relabelled. They are
recursion targets in both graphs alike, and what a fold says of a missing node is the same. What the
graph itself is called matters only if the folds must agree in what is reported, but the predicate of
diagnostics is true of whatever is reported. -/
structure Setting.Relabeled (σ : Relabeling) (D : NodeId → Prop) (P : Diagnostic → Prop) (exact : Prop)
    (s s' : Setting) : Prop where
  digester : s'.digester = s.digester
  algorithm : s'.algorithm = s.algorithm
  node : ∀ id, D id → s'.graph.node? (σ.node id) = (s.graph.node? id).map σ.graphNode
  size : s.graph.nodes.size ≤ s'.graph.nodes.size
  child : ∀ x y, D x → s.graph.nodes.HasChild x y → D y
  binders : ∀ id, D id → (σ.node id ∈ s'.binders ↔ id ∈ s.binders)
  target : ∀ id, D id → id ∈ s.binders → σ.target id = σ.node id
  missing : ∀ id, D id → s.graph.node? id = none → σ.node id = id
  cyclic : exact → ∀ id, D id → TransGen s.graph.nodes.HasChild id id → σ.node id = id
  symbol : exact → s'.graph.symbol = s.graph.symbol
  place : exact → ∀ id, s'.graph.place (σ.node id) = s.graph.place id
  render : ∀ id, Parallel Never (fun x y => exact → y = x) (s.graph.render id)
    (s'.graph.render (σ.node id))
  reports : ∀ key ∈ reportable, ∀ args place context, P (Diagnostic.make key args place context)

/-- Both folds have come to the same place, but for labels. -/
structure State.Relabeled (σ : Relabeling) (D : NodeId → Prop) (P : Diagnostic → Prop) (exact : Prop)
    (timed : Bool) (st st' : State) : Prop where
  sink : exact → st'.sink = st.sink
  hasErrors : st'.sink.hasErrors = st.sink.hasErrors
  reported : ∀ d ∈ st.sink.toList, P d
  closed : ∀ id, D id → st'.closed[σ.node id]? = st.closed[id]?.map σ.term
  dead : ∀ id, D id → (σ.node id ∈ st'.dead ↔ id ∈ st.dead)
  deadline : st'.deadline = if timed then st.deadline else none

theorem State.relabeled_initial {deadline deadline' : Option Deadline}
    (h : deadline' = if timed then deadline else none) :
    State.Relabeled σ D P exact timed { deadline } { deadline := deadline' } where
  sink _ := rfl
  hasErrors := rfl
  reported := by simp [Sink.toList]
  closed id _ := by simp
  dead id _ := by simp
  deadline := h

inductive Late : Fault → Prop
  | mk {seconds : Number} : Late (.deadlineExpired seconds)

/-- Whatever the first fold does, the second one does alike, unless the first is out of time. -/
abbrev Accompanies (σ : Relabeling) (D : NodeId → Prop) (P : Diagnostic → Prop) (exact : Prop)
    (timed : Bool) (R : α → β → Prop) (m : M α) (m' : M β) : Prop :=
  Along Late (State.Relabeled σ D P exact timed) R m m'

/-- Results that are the same but for labels. -/
abbrev Relabels (σ : Relabeling) : Term → Term → Prop := fun t u => u = σ.term t

/-- Results that are the same but for labels, or are made for the two nodes in the same way. -/
def Ascribes (σ : Relabeling) (n n' : Node) (t u : Term) : Prop :=
  u = σ.term t ∨ u = (σ.term t).ascribed n' ∧ t.head.rawId = n.id ∧ t.head.location = n.location

namespace Ascribes

variable {n n' : Node} {t u : Term}

theorem relabels (h : Ascribes σ n (σ.graphNode n) t u) : Relabels σ t u := by
  rcases h with h | ⟨rfl, hid, hlocation⟩
  · exact h
  · obtain ⟨⟨shape, digest, raw, tags, location⟩, cs⟩ := t
    obtain rfl : raw = n.id := hid
    obtain rfl : location = n.location := hlocation
    rw [Relabels, σ.term_mk]
    rfl

theorem free (h : Ascribes σ n n' t u) : u.free = t.free := by
  rcases h with rfl | ⟨rfl, -, -⟩
  · exact σ.free_term t
  · exact σ.free_term t

theorem asTarget (h : Ascribes σ n n' t u) (d : Digester) (a : Algorithm) (height : ℕ) :
    Parallel Never (Ascribes σ n n') (t.asTarget d a height) (u.asTarget d a height) := by
  rcases h with rfl | ⟨rfl, hid, hlocation⟩
  · rw [σ.asTarget_term]
    exact (Parallel.of_map _ _).imp fun _ _ => .inl
  · rw [Term.asTarget_ascribed, σ.asTarget_term]
    cases ht : t.asTarget d a height with
    | error e => exact .error
    | ok x =>
      obtain ⟨digest, -, rfl⟩ := Term.asTarget_eq_ok ht
      exact .ok (.inr ⟨rfl, hid, hlocation⟩)

end Ascribes

theorem eq_map_of_forall₂ {g : α → β} {xs : List α} {ys : List β}
    (h : List.Forall₂ (fun x y => y = g x) xs ys) : ys = xs.map g := by
  have h : List.Forall₂ (· = ·) ys (xs.map g) := (List.forall₂_map_left_iff.2 h).flip
  rwa [List.forall₂_eq_eq_eq] at h

/-- The same members, and the same nodes that have been spliced, but for labels. -/
structure SameFlat (σ : Relabeling) (D : NodeId → Prop)
    (p' p : List NodeId × Std.ExtTreeSet NodeId) : Prop where
  flat : p'.1 = p.1.map σ.node
  seen : ∀ x, D x → (σ.node x ∈ p'.2 ↔ x ∈ p.2)

/-! ## Steps -/

theorem accompanies_written {R : α → β → Prop} {x : Except Json.WriteError α}
    {y : Except Json.WriteError β} (h : Parallel Never R x y) :
    Accompanies σ D P exact timed R (written x) (written y) := by
  apply along_lift
  cases h with
  | ok h => exact .ok h
  | error => exact .error
  | cut h => exact h.elim

theorem accompanies_written_map (f : α → β) (x : Except Json.WriteError α) :
    Accompanies σ D P exact timed (fun a b => b = f a) (written x) (written (x.map f)) :=
  accompanies_written (.of_map f x)

theorem accompanies_checkDeadline :
    Accompanies σ D P exact timed (fun _ _ => True) checkDeadline checkDeadline := by
  refine along_get.bind fun st st' hst => ?_
  rw [hst.deadline]
  cases timed with
  | true =>
    rw [if_pos rfl]
    cases st.deadline with
    | none => exact along_pure trivial
    | some d =>
      dsimp only
      rcases d.expired with ⟨late, d'⟩
      refine (along_modify fun st st' hst => ?_).bind fun _ _ _ => ?_
      · exact { hst with deadline := rfl }
      · cases late with
        | true => exact along_throw
        | false => exact along_pure trivial
  | false =>
    rw [if_neg Bool.false_ne_true]
    cases st.deadline with
    | none => exact along_pure trivial
    | some d =>
      intro st st' hst
      dsimp only
      rcases d.expired with ⟨_ | _, d'⟩
      · exact .ok ⟨trivial, { hst with deadline := hst.deadline }⟩
      · exact .cut .mk

section Steps

variable (hs : s.Relabeled σ D P exact s')

include hs

theorem accompanies_report {args args' : List Datum} (hargs : exact → args' = args)
    {key : DiagnosticKey} (hkey : key ∈ reportable) (id : NodeId) (field : Option String) :
    Accompanies σ D P exact timed (fun _ _ => True) (report s key args id field)
      (report s' key args' (σ.node id) field) := by
  refine along_modify fun st st' hst => { hst with
    sink := fun h => ?_, hasErrors := ?_, reported := fun d hd => ?_ }
  · rw [hs.place h, hs.symbol h, hargs h, hst.sink h]
  · rw [Sink.hasErrors_emit, Sink.hasErrors_emit, hst.hasErrors]
    rfl
  · rw [Sink.toList_emit, List.mem_append, List.mem_singleton] at hd
    rcases hd with hd | rfl
    · exact hst.reported d hd
    · exact hs.reports key hkey _ _ _

theorem accompanies_render (id : NodeId) :
    Accompanies σ D P exact timed (fun x y => exact → y = x) (render s id) (render s' (σ.node id)) :=
  accompanies_written (hs.render id)

theorem accompanies_term (shape : TermShape) (id : NodeId) (ts : List Term) (tags : List Tag)
    (location : Option SourceLocation) :
    Accompanies σ D P exact timed (Relabels σ) (term s shape id ts tags location)
      (term s' (σ.termShape shape) (σ.node id) (ts.map σ.term) tags (location.map σ.location)) := by
  rw [term, term, hs.digester, hs.algorithm, σ.make_term]
  exact accompanies_written_map _ _

theorem accompanies_unknownTerm (id : NodeId) (reason : String) (cause : UnknownCause) :
    Accompanies σ D P exact timed (Relabels σ) (unknownTerm s id reason cause)
      (unknownTerm s' (σ.node id) reason cause) :=
  accompanies_term hs (.unknown reason cause) id [] [] none

/-! ## Members -/

theorem contains_binders_relabeled {id : NodeId} (hid : D id) :
    s'.binders.contains (σ.node id) = s.binders.contains id := by
  rw [Bool.eq_iff_iff]
  exact hs.binders id hid

theorem relabeled_reaches {x y : NodeId} (hx : D x) (h : ReflTransGen s.graph.nodes.HasChild x y) :
    D y := by
  induction h with
  | refl => exact hx
  | tail _ hc ih => exact hs.child _ _ ih hc

theorem spliceable?_relabeled {members? : Shape → Option (List NodeId)}
    (hm : ∀ shape, members? (σ.shape shape) = (members? shape).map (List.map σ.node)) {id : NodeId}
    (hid : D id) :
    spliceable? s' members? (σ.node id) = (spliceable? s members? id).map (List.map σ.node) := by
  rw [spliceable?, spliceable?, hs.node id hid, contains_binders_relabeled hs hid]
  cases s.graph.node? id with
  | none => rfl
  | some n =>
    simp only [Option.map_some, Relabeling.graphNode, hm]
    split <;> rfl

omit hs in
theorem seen_insert {seen seen' : Std.ExtTreeSet NodeId}
    (h : ∀ x, D x → (σ.node x ∈ seen' ↔ x ∈ seen)) (id : NodeId) :
    ∀ x, D x → (σ.node x ∈ seen'.insert (σ.node id) ↔ x ∈ seen.insert id) := by
  intro x hx
  simp only [Std.ExtTreeSet.mem_insert, Std.LawfulEqCmp.compare_eq_iff_eq, σ.node_injective.eq_iff,
    h x hx]

theorem flatten_relabeled {members? : Shape → Option (List NodeId)}
    (hm : ∀ shape, members? (σ.shape shape) = (members? shape).map (List.map σ.node))
    (hchildren : ∀ shape ms, members? shape = some ms → ms = shape.children) (fuel : ℕ)
    {ids : List NodeId} (hids : ∀ id ∈ ids, D id) {seen seen' : Std.ExtTreeSet NodeId}
    (hseen : ∀ x, D x → (σ.node x ∈ seen' ↔ x ∈ seen)) :
    SameFlat σ D (flatten s' members? fuel (ids.map σ.node) seen') (flatten s members? fuel ids seen) := by
  induction fuel generalizing ids seen seen' with
  | zero => exact ⟨rfl, hseen⟩
  | succ fuel ih =>
    rw [flatten, flatten, List.foldl_map]
    refine List.foldl_rel (r := SameFlat σ D) ⟨rfl, hseen⟩ ?_
    rintro id hmem ⟨flat', seen'⟩ ⟨flat, seen⟩ ⟨hflat, hseen⟩
    have hid := hids id hmem
    obtain rfl : flat' = flat.map σ.node := hflat
    have hone : flat.map σ.node ++ [σ.node id] = (flat ++ [id]).map σ.node := by
      rw [List.map_append]
      rfl
    have hcontains : seen'.contains (σ.node id) = seen.contains id := by
      rw [Bool.eq_iff_iff]
      exact hseen id hid
    dsimp only
    rw [spliceable?_relabeled hs hm hid, hcontains]
    cases hinner : spliceable? s members? id with
    | none => exact ⟨hone, hseen⟩
    | some inner =>
      rw [Option.map_some]
      dsimp only
      split
      · exact ⟨hone, hseen⟩
      · obtain ⟨n, hn, hmembers⟩ := exists_of_spliceable hinner
        have hbelow : ∀ c ∈ inner, D c := fun c hc =>
          hs.child id c hid ⟨n, hn, hchildren _ _ hmembers ▸ hc⟩
        have hmore := ih hbelow (seen_insert hseen id)
        exact ⟨by rw [hmore.flat]; exact List.map_append.symm, hmore.seen⟩

omit hs in
/-- Members are built one after the other, and what a collapse has left is spliced. -/
theorem accompanies_spliced {build build' : NodeId → M Term} (kind : String) {flat : List NodeId}
    (hbuild : ∀ x ∈ flat, Accompanies σ D P exact timed (Relabels σ) (build x) (build' (σ.node x))) :
    Accompanies σ D P exact timed (fun ms ms' => ms' = ms.map σ.member)
      (do
        let built ← flat.mapM fun id => do return (id, ← build id)
        return built.flatMap (splice kind))
      (do
        let built ← (flat.map σ.node).mapM fun id => do return (id, ← build' id)
        return built.flatMap (splice kind)) := by
  refine (along_mapM_mem (Q := fun m m' => m' = σ.member m) fun x hx => ?_).bind fun ms ms' hms =>
    along_pure ?_
  · refine (hbuild x hx).bind ?_
    rintro t _ rfl
    exact along_pure rfl
  · rw [eq_map_of_forall₂ hms, List.flatMap_map, List.map_flatMap]
    exact List.flatMap_congr fun m _ => σ.splice_member kind m

theorem accompanies_members {build build' : NodeId → M Term} (kind : String)
    {members? : Shape → Option (List NodeId)}
    (hm : ∀ shape, members? (σ.shape shape) = (members? shape).map (List.map σ.node))
    (hchildren : ∀ shape ms, members? shape = some ms → ms = shape.children) {ids : List NodeId}
    (hids : ∀ id ∈ ids, D id)
    (hbuild : ∀ y ∈ ids, ∀ x, ReflTransGen s.graph.nodes.HasChild y x →
      Accompanies σ D P exact timed (Relabels σ) (build x) (build' (σ.node x))) :
    Accompanies σ D P exact timed (fun ms ms' => ms' = ms.map σ.member) (members s build kind members? ids)
      (members s' build' kind members? (ids.map σ.node)) := by
  have hflat : (flatten s' members? s'.graph.nodes.size (ids.map σ.node) ∅).1 =
      (flatten s members? s.graph.nodes.size ids ∅).1.map σ.node := by
    rw [← (ample s).flatten members? ids _ hs.size]
    exact (flatten_relabeled hs hm hchildren _ hids (by simp)).flat
  rw [members, members, hflat]
  refine accompanies_spliced kind fun x hx => ?_
  obtain ⟨y, hy, hyx⟩ :=
    exists_of_mem_flatten (fun shape ms h m hmem => hchildren shape ms h ▸ hmem) hx
  exact hbuild y hy x hyx

/-! ## Fields -/

theorem accompanies_mergeField (owner : NodeId) (f : FieldTerm)
    {merged merged' : Std.ExtTreeMap String FieldTerm}
    (hmerged : merged' = merged.map fun _ f => σ.fieldTerm f) :
    Accompanies σ D P exact timed (fun m m' => m' = m.map fun _ f => σ.fieldTerm f)
      (mergeField s owner merged f) (mergeField s' (σ.node owner) merged' (σ.fieldTerm f)) := by
  subst hmerged
  have hinsert (g : FieldTerm) : (merged.map fun _ f => σ.fieldTerm f).insert f.1.name (σ.fieldTerm g) =
      (merged.insert f.1.name g).map fun _ f => σ.fieldTerm f := by
    refine Std.ExtTreeMap.ext_getElem? fun k => ?_
    simp only [Std.ExtTreeMap.getElem?_insert, Std.ExtTreeMap.getElem?_map]
    split <;> rfl
  have hname : (σ.fieldTerm f).1.name = f.1.name := rfl
  rw [mergeField, mergeField, hname, Std.ExtTreeMap.getElem?_map]
  cases merged[f.1.name]? with
  | none => exact along_pure (hinsert f)
  | some g =>
    have hdigest (f : FieldTerm) : (σ.fieldTerm f).2.digest = f.2.digest := σ.digest_term f.2
    dsimp only [Option.map_some]
    rw [hdigest, hdigest]
    by_cases hsame : g.2.digest = f.2.digest
    · rw [if_neg (not_not.2 hsame), if_neg (not_not.2 hsame)]
      by_cases hoptional : g.1.optional && !f.1.optional
      · rw [if_pos hoptional, if_pos (c := (σ.fieldTerm g).1.optional && !(σ.fieldTerm f).1.optional)
          hoptional]
        exact along_pure (hinsert ({ g.1 with optional := false }, g.2))
      · rw [if_neg hoptional, if_neg (c := (σ.fieldTerm g).1.optional && !(σ.fieldTerm f).1.optional)
          hoptional]
        exact along_pure rfl
    · rw [if_pos hsame, if_pos hsame]
      refine (accompanies_render hs _).bind fun x x' hx =>
        (accompanies_render hs _).bind fun y y' hy => ?_
      refine (accompanies_report hs (fun h => ?_) (by decide) _ _).bind fun _ _ _ => along_pure rfl
      rw [hx h, hy h]

theorem accompanies_mergeFields (owner : NodeId) (fs : List FieldTerm) :
    Accompanies σ D P exact timed (fun gs gs' => gs' = gs.map σ.fieldTerm) (mergeFields s owner fs)
      (mergeFields s' (σ.node owner) (fs.map σ.fieldTerm)) := by
  refine (along_foldlM (fun _ _ f => accompanies_mergeField hs owner f) fs ?_).bind fun m m' hm =>
    along_pure ?_
  · refine Std.ExtTreeMap.ext_getElem? fun k => ?_
    simp
  · rw [hm, Std.ExtTreeMap.toList_map, List.map_map, List.map_map]
    rfl

theorem accompanies_objectTerm (fs : List FieldTerm) (n : Node) :
    Accompanies σ D P exact timed (Relabels σ) (objectTerm s fs n)
      (objectTerm s' (fs.map σ.fieldTerm) (σ.graphNode n)) := by
  have h : Accompanies σ D P exact timed (Relabels σ) _ _ :=
    accompanies_term hs (.object (fs.map Prod.fst)) n.id (fs.map Prod.snd) n.tags n.location
  rw [Relabeling.termShape, List.map_map, List.map_map] at h
  rw [objectTerm, objectTerm, List.map_map, List.map_map]
  exact h

/-! ## Composites -/

theorem accompanies_composite_of {n n' : Node} (hid : n'.id = σ.node n.id) (htags : n'.tags = n.tags)
    (kind : String) (shape : TermShape) (ts : List Term) (binder : Bool) (field : Option String) :
    Accompanies σ D P exact timed (Ascribes σ n n') (composite s kind shape n ts binder field)
      (composite s' kind (σ.termShape shape) n' (ts.map σ.term) binder field) := by
  have hterm : Accompanies σ D P exact timed (Ascribes σ n n') (term s shape n.id ts n.tags n.location)
      (term s' (σ.termShape shape) n'.id (ts.map σ.term) n'.tags n'.location) := by
    rw [term, term, hs.digester, hs.algorithm, htags, Term.make_ascribed s.digester s.algorithm n'
      (σ.termShape shape) (σ.node n.id) (ts.map σ.term) n.tags (n.location.map σ.location), σ.make_term]
    refine accompanies_written ?_
    cases ht : Term.make s.digester s.algorithm shape n.id ts n.tags n.location with
    | error e => exact .error
    | ok t =>
      obtain ⟨digest, -, rfl⟩ := Term.make_eq_ok ht
      exact .ok (.inr ⟨rfl, rfl, rfl⟩)
  unfold composite
  match ts with
  | [] => exact hterm
  | [only] =>
    have hraw : (σ.term only).head.rawId = σ.node only.head.rawId := by
      rw [σ.head_term]
      rfl
    simp only [List.map_cons, List.map_nil, hraw, htags] at hterm ⊢
    split
    · refine (accompanies_render hs _).bind fun x y hxy => ?_
      rw [hid]
      refine (accompanies_report hs (fun h => ?_) (by decide) _ _).bind fun _ _ _ => along_pure (.inl rfl)
      rw [hxy h]
    · exact hterm
  | _ :: _ :: _ => exact hterm

theorem accompanies_composite (kind : String) (shape : TermShape) (n : Node) (ts : List Term)
    (binder : Bool) (field : Option String) :
    Accompanies σ D P exact timed (Relabels σ) (composite s kind shape n ts binder field)
      (composite s' kind (σ.termShape shape) (σ.graphNode n) (ts.map σ.term) binder field) := by
  have hid : (σ.graphNode n).id = σ.node n.id := rfl
  have htags : (σ.graphNode n).tags = n.tags := rfl
  exact (accompanies_composite_of hs hid htags kind shape ts binder field).imp fun _ _ h => h.relabels

theorem accompanies_unionTerm_of {n n' : Node} (hid : n'.id = σ.node n.id) (htags : n'.tags = n.tags)
    (ms : List Member) (binder : Bool) (field : Option String) :
    Accompanies σ D P exact timed (Ascribes σ n n') (unionTerm s n ms binder field)
      (unionTerm s' n' (ms.map σ.member) binder field) := by
  have hsorting : (ms.map σ.member).foldl Sorting.add {} = σ.sorting (ms.foldl Sorting.add {}) :=
    σ.foldl_sorting ms {}
  have hcomposite (kept : List Term) : Accompanies σ D P exact timed (Ascribes σ n n')
      (composite s "union" (.union (discriminant? (sortedUnique kept))) n (sortedUnique kept) binder field)
      (composite s' "union" (.union (discriminant? (sortedUnique (kept.map σ.term)))) n'
        (sortedUnique (kept.map σ.term)) binder field) := by
    rw [σ.sortedUnique_map, σ.discriminant?_map]
    exact accompanies_composite_of hs hid htags "union" (.union (discriminant? (sortedUnique kept))) _
      binder field
  unfold unionTerm
  dsimp only
  rw [hsorting, hid]
  generalize ms.foldl Sorting.add {} = acc
  rw [show (σ.sorting acc).offending = acc.offending.map σ.node from rfl,
    show (σ.sorting acc).kept = acc.kept.map σ.term from rfl]
  cases acc.offending with
  | none => exact hcomposite acc.kept
  | some id =>
    refine (accompanies_render hs id).bind fun x y hxy => ?_
    refine (accompanies_report hs (fun h => by rw [hxy h]) (by decide) _ _).bind fun _ _ _ => ?_
    refine (accompanies_unknownTerm hs n.id _ _).bind fun rest rest' hrest => ?_
    subst hrest
    have hkept : acc.kept.map σ.term ++ [σ.term rest] = (acc.kept ++ [rest]).map σ.term := by
      rw [List.map_append]
      rfl
    refine (along_pure (R := fun ts ts' => ts' = ts.map σ.term) hkept).bind ?_
    rintro kept _ rfl
    exact hcomposite kept

theorem accompanies_unionTerm (n : Node) (ms : List Member) (binder : Bool) (field : Option String) :
    Accompanies σ D P exact timed (Relabels σ) (unionTerm s n ms binder field)
      (unionTerm s' (σ.graphNode n) (ms.map σ.member) binder field) := by
  have hid : (σ.graphNode n).id = σ.node n.id := rfl
  have htags : (σ.graphNode n).tags = n.tags := rfl
  exact (accompanies_unionTerm_of hs hid htags ms binder field).imp fun _ _ h => h.relabels

theorem accompanies_intersectionTerm (n : Node) (ms : List Member) (binder : Bool)
    (field : Option String) :
    Accompanies σ D P exact timed (Relabels σ) (intersectionTerm s n ms binder field)
      (intersectionTerm s' (σ.graphNode n) (ms.map σ.member) binder field) := by
  have hterms : (ms.map σ.member).map Prod.snd = (ms.map Prod.snd).map σ.term := by
    rw [List.map_map, List.map_map]
    rfl
  unfold intersectionTerm
  dsimp only
  rw [hterms, σ.mapM_objectBody?]
  generalize ms.map Prod.snd = ts
  have hplain : Accompanies σ D P exact timed (Relabels σ)
      (composite s "intersection" .intersection n (sortedUnique ts) binder field)
      (composite s' "intersection" .intersection (σ.graphNode n) (sortedUnique (ts.map σ.term)) binder
        field) := by
    rw [σ.sortedUnique_map]
    exact accompanies_composite hs "intersection" .intersection n _ binder field
  cases ts with
  | nil => exact hplain
  | cons t ts =>
    cases (t :: ts).mapM Term.objectBody? with
    | none => exact hplain
    | some bodies =>
      simp only [Option.map_some, List.map_cons, ← List.map_flatten]
      refine (accompanies_mergeFields hs n.id bodies.flatten).bind ?_
      rintro fs _ rfl
      exact accompanies_objectTerm hs fs n

/-! ## Tags -/

theorem accompanies_reportIncompatible (tag : Tag) (t : Term) (id : NodeId) (field : Option String) :
    Accompanies σ D P exact timed (fun _ _ => True) (reportIncompatible s tag t id field)
      (reportIncompatible s' tag (σ.term t) (σ.node id) field) := by
  have hraw : (σ.term t).head.rawId = σ.node t.head.rawId := by
    rw [σ.head_term]
    rfl
  rw [reportIncompatible, reportIncompatible, hraw]
  exact (accompanies_render hs _).bind fun x y hxy =>
    accompanies_report hs (fun h => by rw [hxy h]) (by decide) _ _

omit hs in
theorem accompanies_indexFields (tag : Tag) :
    Accompanies σ D P exact timed (· = ·) (indexFields tag) (indexFields tag) := by
  unfold indexFields
  split
  all_goals first
    | exact along_pure rfl
    | exact along_throw

omit hs in
theorem accompanies_namesField (fs : List FieldTerm) (name : Datum) :
    Accompanies σ D P exact timed (· = ·) (namesField fs name) (namesField (fs.map σ.fieldTerm) name) := by
  unfold namesField
  split
  · exact along_pure (by rw [List.any_map]; rfl)
  · exact along_throw
  · exact along_throw
  · exact along_pure rfl

theorem accompanies_checkIndex (tag : Tag) (t : Term) (id : NodeId) :
    Accompanies σ D P exact timed (fun _ _ => True) (checkIndex s tag t id)
      (checkIndex s' tag (σ.term t) (σ.node id)) := by
  rw [checkIndex, checkIndex, σ.dereference_term, σ.fields?_term]
  cases t.dereference.fields? with
  | none =>
    simp only [Option.map_none, σ.kinds?_term]
    split
    · exact accompanies_reportIncompatible hs tag t id none
    · exact along_pure trivial
  | some fs =>
    refine (accompanies_indexFields tag).bind ?_
    rintro names _ rfl
    refine (along_forIn_same (fun name => ?_) names).bind fun _ _ _ => along_pure trivial
    refine (accompanies_namesField fs name).bind ?_
    rintro b _ rfl
    split
    · exact (accompanies_report hs (fun _ => rfl) (by decide) _ _).bind fun _ _ _ => along_pure rfl
    · exact along_pure rfl

theorem accompanies_checkTags (tags : List Tag) (t : Term) (id : NodeId) (field : Option String)
    (entity : Bool) :
    Accompanies σ D P exact timed (fun _ _ => True) (checkTags s tags t id field entity)
      (checkTags s' tags (σ.term t) (σ.node id) field entity) := by
  unfold checkTags
  refine (along_forIn_same (fun tag => ?_) tags).bind fun _ _ _ => along_pure trivial
  rw [σ.kinds?_term]
  split
  · split
    · split
      · exact (accompanies_checkIndex hs tag t id).bind fun _ _ _ => along_pure rfl
      · exact along_pure rfl
    · split
      · split
        · exact (accompanies_reportIncompatible hs tag t id field).bind fun _ _ _ => along_pure rfl
        · exact along_pure rfl
      · exact along_pure rfl
  · exact along_pure rfl

/-! ## Nodes -/

/-- Whatever is folded below a node, both folds come to the same term. -/
abbrev BuildsBelow (σ : Relabeling) (D : NodeId → Prop) (P : Diagnostic → Prop) (exact : Prop)
    (timed : Bool) (s : Setting) (id : NodeId) (build build' : Option String → NodeId → M Term) : Prop :=
  ∀ field x, TransGen s.graph.nodes.HasChild id x →
    Accompanies σ D P exact timed (Relabels σ) (build field x) (build' field (σ.node x))

omit hs in
theorem idxOf?_targets (stack : List NodeId) (target : NodeId) :
    (stack.map σ.target).idxOf? (σ.target target) = stack.idxOf? target := by
  induction stack with
  | nil => rfl
  | cons y ys ih =>
    rw [List.map_cons, List.idxOf?_cons, List.idxOf?_cons, ih]
    have hbeq : (σ.target y == σ.target target) = (y == target) := by
      rw [Bool.eq_iff_iff, beq_iff_eq, beq_iff_eq, σ.target_injective.eq_iff]
    rw [hbeq]

theorem accompanies_recursiveTerm (n : Node) (target : NodeId) (symbol : String) (stack : List NodeId) :
    Accompanies σ D P exact timed (Relabels σ) (recursiveTerm s n target symbol stack)
      (recursiveTerm s' (σ.graphNode n) (σ.target target) (σ.symbol symbol) (stack.map σ.target)) := by
  rw [recursiveTerm, recursiveTerm, idxOf?_targets, List.length_map]
  exact accompanies_term hs (.recursiveRef symbol target _) n.id [] n.tags n.location

theorem accompanies_nodeTerm {build build' : Option String → NodeId → M Term} {id : NodeId} {n : Node}
    (hid : D id) (hn : s.graph.node? id = some n)
    (hbuild : BuildsBelow σ D P exact timed s id build build') (stack : List NodeId)
    (field : Option String) (binder : Bool) :
    Accompanies σ D P exact timed (Relabels σ) (nodeTerm s build n stack field binder)
      (nodeTerm s' build' (σ.graphNode n) (stack.map σ.target) field binder) := by
  have hchild {x : NodeId} (hx : x ∈ n.shape.children) : s.graph.nodes.HasChild id x := ⟨n, hn, hx⟩
  have hnode (shape : TermShape) (ts : List Term) : Accompanies σ D P exact timed (Relabels σ) _ _ :=
    accompanies_term hs shape n.id ts n.tags n.location
  have hleaf (shape : TermShape) := hnode shape []
  have hone (shape : TermShape) {e : NodeId} (he : e ∈ n.shape.children) :
      Accompanies σ D P exact timed (Relabels σ)
        (build field e >>= fun t => term s shape n.id [t] n.tags n.location)
        (build' field (σ.node e) >>= fun t => term s' (σ.termShape shape) (σ.node n.id) [t] n.tags
          (n.location.map σ.location)) := by
    refine (hbuild field e (.single (hchild he))).bind ?_
    rintro t _ rfl
    exact hnode shape [t]
  have hmembers (kind : String) {members? : Shape → Option (List NodeId)} {ms : List NodeId}
      (hm : ∀ shape, members? (σ.shape shape) = (members? shape).map (List.map σ.node))
      (hchildren : ∀ shape ms, members? shape = some ms → ms = shape.children)
      (hms : members? n.shape = some ms) :
      Accompanies σ D P exact timed (fun ms ms' => ms' = ms.map σ.member)
        (members s (build field) kind members? ms)
        (members s' (build' field) kind members? (ms.map σ.node)) := by
    obtain rfl := hchildren _ _ hms
    refine accompanies_members hs kind hm hchildren (fun x hx => hs.child id x hid (hchild hx)) ?_
    exact fun y hy x hyx => hbuild field x (.head' (hchild hy) hyx)
  have hfield (f : Field) (hf : f.type ∈ n.shape.children) :
      Accompanies σ D P exact timed (fun g g' => g' = σ.fieldTerm g)
        (do
          let t ← build (some f.name) f.type
          return (⟨f.name, f.optional, f.readonly, f.tags, f.location, f.type⟩, t))
        (do
          let t ← build' (some (σ.field f).name) (σ.field f).type
          return (⟨(σ.field f).name, (σ.field f).optional, (σ.field f).readonly, (σ.field f).tags,
            (σ.field f).location, (σ.field f).type⟩, t)) := by
    refine (hbuild (some f.name) f.type (.single (hchild hf))).bind ?_
    rintro t _ rfl
    exact along_pure rfl
  have hunion (ms : List Member) : Accompanies σ D P exact timed (Relabels σ) _ _ :=
    accompanies_unionTerm hs n ms binder field
  have hintersection (ms : List Member) : Accompanies σ D P exact timed (Relabels σ) _ _ :=
    accompanies_intersectionTerm hs n ms binder field
  have hobject (fs : List FieldTerm) : Accompanies σ D P exact timed (Relabels σ) _ _ :=
    accompanies_objectTerm hs fs n
  obtain ⟨i, shape, tags, l⟩ := n
  unfold nodeTerm
  cases shape with
  | primitive p => exact hleaf (.primitive p)
  | literal k v => exact hleaf (.literal k v)
  | enum ms => exact hleaf (.enum (sortMembers ms))
  | unknown r c => exact hleaf (.unknown r c)
  | recursiveRef target symbol => exact accompanies_recursiveTerm hs _ target symbol stack
  | array e => exact hone .array List.mem_cons_self
  | reference target symbol => exact hone (.reference symbol) List.mem_cons_self
  | tuple es =>
    refine (along_mapM_mem fun x hx => hbuild field x (.single (hchild hx))).bind fun ts ts' hts => ?_
    rw [eq_map_of_forall₂ hts]
    exact hnode .tuple ts
  | object fs =>
    refine (along_mapM_mem fun f hf => hfield f (List.mem_map_of_mem hf)).bind fun built built' hbuilt => ?_
    rw [eq_map_of_forall₂ hbuilt]
    refine (accompanies_mergeFields hs i built).bind ?_
    rintro merged _ rfl
    refine (along_forIn (fun f => ?_) merged).bind fun _ _ _ => hobject merged
    exact (accompanies_checkTags hs f.1.tags f.2 i (some f.1.name) false).bind fun _ _ _ =>
      along_pure rfl
  | union ms δ =>
    refine (hmembers "union" (fun shape => ?_) (fun _ _ => eq_children_of_unionMembers) rfl).bind ?_
    · cases shape <;> rfl
    · rintro ms _ rfl
      exact hunion ms
  | intersection ms =>
    refine (hmembers "intersection" (fun shape => ?_) (fun _ _ => eq_children_of_intersectionMembers)
      rfl).bind ?_
    · cases shape <;> rfl
    · rintro ms _ rfl
      exact hintersection ms

/-- Giving up a recursion target takes back what was reported in both folds. -/
theorem parallel_targetTerm {R : Term → Term → Prop} (hfree : ∀ t u, R t u → u.free = t.free)
    (htarget : ∀ t u height, R t u → Parallel Never R (t.asTarget s.digester s.algorithm height)
      (u.asTarget s.digester s.algorithm height))
    {build build' : List NodeId → Option String → NodeId → M Term} {id id' : NodeId} {n n' : Node}
    {stack stack' : List NodeId} {field : Option String} (hid : σ.node id = id')
    (hlen : stack'.length = stack.length) (hbinder : s'.binders.contains id' = s.binders.contains id)
    (htried : id ∈ s.binders → Accompanies σ D P exact timed R
      (nodeTerm s (build (id :: stack)) n (id :: stack) field true)
      (nodeTerm s' (build' (id' :: stack')) n' (id' :: stack') field true))
    (hplain : Accompanies σ D P exact timed R (nodeTerm s (build stack) n stack field false)
      (nodeTerm s' (build' stack') n' stack' field false))
    {st st' : State} (hst : State.Relabeled σ D P exact timed st st')
    (hdead : id' ∈ st'.dead ↔ id ∈ st.dead) :
    Parallel Late (fun p q => R p.1 q.1 ∧ State.Relabeled σ D P exact timed p.2 q.2)
      ((targetTerm s build id n stack field).run st)
      ((targetTerm s' build' id' n' stack' field).run st') := by
  subst hid
  have hcontains : st'.dead.contains (σ.node id) = st.dead.contains id := by
    rw [Bool.eq_iff_iff]
    exact hdead
  unfold targetTerm
  rw [Ends.run_bind (ends_get.2 ⟨rfl, rfl⟩), Ends.run_bind (ends_get.2 ⟨rfl, rfl⟩), hbinder, hcontains]
  split
  · next halive =>
    refine along_get.bind (fun before before' hbefore => ?_) st st' hst
    refine (htried (Bool.and_eq_true_iff.1 halive).1).bind fun t u htu => ?_
    rw [hfree t u htu, hlen]
    split
    · rw [hs.digester, hs.algorithm]
      exact accompanies_written (htarget t u _ htu)
    · refine (along_modify fun st st' hst => ?_).bind fun _ _ _ => hplain
      exact { hst with
        sink := hbefore.sink, hasErrors := hbefore.hasErrors, reported := hbefore.reported
        closed := hbefore.closed
        dead := seen_insert hst.dead id }
  · exact hplain st st' hst

theorem accompanies_targetTerm {build build' : List NodeId → Option String → NodeId → M Term}
    {id : NodeId} {n : Node} (hid : D id) (hn : s.graph.node? id = some n)
    (hbuild : ∀ stack, BuildsBelow σ D P exact timed s id (build stack) (build' (stack.map σ.target)))
    (stack : List NodeId) (field : Option String) :
    Accompanies σ D P exact timed (Relabels σ) (targetTerm s build id n stack field)
      (targetTerm s' build' (σ.node id) (σ.graphNode n) (stack.map σ.target) field) := by
  intro st st' hst
  refine parallel_targetTerm hs ?_ ?_ rfl (List.length_map _) (contains_binders_relabeled hs hid)
    (fun hbinder => ?_)
    (accompanies_nodeTerm hs hid hn (hbuild stack) stack field false) hst (hst.dead id hid)
  · rintro t _ rfl
    exact σ.free_term t
  · rintro t _ height rfl
    rw [σ.asTarget_term]
    exact .of_map _ _
  · have htried := accompanies_nodeTerm hs hid hn (hbuild (id :: stack)) (id :: stack) field true
    rwa [List.map_cons, hs.target id hid hbinder] at htried

/-- The path leads to the node, and the second path holds the same nodes. -/
structure SamePath (σ : Relabeling) (D : NodeId → Prop) (s : Setting)
    (path path' : Std.ExtTreeSet NodeId) (id : NodeId) : Prop where
  above : ∀ x ∈ path, TransGen s.graph.nodes.HasChild x id
  same : ∀ x, D x → (σ.node x ∈ path' ↔ x ∈ path)

omit hs in
theorem SamePath.below {path path' : Std.ExtTreeSet NodeId} {id x : NodeId}
    (h : SamePath σ D s path path' id) (hx : TransGen s.graph.nodes.HasChild id x) :
    SamePath σ D s (path.insert id) (path'.insert (σ.node id)) x where
  above y hy := by
    rcases Std.ExtTreeSet.mem_insert.1 hy with he | hy
    · obtain rfl : id = y := by simpa using he
      exact hx
    · exact (h.above y hy).trans hx
  same := seen_insert h.same id

theorem accompanies_build (fuel : ℕ) (path path' : Std.ExtTreeSet NodeId) (stack : List NodeId)
    (field : Option String) {id : NodeId} (hid : D id) (hpath : SamePath σ D s path path' id) :
    Accompanies σ D P exact timed (Relabels σ) (build s fuel path stack field id)
      (build s' fuel path' (stack.map σ.target) field (σ.node id)) := by
  induction fuel generalizing path path' stack field id with
  | zero => exact accompanies_unknownTerm hs _ _ _
  | succ fuel ih =>
    rw [build, build]
    refine accompanies_checkDeadline.bind fun _ _ _ => along_get.bind fun st st' hst => ?_
    rw [hst.closed id hid, hs.node id hid]
    cases st.closed[id]? with
    | some t => exact along_pure rfl
    | none =>
      cases hn : s.graph.node? id with
      | none =>
        have hmissing : Accompanies σ D P exact timed (Relabels σ) _ _ :=
          accompanies_unknownTerm hs id ("missing node " ++ id) .unresolved
        rw [hs.missing id hid hn] at hmissing
        simpa only [Option.map_none, hs.missing id hid hn] using hmissing
      | some n =>
        have hcontains : path'.contains (σ.node id) = path.contains id := by
          rw [Bool.eq_iff_iff]
          exact hpath.same id hid
        simp only [Option.map_some, Option.map_none, hcontains]
        split
        · next hcycle =>
          have hnamed (h : exact) : σ.node id = id := hs.cyclic h id hid (hpath.above id hcycle)
          exact (accompanies_report hs (fun h => by rw [hnamed h]) (by decide) _ _).bind fun _ _ _ =>
            accompanies_unknownTerm hs _ _ _
        · have hbelow (stack : List NodeId) : BuildsBelow σ D P exact timed s id
              (build s fuel (path.insert id) stack)
              (build s' fuel (path'.insert (σ.node id)) (stack.map σ.target)) := fun field x hx =>
            ih _ _ stack field (relabeled_reaches hs hid hx.to_reflTransGen) (hpath.below hx)
          refine (accompanies_targetTerm hs hid hn hbelow stack field).bind ?_
          rintro t _ rfl
          have hremember : Accompanies σ D P exact timed (Relabels σ)
              (do
                if t.free.isEmpty then modify fun st => { st with closed := st.closed.insert id t }
                return t)
              (do
                if (σ.term t).free.isEmpty then
                  modify fun st => { st with closed := st.closed.insert (σ.node id) (σ.term t) }
                return σ.term t) := by
            rw [σ.free_term]
            split
            · refine (along_modify fun st st' hst => ?_).bind fun _ _ _ => along_pure rfl
              refine { hst with closed := fun k hk => ?_ }
              simp only [Std.ExtTreeMap.getElem?_insert, Std.LawfulEqCmp.compare_eq_iff_eq,
                σ.node_injective.eq_iff, hst.closed k hk]
              split <;> rfl
            · exact along_pure rfl
          have htags : (σ.graphNode n).tags = n.tags := rfl
          rw [htags]
          split
          · exact (accompanies_checkTags hs n.tags t id none true).bind fun _ _ _ => hremember
          · exact hremember

end Steps

end TypeAtlas.Folding
