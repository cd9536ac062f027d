import TypeAtlas.Proofs.Graph.Sorted
import TypeAtlas.Proofs.Json.Encodable
import TypeAtlas.Proofs.Normal.Known
import TypeAtlas.Proofs.Normal.Unfailing

/-! # Folds that do not fail

Over a graph of which every value can be written, a fold without a deadline comes to a term, and
whatever this says can be written as well.
-/

namespace TypeAtlas

/-- The values that a term's shape holds can be written. -/
def TermShape.Encodable : TermShape → Prop
  | .literal _ x => x.Encodable
  | .enum ms => ∀ m ∈ ms, m.value.Encodable
  | .object heads => ∀ f ∈ heads, ∀ t ∈ f.tags, t.Encodable 247
  | .union δ => ∀ d, δ = some d → ∀ x ∈ d.values, x.Encodable
  | .recursiveRef _ _ link => ∀ p, link = some p → p.1 < 0x10000000000000000
  | _ => True

theorem writes_enumPayload {ms : List EnumMember} (h : ∀ m ∈ ms, m.value.Encodable) :
    ∀ f ∈ enumPayload ms, f.2.Writes 252 := by
  intro f hf
  obtain rfl := List.mem_singleton.1 hf
  refine (Datum.writes_list fun v hv => ?_ : Datum.Writes 2 _).mono (by decide)
  obtain ⟨m, hm, rfl⟩ := List.mem_map.1 hv
  refine Datum.writes_list ?_
  simp only [List.forall_mem_cons, List.not_mem_nil, false_implies, implies_true, and_true]
  exact ⟨Datum.writes_text _, (h m (List.mem_mergeSort.1 hm)).writes⟩

theorem writes_unionPayload {δ : Option Discriminant}
    (h : ∀ d, δ = some d → ∀ x ∈ d.values, x.Encodable) : ∀ f ∈ unionPayload δ, f.2.Writes 252 := by
  intro f hf
  cases δ with
  | none => cases hf
  | some δ =>
    obtain rfl := List.mem_singleton.1 hf
    refine (Datum.writes_record ?_ : Datum.Writes 2 _).mono (by decide)
    simp only [List.forall_mem_cons, List.not_mem_nil, false_implies, implies_true, and_true]
    refine ⟨Datum.writes_text _, Datum.writes_list fun v hv => ?_⟩
    obtain ⟨x, hx, rfl⟩ := List.mem_map.1 hv
    exact (h δ rfl x (Scalar.mem_sortValues.1 hx)).writes

theorem writes_recursionPayload {depth : Option ℕ} (h : ∀ n ∈ depth, n < 0x10000000000000000) :
    ∀ f ∈ recursionPayload depth, f.2.Writes 252 := by
  intro f hf
  obtain rfl := List.mem_singleton.1 hf
  cases depth with
  | none => exact Datum.writes_null
  | some n =>
    refine Datum.writes_number ?_
    have hn := h n rfl
    simp only [Number.Encodable, Json.encodable, Bool.and_eq_true, decide_eq_true_eq]
    omega

theorem TermShape.Encodable.writes {shape : TermShape} (h : shape.Encodable) :
    ∀ f ∈ shape.payload, f.2.Writes 252 := by
  cases shape with
  | enum ms => exact writes_enumPayload h
  | union δ => exact writes_unionPayload h
  | recursiveRef symbol raw link =>
    refine writes_recursionPayload fun n hn => ?_
    obtain ⟨p, hp, rfl⟩ := Option.map_eq_some_iff.1 hn
    exact h p hp
  | object heads =>
    intro f hf
    obtain rfl := List.mem_singleton.1 hf
    refine Datum.writes_list fun v hv => ?_
    obtain ⟨g, hg, rfl⟩ := List.mem_map.1 hv
    exact writes_fieldPayload _ _ _ (h g hg)
  | literal k x =>
    simp only [payload, literalPayload, List.forall_mem_cons, List.not_mem_nil, false_implies,
      implies_true, and_true]
    exact ⟨Datum.writes_text _, Scalar.Encodable.writes h⟩
  | primitive p =>
    simp only [payload, primitivePayload, List.forall_mem_cons, List.not_mem_nil, false_implies,
      implies_true, and_true]
    exact Datum.writes_text _
  | unknown r c =>
    simp only [payload, unknownPayload, List.forall_mem_cons, List.not_mem_nil, false_implies,
      implies_true, and_true]
    exact ⟨Datum.writes_text _, Datum.writes_text _⟩
  | _ => exact fun f hf => by cases hf

abbrev Term.Encodable (t : Term) : Prop :=
  t.Throughout fun u => u.shape.Encodable ∧ ∀ tag ∈ u.head.tags, tag.Encodable 249

/-- The values that a node holds can be written. -/
structure Node.Encodable (n : Node) : Prop where
  tags : ∀ t ∈ n.tags, t.Encodable 249
  fields : ∀ fs, n.shape = .object fs → ∀ f ∈ fs, ∀ t ∈ f.tags, t.Encodable 247
  literal : ∀ k x, n.shape = .literal k x → x.Encodable
  enum : ∀ ms, n.shape = .enum ms → ∀ m ∈ ms, m.value.Encodable

namespace Folding

open Term

variable {s : Setting} {st st' : State} {n : Node} {t u c : Term} {ts : List Term}
  {field : Option String} {binder : Bool} {stack : List NodeId} {id : NodeId} {shape : TermShape}

/-- There is no time limit, and what is remembered can be written. -/
structure Ready (st : State) : Prop where
  deadline : st.deadline = none
  closed : ∀ (id : NodeId) (t : Term), st.closed[id]? = some t → t.Encodable

/-- From any state that is ready, a step ends in such a state, and in a value with the property. -/
def Delivers {α : Type} (m : M α) (Q : α → Prop) : Prop :=
  ∀ st, Ready st → ∃ x st', Ends m st x st' ∧ Ready st' ∧ Q x

section Steps

variable {α β : Type} {m : M α} {f : α → M β} {Q Q' : α → Prop} {R : β → Prop}

theorem delivers_pure {x : α} (h : Q x) : Delivers (pure x) Q :=
  fun st hst => ⟨x, st, ends_pure.2 ⟨rfl, rfl⟩, hst, h⟩

theorem Delivers.bind (hm : Delivers m Q) (hf : ∀ x, Q x → Delivers (f x) R) :
    Delivers (m >>= f) R := by
  intro st hst
  obtain ⟨x, st₁, hx, hst₁, hQ⟩ := hm st hst
  obtain ⟨y, st₂, hy, hst₂, hR⟩ := hf x hQ st₁ hst₁
  exact ⟨y, st₂, ends_bind.2 ⟨x, st₁, hx, hy⟩, hst₂, hR⟩

theorem Delivers.imp (h : Delivers m Q) (hQ : ∀ x, Q x → Q' x) : Delivers m Q' := by
  intro st hst
  obtain ⟨x, st', hx, hst', hx'⟩ := h st hst
  exact ⟨x, st', hx, hst', hQ x hx'⟩

theorem delivers_get : Delivers get Ready :=
  fun st hst => ⟨st, st, ends_get.2 ⟨rfl, rfl⟩, hst, hst⟩

theorem delivers_modify {f : State → State} (h : ∀ st, Ready st → Ready (f st)) :
    Delivers (modify f) fun _ => True :=
  fun st hst => ⟨⟨⟩, f st, ends_modify.2 rfl, h st hst, trivial⟩

theorem delivers_written {x : Except Json.WriteError α} (h : ∃ y, x = .ok y ∧ Q y) :
    Delivers (written x) Q := by
  obtain ⟨y, hy, hQ⟩ := h
  exact fun st hst => ⟨y, st, ends_written.2 ⟨hy, rfl⟩, hst, hQ⟩

theorem delivers_mapM {f : β → M α} {P : β → α → Prop} {xs : List β}
    (h : ∀ x ∈ xs, Delivers (f x) (P x)) : Delivers (xs.mapM f) (List.Forall₂ P xs) := by
  intro st hst
  obtain ⟨ys, st', hys, hst', hsteps⟩ := exists_chain (Q := fun x _ y _ => P x y)
    (fun x hx st hst => h x hx st hst) hst
  exact ⟨ys, st', ends_mapM.2 hys, hst', hsteps.forall₂ fun _ _ _ _ h => h⟩

theorem delivers_foldlM {f : β → α → M β} {P : β → Prop} {xs : List α} {b : β}
    (h : ∀ b x, x ∈ xs → P b → Delivers (f b x) P) (hb : P b) : Delivers (xs.foldlM f b) P := by
  induction xs generalizing b with
  | nil => exact delivers_pure hb
  | cons x xs ih =>
    rw [List.foldlM_cons]
    exact (h b x List.mem_cons_self hb).bind fun c hc =>
      ih (fun b y hy => h b y (List.mem_cons_of_mem _ hy)) hc

theorem Delivers.and (h : Delivers m Q) (hends : ∀ st x st', Ends m st x st' → Q' x) :
    Delivers m fun x => Q x ∧ Q' x := by
  intro st hst
  obtain ⟨x, st', hx, hst', hQ⟩ := h st hst
  exact ⟨x, st', hx, hst', hQ, hends st x st' hx⟩

theorem Ready.calm (h : Ready st) (hc : Calm st st') : Ready st' where
  deadline := hc.deadline.trans h.deadline
  closed id t ht := h.closed id t (hc.closed ▸ ht)

theorem delivers_of_calmlyEnds {x : α} (h : ∀ st, CalmlyEnds m st x) : Delivers m fun y => y = x := by
  intro st hst
  obtain ⟨st', hx, hcalm⟩ := h st
  exact ⟨x, st', hx, hst.calm hcalm, rfl⟩

end Steps

/-! ## Making terms -/

theorem exists_make (shape : TermShape) (id : NodeId) (ts : List Term) (tags : List Tag)
    (location : Option SourceLocation) (hshape : shape.Encodable) (htags : ∀ tag ∈ tags, tag.Encodable 249)
    (hts : ∀ c ∈ ts, c.Encodable) :
    ∃ t, make s.digester s.algorithm shape id ts tags location = .ok t ∧ t.Encodable := by
  obtain ⟨t, ht⟩ : ∃ t, make s.digester s.algorithm shape id ts tags location = .ok t :=
    exists_bind (s.digester.exists_node _ _ _
      (writes_sharedPayload false (by decide) hshape.writes htags)) fun _ _ => ⟨_, rfl⟩
  refine ⟨t, ht, ?_⟩
  obtain ⟨digest, -, rfl⟩ := make_eq_ok ht
  exact .of_children ⟨hshape, htags⟩ hts

theorem exists_asTarget (height : ℕ) (hu : u.Encodable) :
    ∃ t, u.asTarget s.digester s.algorithm height = .ok t ∧ t.Encodable := by
  obtain ⟨t, ht⟩ : ∃ t, u.asTarget s.digester s.algorithm height = .ok t :=
    exists_bind (s.digester.exists_node _ _ _
      (writes_sharedPayload true (by decide) hu.here.1.writes hu.here.2)) fun _ _ => ⟨_, rfl⟩
  refine ⟨t, ht, ?_⟩
  obtain ⟨digest, -, rfl⟩ := asTarget_eq_ok ht
  exact .of_children hu.here fun c hc => hu.child hc

theorem delivers_term (id : NodeId) {tags : List Tag} (location : Option SourceLocation)
    (hshape : shape.Encodable) (htags : ∀ tag ∈ tags, tag.Encodable 249) (hts : ∀ c ∈ ts, c.Encodable) :
    Delivers (term s shape id ts tags location) Term.Encodable :=
  delivers_written (exists_make shape id ts tags location hshape htags hts)

theorem delivers_unknownTerm (id : NodeId) (reason : String) (cause : UnknownCause) :
    Delivers (unknownTerm s id reason cause) Term.Encodable :=
  delivers_term id none trivial (by simp) (by simp)

/-! ## Fields and members -/

section Graphs

variable (hgraph : ∀ (id : NodeId) (n : Node), s.graph.nodes[id]? = some n → n.Encodable)

include hgraph

theorem writable_of_encodable : Writable s := by
  intro id n hn
  have henc := hgraph id n hn
  refine ⟨fun k x hs => ?_, fun ms hs m hm => ?_⟩
  · exact (henc.literal k x hs).writes (k := 0) .compact 0 (Nat.zero_le _)
  · exact (henc.enum ms hs m hm).writes (k := 0) .compact 0 (Nat.zero_le _)

theorem delivers_render (id : NodeId) : Delivers (render s id) fun _ => True := by
  obtain ⟨text, ht⟩ := calmlyEnds_render (writable_of_encodable hgraph) id
  exact (delivers_of_calmlyEnds ht).imp fun _ _ => trivial

omit hgraph in
theorem delivers_report (key : DiagnosticKey) (args : List Datum) (id : NodeId)
    (field : Option String) : Delivers (report s key args id field) fun _ => True :=
  (delivers_of_calmlyEnds (calmlyEnds_report key args id field)).imp fun _ _ => trivial

theorem delivers_mergeFields (owner : NodeId) (fs : List FieldTerm) :
    Delivers (mergeFields s owner fs) fun gs => gs = mergedFields fs := by
  refine (Delivers.and (Q := fun _ => True) ?_ fun st x st' h => (ends_mergeFields h).1).imp
    fun _ h => h.2
  refine (delivers_foldlM (P := fun _ => True) (fun merged f _ _ => ?_) trivial).bind
    fun _ _ => delivers_pure trivial
  unfold mergeField
  split
  · exact delivers_pure trivial
  · split
    · refine (delivers_render hgraph _).bind fun _ _ => (delivers_render hgraph _).bind fun _ _ => ?_
      exact (delivers_report _ _ _ _).bind fun _ _ => delivers_pure trivial
    · split
      · exact delivers_pure trivial
      · exact delivers_pure trivial

omit hgraph in
theorem delivers_objectTerm {fs : List FieldTerm} (hn : n.Encodable)
    (hfs : ∀ f ∈ fs, f.2.Encodable ∧ ∀ tag ∈ f.1.tags, tag.Encodable 247) :
    Delivers (objectTerm s (mergedFields fs) n) Term.Encodable := by
  refine delivers_term n.id n.location (fun f hf tag htag => ?_) hn.tags fun c hc => ?_
  · obtain ⟨g, hg, rfl⟩ := List.mem_map.1 hf
    obtain ⟨f, hf, -, htags⟩ := exists_tags_of_mem_mergedFields hg
    exact (hfs f hf).2 tag (htags ▸ htag)
  · obtain ⟨g, hg, rfl⟩ := List.mem_map.1 hc
    obtain ⟨f, hf, he, -⟩ := exists_tags_of_mem_mergedFields hg
    exact he ▸ (hfs f hf).1

theorem delivers_composite (kind : String) (hshape : shape.Encodable) (hn : n.Encodable)
    (hts : ∀ c ∈ ts, c.Encodable) :
    Delivers (composite s kind shape n ts binder field) Term.Encodable := by
  have hterm := delivers_term (s := s) n.id n.location hshape hn.tags hts
  unfold composite
  split
  · next only =>
    split
    · refine (delivers_render hgraph _).bind fun _ _ => (delivers_report _ _ _ _).bind fun _ _ => ?_
      exact delivers_pure (hts only List.mem_cons_self)
    · exact hterm
  · exact hterm

theorem delivers_unionTerm {ms : List Member} (hn : n.Encodable) (hms : ∀ m ∈ ms, m.2.Encodable) :
    Delivers (unionTerm s n ms binder field) Term.Encodable := by
  have hkept : ∀ c ∈ (ms.foldl Sorting.add {}).kept, c.Encodable := by
    intro c hc
    obtain ⟨m, hm, rfl⟩ := (sorting_spec ms c hc).1
    exact hms m hm
  have hcomposite (kept : List Term) (hkept : ∀ c ∈ kept, c.Encodable) :
      Delivers (composite s "union" (.union (discriminant? (sortedUnique kept))) n
        (sortedUnique kept) binder field) Term.Encodable := by
    have hsorted : ∀ c ∈ sortedUnique kept, c.Encodable := fun c hc =>
      hkept c (mem_of_mem_sortedUnique hc)
    refine delivers_composite hgraph _ (fun δ hδ x hx => ?_) hn hsorted
    obtain ⟨v, k, ⟨c, hc, hv⟩, hs⟩ := exists_literal_of_discriminant hδ hx
    have hv := (hsorted c hc v hv).1
    rwa [hs] at hv
  unfold unionTerm
  dsimp only
  split
  · exact (delivers_pure hkept).bind hcomposite
  · refine (delivers_render hgraph _).bind fun _ _ => (delivers_report _ _ _ _).bind fun _ _ => ?_
    refine (delivers_unknownTerm _ _ _).bind fun rest hrest => ?_
    refine (delivers_pure fun c hc => ?_).bind hcomposite
    rcases List.mem_append.1 hc with hc | hc
    · exact hkept c hc
    · exact List.mem_singleton.1 hc ▸ hrest

theorem delivers_intersectionTerm {ms : List Member} (hn : n.Encodable)
    (hms : ∀ m ∈ ms, m.2.Encodable) :
    Delivers (intersectionTerm s n ms binder field) Term.Encodable := by
  have hts : ∀ c ∈ ms.map Prod.snd, c.Encodable := by
    intro c hc
    obtain ⟨m, hm, rfl⟩ := List.mem_map.1 hc
    exact hms m hm
  unfold intersectionTerm
  dsimp only
  split
  · next bodies _ hbodies =>
    refine (delivers_mergeFields hgraph _ _).bind fun gs hgs => ?_
    obtain rfl := hgs
    refine delivers_objectTerm hn fun f hf => ?_
    obtain ⟨fs, hfs, hf⟩ := List.mem_flatten.1 hf
    obtain ⟨c, hc, hobject⟩ := exists_of_mem_mapM hbodies hfs
    obtain ⟨v, heads, hv, hs, hhead⟩ := exists_head_of_objectBody hobject hf
    have hv := (hts c hc v hv).1
    rw [hs] at hv
    exact ⟨(hts c hc).sub (objectBody?_sub hobject hf), hv f.1 hhead⟩
  · exact delivers_composite hgraph _ trivial hn fun c hc => hts c (mem_of_mem_sortedUnique hc)

omit hgraph in
theorem delivers_members {build : NodeId → M Term} {kind : String}
    {members? : Shape → Option (List NodeId)} {ids : List NodeId}
    (hbuild : ∀ id, Delivers (build id) Term.Encodable) :
    Delivers (members s build kind members? ids) fun ms => ∀ m ∈ ms, m.2.Encodable := by
  unfold members
  refine (delivers_mapM (P := fun _ (m : Member) => m.2.Encodable) fun id _ =>
    (hbuild id).bind fun t ht => delivers_pure ht).bind fun built hbuilt => delivers_pure ?_
  intro m hm
  obtain ⟨p, hp, hm⟩ := List.mem_flatMap.1 hm
  obtain ⟨i, hi, rfl⟩ := List.getElem_of_mem hp
  have hp := hbuilt.get (hbuilt.length_eq ▸ hi) hi
  unfold splice at hm
  dsimp only at hm
  split at hm
  · obtain ⟨c, hc, rfl⟩ := List.mem_map.1 hm
    exact hp.child hc
  · exact List.mem_singleton.1 hm ▸ hp

theorem delivers_nodeTerm {build : Option String → NodeId → M Term} (hn : n.Encodable)
    (hbuild : ∀ field id, Delivers (build field id) Term.Encodable)
    (hstack : stack.length ≤ 0x10000000000000000) :
    Delivers (nodeTerm s build n stack field binder) Term.Encodable := by
  have hleaf {shape : TermShape} (hshape : shape.Encodable) :
      Delivers (term s shape n.id [] n.tags n.location) Term.Encodable :=
    delivers_term n.id n.location hshape hn.tags (by simp)
  have hnode {shape : TermShape} {ts : List Term} (hshape : shape.Encodable)
      (hts : ∀ c ∈ ts, c.Encodable) :
      Delivers (term s shape n.id ts n.tags n.location) Term.Encodable :=
    delivers_term n.id n.location hshape hn.tags hts
  have hone {shape : TermShape} {e : NodeId} (hshape : shape.Encodable) :
      Delivers (do term s shape n.id [← build field e] n.tags n.location) Term.Encodable :=
    (hbuild field e).bind fun t ht => hnode hshape (by simpa using ht)
  unfold nodeTerm
  cases hs : n.shape with
  | primitive p => exact hleaf trivial
  | literal k v => exact hleaf (hn.literal k v hs)
  | enum ms => exact hleaf fun m hm => hn.enum ms hs m (List.mem_mergeSort.1 hm)
  | unknown r c => exact hleaf trivial
  | recursiveRef target symbol =>
    refine hleaf fun p hp => ?_
    obtain ⟨depth, hdepth, rfl⟩ := Option.map_eq_some_iff.1 hp
    have := (List.idxOf?_eq_some_iff.1 hdepth).1
    exact Nat.lt_of_lt_of_le this hstack
  | array e => exact hone trivial
  | reference target symbol => exact hone trivial
  | tuple es =>
    refine (delivers_mapM fun e _ => hbuild field e).bind fun ts hts => hnode trivial fun c hc => ?_
    obtain ⟨i, hi, rfl⟩ := List.getElem_of_mem hc
    exact hts.get (hts.length_eq ▸ hi) hi
  | object fs =>
    refine (delivers_mapM (P := fun f (g : FieldTerm) => g.2.Encodable ∧ g.1.tags = f.tags)
      fun f _ => (hbuild _ _).bind fun t ht => delivers_pure ⟨ht, rfl⟩).bind fun built hbuilt => ?_
    refine (delivers_mergeFields hgraph _ _).bind fun gs hgs => ?_
    obtain rfl := hgs
    refine (delivers_of_calmlyEnds
      (calmlyEnds_checkFields (writable_of_encodable hgraph) n.id _)).bind fun _ _ => ?_
    refine delivers_objectTerm hn fun g hg => ?_
    obtain ⟨i, hi, rfl⟩ := List.getElem_of_mem hg
    have hj : i < fs.length := hbuilt.length_eq ▸ hi
    obtain ⟨ht, htags⟩ := hbuilt.get hj hi
    exact ⟨ht, fun tag htag => hn.fields fs hs _ (List.getElem_mem hj) tag (htags ▸ htag)⟩
  | union ms δ =>
    exact (delivers_members (hbuild field)).bind fun ms hms => delivers_unionTerm hgraph hn hms
  | intersection ms =>
    exact (delivers_members (hbuild field)).bind fun ms hms =>
      delivers_intersectionTerm hgraph hn hms

theorem delivers_targetTerm {build : List NodeId → Option String → NodeId → M Term}
    (hn : n.Encodable)
    (hbuild : ∀ stack', stack'.length ≤ stack.length + 1 → ∀ field id,
      Delivers (build stack' field id) Term.Encodable)
    (hstack : stack.length < 0x10000000000000000) :
    Delivers (targetTerm s build id n stack field) Term.Encodable := by
  have hplain : Delivers (nodeTerm s (build stack) n stack field false) Term.Encodable :=
    delivers_nodeTerm hgraph hn (hbuild stack (by omega)) (by omega)
  have htarget : Delivers (nodeTerm s (build (id :: stack)) n (id :: stack) field true)
      Term.Encodable :=
    delivers_nodeTerm hgraph hn (hbuild (id :: stack) (Nat.le_refl _)) hstack
  unfold targetTerm
  refine delivers_get.bind fun _ _ => ?_
  split
  · refine delivers_get.bind fun before hbefore => htarget.bind fun t ht => ?_
    split
    · exact delivers_written (exists_asTarget _ ht)
    · refine (delivers_modify fun st hst => ?_).bind fun _ _ => hplain
      exact ⟨hst.deadline, hbefore.closed⟩
  · exact hplain

omit hgraph in
theorem delivers_checkDeadline : Delivers checkDeadline fun _ => True := by
  refine delivers_get.bind fun st hst => ?_
  rw [hst.deadline]
  exact delivers_pure trivial

omit hgraph in
theorem Ready.remember (hst : Ready st) (ht : t.Encodable) (id : NodeId) :
    Ready { st with closed := st.closed.insert id t } := by
  refine ⟨hst.deadline, fun x u hx => ?_⟩
  rw [Std.ExtTreeMap.getElem?_insert] at hx
  split at hx
  · exact Option.some.inj hx ▸ ht
  · exact hst.closed x u hx

/-- Whatever node a fold starts at, and however little fuel it has left, it comes to a term. -/
theorem delivers_build
    (hread : ∀ (id : NodeId) (n : Node), s.graph.nodes[id]? = some n → ∀ t, TagsReadable n.tags t)
    {fuel : ℕ} {path : Std.ExtTreeSet NodeId} (hfuel : stack.length + fuel ≤ 0x10000000000000000) :
    Delivers (build s fuel path stack field id) Term.Encodable := by
  induction fuel generalizing path stack field id with
  | zero => exact delivers_unknownTerm _ _ _
  | succ fuel ih =>
    unfold build
    refine delivers_checkDeadline.bind fun _ _ => delivers_get.bind fun st hst => ?_
    split
    · next t ht => exact delivers_pure (hst.closed id t ht)
    · split
      · exact delivers_unknownTerm _ _ _
      · next n hn =>
        split
        · exact (delivers_report _ _ _ _).bind fun _ _ => delivers_unknownTerm _ _ _
        · refine (delivers_targetTerm hgraph (hgraph id n hn) (fun stack' hstack' field id =>
            ih (by omega)) (by omega)).bind fun t ht => ?_
          have htags : Delivers (checkTags s n.tags t id none true) fun _ => True :=
            (delivers_of_calmlyEnds (calmlyEnds_checkTags (writable_of_encodable hgraph)
              (fun _ => hread id n hn t) id none)).imp fun _ _ => trivial
          have hremember : Delivers (do
              modify fun st : State => { st with closed := st.closed.insert id t }
              pure t) Term.Encodable :=
            (delivers_modify fun st hst => hst.remember ht id).bind fun _ _ => delivers_pure ht
          split
          · split
            · exact htags.bind fun _ _ => hremember
            · exact hremember
          · split
            · exact htags.bind fun _ _ => delivers_pure ht
            · exact delivers_pure ht

/-- A graph can be folded. -/
theorem exists_ends_root
    (hread : ∀ (id : NodeId) (n : Node), s.graph.nodes[id]? = some n → ∀ t, TagsReadable n.tags t)
    (hsize : s.graph.nodes.size < 0x10000000000000000) :
    ∃ t st, Ends (root s) {} t st ∧ t.Encodable := by
  have hready : Ready {} := ⟨rfl, fun id t ht => by simp at ht⟩
  have hroot : Delivers (root s) Term.Encodable :=
    delivers_build hgraph hread (by simp only [List.length_nil]; omega)
  obtain ⟨t, st, ht, -, henc⟩ := hroot {} hready
  exact ⟨t, st, ht, henc⟩

end Graphs

end Folding

end TypeAtlas
