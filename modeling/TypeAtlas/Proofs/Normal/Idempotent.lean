import TypeAtlas.Proofs.Normal.Canonical
import TypeAtlas.Proofs.Normal.Refolded

/-! # Normalizing twice

Folding the arena of a settled term again meets the nodes in the order in which they were written
out. The new term resembles the old one at every place, so writing it out fills the arena with the
same nodes in the same order.
-/

namespace TypeAtlas

open Emission Folding Term

variable {d : Digester} {a : Algorithm} {S : Set String} {t u v w : Term} {r id x : NodeId}
  {A B C : Arena} {e : Entry} {n k l : ℕ} {ws : List Term} {shape : TermShape} {g : Graph}
  {trail stack : List NodeId}

/-! ## Terms that are made again -/

theorem Folding.TagsReadable.of_twin {tags : List Tag} (h : TagsReadable tags v) (htwin : Twin u v) :
    TagsReadable tags u := by
  intro tag htag hparsed hname hfields
  refine h tag htag hparsed hname ?_
  have hrel := htwin.dereference.fields?
  generalize u.dereference.fields? = y at hrel hfields
  generalize v.dereference.fields? = z at hrel
  cases hrel with
  | none => cases hfields
  | some _ => rfl

namespace Term

/-- The terms right below a node, made again, and a shape for the node's term over them. -/
structure Remaking (d : Digester) (a : Algorithm) (id : NodeId) (e : Entry) (n : ℕ)
    (shape : TermShape) (ws : List Term) : Prop where
  formed : e.term.Throughout (Formed d a)
  below : List.Forall₂ (Resembles d a n) e.term.children ws
  reshaped : Reshaped e n shape ws

/-- The term of a node, made again for a place below `n` recursion targets. -/
structure Again (d : Digester) (a : Algorithm) (e : Entry) (n : ℕ) (shape : TermShape)
    (ws : List Term) (w : Term) : Prop where
  resembles : Resembles d a n e.term w
  placed : w.Placed n
  shape : w.shape = shape
  children : w.children = ws
  tags : w.head.tags = e.term.head.tags
  location : w.head.location = e.term.head.location

namespace Remaking

variable (h : Remaking d a id e n shape ws)
include h

theorem twin (head : TermHead) (hshape : head.shape = shape) (htags : head.tags = e.term.head.tags)
    (hb : head.binder = e.term.binder) : Twin (.mk head ws) e.term := by
  have hlen := h.below.length_eq
  refine .intro ⟨?_, ?_, digests_of_resembles h.below⟩ fun i hi hj => (h.below.get hj hi).twin
  · rw [shape_mk, hshape, h.reshaped.kind]
  · rw [shape_mk, head_mk, binder_mk, hshape, htags, hb, h.reshaped.payload]
    rfl

theorem fresh {binder : Bool} (hm : Made (g.setting d a) (e.node id) shape ws w)
    (hb : e.term.binder → binder) : Fresh d a n binder w := by
  refine (hm.fresh h.reshaped.own (fun w hw => ?_) h.reshaped.covers fun hcomp hlen => ?_).1
  · obtain ⟨i, hi, rfl⟩ := List.getElem_of_mem hw
    exact (h.below.get (h.below.length_eq ▸ hi) hi).sits
  · refine (h.formed.here.single (h.reshaped.composite ▸ hcomp) ?_).imp_right hb
    rw [h.below.length_eq, hlen]

theorem digest {y : String} (hd : d.node a shape.kind
      (sharedPayload shape.payload e.term.head.tags e.term.binder) (ws.map Term.digest) = .ok y) :
    y = e.term.digest := by
  rw [h.reshaped.kind, h.reshaped.payload, digests_of_resembles h.below] at hd
  exact Except.ok.inj (hd.symm.trans h.formed.here.digested)

theorem again (hm : Made (g.setting d a) (e.node id) shape ws w) (hb : e.term.binder = false) :
    Again d a e n shape ws w := by
  have hfresh : Fresh d a n false w := h.fresh hm (by simp [hb])
  obtain ⟨digest, hd, rfl⟩ := make_eq_ok hm
  have htwin : Twin (.mk _ ws) e.term := h.twin ⟨shape, digest, (e.node id).id,
    (e.node id).tags, (e.node id).location, freeFor shape ws, false,
    familyOf shape (ws.map Term.family)⟩ rfl rfl hb.symm
  exact ⟨⟨htwin, h.digest (hb ▸ hd), hfresh.sits (h.formed.here.tags.of_twin htwin)⟩, hfresh.inward,
    rfl, rfl, rfl, rfl⟩

/-- A recursion target is referred to again, and is made a target again. -/
theorem exists_asTarget {m : ℕ} (hn : n = m + 1)
    (hm : Made (g.setting d a) (e.node id) shape ws w) (hb : e.term.binder = true) :
    w.free.contains m ∧ ∃ w', w.asTarget d a m = .ok w' ∧
      Again d a e m shape ws w' := by
  subst hn
  have hfresh : Fresh d a (m + 1) true w := h.fresh hm fun _ => rfl
  obtain ⟨digest, hd, rfl⟩ := make_eq_ok hm
  have htwin : Twin (.mk _ ws) e.term := h.twin ⟨shape, e.term.digest, (e.node id).id,
    (e.node id).tags, (e.node id).location, (freeFor shape ws).erase m, true,
    familyOf shape (ws.map Term.family)⟩ rfl rfl hb.symm
  obtain ⟨l, hl⟩ := h.formed.here.live hb
  obtain ⟨l', hl'⟩ := htwin.symm.exists_mem_inward hl
  have hlive : m ∈ freeFor shape ws := by
    refine (hfresh.mem_free m).2 ⟨0, ?_⟩
    have hlevel := hfresh.inward (0, l') hl'
    obtain rfl : l' = m := by simpa using hlevel
    exact hl'
  have hcontains := Std.ExtTreeSet.contains_iff_mem.2 hlive
  have hdigested := h.formed.here.digested
  have ht : (Term.mk ⟨shape, digest, (e.node id).id, (e.node id).tags, (e.node id).location,
      freeFor shape ws, false, familyOf shape (ws.map Term.family)⟩ ws).asTarget d a m = .ok
      (.mk ⟨shape, e.term.digest, (e.node id).id, (e.node id).tags, (e.node id).location,
        (freeFor shape ws).erase m, true, familyOf shape (ws.map Term.family)⟩ ws) := by
    have hnode : d.node a shape.kind (sharedPayload shape.payload e.term.head.tags true)
        (ws.map Term.digest) = .ok e.term.digest := by
      rw [h.reshaped.kind, h.reshaped.payload, digests_of_resembles h.below, ← hb]
      exact h.formed.here.digested
    simp only [asTarget, shape_mk, head_mk, children_mk]
    rw [show (e.node id).tags = e.term.head.tags from rfl, hnode]
    rfl
  exact ⟨hcontains, _, ht, ⟨htwin, rfl, hfresh.sits_asTarget hcontains ht
    (h.formed.here.tags.of_twin htwin)⟩, hfresh.inward, rfl, rfl, rfl, rfl⟩

end Remaking

end Term

/-! ## Writing out -/

section Writing

variable {τ ids : List NodeId} {target : NodeId} {ts : List Term}

theorem Term.Named.ends_name (h : t.Named d a τ id) : Ends (name d a t.head τ) A id A := by
  unfold name
  cases h with
  | closed hc hd =>
    have hc : t.head.free.isEmpty := hc
    rw [if_pos hc]
    exact ends_pure.2 ⟨hd, rfl⟩
  | @opened ids ho hids hv =>
    rw [if_neg (by simpa [Term.free] using ho), ends_bind]
    have htargets {heights : List ℕ} {ids : List NodeId}
        (h : heights.map (fun height => τ[height]?) = ids.map some) :
        Chain (targetAt τ) heights A ids A := by
      induction heights generalizing ids with
      | nil =>
        obtain rfl : ids = [] := by simpa using h.symm
        exact .nil
      | cons height heights ih =>
        cases ids with
        | nil => simp at h
        | cons x ids =>
          simp only [List.map_cons, List.cons.injEq] at h
          refine .cons ?_ (ih h.2)
          rw [targetAt, h.1]
          exact ends_pure.2 ⟨rfl, rfl⟩
    refine ⟨ids, A, ends_mapM.2 (htargets hids), ends_lift.2 ⟨?_, rfl⟩⟩
    have hv : d.node a "open" [("binders", .texts ids)] [t.head.digest] = .ok id := hv
    rw [hv]
    rfl

theorem ends_shapeOf_outline (h : ∀ p ∈ ownLinks shape, τ[p.2]? = some target) :
    Ends (shapeOf shape τ ids) A (outline shape ids target) A := by
  cases shape with
  | recursiveRef symbol raw link =>
    cases link with
    | none => exact ends_pure.2 ⟨rfl, rfl⟩
    | some p =>
      simp only [shapeOf, ends_bind, targetAt, h p (by simp [ownLinks])]
      exact ⟨target, A, ends_pure.2 ⟨rfl, rfl⟩, ends_pure.2 ⟨rfl, rfl⟩⟩
  | _ => exact ends_pure.2 ⟨rfl, rfl⟩

theorem ends_emit_of_mem (hn : t.Named d a τ id) (hid : id ∈ A) : Ends (emit d a t τ) A id A := by
  cases t with
  | mk head cs =>
    simp only [emit, ends_bind]
    refine ⟨id, A, hn.ends_name, A, A, ends_get.2 ⟨rfl, rfl⟩, ?_⟩
    rw [if_pos (Std.ExtTreeMap.contains_iff_mem.2 hid)]
    exact ends_pure.2 ⟨rfl, rfl⟩

theorem ends_emit_of_new (hn : t.Named d a τ id) (hid : id ∉ A)
    (hall : Ends (emitAll d a t.children (t.inner τ id)) A ids C)
    (htarget : ∀ p ∈ ownLinks t.shape, (t.inner τ id)[p.2]? = some target) :
    Ends (emit d a t τ) A id
      (C.insertIfNew id ⟨id, outline t.shape ids target, t.head.tags, t.head.location⟩) := by
  cases t with
  | mk head cs =>
    simp only [emit, ends_bind]
    refine ⟨id, A, hn.ends_name, A, A, ends_get.2 ⟨rfl, rfl⟩, ?_⟩
    rw [if_neg (mt Std.ExtTreeMap.contains_iff_mem.1 hid)]
    simp only [ends_bind]
    exact ⟨ids, C, hall, _, C, ends_shapeOf_outline htarget, ⟨⟩, _, ends_modify.2 rfl,
      ends_pure.2 ⟨rfl, rfl⟩⟩

end Writing

/-- A part of an arena that holds, with each node, the nodes below it. -/
structure Lower (B A : Arena) : Prop where
  part : Extends B A
  child : ∀ (id : NodeId) (n : Node), B[id]? = some n → ∀ c ∈ n.shape.children, c ∈ B

theorem Lower.eq_of_reaches (h : Lower B A) (hr : r ∈ B) (hall : ∀ x ∈ A, Reaches A r x) : B = A := by
  have hmem {x : NodeId} (hx : Reaches A r x) : x ∈ B := by
    induction hx with
    | refl => exact hr
    | tail _ hc ih =>
      obtain ⟨m, hm⟩ := mem_iff_exists_getElem?.1 ih
      obtain ⟨m', hm', hy⟩ := hc
      obtain rfl := Option.some.inj ((h.part _ _ hm).symm.trans hm')
      exact h.child _ m hm _ hy
  refine Std.ExtTreeMap.ext_getElem? fun x => ?_
  cases hx : B[x]? with
  | some m => exact (h.part x m hx).symm
  | none =>
    refine (Std.ExtTreeMap.getElem?_eq_none fun hxA => ?_).symm
    obtain ⟨m, hm⟩ := mem_iff_exists_getElem?.1 (hmem (hall x hxA))
    simp [hx] at hm

/-- Whatever the term of a node was folded from is in the part of the arena that is written so far. Then
writing the term out files the nodes that are missing below, and nothing else. -/
def Rewrites (d : Digester) (a : Algorithm) (A : Arena) (stack : List NodeId) (id : NodeId)
    (st : State) (w : Term) (st' : State) : Prop :=
  ∀ B, Lower B A → (∀ x ∈ st.closed, x ∈ B) →
    ∃ C, Ends (emit d a w stack.reverse) B id C ∧ Lower C A ∧ Extends B C ∧ id ∈ C ∧
      (∀ x ∈ st'.closed, x ∈ C) ∧ (id ∈ B → C = B)

variable {Q : NodeId → State → Term → State → Prop} {st st' st₁ : State} {ids : List NodeId}

theorem rewrites_children (hsteps : Steps Q ids st ws st')
    (hQ : ∀ x st w st', Q x st w st' → Rewrites d a A stack x st w st') (hB : Lower B A)
    (hclosed : ∀ x ∈ st.closed, x ∈ B) :
    ∃ C, Ends (emitAll d a ws stack.reverse) B ids C ∧ Lower C A ∧ Extends B C ∧
      (∀ x ∈ ids, x ∈ C) ∧ (∀ x ∈ st'.closed, x ∈ C) ∧ ((∀ x ∈ ids, x ∈ B) → C = B) := by
  induction hsteps generalizing B with
  | nil => exact ⟨B, ends_emitAll_nil.2 ⟨rfl, rfl⟩, hB, .refl B, by simp, hclosed, fun _ => rfl⟩
  | @cons x xs w ws st st₁ st' hx _ ih =>
    obtain ⟨C, hw, hC, hBC, hxC, hclosed₁, hsame⟩ := hQ x st w st₁ hx B hB hclosed
    obtain ⟨D, hws, hD, hCD, hxsD, hclosed', hsame'⟩ := ih hC hclosed₁
    refine ⟨D, ends_emitAll_cons.2 ⟨x, C, xs, hw, hws, rfl⟩, hD, hBC.trans hCD,
      List.forall_mem_cons.2 ⟨hCD.mem hxC, hxsD⟩, hclosed', fun hall => ?_⟩
    obtain ⟨hx, hxs⟩ := List.forall_mem_cons.1 hall
    obtain rfl := hsame hx
    exact hsame' hxs

namespace Term

theorem Stands.named_of_resembles (h : Laid d a S t r A) (hs : Stands d a t A trail stack id e)
    (hw : Resembles d a stack.length e.term w) : w.Named d a stack.reverse id := by
  refine hs.written.named.of_agree (h.formed_of_written hs.written).here hw.sits.formed.here
    (h.level_of_written hs.written) ?_ hw.twin.symm hw.digest.symm fun k hk => ?_
  · rw [List.length_reverse]
    exact hw.sits.level
  · rw [List.reverse_reverse]
    exact hs.agree k hk

/-- A term made again is written out where the node was. -/
theorem Stands.rewrites (h : Laid d a S t r A) (hs : Stands d a t A trail stack id e)
    (hagain : Again d a e stack.length shape ws w)
    (houtline : ∀ ids target, outline shape ids target = outline e.term.shape ids target)
    (hsteps : Steps Q e.names st ws st₁)
    (hQ : ∀ x st w st', Q x st w st' → Rewrites d a A (e.term.push id stack) x st w st')
    (hclosed : ∀ x ∈ st'.closed, x ∈ st₁.closed ∨ x = id) : Rewrites d a A stack id st w st' := by
  intro B hB hold
  have hw := hagain.resembles
  have hname := hs.named_of_resembles h hw
  have hinner : w.inner stack.reverse id = (e.term.push id stack).reverse := by
    rw [← List.reverse_inj, reverse_inner, List.reverse_reverse, List.reverse_reverse, push,
      hw.twin.binder, ← push]
  obtain ⟨C, hall, hC, hBC, hnames, hold₁, hsame⟩ := rewrites_children hsteps hQ hB hold
  have hchildren := h.children_node hs.written
  by_cases hid : id ∈ B
  · obtain ⟨m, hm⟩ := mem_iff_exists_getElem?.1 hid
    obtain rfl := hs.written.node_eq (hB.part _ _ hm)
    obtain rfl := hsame fun x hx => hB.child id _ hm x (hchildren ▸ hx)
    refine ⟨C, ends_emit_of_mem hname hid, hC, .refl C, hid, fun x hx => ?_, fun _ => rfl⟩
    rcases hclosed x hx with hx | rfl
    · exact hold₁ x hx
    · exact hid
  · have hlink : ∀ p ∈ ownLinks w.shape, (w.inner stack.reverse id)[p.2]? = some e.target := by
      rintro ⟨k, l⟩ hk
      obtain ⟨l', hl'⟩ := hw.twin.alike.own_distance hk
      obtain ⟨hlt, hget, -⟩ := List.idxOf?_eq_some_iff.1 (hs.idxOf_target h hl')
      have hlevel := hagain.placed (k, l) (mem_inward.2 (.inl hk))
      have hlength : (e.term.push id stack).length = stack.length + e.term.depth := length_push
      rw [hw.twin.depth] at hlevel
      rw [hinner, List.getElem?_reverse (by omega), ← hget, ← List.getElem?_eq_getElem hlt]
      congr 1
      omega
    have hnode : (⟨id, outline w.shape e.names e.target, w.head.tags, w.head.location⟩ : Node) =
        e.node id := by
      rw [hagain.shape, houtline, hagain.tags, hagain.location, Entry.node]
    rw [← hinner, ← hagain.children] at hall
    have hemit := ends_emit_of_new hname hid hall hlink
    rw [hnode] at hemit
    refine ⟨_, hemit, ⟨?_, ?_⟩, hBC.trans (extends_insertIfNew _), mem_insertIfNew _, ?_,
      fun hmem => absurd hmem hid⟩
    · intro x m hm
      rw [getElem?_insertIfNew] at hm
      split at hm
      · next hx =>
        obtain rfl := Option.some.inj hm
        exact hx.1 ▸ hs.written.node
      · exact hC.part x m hm
    · intro x m hm c hc
      refine (extends_insertIfNew _).mem ?_
      rw [getElem?_insertIfNew] at hm
      split at hm
      · obtain rfl := Option.some.inj hm
        exact hnames c (hchildren ▸ hc)
      · exact hC.child x m hm c hc
    · intro x hx
      rcases hclosed x hx with hx | rfl
      · exact (extends_insertIfNew _).mem (hold₁ x hx)
      · exact mem_insertIfNew _

end Term

/-! ## Folding again -/

namespace Folding

/-- Nothing has been given up, and the terms that are remembered are closed and resemble those of their
nodes. -/
structure Resumes (d : Digester) (a : Algorithm) (t : Term) (A : Arena) (st : State) : Prop where
  dead : st.dead = ∅
  deadline : st.deadline = none
  closed : ∀ x w, st.closed[x]? = some w →
    w.free.isEmpty ∧ ∃ f, Written d a t A x f ∧ ∀ n, Resembles d a n f.term w

theorem Resumes.calm (h : Resumes d a t A st) (hcalm : Calm st st') : Resumes d a t A st' :=
  ⟨hcalm.dead.trans h.dead, hcalm.deadline.trans h.deadline, hcalm.closed ▸ h.closed⟩

theorem Resumes.insert (h : Resumes d a t A st) (he : Written d a t A id e) (hc : w.free.isEmpty)
    (hw : Resembles d a n e.term w) :
    Resumes d a t A { st with closed := st.closed.insert id w } := by
  refine ⟨h.dead, h.deadline, fun x v hv => ?_⟩
  rw [Std.ExtTreeMap.getElem?_insert] at hv
  split at hv
  · next hx =>
    obtain rfl : id = x := by simpa using hx
    obtain rfl := Option.some.inj hv
    exact ⟨hc, e, he, fun n => ⟨hw.twin, hw.digest, .of_closed hw.sits.formed hc⟩⟩
  · exact h.closed x v hv

/-- What folding a node again comes to. -/
structure Refolds (d : Digester) (a : Algorithm) (t : Term) (A : Arena) (stack : List NodeId)
    (x : NodeId) (st : State) (w : Term) (st' : State) : Prop where
  resembles : ∃ e, Written d a t A x e ∧ Resembles d a stack.length e.term w
  rewrites : Rewrites d a A stack x st w st'

variable {field : Option String} {fuel : ℕ} {path : Std.ExtTreeSet NodeId}

theorem ends_targetTerm_of_live {s : Setting} {m : Node} {w' : Term}
    {build : List NodeId → Option String → NodeId → M Term} (hdead : st.dead = ∅)
    (hb : s.binders.contains id = t.binder)
    (hnode : Ends (nodeTerm s (build (t.push id stack)) m (t.push id stack) field t.binder) st w st')
    (htarget : if t.binder then w.free.contains stack.length ∧
      w.asTarget s.digester s.algorithm stack.length = .ok w' else w' = w) :
    Ends (targetTerm s build id m stack field) st w' st' := by
  simp only [targetTerm, ends_bind]
  refine ⟨st, st, ends_get.2 ⟨rfl, rfl⟩, ?_⟩
  cases hbinder : t.binder with
  | true =>
    simp only [hbinder, push, if_true] at hnode htarget
    rw [if_pos (by simp [hb, hbinder, hdead])]
    simp only [ends_bind]
    refine ⟨st, st, ends_get.2 ⟨rfl, rfl⟩, w, st', hnode, ?_⟩
    rw [if_pos htarget.1]
    exact ends_written.2 ⟨htarget.2, rfl⟩
  | false =>
    simp only [hbinder, push, Bool.false_eq_true, if_false] at hnode htarget
    rw [if_neg (by simp [hb, hbinder]), htarget]
    exact hnode

theorem ends_checkDeadline_of_none (h : st.deadline = none) : Ends checkDeadline st ⟨⟩ st := by
  simp only [checkDeadline, ends_bind]
  exact ⟨st, st, ends_get.2 ⟨rfl, rfl⟩, by rw [h]; exact ends_pure.2 ⟨rfl, rfl⟩⟩

theorem ends_build_of_closed {s : Setting} (hd : st.deadline = none) (h : st.closed[id]? = some w) :
    Ends (build s (fuel + 1) path stack field id) st w st := by
  simp only [build, ends_bind]
  refine ⟨⟨⟩, st, ends_checkDeadline_of_none hd, st, st, ends_get.2 ⟨rfl, rfl⟩, ?_⟩
  rw [h]
  exact ends_pure.2 ⟨rfl, rfl⟩

theorem exists_ends_build_of_node {s : Setting} {m : Node} (hd : st.deadline = none)
    (hclosed : st.closed[id]? = none) (hn : s.graph.node? id = some m)
    (hout : path.contains id = false)
    (ht : Ends (targetTerm s (build s fuel (path.insert id)) id m stack field) st w st₁)
    (htags : CalmlyEnds (checkTags s m.tags w id none true) st₁ ⟨⟩) :
    ∃ st₂, Calm st₁ st₂ ∧ Ends (build s (fuel + 1) path stack field id) st w
      (if w.free.isEmpty then { st₂ with closed := st₂.closed.insert id w } else st₂) := by
  have hremember (st : State) : Ends (if w.free.isEmpty then do
        modify fun st : State => { st with closed := st.closed.insert id w }
        pure w
      else pure w : M Term) st w
      (if w.free.isEmpty then { st with closed := st.closed.insert id w } else st) := by
    split
    · exact ends_bind.2 ⟨⟨⟩, _, ends_modify.2 rfl, ends_pure.2 ⟨rfl, rfl⟩⟩
    · exact ends_pure.2 ⟨rfl, rfl⟩
  simp only [build, ends_bind, hn, hout, Bool.false_eq_true, if_false]
  cases hempty : m.tags.isEmpty with
  | true =>
    refine ⟨st₁, .refl st₁, ⟨⟩, st, ends_checkDeadline_of_none hd, st, st, ends_get.2 ⟨rfl, rfl⟩, ?_⟩
    simp only [hclosed, ends_bind]
    exact ⟨w, st₁, ht, hremember st₁⟩
  | false =>
    obtain ⟨st₂, hcheck, hcalm⟩ := htags
    refine ⟨st₂, hcalm, ⟨⟩, st, ends_checkDeadline_of_none hd, st, st, ends_get.2 ⟨rfl, rfl⟩, ?_⟩
    simp only [hclosed, ends_bind]
    exact ⟨w, st₁, ht, ends_bind.2 ⟨⟨⟩, st₂, hcheck, hremember st₂⟩⟩

/-- Folding a node of the arena again ends in a term that resembles the node's term and is written out
as the node was. -/
theorem exists_ends_build (field : Option String) (h : Laid d a S t r g.nodes) (hdet : t.Detached g.nodes)
    (hfin : Arena.Finite g.nodes) (hunm : t.Throughout Unmerged)
    (hs : Stands d a t g.nodes trail stack id e) (hst : Resumes d a t g.nodes st)
    (hpath : ∀ x, path.contains x → x ∈ trail) (hfuel : g.nodes.size < fuel + trail.length) :
    ∃ w st', Ends (build (g.setting d a) fuel path stack field id) st w st' ∧
      Resumes d a t g.nodes st' ∧ Refolds d a t g.nodes stack id st w st' := by
  induction fuel generalizing trail stack id e st path field with
  | zero =>
    have := hs.length_lt h
    omega
  | succ fuel ih =>
    have hnode : g.node? id = some (e.node id) := hs.written.node
    have hask := hs.written.asked.choose_spec.1
    cases hclosed : st.closed[id]? with
    | some w =>
      obtain ⟨hc, f, hf, hw⟩ := hst.closed id w hclosed
      obtain ⟨htwin, hd, -⟩ := h.agree_of_written h hs.written hf
      have hw : Resembles d a stack.length e.term w := (hw _).of_twin htwin hd
      refine ⟨w, st, ends_build_of_closed hst.deadline hclosed, hst, ⟨e, hs.written, hw⟩,
        fun B hB hold => ?_⟩
      have hid : id ∈ B := hold id (Std.ExtTreeMap.isSome_getElem?_iff_mem.1 (by simp [hclosed]))
      exact ⟨B, ends_emit_of_mem (hs.named_of_resembles h hw) hid, hB, .refl B, hid, hold,
        fun _ => rfl⟩
    | none =>
      have hvisits : Visits d a S t r g.nodes id e (e.term.push id stack).length
          (build (g.setting d a) fuel (path.insert id) (e.term.push id stack))
          (Resumes d a t g.nodes) (Refolds d a t g.nodes (e.term.push id stack)) := by
        refine ⟨h, hdet, hs.written, fun field x hx st hst => ?_, fun _ _ _ _ hr => hr.resembles,
          fun _ _ hcalm hst => hst.calm hcalm⟩
        obtain ⟨f, hf⟩ := hs.exists_child h hx
        exact ih field hf hst (mem_trail_of_contains_insert hpath) (by simp only [List.length_cons]; omega)
      obtain ⟨w, st₂, hrun, hst₂, ws, st₁, shape, hsteps, hcalm, hws, hr, hmade⟩ :=
        hvisits.remade field hst (h.finite_of_written hfin hs.written) (hunm _ hask.sub)
          (fun k l hk => hs.idxOf_target h hk)
          fun symbol raw hs' => hs.not_mem_push (hdet _ hask.sub symbol raw hs')
      have hremaking : Remaking d a id e _ shape ws := ⟨h.formed_of_written hs.written, hws, hr⟩
      obtain ⟨w', htarget, hagain⟩ : ∃ w', (if e.term.binder then w.free.contains stack.length ∧
          w.asTarget d a stack.length = .ok w' else w' = w) ∧
          Again d a e stack.length shape ws w' := by
        cases hb : e.term.binder with
        | true =>
          have hlen : (e.term.push id stack).length = stack.length + 1 := by simp [push, hb]
          obtain ⟨hlive, w', hw', hagain⟩ := hremaking.exists_asTarget hlen hmade hb
          exact ⟨w', ⟨hlive, hw'⟩, hagain⟩
        | false =>
          have hpush : e.term.push id stack = stack := by simp [push, hb]
          rw [hpush] at hremaking
          exact ⟨w, rfl, hremaking.again hmade hb⟩
      have htarget := ends_targetTerm_of_live (s := g.setting d a) hst.dead
        (Hasher.contains_binders h hdet hs.written) hrun htarget
      have hout : path.contains id = false :=
        Bool.eq_false_iff.2 fun hc => hs.not_mem_trail h (hpath id hc)
      have hread : TagsReadable (e.node id).tags w' := by
        have hread := hagain.resembles.sits.formed.here.tags
        rwa [hagain.tags] at hread
      obtain ⟨st₃, hcalm', hbuild⟩ := exists_ends_build_of_node hst.deadline hclosed hnode hout htarget
        (calmlyEnds_checkTags h.writable (fun _ => hread) id none st₂)
      have hst₃ := hst₂.calm hcalm'
      refine ⟨w', _, hbuild, ?_, ⟨e, hs.written, hagain.resembles⟩,
        hs.rewrites h hagain hr.outline hsteps (fun _ _ _ _ hq => hq.rewrites) fun x hx => ?_⟩
      · split
        · next hc => exact hst₃.insert hs.written hc hagain.resembles
        · exact hst₃
      · have hsame : st₃.closed = st₁.closed := hcalm'.closed.trans hcalm.closed
        split at hx
        · rw [Std.ExtTreeMap.mem_insert, hsame] at hx
          exact hx.symm.imp_right fun hx => (by simpa using hx : id = x).symm
        · exact .inl (hsame ▸ hx)

end Folding

namespace Graph

variable {c : CanonicalGraph}

/-- Normalizing a canonical graph gives it back. -/
theorem canonical?_idempotent (hc : g.canonical? d a = some c)
    (hfree : d.CollisionFree a (g.texts d a)) (hset : g.Settled d a)
    (hdet : ∀ t, g.Folds d a t → t.Detached c.nodes) (hfin : Arena.Finite c.nodes) :
    c.toGraph.canonical? d a = some c := by
  obtain ⟨t, hfold, hlaid⟩ := exists_laid hc hfree subset_rfl hset
  have hunm : t.Throughout Unmerged :=
    hfold.derives.unmerged hfree
      (fun trail stack id t hv hd x hx => .inl ⟨trail, stack, id, t, hv, hd, hx⟩) .root
  obtain ⟨e, hs, -⟩ := Stands.root hlaid
  have hst : Resumes d a t c.nodes {} := ⟨rfl, rfl, fun x w hw => by simp at hw⟩
  have hpath : ∀ x, (∅ : Std.ExtTreeSet NodeId).contains x → x ∈ ([] : List NodeId) := by simp
  obtain ⟨w, st, hbuild, -, hrefolds⟩ := exists_ends_build (g := c.toGraph) none hlaid
    (hdet t hfold) hfin hunm hs hst hpath (Nat.lt_succ_self c.nodes.size)
  have hempty : Lower ∅ c.nodes := ⟨fun x m hm => by simp at hm, fun x m hm => by simp at hm⟩
  obtain ⟨C, hemit, hC, -, hroot, -⟩ := hrefolds.rewrites ∅ hempty (by simp)
  obtain rfl := hC.eq_of_reaches hroot fun x hx => hlaid.reaches hx
  have hrun : (Folding.root (c.toGraph.setting d a)).run {} = .ok (w, st) := hbuild
  have hwrite : (emit d a w []).run ∅ = .ok (c.root, c.nodes) := hemit
  obtain ⟨n, hn, hvalue⟩ := canonical?_eq_some.1 hc
  obtain ⟨_, _, _, _, -, -, rfl⟩ := normalize_eq_ok hn
  obtain rfl := Option.some.inj hvalue
  simp only [canonical?, normalize, normalizeFrom, hrun, bind, Except.bind, hwrite]
  rfl

/-- Lists of lists are left as they are when they are normalized again. -/
theorem canonical?_idempotent_nested :
    ∃ c, nested.canonical? .legible .sha256 = some c ∧
      Digester.legible.CollisionFree .sha256 (nested.texts .legible .sha256) ∧
      nested.Settled .legible .sha256 ∧ (∀ t, nested.Folds .legible .sha256 t → t.Detached c.nodes) ∧
      Arena.Finite c.nodes ∧ c.toGraph.canonical? .legible .sha256 = some c := by
  have hrun : (nested.canonical? .legible .sha256).isSome := by decide +kernel
  obtain ⟨c, hc⟩ := Option.isSome_iff_exists.1 hrun
  have hfree := Digester.legible_collisionFree .sha256 (nested.texts .legible .sha256)
  have hset := settled_of_upright nested_upright
  have hdet : ∀ t, nested.Folds .legible .sha256 t → t.Detached c.nodes :=
    fun t ht => (linked_of_upright nested_upright t ht).detached
  have hfin := finite_of_canonical? hc (finite_ofNodes rfl)
  exact ⟨c, hc, hfree, hset, hdet, hfin, canonical?_idempotent hc hfree hset hdet hfin⟩

end Graph

end TypeAtlas
