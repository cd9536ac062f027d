import TypeAtlas.Normal.Normalization
import TypeAtlas.Proofs.Run
import Mathlib.Data.List.Perm.Subperm

/-! # What folding does

Folding a node folds some nodes below it, one after the other, and makes a term of theirs. What is
made depends on their terms alone; all that the fold does besides is to report, to remember closed
terms and to give up recursion targets that nothing refers to. The terms that a fold can arrive at
are given here by rules, and every run follows them.
-/

namespace TypeAtlas.Folding

variable {s : Setting} {st st' st'' : State} {n : Node} {t : Term} {ts : List Term}
  {field : Option String} {binder : Bool} {stack : List NodeId} {loose : Prop}

/-! ## Quiet steps -/

/-- A step has done no more than to report. -/
structure Reports (st st' : State) : Prop where
  closed : st'.closed = st.closed
  dead : st'.dead = st.dead
  sink : ∀ d ∈ st.sink.items, d ∈ st'.sink.items

/-- A step has done no more than to report, and has reported no cycle. -/
structure Quiet (st st' : State) : Prop extends Reports st st' where
  cycle : ∀ d ∈ st'.sink.items, d.code = DiagnosticKey.recursionCycle.code → d ∈ st.sink.items

/-- Nothing has been left out: no recursion target is given up, and every union is whole. -/
def Whole (st : State) : Prop :=
  st.dead = ∅ ∧ ∀ d ∈ st.sink.items, d.code ≠ DiagnosticKey.unionHeterogeneous.code

/-- It was reported that the members of a union do not belong together. -/
def Mixed (st : State) : Prop :=
  ∃ d ∈ st.sink.items, d.code = DiagnosticKey.unionHeterogeneous.code ∧ d.isError

theorem loose_of_mixed (h : loose ∨ Whole st) (hm : Mixed st) : loose :=
  let ⟨d, hd, hcode, _⟩ := hm
  h.resolve_right fun hw => hw.2 d hd hcode

theorem Mixed.hasErrors (h : Mixed st) : st.sink.hasErrors :=
  let ⟨d, hd, _, he⟩ := h
  Array.any_eq_true'.2 ⟨d, hd, he⟩

theorem Quiet.refl (st : State) : Quiet st st := ⟨⟨rfl, rfl, fun _ h => h⟩, fun _ h _ => h⟩

theorem Quiet.trans (st st' st'' : State) (h : Quiet st st') (h' : Quiet st' st'') :
    Quiet st st'' :=
  ⟨⟨h'.closed.trans h.closed, h'.dead.trans h.dead, fun d hd => h'.sink d (h.sink d hd)⟩,
    fun d hd hcode => h.cycle d (h'.cycle d hd hcode) hcode⟩

theorem Reports.whole (h : Reports st st') (hw : Whole st') : Whole st :=
  ⟨h.dead ▸ hw.1, fun d hd => hw.2 d (h.sink d hd)⟩

theorem ends_written {α : Type} {m : Except Json.WriteError α} {x : α} :
    Ends (written m) st x st' ↔ m = .ok x ∧ st' = st := by
  rw [written, ends_lift]
  cases m <;> simp [Attempt.ofWrite]

theorem reports_of_report {key : DiagnosticKey} {args : List Datum} {id : NodeId} {u : Unit}
    (h : Ends (report s key args id field) st u st') :
    Reports st st' ∧ ∃ d ∈ st'.sink.items, d.code = key.code ∧ d.category = key.entry.category := by
  rw [report, ends_modify] at h
  subst h
  exact ⟨⟨rfl, rfl, fun d hd => Array.mem_push_of_mem _ hd⟩, _, Array.mem_push_self, rfl, rfl⟩

theorem ends_report {key : DiagnosticKey} {args : List Datum} {id : NodeId} {u : Unit}
    (h : Ends (report s key args id field) st u st')
    (hkey : key.code ≠ DiagnosticKey.recursionCycle.code := by decide) :
    Quiet st st' ∧ ∃ d ∈ st'.sink.items, d.code = key.code ∧ d.category = key.entry.category := by
  obtain ⟨hreports, hd⟩ := reports_of_report h
  refine ⟨⟨hreports, fun d hd hcode => ?_⟩, hd⟩
  rw [report, ends_modify] at h
  subst h
  rcases Array.mem_push.1 hd with hd | rfl
  · exact hd
  · exact absurd hcode hkey

theorem ends_render {id : NodeId} {x : String} (h : Ends (render s id) st x st') : st' = st :=
  (ends_written.1 h).2

theorem ends_reportIncompatible {tag : Tag} {id : NodeId} {u : Unit}
    (h : Ends (reportIncompatible s tag t id field) st u st') : Quiet st st' := by
  rw [reportIncompatible, ends_bind] at h
  obtain ⟨text, st₁, hr, h⟩ := h
  obtain rfl := ends_render hr
  exact (ends_report h).1

theorem ends_checkDeadline {u : Unit} (h : Ends checkDeadline st u st') : Quiet st st' := by
  rw [checkDeadline, ends_bind] at h
  obtain ⟨st₁, st₂, hg, h⟩ := h
  obtain ⟨rfl, rfl⟩ := ends_get.1 hg
  split at h
  · obtain ⟨-, rfl⟩ := ends_pure.1 h
    exact .refl _
  · rw [ends_bind] at h
    obtain ⟨_, st₃, hm, h⟩ := h
    obtain rfl := ends_modify.1 hm
    split at h
    · exact absurd h not_ends_throw
    · obtain ⟨-, rfl⟩ := ends_pure.1 h
      exact ⟨⟨rfl, rfl, fun _ h => h⟩, fun _ h _ => h⟩

theorem ends_checkDeadline_none (h : st.deadline = none) : Ends checkDeadline st ⟨⟩ st := by
  rw [checkDeadline, ends_bind]
  refine ⟨st, st, ends_get.2 ⟨rfl, rfl⟩, ?_⟩
  rw [h]
  exact ends_pure.2 ⟨rfl, rfl⟩

/-! ## Tags -/

/-- An index that can be read: its field names are a list of plain values. -/
def Readable (tag : Tag) : Prop :=
  ∃ names st st', Ends (indexFields tag) st names st' ∧
    ∀ name ∈ names, ∀ fs, ∃ st b st', Ends (namesField fs name) st b st'

/-- Every index that stands at an object can be read. -/
def TagsReadable (tags : List Tag) (t : Term) : Prop :=
  ∀ tag ∈ tags, tag.parsed.isSome → tag.name = "index" → t.dereference.fields?.isSome →
    Readable tag

theorem ends_indexFields {tag : Tag} {names : List Datum} (h : Ends (indexFields tag) st names st') :
    st' = st := by
  unfold indexFields at h
  split at h
  all_goals first
    | exact (ends_pure.1 h).2.symm
    | exact absurd h not_ends_throw

theorem ends_namesField {fs : List FieldTerm} {name : Datum} {b : Bool}
    (h : Ends (namesField fs name) st b st') :
    st' = st ∧ ∀ gs, ∃ c, Ends (namesField gs name) st c st := by
  unfold namesField at h ⊢
  split at h
  · exact ⟨(ends_pure.1 h).2.symm, fun gs => ⟨_, ends_pure.2 ⟨rfl, rfl⟩⟩⟩
  · exact absurd h not_ends_throw
  · exact absurd h not_ends_throw
  · exact ⟨(ends_pure.1 h).2.symm, fun gs => ⟨_, ends_pure.2 ⟨rfl, rfl⟩⟩⟩

theorem ends_checkIndex {tag : Tag} {id : NodeId} {u : Unit}
    (h : Ends (checkIndex s tag t id) st u st') :
    Quiet st st' ∧ (t.dereference.fields?.isSome → Readable tag) := by
  unfold checkIndex at h
  split at h
  · next hf =>
    refine ⟨?_, fun hs => by simp [hf] at hs⟩
    split at h
    · exact ends_reportIncompatible h
    · obtain ⟨-, rfl⟩ := ends_pure.1 h
      exact .refl _
  · next fs hf =>
    simp only [ends_bind] at h
    obtain ⟨names, st₁, hn, _, st₂, hloop, h⟩ := h
    obtain ⟨-, rfl⟩ := ends_pure.1 h
    obtain rfl := ends_indexFields hn
    have hloop' := fun hf => ends_forIn (P := fun name => ∀ gs : List FieldTerm, ∃ st c st',
      Ends (namesField gs name) st c st') Quiet.refl Quiet.trans hf hloop
    obtain ⟨hq, hall⟩ := hloop' (by
      intro name _ st r st' h
      rw [ends_bind] at h
      obtain ⟨b, st₁, hb, h⟩ := h
      obtain ⟨rfl, hgs⟩ := ends_namesField hb
      have hnames : ∀ gs : List FieldTerm, ∃ st c st', Ends (namesField gs name) st c st' :=
        fun gs => let ⟨c, hc⟩ := hgs gs; ⟨_, c, _, hc⟩
      split at h
      · rw [ends_bind] at h
        obtain ⟨_, st₂, hr, h⟩ := h
        obtain ⟨rfl, rfl⟩ := ends_pure.1 h
        exact ⟨rfl, (ends_report hr).1, hnames⟩
      · obtain ⟨rfl, rfl⟩ := ends_pure.1 h
        exact ⟨rfl, .refl _, hnames⟩)
    exact ⟨hq, fun _ => ⟨names, _, _, hn, hall⟩⟩

theorem ends_checkTags {tags : List Tag} {id : NodeId} {entity : Bool} {u : Unit}
    (h : Ends (checkTags s tags t id field entity) st u st') :
    Quiet st st' ∧ (entity → TagsReadable tags t) := by
  unfold checkTags at h
  rw [ends_bind] at h
  obtain ⟨_, st₁, hloop, h⟩ := h
  obtain ⟨-, rfl⟩ := ends_pure.1 h
  have hloop' := fun hf => ends_forIn (P := fun tag : Tag => entity → tag.parsed.isSome →
    tag.name = "index" → t.dereference.fields?.isSome → Readable tag) Quiet.refl Quiet.trans hf hloop
  obtain ⟨hq, hall⟩ := hloop' (by
    intro tag _ st r st' h
    split at h
    · next hp =>
      split at h
      · split at h
        · rw [ends_bind] at h
          obtain ⟨_, st₂, hi, h⟩ := h
          obtain ⟨rfl, rfl⟩ := ends_pure.1 h
          exact ⟨rfl, (ends_checkIndex hi).1, fun _ _ _ => (ends_checkIndex hi).2⟩
        · next hent =>
          obtain ⟨rfl, rfl⟩ := ends_pure.1 h
          exact ⟨rfl, .refl _, fun he => absurd he hent⟩
      · next hname =>
        have hno : entity → tag.parsed.isSome → tag.name = "index" →
            t.dereference.fields?.isSome → Readable tag := fun _ _ hi => absurd hi hname
        split at h
        · split at h
          · rw [ends_bind] at h
            obtain ⟨_, st₂, hr, h⟩ := h
            obtain ⟨rfl, rfl⟩ := ends_pure.1 h
            exact ⟨rfl, ends_reportIncompatible hr, hno⟩
          · obtain ⟨rfl, rfl⟩ := ends_pure.1 h
            exact ⟨rfl, .refl _, hno⟩
        · obtain ⟨rfl, rfl⟩ := ends_pure.1 h
          exact ⟨rfl, .refl _, hno⟩
    · next hp =>
      obtain ⟨rfl, rfl⟩ := ends_pure.1 h
      exact ⟨rfl, .refl _, fun _ hs => absurd hs hp⟩)
  exact ⟨hq, fun he tag ht => hall tag ht he⟩

/-! ## Fields -/

/-- The fields after one more has come in, without the reports. -/
def absorb (merged : Std.ExtTreeMap String FieldTerm) (f : FieldTerm) :
    Std.ExtTreeMap String FieldTerm :=
  match merged[f.1.name]? with
  | none => merged.insert f.1.name f
  | some g =>
    if g.2.digest = f.2.digest ∧ g.1.optional ∧ f.1.optional = false then
      merged.insert f.1.name ({ g.1 with optional := false }, g.2)
    else merged

def mergedFields (fs : List FieldTerm) : List FieldTerm := (fs.foldl absorb ∅).toList.map Prod.snd

theorem ends_mergeField {owner : NodeId} {merged merged' : Std.ExtTreeMap String FieldTerm}
    {f : FieldTerm} (h : Ends (mergeField s owner merged f) st merged' st') :
    merged' = absorb merged f ∧ Quiet st st' := by
  unfold mergeField at h
  unfold absorb
  cases hm : merged[f.1.name]? with
  | none =>
    simp only [hm] at h
    obtain ⟨rfl, rfl⟩ := ends_pure.1 h
    exact ⟨rfl, .refl _⟩
  | some g =>
    simp only [hm] at h ⊢
    split at h
    · next hd =>
      simp only [ends_bind] at h
      obtain ⟨x, st₁, hx, y, st₂, hy, _, st₃, hr, h⟩ := h
      obtain rfl := ends_render hx
      obtain rfl := ends_render hy
      obtain ⟨rfl, rfl⟩ := ends_pure.1 h
      exact ⟨by simp [hd], (ends_report hr).1⟩
    · next hd =>
      have hd : g.2.digest = f.2.digest := not_not.1 hd
      split at h
      · next ho =>
        obtain ⟨rfl, rfl⟩ := ends_pure.1 h
        have ho : g.1.optional = true ∧ f.1.optional = false := by simpa using ho
        exact ⟨by simp [hd, ho], .refl _⟩
      · next ho =>
        obtain ⟨rfl, rfl⟩ := ends_pure.1 h
        have ho : ¬ (g.1.optional = true ∧ f.1.optional = false) := by simpa using ho
        exact ⟨by rw [if_neg fun hc => ho hc.2], .refl _⟩

theorem ends_mergeFields {owner : NodeId} {fs gs : List FieldTerm}
    (h : Ends (mergeFields s owner fs) st gs st') : gs = mergedFields fs ∧ Quiet st st' := by
  rw [mergeFields, ends_bind] at h
  obtain ⟨m, st₁, hm, h⟩ := h
  obtain ⟨rfl, rfl⟩ := ends_pure.1 h
  obtain ⟨rfl, hq⟩ := ends_foldlM Quiet.refl Quiet.trans
    (fun _ _ _ _ _ h => ends_mergeField h) hm
  exact ⟨rfl, hq⟩

/-! ## Making terms -/

/-- The term of a shape over terms, for a node. -/
def Made (s : Setting) (n : Node) (shape : TermShape) (ts : List Term) (t : Term) : Prop :=
  Term.make s.digester s.algorithm shape n.id ts n.tags n.location = .ok t

/-- Why a fold does not know a type. -/
inductive Remark (id : NodeId) : String → UnknownCause → Prop
  | cycle : Remark id "cycle without recursive_ref" .recursion
  | missing : Remark id ("missing node " ++ id) .unresolved
  | mixed : Remark id heterogeneousReason .heterogeneous

/-- A term that says that a type is not known. -/
def Unmade (s : Setting) (id : NodeId) (t : Term) : Prop :=
  ∃ reason cause, Remark id reason cause ∧
    Term.make s.digester s.algorithm (.unknown reason cause) id [] [] none = .ok t

def MadeObject (s : Setting) (n : Node) (fs : List FieldTerm) (t : Term) : Prop :=
  Made s n (.object (fs.map Prod.fst)) (fs.map Prod.snd) t

/-- A composite over sorted members, or its single member. -/
def Composed (s : Setting) (n : Node) (shape : TermShape) (ts : List Term) (binder : Bool)
    (t : Term) : Prop :=
  match ts with
  | [only] => if n.tags.isEmpty && !binder then t = only else Made s n shape ts t
  | _ => Made s n shape ts t

theorem ends_term {shape : TermShape}
    (h : Ends (term s shape n.id ts n.tags n.location) st t st') :
    Made s n shape ts t ∧ st' = st := ends_written.1 h

theorem ends_unknownTerm {id : NodeId} {reason : String} {cause : UnknownCause}
    (h : Ends (unknownTerm s id reason cause) st t st') (hr : Remark id reason cause) :
    Unmade s id t ∧ st' = st :=
  let ⟨ht, hst⟩ := ends_written.1 h
  ⟨⟨reason, cause, hr, ht⟩, hst⟩

theorem ends_composite {kind : String} {shape : TermShape}
    (h : Ends (composite s kind shape n ts binder field) st t st') :
    Composed s n shape ts binder t ∧ Quiet st st' := by
  rcases ts with _ | ⟨only, _ | ⟨second, rest⟩⟩
  · obtain ⟨ht, rfl⟩ := ends_term h
    exact ⟨ht, .refl _⟩
  · simp only [composite, Composed] at h ⊢
    by_cases hc : (n.tags.isEmpty && !binder) = true
    · rw [if_pos hc] at h ⊢
      simp only [ends_bind] at h
      obtain ⟨x, st₁, hx, _, st₂, hr, h⟩ := h
      obtain rfl := ends_render hx
      obtain ⟨rfl, rfl⟩ := ends_pure.1 h
      exact ⟨rfl, (ends_report hr).1⟩
    · rw [if_neg hc] at h ⊢
      obtain ⟨ht, rfl⟩ := ends_term h
      exact ⟨ht, .refl _⟩
  · obtain ⟨ht, rfl⟩ := ends_term h
    exact ⟨ht, .refl _⟩

/-! ## Members -/

/-- The members of a composite, spliced, each with the node it is reported as. -/
def spliced (kind : String) (ids : List NodeId) (ts : List Term) : List Member :=
  (ids.zip ts).flatMap (splice kind)

/-- The members of a union that stay. When some do not belong to the rest, a remark takes their
place; unless the fold is loose this does not happen. -/
def Kept (s : Setting) (loose : Prop) (n : Node) (ms : List Member) (kept : List Term) : Prop :=
  let sorting := ms.foldl Sorting.add {}
  match sorting.offending with
  | none => kept = sorting.kept
  | some _ => loose ∧ ∃ rest, Unmade s n.id rest ∧ kept = sorting.kept ++ [rest]

theorem ends_unionTerm {ms : List Member} (h : Ends (unionTerm s n ms binder field) st t st')
    (hl : Mixed st' → loose) :
    Quiet st st' ∧ ∃ kept, Kept s loose n ms kept ∧
      Composed s n (.union (discriminant? (sortedUnique kept))) (sortedUnique kept) binder t := by
  simp only [unionTerm] at h
  unfold Kept
  split at h
  · next ho =>
    obtain ⟨hc, hq⟩ := ends_composite h
    exact ⟨hq, _, by simp [ho], hc⟩
  · next id ho =>
    simp only [ends_bind] at h
    obtain ⟨x, st₁, hx, _, st₂, hr, rest, st₃, hrest, kept, st₄, hk, h⟩ := h
    obtain rfl := ends_render hx
    obtain ⟨hq, d, hd, hcode, hcategory⟩ := ends_report hr
    obtain ⟨hu, rfl⟩ := ends_unknownTerm hrest .mixed
    obtain ⟨rfl, rfl⟩ := ends_pure.1 hk
    obtain ⟨hc, hq'⟩ := ends_composite h
    have hl' : loose := hl ⟨d, hq'.sink d hd, hcode, by rw [Diagnostic.isError, hcategory]; rfl⟩
    refine ⟨hq.trans _ _ _ hq', _, ?_, hc⟩
    simp only [ho]
    exact ⟨hl', rest, hu, rfl⟩

/-- An intersection of objects is an object; any other is a composite. -/
def Intersected (s : Setting) (n : Node) (ts : List Term) (binder : Bool) (t : Term) : Prop :=
  match ts, ts.mapM Term.objectBody? with
  | _ :: _, some bodies => MadeObject s n (mergedFields bodies.flatten) t
  | _, _ => Composed s n .intersection (sortedUnique ts) binder t

theorem ends_intersectionTerm {ms : List Member}
    (h : Ends (intersectionTerm s n ms binder field) st t st') :
    Intersected s n (ms.map Prod.snd) binder t ∧ Quiet st st' := by
  simp only [intersectionTerm] at h
  generalize ms.map Prod.snd = ts at h ⊢
  unfold Intersected
  cases ts with
  | nil => exact ends_composite h
  | cons t₀ rest =>
    cases hb : (t₀ :: rest).mapM Term.objectBody? with
    | none =>
      simp only [hb] at h ⊢
      exact ends_composite h
    | some bodies =>
      simp only [hb, ends_bind] at h ⊢
      obtain ⟨fs, st₁, hm, h⟩ := h
      obtain ⟨rfl, hq⟩ := ends_mergeFields hm
      obtain ⟨ht, rfl⟩ := ends_term h
      exact ⟨ht, hq⟩

/-! ## Nodes -/

def headOf (f : Field) : FieldHead :=
  ⟨f.name, f.optional, f.readonly, f.tags, f.location, f.type⟩

/-- The members of a node's composite, nested ones in the place of what they are nested in. -/
def flat (s : Setting) (members? : Shape → Option (List NodeId)) (ids : List NodeId) :
    List NodeId :=
  (flatten s members? s.graph.nodes.size ids ∅).1

/-- The nodes that a node is folded from, each with the field it stands in. -/
def sources (s : Setting) (n : Node) (field : Option String) : List (Option String × NodeId) :=
  match n.shape with
  | .object fs => fs.map fun f => (some f.name, f.type)
  | .union ms _ => (flat s unionMembers? ms).map (field, ·)
  | .intersection ms => (flat s intersectionMembers? ms).map (field, ·)
  | shape => shape.children.map (field, ·)

/-- The distance and height of a target on the stack. -/
def linkTo (stack : List NodeId) (target : NodeId) : Option (Nat × Nat) :=
  (stack.idxOf? target).map fun depth => (depth, stack.length - 1 - depth)

/-- A node's own term, made of the terms of its sources. -/
def Assembled (s : Setting) (loose : Prop) (n : Node) (stack : List NodeId) (binder : Bool)
    (ts : List Term) (t : Term) : Prop :=
  match n.shape with
  | .primitive p => Made s n (.primitive p) [] t
  | .literal k v => Made s n (.literal k v) [] t
  | .enum ms => Made s n (.enum (sortMembers ms)) [] t
  | .unknown r c => Made s n (.unknown r c) [] t
  | .recursiveRef target symbol =>
    Made s n (.recursiveRef symbol target (linkTo stack target)) [] t
  | .array _ => Made s n .array ts t
  | .tuple _ => Made s n .tuple ts t
  | .reference _ symbol => Made s n (.reference symbol) ts t
  | .object fs => MadeObject s n (mergedFields ((fs.map headOf).zip ts)) t
  | .union ms _ => ∃ kept, Kept s loose n (spliced "union" (flat s unionMembers? ms) ts) kept ∧
      Composed s n (.union (discriminant? (sortedUnique kept))) (sortedUnique kept) binder t
  | .intersection ms => Intersected s n
      ((spliced "intersection" (flat s intersectionMembers? ms) ts).map Prod.snd) binder t

theorem ends_members {build : NodeId → M Term} {kind : String}
    {members? : Shape → Option (List NodeId)} {ids : List NodeId} {ms : List Member}
    (h : Ends (members s build kind members? ids) st ms st') :
    ∃ ts, Chain build (flat s members? ids) st ts st' ∧
      ms = spliced kind (flat s members? ids) ts := by
  simp only [members, ends_bind] at h
  obtain ⟨built, st₁, hb, h⟩ := h
  obtain ⟨rfl, rfl⟩ := ends_pure.1 h
  obtain ⟨ts, hts, rfl⟩ := (ends_mapM.1 hb).unzip (g := id)
  exact ⟨ts, hts, by rw [spliced, flat, List.map_id]⟩

theorem ends_nodeTerm {build : Option String → NodeId → M Term}
    (h : Ends (nodeTerm s build n stack field binder) st t st') (hl : Mixed st' → loose) :
    ∃ ts st₁, Chain (fun p => build p.1 p.2) (sources s n field) st ts st₁ ∧
      Quiet st₁ st' ∧ Assembled s loose n stack binder ts t := by
  let visit : Option String × NodeId → M Term := fun p => build p.1 p.2
  unfold nodeTerm at h
  unfold sources Assembled
  cases hs : n.shape with
  | primitive p =>
    rw [hs] at h
    obtain ⟨ht, rfl⟩ := ends_term h
    exact ⟨[], st', .nil, .refl _, ht⟩
  | literal k v =>
    rw [hs] at h
    obtain ⟨ht, rfl⟩ := ends_term h
    exact ⟨[], st', .nil, .refl _, ht⟩
  | enum ms =>
    rw [hs] at h
    obtain ⟨ht, rfl⟩ := ends_term h
    exact ⟨[], st', .nil, .refl _, ht⟩
  | unknown r c =>
    rw [hs] at h
    obtain ⟨ht, rfl⟩ := ends_term h
    exact ⟨[], st', .nil, .refl _, ht⟩
  | recursiveRef target symbol =>
    rw [hs] at h
    obtain ⟨ht, rfl⟩ := ends_term h
    exact ⟨[], st', .nil, .refl _, ht⟩
  | array e =>
    simp only [hs, ends_bind] at h
    obtain ⟨u, st₁, hu, h⟩ := h
    obtain ⟨ht, rfl⟩ := ends_term h
    exact ⟨[u], _, .cons hu .nil, .refl _, ht⟩
  | reference target symbol =>
    simp only [hs, ends_bind] at h
    obtain ⟨u, st₁, hu, h⟩ := h
    obtain ⟨ht, rfl⟩ := ends_term h
    exact ⟨[u], _, .cons hu .nil, .refl _, ht⟩
  | tuple es =>
    simp only [hs, ends_bind] at h
    obtain ⟨ts, st₁, hts, h⟩ := h
    obtain ⟨ht, rfl⟩ := ends_term h
    exact ⟨ts, _, (ends_mapM.1 hts).map (f := visit) (g := fun e => (field, e)), .refl _, ht⟩
  | object fs =>
    simp only [hs, ends_bind] at h
    obtain ⟨built, st₁, hb, gs, st₂, hm, _, st₃, hloop, h⟩ := h
    obtain ⟨ts, hts, rfl⟩ := (ends_mapM.1 hb).unzip (f := fun f => build (some f.name) f.type)
      (g := headOf)
    obtain ⟨rfl, hq⟩ := ends_mergeFields hm
    obtain ⟨ht, rfl⟩ := ends_term h
    have hloop' := fun hf => ends_forIn (P := fun _ => True) Quiet.refl Quiet.trans hf hloop
    obtain ⟨hq', -⟩ := hloop' (by
      intro f _ st r st' h
      rw [ends_bind] at h
      obtain ⟨_, st₁, hc, h⟩ := h
      obtain ⟨rfl, rfl⟩ := ends_pure.1 h
      exact ⟨rfl, (ends_checkTags hc).1, trivial⟩)
    exact ⟨ts, _, hts.map (f := visit) (g := fun f : Field => (some f.name, f.type)),
      hq.trans _ _ _ hq', ht⟩
  | union ms d =>
    simp only [hs, ends_bind] at h
    obtain ⟨members, st₁, hm, h⟩ := h
    obtain ⟨ts, hts, rfl⟩ := ends_members hm
    obtain ⟨hq, kept, hk, hc⟩ := ends_unionTerm h hl
    exact ⟨ts, _, hts.map (f := visit) (g := fun e => (field, e)), hq, kept, hk, hc⟩
  | intersection ms =>
    simp only [hs, ends_bind] at h
    obtain ⟨members, st₁, hm, h⟩ := h
    obtain ⟨ts, hts, rfl⟩ := ends_members hm
    obtain ⟨hi, hq⟩ := ends_intersectionTerm h
    exact ⟨ts, _, hts.map (f := visit) (g := fun e => (field, e)), hq, hi⟩

/-! ## Runs -/

def sourceIds (s : Setting) (n : Node) : List NodeId := (sources s n none).map Prod.snd

theorem map_snd_sources (field : Option String) :
    (sources s n field).map Prod.snd = sourceIds s n := by
  unfold sourceIds sources
  cases n.shape <;> simp

/-- Where a fold can get to: the nodes on the path, the recursion targets on the stack, and the
node. -/
inductive Visited (s : Setting) : List NodeId → List NodeId → NodeId → Prop
  | root : Visited s [] [] s.graph.root
  | plain {path stack : List NodeId} {id x : NodeId} {n : Node} (h : Visited s path stack id)
      (hn : s.graph.node? id = some n) (hx : x ∈ sourceIds s n) : Visited s (id :: path) stack x
  | target {path stack : List NodeId} {id x : NodeId} {n : Node} (h : Visited s path stack id)
      (hn : s.graph.node? id = some n) (hb : s.binders.contains id) (hx : x ∈ sourceIds s n) :
      Visited s (id :: path) (id :: stack) x

/-- The terms of a node below the targets on the stack. Unless the fold is loose it never gives up:
it neither meets a node that is missing or contains itself, nor leaves out what it should keep. -/
inductive Derives (s : Setting) (loose : Prop) : List NodeId → NodeId → Term → Prop
  | recalled {path stack stack' : List NodeId} {id : NodeId} {t : Term}
      (hv : Visited s path stack' id) (h : Derives s loose stack' id t) (hc : t.free.isEmpty) :
      Derives s loose stack id t
  | abandoned {stack : List NodeId} {id : NodeId} {t : Term} (hl : loose) (h : Unmade s id t) :
      Derives s loose stack id t
  | plain {stack : List NodeId} {id : NodeId} {n : Node} {ts : List Term} {t : Term}
      (hn : s.graph.node? id = some n) (hb : s.binders.contains id → loose)
      (hlen : ts.length = (sourceIds s n).length)
      (hts : ∀ i (hi : i < ts.length), Derives s loose stack ((sourceIds s n)[i]) ts[i])
      (ht : Assembled s loose n stack false ts t) (htags : TagsReadable n.tags t) :
      Derives s loose stack id t
  | target {stack : List NodeId} {id : NodeId} {n : Node} {ts : List Term} {u t : Term}
      (hn : s.graph.node? id = some n) (hb : s.binders.contains id)
      (hlen : ts.length = (sourceIds s n).length)
      (hts : ∀ i (hi : i < ts.length), Derives s loose (id :: stack) ((sourceIds s n)[i]) ts[i])
      (hu : Assembled s loose n (id :: stack) true ts u) (hlive : u.free.contains stack.length)
      (ht : u.asTarget s.digester s.algorithm stack.length = .ok t)
      (htags : TagsReadable n.tags t) : Derives s loose stack id t

/-- Every remembered term is closed, and is one at which the fold can arrive. -/
def Sound (s : Setting) (loose : Prop) (st : State) : Prop :=
  ∀ id t, st.closed[id]? = some t →
    ∃ path stack, Visited s path stack id ∧ Derives s loose stack id t ∧ t.free.isEmpty

/-- A node is folded as a recursion target, as a target that turns out to be dead, or plainly. -/
theorem ends_targetTerm {build : List NodeId → Option String → NodeId → M Term} {id : NodeId}
    (h : Ends (targetTerm s build id n stack field) st t st') :
    (s.binders.contains id ∧ ∃ u,
      Ends (nodeTerm s (build (id :: stack)) n (id :: stack) field true) st u st' ∧
        u.free.contains stack.length ∧ u.asTarget s.digester s.algorithm stack.length = .ok t) ∨
    (s.binders.contains id ∧ ∃ st₁ : State,
      Ends (nodeTerm s (build stack) n stack field false)
        ({ st₁ with sink := st.sink, closed := st.closed, dead := st₁.dead.insert id } : State)
        t st') ∨
    ((s.binders.contains id → st.dead.contains id) ∧
      Ends (nodeTerm s (build stack) n stack field false) st t st') := by
  rw [targetTerm, ends_bind] at h
  obtain ⟨_, _, hg, h⟩ := h
  obtain ⟨rfl, rfl⟩ := ends_get.1 hg
  split at h
  · next hb =>
    have hbind : s.binders.contains id = true := (Bool.and_eq_true_iff.1 hb).1
    simp only [ends_bind] at h
    obtain ⟨_, _, hg, u, st₁, hu, h⟩ := h
    obtain ⟨rfl, rfl⟩ := ends_get.1 hg
    split at h
    · next hlive =>
      obtain ⟨ht, rfl⟩ := ends_written.1 h
      exact .inl ⟨hbind, u, hu, hlive, ht⟩
    · rw [ends_bind] at h
      obtain ⟨_, st₂, hm, h⟩ := h
      obtain rfl := ends_modify.1 hm
      exact .inr (.inl ⟨hbind, st₁, h⟩)
  · next hb =>
    refine .inr (.inr ⟨fun hc => ?_, h⟩)
    simpa [hc] using hb

theorem ends_remember {id : NodeId} {u : Term}
    (h : Ends (if u.free.isEmpty then do
        modify fun st : State => { st with closed := st.closed.insert id u }
        pure u
      else pure u : M Term) st t st') :
    u = t ∧ st' = if u.free.isEmpty then { st with closed := st.closed.insert id u } else st := by
  split at h
  · next hc =>
    rw [ends_bind] at h
    obtain ⟨_, st₁, hm, h⟩ := h
    obtain rfl := ends_modify.1 hm
    obtain ⟨rfl, rfl⟩ := ends_pure.1 h
    exact ⟨rfl, by rw [if_pos hc]⟩
  · next hc =>
    obtain ⟨rfl, rfl⟩ := ends_pure.1 h
    exact ⟨rfl, by rw [if_neg hc]⟩

def Cycled (st : State) : Prop :=
  ∃ d ∈ st.sink.items, d.code = DiagnosticKey.recursionCycle.code

/-- A fold gives up a node that is missing or contains itself, and only the latter is a cycle. -/
def GivesUp (s : Setting) (path : Std.ExtTreeSet NodeId) (id : NodeId) (st st' : State) : Prop :=
  s.graph.node? id = none ∧ Quiet st st' ∨ path.contains id ∧ Reports st st' ∧ Cycled st'

theorem GivesUp.reports {path : Std.ExtTreeSet NodeId} {id : NodeId}
    (h : GivesUp s path id st st') : Reports st st' :=
  h.elim (fun h => h.2.toReports) fun h => h.2.1

/-- A node is looked up among the closed terms, given up, or folded. -/
theorem ends_build {fuel : ℕ} {path : Std.ExtTreeSet NodeId} {id : NodeId}
    (h : Ends (build s (fuel + 1) path stack field id) st t st') :
    ∃ st₁, Quiet st st₁ ∧ ((st₁.closed[id]? = some t ∧ st' = st₁) ∨
      (GivesUp s path id st₁ st' ∧ Unmade s id t) ∨
      ∃ n st₂ st₃, s.graph.node? id = some n ∧ path.contains id = false ∧
        Ends (targetTerm s (build s fuel (path.insert id)) id n stack field) st₁ t st₂ ∧
        TagsReadable n.tags t ∧ Quiet st₂ st₃ ∧
        st' = if t.free.isEmpty then { st₃ with closed := st₃.closed.insert id t } else st₃) := by
  simp only [build, ends_bind] at h
  obtain ⟨_, st₁, hd, _, _, hg, h⟩ := h
  obtain ⟨rfl, rfl⟩ := ends_get.1 hg
  refine ⟨_, ends_checkDeadline hd, ?_⟩
  split at h
  · next u hu =>
    obtain ⟨rfl, rfl⟩ := ends_pure.1 h
    exact .inl ⟨hu, rfl⟩
  · split at h
    · next hn =>
      obtain ⟨hu, rfl⟩ := ends_unknownTerm h .missing
      exact .inr (.inl ⟨.inl ⟨hn, .refl _⟩, hu⟩)
    · next n hn =>
      split at h
      · next hp =>
        rw [ends_bind] at h
        obtain ⟨_, st₂, hr, h⟩ := h
        obtain ⟨hu, rfl⟩ := ends_unknownTerm h .cycle
        obtain ⟨hreports, d, hd, hcode, -⟩ := reports_of_report hr
        exact .inr (.inl ⟨.inr ⟨hp, hreports, d, hd, hcode⟩, hu⟩)
      · next hp =>
        rw [ends_bind] at h
        obtain ⟨u, st₂, hu, h⟩ := h
        have hp : path.contains id = false := Bool.eq_false_iff.2 hp
        split at h
        · rw [ends_bind] at h
          obtain ⟨_, st₃, hc, h⟩ := h
          obtain ⟨rfl, rfl⟩ := ends_remember h
          obtain ⟨hq, htags⟩ := ends_checkTags hc
          exact .inr (.inr ⟨n, st₂, st₃, hn, hp, hu, htags rfl, hq, rfl⟩)
        · next hno =>
          obtain ⟨rfl, rfl⟩ := ends_remember h
          have hno : n.tags = [] := by simpa using hno
          exact .inr (.inr ⟨n, st₂, st₂, hn, hp, hu, by simp [TagsReadable, hno], .refl _, rfl⟩)

theorem whole_of_chain {f : Option String × NodeId → M Term} {ps : List (Option String × NodeId)}
    (h : Chain f ps st ts st')
    (hf : ∀ p ∈ ps, ∀ st t st', Ends (f p) st t st' → Whole st' → Whole st) (hw : Whole st') :
    Whole st := by
  by_contra hn
  exact h.preserves (I := fun st => ¬ Whole st)
    (fun p hp st t st' h hst hw => hst (hf p hp _ _ _ h hw)) hn hw

theorem whole_of_ends_build {fuel : ℕ} {path : Std.ExtTreeSet NodeId} {id : NodeId}
    (h : Ends (build s fuel path stack field id) st t st') (hw : Whole st') : Whole st := by
  induction fuel generalizing path stack field id st t st' with
  | zero =>
    obtain ⟨-, rfl⟩ := ends_unknownTerm h .cycle
    exact hw
  | succ fuel ih =>
    have hnode {path stack stack' field n binder st t st'}
        (h : Ends (nodeTerm s (build s fuel path stack) n stack' field binder) st t st')
        (hw : Whole st') : Whole st := by
      obtain ⟨ts, st₁, hc, hq, -⟩ := ends_nodeTerm h fun _ => trivial
      exact whole_of_chain hc (fun p _ st t st' h hw => ih h hw) (hq.whole hw)
    obtain ⟨st₁, hq, ⟨-, rfl⟩ | ⟨hgone, -⟩ | ⟨n, st₂, st₃, -, -, ht, -, hq', rfl⟩⟩ := ends_build h
    · exact hq.whole hw
    · exact hq.whole (hgone.reports.whole hw)
    · have hw₂ : Whole st₂ := by
        refine hq'.whole ?_
        split at hw <;> exact hw
      refine hq.whole ?_
      rcases ends_targetTerm ht with ⟨-, u, hu, -⟩ | ⟨-, st₄, hu⟩ | ⟨-, hu⟩
      · exact hnode hu hw₂
      · have hd := (hnode hu hw₂).1
        exact absurd (congrArg (·.contains id) hd) (by simp)
      · exact hnode hu hw₂

theorem whole_of_ends_nodeTerm {fuel : ℕ} {path : Std.ExtTreeSet NodeId} {stack' : List NodeId}
    (h : Ends (nodeTerm s (build s fuel path stack) n stack' field binder) st t st')
    (hw : Whole st') : Whole st := by
  obtain ⟨ts, st₁, hc, hq, -⟩ := ends_nodeTerm h fun _ => trivial
  exact whole_of_chain hc (fun p _ st t st' h hw => whole_of_ends_build h hw) (hq.whole hw)

/-- On the way down a graph no node is missing, and none contains itself. -/
def Sturdy (s : Setting) : Prop :=
  ∀ trail stack id, Visited s trail stack id → (s.graph.node? id).isSome ∧ id ∉ trail

theorem Visited.length_le {trail : List NodeId} {id : NodeId} (hs : Sturdy s)
    (h : Visited s trail stack id) : trail.length ≤ s.graph.nodes.size := by
  have hnodup : trail.Nodup ∧ ∀ x ∈ trail, (s.graph.node? x).isSome := by
    induction h with
    | root => simp
    | plain h _ _ ih =>
      obtain ⟨hk, hx⟩ := hs _ _ _ h
      exact ⟨List.nodup_cons.2 ⟨hx, ih.1⟩, List.forall_mem_cons.2 ⟨hk, ih.2⟩⟩
    | target h _ _ _ ih =>
      obtain ⟨hk, hx⟩ := hs _ _ _ h
      exact ⟨List.nodup_cons.2 ⟨hx, ih.1⟩, List.forall_mem_cons.2 ⟨hk, ih.2⟩⟩
  rw [← Std.ExtTreeMap.length_keys]
  refine (List.subperm_of_subset hnodup.1 fun x hx => ?_).length_le
  have hk := hnodup.2 x hx
  rw [Graph.node?] at hk
  rw [Std.ExtTreeMap.mem_keys, ← Std.ExtTreeMap.isSome_getElem?_iff_mem]
  exact hk

theorem derives_of_chain {f : Option String × NodeId → M Term} {D : NodeId → Term → Prop}
    {ps : List (Option String × NodeId)} (h : Chain f ps st ts st')
    (hf : ∀ p ∈ ps, ∀ st t st', Ends (f p) st t st' → Sound s loose st → loose ∨ Whole st' →
      D p.2 t ∧ Sound s loose st')
    (hw : ∀ p ∈ ps, ∀ st t st', Ends (f p) st t st' → Whole st' → Whole st)
    (hst : Sound s loose st) (hl : loose ∨ Whole st') :
    Sound s loose st' ∧ ts.length = (ps.map Prod.snd).length ∧
      ∀ i (hi : i < ts.length) (hj : i < (ps.map Prod.snd).length),
        D ((ps.map Prod.snd)[i]) ts[i] := by
  induction h with
  | nil => exact ⟨hst, rfl, fun i hi => absurd hi (Nat.not_lt_zero i)⟩
  | @cons p ps t ts st st₁ st' hp hps ih =>
    have hback : loose ∨ Whole st₁ := hl.imp_right fun hwhole =>
      whole_of_chain hps (fun q hq => hw q (List.mem_cons_of_mem _ hq)) hwhole
    obtain ⟨hd, hst₁⟩ := hf p List.mem_cons_self _ _ _ hp hst hback
    obtain ⟨hst', hlen, hall⟩ := ih (fun q hq => hf q (List.mem_cons_of_mem _ hq))
      (fun q hq => hw q (List.mem_cons_of_mem _ hq)) hst₁ hl
    refine ⟨hst', by simpa using hlen, fun i hi hj => ?_⟩
    cases i with
    | zero => exact hd
    | succ i => exact hall i (by simpa using hi) (by simpa using hj)

theorem mem_trail_of_contains_insert {path : Std.ExtTreeSet NodeId} {trail : List NodeId}
    {id : NodeId} (h : ∀ x, path.contains x → x ∈ trail) (x : NodeId)
    (hx : (path.insert id).contains x) : x ∈ id :: trail := by
  rw [Std.ExtTreeSet.contains_insert, Bool.or_eq_true] at hx
  rcases hx with hx | hx
  · obtain rfl : id = x := by simpa using hx
    exact List.mem_cons_self
  · exact List.mem_cons_of_mem _ (h x hx)

/-- Every run of a fold follows the rules. -/
theorem build_derives {fuel : ℕ} {path : Std.ExtTreeSet NodeId} {trail : List NodeId} {id : NodeId}
    (h : Ends (build s fuel path stack field id) st t st') (hst : Sound s loose st)
    (hv : Visited s trail stack id) (hpath : ∀ x, path.contains x → x ∈ trail)
    (hfuel : fuel + trail.length = s.graph.nodes.size + 1) (hl : loose ∨ Whole st' ∧ Sturdy s) :
    Derives s loose stack id t ∧ Sound s loose st' := by
  induction fuel generalizing path trail stack field id st t st' with
  | zero =>
    obtain ⟨hu, rfl⟩ := ends_unknownTerm h .cycle
    refine ⟨.abandoned (hl.resolve_right fun hw => ?_) hu, hst⟩
    have := hv.length_le hw.2
    omega
  | succ fuel ih =>
    have hsound {st st' : State} (hq : Reports st st') (h : Sound s loose st) : Sound s loose st' :=
      fun id t ht => h id t (hq.closed ▸ ht)
    have hpath' := @mem_trail_of_contains_insert path trail id hpath
    obtain ⟨st₁, hq, ⟨ht, rfl⟩ | ⟨hgone, hu⟩ | ⟨n, st₂, st₃, hn, hp, ht, htags, hq', rfl⟩⟩ :=
      ends_build h
    · obtain ⟨trail', stack', hv', hd, hc⟩ := hsound hq.toReports hst id t ht
      exact ⟨.recalled hv' hd hc, hsound hq.toReports hst⟩
    · refine ⟨.abandoned (hl.resolve_right fun hw => ?_) hu,
        hsound hgone.reports (hsound hq.toReports hst)⟩
      obtain ⟨hsome, hout⟩ := hw.2 _ _ _ hv
      rcases hgone with ⟨hn, -⟩ | ⟨hp, -⟩
      · simp [hn] at hsome
      · exact hout (hpath id hp)
    · have hwhole₂ : loose ∨ Whole st₂ := hl.imp_right fun hw => hq'.whole (by
        have := hw.1
        split at this <;> exact this)
      have hnode {stack' : List NodeId} {binder : Bool} {st t}
          (h : Ends (nodeTerm s (build s fuel (path.insert id) stack') n stack' field binder)
            st t st₂) (hst : Sound s loose st)
          (hvis : ∀ x ∈ sourceIds s n, Visited s (id :: trail) stack' x) :
          Sound s loose st₂ ∧ ∃ ts, ts.length = (sourceIds s n).length ∧
            (∀ i (hi : i < ts.length) (hj : i < (sourceIds s n).length),
              Derives s loose stack' ((sourceIds s n)[i]) ts[i]) ∧
            Assembled s loose n stack' binder ts t := by
        obtain ⟨ts, st₄, hc, hq₄, ht⟩ := ends_nodeTerm h (loose_of_mixed hwhole₂)
        obtain ⟨hst₄, hlen, hall⟩ := derives_of_chain (D := Derives s loose stack') hc
          (fun p hp st t st' h hst hl' =>
            ih h hst (hvis p.2 (map_snd_sources field ▸ List.mem_map_of_mem hp)) hpath'
              (by simp only [List.length_cons]; omega)
              (hl.elim .inl fun hw => hl'.imp_right fun hw' => ⟨hw', hw.2⟩))
          (fun p _ st t st' h hw => whole_of_ends_build h hw) hst
          (hwhole₂.imp_right hq₄.whole)
        simp only [map_snd_sources] at hlen hall
        exact ⟨hsound hq₄.toReports hst₄, ts, hlen, hall, ht⟩
      have hsound₂ : Sound s loose st₂ ∧ Derives s loose stack id t := by
        rcases ends_targetTerm ht with ⟨hb, u, hu, hlive, ht⟩ | ⟨hb, st₄, hu⟩ | ⟨hb, hu⟩
        · obtain ⟨hst₂, ts, hlen, hts, hu⟩ := hnode hu (hsound hq.toReports hst) fun x hx => .target hv hn hb hx
          exact ⟨hst₂, .target hn hb hlen (fun i hi => hts i hi _) hu hlive ht htags⟩
        · have hbury : loose := hwhole₂.resolve_right fun hw => by
            have := whole_of_ends_nodeTerm hu hw
            exact absurd (congrArg (·.contains id) this.1) (by simp)
          obtain ⟨hst₂, ts, hlen, hts, hu⟩ := hnode hu (fun y u hy => hsound hq.toReports hst y u hy)
            fun x hx => .plain hv hn hx
          exact ⟨hst₂, .plain hn (fun _ => hbury) hlen (fun i hi => hts i hi _) hu htags⟩
        · have hbury (hc : s.binders.contains id) : loose := hwhole₂.resolve_right fun hw => by
            have := whole_of_ends_nodeTerm hu hw
            exact absurd (hb hc) (by simp [this.1])
          obtain ⟨hst₂, ts, hlen, hts, hu⟩ := hnode hu (hsound hq.toReports hst) fun x hx => .plain hv hn hx
          exact ⟨hst₂, .plain hn hbury hlen (fun i hi => hts i hi _) hu htags⟩
      refine ⟨hsound₂.2, ?_⟩
      split
      · next hc =>
        intro y u hy
        rw [Std.ExtTreeMap.getElem?_insert] at hy
        split at hy
        · next hyx =>
          obtain rfl : id = y := by simpa using hyx
          obtain rfl := Option.some.inj hy
          exact ⟨trail, stack, hv, hsound₂.2, hc⟩
        · exact hsound hq'.toReports hsound₂.1 y u hy
      · exact hsound hq'.toReports hsound₂.1

end TypeAtlas.Folding
