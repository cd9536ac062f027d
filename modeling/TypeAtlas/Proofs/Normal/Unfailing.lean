import TypeAtlas.Proofs.Graph.WellFormed
import TypeAtlas.Proofs.Normal.Formed

/-! # Steps that do not fail

Over a graph whose values can be written, reports never fail, and neither do merging fields that are
sorted and checking tags that can be read. None of these steps touches what is remembered.
-/

namespace TypeAtlas.Folding

variable {s : Setting} {st st' st'' : State} {n : Node} {t : Term} {ts : List Term}
  {id : NodeId} {field : Option String} {fs gs : List FieldTerm} {f : FieldTerm}

/-- Nothing but the diagnostics may have changed. -/
structure Calm (st st' : State) : Prop where
  closed : st'.closed = st.closed
  dead : st'.dead = st.dead
  deadline : st'.deadline = st.deadline

theorem Calm.refl (st : State) : Calm st st := ⟨rfl, rfl, rfl⟩

theorem Calm.trans (h : Calm st st') (h' : Calm st' st'') : Calm st st'' :=
  ⟨h'.closed.trans h.closed, h'.dead.trans h.dead, h'.deadline.trans h.deadline⟩

/-- A step that ends in a value, and has changed nothing but the diagnostics. -/
def CalmlyEnds {α : Type} (m : M α) (st : State) (x : α) : Prop :=
  ∃ st', Ends m st x st' ∧ Calm st st'

section Steps

variable {α β : Type} {m : M α} {k : α → M β} {x : α} {y : β}

theorem calmlyEnds_pure : CalmlyEnds (pure x) st x := ⟨st, ends_pure.2 ⟨rfl, rfl⟩, .refl _⟩

theorem CalmlyEnds.bind (hm : CalmlyEnds m st x) (hk : ∀ st', CalmlyEnds (k x) st' y) :
    CalmlyEnds (m >>= k) st y := by
  obtain ⟨st₁, hm, hcalm⟩ := hm
  obtain ⟨st₂, hk, hcalm'⟩ := hk st₁
  exact ⟨st₂, ends_bind.2 ⟨x, st₁, hm, hk⟩, hcalm.trans hcalm'⟩

theorem calmlyEnds_forIn {xs : List α} {f : α → PUnit → M (ForInStep PUnit)}
    (hf : ∀ x ∈ xs, ∀ st, CalmlyEnds (f x ⟨⟩) st (.yield ⟨⟩)) (st : State) :
    CalmlyEnds (forIn xs ⟨⟩ f) st ⟨⟩ := by
  induction xs generalizing st with
  | nil => exact calmlyEnds_pure
  | cons x xs ih =>
    rw [List.forIn_cons]
    exact (hf x List.mem_cons_self st).bind fun st' =>
      ih (fun y hy => hf y (List.mem_cons_of_mem _ hy)) st'

end Steps

/-- The values in the nodes of a graph can be written. -/
def Writable (s : Setting) : Prop :=
  ∀ (id : NodeId) (n : Node), s.graph.nodes[id]? = some n → n.Writable

theorem calmlyEnds_render (h : Writable s) (id : NodeId) :
    ∃ text, ∀ st, CalmlyEnds (render s id) st text := by
  obtain ⟨text, ht⟩ := s.graph.exists_render h id
  exact ⟨text, fun st => ⟨st, ends_written.2 ⟨ht, rfl⟩, .refl _⟩⟩

theorem calmlyEnds_report (key : DiagnosticKey) (args : List Datum) (id : NodeId)
    (field : Option String) (st : State) : CalmlyEnds (report s key args id field) st ⟨⟩ :=
  ⟨_, ends_modify.2 rfl, rfl, rfl, rfl⟩

/-! ## Tags -/

theorem calmlyEnds_reportIncompatible (h : Writable s) (tag : Tag) (t : Term) (id : NodeId)
    (field : Option String) (st : State) :
    CalmlyEnds (reportIncompatible s tag t id field) st ⟨⟩ := by
  obtain ⟨text, ht⟩ := calmlyEnds_render h t.head.rawId
  exact (ht st).bind fun st' => calmlyEnds_report _ _ _ _ st'

theorem Readable.names {tag : Tag} (h : Readable tag) :
    ∃ names, (∀ st, Ends (indexFields tag) st names st) ∧
      ∀ name ∈ names, ∀ fs st, ∃ b, Ends (namesField fs name) st b st := by
  obtain ⟨names, st₁, st₂, hn, hall⟩ := h
  refine ⟨names, fun st => ?_, fun name hname fs st => ?_⟩
  · unfold indexFields at hn ⊢
    split at hn
    all_goals first
      | exact ends_pure.2 ⟨(ends_pure.1 hn).1, rfl⟩
      | exact absurd hn not_ends_throw
  · obtain ⟨st₃, b, st₄, hb⟩ := hall name hname fs
    unfold namesField at hb ⊢
    split at hb
    · exact ⟨_, ends_pure.2 ⟨rfl, rfl⟩⟩
    · exact absurd hb not_ends_throw
    · exact absurd hb not_ends_throw
    · exact ⟨_, ends_pure.2 ⟨rfl, rfl⟩⟩

theorem calmlyEnds_checkIndex (h : Writable s) {tag : Tag}
    (hread : t.dereference.fields?.isSome → Readable tag) (id : NodeId) (st : State) :
    CalmlyEnds (checkIndex s tag t id) st ⟨⟩ := by
  unfold checkIndex
  cases hf : t.dereference.fields? with
  | none =>
    dsimp only
    split
    · exact calmlyEnds_reportIncompatible h tag t id none st
    · exact calmlyEnds_pure
  | some fs =>
    obtain ⟨names, hnames, hall⟩ := (hread (by simp [hf])).names
    refine CalmlyEnds.bind ⟨st, hnames st, .refl _⟩ fun st => ?_
    refine (calmlyEnds_forIn (fun name hname st => ?_) st).bind fun st => calmlyEnds_pure
    obtain ⟨b, hb⟩ := hall name hname fs st
    refine CalmlyEnds.bind ⟨st, hb, .refl _⟩ fun st => ?_
    split
    · exact (calmlyEnds_report _ _ _ _ st).bind fun st => calmlyEnds_pure
    · exact calmlyEnds_pure

/-- Tags that can be read can be checked. -/
theorem calmlyEnds_checkTags (h : Writable s) {tags : List Tag} {entity : Bool}
    (hread : entity → TagsReadable tags t) (id : NodeId) (field : Option String) (st : State) :
    CalmlyEnds (checkTags s tags t id field entity) st ⟨⟩ := by
  refine (calmlyEnds_forIn (fun tag htag st => ?_) st).bind fun st => calmlyEnds_pure
  split
  · next hparsed =>
    split
    · next hname =>
      split
      · next hentity =>
        exact (calmlyEnds_checkIndex h (hread hentity tag htag hparsed hname) id st).bind fun st =>
          calmlyEnds_pure
      · exact calmlyEnds_pure
    · split
      · split
        · exact (calmlyEnds_reportIncompatible h tag t id field st).bind fun st => calmlyEnds_pure
        · exact calmlyEnds_pure
      · exact calmlyEnds_pure
  · exact calmlyEnds_pure

/-! ## Fields -/

theorem calmlyEnds_checkFields (h : Writable s) (owner : NodeId) (fs : List FieldTerm) (st : State) :
    CalmlyEnds (forIn fs PUnit.unit fun f _ => do
      checkTags s f.1.tags f.2 owner (some f.1.name) false
      pure (.yield PUnit.unit)) st PUnit.unit := by
  refine calmlyEnds_forIn (fun f _ st => ?_) st
  have hread : false → TagsReadable f.1.tags f.2 := fun hc => by cases hc
  exact (calmlyEnds_checkTags h hread owner (some f.1.name) st).bind fun st => calmlyEnds_pure

theorem ends_foldlM_mergeField {owner : NodeId} {merged : Std.ExtTreeMap String FieldTerm}
    (hfs : Rising (fun f : FieldTerm => f.1.name) fs) (hnew : ∀ f ∈ fs, f.1.name ∉ merged) :
    Ends (fs.foldlM (mergeField s owner) merged) st (fs.foldl absorb merged) st := by
  induction fs generalizing merged with
  | nil => exact ends_pure.2 ⟨rfl, rfl⟩
  | cons f fs ih =>
    obtain ⟨hnf, hfs'⟩ := List.pairwise_cons.1 hfs
    have hnone : merged[f.1.name]? = none :=
      Std.ExtTreeMap.getElem?_eq_none (hnew f List.mem_cons_self)
    have habsorb : absorb merged f = merged.insert f.1.name f := by simp [absorb, hnone]
    rw [List.foldlM_cons, List.foldl_cons, ends_bind]
    refine ⟨absorb merged f, st, ?_, ih hfs' fun g hg => ?_⟩
    · simp only [mergeField, hnone]
      exact ends_pure.2 ⟨habsorb.symm, rfl⟩
    · rw [habsorb, Std.ExtTreeMap.mem_insert, not_or]
      refine ⟨fun hc => ?_, hnew g (List.mem_cons_of_mem _ hg)⟩
      have he : f.1.name = g.1.name := by simpa using hc
      have hlt : f.1.name < g.1.name := hnf g hg
      exact String.lt_irrefl _ (he ▸ hlt)

theorem ends_mergeFields_of_rising (owner : NodeId) (h : Rising (fun f : FieldTerm => f.1.name) fs) :
    Ends (mergeFields s owner fs) st fs st := by
  refine ends_bind.2 ⟨_, st, ends_foldlM_mergeField h (by simp), ends_pure.2 ⟨?_, rfl⟩⟩
  exact mergedFields_of_rising h

/-! ## Members -/

theorem flatten_of_seen {members? : Shape → Option (List NodeId)} {ids : List NodeId}
    {seen : Std.ExtTreeSet NodeId}
    (h : ∀ id ∈ ids, ∀ inner, spliceable? s members? id = some inner → id ∈ seen) (fuel : ℕ) :
    flatten s members? fuel ids seen = (ids, seen) := by
  cases fuel with
  | zero => rfl
  | succ fuel =>
    rw [flatten]
    induction ids using List.reverseRecOn with
    | nil => rfl
    | append_singleton ids id ih =>
      rw [List.foldl_append, ih fun x hx => h x (List.mem_append_left _ hx), List.foldl_cons,
        List.foldl_nil]
      cases hinner : spliceable? s members? id with
      | none => rfl
      | some inner => exact if_pos (h id (by simp) inner hinner)

/-- Members of one family all stay. -/
theorem sorting_of_kin (ms : List Member) (h : Kin (ms.map Prod.snd)) :
    (ms.foldl Sorting.add {}).offending = none ∧
      (ms.foldl Sorting.add {}).kept = ms.map Prod.snd := by
  have hall : let acc := ms.foldl Sorting.add {}
      acc.offending = none ∧ acc.kept = ms.map Prod.snd ∧
        ∀ f, acc.expected = some f → f ≠ .neutral ∧ ∃ m ∈ ms, m.2.family = f := by
    induction ms using List.reverseRecOn with
    | nil => simp
    | append_singleton ms m ih =>
      have hkin : Kin (ms.map Prod.snd) := fun c hc c' hc' =>
        h c (by simp_all) c' (by simp_all)
      obtain ⟨ho, hk, he⟩ := ih hkin
      simp only [List.foldl_append, List.foldl_cons, List.foldl_nil] at ho hk he ⊢
      generalize ms.foldl Sorting.add {} = acc at ho hk he ⊢
      simp only [Sorting.add]
      split
      · refine ⟨ho, by rw [hk, List.map_append, List.map_singleton], fun f hf => ?_⟩
        obtain ⟨hne, m', hm', hfam⟩ := he f hf
        exact ⟨hne, m', List.mem_append_left _ hm', hfam⟩
      · next hne =>
        have hsame : m.2.family = acc.expected.getD m.2.family := by
          cases hexp : acc.expected with
          | none => rfl
          | some f =>
            obtain ⟨hnf, m', hm', hfam⟩ := he f hexp
            exact (h m.2 (by simp) m'.2 (by simp only [List.map_append, List.mem_append]
                                            exact .inl (List.mem_map_of_mem hm')) hne
              (hfam ▸ hnf)).trans hfam
        rw [if_pos hsame, ← hsame]
        refine ⟨ho, by rw [hk, List.map_append, List.map_singleton], fun f hf => ?_⟩
        obtain rfl := Option.some.inj hf
        exact ⟨hne, m, by simp, rfl⟩
  exact ⟨hall.1, hall.2.1⟩

/-- A union of members of one family is made of all of them. -/
theorem unionTerm_of_kin {ms : List Member} (h : Kin (ms.map Prod.snd)) (n : Node) (binder : Bool)
    (field : Option String) :
    unionTerm s n ms binder field =
      composite s "union" (.union (discriminant? (sortedUnique (ms.map Prod.snd)))) n
        (sortedUnique (ms.map Prod.snd)) binder field := by
  obtain ⟨hoffending, hkept⟩ := sorting_of_kin ms h
  simp only [unionTerm, hoffending, hkept, pure_bind]

end TypeAtlas.Folding
