import TypeAtlas.Proofs.Files.Runs
import TypeAtlas.Proofs.Resolution.Described
import TypeAtlas.Proofs.Resolution.Scoped

/-! # Recorded dependencies

A walk records the names that the description of its first declaration mentions: no other ones, and all
of these unless its budget is used up.
-/

namespace TypeAtlas

/-- A description mentions a name, itself or in what it is built from. -/
inductive Descriptions.Mentions (types : Descriptions) : DescriptionId → String → Option String → Prop
  | itself {i : DescriptionId} {d : Description} {name : String} {file : Option String}
      (hd : types.get i = .ok d) (hs : d.shape = .reference name file) : Mentions types i name file
  | inside {i c : DescriptionId} {d : Description} {name : String} {file : Option String}
      (hd : types.get i = .ok d) (hc : c ∈ d.shape.children) (h : Mentions types c name file) :
      Mentions types i name file

def DescriptionShape.names : DescriptionShape → List String
  | .reference name _ => [name]
  | _ => []

theorem DescriptionShape.mem_names {shape : DescriptionShape} {name : String} :
    name ∈ shape.names ↔ ∃ file, shape = .reference name file := by
  cases shape <;> simp [names, eq_comm]

namespace Resolution

variable {α β : Type} {s : Setting} {st st' st'' : State} {site : Site} {own own' : List String}
  {ids ids' : List DescriptionId} {follow : Follow} {m : M α} {f : α → M β}

/-! ## Steps that record nothing -/

/-- What a step leaves alone that neither records a name nor gives up. -/
def State.aside (st : State) :
    Std.ExtTreeSet String × ℕ × List (Nat × DescriptionId) × Option NodeId :=
  (st.dependencies, st.chain.length, st.active, st.limit)

theorem keeps_attempt (x : Attempt α) : Keeps State.aside (liftM x : M α) := by
  cases x with
  | error e => exact keeps_throw e
  | ok x => exact keeps_pure x

theorem keeps_newId : Keeps State.aside newId := by
  apply Keeps.bind
  · exact keeps_modify fun _ => rfl
  · exact fun _ => keeps_get.bind fun _ => keeps_pure _

theorem keeps_idOr (id : Option NodeId) : Keeps State.aside (idOr id) := by
  cases id with
  | none => exact keeps_newId
  | some id => exact keeps_pure id

theorem keeps_add (n : Node) : Keeps State.aside (add n) := by
  apply Keeps.bind
  · exact keeps_modify fun _ => rfl
  · exact fun _ => keeps_pure _

theorem keeps_current : Keeps State.aside current? := keeps_get.bind fun _ => keeps_pure _

theorem keeps_place (position : Option Position) : Keeps State.aside (place s position) :=
  keeps_current.bind fun _ => keeps_pure _

theorem keeps_location (position : Option Position) : Keeps State.aside (location position) := by
  unfold location
  refine keeps_current.bind fun key => ?_
  split <;> exact keeps_pure _

theorem keeps_report (key : DiagnosticKey) (args : List String) (position : Option Position)
    (field : Option String) : Keeps State.aside (report s key args position field) :=
  keeps_current.bind fun _ => (keeps_place position).bind fun _ => keeps_modify fun _ => rfl

theorem keeps_unknown (reason : String) (cause : UnknownCause) (id : Option NodeId)
    (position : Option Position) : Keeps State.aside (unknown reason cause id position) :=
  (keeps_idOr id).bind fun _ => (keeps_location position).bind fun _ => keeps_add _

theorem keeps_unsupported (construct : String) (detail : Option String) (position : Option Position)
    (field : Option String) (id : Option NodeId) :
    Keeps State.aside (unsupported s construct detail position field id) :=
  (keeps_report _ _ _ _).bind fun _ => keeps_unknown _ _ _ _

theorem keeps_tags (comment field : Option String) (position : Option Position) :
    Keeps State.aside (tags s comment field position) := by
  unfold tags
  split
  · exact keeps_pure _
  · exact keeps_pure _
  · refine keeps_current.bind fun key => (keeps_place position).bind fun place => ?_
    refine (keeps_attempt _).bind fun o => ?_
    apply Keeps.bind
    · exact keeps_modify fun _ => rfl
    · exact fun _ => keeps_pure _

theorem keeps_checkDeadline : Keeps State.aside checkDeadline := by
  unfold checkDeadline
  refine keeps_get.bind fun st => ?_
  split
  · exact keeps_pure _
  · dsimp only
    apply Keeps.bind
    · exact keeps_modify fun _ => rfl
    · intro _
      split
      · exact keeps_throw _
      · exact keeps_pure _

theorem keeps_frameNamed (name : String) (file : Option String) :
    Keeps State.aside (frameNamed? name file) := keeps_get.bind fun _ => keeps_pure _

theorem keeps_recursiveRef (frame : Frame) (id : NodeId) (position : Option Position) (ts : List Tag) :
    Keeps State.aside (recursiveRef frame id position ts) := by
  unfold recursiveRef
  apply Keeps.bind
  · refine keeps_modify fun st => ?_
    have hlength := (later_markOuter frame.body st.chain).length_eq
    simp only [State.aside, hlength]
  · exact fun _ => (keeps_location position).bind fun _ => keeps_add _

theorem keeps_backEdge (d : Description) (id : Option NodeId) (field : Option String) :
    Keeps State.aside (backEdge s d id field) := by
  have hlabelled : Keeps State.aside (frameLabelled? d.label) := by
    cases d.label with
    | none => exact keeps_pure _
    | some name => exact keeps_frameNamed _ _
  unfold backEdge
  refine hlabelled.bind fun frame => ?_
  split
  · exact (keeps_idOr id).bind fun _ => keeps_recursiveRef _ _ _ _
  · exact keeps_current.bind fun _ => (keeps_report _ _ _ _).bind fun _ => keeps_unknown _ _ _ _

theorem keeps_lookup (key : DeclarationKey) : Keeps State.aside (lookup s key) := by
  unfold lookup
  apply Keeps.bind
  · exact keeps_modify fun _ => rfl
  · intro _
    split
    · exact keeps_pure _
    · exact keeps_throw _

theorem keeps_sharedBody (key : DeclarationKey) : Keeps State.aside (sharedBody? s key) := by
  unfold sharedBody?
  refine keeps_get.bind fun st => ?_
  split
  · exact keeps_pure _
  · next b _ =>
    split
    · exact keeps_pure _
    · apply Keeps.bind
      · refine keeps_modify fun st => ?_
        have hlength := (later_noteNames b.names st.chain).length_eq
        simp only [State.aside, hlength]
      · exact fun _ => keeps_pure _

/-! ## Steps that follow descriptions -/

/-- A step in a declaration, which records none but the given names, and these only if the declaration is
the outermost one. -/
structure Records (names : Set String) (st st' : State) : Prop where
  depth : st'.chain.length = st.chain.length
  active : st'.active = st.active
  limit : st'.limit = none → st.limit = none
  kept : ∀ name ∈ st.dependencies, name ∈ st'.dependencies
  recorded : ∀ name ∈ st'.dependencies, name ∈ st.dependencies ∨ st.chain.length = 1 ∧ name ∈ names

namespace Records

variable {names names' : Set String}

theorem of_aside (h : st'.aside = st.aside) : Records names st st' := by
  obtain ⟨hdependencies, hdepth, hactive, hlimit⟩ : st'.dependencies = st.dependencies ∧
      st'.chain.length = st.chain.length ∧ st'.active = st.active ∧ st'.limit = st.limit := by
    simpa [State.aside] using h
  exact ⟨hdepth, hactive, fun hnone => hlimit ▸ hnone, fun _ hname => hdependencies ▸ hname,
    fun _ hname => .inl (hdependencies ▸ hname)⟩

theorem mono (h : Records names st st') (hnames : names ⊆ names') : Records names' st st' :=
  ⟨h.depth, h.active, h.limit, h.kept, fun name hname =>
    (h.recorded name hname).imp_right fun ⟨hdepth, hname⟩ => ⟨hdepth, hnames hname⟩⟩

theorem trans (h : Records names st st') (h' : Records names st' st'') : Records names st st'' where
  depth := h'.depth.trans h.depth
  active := h'.active.trans h.active
  limit hnone := h.limit (h'.limit hnone)
  kept name hname := h'.kept name (h.kept name hname)
  recorded name hname := by
    rcases h'.recorded name hname with hname | ⟨hdepth, hname⟩
    · exact h.recorded name hname
    · exact .inr ⟨h.depth ▸ hdepth, hname⟩

end Records

/-- Descriptions that were followed: the names that they are were recorded, and what they are built from
was followed as well, or is being followed. -/
def Covered (types : Descriptions) (active : Set DescriptionId) (names : Std.ExtTreeSet String)
    (followed : Set DescriptionId) : Prop :=
  ∀ i ∈ followed, ∀ d, types.get i = .ok d →
    (∀ name ∈ d.shape.names, name ∈ names) ∧ ∀ c ∈ d.shape.children, c ∈ followed ∨ c ∈ active

/-- Whatever followed descriptions mention was recorded, once nothing is being followed any more. -/
theorem Covered.recorded {types : Descriptions} {names : Std.ExtTreeSet String}
    {followed : Set DescriptionId} {i : DescriptionId} {name : String} {file : Option String}
    (h : Covered types ∅ names followed) (hi : i ∈ followed) (hm : types.Mentions i name file) :
    name ∈ names := by
  induction hm with
  | itself hd hs => exact (h _ hi _ hd).1 _ (by simp [DescriptionShape.names, hs])
  | inside hd hc _ ih => exact ih (((h _ hi _ hd).2 _ hc).resolve_right (Set.notMem_empty _))

/-- The descriptions of an arena that are being followed. -/
def State.following (st : State) (site : Site) : Set DescriptionId := {i | (site.scope, i) ∈ st.active}

/-- The given names, and those that the given descriptions mention. -/
def mentioned (site : Site) (own : List String) (ids : List DescriptionId) : Set String :=
  {name | name ∈ own ∨ ∃ i ∈ ids, ∃ file, site.types.Mentions i name file}

/-- Unless the budget is used up, the given names are recorded and the given descriptions followed. -/
structure Visits (site : Site) (own : List String) (ids : List DescriptionId) (st st' : State) :
    Prop where
  records : Records (mentioned site own ids) st st'
  own : st.chain.length = 1 → st'.limit = none → ∀ name ∈ own, name ∈ st'.dependencies
  ids : st.chain.length = 1 → st'.limit = none → ∃ followed,
    Covered site.types (st.following site) st'.dependencies followed ∧
      ∀ i ∈ ids, i ∈ followed ∨ i ∈ st.following site

/-- Wherever a step is taken in a declaration, it visits the given names and descriptions. -/
def Visiting (site : Site) (own : List String) (ids : List DescriptionId) (m : M α) : Prop :=
  ∀ st x st', Done m st x st' → 0 < st.chain.length → Visits site own ids st st'

theorem Visits.of_records (h : Records ∅ st st') : Visits site [] [] st st' := by
  refine ⟨h.mono (Set.empty_subset _), by simp, fun _ _ => ⟨∅, ?_, by simp⟩⟩
  exact fun i hi => absurd hi (Set.notMem_empty i)

theorem visiting_of_keeps (h : Keeps State.aside m) : Visiting site [] [] m := by
  intro st x st' hx _
  exact .of_records (.of_aside (h _ _ _ hx))

theorem Visits.trans (h : Visits site own ids st st') (h' : Visits site own' ids' st' st'') :
    Visits site (own ++ own') (ids ++ ids') st st'' := by
  have hfollowing : st'.following site = st.following site := by
    rw [State.following, h.records.active, State.following]
  refine ⟨?_, fun hdepth hlimit => ?_, fun hdepth hlimit => ?_⟩
  · refine (h.records.mono ?_).trans (h'.records.mono ?_)
    · rintro name (hname | ⟨i, hi, hname⟩)
      · exact .inl (List.mem_append_left _ hname)
      · exact .inr ⟨i, List.mem_append_left _ hi, hname⟩
    · rintro name (hname | ⟨i, hi, hname⟩)
      · exact .inl (List.mem_append_right _ hname)
      · exact .inr ⟨i, List.mem_append_right _ hi, hname⟩
  · have hfirst := h.own hdepth (h'.records.limit hlimit)
    have hsecond := h'.own (h.records.depth.trans hdepth) hlimit
    exact List.forall_mem_append.2 ⟨fun name hname => h'.records.kept name (hfirst name hname), hsecond⟩
  · obtain ⟨followed, hcovered, hids⟩ := h.ids hdepth (h'.records.limit hlimit)
    obtain ⟨followed', hcovered', hids'⟩ := h'.ids (h.records.depth.trans hdepth) hlimit
    rw [hfollowing] at hcovered' hids'
    refine ⟨followed ∪ followed', ?_, ?_⟩
    · rintro i (hi | hi) d hd
      · obtain ⟨hnames, hchildren⟩ := hcovered i hi d hd
        exact ⟨fun name hname => h'.records.kept name (hnames name hname),
          fun c hc => (hchildren c hc).imp_left .inl⟩
      · obtain ⟨hnames, hchildren⟩ := hcovered' i hi d hd
        exact ⟨hnames, fun c hc => (hchildren c hc).imp_left .inr⟩
    · refine List.forall_mem_append.2 ⟨fun i hi => (hids i hi).imp_left .inl, fun i hi => ?_⟩
      exact (hids' i hi).imp_left .inr

theorem Visiting.bind (hm : Visiting site own ids m) (hf : ∀ x, Visiting site own' ids' (f x)) :
    Visiting site (own ++ own') (ids ++ ids') (m >>= f) := by
  intro st y st' hy hdepth
  obtain ⟨x, st₁, hx, hy⟩ := done_bind.1 hy
  have hfirst := hm _ _ _ hx hdepth
  exact hfirst.trans (hf x _ _ _ hy (hfirst.records.depth ▸ hdepth))

theorem Visiting.after {f : α → M β} (hf : ∀ x, Visiting site own ids (f x))
    (hm : Keeps State.aside m) : Visiting site own ids (m >>= f) :=
  (visiting_of_keeps hm).bind hf

theorem Visiting.before (hm : Visiting site own ids m) (hf : ∀ x, Keeps State.aside (f x)) :
    Visiting site own ids (m >>= f) := by
  have hafter (x : α) : Visiting site [] [] (f x) := visiting_of_keeps (hf x)
  have hboth := hm.bind hafter
  rwa [List.append_nil, List.append_nil] at hboth

theorem visiting_mapM {g : α → List DescriptionId} {f : α → M β} {xs : List α}
    (hf : ∀ x ∈ xs, Visiting site [] (g x) (f x)) : Visiting site [] (xs.flatMap g) (xs.mapM f) := by
  induction xs with
  | nil => exact visiting_of_keeps (keeps_pure _)
  | cons x xs ih =>
    obtain ⟨hx, hxs⟩ := List.forall_mem_cons.1 hf
    rw [List.mapM_cons, List.flatMap_cons]
    exact hx.bind fun y => (ih hxs).before fun ys => keeps_pure _

/-! ## Descriptions -/

def Following (follow : Follow) : Prop :=
  ∀ site i id ts field, Visiting site [] [i] (follow site i id ts field)

theorem visiting_fieldType (hfollow : Following follow) (fd : FieldDescription) :
    Visiting site [] fd.type.toList (fieldType s follow site fd) := by
  unfold fieldType
  split
  · next hnone =>
    rw [hnone]
    exact visiting_of_keeps (keeps_unsupported _ _ _ _ _)
  · next i hi =>
    rw [hi]
    exact hfollow site i none [] _

theorem visiting_attempt {x : Attempt α} (h : ∀ y, x = .ok y → Visiting site own ids (f y)) :
    Visiting site own ids (liftM x >>= f) := by
  intro st z st' hz
  obtain ⟨y, st₁, hlift, hz⟩ := done_bind.1 hz
  obtain ⟨hx, rfl⟩ := done_lift.1 hlift
  exact h y hx _ _ _ hz

theorem visiting_field (hfollow : Following follow) (fd : Attempt FieldDescription) :
    Visiting site [] (fd.toOption.bind FieldDescription.type).toList (field s follow site fd) := by
  refine visiting_attempt fun fd' hfd => ?_
  obtain rfl := hfd
  refine .after (fun ts => ?_) (keeps_tags _ _ _)
  refine (visiting_fieldType hfollow fd').before fun type => ?_
  exact (keeps_location _).bind fun _ => keeps_pure _

theorem exists_visits_of_declaration {d : Declaration} {body : NodeId} (hfollow : Following follow)
    (h : Done (declaration s follow d) st body st') : ∃ (site : Site) (st₁ st₂ : State),
      site.types = d.types ∧ st₁.aside = (st.dependencies, st.chain.length + 1, st.active, st.limit) ∧
        Visits site [] [d.type] st₁ st₂ ∧
          st'.aside = (st₂.dependencies, st.chain.length, st₂.active, st₂.limit) := by
  simp only [declaration, enter, leave, done_bind, done_get, done_pure, done_modify] at h
  obtain ⟨_, st₁, ⟨y, st₀, hy, _, _, rfl, rfl, rfl⟩, _, _, ⟨rfl, rfl⟩, ts, st₂, hts, _, st₃, hz, _, st₄, rfl,
    -, rfl⟩ := h
  have hnew := keeps_newId _ _ _ hy
  have htags := keeps_tags _ _ _ _ _ _ hts
  simp only [State.aside, Prod.mk.injEq, List.length_cons] at hnew htags
  have hdepth : st₂.chain.length = st.chain.length + 1 := by rw [htags.2.1, hnew.2.1]
  have hvisits := hfollow _ _ _ _ _ _ _ _ hz (by omega)
  refine ⟨_, _, _, rfl, ?_, hvisits, ?_⟩
  · simp only [State.aside, Prod.mk.injEq]
    exact ⟨htags.1.trans hnew.1, hdepth, htags.2.2.1.trans hnew.2.2.1, htags.2.2.2.trans hnew.2.2.2⟩
  · have hlength := hvisits.records.depth.trans hdepth
    obtain ⟨f, rest, hchain⟩ : ∃ f rest, st₃.chain = f :: rest :=
      List.exists_cons_of_length_pos (by omega)
    have hrest : (noteNames f.names rest).length = rest.length := (later_noteNames f.names rest).length_eq.symm
    rw [hchain, List.length_cons] at hlength
    simp only [hchain, State.aside, Prod.mk.injEq, true_and, and_true]
    omega

/-- Nothing is recorded of a declaration that another one refers to. -/
theorem visiting_declaration (hfollow : Following follow) (d : Declaration) :
    Visiting site [] [] (declaration s follow d) := by
  intro st body st' h hdepth
  obtain ⟨inner, st₁, st₂, -, hbefore, hvisits, hafter⟩ := exists_visits_of_declaration hfollow h
  simp only [State.aside, Prod.mk.injEq] at hbefore hafter
  obtain ⟨hdependencies, hlength, hactive, hlimit⟩ := hbefore
  have hrecords := hvisits.records
  refine .of_records ⟨hafter.2.1, ?_, fun hnone => ?_, fun name hname => ?_, fun name hname => ?_⟩
  · rw [hafter.2.2.1, hrecords.active, hactive]
  · rw [hafter.2.2.2] at hnone
    exact hlimit ▸ hrecords.limit hnone
  · rw [hafter.1]
    exact hrecords.kept name (hdependencies ▸ hname)
  · rw [hafter.1] at hname
    rcases hrecords.recorded name hname with hname | ⟨hone, -⟩
    · exact .inl (hdependencies ▸ hname)
    · omega

theorem visiting_bodyOf (hfollow : Following follow) (name by_ : String) (d : Declaration) :
    Visiting site [] [] (bodyOf s follow name by_ d) := by
  unfold bodyOf
  refine .after (fun shared => ?_) (keeps_sharedBody _)
  split
  · exact visiting_of_keeps (keeps_pure _)
  · refine .after (fun _ => visiting_declaration hfollow d) ?_
    exact keeps_modify fun _ => rfl

theorem visiting_record (name : String) : Visiting site [name] [] (modify fun st =>
    if st.chain.length = 1 then { st with dependencies := st.dependencies.insert name } else st) := by
  intro st x st' h _
  rw [done_modify] at h
  by_cases hdepth : st.chain.length = 1
  · rw [if_pos hdepth] at h
    subst h
    refine ⟨⟨rfl, rfl, fun hnone => hnone, fun other hother => ?_, fun other hother => ?_⟩,
      fun _ _ other hother => ?_, fun _ _ => ⟨∅, ?_, by simp⟩⟩
    · exact Std.ExtTreeSet.mem_insert.2 (.inr hother)
    · rcases Std.ExtTreeSet.mem_insert.1 hother with hsame | hother
      · exact .inr ⟨hdepth, .inl (by simp [Std.LawfulEqCmp.eq_of_compare hsame])⟩
      · exact .inl hother
    · obtain rfl := List.mem_singleton.1 hother
      exact Std.ExtTreeSet.mem_insert.2 (.inl Std.ReflCmp.compare_self)
    · exact fun i hi => absurd hi (Set.notMem_empty i)
  · rw [if_neg hdepth] at h
    subst h
    exact ⟨.of_aside rfl, fun hone => absurd hone hdepth, fun hone => absurd hone hdepth⟩

theorem visiting_reference (hfollow : Following follow) (name : String) (file : Option String)
    (position : Option Position) (id : NodeId) (ts : List Tag) (inField : Option String) :
    Visiting site [name] [] (reference s follow name file position id ts inField) := by
  unfold reference
  refine .after (fun current => ?_) keeps_current
  refine (visiting_record name).bind fun _ => ?_
  refine .after (fun frame => ?_) (keeps_frameNamed _ _)
  split
  · exact visiting_of_keeps (keeps_recursiveRef _ _ _ _)
  · refine .after (fun found => ?_) (keeps_lookup _)
    split
    · exact visiting_of_keeps ((keeps_report _ _ _ _).bind fun _ => keeps_unknown _ _ _ _)
    · exact (visiting_bodyOf hfollow _ _ _).before fun _ => (keeps_location _).bind fun _ => keeps_add _

theorem visiting_build (hfollow : Following follow) (d : Description) (id : NodeId) (ts : List Tag)
    (inField : Option String) :
    Visiting site d.shape.names d.shape.children (build s follow site d id ts inField) := by
  have hnode (shape : Shape) : Keeps State.aside (do
      add { id, shape, tags := ts, location := ← location d.position }) :=
    (keeps_location _).bind fun _ => keeps_add _
  have hchildren (ids : List DescriptionId) :
      Visiting site [] ids (ids.mapM fun c => follow site c none [] inField) := by
    have hall : Visiting site [] (ids.flatMap fun c => [c]) (ids.mapM fun c => follow site c none [] inField) :=
      visiting_mapM fun c _ => hfollow site c none [] inField
    rwa [List.flatMap_singleton'] at hall
  unfold build
  dsimp only
  generalize d.shape = shape
  split
  · exact visiting_of_keeps (hnode _)
  · exact visiting_of_keeps (hnode _)
  · exact (hfollow site _ none [] inField).before fun _ => hnode _
  · exact (hchildren _).before fun _ => hnode _
  · next fs =>
    have hfields : Visiting site [] (fs.flatMap fun fd => (fd.toOption.bind FieldDescription.type).toList)
        (fs.mapM (field s follow site)) := visiting_mapM fun fd _ => visiting_field hfollow fd
    rw [← List.filterMap_eq_flatMap_toList] at hfields
    exact hfields.before fun _ => hnode _
  · exact (hchildren _).before fun _ => hnode _
  · exact (hchildren _).before fun _ => hnode _
  · refine visiting_of_keeps ((keeps_attempt _).bind fun out => ?_)
    split
    · exact hnode _
    · exact keeps_unsupported _ _ _ _ _
  · exact visiting_reference hfollow _ _ _ _ _ _
  · exact visiting_of_keeps (keeps_unsupported _ _ _ _ _)

theorem records_limitNode {names : Set String} {limit : NodeId} (h : Done (limitNode s) st limit st') :
    Records names st st' ∧ st'.limit ≠ none := by
  simp only [limitNode, done_bind, done_get] at h
  obtain ⟨_, _, ⟨rfl, rfl⟩, h⟩ := h
  split at h
  · next hlimit =>
    obtain ⟨rfl, rfl⟩ := done_pure.1 h
    exact ⟨.of_aside rfl, by simp [hlimit]⟩
  · next hlimit =>
    simp only [done_bind, done_modify, done_pure] at h
    obtain ⟨_, st₁, rfl, x, st₂, hx, _, st₃, rfl, rfl, rfl⟩ := h
    have hunknown := keeps_unknown _ _ _ _ _ _ _ hx
    have hrecords : Records names st st₂ := .of_aside hunknown
    exact ⟨⟨hrecords.depth, hrecords.active, fun _ => hlimit, hrecords.kept, hrecords.recorded⟩, by simp⟩

theorem records_limited {names : Set String} {id out : Option NodeId}
    (h : Done (limited? s id) st out st') : Records names st st' ∧ (out ≠ none → st'.limit ≠ none) := by
  simp only [limited?, done_bind, done_get] at h
  obtain ⟨_, _, ⟨rfl, rfl⟩, h⟩ := h
  split at h
  · obtain ⟨rfl, rfl⟩ := done_pure.1 h
    exact ⟨.of_aside rfl, fun hsome => absurd rfl hsome⟩
  · simp only [done_bind] at h
    obtain ⟨limit, st₁, hlimit, h⟩ := h
    obtain ⟨hrecords, hsome⟩ := records_limitNode hlimit
    have hkeeps : st'.aside = st₁.aside := by
      split at h
      · exact ((keeps_unknown _ _ _ _).bind fun _ => keeps_pure _) _ _ _ h
      · exact keeps_pure _ _ _ _ h
    refine ⟨hrecords.trans (.of_aside hkeeps), fun _ hnone => hsome ?_⟩
    have hsame : Records names st₁ st' := .of_aside hkeeps
    exact hsame.limit hnone

/-- A description is visited once it is marked as being followed and what it is and is built from was
visited. -/
theorem Visits.marked {i : DescriptionId} {d : Description} (hd : site.types.get i = .ok d)
    (h : Visits site d.shape.names d.shape.children
      { st with active := (site.scope, i) :: st.active } st') :
    Visits site [] [i] st { st' with active := st'.active.erase (site.scope, i) } where
  records := by
    obtain ⟨hdepth, hactive, hlimit, hkept, hrecorded⟩ := h.records
    refine ⟨hdepth, by simp [hactive], hlimit, hkept, fun name hname => ?_⟩
    refine (hrecorded name hname).imp_right fun ⟨hone, hname⟩ => ⟨hone, .inr ⟨i, by simp, ?_⟩⟩
    rcases hname with hname | ⟨c, hc, file, hm⟩
    · obtain ⟨file, hs⟩ := DescriptionShape.mem_names.1 hname
      exact ⟨file, .itself hd hs⟩
    · exact ⟨file, .inside hd hc hm⟩
  own _ _ := by simp
  ids hone hlimit := by
    obtain ⟨followed, hcovered, hids⟩ := h.ids hone hlimit
    have hfollowing : ∀ c, c ∈ followed ∨ c ∈ ({ st with active := (site.scope, i) :: st.active } :
        State).following site → c ∈ insert i followed ∨ c ∈ st.following site := by
      rintro c (hc | hc)
      · exact .inl (.inr hc)
      · rcases List.mem_cons.1 hc with hsame | hc
        · exact .inl (.inl (Prod.mk.inj hsame).2)
        · exact .inr hc
    refine ⟨insert i followed, ?_, by simp⟩
    rintro c (rfl | hc) d' hd'
    · obtain rfl := Except.ok.inj (hd.symm.trans hd')
      exact ⟨h.own hone hlimit, fun c hc => hfollowing c (hids c hc)⟩
    · obtain ⟨hnames, hchildren⟩ := hcovered c hc d' hd'
      exact ⟨hnames, fun c hc => hfollowing c (hchildren c hc)⟩

theorem following_follow (fuel : ℕ) : Following (Resolution.follow s fuel) := by
  induction fuel with
  | zero => exact fun _ _ _ _ _ _ _ _ h => absurd h not_done_throw
  | succ fuel ih =>
    intro site i id ts field
    refine .after (fun _ => ?_) keeps_checkDeadline
    intro st r st' h hdepth
    obtain ⟨out, st₁, hout, h⟩ := done_bind.1 h
    obtain ⟨hrecords, hlimit⟩ := records_limited hout
    cases out with
    | some limit =>
      obtain ⟨-, rfl⟩ := done_pure.1 h
      have hsome := hlimit nofun
      exact ⟨hrecords.mono (Set.empty_subset _), by simp, fun _ hnone => absurd hnone hsome⟩
    | none =>
      refine (Visits.of_records hrecords).trans (?_ : Visits site [] [i] st₁ st')
      dsimp only at h
      obtain ⟨_, _, hget, h⟩ := done_bind.1 h
      obtain ⟨rfl, rfl⟩ := done_get.1 hget
      split at h
      · next hmarked =>
        have haside := ((keeps_attempt _).bind fun d => keeps_backEdge d id field) _ _ _ h
        refine ⟨.of_aside haside, by simp, fun _ _ => ⟨∅, ?_, fun c hc => .inr ?_⟩⟩
        · exact fun c hc => absurd hc (Set.notMem_empty c)
        · obtain rfl := List.mem_singleton.1 hc
          exact List.contains_iff_mem.1 hmarked
      · simp only [done_bind, done_modify, done_pure] at h
        obtain ⟨_, _, rfl, id', st₂, hid, d, st₃, hlift, y, st₄, hbuild, _, _, rfl, rfl, rfl⟩ := h
        obtain ⟨hd, rfl⟩ := done_lift.1 hlift
        have hvisiting : Visiting site [] [] (idOr id) := visiting_of_keeps (keeps_idOr id)
        have hnamed := hvisiting _ _ _ hid (hrecords.depth ▸ hdepth)
        refine Visits.marked hd (hnamed.trans (visiting_build ih d id' ts field _ _ _ hbuild ?_))
        rw [hnamed.records.depth]
        exact hrecords.depth ▸ hdepth

/-! ## Walks -/

/-- What a walk from a declared symbol records, unless its budget is used up. -/
theorem mem_dependencies_of_root {file name : String} {deadline : Option Deadline} {r : NodeId}
    {d : Declaration} (h : Done (root s file) { deadline } r st)
    (hd : s.source.lookup ⟨file, s.symbol⟩ = .ok (some d)) (hlimit : st.limit = none) :
    name ∈ st.dependencies ↔ ∃ hint, d.types.Mentions d.type name hint := by
  simp only [root, done_bind] at h
  obtain ⟨found, st₁, hfound, h⟩ := h
  have haside := keeps_lookup _ _ _ _ hfound
  obtain rfl := Except.ok.inj (hd.symm.trans (done_lookup hfound).1)
  dsimp only at h
  obtain ⟨site, st₂, st₃, htypes, hbefore, hvisits, hafter⟩ :=
    exists_visits_of_declaration (following_follow _) h
  simp only [State.aside, Prod.mk.injEq] at haside hbefore hafter
  obtain ⟨hdependencies, hdepth, hactive, -⟩ := haside
  rw [hdependencies, hdepth, hactive] at hbefore
  have hone : st₂.chain.length = 1 := hbefore.2.1
  rw [hafter.1, ← htypes]
  constructor
  · intro hname
    rcases hvisits.records.recorded name hname with hname | ⟨-, hname | ⟨i, hi, hint, hm⟩⟩
    · rw [hbefore.1] at hname
      simp at hname
    · cases hname
    · obtain rfl := List.mem_singleton.1 hi
      exact ⟨hint, hm⟩
  · rintro ⟨hint, hm⟩
    obtain ⟨followed, hcovered, hids⟩ := hvisits.ids hone (hafter.2.2.2 ▸ hlimit)
    have hnone : st₂.following site = ∅ := by
      ext i
      simp [State.following, hbefore.2.2.1]
    rw [hnone] at hcovered hids
    exact hcovered.recorded ((hids _ List.mem_cons_self).resolve_right (Set.notMem_empty _)) hm

end Resolution

end TypeAtlas
