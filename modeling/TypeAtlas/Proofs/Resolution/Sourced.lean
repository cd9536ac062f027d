import TypeAtlas.Proofs.Resolution.Bounded
import TypeAtlas.Proofs.Resolution.Described

/-! # Where the content of raw graphs comes from

Everything that a walk files comes from a description or a comment of its source, and a node that is
not known was reported as an error. A source whose parts are all formed as they should be can only
be nested too deeply, or take too long.
-/

namespace TypeAtlas

/-! ## Sources -/

section Sources

variable (source : DeclarationSource)

/-- The descriptions at which a walk can arrive, each with the arena that holds it. -/
inductive Occurs : Descriptions → DescriptionId → Prop
  | root {key : DeclarationKey} {d : Declaration} (h : source.lookup key = .ok (some d)) :
    Occurs d.types d.type
  | child {types : Descriptions} {i j : DescriptionId} {d : Description} (h : Occurs types i)
      (hd : types.get i = .ok d) (hj : j ∈ d.shape.children) : Occurs types j

def Describes (d : Description) : Prop := ∃ types i, Occurs source types i ∧ types.get i = .ok d

/-- A comment of a declaration or of a field. -/
inductive Comments : String → Prop
  | declaration {key : DeclarationKey} {d : Declaration} {text : String}
      (h : source.lookup key = .ok (some d)) (ht : d.comment = some text) : Comments text
  | field {d : Description} {fs : List (Attempt FieldDescription)} {f : FieldDescription}
      {text : String} (h : Describes source d) (hs : d.shape = .object fs) (hf : .ok f ∈ fs)
      (ht : f.comment = some text) : Comments text

/-- A tag that is read from a comment. -/
def Annotates (vocabulary : Vocabulary) (tag : Tag) : Prop :=
  ∃ text, Comments source text ∧ ∃ entity field location o,
    readTags (some text) vocabulary entity field location = .ok o ∧ tag ∈ o.value.getD []

/-- No tag of a comment has a number with too many digits to be read. -/
def DeclarationSource.Brief : Prop :=
  ∀ text, Comments source text → ∀ raw ∈ Comment.splitTags text, Payload.Brief raw.payload.toList

/-- A source of which every part is formed as it should be. -/
structure WellDescribed : Prop where
  lookup : ∀ key e, source.lookup key ≠ .error e
  description : ∀ types i e, Occurs source types i → types.get i ≠ .error e
  field : ∀ d, Describes source d → ∀ fs, d.shape = .object fs → ∀ e, .error e ∉ fs
  member : ∀ d, Describes source d → ∀ ms, d.shape = .enum ms → ∀ e, .error e ∉ ms

/-- The content of the node is that of a description and of comments. -/
structure Sourced (vocabulary : Vocabulary) (n : Node) : Prop where
  tags : ∀ t ∈ n.tags, Annotates source vocabulary t
  fields : ∀ fs, n.shape = .object fs → ∀ f ∈ fs, ∀ t ∈ f.tags, Annotates source vocabulary t
  literal : ∀ k v, n.shape = .literal k v → ∃ d, Describes source d ∧ d.shape = .literal k v
  enum : ∀ ms, n.shape = .enum ms →
    ∃ d parts, Describes source d ∧ d.shape = .enum parts ∧
      Resolution.enumMembers parts = .ok (.ok ms)

end Sources

namespace Resolution

variable {s : Setting} {α β : Type} {P P' : State → Prop} {F : Fault → Prop}

/-! ## Steps -/

/-- From a state that satisfies the first condition, a step ends in a state that satisfies the
second, or in a fault of the given kind. -/
def Secures (P : State → Prop) (m : M α) (Q : α → State → Prop) (F : Fault → Prop) : Prop :=
  ∀ st, P st → (∀ x st', Done m st x st' → Q x st') ∧ ∀ e, Faults m st e → F e

theorem secures_pure {x : α} {Q : α → State → Prop} (h : ∀ st, P st → Q x st) :
    Secures P (pure x) Q F := by
  intro st hst
  refine ⟨fun y st' hy => ?_, fun e he => ?_⟩
  · obtain ⟨rfl, rfl⟩ := done_pure.1 hy
    exact h st hst
  · obtain ⟨st', he⟩ := he
    cases he

theorem Secures.bind {m : M α} {f : α → M β} {Q : α → State → Prop} {R : β → State → Prop}
    (hm : Secures P m Q F) (hf : ∀ x, Secures (Q x) (f x) R F) : Secures P (m >>= f) R F := by
  intro st hst
  obtain ⟨hdone, hfaults⟩ := hm st hst
  refine ⟨fun y st'' h => ?_, fun e he => ?_⟩
  · obtain ⟨x, st', hx, hy⟩ := done_bind.1 h
    exact (hf x st' (hdone x st' hx)).1 y st'' hy
  · rcases faults_bind.1 he with he | ⟨x, st', hx, he⟩
    · exact hfaults e he
    · exact (hf x st' (hdone x st' hx)).2 e he

theorem secures_get {Q : State → State → Prop} (h : ∀ st, P st → Q st st) : Secures P get Q F := by
  intro st hst
  refine ⟨fun x st' hx => ?_, fun e he => ?_⟩
  · obtain ⟨rfl, rfl⟩ := done_get.1 hx
    exact h _ hst
  · obtain ⟨st', he⟩ := he
    cases he

theorem secures_modify {f : State → State} {Q : PUnit → State → Prop}
    (h : ∀ st, P st → Q ⟨⟩ (f st)) : Secures P (modify f) Q F := by
  intro st hst
  refine ⟨fun x st' hx => ?_, fun e he => ?_⟩
  · obtain rfl := done_modify.1 hx
    exact h st hst
  · obtain ⟨st', he⟩ := he
    cases he

theorem secures_throw {e : Fault} {Q : α → State → Prop} (h : ∀ st, P st → F e) :
    Secures P (throw e) Q F := by
  intro st hst
  refine ⟨fun x st' hx => absurd hx not_done_throw, fun e' he => ?_⟩
  obtain rfl := faults_throw.1 he
  exact h st hst

theorem secures_lift {m : Attempt α} {Q : α → State → Prop} (h : ∀ x, m = .ok x → ∀ st, P st → Q x st)
    (hF : ∀ e, m = .error e → F e) : Secures P (liftM m) Q F := by
  intro st hst
  refine ⟨fun x st' hx => ?_, fun e he => hF e (faults_lift.1 he)⟩
  obtain ⟨hm, rfl⟩ := done_lift.1 hx
  exact h x hm _ hst

theorem Secures.mono {m : M α} {Q Q' : α → State → Prop} (h : Secures P m Q F)
    (hP : ∀ st, P' st → P st) (hQ : ∀ x st, Q x st → Q' x st) : Secures P' m Q' F :=
  fun st hst => ⟨fun x st' hx => hQ x st' ((h st (hP st hst)).1 x st' hx), (h st (hP st hst)).2⟩

theorem secures_mapM {f : α → M β} {R : β → Prop} {xs : List α}
    (hf : ∀ x ∈ xs, Secures P (f x) (fun y st => P st ∧ R y) F) :
    Secures P (xs.mapM f) (fun ys st => P st ∧ ∀ y ∈ ys, R y) F := by
  induction xs with
  | nil => exact secures_pure fun st hst => ⟨hst, by simp⟩
  | cons x xs ih =>
    rw [List.mapM_cons]
    refine (hf x List.mem_cons_self).bind fun y => ?_
    rintro st ⟨hst, hy⟩
    refine Secures.bind (ih fun z hz => hf z (List.mem_cons_of_mem _ hz)) (fun ys => ?_) st hst
    exact secures_pure fun st h => ⟨h.1, List.forall_mem_cons.2 ⟨hy, h.2⟩⟩

/-! ## States -/

/-- What has been filed comes from the source, and what is not known was reported. Unless the walk
is timed there is no deadline. -/
structure Candid (s : Setting) (timed failed : Prop) (st : State) : Prop where
  sourced : ∀ (id : NodeId) (n : Node), st.nodes[id]? = some n → Sourced s.source s.vocabulary n
  reported : ∀ (id : NodeId) (n : Node), st.nodes[id]? = some n → n.shape.isUnknown →
    st.sink.hasErrors
  limit : st.limit.isSome → st.sink.hasErrors
  deadline : st.deadline.isSome → timed
  failed : failed → st.sink.hasErrors

/-- A walk over a source of which every part is formed as it should be, and whose comments can be read,
can be nested too deeply, or take too long. -/
def Excused (s : Setting) (timed : Prop) (e : Fault) : Prop :=
  WellDescribed s.source → s.source.Brief →
    (timed ∧ ∃ seconds, e = .deadlineExpired seconds) ∨ e = .nestingTooDeep

variable {timed failed : Prop} {st st' : State} {position : Option Position} {field : Option String}

namespace Candid

theorem congr (h : Candid s timed failed st) (hn : st'.nodes = st.nodes) (hs : st'.sink = st.sink)
    (hl : st'.limit = st.limit) (hd : st'.deadline = st.deadline) : Candid s timed failed st' where
  sourced := hn ▸ h.sourced
  reported := hn ▸ hs ▸ h.reported
  limit := hl ▸ hs ▸ h.limit
  deadline := hd ▸ h.deadline
  failed := hs ▸ h.failed

theorem weaken (h : Candid s timed True st) : Candid s timed failed st :=
  { h with failed := fun _ => h.failed trivial }

theorem withSink {sink : Sink} {failed' : Prop} (h : Candid s timed failed st)
    (hs : st.sink.hasErrors → sink.hasErrors) (hf : failed' → sink.hasErrors) :
    Candid s timed failed' { st with sink } where
  sourced := h.sourced
  reported id n hn hu := hs (h.reported id n hn hu)
  limit hl := hs (h.limit hl)
  deadline := h.deadline
  failed := hf

theorem insert {n : Node} (h : Candid s timed failed st) (hn : Sourced s.source s.vocabulary n)
    (hu : n.shape.isUnknown → st.sink.hasErrors) :
    Candid s timed failed { st with nodes := st.nodes.insert n.id n } := by
  refine ⟨fun id m hm => ?_, fun id m hm hmu => ?_, h.limit, h.deadline, h.failed⟩
  · rw [Std.ExtTreeMap.getElem?_insert] at hm
    split at hm
    · exact Option.some.inj hm ▸ hn
    · exact h.sourced id m hm
  · rw [Std.ExtTreeMap.getElem?_insert] at hm
    split at hm
    · exact hu (Option.some.inj hm ▸ hmu)
    · exact h.reported id m hm hmu

end Candid

/-! ## Nodes -/

theorem secures_newId :
    Secures (Candid s timed failed) newId (fun _ => Candid s timed failed) F :=
  (secures_modify (Q := fun _ => Candid s timed failed) fun _ h => h.congr rfl rfl rfl rfl).bind
    fun _ => (secures_get (Q := fun _ => Candid s timed failed) fun _ h => h).bind fun _ =>
      secures_pure fun _ h => h

theorem secures_idOr (id : Option NodeId) :
    Secures (Candid s timed failed) (idOr id) (fun _ => Candid s timed failed) F := by
  cases id with
  | none => exact secures_newId
  | some x => exact secures_pure fun _ h => h

theorem secures_add {n : Node} (hn : Sourced s.source s.vocabulary n)
    (hu : n.shape.isUnknown → failed) :
    Secures (Candid s timed failed) (add n) (fun _ => Candid s timed failed) F :=
  (secures_modify (Q := fun _ => Candid s timed failed) fun _ h =>
    h.insert hn fun hun => h.failed (hu hun)).bind fun _ => secures_pure fun _ h => h

theorem secures_current? :
    Secures (Candid s timed failed) current? (fun _ => Candid s timed failed) F :=
  (secures_get (Q := fun _ => Candid s timed failed) fun _ h => h).bind fun _ =>
    secures_pure fun _ h => h

theorem secures_location (position : Option Position) :
    Secures (Candid s timed failed) (location position) (fun _ => Candid s timed failed) F := by
  refine secures_current?.bind fun key => ?_
  cases position <;> cases key <;> exact secures_pure fun _ h => h

theorem secures_place (position : Option Position) :
    Secures (Candid s timed failed) (place s position) (fun _ => Candid s timed failed) F :=
  secures_current?.bind fun _ => secures_pure fun _ h => h

theorem secures_report {key : DiagnosticKey} (hkey : key.entry.category = .error)
    (args : List String) (position : Option Position) (field : Option String) :
    Secures (Candid s timed failed) (report s key args position field)
      (fun _ => Candid s timed True) F := by
  refine secures_current?.bind fun k => (secures_place _).bind fun p => ?_
  refine secures_modify fun st h => h.withSink (fun he => ?_) fun _ => ?_
  · rw [Sink.hasErrors_emit, he, Bool.true_or]
  · rw [Sink.hasErrors_emit, Diagnostic.isError, Diagnostic.make, hkey]
    simp

theorem sourced_unknown {source : DeclarationSource} {vocabulary : Vocabulary} {id : NodeId}
    {reason : String} {cause : UnknownCause} {l : Option SourceLocation} :
    Sourced source vocabulary { id, shape := .unknown reason cause, location := l } :=
  ⟨by simp, by simp, by simp, by simp⟩

theorem secures_unknown (reason : String) (cause : UnknownCause) (id : Option NodeId)
    (position : Option Position) :
    Secures (Candid s timed True) (unknown reason cause id position)
      (fun _ => Candid s timed failed) F :=
  (secures_idOr id).bind fun _ => (secures_location _).bind fun _ =>
    (secures_add sourced_unknown fun _ => trivial).mono (fun _ h => h) fun _ _ h => h.weaken

theorem secures_unsupported (construct : String) (detail : Option String)
    (position : Option Position) (field : Option String) (id : Option NodeId) :
    Secures (Candid s timed failed) (unsupported s construct detail position field id)
      (fun _ => Candid s timed failed) F :=
  (secures_report rfl _ _ _).bind fun _ => secures_unknown _ _ _ _

theorem secures_tags {comment : Option String} (field : Option String) (position : Option Position)
    (hc : ∀ text, comment = some text → Comments s.source text) :
    Secures (Candid s timed failed) (tags s comment field position)
      (fun ts st => Candid s timed failed st ∧ ∀ t ∈ ts, Annotates s.source s.vocabulary t)
      (Excused s timed) := by
  unfold tags
  split
  · exact secures_pure fun _ h => ⟨h, by simp⟩
  · exact secures_pure fun _ h => ⟨h, by simp⟩
  · next text _ =>
    refine secures_current?.bind fun key => (secures_place _).bind fun p => ?_
    refine Secures.bind (Q := fun o st => Candid s timed failed st ∧
      readTags (some text) s.vocabulary (key.map DeclarationKey.name) field (some p) = .ok o)
      (secures_lift (fun o ho st h => ⟨h, ho⟩) fun e he _ hbrief => ?_) fun o => ?_
    · obtain ⟨o, ho⟩ := exists_readTags (hbrief text (hc text rfl))
      cases ho.symm.trans he
    · rintro st ⟨hst, ho⟩
      refine Secures.bind (Q := fun _ => Candid s timed failed) (secures_modify fun st h => ?_)
        (fun _ => secures_pure fun _ h => ⟨h, fun t ht => ⟨text, hc text rfl, _, _, _, o, ho, ht⟩⟩) st hst
      have hlasts (he : st.sink.hasErrors) : (st.sink.absorb o).hasErrors := by
        rw [Sink.hasErrors_absorb, he, Bool.true_or]
      exact h.withSink hlasts fun hf => hlasts (h.failed hf)

/-! ## Limits -/

theorem secures_checkDeadline :
    Secures (Candid s timed failed) checkDeadline (fun _ => Candid s timed failed)
      (Excused s timed) := by
  refine (secures_get (Q := fun st st' => Candid s timed failed st ∧ st' = st) fun st h =>
    ⟨h, rfl⟩).bind fun st => ?_
  cases hd : st.deadline with
  | none => exact secures_pure fun _ h => h.2 ▸ h.1
  | some d =>
    have hset (d' : Deadline) : Secures (fun st' => Candid s timed failed st ∧ st' = st)
        (modify fun st : State => { st with deadline := some d' })
        (fun _ st => Candid s timed failed st ∧ timed) (Excused s timed) := by
      refine secures_modify fun _ ⟨h, he⟩ => ?_
      subst he
      have ht := h.deadline (by simp [hd])
      exact ⟨{ h with deadline := fun _ => ht }, ht⟩
    dsimp only
    rcases d.expired with ⟨_ | _, d'⟩
    · exact (hset d').bind fun _ => secures_pure fun _ h => h.1
    · exact (hset d').bind fun _ => secures_throw fun _ h _ _ => .inl ⟨h.2, _, rfl⟩

theorem secures_limitNode :
    Secures (Candid s timed failed) (limitNode s) (fun _ => Candid s timed True) F := by
  refine (secures_get (Q := fun st st' => Candid s timed failed st ∧ st' = st) fun st h =>
    ⟨h, rfl⟩).bind fun st => ?_
  split
  · next limit hl =>
    refine secures_pure fun _ ⟨h, he⟩ => he ▸ ?_
    exact { h with failed := fun _ => h.limit (by simp [hl]) }
  · have hunknown : Secures (Candid s timed True) (unknown limitReason .unsupported)
        (fun _ => Candid s timed True) F := secures_unknown _ _ _ _
    refine Secures.bind (Q := fun _ => Candid s timed True) (secures_modify fun st' h => ?_) fun _ =>
      hunknown.bind fun limit => ?_
    · refine (h.2 ▸ h.1).withSink (fun he => ?_) fun _ => ?_
      · rw [Sink.hasErrors_emit, he, Bool.true_or]
      · rw [Sink.hasErrors_emit]
        simp [Diagnostic.isError, Diagnostic.make, DiagnosticKey.entry]
    · exact (secures_modify (Q := fun _ => Candid s timed True) fun _ h =>
        { h with limit := fun _ => h.failed trivial }).bind fun _ => secures_pure fun _ h => h

theorem secures_limited? (id : Option NodeId) :
    Secures (Candid s timed failed) (limited? s id) (fun _ => Candid s timed failed) F := by
  refine (secures_get (Q := fun _ => Candid s timed failed) fun _ h => h).bind fun st => ?_
  split
  · exact secures_pure fun _ h => h
  · refine secures_limitNode.bind fun limit => ?_
    cases id with
    | none => exact secures_pure fun _ h => h.weaken
    | some x => exact (secures_unknown _ _ _ _).bind fun _ => secures_pure fun _ h => h

/-! ## Recursion -/

theorem secures_recursiveRef (frame : Frame) (id : NodeId) (position : Option Position)
    {ts : List Tag} (hts : ∀ t ∈ ts, Annotates s.source s.vocabulary t) :
    Secures (Candid s timed failed) (recursiveRef frame id position ts)
      (fun _ => Candid s timed failed) F :=
  (secures_modify (Q := fun _ => Candid s timed failed) fun _ h => h.congr rfl rfl rfl rfl).bind
    fun _ => (secures_location _).bind fun _ =>
      secures_add ⟨hts, by simp, by simp, by simp⟩ fun hu => by cases hu

theorem secures_frameNamed? (name : String) (file : Option String) :
    Secures (Candid s timed failed) (frameNamed? name file) (fun _ => Candid s timed failed) F :=
  (secures_get (Q := fun _ => Candid s timed failed) fun _ h => h).bind fun _ =>
    secures_pure fun _ h => h

theorem secures_backEdge (d : Description) (id : Option NodeId) (field : Option String) :
    Secures (Candid s timed failed) (backEdge s d id field) (fun _ => Candid s timed failed) F := by
  have hframe : Secures (Candid s timed failed) (frameLabelled? d.label)
      (fun _ => Candid s timed failed) F := by
    cases d.label with
    | none => exact secures_pure fun _ h => h
    | some name => exact secures_frameNamed? _ _
  refine hframe.bind fun found => ?_
  cases found with
  | some frame => exact (secures_idOr id).bind fun _ => secures_recursiveRef _ _ _ (by simp)
  | none => exact secures_current?.bind fun _ => (secures_report rfl _ _ _).bind fun _ =>
      secures_unknown _ _ _ _

/-! ## Declarations -/

theorem secures_sharedBody? (key : DeclarationKey) :
    Secures (Candid s timed failed) (sharedBody? s key) (fun _ => Candid s timed failed) F := by
  refine (secures_get (Q := fun _ => Candid s timed failed) fun _ h => h).bind fun st => ?_
  split
  · exact secures_pure fun _ h => h
  · split
    · exact secures_pure fun _ h => h
    · exact (secures_modify (Q := fun _ => Candid s timed failed) fun _ h =>
        h.congr rfl rfl rfl rfl).bind fun _ => secures_pure fun _ h => h

theorem secures_enter (d : Declaration) :
    Secures (Candid s timed failed) (enter d) (fun _ => Candid s timed failed) F :=
  secures_newId.bind fun _ => (secures_modify (Q := fun _ => Candid s timed failed) fun _ h =>
    h.congr rfl rfl rfl rfl).bind fun _ => secures_pure fun _ h => h

theorem secures_leave (key : DeclarationKey) (body : NodeId) :
    Secures (Candid s timed failed) (leave key body) (fun _ => Candid s timed failed) F := by
  refine secures_modify fun st h => ?_
  split
  · exact h
  · exact h.congr rfl rfl rfl rfl

theorem secures_lookup (key : DeclarationKey) :
    Secures (Candid s timed failed) (lookup s key)
      (fun d st => Candid s timed failed st ∧ s.source.lookup key = .ok d) (Excused s timed) := by
  refine (secures_modify (Q := fun _ => Candid s timed failed) fun _ h =>
    h.congr rfl rfl rfl rfl).bind fun _ => ?_
  split
  · next d hd => exact secures_pure fun _ h => ⟨h, hd⟩
  · next e he => exact secures_throw fun _ _ hwell _ => absurd he (hwell.lookup key e)

/-! ## Descriptions -/

/-- Descriptions that belong to the source are followed as they should be. -/
def Heeds (s : Setting) (timed failed : Prop) (follow : Follow) : Prop :=
  ∀ site d id ts field, Occurs s.source site.types d →
    (∀ t ∈ ts, Annotates s.source s.vocabulary t) →
    Secures (Candid s timed failed) (follow site d id ts field) (fun _ => Candid s timed failed)
      (Excused s timed)

variable {follow : Follow} {site : Site} {d : Description} {i : DescriptionId}

theorem secures_declaration (hfollow : Heeds s timed failed follow) {d : Declaration}
    {key : DeclarationKey} (hd : s.source.lookup key = .ok (some d)) :
    Secures (Candid s timed failed) (declaration s follow d) (fun _ => Candid s timed failed)
      (Excused s timed) := by
  refine (secures_enter d).bind fun body =>
    (secures_get (Q := fun _ => Candid s timed failed) fun _ h => h).bind fun st => ?_
  refine (secures_tags none _ fun text ht => .declaration hd ht).bind fun ts => ?_
  rintro st ⟨hst, hts⟩
  refine Secures.bind (hfollow ⟨d.types, _⟩ d.type (some body) ts none (.root hd) hts)
    (fun _ => ?_) st hst
  exact (secures_leave _ _).bind fun _ => secures_pure fun _ h => h

theorem secures_bodyOf (hfollow : Heeds s timed failed follow) (name by_ : String) {d : Declaration}
    {key : DeclarationKey} (hd : s.source.lookup key = .ok (some d)) :
    Secures (Candid s timed failed) (bodyOf s follow name by_ d) (fun _ => Candid s timed failed)
      (Excused s timed) := by
  refine (secures_sharedBody? d.key).bind fun shared => ?_
  cases shared with
  | some body => exact secures_pure fun _ h => h
  | none => exact (secures_modify (Q := fun _ => Candid s timed failed) fun _ h =>
      h.congr rfl rfl rfl rfl).bind fun _ => secures_declaration hfollow hd

theorem secures_reference (hfollow : Heeds s timed failed follow) (name : String)
    (file : Option String) (position : Option Position) (id : NodeId) {ts : List Tag}
    (hts : ∀ t ∈ ts, Annotates s.source s.vocabulary t) (field : Option String) :
    Secures (Candid s timed failed) (reference s follow name file position id ts field)
      (fun _ => Candid s timed failed) (Excused s timed) := by
  refine secures_current?.bind fun here => ?_
  refine (secures_modify (Q := fun _ => Candid s timed failed) fun st h => ?_).bind fun _ => ?_
  · split
    · exact h.congr rfl rfl rfl rfl
    · exact h
  refine (secures_frameNamed? _ _).bind fun found => ?_
  cases found with
  | some frame => exact secures_recursiveRef _ _ _ hts
  | none =>
    refine (secures_lookup _).bind fun found => ?_
    rintro st ⟨hst, hd⟩
    cases found with
    | none => exact ((secures_report rfl _ _ _).bind fun _ => secures_unknown _ _ _ _) st hst
    | some d =>
      refine Secures.bind (secures_bodyOf hfollow name _ hd) (fun _ => ?_) st hst
      exact (secures_location _).bind fun _ =>
        secures_add ⟨hts, by simp, by simp, by simp⟩ fun hu => by cases hu

theorem secures_field (hfollow : Heeds s timed failed follow) (hocc : Occurs s.source site.types i)
    (hd : site.types.get i = .ok d) {fs : List (Attempt FieldDescription)}
    (hs : d.shape = .object fs) {f : Attempt FieldDescription} (hf : f ∈ fs) :
    Secures (Candid s timed failed) (Resolution.field s follow site f)
      (fun f st => Candid s timed failed st ∧ ∀ t ∈ f.tags, Annotates s.source s.vocabulary t)
      (Excused s timed) := by
  have hdesc : Describes s.source d := ⟨_, i, hocc, hd⟩
  refine Secures.bind (Q := fun x st => Candid s timed failed st ∧ f = .ok x)
    (secures_lift (fun x hx st h => ⟨h, hx⟩) fun e he hwell _ =>
      absurd (he ▸ hf) (hwell.field d hdesc fs hs e)) fun x => ?_
  rintro st ⟨hst, rfl⟩
  refine Secures.bind (secures_tags _ _ fun text ht => .field hdesc hs hf ht) (fun ts => ?_) st hst
  rintro st ⟨hst, hts⟩
  have htype : Secures (Candid s timed failed) (fieldType s follow site x)
      (fun _ => Candid s timed failed) (Excused s timed) := by
    unfold fieldType
    split
    · exact secures_unsupported _ _ _ _ _
    · next j hj =>
      refine hfollow site j none [] _ (.child hocc hd ?_) (by simp)
      rw [hs, DescriptionShape.children, List.mem_filterMap]
      exact ⟨_, hf, hj⟩
  refine Secures.bind htype (fun _ => (secures_location _).bind fun _ => ?_) st hst
  exact secures_pure fun _ h => ⟨h, hts⟩

theorem error_mem_of_enumMembers {ms : List (Attempt MemberDescription)} {e : Fault}
    (h : enumMembers ms = .error e) : .error e ∈ ms := by
  induction ms with
  | nil => cases h
  | cons m ms ih =>
    rw [enumMembers] at h
    cases m with
    | error e' =>
      cases h
      exact List.mem_cons_self
    | ok m =>
      cases m with
      | unsupported detail => cases h
      | constant member =>
        cases hms : enumMembers ms with
        | error e' =>
          rw [hms] at h
          cases h
          exact List.mem_cons_of_mem _ (ih hms)
        | ok out =>
          rw [hms] at h
          cases h

theorem secures_build (hfollow : Heeds s timed failed follow) (hocc : Occurs s.source site.types i)
    (hd : site.types.get i = .ok d) (id : NodeId) {ts : List Tag}
    (hts : ∀ t ∈ ts, Annotates s.source s.vocabulary t) (inField : Option String) :
    Secures (Candid s timed failed) (build s follow site d id ts inField)
      (fun _ => Candid s timed failed) (Excused s timed) := by
  have hdesc : Describes s.source d := ⟨_, i, hocc, hd⟩
  have hchild (c : DescriptionId) (hc : c ∈ d.shape.children) :
      Secures (Candid s timed failed) (follow site c none [] inField)
        (fun _ => Candid s timed failed) (Excused s timed) :=
    hfollow site c none [] inField (.child hocc hd hc) (by simp)
  have hchildren (cs : List DescriptionId) (hcs : cs ⊆ d.shape.children) :
      Secures (Candid s timed failed) (cs.mapM fun c => follow site c none [] inField)
        (fun _ => Candid s timed failed) (Excused s timed) :=
    (secures_mapM (R := fun _ => True) fun c hc => (hchild c (hcs hc)).mono (fun _ h => h)
      fun _ _ h => ⟨h, trivial⟩).mono (fun _ h => h) fun _ _ h => h.1
  have hnode (shape : Shape) (hn : ∀ l, Sourced s.source s.vocabulary ⟨id, shape, ts, l⟩)
      (hu : shape.isUnknown = false) :
      Secures (Candid s timed failed) (do add { id, shape, tags := ts, location := ← location d.position })
        (fun _ => Candid s timed failed) (Excused s timed) :=
    (secures_location _).bind fun l => secures_add (hn l) fun h => by simp [hu] at h
  unfold build
  cases hs : d.shape with
  | primitive p => exact hnode _ (fun _ => ⟨hts, by simp, by simp, by simp⟩) rfl
  | literal k v =>
    refine hnode (.literal k v) (fun _ => ⟨hts, by simp, fun k' v' he => ?_, by simp⟩) rfl
    cases he
    exact ⟨d, hdesc, hs⟩
  | array e =>
    exact (hchild e (by simp [hs, DescriptionShape.children])).bind fun _ =>
      hnode _ (fun _ => ⟨hts, by simp, by simp, by simp⟩) rfl
  | tuple es =>
    exact (hchildren es (by simp [hs, DescriptionShape.children])).bind fun _ =>
      hnode _ (fun _ => ⟨hts, by simp, by simp, by simp⟩) rfl
  | union ms =>
    exact (hchildren ms (by simp [hs, DescriptionShape.children])).bind fun _ =>
      hnode _ (fun _ => ⟨hts, by simp, by simp, by simp⟩) rfl
  | intersection ms =>
    exact (hchildren ms (by simp [hs, DescriptionShape.children])).bind fun _ =>
      hnode _ (fun _ => ⟨hts, by simp, by simp, by simp⟩) rfl
  | object fs =>
    refine (secures_mapM fun f hf => secures_field hfollow hocc hd hs hf).bind fun out => ?_
    rintro st ⟨hst, hout⟩
    refine hnode (.object out) (fun _ => ⟨hts, fun fs' he => ?_, by simp, by simp⟩) rfl st hst
    cases he
    exact hout
  | enum parts =>
    refine Secures.bind (Q := fun x st => Candid s timed failed st ∧ enumMembers parts = .ok x)
      (secures_lift (fun x hx st h => ⟨h, hx⟩) fun e he hwell _ =>
        absurd (error_mem_of_enumMembers he) (hwell.member d hdesc parts hs e)) fun out => ?_
    rintro st ⟨hst, hout⟩
    cases out with
    | error detail => exact secures_unsupported _ _ _ _ _ st hst
    | ok ms =>
      refine hnode (.enum ms) (fun _ => ⟨hts, by simp, by simp, fun ms' he => ?_⟩) rfl st hst
      cases he
      exact ⟨d, parts, hdesc, hs, hout⟩
  | reference name file => exact secures_reference hfollow _ _ _ _ hts _
  | unsupported construct detail => exact secures_unsupported _ _ _ _ _

theorem heeds_follow (fuel : ℕ) : Heeds s timed failed (Resolution.follow s fuel) := by
  induction fuel with
  | zero => exact fun site d id ts field _ _ => secures_throw fun _ _ _ _ => .inr rfl
  | succ fuel ih =>
    intro site i id ts field hocc hts
    refine secures_checkDeadline.bind fun _ => (secures_limited? id).bind fun limit => ?_
    cases limit with
    | some limit => exact secures_pure fun _ h => h
    | none =>
      refine (secures_get (Q := fun _ => Candid s timed failed) fun _ h => h).bind fun st => ?_
      have hget {Q : Description → State → Prop}
          (hQ : ∀ d, site.types.get i = .ok d → ∀ st, Candid s timed failed st → Q d st) :
          Secures (Candid s timed failed) (liftM (site.types.get i)) Q (Excused s timed) :=
        secures_lift hQ fun e he hwell _ => absurd he (hwell.description _ i e hocc)
      split
      · exact (hget fun d _ _ h => h).bind fun d => secures_backEdge _ _ _
      · refine (secures_modify (Q := fun _ => Candid s timed failed) fun _ h =>
          h.congr rfl rfl rfl rfl).bind fun _ => (secures_idOr id).bind fun x => ?_
        refine (hget (Q := fun d st => Candid s timed failed st ∧ site.types.get i = .ok d)
          fun d hd _ h => ⟨h, hd⟩).bind fun d => ?_
        rintro st ⟨hst, hd⟩
        refine Secures.bind (secures_build ih hocc hd x hts field) (fun result => ?_) st hst
        exact (secures_modify (Q := fun _ => Candid s timed failed) fun _ h =>
          h.congr rfl rfl rfl rfl).bind fun _ => secures_pure fun _ h => h

theorem secures_root (file : String) :
    Secures (Candid s timed failed) (root s file) (fun _ => Candid s timed failed)
      (Excused s timed) := by
  refine (secures_lookup _).bind fun found => ?_
  rintro st ⟨hst, hd⟩
  cases found with
  | some d => exact secures_declaration (heeds_follow _) hd st hst
  | none =>
    refine Secures.bind (secures_modify (Q := fun _ => Candid s timed True) fun _ h => ?_)
      (fun _ => secures_unknown _ _ _ _) st hst
    refine h.withSink (fun he => ?_) fun _ => ?_
    · rw [Sink.hasErrors_emit, he, Bool.true_or]
    · rw [Sink.hasErrors_emit]
      simp [Diagnostic.isError, Diagnostic.make, DiagnosticKey.entry]

theorem candid_initial {deadline : Option Deadline} :
    Candid s (deadline.isSome = true) False { deadline } :=
  ⟨by simp, by simp, by simp, fun h => h, nofun⟩

end Resolution

open Resolution

variable {source : DeclarationSource} {vocabulary : Vocabulary} {maxNodes : Int} {file symbol : String}
  {deadline : Option Deadline} {sharing : Bool} {o : Outcome Graph} {g : Graph} {id : NodeId} {n : Node}

theorem exists_candid_of_resolve
    (h : (resolve source vocabulary maxNodes file symbol deadline sharing).1 = .ok o)
    (hg : o.value = some g) : ∃ st,
      Candid ⟨source, vocabulary, maxNodes, symbol, sharing⟩ (deadline.isSome = true) False st ∧
        g.nodes = st.nodes ∧ o.ok = !st.sink.hasErrors := by
  obtain ⟨r, st, hdone, rfl⟩ := exists_done_of_resolve h
  obtain rfl := Option.some.inj hg
  refine ⟨st, (secures_root file _ candid_initial).1 r st hdone, rfl, ?_⟩
  exact Sink.ok_outcome ..

/-- A raw graph holds what its source says. -/
theorem resolve_sourced
    (h : (resolve source vocabulary maxNodes file symbol deadline sharing).1 = .ok o)
    (hg : o.value = some g) (hn : g.node? id = some n) : Sourced source vocabulary n := by
  obtain ⟨st, hst, hnodes, -⟩ := exists_candid_of_resolve h hg
  exact hst.sourced id n (hnodes ▸ hn)

/-- In a raw graph that was resolved without an error every node is known. -/
theorem resolve_known
    (h : (resolve source vocabulary maxNodes file symbol deadline sharing).1 = .ok o)
    (hg : o.value = some g) (hok : o.ok) (hn : g.node? id = some n) : n.shape.isUnknown = false := by
  obtain ⟨st, hst, hnodes, herrors⟩ := exists_candid_of_resolve h hg
  by_contra hu
  have := hst.reported id n (hnodes ▸ hn) (by simpa using hu)
  simp [hok, this] at herrors

section Resolves

variable {keys : List DeclarationKey} {size : ℕ} (hwell : WellDescribed source) (hbrief : source.Brief)
  (hfinite : Finite source keys size) (hsource : source.shared = true ∨ Faithful source)
  (hdepth : bound source keys size < source.depth)

include hwell hbrief hfinite hsource hdepth

/-- A source of which every part is formed as it should be, and whose comments can be read, can be
resolved in time, if its declarations are finitely many. -/
theorem resolve_timely :
    (∃ o, (resolve source vocabulary maxNodes file symbol deadline sharing).1 = .ok o) ∨
      deadline.isSome ∧ ∃ seconds,
        (resolve source vocabulary maxNodes file symbol deadline sharing).1 =
          .error (.deadlineExpired seconds) := by
  have hroot := secures_root (s := ⟨source, vocabulary, maxNodes, symbol, sharing⟩) file
    { deadline } candid_initial
  rcases hrun : (root ⟨source, vocabulary, maxNodes, symbol, sharing⟩ file).run { deadline }
    with ⟨e | r, st⟩
  · rcases hroot.2 e ⟨st, hrun⟩ hwell hbrief with ⟨hd, seconds, rfl⟩ | rfl
    · exact .inr ⟨hd, seconds, by simp only [resolve, hrun]⟩
    · exact absurd ⟨st, hrun⟩ (not_faults_root hfinite hsource hdepth)
  · exact .inl ⟨_, by simp only [resolve, hrun]; rfl⟩

/-- Without a deadline it can be resolved. -/
theorem exists_resolve :
    ∃ o, (resolve source vocabulary maxNodes file symbol none sharing).1 = .ok o ∧
      (resolve source vocabulary maxNodes file symbol none sharing).2.deadline = none := by
  obtain ⟨o, ho⟩ : ∃ o, (resolve source vocabulary maxNodes file symbol none sharing).1 = .ok o :=
    (resolve_timely hwell hbrief hfinite hsource hdepth).resolve_right fun h => Bool.false_ne_true h.1
  obtain ⟨r, st, hdone, -⟩ := exists_done_of_resolve ho
  have hcandid := (secures_root file { deadline := none } candid_initial).1 r st hdone
  have hnone : st.deadline = none := by
    rw [← Option.not_isSome_iff_eq_none]
    exact fun hd => Bool.false_ne_true (hcandid.deadline hd)
  exact ⟨o, ho, (resolve_of_done hdone).2.trans hnone⟩

end Resolves

end TypeAtlas
