import TypeAtlas.Proofs.Resolution.Recorded

/-! # Walks within a budget

The budget is compared with the nodes that are done, and the node of a description is done after the nodes
below it. So the nodes that a walk is in the midst of come on top of the budget: a graph from which nothing
is left out exceeds it by less than the depth to which descriptions are nested.
-/

namespace TypeAtlas

def DescriptionShape.typed : DescriptionShape → Bool
  | .object fs => fs.all fun f => f.toOption.all fun f => f.type.isSome
  | _ => true

/-- In each description of the source every field has a type. -/
def Typed (source : DeclarationSource) : Prop := ∀ d, Describes source d → d.shape.typed

theorem DeclarationTable.typed_source {t : DeclarationTable}
    (h : ∀ x ∈ t, ∀ d ∈ x.types, d.toOption.all fun d => d.shape.typed) : Typed t.source := by
  rintro d ⟨types, i, hocc, hd⟩
  obtain ⟨x, hx, rfl⟩ := exists_mem_of_occurs hocc
  rw [Descriptions.get] at hd
  cases hget : x.types[i]? with
  | none =>
    rw [hget] at hd
    cases hd
  | some e =>
    rw [hget, Option.getD_some] at hd
    subst hd
    simpa [Except.toOption] using h x hx _ (Array.mem_of_getElem? hget)

namespace DeclarationSource

/-- A description stands in another one, or is that of a declaration to which the other refers. -/
inductive Below (source : DeclarationSource) :
    Descriptions × DescriptionId → Descriptions × DescriptionId → Prop
  | child {types : Descriptions} {i j : DescriptionId} {d : Description} (hd : types.get i = .ok d)
      (hj : j ∈ d.shape.children) : Below source (types, i) (types, j)
  | reference {types : Descriptions} {i : DescriptionId} {d : Description} {name : String}
      {file : Option String} {key : DeclarationKey} {D : Declaration} (hd : types.get i = .ok d)
      (hs : d.shape = .reference name file) (hname : key.name = name)
      (hD : source.lookup key = .ok (some D)) : Below source (types, i) (D.types, D.type)

/-- A way down from the description of a declaration, the innermost description first. None is followed
inside itself, so the way ends where a description comes up again. -/
inductive Trail (source : DeclarationSource) (key : DeclarationKey) :
    List (Descriptions × DescriptionId) → Prop
  | root {D : Declaration} (hD : source.lookup key = .ok (some D)) : Trail source key [(D.types, D.type)]
  | down {p q : Descriptions × DescriptionId} {l : List (Descriptions × DescriptionId)}
      (h : Trail source key (p :: l)) (hl : ((p :: l).map Prod.snd).Nodup) (hq : Below source p q) :
      Trail source key (q :: p :: l)

/-- Below a declaration, descriptions are nested at most `n` deep. -/
def NestsWithin (source : DeclarationSource) (key : DeclarationKey) (n : ℕ) : Prop :=
  ∀ l, source.Trail key l → l.length ≤ n

end DeclarationSource

namespace Resolution

variable {s : Setting} {α : Type} {m : M α} {A : List (ℕ × DescriptionId)} {n k : ℤ} {st st' : State}

/-- The given descriptions are being followed, and unless something has been left out, no more nodes are
done. -/
structure Within (A : List (ℕ × DescriptionId)) (n : ℤ) (st : State) : Prop where
  active : st.active = A
  size : st.limit = none → (st.nodes.size : ℤ) ≤ n

theorem Within.congr (h : Within A n st) (hactive : st'.active = st.active) (hnodes : st'.nodes = st.nodes)
    (hlimit : st'.limit = st.limit) : Within A n st' where
  active := hactive.trans h.active
  size := by
    rw [hnodes, hlimit]
    exact h.size

theorem Within.mono (h : Within A n st) (hn : n ≤ k) : Within A k st :=
  ⟨h.active, fun hlimit => (h.size hlimit).trans hn⟩

/-- From a state with so many nodes, a step leads to one with so many, if it ends, and what was being
followed still is. -/
abbrev Spends (A : List (ℕ × DescriptionId)) (n : ℤ) (m : M α) (k : ℤ) : Prop :=
  Secures (Within A n) m (fun _ => Within A k) fun _ => True

theorem spends_of_done (h : ∀ st x st', Done m st x st' → Within A n st → Within A k st') : Spends A n m k :=
  fun st hst => ⟨fun x st' hx => h st x st' hx hst, fun _ _ => trivial⟩

theorem Spends.le {k' : ℤ} (h : Spends A n m k) (hk : k ≤ k') : Spends A n m k' :=
  h.mono (fun _ h => h) fun _ _ h => h.mono hk

/-! ## Steps that do no node -/

theorem spends_calm (h : ∀ st x st', Done m st x st' → Calm st st') : Spends A n m n :=
  spends_of_done fun st x st' hx hst => hst.congr (h st x st' hx).active (h st x st' hx).nodes (h st x st' hx).limit

theorem spends_unchanged (h : ∀ st x st', Done m st x st' → st = st') : Spends A n m n :=
  spends_calm fun st x st' hx => h st x st' hx ▸ .refl st

theorem spends_pure (x : α) : Spends A n (pure x) n := secures_pure fun _ h => h

theorem spends_newId : Spends A n newId n :=
  spends_of_done fun st x st' hx hst => by
    obtain ⟨-, rfl⟩ := done_newId hx
    exact hst.congr rfl rfl rfl

theorem spends_idOr (id : Option NodeId) : Spends A n (idOr id) n := by
  cases id with
  | none => exact spends_newId
  | some x => exact spends_pure x

theorem spends_location (position : Option Position) : Spends A n (location position) n :=
  spends_unchanged fun _ _ _ h => (done_location h).2

theorem spends_current? : Spends A n current? n :=
  spends_unchanged fun _ _ _ h => (done_current?.1 h).2

theorem spends_frameNamed? (name : String) (file : Option String) : Spends A n (frameNamed? name file) n :=
  spends_unchanged fun _ _ _ h => (done_frameNamed? h).2

theorem spends_report (key : DiagnosticKey) (args : List String) (position : Option Position)
    (field : Option String) : Spends A n (report s key args position field) n :=
  spends_calm fun _ _ _ h => done_report h

theorem spends_tags (comment field : Option String) (position : Option Position) :
    Spends A n (tags s comment field position) n :=
  spends_calm fun _ _ _ h => (done_tags h).2

theorem secures_lookup_within (key : DeclarationKey) : Secures (Within A n) (lookup s key)
    (fun d st => Within A n st ∧ s.source.lookup key = .ok d) fun _ => True :=
  fun _ hst => ⟨fun _ _ h => ⟨hst.congr (done_lookup h).2.active (done_lookup h).2.nodes (done_lookup h).2.limit, (done_lookup h).1⟩,
    fun _ _ => trivial⟩

theorem spends_sharedBody? (key : DeclarationKey) : Spends A n (sharedBody? s key) n := by
  refine (secures_get (Q := fun _ => Within A n) fun _ h => h).bind fun st => ?_
  split
  · exact spends_pure _
  · split
    · exact spends_pure _
    · exact (secures_modify (Q := fun _ => Within A n) fun _ h => h.congr rfl rfl rfl).bind fun _ => spends_pure _

/-! ## Steps that do a node -/

theorem spends_add (x : Node) : Spends A n (add x) (n + 1) := by
  refine spends_of_done fun st y st' hy hst => ?_
  obtain ⟨-, rfl⟩ := done_add.1 hy
  refine ⟨hst.active, fun hlimit => ?_⟩
  have hsize : (st.nodes.insert x.id x).size ≤ st.nodes.size + 1 := Std.ExtTreeMap.size_insert_le
  have := hst.size hlimit
  dsimp only
  omega

theorem spends_unknown (reason : String) (cause : UnknownCause) (id : Option NodeId)
    (position : Option Position) : Spends A n (unknown reason cause id position) (n + 1) :=
  (spends_idOr id).bind fun _ => (spends_location position).bind fun _ => spends_add _

theorem spends_unsupported (construct : String) (detail : Option String) (position : Option Position)
    (field : Option String) (id : Option NodeId) :
    Spends A n (unsupported s construct detail position field id) (n + 1) :=
  (spends_report _ _ _ _).bind fun _ => spends_unknown _ _ _ _

theorem spends_recursiveRef (frame : Frame) (id : NodeId) (position : Option Position) (ts : List Tag) :
    Spends A n (recursiveRef frame id position ts) (n + 1) :=
  (secures_modify (Q := fun _ => Within A n) fun _ h => h.congr rfl rfl rfl).bind fun _ =>
    (spends_location _).bind fun _ => spends_add _

theorem spends_backEdge (d : Description) (id : Option NodeId) (field : Option String) :
    Spends A n (backEdge s d id field) (n + 1) := by
  have hframe : Spends A n (frameLabelled? d.label) n := by
    cases d.label with
    | none => exact spends_pure none
    | some name => exact spends_frameNamed? name none
  refine hframe.bind fun found => ?_
  cases found with
  | some frame => exact (spends_idOr id).bind fun _ => spends_recursiveRef _ _ _ _
  | none => exact spends_current?.bind fun _ => (spends_report _ _ _ _).bind fun _ => spends_unknown _ _ _ _

/-! ## Limits -/

theorem spends_checkDeadline : Spends A n checkDeadline n :=
  spends_calm fun _ _ _ h => done_checkDeadline h

/-- After something has been left out, nothing is said about how many nodes there are. -/
theorem spends_limitNode (k : ℤ) : Spends A n (limitNode s) k := by
  refine (secures_get (Q := fun st st' => Within A n st' ∧ st' = st) fun _ h => ⟨h, rfl⟩).bind fun st => ?_
  split
  · next limit hlimit =>
    refine secures_pure fun st' h => ⟨h.1.active, fun hnone => ?_⟩
    cases hlimit.symm.trans (h.2 ▸ hnone)
  · refine (secures_modify (Q := fun _ => Within A n) fun _ h => h.1.congr rfl rfl rfl).bind fun _ => ?_
    refine (spends_unknown _ _ _ _).bind fun limit => ?_
    refine (secures_modify (Q := fun _ => Within A k) fun st h => ⟨h.active, ?_⟩).bind fun _ => spends_pure _
    rintro ⟨⟩

theorem secures_limited?_room (k : ℤ) (id : Option NodeId) :
    Secures (Within A n) (limited? s id)
      (fun out => Within A (if out.isSome then k else s.maxNodes - 1)) fun _ => True := by
  refine (secures_get (Q := fun st st' => Within A n st' ∧ st' = st) fun _ h => ⟨h, rfl⟩).bind fun st => ?_
  split
  · next hroom =>
    refine secures_pure fun st' h => ⟨h.1.active, fun _ => ?_⟩
    rw [h.2]
    exact Int.le_sub_one_of_lt hroom
  · have hlimit : Spends A n (limitNode s) (k - 1) := spends_limitNode (k - 1)
    refine Secures.bind (hlimit.mono (fun _ h => h.1) fun _ _ h => h) fun limit => ?_
    cases id with
    | none => exact secures_pure fun _ h => h.mono (Int.sub_le_self k (by decide))
    | some x =>
      have hunknown := spends_unknown (A := A) (n := k - 1) limitReason .unsupported (some x) none
      rw [Int.sub_add_cancel] at hunknown
      exact hunknown.bind fun _ => secures_pure fun _ h => h

/-! ## Descriptions -/

/-- Descriptions of the given kind are followed within so many nodes. -/
def Frugal (follow : Follow) (kind : Site → DescriptionId → Prop) (A : List (ℕ × DescriptionId)) (n : ℤ) :
    Prop :=
  ∀ site i id ts field, kind site i → Spends A n (follow site i id ts field) n

/-- The description of a declaration is of the given kind. -/
def Enters (s : Setting) (kind : Site → DescriptionId → Prop) (d : Declaration) : Prop :=
  ∀ scope, kind ⟨d.types, if s.source.shared then 0 else scope⟩ d.type

variable {follow : Follow} {kind : Site → DescriptionId → Prop} {site : Site} {i : DescriptionId}

section Frugal

variable (hfollow : Frugal follow kind A n)

include hfollow

theorem spends_declaration {d : Declaration} (hd : Enters s kind d) : Spends A n (declaration s follow d) n := by
  have henter : Spends A n (enter d) n :=
    spends_newId.bind fun _ => (secures_modify (Q := fun _ => Within A n) fun _ h => h.congr rfl rfl rfl).bind
      fun _ => spends_pure _
  have hleave (body : NodeId) : Spends A n (leave d.key body) n := by
    refine secures_modify fun st h => ?_
    split
    · exact h
    · exact h.congr rfl rfl rfl
  exact henter.bind fun body => (secures_get (Q := fun _ => Within A n) fun _ h => h).bind fun st =>
    (spends_tags _ _ _).bind fun ts => (hfollow _ d.type _ _ _ (hd _)).bind fun _ =>
      (hleave body).bind fun _ => spends_pure _

theorem spends_bodyOf (name by_ : String) {d : Declaration} (hd : Enters s kind d) :
    Spends A n (bodyOf s follow name by_ d) n := by
  refine (spends_sharedBody? d.key).bind fun shared => ?_
  cases shared with
  | some body => exact spends_pure _
  | none => exact (secures_modify (Q := fun _ => Within A n) fun _ h => h.congr rfl rfl rfl).bind fun _ =>
      spends_declaration hfollow hd

theorem spends_reference {name : String} (hname : ∀ (key : DeclarationKey) d, key.name = name →
      s.source.lookup key = .ok (some d) → Enters s kind d) (file : Option String)
    (position : Option Position) (id : NodeId) (ts : List Tag) (field : Option String) :
    Spends A n (reference s follow name file position id ts field) (n + 1) := by
  refine spends_current?.bind fun here => ?_
  refine (secures_modify (Q := fun _ => Within A n) fun st h => ?_).bind fun _ => ?_
  · split
    · exact h.congr rfl rfl rfl
    · exact h
  refine (spends_frameNamed? _ _).bind fun found => ?_
  cases found with
  | some frame => exact spends_recursiveRef _ _ _ _
  | none =>
    refine (secures_lookup_within _).bind fun found => ?_
    rintro st ⟨hst, hd⟩
    cases found with
    | none => exact ((spends_report _ _ _ _).bind fun _ => spends_unknown _ _ _ _) st hst
    | some d =>
      exact ((spends_bodyOf hfollow name _ (hname _ d rfl hd)).bind fun _ => (spends_location _).bind fun _ =>
        spends_add _) st hst

theorem spends_field {d : Description} (htyped : d.shape.typed)
    (hchild : ∀ j ∈ d.shape.children, kind site j) {fs : List (Attempt FieldDescription)}
    (hs : d.shape = .object fs) {f : Attempt FieldDescription} (hf : f ∈ fs) :
    Spends A n (Resolution.field s follow site f) n := by
  refine Secures.bind (Q := fun x st => Within A n st ∧ f = .ok x)
    (secures_lift (fun x hx st h => ⟨h, hx⟩) fun _ _ => trivial) fun x => ?_
  rintro st ⟨hst, rfl⟩
  have htype : Spends A n (fieldType s follow site x) n := by
    unfold fieldType
    split
    · next hnone =>
      rw [hs] at htyped
      have hx := List.all_eq_true.1 htyped _ hf
      simp [Except.toOption, hnone] at hx
    · next j hj =>
      refine hfollow site j none [] _ (hchild j ?_)
      rw [hs, DescriptionShape.children, List.mem_filterMap]
      exact ⟨_, hf, hj⟩
  exact ((spends_tags _ _ _).bind fun _ => htype.bind fun _ => (spends_location _).bind fun _ =>
    spends_pure _) st hst

theorem spends_build {d : Description} (htyped : d.shape.typed)
    (hchild : ∀ j ∈ d.shape.children, kind site j)
    (hname : ∀ name file, d.shape = .reference name file → ∀ (key : DeclarationKey) D, key.name = name →
      s.source.lookup key = .ok (some D) → Enters s kind D)
    (id : NodeId) (ts : List Tag) (inField : Option String) :
    Spends A n (build s follow site d id ts inField) (n + 1) := by
  have hone (c : DescriptionId) (hc : c ∈ d.shape.children) :
      Spends A n (follow site c none [] inField) n := hfollow site c none [] inField (hchild c hc)
  have hall {β γ : Type} {f : β → M γ} {xs : List β} (hf : ∀ x ∈ xs, Spends A n (f x) n) :
      Spends A n (xs.mapM f) n :=
    (secures_mapM (R := fun _ => True) fun x hx => (hf x hx).mono (fun _ h => h) fun _ _ h => ⟨h, trivial⟩).mono
      (fun _ h => h) fun _ _ h => h.1
  have hchildren (cs : List DescriptionId) (hcs : cs ⊆ d.shape.children) :
      Spends A n (cs.mapM fun c => follow site c none [] inField) n := hall fun c hc => hone c (hcs hc)
  have hnode (shape : Shape) :
      Spends A n (do add { id, shape, tags := ts, location := ← location d.position }) (n + 1) :=
    (spends_location _).bind fun _ => spends_add _
  unfold build
  cases hs : d.shape with
  | primitive p => exact hnode _
  | literal k v => exact hnode _
  | array e => exact (hone e (by simp [hs, DescriptionShape.children])).bind fun _ => hnode _
  | tuple es => exact (hchildren es (by simp [hs, DescriptionShape.children])).bind fun _ => hnode _
  | union ms => exact (hchildren ms (by simp [hs, DescriptionShape.children])).bind fun _ => hnode _
  | intersection ms => exact (hchildren ms (by simp [hs, DescriptionShape.children])).bind fun _ => hnode _
  | object fs => exact (hall fun f hf => spends_field hfollow htyped hchild hs hf).bind fun _ => hnode _
  | enum parts =>
    refine Secures.bind (Q := fun _ => Within A n) (secures_lift (fun _ _ _ h => h) fun _ _ => trivial) fun out => ?_
    cases out with
    | error detail => exact spends_unsupported _ _ _ _ _
    | ok ms => exact hnode _
  | reference name file => exact spends_reference hfollow (hname name file hs) _ _ _ _ _
  | unsupported construct detail => exact spends_unsupported _ _ _ _ _

end Frugal

/-- Following a description takes the room of one node more than what is in it, which is followed while this
one is being followed. -/
theorem spends_follow_succ {fuel : ℕ} (hroom : s.maxNodes ≤ n) (id : Option NodeId) (ts : List Tag)
    (field : Option String) (hbuild : (site.scope, i) ∉ A → ∀ d x, site.types.get i = .ok d →
      Spends ((site.scope, i) :: A) (n - 1) (build s (Resolution.follow s fuel) site d x ts field) n) :
    Spends A n (Resolution.follow s (fuel + 1) site i id ts field) n := by
  refine spends_checkDeadline.bind fun _ => (secures_limited?_room n id).bind fun limit => ?_
  cases limit with
  | some limit => exact spends_pure _
  | none =>
    refine (secures_get (Q := fun st st' => Within A (s.maxNodes - 1) st' ∧ st' = st)
      fun _ h => ⟨h, rfl⟩).bind fun st => ?_
    split
    · refine Secures.bind (Q := fun _ => Within A (s.maxNodes - 1))
        (secures_lift (fun _ _ _ h => h.1) fun _ _ => trivial) fun d => ?_
      exact (spends_backEdge d id field).le (by omega)
    · next hnew =>
      have hpush : Secures (fun st' => Within A (s.maxNodes - 1) st' ∧ st' = st)
          (modify fun st : State => { st with active := (site.scope, i) :: st.active } : M PUnit)
          (fun _ st' => Within ((site.scope, i) :: A) (n - 1) st' ∧ (site.scope, i) ∉ A) fun _ => True := by
        refine secures_modify fun st' h => ?_
        obtain ⟨hst, rfl⟩ := h
        rw [List.contains_iff_mem, hst.active] at hnew
        refine ⟨⟨congrArg _ hst.active, fun hlimit => ?_⟩, hnew⟩
        have := hst.size hlimit
        dsimp only
        omega
      refine hpush.bind fun _ st' hst' => ?_
      obtain ⟨hst', hnew⟩ := hst'
      refine Secures.bind (spends_idOr id) (fun x => ?_) st' hst'
      refine Secures.bind (Q := fun d st => Within ((site.scope, i) :: A) (n - 1) st ∧ site.types.get i = .ok d)
        (secures_lift (fun d hd st h => ⟨h, hd⟩) fun _ _ => trivial) fun d st hst => ?_
      refine Secures.bind (hbuild hnew d x hst.2) (fun result => ?_) st hst.1
      refine (secures_modify (Q := fun _ => Within A n) fun _ h => ⟨?_, h.size⟩).bind fun _ => spends_pure _
      dsimp only
      rw [h.active, List.erase_cons_head]

/-- The nodes that a description is in the midst of come on top of the budget. -/
theorem frugal_follow (htyped : Typed s.source) (fuel : ℕ) (A : List (ℕ × DescriptionId)) :
    Frugal (Resolution.follow s fuel) (fun site i => Occurs s.source site.types i) A
      (s.maxNodes - 1 + fuel) := by
  induction fuel generalizing A with
  | zero => exact fun site i id ts field _ => secures_throw fun _ _ => trivial
  | succ fuel ih =>
    intro site i id ts field hocc
    refine spends_follow_succ (by omega) id ts field fun _ d x hd => ?_
    have hbuild := spends_build (ih ((site.scope, i) :: A)) (htyped d ⟨_, i, hocc, hd⟩)
      (fun j hj => .child hocc hd hj) (fun _ _ _ _ _ _ hD _ => .root hD) x ts field
    rwa [show s.maxNodes - 1 + fuel = s.maxNodes - 1 + (fuel + 1 : ℕ) - 1 by omega, Int.sub_add_cancel] at hbuild

/-- Where all declarations have one arena, it suffices to count the descriptions on the way down. -/
theorem frugal_follow_of_nestsWithin (htyped : Typed s.source) (hshared : s.source.shared) {key : DeclarationKey}
    {depth : ℕ} (hdepth : s.source.NestsWithin key depth) (fuel : ℕ)
    (l : List (Descriptions × DescriptionId)) (hl : (l.map Prod.snd).Nodup) :
    Frugal (Resolution.follow s fuel)
      (fun site i => Occurs s.source site.types i ∧ site.scope = 0 ∧ s.source.Trail key ((site.types, i) :: l))
      (l.map fun p => (0, p.2)) (s.maxNodes - 1 + (depth - l.length : ℕ)) := by
  induction fuel generalizing l with
  | zero => exact fun site i id ts field _ => secures_throw fun _ _ => trivial
  | succ fuel ih =>
    rintro ⟨types, scope⟩ i id ts field ⟨hocc, hscope, htrail⟩
    dsimp only at hocc hscope htrail
    subst hscope
    have hlength := hdepth _ htrail
    rw [List.length_cons] at hlength
    refine spends_follow_succ (by omega) id ts field fun hnew d x hd => ?_
    have hnodup : (((types, i) :: l).map Prod.snd).Nodup := by
      rw [List.map_cons, List.nodup_cons]
      refine ⟨fun hmem => hnew ?_, hl⟩
      obtain ⟨p, hp, rfl⟩ := List.mem_map.1 hmem
      exact List.mem_map.2 ⟨p, hp, rfl⟩
    have hbuild : Spends _ _ (build s _ ⟨types, 0⟩ d x ts field) _ := spends_build (ih ((types, i) :: l) hnodup)
      (htyped d ⟨_, i, hocc, hd⟩)
      (fun j hj => ⟨.child hocc hd hj, rfl, .down htrail hnodup (.child hd hj)⟩)
      (fun name file hs k D hname hD scope => ⟨.root hD, if_pos hshared,
        .down htrail hnodup (.reference hd hs hname hD)⟩) x ts field
    rwa [List.length_cons, show s.maxNodes - 1 + (depth - (l.length + 1) : ℕ) =
      s.maxNodes - 1 + (depth - l.length : ℕ) - 1 by omega, Int.sub_add_cancel] at hbuild

theorem spends_root {file : String} (hn : 0 ≤ n) (hk : n ≤ k) (hpos : 1 ≤ k)
    (hfollow : ∀ d, s.source.lookup ⟨file, s.symbol⟩ = .ok (some d) →
      ∃ kind, Frugal (Resolution.follow s s.source.depth) kind [] n ∧ Enters s kind d) :
    Spends [] 0 (root s file) k := by
  refine (secures_lookup_within _).bind fun found => ?_
  rintro st ⟨hst, hd⟩
  cases found with
  | some d =>
    obtain ⟨kind, hfrugal, henters⟩ := hfollow d hd
    exact (spends_declaration hfrugal henters).mono (fun _ h => h.mono hn) (fun _ _ h => h.mono hk) st hst
  | none =>
    have hunknown := (spends_unknown (A := []) (n := 0) ("unresolved " ++ s.symbol) .unresolved none none).le
      hpos
    exact Secures.bind (secures_modify (Q := fun _ => Within [] 0) fun _ h => h.congr rfl rfl rfl)
      (fun _ => hunknown) st hst

theorem spends_root_of_fuel (htyped : Typed s.source) (hpos : 1 ≤ s.maxNodes) (file : String) :
    Spends [] 0 (root s file) (s.maxNodes + (s.source.depth - 1 : ℕ)) :=
  spends_root (n := s.maxNodes - 1 + s.source.depth) (by omega) (by omega) (by omega)
    fun _ hd => ⟨_, frugal_follow htyped _ [], fun _ => .root hd⟩

/-- A walk exceeds the budget by less than the depth to which descriptions are nested. -/
theorem spends_root_of_nestsWithin (htyped : Typed s.source) (hpos : 1 ≤ s.maxNodes)
    (hshared : s.source.shared) {file : String} {depth : ℕ}
    (hdepth : s.source.NestsWithin ⟨file, s.symbol⟩ depth) :
    Spends [] 0 (root s file) (s.maxNodes + (depth - 1 : ℕ)) :=
  spends_root (n := s.maxNodes - 1 + depth) (by omega) (by omega) (by omega) fun _ hd =>
    ⟨_, frugal_follow_of_nestsWithin htyped hshared hdepth _ [] List.nodup_nil,
      fun _ => ⟨.root hd, if_pos hshared, .root hd⟩⟩

end Resolution

end TypeAtlas
