import TypeAtlas.Proofs.Resolution.Described
import TypeAtlas.Proofs.Resolution.Scoped

/-! # Sharing bodies does not show

A walk yields a node that unfolds into the tree that its description stands for. This holds for the
bodies that a walk keeps as well. A body that it uses again refers to no declaration around it and
holds none that is being followed, so it stands for the same tree there.
-/

namespace TypeAtlas.Resolution

variable {s : Setting} {source : DeclarationSource} {st st' st'' : State}
  {chain chain' : List Frame} {f : Frame} {x r : NodeId} {id : Option NodeId} {trail : List NodeId}
  {above : List (Option DeclarationKey)} {c : Context} {active : List DescriptionId} {t : Tree}
  {k : DeclarationKey}

/-! ## Trails -/

/-- The nodes above a place of a walk, the last ones first, with the declarations that they stand
for. -/
inductive Aligned (source : DeclarationSource) :
    List Frame → List NodeId → List (Option DeclarationKey) → Prop
  | nil : Aligned source [] [] []
  | body {f : Frame} {chain : List Frame} {trail : List NodeId}
      {above : List (Option DeclarationKey)} (h : Aligned source chain trail above)
      (hbody : f.body ∉ trail) (hkey : some f.key ∉ above)
      (hd : ∃ d, source.lookup f.key = .ok (some d)) :
      Aligned source (f :: chain) (f.body :: trail) (some f.key :: above)
  | node {x : NodeId} {chain : List Frame} {trail : List NodeId}
      {above : List (Option DeclarationKey)} (h : Aligned source chain trail above)
      (hx : x ∉ trail) : Aligned source chain (x :: trail) (none :: above)

namespace Aligned

theorem later (h : Aligned source chain trail above) (hl : Later chain chain') :
    Aligned source chain' trail above := by
  induction h generalizing chain' with
  | nil =>
    cases hl
    exact .nil
  | body _ hbody hkey hd ih =>
    cases hl with
    | cons hf hl =>
      rw [← hf.body, ← hf.key] at *
      exact .body (ih hl) hbody hkey hd
  | node _ hx ih => exact .node (ih hl) hx

theorem body_mem (h : Aligned source chain trail above) (hf : f ∈ chain) : f.body ∈ trail := by
  induction h with
  | nil => cases hf
  | body _ _ _ _ ih =>
    rcases List.mem_cons.1 hf with rfl | hf
    · exact List.mem_cons_self
    · exact List.mem_cons_of_mem _ (ih hf)
  | node _ _ ih => exact List.mem_cons_of_mem _ (ih hf)

theorem mem_iff (h : Aligned source chain trail above) :
    some k ∈ above ↔ ∃ f ∈ chain, f.key = k := by
  induction h with
  | nil => simp
  | body _ _ _ _ ih => simp [ih, eq_comm]
  | node _ _ ih => simp [ih]

theorem declared (h : Aligned source chain trail above) (hk : some k ∈ above) :
    source.lookup k ≠ .ok none := by
  induction h with
  | nil => cases hk
  | body _ _ _ hd ih =>
    rcases List.mem_cons.1 hk with he | hk
    · obtain ⟨d, hd⟩ := hd
      rw [Option.some.inj he, hd]
      simp
    · exact ih hk
  | node _ _ ih =>
    rcases List.mem_cons.1 hk with he | hk
    · cases he
    · exact ih hk

/-- The body of a declaration is as far up as its name. -/
theorem idxOf?_body (h : Aligned source chain trail above) (hf : f ∈ chain) :
    trail.idxOf? f.body = above.idxOf? (some f.key) := by
  induction h with
  | nil => cases hf
  | @body g chain trail above h hbody hkey hd ih =>
    rw [List.idxOf?_cons, List.idxOf?_cons]
    rcases List.mem_cons.1 hf with rfl | hf
    · simp
    · have hb : g.body ≠ f.body := fun he => hbody (he ▸ h.body_mem hf)
      have hk : some g.key ≠ some f.key := fun he => hkey (he ▸ h.mem_iff.2 ⟨f, hf, rfl⟩)
      simp only [beq_iff_eq, hb, hk, if_false, ih hf]
  | @node x chain trail above h hx ih =>
    rw [List.idxOf?_cons, List.idxOf?_cons]
    have hb : x ≠ f.body := fun he => hx (he ▸ h.body_mem hf)
    simp [hb, ih hf]

end Aligned

/-! ## Invariants -/

/-- The declarations that the innermost one is known to hold; none is missing if there is no
innermost one. -/
def held : List Frame → Set DeclarationKey
  | [] => Set.univ
  | f :: _ => {k | k ∈ f.names}

theorem Later.held (h : Later chain chain') : held chain ⊆ held chain' := by
  cases h with
  | nil => exact Set.Subset.rfl
  | cons hf _ => exact hf.names

/-- A body that refers to nothing around it and stands for its declaration. -/
def Reusable (s : Setting) (A : Arena) (b : SharedBody) : Prop :=
  ∃ d t, s.source.lookup b.key = .ok (some d) ∧ b.key ∈ b.names ∧ A.Unfolds [] b.body t ∧
    t.Within 0 ∧
    Denotes (Context.expand s) {k | k ∈ b.names} (Context.ofDeclaration s [] d) t

theorem Reusable.extend {A B : Arena} {b : SharedBody} (h : Reusable s A b) (hA : Extends A B) :
    Reusable s B b := by
  obtain ⟨d, t, hd, hmem, ht, hw, hden⟩ := h
  exact ⟨d, t, hd, hmem, ht.extend hA, hw, hden⟩

/-- What holds of a walk below the given nodes. -/
structure Standing (s : Setting) (st : State) (trail : List NodeId)
    (above : List (Option DeclarationKey)) (active : List DescriptionId) : Prop where
  sane : Sane s st
  old : ∀ y ∈ trail, ∃ k ≤ st.counter, y = numbered k
  aligned : Aligned s.source st.chain trail above
  bodies : ∀ b ∈ st.bodies, Reusable s st.nodes b
  marks : st.active = active.map fun i => (0, i)

/-- A place has been yielded as a node that unfolds into the tree which it stands for. -/
structure Drawn (s : Setting) (trail : List NodeId) (c : Context) (r : NodeId) (st : State) :
    Prop where
  bodies : ∀ b ∈ st.bodies, Reusable s st.nodes b
  tree : ∃ t, st.nodes.Unfolds trail r t ∧ Denotes (Context.expand s) (held st.chain) c t

/-- A place is about to become a node, which may have a name already. -/
def Ready (s : Setting) (st : State) (trail : List NodeId) (active : List DescriptionId)
    (c : Context) : Option NodeId → Prop
  | none => Standing s st trail c.above active ∧ c.body = none ∧ st.current = some c.here
  | some x => Standing s st (x :: trail) c.trail active ∧ x ∉ st.nodes ∧ st.current = some c.here

theorem Later.current (h : Later st.chain st'.chain) : st'.current = st.current := by
  rw [State.current, State.current]
  generalize st.chain = chain at h
  generalize st'.chain = chain' at h
  cases h with
  | nil => rfl
  | cons hf _ => exact congrArg some hf.key

theorem Standing.grew (h : Standing s st trail above active) (hg : Grew none st st')
    (hs : Sane s st') (hb : ∀ b ∈ st'.bodies, Reusable s st'.nodes b) :
    Standing s st' trail above active where
  sane := hs
  old y hy := by
    obtain ⟨k, hk, rfl⟩ := h.old y hy
    exact ⟨k, hk.trans hg.counter, rfl⟩
  aligned := h.aligned.later hg.chain
  bodies := hb
  marks := hg.active.trans h.marks

theorem Ready.pending (h : Ready s st trail active c id) : Pending st id := by
  intro x hx
  subst hx
  exact ⟨h.2.1, h.1.old x List.mem_cons_self⟩

theorem Ready.sane (h : Ready s st trail active c id) : Sane s st := by
  cases id with
  | none => exact h.1.sane
  | some x => exact h.1.sane

theorem Ready.bodies (h : Ready s st trail active c id) : ∀ b ∈ st.bodies, Reusable s st.nodes b := by
  cases id with
  | none => exact h.1.bodies
  | some x => exact h.1.bodies

theorem Ready.grew (h : Ready s st trail active c id) (hg : Grew none st st') (hs : Sane s st')
    (hb : ∀ b ∈ st'.bodies, Reusable s st'.nodes b) : Ready s st' trail active c id := by
  have hcurrent := Later.current hg.chain
  cases id with
  | none => exact ⟨h.1.grew hg hs hb, h.2.1, hcurrent.trans h.2.2⟩
  | some x => exact ⟨h.1.grew hg hs hb, (h.pending.filed hg.toFiled x rfl).1, hcurrent.trans h.2.2⟩

theorem Ready.calm (h : Ready s st trail active c id) (hc : Calm st st') :
    Ready s st' trail active c id := by
  refine h.grew hc.grew (hc.sane h.sane) ?_
  rw [hc.bodies, hc.nodes]
  exact h.bodies

theorem Standing.push (h : Standing s st trail above active) (d : DescriptionId) :
    Standing s { st with active := (0, d) :: st.active } trail above (d :: active) where
  sane := ⟨h.sane.grown, h.sane.numbered, h.sane.nested, h.sane.target, h.sane.bodies, h.sane.limit⟩
  old := h.old
  aligned := h.aligned
  bodies := h.bodies
  marks := by rw [h.marks, List.map_cons]

theorem Ready.push (h : Ready s st trail active c id) (d : DescriptionId) :
    Ready s { st with active := (0, d) :: st.active } trail (d :: active) c id := by
  cases id with
  | none => exact ⟨h.1.push d, h.2⟩
  | some x => exact ⟨h.1.push d, h.2⟩

theorem Ready.mem_active (h : Ready s st trail active c id) {d : DescriptionId} :
    (0, d) ∈ st.active ↔ d ∈ active := by
  have hmarks : st.active = active.map fun i => (0, i) := by
    cases id with
    | none => exact h.1.marks
    | some x => exact h.1.marks
  simp [hmarks]

theorem Ready.given (h : Ready s st trail active c id) (hx : Done (idOr id) st x st') :
    Ready s st' trail active c (some x) := by
  have hg := given_of_done_idOr hx h.sane h.pending
  cases id with
  | some y =>
    obtain ⟨rfl, rfl⟩ := done_pure.1 hx
    exact h
  | none =>
    obtain ⟨hstanding, hbody, hhere⟩ := h
    obtain ⟨rfl, rfl⟩ := done_newId hx
    have hgrew := hstanding.grew hg.grew hg.sane hstanding.bodies
    have hnew : numbered (st.counter + 1) ∉ trail := by
      intro hmem
      obtain ⟨k, hk, he⟩ := hstanding.old _ hmem
      have := numbered_injective he
      omega
    refine ⟨⟨hgrew.sane, ?_, ?_, hgrew.bodies, hgrew.marks⟩, (hg.pending _ rfl).1, hhere⟩
    · exact List.forall_mem_cons.2 ⟨⟨_, le_rfl, rfl⟩, hgrew.old⟩
    · rw [Context.trail, hbody]
      exact .node hgrew.aligned hnew

/-! ## Nodes -/

/-- Nodes that unfold into the trees which places stand for. -/
structure Branches (s : Setting) (st : State) (trail : List NodeId) (xs : List NodeId)
    (cs : List Context) (ts : List Tree) : Prop where
  unfolds : List.Forall₂ (st.nodes.Unfolds trail) xs ts
  denotes : List.Forall₂ (Denotes (Context.expand s) (held st.chain)) cs ts

theorem Branches.nil : Branches s st trail [] [] [] := ⟨.nil, .nil⟩

theorem Branches.single {c : Context} (ht : st.nodes.Unfolds trail x t)
    (hc : Denotes (Context.expand s) (held st.chain) c t) : Branches s st trail [x] [c] [t] :=
  ⟨.cons ht .nil, .cons hc .nil⟩

theorem drawn_add {n : Node} {cs : List Context} {ts : List Tree} (h : Done (add n) st r st')
    (hr : Ready s st trail active c (some n.id))
    (ht : ∀ t, n.shape.recursionTarget? = some t → t ∈ n.id :: trail)
    (he : c.expand s = some (n.label (n.id :: trail), cs))
    (hN : ∀ c' ∈ cs, ∀ k, c'.body = some k → k ∈ held st.chain)
    (hb : Branches s st (n.id :: trail) n.shape.children cs ts) : Drawn s trail c r st' := by
  obtain ⟨rfl, rfl⟩ := done_add.1 h
  have hext := extends_insert hr.2.1 n
  refine ⟨fun b hb => (hr.1.bodies b hb).extend hext, .node (n.label (n.id :: trail)) ts, ?_, ?_⟩
  · obtain ⟨hlen, hzip⟩ := List.forall₂_iff_zip.1 hb.unfolds
    exact .mk (by simp) ht hlen fun p hp => (hzip hp).extend hext
  · obtain ⟨hlen, hzip⟩ := List.forall₂_iff_zip.1 hb.denotes
    exact .mk he hN hlen fun p hp => hzip hp

theorem drawn_node {position : Option Position} {shape : Shape} {cs : List Context} {ts : List Tree}
    (h : Done (do add { id := x, shape := shape, tags := c.tags, location := ← location position })
      st r st')
    (hr : Ready s st trail active c (some x)) (ht : shape.recursionTarget? = none)
    (he : c.expand s = some (c.label shape.blank position, cs))
    (hN : ∀ c' ∈ cs, ∀ k, c'.body = some k → k ∈ held st.chain)
    (hb : Branches s st (x :: trail) shape.children cs ts) : Drawn s trail c r st' := by
  simp only [done_bind] at h
  obtain ⟨l, st₁, hl, h⟩ := h
  obtain ⟨rfl, rfl⟩ := done_location hl
  refine drawn_add h hr (by simp [ht]) ?_ hN hb
  rw [he, hr.2.2]
  simp [Node.label, Context.label, ht]

theorem limit_of_done_add {position : Option Position} {node : Option SourceLocation → Node}
    (h : Done (do add (node (← location position))) st r st') : st'.limit = st.limit := by
  simp only [done_bind] at h
  obtain ⟨l, st₁, hl, h⟩ := h
  obtain ⟨-, rfl⟩ := done_location hl
  obtain ⟨-, rfl⟩ := done_add.1 h
  rfl

theorem drawn_unknown {reason : String} {cause : UnknownCause} {position : Option Position}
    (h : Done (unknown reason cause id position) st r st') (hr : Ready s st trail active c id)
    (he : c.expand s = some (c.unknown reason cause position, [])) : Drawn s trail c r st' := by
  simp only [unknown, done_bind] at h
  obtain ⟨x, st₁, hx, l, st₂, hl, h⟩ := h
  obtain ⟨rfl, rfl⟩ := done_location hl
  have hr := hr.given hx
  refine drawn_add h hr (by simp [Shape.recursionTarget?]) ?_ (by simp) .nil
  rw [he, hr.2.2]
  rfl

theorem drawn_unsupported {construct : String} {detail field : Option String}
    {position : Option Position}
    (h : Done (unsupported s construct detail position field id) st r st')
    (hr : Ready s st trail active c id)
    (he : c.expand s = some (c.unknown (Construct.describe construct detail) .unsupported position, [])) :
    Drawn s trail c r st' := by
  simp only [unsupported, done_bind] at h
  obtain ⟨u, st₁, hu, h⟩ := h
  exact drawn_unknown h (hr.calm (done_report hu)) he

theorem drawn_recursiveRef {position : Option Position}
    (h : Done (recursiveRef f x position c.tags) st r st')
    (hr : Ready s st trail active c (some x)) (hf : f ∈ st.chain)
    (he : c.expand s = some ({ c.label (.recursiveRef "" f.key.name) position with
      target := c.trail.idxOf? (some f.key) }, [])) : Drawn s trail c r st' := by
  simp only [recursiveRef, done_bind, done_modify] at h
  obtain ⟨u, st₁, rfl, l, st₂, hl, h⟩ := h
  obtain ⟨rfl, rfl⟩ := done_location hl
  obtain ⟨hsane, hgrew⟩ := hr.sane.markOuter ⟨f, hf, rfl⟩
  have hr₁ := hr.grew hgrew hsane hr.bodies
  refine drawn_add h hr₁ (fun t ht => ?_) ?_ (by simp) .nil
  · obtain rfl := Option.some.inj ht
    exact hr.1.aligned.body_mem hf
  · rw [he, hr₁.2.2, ← hr.1.aligned.idxOf?_body hf]
    rfl

/-! ## Declarations -/

/-- Whatever a walk follows is yielded as what it stands for, unless the budget is used up. -/
def Draws (s : Setting) (start : Context) (follow : Follow) : Prop :=
  ∀ {c : Context} {d : DescriptionId} {id : Option NodeId} {st st' : State} {r : NodeId}
    {trail : List NodeId} {active : List DescriptionId},
    Done (follow ⟨c.types, 0⟩ d id c.tags c.field) st r st' → c.goal = .description d →
      Ready s st trail active c id → Reached (Context.expand s) start active c →
        st'.limit = none → Drawn s trail c r st'

section Following

variable {follow : Follow} {d : Declaration}

theorem names_subset_held (names : List DeclarationKey) (chain : List Frame) :
    {k | k ∈ names} ⊆ held (noteNames names chain) := by
  cases chain with
  | nil => exact Set.subset_univ _
  | cons f fs => exact fun k hk => mem_addNames.2 (.inr hk)

theorem reusable_of_drawn {fs : List Frame} {A : Arena} (hsource : Faithful s.source)
    (hd : s.source.lookup d.key = .ok (some d)) (hkey : d.key ∈ f.names)
    (ht : A.Unfolds trail f.body t)
    (hden : Denotes (Context.expand s) {k | k ∈ f.names} (Context.ofDeclaration s above d) t)
    (houter : f.outer = []) (hscoped : A.Scoped (scope (f :: fs)) f.body) :
    Reusable s A ⟨d.key, f.body, f.names⟩ := by
  have hself : A.Scoped {x | x ∈ ([] : List NodeId)} f.body := houter ▸ .of_insert hscoped
  have hw : t.Within 0 := ht.within [] hself
  exact ⟨d, t, hd, hkey, ht.of_within [] hw, hw,
    hden.moveTo [] hsource rfl hw (by simp) (by simp)⟩

theorem drawn_declaration (hshared : s.source.shared = true) (hsource : Faithful s.source)
    (hfollowed : Followed s follow) (hdraws : Draws s c₀ follow)
    (h : Done (declaration s follow d) st r st') (hst : Standing s st trail above active)
    (hd : s.source.lookup d.key = .ok (some d)) (hnew : some d.key ∉ above)
    (hreached : Reached (Context.expand s) c₀ active (Context.ofDeclaration s above d))
    (hlimit : st'.limit = none) :
    Drawn s trail (Context.ofDeclaration s above d) r st' ∧ d.key ∈ held st'.chain := by
  simp only [declaration, done_bind, done_get, done_pure, if_pos hshared] at h
  obtain ⟨body, st₁, hbody, _, _, ⟨rfl, rfl⟩, ts, st₂, hts, x, st₃, hx, u, st₄, hleave, rfl, rfl⟩ := h
  have hentered := done_enter hbody hst.sane
  obtain ⟨rfl, hcalm⟩ := done_tags hts
  have hcurrent : st₁.current = some d.key := by rw [State.current, hentered.chain]; rfl
  have hentered := hentered.calm hcalm
  have hfresh : body ∉ trail := by
    intro hmem
    obtain ⟨j, hj, -, rfl⟩ := hentered.new
    obtain ⟨k, hk, he⟩ := hst.old _ hmem
    have := numbered_injective he
    omega
  have hready : Ready s st₂ trail active (Context.ofDeclaration s above d) (some body) := by
    refine ⟨⟨hentered.sane, ?_, ?_, ?_, hentered.active.trans hst.marks⟩,
      (hentered.pending _ rfl).1, hcalm.current.trans hcurrent⟩
    · refine List.forall_mem_cons.2 ⟨(hentered.pending _ rfl).2, fun y hy => ?_⟩
      obtain ⟨k, hk, rfl⟩ := hst.old y hy
      exact ⟨k, hk.trans hentered.filed.counter, rfl⟩
    · rw [hentered.chain]
      exact .body (f := ⟨d.key, body, [], [d.key]⟩) hst.aligned hfresh hnew ⟨d, hd⟩
    · rw [hentered.bodies]
      exact fun b hb => (hst.bodies b hb).extend hentered.filed.nodes
  rw [hcurrent] at hx
  have hy := hfollowed _ _ _ _ _ _ _ _ hx hready.sane hready.pending
  obtain rfl := hy.named _ rfl
  have hchain := hy.grew.chain
  rw [hentered.chain] at hchain
  cases hc : st₃.chain with
  | nil =>
    rw [hc] at hchain
    cases hchain
  | cons f fs =>
    rw [hc] at hchain
    cases hchain with
    | cons hf hfs =>
      obtain rfl : f.body = x := hf.body
      have hkey : d.key ∈ f.names := hf.names _ List.mem_cons_self
      simp only [leave, done_modify, hc] at hleave
      subst hleave
      have hdrawn := hdraws (c := Context.ofDeclaration s above d) hx rfl hready hreached hlimit
      obtain ⟨t, ht, hden⟩ := hdrawn.tree
      rw [hc] at hden
      refine ⟨⟨?_, t, ht, hden.mono (names_subset_held _ _)⟩, names_subset_held _ _ hkey⟩
      intro b hb
      dsimp only at hb
      split at hb
      · next hempty =>
        rcases List.mem_cons.1 hb with rfl | hb
        · exact reusable_of_drawn hsource hd hkey ht hden (List.isEmpty_iff.1 hempty)
            (by rw [← hc]; exact hy.inScope)
        · exact hdrawn.bodies b hb
      · exact hdrawn.bodies b hb

theorem drawn_bodyOf {name by_ : String} (hshared : s.source.shared = true)
    (hsource : Faithful s.source) (hfollowed : Followed s follow) (hdraws : Draws s c₀ follow)
    (h : Done (bodyOf s follow name by_ d) st r st') (hst : Standing s st trail above active)
    (hd : s.source.lookup d.key = .ok (some d)) (hnew : some d.key ∉ above)
    (hreached : Reached (Context.expand s) c₀ active (Context.ofDeclaration s above d))
    (hlimit : st'.limit = none) :
    Drawn s trail (Context.ofDeclaration s above d) r st' ∧ d.key ∈ held st'.chain := by
  simp only [bodyOf, sharedBody?, done_bind, done_get] at h
  obtain ⟨out, st₁, ⟨_, _, ⟨rfl, rfl⟩, hout⟩, h⟩ := h
  have hafresh : out = none → st = st₁ → Drawn s trail (Context.ofDeclaration s above d) r st' ∧
      d.key ∈ held st'.chain := by
    rintro rfl rfl
    simp only [done_bind, done_modify] at h
    obtain ⟨u, st₂, rfl, h⟩ := h
    have hcalm : Calm st { st with events := st.events.push (.entered name by_) } :=
      ⟨rfl, rfl, rfl, rfl, rfl, rfl, rfl⟩
    exact drawn_declaration hshared hsource hfollowed hdraws h
      (hst.grew hcalm.grew (hcalm.sane hst.sane) hst.bodies) hd hnew hreached hlimit
  split at hout
  · obtain ⟨rfl, rfl⟩ := done_pure.1 hout
    exact hafresh rfl rfl
  · next b hb =>
    split at hout
    · obtain ⟨rfl, rfl⟩ := done_pure.1 hout
      exact hafresh rfl rfl
    · next hany =>
      simp only [done_bind, done_modify, done_pure] at hout
      obtain ⟨u, st₂, rfl, rfl, rfl⟩ := hout
      obtain ⟨rfl, rfl⟩ := done_pure.1 h
      obtain ⟨hmem, hkey⟩ : b ∈ st.bodies ∧ b.key = d.key := by
        split at hb
        · exact ⟨List.mem_of_find?_eq_some hb, by simpa using List.find?_some hb⟩
        · cases hb
      obtain ⟨d', t, hd', hnames, ht, hw, hden⟩ := hst.bodies b hmem
      rw [hkey] at hd' hnames
      obtain rfl := Option.some.inj (Except.ok.inj (hd'.symm.trans hd))
      have hdisjoint : ∀ k ∈ {k | k ∈ b.names}, some k ∉ above := by
        intro k hk hmem
        obtain ⟨f, hf, rfl⟩ := hst.aligned.mem_iff.1 hmem
        exact hany (List.any_eq_true.2 ⟨f, hf, List.contains_iff_mem.2 hk⟩)
      refine ⟨⟨hst.bodies, t, ht.of_within [] hw, ?_⟩, names_subset_held _ _ hnames⟩
      have hmoved := hden.moveTo [] hsource rfl hw hdisjoint
        fun k hk => hst.aligned.declared hk
      exact hmoved.mono (names_subset_held _ _)

theorem drawn_reference {name : String} {file field : Option String} {position : Option Position}
    (hshared : s.source.shared = true) (hsource : Faithful s.source) (hfollowed : Followed s follow)
    (hdraws : Draws s c₀ follow)
    (h : Done (reference s follow name file position x c.tags field) st r st')
    (hr : Ready s st trail active c (some x)) (he : c.expand s = c.reference s name file position)
    (hreached : ∀ label cs, c.expand s = some (label, cs) →
      ∀ c' ∈ cs, Reached (Context.expand s) c₀ active c')
    (hlimit : st'.limit = none) : Drawn s trail c r st' := by
  simp only [reference, done_bind, done_modify] at h
  obtain ⟨key, st₀, hkey, u, st₁, hst₁, found, st₂, hfound, h⟩ := h
  obtain ⟨rfl, rfl⟩ := done_current?.1 hkey
  have hcalm : Calm st st₁ := by
    subst hst₁
    split
    · exact ⟨rfl, rfl, rfl, rfl, rfl, rfl, rfl⟩
    · exact .refl _
  have hr₁ := hr.calm hcalm
  rw [hr.2.2, Option.getD_some] at hfound h
  cases found with
  | some f =>
    obtain ⟨hf, hkey, rfl⟩ := done_frameNamed?_some hfound
    refine drawn_recursiveRef h hr₁ hf ?_
    obtain ⟨k, hk⟩ := Option.isSome_iff_exists.1
      (List.isSome_idxOf?.2 (hr₁.1.aligned.mem_iff.2 ⟨f, hf, rfl⟩))
    rw [he, Context.reference, ← hkey, hk, hkey]
  | none =>
    obtain ⟨hnone, rfl⟩ := done_frameNamed?_none hfound
    have hnot : some ⟨file.getD c.here.file, name⟩ ∉ c.trail := by
      intro hmem
      obtain ⟨f, hf, hkey⟩ := hr₁.1.aligned.mem_iff.1 hmem
      exact hnone f hf hkey
    rw [Context.reference, List.idxOf?_eq_none_iff.2 hnot] at he
    simp only [done_bind] at h
    obtain ⟨d, st₂, hd, h⟩ := h
    obtain ⟨hd, hcalm₂⟩ := done_lookup hd
    have hr₂ := hr₁.calm hcalm₂
    rw [hd] at he
    cases d with
    | none =>
      simp only [done_bind] at h
      obtain ⟨u, st₃, hu, h⟩ := h
      exact drawn_unknown h (hr₂.calm (done_report hu)) he
    | some d =>
      rw [done_bind] at h
      obtain ⟨target, st₃, htarget, h⟩ := h
      have hkey := hsource _ _ hd
      have hy := done_bodyOf hfollowed htarget hr₂.sane
      have hlimit₃ : st₃.limit = none := limit_of_done_add h ▸ hlimit
      obtain ⟨hdrawn, hheld⟩ := drawn_bodyOf hshared hsource hfollowed hdraws htarget hr₂.1
        (hkey ▸ hd) (hkey ▸ hnot) (hreached _ _ he _ (List.mem_singleton_self _)) hlimit₃
      obtain ⟨t, ht, hden⟩ := hdrawn.tree
      refine drawn_node h (hr₂.grew hy.grew hy.sane hdrawn.bodies) rfl he ?_
        (Branches.single ht hden)
      intro c' hc' k hk
      obtain rfl := List.mem_singleton.1 hc'
      exact Option.some.inj hk ▸ hheld

/-! ## Descriptions -/

/-- Places that are followed one after the other become nodes that unfold into what they stand
for. -/
theorem branches_sequence {α β : Type} {step : α → M β} (node : β → NodeId) {place : α → Context}
    {P : α → β → Prop} {xs : List α} {ys : List β}
    (hyields : ∀ x st y st', Done (step x) st y st' → Sane s st → Yields s none st (node y) st')
    (hdrawn : ∀ x ∈ xs, ∀ st y st', Done (step x) st y st' → Ready s st trail active (place x) none →
      st'.limit = none → P x y ∧ Drawn s trail (place x) (node y) st')
    (h : Sequence step xs st ys st') (hr : ∀ x ∈ xs, Ready s st trail active (place x) none)
    (hs : Sane s st) (hb : ∀ b ∈ st.bodies, Reusable s st.nodes b) (hlimit : st'.limit = none) :
    List.Forall₂ P xs ys ∧ (∃ ts, Branches s st' trail (ys.map node) (xs.map place) ts) ∧
      ∀ b ∈ st'.bodies, Reusable s st'.nodes b := by
  induction h with
  | nil => exact ⟨.nil, ⟨_, .nil⟩, hb⟩
  | @cons x xs y ys st st₁ st' hx hxs ih =>
    have hy := hyields _ _ _ _ hx hs
    obtain ⟨-, hg, -⟩ := yields_sequence node hyields hxs hy.sane
    obtain ⟨hP, hd⟩ := hdrawn x List.mem_cons_self _ _ _ hx (hr x List.mem_cons_self)
      (hg.limit hlimit)
    obtain ⟨hPs, ⟨ts, hts⟩, hbodies⟩ := ih (fun x hx => hdrawn x (List.mem_cons_of_mem _ hx))
      (fun x hx => (hr x (List.mem_cons_of_mem _ hx)).grew hy.grew hy.sane hd.bodies) hy.sane
      hd.bodies hlimit
    obtain ⟨t, ht, hden⟩ := hd.tree
    refine ⟨.cons hP hPs, ⟨t :: ts, .cons (ht.extend hg.nodes) hts.unfolds,
      .cons (hden.mono (Later.held hg.chain)) hts.denotes⟩, hbodies⟩

theorem Ready.below {c' : Context} (hr : Ready s st trail active c (some x))
    (habove : c'.above = c.trail) (hbody : c'.body = none) (hhere : c'.here = c.here) :
    Ready s st (x :: trail) active c' none :=
  ⟨habove ▸ hr.1, hbody, hhere ▸ hr.2.2⟩

theorem drawn_fieldType {fd : FieldDescription} (hdraws : Draws s c₀ follow)
    (h : Done (fieldType s follow ⟨c.types, 0⟩ fd) st r st')
    (hr : Ready s st (x :: trail) active (c.fieldType fd) none)
    (hreached : Reached (Context.expand s) c₀ active (c.fieldType fd)) (hlimit : st'.limit = none) :
    Drawn s (x :: trail) (c.fieldType fd) r st' := by
  unfold fieldType at h
  split at h
  · next hnone =>
    refine drawn_unsupported h hr ?_
    simp only [Context.expand, Context.fieldType, hnone]
    rfl
  · next i hi =>
    have hgoal : (c.fieldType fd).goal = .description i := by simp only [Context.fieldType, hi]
    exact hdraws (c := c.fieldType fd) h hgoal hr hreached hlimit

theorem drawn_field {fd : FieldDescription} {out : Field} (hfollowed : Followed s follow)
    (hdraws : Draws s c₀ follow) (h : Done (field s follow ⟨c.types, 0⟩ (.ok fd)) st out st')
    (hr : Ready s st (x :: trail) active (c.fieldType fd) none)
    (hreached : Reached (Context.expand s) c₀ active (c.fieldType fd)) (hlimit : st'.limit = none) :
    { out with type := "" } = c.fieldOf s fd ∧ Drawn s (x :: trail) (c.fieldType fd) out.type st' := by
  simp only [field, done_bind] at h
  obtain ⟨f, st₁, hf, ts, st₂, hts, type, st₃, htype, l, st₄, hl, h⟩ := h
  obtain ⟨he, rfl⟩ := done_lift.1 hf
  obtain rfl := Except.ok.inj he
  obtain ⟨rfl, hcalm⟩ := done_tags hts
  obtain ⟨rfl, rfl⟩ := done_location hl
  obtain ⟨rfl, rfl⟩ := done_pure.1 h
  have hhere : st.current = some c.here := hr.2.2
  have hr := hr.calm hcalm
  have hy := done_fieldType hfollowed htype hr.sane
  refine ⟨?_, drawn_fieldType hdraws htype hr hreached hlimit⟩
  rw [Later.current hy.grew.chain, hcalm.current, hhere]
  rfl

theorem exists_fields_of_sequence {site : Site} {fs : List (Attempt FieldDescription)}
    {outs : List Field} (h : Sequence (field s follow site) fs st outs st') :
    ∃ fds, fs.mapM Except.toOption = some fds ∧
      Sequence (fun fd => field s follow site (.ok fd)) fds st outs st' := by
  induction h with
  | nil => exact ⟨[], rfl, .nil⟩
  | @cons f fs out outs st st₁ st' hf _ ih =>
    obtain ⟨fds, hfds, hseq⟩ := ih
    have hdone := hf
    simp only [field, done_bind] at hf
    obtain ⟨fd, st₂, hfd, -⟩ := hf
    obtain ⟨rfl, rfl⟩ := done_lift.1 hfd
    refine ⟨fd :: fds, ?_, .cons hdone hseq⟩
    rw [List.mapM_cons, hfds]
    rfl

theorem branches_children {ids : List DescriptionId} {xs : List NodeId} (hfollowed : Followed s follow)
    (hdraws : Draws s c₀ follow)
    (h : Done (ids.mapM fun i => follow ⟨c.types, 0⟩ i none [] c.field) st xs st')
    (hr : Ready s st trail active c (some x))
    (hreached : ∀ c' ∈ ids.map c.child, Reached (Context.expand s) c₀ active c')
    (hlimit : st'.limit = none) :
    Ready s st' trail active c (some x) ∧ xs.map (fun _ => "") = ids.map (fun _ => "") ∧
      (∀ c' ∈ ids.map c.child, ∀ k, c'.body = some k → k ∈ held st'.chain) ∧
      ∃ ts, Branches s st' (x :: trail) xs (ids.map c.child) ts := by
  have hyields : ∀ i st y st', Done (follow ⟨c.types, 0⟩ i none [] c.field) st y st' → Sane s st →
      Yields s none st y st' := fun _ _ _ _ h hs => hfollowed _ _ _ _ _ _ _ _ h hs (pending_none _)
  obtain ⟨hs', hg, -⟩ := yields_sequence (fun y => y) hyields (done_mapM.1 h) hr.sane
  obtain ⟨-, ⟨ts, hts⟩, hbodies⟩ := branches_sequence (P := fun _ _ => True) (fun y => y) hyields
    (fun i hi st y st' h hr hlimit => ⟨trivial, hdraws (c := c.child i) h rfl hr
      (hreached _ (List.mem_map_of_mem hi)) hlimit⟩)
    (done_mapM.1 h) (fun i _ => hr.below rfl rfl rfl) hr.sane hr.bodies hlimit
  rw [List.map_id'] at hts
  refine ⟨hr.grew hg hs' hbodies, ?_, fun c' hc' k hk => ?_, ts, hts⟩
  · rw [List.map_const', List.map_const', hts.unfolds.length_eq, ← hts.denotes.length_eq,
      List.length_map]
  · obtain ⟨i, -, rfl⟩ := List.mem_map.1 hc'
    cases hk

theorem branches_fields {fs : List (Attempt FieldDescription)} {outs : List Field}
    (hfollowed : Followed s follow) (hdraws : Draws s c₀ follow)
    (h : Done (fs.mapM (field s follow ⟨c.types, 0⟩)) st outs st')
    (hr : Ready s st trail active c (some x))
    (hreached : ∀ fds, fs.mapM Except.toOption = some fds →
      ∀ c' ∈ fds.map c.fieldType, Reached (Context.expand s) c₀ active c')
    (hlimit : st'.limit = none) :
    ∃ fds, fs.mapM Except.toOption = some fds ∧ Ready s st' trail active c (some x) ∧
      outs.map (fun f => { f with type := "" }) = fds.map (c.fieldOf s) ∧
      (∀ c' ∈ fds.map c.fieldType, ∀ k, c'.body = some k → k ∈ held st'.chain) ∧
      ∃ ts, Branches s st' (x :: trail) (outs.map Field.type) (fds.map c.fieldType) ts := by
  obtain ⟨fds, hfds, hseq⟩ := exists_fields_of_sequence (done_mapM.1 h)
  have hyields : ∀ fd st out st', Done (field s follow ⟨c.types, 0⟩ (.ok fd)) st out st' → Sane s st →
      Yields s none st out.type st' := fun _ _ _ _ h hs => done_field hfollowed h hs
  obtain ⟨hs', hg, -⟩ := yields_sequence Field.type hyields hseq hr.sane
  have hdrawn : ∀ fd ∈ fds, ∀ st out st', Done (field s follow ⟨c.types, 0⟩ (.ok fd)) st out st' →
      Ready s st (x :: trail) active (c.fieldType fd) none → st'.limit = none →
        { out with type := "" } = c.fieldOf s fd ∧
          Drawn s (x :: trail) (c.fieldType fd) out.type st' :=
    fun fd hfd st out st' h hr hlimit => drawn_field hfollowed hdraws h hr
      (hreached _ hfds _ (List.mem_map_of_mem hfd)) hlimit
  obtain ⟨houts, ⟨ts, hts⟩, hbodies⟩ := branches_sequence Field.type hyields hdrawn hseq
    (fun fd _ => hr.below rfl rfl rfl) hr.sane hr.bodies hlimit
  refine ⟨fds, hfds, hr.grew hg hs' hbodies, ?_, fun c' hc' k hk => ?_, ts, hts⟩
  · rw [← List.forall₂_eq_eq_eq, List.forall₂_map_left_iff, List.forall₂_map_right_iff]
    exact houts.flip
  · obtain ⟨fd, -, rfl⟩ := List.mem_map.1 hc'
    cases hk

theorem drawn_build {d : Description} {i : DescriptionId} (hshared : s.source.shared = true)
    (hsource : Faithful s.source) (hfollowed : Followed s follow) (hdraws : Draws s c₀ follow)
    (h : Done (build s follow ⟨c.types, 0⟩ d x c.tags c.field) st r st')
    (hgoal : c.goal = .description i) (hget : c.types.get i = .ok d)
    (hr : Ready s st trail active c (some x))
    (hreached : ∀ label cs, c.expand s = some (label, cs) →
      ∀ c' ∈ cs, Reached (Context.expand s) c₀ active c')
    (hlimit : st'.limit = none) : Drawn s trail c r st' := by
  have he : c.expand s = c.parts s d := by simp [Context.expand, hgoal, hget, Except.toOption]
  have hyields : ∀ e st y st', Done (follow ⟨c.types, 0⟩ e none [] c.field) st y st' → Sane s st →
      Yields s none st y st' := fun _ _ _ _ h hs => hfollowed _ _ _ _ _ _ _ _ h hs (pending_none _)
  have hchild (e : DescriptionId) : Ready s st (x :: trail) active (c.child e) none :=
    hr.below rfl rfl rfl
  unfold build at h
  dsimp only at h
  split at h
  · next p hs =>
    simp only [Context.parts, hs] at he
    exact drawn_node h hr rfl he (by simp) .nil
  · next k v hs =>
    simp only [Context.parts, hs] at he
    exact drawn_node h hr rfl he (by simp) .nil
  · next e hs =>
    simp only [Context.parts, hs] at he
    rw [done_bind] at h
    obtain ⟨y, st₁, hy, h⟩ := h
    have hdrawn := hdraws (c := c.child e) hy rfl (hchild e)
      (hreached _ _ he _ (List.mem_singleton_self _)) (limit_of_done_add h ▸ hlimit)
    have hy := hyields _ _ _ _ hy hr.sane
    obtain ⟨t, ht, hden⟩ := hdrawn.tree
    refine drawn_node h (hr.grew hy.grew hy.sane hdrawn.bodies) rfl he ?_ (.single ht hden)
    intro c' hc' k hk
    obtain rfl := List.mem_singleton.1 hc'
    cases hk
  · next es hs =>
    simp only [Context.parts, hs] at he
    rw [done_bind] at h
    obtain ⟨ys, st₁, hys, h⟩ := h
    obtain ⟨hr₁, hblank, hN, ts, hts⟩ := branches_children hfollowed hdraws hys hr (hreached _ _ he)
      (limit_of_done_add h ▸ hlimit)
    refine drawn_node h hr₁ rfl ?_ hN hts
    rw [he, Shape.blank, hblank]
  · next fs hs => 
    simp only [Context.parts, hs] at he
    rw [done_bind] at h
    obtain ⟨outs, st₁, houts, h⟩ := h
    obtain ⟨fds, hfds, hr₁, hblank, hN, ts, hts⟩ := branches_fields hfollowed hdraws houts hr
      (fun fds hfds => by
        rw [hfds] at he
        exact hreached _ _ he) (limit_of_done_add h ▸ hlimit)
    rw [hfds, Option.map_some] at he
    refine drawn_node h hr₁ rfl ?_ hN hts
    rw [he, Shape.blank, hblank]
  · next ms hs =>
    simp only [Context.parts, hs] at he
    rw [done_bind] at h
    obtain ⟨ys, st₁, hys, h⟩ := h
    obtain ⟨hr₁, hblank, hN, ts, hts⟩ := branches_children hfollowed hdraws hys hr (hreached _ _ he)
      (limit_of_done_add h ▸ hlimit)
    refine drawn_node h hr₁ rfl ?_ hN hts
    rw [he, Shape.blank, hblank]
  · next ms hs =>
    simp only [Context.parts, hs] at he
    rw [done_bind] at h
    obtain ⟨ys, st₁, hys, h⟩ := h
    obtain ⟨hr₁, hblank, hN, ts, hts⟩ := branches_children hfollowed hdraws hys hr (hreached _ _ he)
      (limit_of_done_add h ▸ hlimit)
    refine drawn_node h hr₁ rfl ?_ hN hts
    rw [he, Shape.blank, hblank]
  · next ms hs =>
    simp only [Context.parts, hs] at he
    rw [done_bind] at h
    obtain ⟨out, st₁, hout, h⟩ := h
    obtain ⟨hms, rfl⟩ := done_lift.1 hout
    rw [hms] at he
    cases out with
    | ok ms => exact drawn_node h hr rfl he (by simp) .nil
    | error detail => exact drawn_unsupported h hr he
  · next name file hs =>
    simp only [Context.parts, hs] at he
    exact drawn_reference hshared hsource hfollowed hdraws h hr he hreached hlimit
  · next construct detail hs =>
    simp only [Context.parts, hs] at he
    exact drawn_unsupported h hr he

end Following

/-- Following a description that is never met inside itself, by induction on the fuel. -/
theorem draws_follow (hshared : s.source.shared = true) (hsource : Faithful s.source)
    (hunwound : Unwound (Context.expand s) c₀) (fuel : ℕ) : Draws s c₀ (follow s fuel) := by
  induction fuel with
  | zero =>
    intro c d id st st' r trail active h
    exact absurd h not_done_throw
  | succ fuel ih =>
    intro c d id st st' r trail active h hgoal hr hreached hlimit
    simp only [follow, done_bind] at h
    obtain ⟨u, st₁, hu, out, st₂, hout, h⟩ := h
    have hr := hr.calm (done_checkDeadline hu)
    rcases done_limited? hout hr.sane hr.pending with ⟨rfl, rfl, -⟩ | ⟨y, rfl, -, hlate⟩
    · simp only [done_bind, done_get] at h
      obtain ⟨_, _, ⟨rfl, rfl⟩, h⟩ := h
      have hnew : (0, d) ∉ st₁.active :=
        fun hmem => hunwound _ _ _ hreached hgoal (hr.mem_active.1 hmem)
      rw [if_neg (by simpa using hnew)] at h
      simp only [done_bind, done_modify, done_pure] at h
      obtain ⟨u, st₂, rfl, x, st₃, hx, d', st₄, hd, y, st₅, hy, u', st₆, rfl, rfl, rfl⟩ := h
      obtain ⟨hget, rfl⟩ := done_lift.1 hd
      have hgiven := (hr.push d).given hx
      have hdrawn := drawn_build hshared hsource (followed_follow _) ih hy hgoal hget hgiven
        (fun label cs he c' hc' => hreached.inside hgoal he hc') hlimit
      exact ⟨hdrawn.bodies, hdrawn.tree⟩
    · obtain ⟨rfl, rfl⟩ := done_pure.1 h
      exact absurd hlimit hlate

def Context.start (s : Setting) (file : String) : Context :=
  match s.source.lookup ⟨file, s.symbol⟩ with
  | .ok (some d) => .ofDeclaration s [] d
  | _ =>
    { here := ⟨file, s.symbol⟩, types := #[]
      goal := .leaf { shape := .unknown ("unresolved " ++ s.symbol) .unresolved } }

theorem exists_unfolds_of_done_root {file : String} {deadline : Option Deadline}
    (hshared : s.source.shared = true) (hsource : Faithful s.source)
    (hunwound : Unwound (Context.expand s) (Context.start s file))
    (h : Done (root s file) { deadline } r st) (hlimit : st.limit = none) :
    ∃ t, st.nodes.Unfolds [] r t ∧
      Denotes (Context.expand s) Set.univ (Context.start s file) t := by
  simp only [root, done_bind] at h
  obtain ⟨d, st₁, hd, h⟩ := h
  obtain ⟨hd, hcalm⟩ := done_lookup hd
  cases d with
  | some d =>
    have hkey := hsource _ _ hd
    have hstart : Context.start s file = Context.ofDeclaration s [] d := by
      rw [Context.start, hd]
    rw [hstart] at hunwound ⊢
    have hst : Standing s st₁ [] [] [] := by
      refine ⟨hcalm.sane sane_initial, by simp, ?_, ?_, ?_⟩
      · rw [hcalm.chain]
        exact .nil
      · simp [hcalm.bodies]
      · simp [hcalm.active]
    obtain ⟨hdrawn, -⟩ := drawn_declaration hshared hsource (followed_follow _)
      (draws_follow hshared hsource hunwound _) h hst (hkey ▸ hd) List.not_mem_nil .start hlimit
    obtain ⟨t, ht, hden⟩ := hdrawn.tree
    exact ⟨t, ht, hden.mono (Set.subset_univ _)⟩
  | none =>
    simp only [done_bind, done_modify, unknown] at h
    obtain ⟨u, st₂, rfl, x, st₃, -, l, st₄, hl, h⟩ := h
    obtain ⟨rfl, rfl⟩ := done_location hl
    obtain ⟨rfl, rfl⟩ := done_add.1 h
    have hstart : Context.expand s (Context.start s file) =
        some ({ shape := .unknown ("unresolved " ++ s.symbol) .unresolved }, []) := by
      rw [Context.start, hd]
      rfl
    have hnone : locationAt st₃.current none = none := by cases st₃.current <;> rfl
    rw [hnone]
    refine ⟨.node { shape := .unknown ("unresolved " ++ s.symbol) .unresolved } [], ?_,
      .mk hstart (by simp) rfl (by simp)⟩
    exact .mk (n := { id := r, shape := .unknown ("unresolved " ++ s.symbol) .unresolved }) (by simp)
      (by simp [Shape.recursionTarget?]) rfl (by simp [Shape.children])

end TypeAtlas.Resolution

namespace TypeAtlas

open Resolution

theorem DeclarationTable.faithful_source (table : DeclarationTable) : Faithful table.source := by
  intro k d h
  have hfind : table.find? (fun d => d.key = k) = some d := Except.ok.inj h
  simpa using List.find?_some hfind

/-- A graph within the budget unfolds into the tree that the symbol stands for. -/
theorem exists_unfolds_of_resolve {table : DeclarationTable} {vocabulary : Vocabulary}
    {maxNodes : Int} {file symbol : String} {deadline : Option Deadline} {sharing : Bool}
    {o : Outcome Graph} {g : Graph}
    (h : (resolve table.source vocabulary maxNodes file symbol deadline sharing).1 = .ok o)
    (hg : o.value = some g) (hsize : g.nodes.size ≤ maxNodes)
    (hunwound : Unwound (Context.expand ⟨table.source, vocabulary, maxNodes, symbol, sharing⟩)
      (Context.start ⟨table.source, vocabulary, maxNodes, symbol, sharing⟩ file)) :
    ∃ t, g.Unfolds t ∧ Denotes (Context.expand ⟨table.source, vocabulary, maxNodes, symbol, sharing⟩)
      Set.univ (Context.start ⟨table.source, vocabulary, maxNodes, symbol, sharing⟩ file) t := by
  obtain ⟨r, st, hrun, rfl⟩ := exists_done_of_resolve h
  obtain rfl := Option.some.inj hg
  refine exists_unfolds_of_done_root rfl table.faithful_source hunwound hrun ?_
  have hsane := (done_root hrun sane_initial).sane
  cases hl : st.limit with
  | none => rfl
  | some x => exact absurd hsize (not_le.2 (hsane.limit x hl).2)

/-- Whether bodies are shared or resolved anew wherever they are used makes no difference to what the
graph unfolds into, provided that no description is met inside itself and that neither graph uses up
the budget. -/
theorem exists_unfolds_sharing {table : DeclarationTable} {vocabulary : Vocabulary} {maxNodes : Int}
    {file symbol : String} {deadline deadline' : Option Deadline} {o o' : Outcome Graph}
    {g g' : Graph}
    (h : (resolve table.source vocabulary maxNodes file symbol deadline true).1 = .ok o)
    (h' : (resolve table.source vocabulary maxNodes file symbol deadline' false).1 = .ok o')
    (hg : o.value = some g) (hg' : o'.value = some g') (hsize : g.nodes.size ≤ maxNodes)
    (hsize' : g'.nodes.size ≤ maxNodes)
    (hunwound : Unwound (Context.expand ⟨table.source, vocabulary, maxNodes, symbol, true⟩)
      (Context.start ⟨table.source, vocabulary, maxNodes, symbol, true⟩ file)) :
    ∃ t, g.Unfolds t ∧ g'.Unfolds t := by
  obtain ⟨t, ht, hden⟩ := exists_unfolds_of_resolve h hg hsize hunwound
  obtain ⟨t', ht', hden'⟩ := exists_unfolds_of_resolve h' hg' hsize' hunwound
  obtain rfl := hden.unique hden'
  exact ⟨t, ht, ht'⟩

/-- Which declaration of the forest a description belongs to. -/
def forestOwner (i : DescriptionId) : DeclarationKey :=
  ⟨"forest.ts", if i ≤ 2 then "Node" else if i ≤ 8 then "Tree" else "Label"⟩

theorem ranked_forest : Ranked forest.source forestOwner (fun i => 9 - i) := by
  have hmem : ∀ k d, forest.source.lookup k = .ok (some d) → d ∈ forest := fun k d h =>
    List.mem_of_find?_eq_some (Except.ok.inj h)
  have hroot : ∀ d ∈ forest, forestOwner d.type = d.key := by
    simp [forest, Declaration.key, forestOwner]
  have hchild : ∀ d ∈ forest, d.types.size = 10 ∧ ∀ i < 10,
      ∀ j ∈ ((d.types.get i).toOption.map fun desc => desc.shape.children).getD [],
        forestOwner j = forestOwner i ∧ 9 - j < 9 - i := by
    decide
  refine ⟨fun k d h => hroot d (hmem k d h), fun k d h i desc hget j hj => ?_⟩
  obtain ⟨hsize, hall⟩ := hchild d (hmem k d h)
  have hlt : i < 10 := by
    by_contra hge
    simp [Descriptions.get, Array.getElem?_eq_none (hsize ▸ not_lt.1 hge)] at hget
  exact hall i hlt j (by simpa [hget, Except.toOption] using hj)

theorem exists_unfolds_sharing_forest :
    ∃ o o' g g', (resolve forest.source default 100 "forest.ts" "Node" none true).1 = .ok o ∧
      (resolve forest.source default 100 "forest.ts" "Node" none false).1 = .ok o' ∧
      o.value = some g ∧ o'.value = some g' ∧ ∃ t, g.Unfolds t ∧ g'.Unfolds t := by
  have hrun : ((resolve forest.source default 100 "forest.ts" "Node" none true).1.toOption.bind
      Outcome.value).any (fun g => decide ((g.nodes.size : Int) ≤ 100)) = true := by decide +kernel
  have hrun' : ((resolve forest.source default 100 "forest.ts" "Node" none false).1.toOption.bind
      Outcome.value).any (fun g => decide ((g.nodes.size : Int) ≤ 100)) = true := by decide +kernel
  obtain ⟨o, g, ho, hg, hsize⟩ := exists_graph_of_any hrun
  obtain ⟨o', g', ho', hg', hsize'⟩ := exists_graph_of_any hrun'
  refine ⟨o, o', g, g', ho, ho', hg, hg', exists_unfolds_sharing ho ho' hg hg'
    (by simpa using hsize) (by simpa using hsize') ?_⟩
  exact unwound_of_ranked ranked_forest forest.faithful_source rfl

end TypeAtlas
