import TypeAtlas.Declaration.Memory
import TypeAtlas.Proofs.Graph.WellFormed
import TypeAtlas.Proofs.Number.Decimal
import TypeAtlas.Proofs.Resolution.Done

/-! # Resolved graphs are well-formed

A walk adds nodes after those that they are built from, under names that were never used, and notes
for each declaration to which enclosing ones it refers back. A body is shared only when it refers
back to none, so wherever it is reached from, what stands below it is in scope.
-/

namespace TypeAtlas.Resolution

variable {s : Setting} {st st' st'' : State} {chain chain' : List Frame} {body x r : NodeId}
  {id : Option NodeId} {n : Node} {f g : Frame} {k m : ℕ}

/-! ## Names -/

/-- The name that is given out with a number. -/
def numbered (n : ℕ) : NodeId := "r" ++ toString n

theorem numbered_injective : Function.Injective numbered := by
  intro m n h
  have hdigits : decimalDigits m = decimalDigits n := by
    simpa [numbered, decimalDigits, toString, Nat.repr] using congrArg String.toList h
  rw [← digitsNat_decimalDigits m, hdigits, digitsNat_decimalDigits]

/-! ## Chains -/

/-- The nodes that recursive references in the declaration at hand may name: its body, and the
bodies of enclosing declarations that it refers back to. -/
def scope : List Frame → Set NodeId
  | [] => ∅
  | f :: _ => insert f.body {x | x ∈ f.outer}

/-- A declaration refers back to the body of the one around it, or to what that one refers back
to. -/
def Nested : List Frame → Prop
  | [] => True
  | f :: fs => (∀ x ∈ f.outer, x ∈ scope fs) ∧ Nested fs

/-- The second frame is the first one at a later time. -/
structure Frame.Later (f g : Frame) : Prop where
  key : g.key = f.key
  body : g.body = f.body
  outer : ∀ x ∈ f.outer, x ∈ g.outer
  names : ∀ k ∈ f.names, k ∈ g.names

theorem Frame.Later.refl (f : Frame) : f.Later f := ⟨rfl, rfl, fun _ h => h, fun _ h => h⟩

theorem Frame.Later.trans {h : Frame} (hfg : f.Later g) (hgh : g.Later h) : f.Later h :=
  ⟨hgh.key.trans hfg.key, hgh.body.trans hfg.body, fun x hx => hgh.outer x (hfg.outer x hx),
    fun k hk => hgh.names k (hfg.names k hk)⟩

/-- The second chain is the first one at a later time. -/
abbrev Later (chain chain' : List Frame) : Prop := List.Forall₂ Frame.Later chain chain'

theorem Later.refl (chain : List Frame) : Later chain chain :=
  List.forall₂_same.2 fun f _ => .refl f

theorem Later.trans {chain'' : List Frame} (h : Later chain chain') (h' : Later chain' chain'') :
    Later chain chain'' := by
  induction h generalizing chain'' with
  | nil => exact h'
  | cons hf _ ih =>
    cases h' with
    | cons hg h' => exact .cons (hf.trans hg) (ih h')

theorem Later.scope (h : Later chain chain') : scope chain ⊆ scope chain' := by
  cases h with
  | nil => exact Set.Subset.rfl
  | cons hf _ =>
    rintro x (rfl | hx)
    · exact .inl hf.body.symm
    · exact .inr (hf.outer x hx)

theorem Later.exists_body (h : Later chain chain') (hx : ∃ f ∈ chain, f.body = x) :
    ∃ f ∈ chain', f.body = x := by
  obtain ⟨f, hf, rfl⟩ := hx
  obtain ⟨i, hi, rfl⟩ := List.getElem_of_mem hf
  exact ⟨_, List.getElem_mem (h.length_eq ▸ hi), (h.get hi (h.length_eq ▸ hi)).body⟩

theorem later_markOuter (body : NodeId) (chain : List Frame) :
    Later chain (markOuter body chain) := by
  induction chain with
  | nil => exact .nil
  | cons f fs ih =>
    rw [markOuter]
    split
    · exact .refl _
    · refine .cons ⟨rfl, rfl, fun x hx => ?_, fun _ h => h⟩ ih
      dsimp only
      split
      · exact hx
      · exact List.mem_cons_of_mem _ hx

theorem mem_scope_markOuter (h : ∃ f ∈ chain, f.body = body) :
    body ∈ scope (markOuter body chain) := by
  obtain ⟨f, hf, he⟩ := h
  cases chain with
  | nil => cases hf
  | cons g gs =>
    rw [markOuter]
    split
    · next hg => exact .inl hg.symm
    · refine .inr ?_
      change body ∈ if g.outer.contains body then g.outer else body :: g.outer
      split
      · next hc => simpa using hc
      · exact List.mem_cons_self

theorem Nested.markOuter (h : Nested chain) (hb : ∃ f ∈ chain, f.body = body) :
    Nested (markOuter body chain) := by
  induction chain with
  | nil => exact h
  | cons g gs ih =>
    rw [Resolution.markOuter]
    split
    · exact h
    · next hg =>
      have hb' : ∃ f ∈ gs, f.body = body := by
        obtain ⟨f, hf, he⟩ := hb
        rcases List.mem_cons.1 hf with rfl | hf
        · exact absurd he hg
        · exact ⟨f, hf, he⟩
      refine ⟨fun x hx => ?_, ih h.2 hb'⟩
      have hold : ∀ x ∈ g.outer, x ∈ scope (Resolution.markOuter body gs) :=
        fun x hx => (later_markOuter body gs).scope (h.1 x hx)
      dsimp only at hx
      split at hx
      · exact hold x hx
      · rcases List.mem_cons.1 hx with rfl | hx
        · exact mem_scope_markOuter hb'
        · exact hold x hx

theorem mem_addNames {names more : List DeclarationKey} {k : DeclarationKey} :
    k ∈ addNames names more ↔ k ∈ names ∨ k ∈ more := by
  unfold addNames
  induction more generalizing names with
  | nil => simp
  | cons l more ih =>
    rw [List.foldl_cons, ih]
    split
    · next hc =>
      have hl : l ∈ names := by simpa using hc
      constructor
      · rintro (h | h)
        · exact .inl h
        · exact .inr (List.mem_cons_of_mem _ h)
      · rintro (h | h)
        · exact .inl h
        · rcases List.mem_cons.1 h with rfl | h
          · exact .inl hl
          · exact .inr h
    · simp only [List.mem_append, List.mem_cons, List.not_mem_nil, or_false, or_assoc]

theorem later_noteNames (more : List DeclarationKey) (chain : List Frame) :
    Later chain (noteNames more chain) := by
  cases chain with
  | nil => exact .nil
  | cons f fs => exact .cons ⟨rfl, rfl, fun _ h => h, fun k hk => mem_addNames.2 (.inl hk)⟩ (Later.refl fs)

theorem Nested.noteNames (h : Nested chain) (more : List DeclarationKey) :
    Nested (noteNames more chain) := by
  cases chain with
  | nil => exact h
  | cons f fs => exact h

/-! ## Invariants -/

/-- What holds of every state of a walk. -/
structure Sane (s : Setting) (st : State) : Prop where
  grown : st.nodes.Grown
  numbered : ∀ x ∈ st.nodes, ∃ k ≤ st.counter, x = numbered k
  nested : Nested st.chain
  target : ∀ (x : NodeId) (n : Node), st.nodes[x]? = some n → ∀ t, n.shape.recursionTarget? = some t →
    t ∈ st.nodes ∨ ∃ f ∈ st.chain, f.body = t
  bodies : ∀ b ∈ st.bodies, st.nodes.Scoped ∅ b.body
  limit : ∀ x, st.limit = some x → st.nodes.Scoped ∅ x ∧ s.maxNodes < st.nodes.size

/-- Nodes were added under new names, except perhaps one under a name that was given out before. -/
structure Filed (id : Option NodeId) (st st' : State) : Prop where
  nodes : Extends st.nodes st'.nodes
  counter : st.counter ≤ st'.counter
  fresh : ∀ x ∈ st'.nodes, x ∈ st.nodes ∨ id = some x ∨
    ∃ k, st.counter < k ∧ k ≤ st'.counter ∧ x = numbered k
  limit : st'.limit = none → st.limit = none

/-- A step inside the declaration at hand. -/
structure Grew (id : Option NodeId) (st st' : State) : Prop extends Filed id st st' where
  chain : Later st.chain st'.chain
  active : st'.active = st.active

/-- A name that was given out for a node which is not there yet. -/
def Pending (st : State) (id : Option NodeId) : Prop :=
  ∀ x, id = some x → x ∉ st.nodes ∧ ∃ k ≤ st.counter, x = numbered k

theorem Grew.refl (st : State) : Grew none st st :=
  ⟨⟨.refl _, le_rfl, fun _ h => .inl h, fun h => h⟩, .refl _, rfl⟩

theorem Filed.trans {id' : Option NodeId} (h : Filed none st st') (h' : Filed id' st' st'')
    (hid : ∀ x, id' = some x → id = some x ∨
      ∃ k, st.counter < k ∧ k ≤ st'.counter ∧ x = numbered k) : Filed id st st'' where
  nodes := h.nodes.trans h'.nodes
  counter := h.counter.trans h'.counter
  limit hl := h.limit (h'.limit hl)
  fresh x hx := by
    rcases h'.fresh x hx with hx | hx | ⟨k, hk, hle, rfl⟩
    · rcases h.fresh x hx with hx | hx | ⟨k, hk, hle, rfl⟩
      · exact .inl hx
      · cases hx
      · exact .inr (.inr ⟨k, hk, hle.trans h'.counter, rfl⟩)
    · rcases hid x hx with hx | ⟨k, hk, hle, rfl⟩
      · exact .inr (.inl hx)
      · exact .inr (.inr ⟨k, hk, hle.trans h'.counter, rfl⟩)
    · exact .inr (.inr ⟨k, h.counter.trans_lt hk, hle, rfl⟩)

theorem Grew.trans {id' : Option NodeId} (h : Grew none st st') (h' : Grew id' st' st'')
    (hid : ∀ x, id' = some x → id = some x ∨
      ∃ k, st.counter < k ∧ k ≤ st'.counter ∧ x = numbered k) : Grew id st st'' :=
  ⟨h.toFiled.trans h'.toFiled hid, h.chain.trans h'.chain, h'.active.trans h.active⟩

theorem Grew.then (h : Grew none st st') (h' : Grew id st' st'') : Grew id st st'' :=
  h.trans h' fun _ => .inl

theorem pending_none (st : State) : Pending st none := fun _ h => by cases h

theorem Pending.filed (h : Pending st id) (hg : Filed none st st') : Pending st' id := by
  intro x hx
  obtain ⟨hnew, k, hk, rfl⟩ := h x hx
  refine ⟨fun hmem => ?_, k, hk.trans hg.counter, rfl⟩
  rcases hg.fresh _ hmem with hmem | hmem | ⟨j, hj, -, he⟩
  · exact hnew hmem
  · cases hmem
  · have := numbered_injective he
    omega

theorem Grew.scoped {E : Set NodeId} (h : Grew id st st') (hx : st.nodes.Scoped E x)
    (hE : E ⊆ scope st'.chain) : st'.nodes.Scoped (scope st'.chain) x := hx.mono h.nodes hE

theorem Grew.scoped_here (h : Grew id st st') (hx : st.nodes.Scoped (scope st.chain) x) :
    st'.nodes.Scoped (scope st'.chain) x := h.scoped hx h.chain.scope

theorem Calm.grew (h : Calm st st') : Grew none st st' where
  nodes := h.nodes ▸ .refl _
  counter := h.counter.ge
  fresh _ hx := .inl (h.nodes ▸ hx)
  limit hl := h.limit ▸ hl
  chain := h.chain ▸ .refl _
  active := h.active

theorem Calm.sane (h : Calm st st') (hs : Sane s st) : Sane s st' where
  grown := h.nodes ▸ hs.grown
  numbered := by rw [h.nodes, h.counter]; exact hs.numbered
  nested := h.chain ▸ hs.nested
  target := by rw [h.nodes, h.chain]; exact hs.target
  bodies := by rw [h.nodes, h.bodies]; exact hs.bodies
  limit := by rw [h.nodes, h.limit]; exact hs.limit

/-- A step that is asked for a node, under the given name if there is one, yields it. -/
structure Yields (s : Setting) (id : Option NodeId) (st : State) (r : NodeId) (st' : State) : Prop where
  sane : Sane s st'
  grew : Grew id st st'
  inScope : st'.nodes.Scoped (scope st'.chain) r
  named : ∀ x, id = some x → r = x

theorem Yields.of_grew (h : Grew none st st') (hy : Yields s id st' r st'') : Yields s id st r st'' :=
  ⟨hy.sane, h.then hy.grew, hy.inScope, hy.named⟩

/-! ## Nodes -/

theorem done_newId (h : Done newId st r st') :
    r = numbered (st.counter + 1) ∧ st' = { st with counter := st.counter + 1 } := by
  simp only [newId, done_bind, done_modify, done_get, done_pure] at h
  obtain ⟨u, st₁, rfl, st₂, st₃, ⟨rfl, rfl⟩, rfl, rfl⟩ := h
  exact ⟨rfl, rfl⟩

theorem done_add : Done (add n) st r st' ↔
    r = n.id ∧ st' = { st with nodes := st.nodes.insert n.id n } := by
  simp only [add, done_bind, done_modify, done_pure]
  constructor
  · rintro ⟨u, st₁, rfl, rfl, rfl⟩
    exact ⟨rfl, rfl⟩
  · rintro ⟨rfl, rfl⟩
    exact ⟨⟨⟩, _, rfl, rfl, rfl⟩

/-- A node over nodes in scope can be added under a name that was given out for it. -/
theorem Sane.add (h : Sane s st) (hp : Pending st (some n.id))
    (hc : ∀ c ∈ n.shape.children, st.nodes.Scoped (scope st.chain) c)
    (ht : ∀ t, n.shape.recursionTarget? = some t →
      t ∈ scope st.chain ∧ ∃ f ∈ st.chain, f.body = t) :
    Yields s (some n.id) st n.id { st with nodes := st.nodes.insert n.id n } := by
  obtain ⟨hnew, k, hk, hid⟩ := hp _ rfl
  have hext := extends_insert hnew n
  have hget : (st.nodes.insert n.id n)[n.id]? = some n := by simp
  refine ⟨⟨h.grown.add hnew fun c hm => (hc c hm).mem, fun x hx => ?_, h.nested, fun x m hm t hmt => ?_,
    fun b hb => (h.bodies b hb).mono hext Set.Subset.rfl,
    fun x hx => ⟨(h.limit x hx).1.mono hext Set.Subset.rfl, ?_⟩⟩,
    ⟨⟨hext, le_rfl, fun x hx => ?_, fun hl => hl⟩, .refl _, rfl⟩, ?_, fun x hx => Option.some.inj hx⟩
  · by_cases he : n.id = x
    · exact ⟨k, hk, he ▸ hid⟩
    · exact h.numbered x (by simpa [he] using hx)
  · rw [Std.ExtTreeMap.getElem?_insert] at hm
    split at hm
    · obtain rfl := Option.some.inj hm
      exact .inr (ht t hmt).2
    · exact (h.target x m hm t hmt).imp_left hext.mem
  · exact (h.limit x hx).2.trans_le (mod_cast hext.size_le)
  · by_cases he : n.id = x
    · exact .inr (.inl (congrArg some he))
    · exact .inl (by simpa [he] using hx)
  · refine .mk hget (fun t hnt => .inr (ht t hnt).1) fun c hm => ?_
    exact (hc c hm).mono hext (Set.subset_insert _ _)

/-- A name for a node: the one that is asked for, or else a new one. -/
structure Given (s : Setting) (id : Option NodeId) (st : State) (r : NodeId) (st' : State) : Prop where
  sane : Sane s st'
  grew : Grew none st st'
  pending : Pending st' (some r)
  named : id = some r ∨ id = none ∧ ∃ k, st.counter < k ∧ k ≤ st'.counter ∧ r = numbered k
  chain : st'.chain = st.chain

theorem given_of_done_idOr (h : Done (idOr id) st r st') (hs : Sane s st) (hp : Pending st id) :
    Given s id st r st' := by
  cases id with
  | some x =>
    obtain ⟨rfl, rfl⟩ := done_pure.1 h
    exact ⟨hs, .refl _, hp, .inl rfl, rfl⟩
  | none =>
    obtain ⟨rfl, rfl⟩ := done_newId h
    refine ⟨⟨hs.grown, fun x hx => ?_, hs.nested, hs.target, hs.bodies, hs.limit⟩,
      ⟨⟨.refl _, Nat.le_succ _, fun _ h => .inl h, fun h => h⟩, .refl _, rfl⟩, fun x hx => ?_,
      .inr ⟨rfl, _, Nat.lt_succ_self _, le_rfl, rfl⟩, rfl⟩
    · obtain ⟨k, hk, rfl⟩ := hs.numbered x hx
      exact ⟨k, hk.trans (Nat.le_succ _), rfl⟩
    · obtain rfl := Option.some.inj hx
      refine ⟨fun hmem => ?_, _, le_rfl, rfl⟩
      obtain ⟨k, hk, he⟩ := hs.numbered _ hmem
      have := numbered_injective he
      omega

theorem Given.yields {y : NodeId} (h : Given s id st x st') (hy : Yields s (some x) st' y st'') :
    Yields s id st y st'' := by
  obtain rfl := hy.named x rfl
  refine ⟨hy.sane, h.grew.trans hy.grew fun z hz => ?_, hy.inScope, fun z hz => ?_⟩
  · obtain rfl := Option.some.inj hz
    exact h.named.imp_right And.right
  · rcases h.named with hid | ⟨hid, -⟩
    · exact Option.some.inj (hid.symm.trans hz)
    · cases hid.symm.trans hz

theorem done_leaf {y : NodeId} (h : Done (add n) st y st') (hs : Sane s st)
    (hp : Pending st (some n.id)) (hc : n.shape.children = [])
    (ht : n.shape.recursionTarget? = none) :
    Yields s (some n.id) st y st' ∧ st'.nodes.Scoped ∅ y ∧ st.nodes.size < st'.nodes.size := by
  obtain ⟨rfl, rfl⟩ := done_add.1 h
  refine ⟨hs.add hp (by simp [hc]) (by simp [ht]),
    .mk (n := n) (by simp) (by simp [ht]) (by simp [hc]), ?_⟩
  simp [Std.ExtTreeMap.size_insert, (hp _ rfl).1]

theorem done_unknown {reason : String} {cause : UnknownCause} {position : Option Position}
    (h : Done (unknown reason cause id position) st r st') (hs : Sane s st) (hp : Pending st id) :
    Yields s id st r st' ∧ st'.nodes.Scoped ∅ r ∧ st.nodes.size < st'.nodes.size := by
  simp only [unknown, done_bind] at h
  obtain ⟨x, st₁, hx, l, st₂, hl, h⟩ := h
  obtain ⟨-, rfl⟩ := done_location hl
  have hg := given_of_done_idOr hx hs hp
  obtain ⟨hy, hscoped, hsize⟩ := done_leaf h hg.sane hg.pending rfl rfl
  exact ⟨hg.yields hy, hscoped, hg.grew.nodes.size_le.trans_lt hsize⟩

theorem done_unsupported {construct : String} {detail field : Option String}
    {position : Option Position}
    (h : Done (unsupported s construct detail position field id) st r st') (hs : Sane s st)
    (hp : Pending st id) : Yields s id st r st' := by
  simp only [unsupported, done_bind] at h
  obtain ⟨u, st₁, hu, h⟩ := h
  have hcalm := done_report hu
  exact .of_grew hcalm.grew (done_unknown h (hcalm.sane hs) (hp.filed hcalm.grew.toFiled)).1

theorem done_limitNode (h : Done (limitNode s) st r st') (hs : Sane s st)
    (hfull : s.maxNodes ≤ st.nodes.size) :
    Sane s st' ∧ Grew none st st' ∧ st'.nodes.Scoped ∅ r ∧ st'.limit ≠ none := by
  simp only [limitNode, done_bind, done_get] at h
  obtain ⟨st₁, st₂, ⟨rfl, rfl⟩, h⟩ := h
  split at h
  · next x hx =>
    obtain ⟨rfl, rfl⟩ := done_pure.1 h
    exact ⟨hs, .refl _, (hs.limit _ hx).1, by simp [hx]⟩
  · next hnone =>
    simp only [done_bind, done_modify, done_pure] at h
    obtain ⟨u, st₂, rfl, x, st₃, hx, u', st₄, rfl, rfl, rfl⟩ := h
    obtain ⟨hy, hscoped, hsize⟩ := done_unknown hx
      ⟨hs.grown, hs.numbered, hs.nested, hs.target, hs.bodies, hs.limit⟩ (pending_none _)
    refine ⟨⟨hy.sane.grown, hy.sane.numbered, hy.sane.nested, hy.sane.target, hy.sane.bodies,
      fun y hy' => ?_⟩, ⟨⟨hy.grew.nodes, hy.grew.counter, hy.grew.fresh, fun _ => hnone⟩,
      hy.grew.chain, hy.grew.active⟩, hscoped, by simp⟩
    obtain rfl := Option.some.inj hy'
    exact ⟨hscoped, hfull.trans_lt (mod_cast hsize)⟩

theorem done_limited? {out : Option NodeId} (h : Done (limited? s id) st out st') (hs : Sane s st)
    (hp : Pending st id) : (out = none ∧ st = st' ∧ (st.nodes.size : Int) < s.maxNodes) ∨
      ∃ x, out = some x ∧ Yields s id st x st' ∧ st'.limit ≠ none := by
  simp only [limited?, done_bind, done_get] at h
  obtain ⟨st₁, st₂, ⟨rfl, rfl⟩, h⟩ := h
  split at h
  · next hroom =>
    obtain ⟨rfl, rfl⟩ := done_pure.1 h
    exact .inl ⟨rfl, rfl, hroom⟩
  · next hfull =>
    simp only [done_bind] at h
    obtain ⟨l, st₂, hl, h⟩ := h
    obtain ⟨hs₂, hg, hscoped, hlimit⟩ := done_limitNode hl hs (not_lt.1 hfull)
    refine .inr ?_
    cases id with
    | some x =>
      simp only [done_bind, done_pure] at h
      obtain ⟨y, st₃, hy, rfl, rfl⟩ := h
      have hy := (done_unknown hy hs₂ (hp.filed hg.toFiled)).1
      exact ⟨y, rfl, .of_grew hg hy, fun hnone => hlimit (hy.grew.limit hnone)⟩
    | none =>
      obtain ⟨rfl, rfl⟩ := done_pure.1 h
      exact ⟨l, rfl, ⟨hs₂, hg, hscoped.mono (.refl _) (Set.empty_subset _), by simp⟩, hlimit⟩

/-! ## Recursion -/

theorem Sane.markOuter (h : Sane s st) (hb : ∃ f ∈ st.chain, f.body = body) :
    Sane s { st with chain := markOuter body st.chain } ∧
      Grew none st { st with chain := markOuter body st.chain } := by
  have hlater := later_markOuter body st.chain
  refine ⟨⟨h.grown, h.numbered, h.nested.markOuter hb,
    fun x n hn t ht => (h.target x n hn t ht).imp_right hlater.exists_body, h.bodies, h.limit⟩,
    ⟨.refl _, le_rfl, fun _ h => .inl h, fun h => h⟩, hlater, rfl⟩

theorem done_recursiveRef {position : Option Position} {ts : List Tag}
    (h : Done (recursiveRef f x position ts) st r st') (hs : Sane s st) (hp : Pending st (some x))
    (hf : f ∈ st.chain) : Yields s (some x) st r st' := by
  simp only [recursiveRef, done_bind, done_modify] at h
  obtain ⟨u, st₁, rfl, l, st₂, hl, h⟩ := h
  obtain ⟨-, rfl⟩ := done_location hl
  obtain ⟨rfl, rfl⟩ := done_add.1 h
  have hbody : ∃ g ∈ st.chain, g.body = f.body := ⟨f, hf, rfl⟩
  obtain ⟨hsane, hgrew⟩ := hs.markOuter hbody
  refine .of_grew hgrew (hsane.add (n := ⟨_, .recursiveRef f.body f.key.name, ts, l⟩)
    (hp.filed hgrew.toFiled) (by simp [Shape.children]) fun t ht => ?_)
  obtain rfl := Option.some.inj ht
  exact ⟨mem_scope_markOuter hbody, hgrew.chain.exists_body hbody⟩

theorem done_frameLabelled? {label : Option String} {found : Option Frame}
    (h : Done (frameLabelled? label) st found st') :
    (∀ f, found = some f → f ∈ st.chain) ∧ st = st' := by
  cases label with
  | some name =>
    obtain ⟨rfl, rfl⟩ := done_frameNamed? h
    exact ⟨fun f hf => List.mem_of_find?_eq_some hf, rfl⟩
  | none =>
    obtain ⟨rfl, rfl⟩ := done_pure.1 h
    exact ⟨by simp, rfl⟩

theorem done_backEdge {d : Description} {field : Option String}
    (h : Done (backEdge s d id field) st r st') (hs : Sane s st) (hp : Pending st id) :
    Yields s id st r st' := by
  simp only [backEdge, done_bind] at h
  obtain ⟨found, st₁, hfound, h⟩ := h
  obtain ⟨hmem, rfl⟩ := done_frameLabelled? hfound
  split at h
  · next f =>
    simp only [done_bind] at h
    obtain ⟨x, st₂, hx, h⟩ := h
    have hg := given_of_done_idOr hx hs hp
    exact hg.yields (done_recursiveRef h hg.sane hg.pending (hg.chain ▸ hmem f rfl))
  · simp only [done_bind, done_current?] at h
    obtain ⟨k, st₂, ⟨rfl, rfl⟩, u, st₃, hu, h⟩ := h
    have hcalm := done_report hu
    exact .of_grew hcalm.grew (done_unknown h (hcalm.sane hs) (hp.filed hcalm.grew.toFiled)).1

/-! ## Declarations -/

/-- Whatever a walk follows, it yields a node. -/
def Followed (s : Setting) (follow : Follow) : Prop :=
  ∀ site d id ts field st r st', Done (follow site d id ts field) st r st' → Sane s st →
    Pending st id → Yields s id st r st'

theorem done_sharedBody? {key : DeclarationKey} {out : Option NodeId}
    (h : Done (sharedBody? s key) st out st') (hs : Sane s st) :
    Sane s st' ∧ Grew none st st' ∧ ∀ x, out = some x → st'.nodes.Scoped ∅ x := by
  simp only [sharedBody?, done_bind, done_get] at h
  obtain ⟨st₁, st₂, ⟨rfl, rfl⟩, h⟩ := h
  split at h
  · obtain ⟨rfl, rfl⟩ := done_pure.1 h
    exact ⟨hs, .refl _, by simp⟩
  · next b hb =>
    split at h
    · obtain ⟨rfl, rfl⟩ := done_pure.1 h
      exact ⟨hs, .refl _, by simp⟩
    · simp only [done_bind, done_modify, done_pure] at h
      obtain ⟨u, st₂, rfl, rfl, rfl⟩ := h
      have hmem : b ∈ st.bodies := by
        split at hb
        · exact List.mem_of_find?_eq_some hb
        · cases hb
      have hlater := later_noteNames b.names st.chain
      refine ⟨⟨hs.grown, hs.numbered, hs.nested.noteNames _, fun x n hn t ht =>
        (hs.target x n hn t ht).imp_right hlater.exists_body, hs.bodies, hs.limit⟩,
        ⟨⟨.refl _, le_rfl, fun _ h => .inl h, fun h => h⟩, hlater, rfl⟩, fun x hx => ?_⟩
      obtain rfl := Option.some.inj hx
      exact hs.bodies b hmem

theorem done_leave {key : DeclarationKey} {u : Unit} {fs : List Frame}
    (h : Done (leave key f.body) st u st') (hs : Sane s st) (hc : st.chain = f :: fs)
    (hf : st.nodes.Scoped (scope st.chain) f.body) :
    Sane s st' ∧ st'.nodes = st.nodes ∧ st'.counter = st.counter ∧ st'.active = st.active ∧
      st'.limit = st.limit ∧ Later fs st'.chain ∧ st'.nodes.Scoped (scope st'.chain) f.body := by
  simp only [leave, done_modify, hc] at h
  subst h
  obtain ⟨houter, hnested⟩ : Nested (f :: fs) := by rw [← hc]; exact hs.nested
  have hself : st.nodes.Scoped {x | x ∈ f.outer} f.body := .of_insert (by rwa [hc] at hf)
  have hlater := later_noteNames f.names fs
  refine ⟨⟨hs.grown, hs.numbered, hnested.noteNames _, fun x n hn t ht => ?_, fun b hb => ?_, hs.limit⟩,
    rfl, rfl, rfl, rfl, hlater, hself.mono (.refl _) fun x hx => hlater.scope (houter x hx)⟩
  · rcases hs.target x n hn t ht with hmem | ⟨g, hg, rfl⟩
    · exact .inl hmem
    · rcases List.mem_cons.1 (hc ▸ hg) with rfl | hg
      · exact .inl hf.mem
      · exact .inr (hlater.exists_body ⟨g, hg, rfl⟩)
  · dsimp only at hb
    split at hb
    · next hempty =>
      rcases List.mem_cons.1 hb with rfl | hb
      · have hnone : {x | x ∈ f.outer} = (∅ : Set NodeId) := by
          ext x
          simp [List.isEmpty_iff.1 hempty]
        exact hnone ▸ hself
      · exact hs.bodies b hb
    · exact hs.bodies b hb

/-- A declaration has become the innermost one. -/
structure Entered (s : Setting) (d : Declaration) (st : State) (body : NodeId) (st' : State) : Prop where
  sane : Sane s st'
  filed : Filed none st st'
  pending : Pending st' (some body)
  new : ∃ k, st.counter < k ∧ k ≤ st'.counter ∧ body = numbered k
  chain : st'.chain = { key := d.key, body, names := [d.key] } :: st.chain
  active : st'.active = st.active
  bodies : st'.bodies = st.bodies

theorem done_enter {d : Declaration} (h : Done (enter d) st r st') (hs : Sane s st) :
    Entered s d st r st' := by
  simp only [enter, done_bind, done_modify, done_pure] at h
  obtain ⟨body, st₁, hbody, u, st₂, rfl, rfl, rfl⟩ := h
  have hgiven : Given s none st body st₁ := given_of_done_idOr hbody hs (pending_none _)
  obtain ⟨-, hnext⟩ := done_newId hbody
  have hnew : ∃ k, st.counter < k ∧ k ≤ st₁.counter ∧ body = numbered k := by
    rcases hgiven.named with hnone | ⟨-, hnew⟩
    · cases hnone
    · exact hnew
  refine ⟨⟨hgiven.sane.grown, hgiven.sane.numbered, ⟨by simp, hgiven.sane.nested⟩,
    fun x n hn t ht => ?_, hgiven.sane.bodies, hgiven.sane.limit⟩,
    ⟨hgiven.grew.nodes, hgiven.grew.counter, hgiven.grew.fresh, hgiven.grew.limit⟩,
    hgiven.pending, hnew, ?_, hgiven.grew.active, hnext ▸ rfl⟩
  · refine (hgiven.sane.target x n hn t ht).imp_right ?_
    rintro ⟨f, hf, rfl⟩
    exact ⟨f, List.mem_cons_of_mem _ hf, rfl⟩
  · rw [hgiven.chain]

theorem Entered.calm {d : Declaration} (h : Entered s d st r st') (hc : Calm st' st'') :
    Entered s d st r st'' where
  sane := hc.sane h.sane
  filed := h.filed.trans hc.grew.toFiled fun _ => .inl
  pending := h.pending.filed hc.grew.toFiled
  new := by rw [hc.counter]; exact h.new
  chain := hc.chain.trans h.chain
  active := hc.active.trans h.active
  bodies := hc.bodies.trans h.bodies

theorem done_declaration {follow : Follow} {d : Declaration} (hfollow : Followed s follow)
    (h : Done (declaration s follow d) st r st') (hs : Sane s st) : Yields s none st r st' := by
  simp only [declaration, done_bind, done_get, done_pure] at h
  obtain ⟨body, st₁, hbody, _, _, ⟨rfl, rfl⟩, ts, st₂, hts, x, st₃, hx, u, st₄, hleave, rfl, rfl⟩ := h
  have hentered := (done_enter hbody hs).calm (done_tags hts).2
  have hy := hfollow _ _ _ _ _ _ _ _ hx hentered.sane hentered.pending
  obtain rfl := hy.named _ rfl
  have hchain := hy.grew.chain
  rw [hentered.chain] at hchain
  cases hc : st₃.chain with
  | nil =>
    rw [hc] at hchain
    cases hchain
  | cons f fs =>
    rw [hc] at hchain
    cases hchain with
    | cons hf hfs =>
      obtain rfl : f.body = x := hf.body
      obtain ⟨hs', hnodes, hcounter, hactive, hlimit, hlater, hscoped⟩ :=
        done_leave hleave hy.sane hc hy.inScope
      have hfiled : Filed none st st₃ := hentered.filed.trans hy.grew.toFiled fun y hy => by
        obtain rfl := Option.some.inj hy
        exact .inr hentered.new
      refine ⟨hs', ⟨⟨hnodes ▸ hfiled.nodes, hcounter ▸ hfiled.counter, ?_,
        fun hnone => hfiled.limit (hlimit ▸ hnone)⟩, Later.trans hfs hlater,
        hactive.trans (hy.grew.active.trans hentered.active)⟩, hscoped, by simp⟩
      rw [hnodes, hcounter]
      exact hfiled.fresh

theorem done_bodyOf {follow : Follow} {name by_ : String} {d : Declaration}
    (hfollow : Followed s follow) (h : Done (bodyOf s follow name by_ d) st r st') (hs : Sane s st) :
    Yields s none st r st' := by
  simp only [bodyOf, done_bind] at h
  obtain ⟨out, st₁, hout, h⟩ := h
  obtain ⟨hs₁, hg₁, hscoped⟩ := done_sharedBody? hout hs
  split at h
  · next x =>
    obtain ⟨rfl, rfl⟩ := done_pure.1 h
    exact ⟨hs₁, hg₁, (hscoped _ rfl).mono (.refl _) (Set.empty_subset _), by simp⟩
  · simp only [done_bind, done_modify] at h
    obtain ⟨u, st₂, rfl, h⟩ := h
    have hy := done_declaration hfollow h
      ⟨hs₁.grown, hs₁.numbered, hs₁.nested, hs₁.target, hs₁.bodies, hs₁.limit⟩
    exact .of_grew hg₁ ⟨hy.sane, ⟨⟨hy.grew.nodes, hy.grew.counter, hy.grew.fresh, hy.grew.limit⟩,
      hy.grew.chain, hy.grew.active⟩, hy.inScope, hy.named⟩

theorem done_node {position : Option Position} {shape : Shape} {ts : List Tag} {st₀ : State}
    (h : Done (do add { id := x, shape := shape, tags := ts, location := ← location position }) st r st')
    (hs : Sane s st) (hg : Grew none st₀ st) (hp : Pending st₀ (some x))
    (hc : ∀ c ∈ shape.children, st.nodes.Scoped (scope st.chain) c)
    (ht : shape.recursionTarget? = none) : Yields s (some x) st₀ r st' := by
  simp only [done_bind] at h
  obtain ⟨l, st₁, hl, h⟩ := h
  obtain ⟨-, rfl⟩ := done_location hl
  obtain ⟨rfl, rfl⟩ := done_add.1 h
  exact .of_grew hg (hs.add (n := ⟨_, shape, ts, l⟩) (hp.filed hg.toFiled) hc (by simp [ht]))

theorem done_reference {follow : Follow} {name : String} {file field : Option String}
    {position : Option Position} {ts : List Tag} (hfollow : Followed s follow)
    (h : Done (reference s follow name file position x ts field) st r st') (hs : Sane s st)
    (hp : Pending st (some x)) : Yields s (some x) st r st' := by
  simp only [reference, done_bind, done_modify] at h
  obtain ⟨key, st₀, hkey, u, st₁, hst₁, found, st₂, hfound, h⟩ := h
  obtain ⟨-, rfl⟩ := done_current?.1 hkey
  have hcalm : Calm st st₁ := by
    subst hst₁
    split
    · exact ⟨rfl, rfl, rfl, rfl, rfl, rfl, rfl⟩
    · exact .refl _
  obtain ⟨hmem, rfl⟩ := done_frameNamed? hfound
  have hs₁ := hcalm.sane hs
  have hp₁ := hp.filed hcalm.grew.toFiled
  refine .of_grew hcalm.grew ?_
  split at h
  · next f => exact done_recursiveRef h hs₁ hp₁ (List.mem_of_find?_eq_some hmem.symm)
  · simp only [done_bind] at h
    obtain ⟨d, st₂, hd, h⟩ := h
    have hcalm₂ := (done_lookup hd).2
    refine .of_grew hcalm₂.grew ?_
    have hs₂ := hcalm₂.sane hs₁
    have hp₂ := hp₁.filed hcalm₂.grew.toFiled
    split at h
    · simp only [done_bind] at h
      obtain ⟨u, st₃, hu, h⟩ := h
      have hcalm₃ := done_report hu
      exact .of_grew hcalm₃.grew
        (done_unknown h (hcalm₃.sane hs₂) (hp₂.filed hcalm₃.grew.toFiled)).1
    · rw [done_bind] at h
      obtain ⟨target, st₃, htarget, h⟩ := h
      have hy := done_bodyOf hfollow htarget hs₂
      refine done_node h hy.sane hy.grew hp₂ (fun c hc => ?_) rfl
      obtain rfl := List.mem_singleton.1 hc
      exact hy.inScope

/-! ## Descriptions -/

theorem done_fieldType {follow : Follow} {site : Site} {fd : FieldDescription}
    (hfollow : Followed s follow) (h : Done (fieldType s follow site fd) st r st') (hs : Sane s st) :
    Yields s none st r st' := by
  unfold fieldType at h
  split at h
  · exact done_unsupported h hs (pending_none _)
  · exact hfollow _ _ _ _ _ _ _ _ h hs (pending_none _)

theorem done_field {follow : Follow} {site : Site} {fd : Attempt FieldDescription} {out : Field}
    (hfollow : Followed s follow) (h : Done (field s follow site fd) st out st') (hs : Sane s st) :
    Yields s none st out.type st' := by
  simp only [field, done_bind] at h
  obtain ⟨fd', st₁, hfd, ts, st₂, hts, type, st₃, htype, l, st₄, hl, h⟩ := h
  obtain ⟨-, rfl⟩ := done_lift.1 hfd
  have hcalm := (done_tags hts).2
  obtain ⟨-, rfl⟩ := done_location hl
  obtain ⟨rfl, rfl⟩ := done_pure.1 h
  exact .of_grew hcalm.grew (done_fieldType hfollow htype (hcalm.sane hs))

theorem yields_sequence {α β : Type} {step : α → M β} (node : β → NodeId) {xs : List α}
    {ys : List β} (hstep : ∀ x st y st', Done (step x) st y st' → Sane s st → Yields s none st (node y) st')
    (h : Sequence step xs st ys st') (hs : Sane s st) :
    Sane s st' ∧ Grew none st st' ∧ ∀ y ∈ ys, st'.nodes.Scoped (scope st'.chain) (node y) := by
  induction h with
  | nil => exact ⟨hs, .refl _, by simp⟩
  | cons hx _ ih =>
    have hy := hstep _ _ _ _ hx hs
    obtain ⟨hs', hg, hall⟩ := ih hy.sane
    exact ⟨hs', hy.grew.then hg, List.forall_mem_cons.2 ⟨hg.scoped_here hy.inScope, hall⟩⟩

theorem done_build {follow : Follow} {site : Site} {d : Description} {ts : List Tag}
    {inField : Option String} (hfollow : Followed s follow)
    (h : Done (build s follow site d x ts inField) st r st') (hs : Sane s st)
    (hp : Pending st (some x)) : Yields s (some x) st r st' := by
  have hchild : ∀ c st y st', Done (follow site c none [] inField) st y st' → Sane s st →
      Yields s none st y st' := fun _ _ _ _ h hs => hfollow _ _ _ _ _ _ _ _ h hs (pending_none _)
  unfold build at h
  dsimp only at h
  split at h
  · exact done_node h hs (.refl _) hp (by simp [Shape.children]) rfl
  · exact done_node h hs (.refl _) hp (by simp [Shape.children]) rfl
  · rw [done_bind] at h
    obtain ⟨y, st₁, hy, h⟩ := h
    have hy := hchild _ _ _ _ hy hs
    refine done_node h hy.sane hy.grew hp (fun c hc => ?_) rfl
    obtain rfl := List.mem_singleton.1 hc
    exact hy.inScope
  · rw [done_bind] at h
    obtain ⟨ys, st₁, hys, h⟩ := h
    obtain ⟨hs₁, hg, hall⟩ := yields_sequence id hchild (done_mapM.1 hys) hs
    exact done_node h hs₁ hg hp hall rfl
  · rw [done_bind] at h
    obtain ⟨fs, st₁, hfs, h⟩ := h
    obtain ⟨hs₁, hg, hall⟩ := yields_sequence Field.type (fun _ _ _ _ h hs => done_field hfollow h hs)
      (done_mapM.1 hfs) hs
    refine done_node h hs₁ hg hp (fun c hc => ?_) rfl
    obtain ⟨f, hf, rfl⟩ := List.mem_map.1 hc
    exact hall f hf
  · rw [done_bind] at h
    obtain ⟨ys, st₁, hys, h⟩ := h
    obtain ⟨hs₁, hg, hall⟩ := yields_sequence id hchild (done_mapM.1 hys) hs
    exact done_node h hs₁ hg hp hall rfl
  · rw [done_bind] at h
    obtain ⟨ys, st₁, hys, h⟩ := h
    obtain ⟨hs₁, hg, hall⟩ := yields_sequence id hchild (done_mapM.1 hys) hs
    exact done_node h hs₁ hg hp hall rfl
  · rw [done_bind] at h
    obtain ⟨out, st₁, hout, h⟩ := h
    obtain ⟨-, rfl⟩ := done_lift.1 hout
    split at h
    · exact done_node h hs (.refl _) hp (by simp [Shape.children]) rfl
    · exact done_unsupported h hs hp
  · exact done_reference hfollow h hs hp
  · exact done_unsupported h hs hp

theorem followed_follow (fuel : ℕ) : Followed s (follow s fuel) := by
  induction fuel with
  | zero => exact fun _ _ _ _ _ _ _ _ h => absurd h not_done_throw
  | succ fuel ih =>
    intro site d id ts field st r st' h hs hp
    simp only [follow, done_bind] at h
    obtain ⟨u, st₁, hu, out, st₂, hout, h⟩ := h
    have hcalm := done_checkDeadline hu
    refine .of_grew hcalm.grew ?_
    have hs₁ := hcalm.sane hs
    have hp₁ := hp.filed hcalm.grew.toFiled
    rcases done_limited? hout hs₁ hp₁ with ⟨rfl, rfl, -⟩ | ⟨y, rfl, hy, -⟩
    · simp only [done_bind, done_get] at h
      obtain ⟨_, _, ⟨rfl, rfl⟩, h⟩ := h
      split at h
      · rw [done_bind] at h
        obtain ⟨d', st₂, hd, h⟩ := h
        obtain ⟨-, rfl⟩ := done_lift.1 hd
        exact done_backEdge h hs₁ hp₁
      · simp only [done_bind, done_modify, done_pure] at h
        obtain ⟨u, st₂, rfl, x, st₃, hx, d', st₄, hd, y, st₅, hy, u', st₆, rfl, rfl, rfl⟩ := h
        obtain ⟨-, rfl⟩ := done_lift.1 hd
        have hg := given_of_done_idOr hx
          ⟨hs₁.grown, hs₁.numbered, hs₁.nested, hs₁.target, hs₁.bodies, hs₁.limit⟩ hp₁
        have hy := hg.yields (done_build ih hy hg.sane hg.pending)
        exact ⟨⟨hy.sane.grown, hy.sane.numbered, hy.sane.nested, hy.sane.target, hy.sane.bodies,
          hy.sane.limit⟩, ⟨⟨hy.grew.nodes, hy.grew.counter, hy.grew.fresh, hy.grew.limit⟩,
          hy.grew.chain, by simp [hy.grew.active]⟩, hy.inScope, hy.named⟩
    · obtain ⟨rfl, rfl⟩ := done_pure.1 h
      exact hy

/-! ## Resolution -/

theorem done_root {file : String} (h : Done (root s file) st r st') (hs : Sane s st) :
    Yields s none st r st' := by
  simp only [root, done_bind] at h
  obtain ⟨d, st₁, hd, h⟩ := h
  have hcalm := (done_lookup hd).2
  refine .of_grew hcalm.grew ?_
  have hs₁ := hcalm.sane hs
  split at h
  · exact done_declaration (followed_follow _) h hs₁
  · simp only [done_bind, done_modify] at h
    obtain ⟨u, st₂, rfl, h⟩ := h
    have hy := (done_unknown h ⟨hs₁.grown, hs₁.numbered, hs₁.nested, hs₁.target, hs₁.bodies,
      hs₁.limit⟩ (pending_none _)).1
    exact ⟨hy.sane, ⟨⟨hy.grew.nodes, hy.grew.counter, hy.grew.fresh, hy.grew.limit⟩, hy.grew.chain,
      hy.grew.active⟩, hy.inScope, hy.named⟩

theorem sane_initial {deadline : Option Deadline} : Sane s { deadline } where
  grown := .empty
  numbered := by simp
  nested := trivial
  target := by simp
  bodies := by simp
  limit := by simp

end TypeAtlas.Resolution

namespace TypeAtlas

open Resolution

variable {source : DeclarationSource} {vocabulary : Vocabulary} {maxNodes : Int}
  {file symbol : String} {deadline : Option Deadline} {sharing : Bool} {o : Outcome Graph} {g : Graph}

/-- What a resolution leaves behind is sane, and no declaration is open any more. -/
theorem exists_sane_of_resolve
    (h : (resolve source vocabulary maxNodes file symbol deadline sharing).1 = .ok o)
    (hg : o.value = some g) :
    ∃ st, Sane ⟨source, vocabulary, maxNodes, symbol, sharing⟩ st ∧ st.chain = [] ∧
      g.nodes = st.nodes ∧ g.nodes.Scoped ∅ g.root := by
  obtain ⟨r, st, hrun, rfl⟩ := exists_done_of_resolve h
  obtain rfl := Option.some.inj hg
  have hy := done_root hrun sane_initial
  have hchain : st.chain = [] := by
    have hlater : Later [] st.chain := hy.grew.chain
    cases hc : st.chain with
    | nil => rfl
    | cons f fs =>
      rw [hc] at hlater
      cases hlater
  refine ⟨st, hy.sane, hchain, rfl, ?_⟩
  have hscoped := hy.inScope
  rwa [hchain] at hscoped

theorem Resolution.Sane.target_mem {s : Resolution.Setting} {st : Resolution.State} {id t : NodeId}
    {n : Node} (h : Sane s st) (hchain : st.chain = []) (hn : st.nodes[id]? = some n)
    (ht : n.shape.recursionTarget? = some t) : t ∈ st.nodes := by
  refine (h.target id n hn t ht).resolve_right ?_
  simp [hchain]

/-- The graph of a resolution is well-formed, whatever is declared and however small the budget. -/
theorem resolve_wellFormed {source : DeclarationSource} {vocabulary : Vocabulary} {maxNodes : Int}
    {file symbol : String} {deadline : Option Deadline} {sharing : Bool} {o : Outcome Graph}
    {g : Graph} (h : (resolve source vocabulary maxNodes file symbol deadline sharing).1 = .ok o)
    (hg : o.value = some g) : g.WellFormed := by
  obtain ⟨st, hsane, hchain, hnodes, hroot⟩ := exists_sane_of_resolve h hg
  refine Graph.wellFormed_of_scoped (hnodes ▸ hsane.grown) hroot fun x n hn t ht => ?_
  rw [Graph.node?, hnodes] at hn
  rw [hnodes]
  exact hsane.target_mem hchain hn ht

/-- Trees and their nodes refer to each other, and a tree has two labels. -/
def forest : DeclarationTable :=
  let types : Descriptions := #[
    .ok { shape := .object [.ok { name := "next", type := some 1 },
      .ok { name := "tree", type := some 2 }] },
    .ok { shape := .reference "Node" none }, .ok { shape := .reference "Tree" none },
    .ok { shape := .object [.ok { name := "owner", type := some 4 },
      .ok { name := "parts", type := some 5 }, .ok { name := "kind", type := some 7 },
      .ok { name := "title", type := some 8 }] },
    .ok { shape := .reference "Node" none }, .ok { shape := .array 6 },
    .ok { shape := .reference "Tree" none }, .ok { shape := .reference "Label" none },
    .ok { shape := .reference "Label" none }, .ok { shape := .primitive .string }]
  [{ name := "Node", filePath := "forest.ts", types, type := 0 },
    { name := "Tree", filePath := "forest.ts", types, type := 3 },
    { name := "Label", filePath := "forest.ts", types, type := 9 }]

theorem resolve_wellFormed_forest :
    ∃ o g, (resolve forest.source default 100 "forest.ts" "Node").1 = .ok o ∧ o.value = some g ∧
      g.WellFormed := by
  have hrun : ((resolve forest.source default 100 "forest.ts" "Node").1.toOption.bind
      Outcome.value).any (fun _ => true) = true := by decide +kernel
  obtain ⟨o, g, ho, hg, -⟩ := exists_graph_of_any hrun
  exact ⟨o, g, ho, hg, resolve_wellFormed ho hg⟩

end TypeAtlas
