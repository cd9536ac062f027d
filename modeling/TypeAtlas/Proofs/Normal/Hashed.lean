import TypeAtlas.Proofs.Normal.Descent
import TypeAtlas.Proofs.Normal.Upright

/-! # Hashes of arenas

The hash of an arena is the digest of the term that was written out. Both take the same values, node
by node: the nodes that are named by recursive references are the recursion targets of the term, and
the position of a target on the stack of the hash gives back the distance in the term.
-/

namespace TypeAtlas

open Term

variable {d : Digester} {a : Algorithm} {S : Set String} {t c : Term} {r id : NodeId}
  {A : Arena} {trail stack : List NodeId} {e : Entry} {k l n : ℕ}

namespace Hasher

variable {s : Setting} {st st' : State} {visit : NodeId → M (String × Heights)}

/-- What the hash of a term's node gives below `n` recursion targets: the term's digest, and the
heights of the targets that it refers to. -/
structure Hashes (n : ℕ) (t : Term) (p : String × Heights) : Prop where
  digest : p.1 = t.digest
  heights : ∀ l, l ∈ p.2 ↔ ∃ k ∈ t.reach, k + l + 1 = n

theorem Hashes.twin {u : Term} {p : String × Heights} (h : Hashes n t p) (htwin : Twin u t)
    (hd : u.digest = t.digest) : Hashes n u p :=
  ⟨h.digest.trans hd.symm, fun l => by simp only [h.heights, htwin.mem_reach_iff]⟩

theorem Hashes.links_eq_nil {p : String × Heights} (h : Hashes n t p)
    (hlt : ∀ k ∈ t.reach, k < n) (hc : p.2.isEmpty) : t.links = [] := by
  rw [← reach_eq_nil, List.eq_nil_iff_forall_not_mem]
  intro k hk
  have := hlt k hk
  have hmem : n - 1 - k ∈ p.2 := (h.heights _).2 ⟨k, hk, by omega⟩
  rw [Std.ExtTreeSet.isEmpty_iff] at hc
  simp [hc] at hmem

theorem mem_together {ps : List (String × Heights)} : l ∈ (together ps).2 ↔ ∃ p ∈ ps, l ∈ p.2 := by
  have hacc (ps : List (String × Heights)) (hs : Heights) :
      l ∈ ps.foldl (fun hs p => hs ∪ p.2) hs ↔ l ∈ hs ∨ ∃ p ∈ ps, l ∈ p.2 := by
    induction ps generalizing hs with
    | nil => simp
    | cons p ps ih => simp [ih, or_assoc]
  simp [together, hacc]

theorem together_of_hashes {cs : List Term} {ps : List (String × Heights)}
    (h : List.Forall₂ (Hashes n) cs ps) :
    (together ps).1 = cs.map Term.digest ∧
      ∀ l, l ∈ (together ps).2 ↔ ∃ c ∈ cs, ∃ k ∈ c.reach, k + l + 1 = n := by
  simp only [mem_together]
  induction h with
  | nil => simp [together]
  | cons hp _ ih =>
    simp only [together, List.map_cons, List.cons.injEq, List.mem_cons, exists_eq_or_imp] at ih ⊢
    exact ⟨⟨hp.digest, ih.1⟩, fun l => or_congr (hp.heights l) (ih.2 l)⟩

theorem sortDigests_of_rising {cs : List Term} (h : Rising Term.digest cs) :
    sortDigests (cs.map Term.digest) = cs.map Term.digest := by
  refine List.mergeSort_of_pairwise (List.pairwise_map.2 (h.imp fun hab => ?_))
  simpa using String.not_lt.1 (String.lt_asymm hab)

theorem sortFields_of_rising {fs : List Field} (h : Rising Field.name fs) : sortFields fs = fs :=
  List.mergeSort_of_pairwise (h.imp fun hab => by simpa using String.not_lt.1 (String.lt_asymm hab))

theorem rising_fieldOf {heads : List FieldHead} {ids : List NodeId}
    (h : Rising FieldHead.name heads) (hlen : heads.length = ids.length) :
    Rising Field.name ((heads.zip ids).map fieldOf) := by
  refine h.of_map_eq ?_
  conv_rhs => rw [← List.map_fst_zip hlen.le]
  simp [fieldOf, Function.comp_def]

/-- The heights to which a term refers from the inside, below `n` recursion targets. -/
def Spans (n : ℕ) (t : Term) (hs : Heights) : Prop :=
  ∀ l, l ∈ hs ↔ ∃ k, (∃ m, (k, m) ∈ t.inward) ∧ k + l + 1 = n

theorem spans_together {ps : List (String × Heights)} (hown : ownLinks t.shape = [])
    (h : List.Forall₂ (Hashes n) t.children ps) : Spans n t (together ps).2 := by
  intro l
  rw [(together_of_hashes h).2]
  simp only [mem_inward, hown, List.not_mem_nil, false_or, mem_reach]
  constructor
  · rintro ⟨c, hc, k, ⟨m, hm⟩, he⟩
    exact ⟨k, ⟨m, c, hc, hm⟩, he⟩
  · rintro ⟨k, ⟨m, c, hc, hm⟩, he⟩
    exact ⟨c, hc, k, ⟨m, hm⟩, he⟩

theorem spans_of_leaf (hown : ownLinks t.shape = []) (hcs : t.children = []) : Spans n t ∅ := by
  simp [Spans, inward, hown, hcs]

theorem exists_unstable (s : Setting) (detail : String) (id : NodeId) (st : State) :
    ∃ st', Ends (unstable s detail id) st () st' ∧ st'.closed = st.closed :=
  ⟨_, ends_modify.2 rfl, rfl⟩

theorem ends_leaf {f : Entry} {ps : List (String × Heights)} (payload : List (String × Datum))
    (hlen : f.names.length = f.term.children.length) (hps : Chain visit f.names st ps st')
    (hnil : f.term.children = []) (hown : ownLinks f.term.shape = []) :
    ∃ hs st'', Ends (pure (payload, [], ∅) : M (List (String × Datum) × List String × Heights)) st
        (payload, f.term.children.map Term.digest, hs) st'' ∧
      st''.closed = st'.closed ∧ Spans n f.term hs := by
  have hnames : f.names = [] := List.length_eq_zero_iff.1 (hlen.trans (by rw [hnil]; rfl))
  rw [hnames] at hps
  cases hps
  exact ⟨∅, st, ends_pure.2 ⟨by rw [hnil]; rfl, rfl⟩, rfl, spans_of_leaf hown hnil⟩

theorem ends_reported {f : Entry} {ps : List (String × Heights)} (detail : String) (id : NodeId)
    (payload : List (String × Datum)) (hlen : f.names.length = f.term.children.length)
    (hps : Chain visit f.names st ps st') (hnil : f.term.children = []) (hown : ownLinks f.term.shape = []) :
    ∃ hs st'', Ends (unstable s detail id >>= fun _ => pure (payload, [], ∅)) st
        (payload, f.term.children.map Term.digest, hs) st'' ∧
      st''.closed = st'.closed ∧ Spans n f.term hs := by
  obtain ⟨hs, st₁, hends, hclosed, hspans⟩ := ends_leaf (n := n) payload hlen hps hnil hown
  obtain ⟨hpure, rfl⟩ := ends_pure.1 hends
  obtain ⟨st₂, hreport, hsame⟩ := exists_unstable s detail id st
  exact ⟨hs, st₂, ends_bind.2 ⟨(), st₂, hreport, ends_pure.2 ⟨hpure, rfl⟩⟩, hsame.trans hclosed, hspans⟩

theorem ends_below {ps : List (String × Heights)} {m : M (List (String × Heights))}
    (arrange : List String → List String) (payload : List (String × Datum))
    (harrange : arrange (t.children.map Term.digest) = t.children.map Term.digest)
    (hps : Ends m st ps st') (hw : List.Forall₂ (Hashes n) t.children ps) (hown : ownLinks t.shape = []) :
    ∃ hs st'', Ends (m >>= fun ps => pure (payload, arrange (together ps).1, (together ps).2)) st
        (payload, t.children.map Term.digest, hs) st'' ∧
      st''.closed = st'.closed ∧ Spans n t hs := by
  refine ⟨(together ps).2, st', ends_bind.2 ⟨ps, st', hps, ends_pure.2 ⟨?_, rfl⟩⟩, rfl, spans_together hown hw⟩
  rw [(together_of_hashes hw).1, harrange]

theorem ends_parts (s : Setting) (id : NodeId) {f : Entry} (hf : f.term.Formed d a)
    (hlen : f.names.length = f.term.children.length)
    (hlink : ∀ k l, (k, l) ∈ ownLinks f.term.shape → stack.idxOf? f.target = some k)
    (hlost : ∀ symbol raw, f.term.shape = .recursiveRef symbol raw none → raw ∉ stack)
    {ps : List (String × Heights)} (hps : Chain visit f.names st ps st')
    (hw : List.Forall₂ (Hashes stack.length) f.term.children ps) :
    ∃ hs st'', Ends (parts s (f.node id) stack visit) st
        (f.term.shape.payload, f.term.children.map Term.digest, hs) st'' ∧
      st''.closed = st'.closed ∧ Spans stack.length f.term hs := by
  have hcov := hf.covers
  have hnames := outline_children f.target hf.covers hlen
  unfold parts Entry.node
  cases hs : f.term.shape with
  | primitive p =>
    rw [hs] at hcov
    exact ends_leaf _ hlen hps hcov (by simp [hs, ownLinks])
  | literal kind v =>
    rw [hs] at hcov
    exact ends_leaf _ hlen hps hcov (by simp [hs, ownLinks])
  | enum ms =>
    rw [hs] at hcov
    exact ends_leaf _ hlen hps hcov.2 (by simp [hs, ownLinks])
  | unknown reason cause =>
    rw [hs] at hcov
    simp only [outline]
    split
    · exact ends_reported _ _ _ hlen hps hcov (by simp [hs, ownLinks])
    · exact ends_leaf _ hlen hps hcov (by simp [hs, ownLinks])
  | recursiveRef symbol raw link =>
    rw [hs] at hcov
    have hnil : f.term.children = [] := hcov
    cases link with
    | none =>
      have hout : stack.idxOf? raw = none := List.idxOf?_eq_none_iff.2 (hlost symbol raw hs)
      simp only [outline, hout]
      exact ends_reported _ _ _ hlen hps hcov (by simp [hs, ownLinks])
    | some p =>
      have hin : stack.idxOf? f.target = some p.1 := hlink p.1 p.2 (by simp [hs, ownLinks])
      have hlt : p.1 < stack.length := (List.idxOf?_eq_some_iff.1 hin).1
      rw [List.length_eq_zero_iff.1 (hlen.trans (by rw [hnil]; rfl))] at hps
      cases hps
      refine ⟨Std.ExtTreeSet.ofList [stack.length - 1 - p.1], st, ?_, rfl, fun l => ?_⟩
      · simp only [outline, hin]
        exact ends_pure.2 ⟨by simp [hnil, TermShape.payload], rfl⟩
      · simp only [Std.ExtTreeSet.mem_ofList, inward, hs, ownLinks, hnil, List.flatMap_nil,
          List.append_nil, List.mem_singleton, List.contains_iff_mem]
        constructor
        · rintro rfl
          exact ⟨p.1, ⟨p.2, rfl⟩, by omega⟩
        · rintro ⟨k, ⟨m, rfl⟩, he⟩
          simp only at he ⊢
          omega
  | array =>
    rw [hs] at hnames
    exact ends_below (fun ds => ds) _ rfl (ends_mapM.2 (hnames ▸ hps)) hw (by simp [hs, ownLinks])
  | tuple =>
    rw [hs] at hnames
    exact ends_below (fun ds => ds) _ rfl (ends_mapM.2 (hnames ▸ hps)) hw (by simp [hs, ownLinks])
  | reference symbol =>
    rw [hs] at hnames
    exact ends_below (fun ds => ds) _ rfl (ends_mapM.2 (hnames ▸ hps)) hw (by simp [hs, ownLinks])
  | object heads =>
    rw [hs] at hcov
    have hzip : heads.length = f.names.length := hcov.1.trans hlen.symm
    have hvisits : Chain visit (((heads.zip f.names).map fieldOf).map Field.type) st ps st' := by
      rwa [map_type_fieldOf hzip]
    have hpayload : ((heads.zip f.names).map fieldOf).map
        (fun g => fieldPayload g.name g.optional g.readonly g.tags) =
        heads.map fun g => fieldPayload g.name g.optional g.readonly g.tags := by
      conv_rhs => rw [← List.map_fst_zip hzip.le]
      simp [fieldOf, Function.comp_def]
    simp only [outline_object, sortFields_of_rising (rising_fieldOf hcov.2 hzip), hpayload]
    exact ends_below (fun ds => ds) _ rfl (ends_mapM.2 hvisits.of_map) hw (by simp [hs, ownLinks])
  | union δ =>
    rw [hs] at hcov
    exact ends_below sortDigests _ (sortDigests_of_rising hcov.2.1) (ends_mapM.2 hps) hw (by simp [hs, ownLinks])
  | intersection =>
    rw [hs] at hcov
    exact ends_below sortDigests _ (sortDigests_of_rising hcov.1) (ends_mapM.2 hps) hw (by simp [hs, ownLinks])

/-! ## Runs -/

/-- Remembered digests are those of closed terms. -/
def Recalls (d : Digester) (a : Algorithm) (t : Term) (A : Arena) (st : State) : Prop :=
  ∀ x y, st.closed[x]? = some y →
    ∃ f, Written d a t A x f ∧ f.term.links = [] ∧ y = f.term.digest

theorem hashes_of_closed (hc : t.links = []) : Hashes n t (t.digest, ∅) :=
  ⟨rfl, by simp [reach, hc]⟩

/-- Outside a recursion target, its own height is not among those that it refers to. -/
theorem Spans.hashes {hs : Heights} (h : Spans (n + t.depth) t hs) :
    Hashes n t (t.digest, if t.binder then hs.erase n else hs) := by
  refine ⟨rfl, fun l => ?_⟩
  simp only [mem_reach, mem_links]
  cases hb : t.binder with
  | false =>
    rw [depth_of_plain hb] at h ⊢
    exact h l
  | true =>
    rw [depth_of_target hb] at h ⊢
    simp only [if_true, Std.ExtTreeSet.mem_erase, h l]
    constructor
    · rintro ⟨hne, k, hk, he⟩
      have hne : n ≠ l := fun hc => hne (by simp [hc])
      obtain ⟨j, rfl⟩ : ∃ j, k = j + 1 := Nat.exists_eq_succ_of_ne_zero (by omega)
      exact ⟨j, hk, by omega⟩
    · rintro ⟨k, hk, he⟩
      exact ⟨fun hc => by have : n = l := by simpa using hc
                          omega, k + 1, hk, by omega⟩

theorem ends_nodeDigest {kind : String} {payload : List (String × Datum)} {cs : List String}
    {x : String} (h : s.digester.node s.algorithm kind payload cs = .ok x) :
    Ends (nodeDigest s kind payload cs) st x st := ends_lift.2 ⟨h, rfl⟩

end Hasher

theorem Graph.mem_binders {g : Graph} :
    id ∈ g.binders ↔
      ∃ (y : NodeId) (m : Node), g.nodes[y]? = some m ∧ m.shape.recursionTarget? = some id := by
  simp only [binders, Std.ExtTreeSet.mem_ofList, List.contains_iff_mem, List.mem_filterMap,
    Prod.exists, Std.ExtTreeMap.mem_toList_iff_getElem?_eq_some]

namespace Hasher

variable {g : Graph} {fuel : ℕ} {path : Std.ExtTreeSet NodeId} {st : State}

theorem contains_binders (h : Laid d a S t r g.nodes) (hdet : t.Detached g.nodes)
    (he : Written d a t g.nodes id e) : g.binders.contains id = e.term.binder := by
  rw [Bool.eq_iff_iff, Std.ExtTreeSet.contains_iff_mem, Graph.mem_binders, h.binder_iff hdet he]

/-- The hash of a node is the digest of its term. -/
theorem ends_digest (h : Laid d a S t r g.nodes) (hdet : t.Detached g.nodes)
    (hs : Stands d a t g.nodes trail stack id e) (hst : Recalls d a t g.nodes st)
    (hpath : ∀ x, path.contains x → x ∈ trail) (hfuel : g.nodes.size < fuel + trail.length) :
    ∃ p st', Ends (digest ⟨d, a, g, g.binders⟩ fuel id stack path) st p st' ∧
      Recalls d a t g.nodes st' ∧ Hashes stack.length e.term p := by
  induction fuel generalizing trail stack id e st path with
  | zero =>
    have := hs.length_lt h
    omega
  | succ fuel ih =>
    have hf := h.formed_of_written hs.written
    cases hclosed : st.closed[id]? with
    | some y =>
      obtain ⟨f, hwf, hlinks, rfl⟩ := hst id y hclosed
      obtain ⟨htwin, hd, -⟩ := h.agree_of_written h hs.written hwf
      refine ⟨(f.term.digest, ∅), st, ?_, hst, (hashes_of_closed hlinks).twin htwin hd⟩
      simp only [digest, ends_bind]
      exact ⟨st, st, ends_get.2 ⟨rfl, rfl⟩, by rw [hclosed]; exact ends_pure.2 ⟨rfl, rfl⟩⟩
    | none =>
      have hnode : g.node? id = some (e.node id) := hs.written.node
      have hout : path.contains id = false :=
        Bool.eq_false_iff.2 fun hc => hs.not_mem_trail h (hpath id hc)
      obtain ⟨ps, st₁, hps, hst₁, hsteps⟩ := exists_chain
        (f := fun x => digest ⟨d, a, g, g.binders⟩ fuel x (e.term.push id stack) (path.insert id))
        (Q := fun x _ p _ => ∃ f, Written d a t g.nodes x f ∧
          Hashes (e.term.push id stack).length f.term p) (fun x hx st hst => by
            obtain ⟨f, hf⟩ := hs.exists_child h hx
            obtain ⟨p, st', hp, hst', hw⟩ := ih hf hst
              (Folding.mem_trail_of_contains_insert hpath) (by simp only [List.length_cons]; omega)
            exact ⟨p, st', hp, hst', f, hf.written, hw⟩) hst
      have hw := h.forall₂_children hs.written (hsteps.forall₂ fun x _ p _ hp => hp)
        fun u v p htwin hd hp => hp.twin htwin hd
      obtain ⟨hs', st₂, hparts, hc₂, hspans⟩ := ends_parts ⟨d, a, g, g.binders⟩ id hf.here
        hs.written.children.length_eq.symm (fun k l hk => hs.idxOf_target h hk)
        (fun symbol raw hshape => hs.not_mem_push
          (hdet _ hs.written.asked.choose_spec.1.sub symbol raw hshape)) hps hw
      rw [length_push] at hspans
      have hhash := hspans.hashes
      have hdigest : d.node a (e.node id).shape.kind (sharedPayload e.term.shape.payload
          (e.node id).tags e.term.binder) (e.term.children.map Term.digest) = .ok e.term.digest := by
        rw [Entry.node, outline_kind]
        exact hf.here.digested
      set free := if e.term.binder then hs'.erase stack.length else hs' with hfree
      refine ⟨(e.term.digest, free), if free.isEmpty then
        { st₂ with closed := st₂.closed.insert id e.term.digest } else st₂, ?_, ?_, hhash⟩
      · simp only [digest, ends_bind]
        refine ⟨st, st, ends_get.2 ⟨rfl, rfl⟩, ?_⟩
        simp only [hclosed, hnode, hout, contains_binders h hdet hs.written, Bool.false_eq_true,
          if_false, ends_bind]
        refine ⟨_, st₂, hparts, e.term.digest, st₂, ends_nodeDigest hdigest, ?_⟩
        simp only [← hfree]
        split
        · exact ends_bind.2 ⟨(), _, ends_modify.2 rfl, ends_pure.2 ⟨rfl, rfl⟩⟩
        · exact ends_pure.2 ⟨rfl, rfl⟩
      · have hrecalls : Recalls d a t g.nodes st₂ := fun x y hy => hst₁ x y (hc₂ ▸ hy)
        split
        · next hc =>
          intro x y hy
          rw [Std.ExtTreeMap.getElem?_insert] at hy
          split at hy
          · next hx =>
            obtain rfl : id = x := by simpa using hx
            exact ⟨e, hs.written, hhash.links_eq_nil (fun k => hs.lt_length h) hc,
              (Option.some.inj hy).symm⟩
          · exact hrecalls x y hy
        · exact hrecalls

/-- The digest of an arena is the name of its root. -/
theorem exists_digest_of_laid {g : Graph} (h : Laid d a S t g.root g.nodes)
    (hdet : t.Detached g.nodes) :
    ∃ p st, Ends (digest ⟨d, a, g, g.binders⟩ (g.nodes.size + 1) g.root [] ∅) {} p st ∧
      p.1 = g.root := by
  obtain ⟨e, hs, -, hd⟩ := Stands.root h
  have hnone : Recalls d a t g.nodes {} := fun x y hy => by simp at hy
  have hpath : ∀ x, (∅ : Std.ExtTreeSet NodeId).contains x → x ∈ ([] : List NodeId) := by simp
  obtain ⟨p, st, hp, -, hhash⟩ := ends_digest h hdet hs hnone hpath (Nat.lt_succ_self g.nodes.size)
  refine ⟨p, st, hp, ?_⟩
  rw [hhash.digest, ← hd]
  cases h.named with
  | closed _ h => exact h
  | opened ho _ _ =>
    have hclosed : t.free.isEmpty := by
      rw [← h.formed.here.links_eq_nil, ← reach_eq_nil, List.eq_nil_iff_forall_not_mem]
      exact fun k hk => absurd (h.level.lt_of_mem_reach hk) (Nat.not_lt_zero k)
    simp [hclosed] at ho

end Hasher

/-- The hash of a normalized graph is the name of its root. -/
theorem Graph.hash_eq_root {g : Graph} {c : CanonicalGraph}
    (hc : g.canonical? d a = some c)
    (hfree : d.CollisionFree a (g.texts d a)) (hset : g.Settled d a)
    (hdet : ∀ t, g.Folds d a t → t.Detached c.nodes) :
    ∃ o, c.toGraph.hash d a = .ok o ∧ ∀ h, o.value = some h → h = c.root := by
  obtain ⟨t, hfold, hlaid⟩ := exists_laid hc hfree subset_rfl hset
  obtain ⟨p, st, hp, hroot⟩ := Hasher.exists_digest_of_laid (g := c.toGraph) hlaid (hdet t hfold)
  refine ⟨st.sink.outcome (if st.sink.hasErrors then none else some p.1), ?_, fun h hh => ?_⟩
  · have hrun : (Hasher.digest ⟨d, a, c.toGraph, c.toGraph.binders⟩ (c.nodes.size + 1) c.root [] ∅).run
      {} = .ok (p, st) := hp
    simp only [hash, hrun]
    rfl
  · simp only [Sink.outcome] at hh
    split at hh
    · cases hh
    · rw [← Option.some.inj hh, hroot]

/-- Lists of lists have a hash, and it is the name of their root. -/
theorem Graph.hash_eq_root_nested :
    ∃ c, nested.canonical? .legible .sha256 = some c ∧
      Digester.legible.CollisionFree .sha256 (nested.texts .legible .sha256) ∧
      nested.Settled .legible .sha256 ∧ (∀ t, nested.Folds .legible .sha256 t → t.Detached c.nodes) ∧
      ∃ o, c.toGraph.hash .legible .sha256 = .ok o ∧ ∀ h, o.value = some h → h = c.root := by
  have hsome : (nested.canonical? .legible .sha256).isSome := by decide +kernel
  obtain ⟨c, hc⟩ := Option.isSome_iff_exists.1 hsome
  have hfree := Digester.legible_collisionFree .sha256 (nested.texts .legible .sha256)
  have hset := settled_of_upright nested_upright
  have hdet : ∀ t, nested.Folds .legible .sha256 t → t.Detached c.nodes :=
    fun t ht => (linked_of_upright nested_upright t ht).detached
  exact ⟨c, hc, hfree, hset, hdet, hash_eq_root hc hfree hset hdet⟩

end TypeAtlas
