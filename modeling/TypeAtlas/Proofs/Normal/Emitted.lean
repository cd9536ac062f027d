import TypeAtlas.Proofs.Normal.Idempotent
import TypeAtlas.Proofs.Normal.Total

/-! # Writing out and hashing do not fail

A settled term can be written out: every height to which it refers is that of an enclosing target.
If what it says can be written, so can what the nodes of its arena say, and the arena can be hashed.
-/

namespace TypeAtlas

open Emission Term

variable {d : Digester} {a : Algorithm} {t c : Term} {ts : List Term} {τ : List NodeId}
  {id root : NodeId} {A B : Arena} {n : Node}

namespace Term

/-! ## Writing out -/

theorem exists_named (hf : t.Formed d a) (hl : t.Level τ.length) : ∃ id, t.Named d a τ id := by
  by_cases hc : t.free.isEmpty
  · exact ⟨t.digest, .closed hc rfl⟩
  · have hids : t.Targets τ (t.free.toList.map fun l => τ.getD l "") := by
      rw [Targets, List.map_map]
      refine List.map_congr_left fun l hl' => ?_
      obtain ⟨k, hk⟩ := (mem_free_toList hf).1 hl'
      have hlt : l < τ.length := by
        have := hl (k, l) hk
        simp only at this
        omega
      simp [hlt]
    have hpayload : ∀ f ∈ [("binders", Datum.texts (t.free.toList.map fun l => τ.getD l ""))],
        f.2.Writes 252 := fun f hf => List.mem_singleton.1 hf ▸ Datum.writes_texts _
    obtain ⟨id, hid⟩ := d.exists_node a "open" [t.digest] hpayload
    exact ⟨id, .opened (Bool.eq_false_iff.2 hc) hids hid⟩

theorem exists_target {shape : TermShape} (h : ∀ p ∈ ownLinks shape, p.2 < τ.length) :
    ∃ target, ∀ p ∈ ownLinks shape, τ[p.2]? = some target := by
  cases shape with
  | recursiveRef symbol raw link =>
    cases link with
    | none => exact ⟨"", by simp [ownLinks]⟩
    | some p =>
      have hlt := h p (by simp [ownLinks])
      exact ⟨τ[p.2], by simp [ownLinks, List.getElem?_eq_getElem hlt]⟩
  | _ => exact ⟨"", by simp [ownLinks]⟩

theorem exists_emitAll {id : NodeId} {D : Arena} {done : List Term} {ids₀ : List NodeId}
    (hemit : ∀ before c after A ids, t.children = before ++ c :: after →
      Ends (emitAll d a before (t.inner τ id)) D ids A →
        ∃ i B, Ends (emit d a c (t.inner τ id)) A i B)
    (hc : t.children = done ++ ts) (hdone : Ends (emitAll d a done (t.inner τ id)) D ids₀ A) :
    ∃ ids B, Ends (emitAll d a ts (t.inner τ id)) A ids B := by
  induction ts generalizing A ids₀ done with
  | nil => exact ⟨[], A, ends_emitAll_nil.2 ⟨rfl, rfl⟩⟩
  | cons c cs ih =>
    obtain ⟨i, C, hi⟩ := hemit done c cs A ids₀ hc hdone
    obtain ⟨ids, B, hids⟩ := ih (by simp [hc]) (ends_emitAll_append.2 ⟨ids₀, A, [i], hdone,
      ends_emitAll_cons.2 ⟨i, C, [], hi, ends_emitAll_nil.2 ⟨rfl, rfl⟩, rfl⟩, rfl⟩)
    exact ⟨i :: ids, B, ends_emitAll_cons.2 ⟨i, C, ids, hi, hids, rfl⟩⟩

/-- A term whose closed parts stand where they were folded can be written out. -/
theorem exists_emit (hf : t.Throughout (Formed d a)) (hl : t.Level τ.length)
    (hs : ∀ v σ C, Asks d a t τ A v σ C → v.free.isEmpty → v.digest ∉ C → v.Placed σ.length) :
    ∃ id B, Ends (emit d a t τ) A id B := by
  induction t generalizing τ A with
  | mk head cs ih =>
    obtain ⟨id, hn⟩ := exists_named hf.here hl
    by_cases hid : id ∈ A
    · exact ⟨id, A, ends_emit_of_mem hn hid⟩
    · have hplaced : (mk head cs).Placed τ.length := hl.placed hf.here fun hc =>
        hs _ _ _ .here hc (by
          cases hn with
          | closed _ hd => exact hd ▸ hid
          | opened ho _ _ => exact absurd (hc.symm.trans ho) (by decide))
      obtain ⟨ids, C, hall⟩ := exists_emitAll (t := mk head cs)
        (fun before c after B ids hc hb => by
          have hmem : c ∈ (mk head cs).children := by simp [hc]
          refine ih c hmem (hf.child hmem) ?_ fun v σ D hv => hs v σ D (.deeper hn hid hc hb hv)
          rw [length_inner]
          exact hplaced.child hmem) (rfl : _ = [] ++ cs) (ends_emitAll_nil.2 ⟨rfl, rfl⟩)
      have hlinks : ∀ p ∈ ownLinks (mk head cs).shape,
          p.2 < ((mk head cs).inner τ id).length := by
        intro p hp
        have := hplaced p (mem_inward.2 (.inl hp))
        rw [length_inner]
        omega
      obtain ⟨target, htarget⟩ := exists_target hlinks
      exact ⟨id, _, ends_emit_of_new hn hid hall htarget⟩

end Term

namespace Emission

/-- Nothing but a recursive reference without a target keeps a term from being written out. -/
abbrev Astray : Fault → Prop := fun e => e = .noEnclosingTarget

theorem failsOnly_targetAt (τ : List NodeId) (height : ℕ) : FailsOnly Astray (targetAt τ height) := by
  unfold targetAt
  split
  · exact failsOnly_pure _
  · exact failsOnly_throw rfl

theorem failsOnly_name (h : TermHead) (τ : List NodeId) : FailsOnly Astray (name d a h τ) := by
  unfold name
  split
  · exact failsOnly_pure _
  · refine (failsOnly_mapM (failsOnly_targetAt τ) _).bind fun ids => failsOnly_lift fun e he => ?_
    have hpayload : ∀ f ∈ [("binders", Datum.texts ids)], f.2.Writes 252 := fun f hf =>
      List.mem_singleton.1 hf ▸ Datum.writes_texts _
    obtain ⟨id, hid⟩ := d.exists_node a "open" [h.digest] hpayload
    rw [hid] at he
    cases he

theorem failsOnly_shapeOf (shape : TermShape) (τ ids : List NodeId) :
    FailsOnly Astray (shapeOf shape τ ids) := by
  cases shape with
  | recursiveRef symbol target link =>
    cases link with
    | none => exact failsOnly_pure _
    | some link => exact (failsOnly_targetAt τ link.2).bind fun _ => failsOnly_pure _
  | _ => exact failsOnly_pure _

theorem failsOnly_emitAll (h : ∀ t ∈ ts, ∀ τ, FailsOnly Astray (emit d a t τ)) (τ : List NodeId) :
    FailsOnly Astray (emitAll d a ts τ) := by
  induction ts with
  | nil => exact failsOnly_pure []
  | cons t ts ih =>
    obtain ⟨ht, hts⟩ := List.forall_mem_cons.1 h
    exact (ht τ).bind fun _ => (ih hts).bind fun _ => failsOnly_pure _

theorem failsOnly_emit (t : Term) (τ : List NodeId) : FailsOnly Astray (emit d a t τ) := by
  induction t generalizing τ with
  | mk h cs ih =>
    rw [emit]
    refine (failsOnly_name h τ).bind fun id => failsOnly_get.bind fun A => ?_
    split
    · exact failsOnly_pure id
    · refine (failsOnly_emitAll ih _).bind fun ids => (failsOnly_shapeOf h.shape _ ids).bind fun shape => ?_
      exact (failsOnly_modify _).bind fun _ => failsOnly_pure id

end Emission

/-- What is said by a node, and by what tells its members apart, can be written. -/
structure Node.Digestible (n : Node) : Prop extends n.Encodable where
  discriminant : ∀ ms δ, n.shape = .union ms (some δ) → ∀ x ∈ δ.values, x.Encodable

theorem Term.Encodable.node (ht : t.Encodable) (h : Ends (emit d a t []) ∅ root A)
    (hn : A[id]? = some n) : n.Digestible := by
  have hfiled := (filed_of_emit h (fun _ _ _ h => h) fun _ hn => by simp at hn).1
  obtain ⟨e, he⟩ := hfiled id (mem_iff_exists_getElem?.2 ⟨n, hn⟩)
  obtain ⟨B, hask, -⟩ := he.asked
  obtain rfl := Option.some.inj (he.node.symm.trans hn)
  obtain ⟨hshape, htags⟩ := ht _ hask.sub
  unfold Entry.node
  cases hs : e.term.shape with
  | literal k x =>
    rw [hs] at hshape
    refine ⟨⟨htags, nofun, fun k' x' hx => ?_, nofun⟩, nofun⟩
    cases hx
    exact hshape
  | enum ms =>
    rw [hs] at hshape
    refine ⟨⟨htags, nofun, nofun, fun ms' hms => ?_⟩, nofun⟩
    cases hms
    exact hshape
  | object heads =>
    rw [hs] at hshape
    refine ⟨⟨htags, fun fs hfs f hf => ?_, nofun, nofun⟩, nofun⟩
    rw [outline_object] at hfs
    cases hfs
    obtain ⟨p, hp, rfl⟩ := List.mem_map.1 hf
    exact hshape p.1 (List.of_mem_zip hp).1
  | union δ =>
    rw [hs] at hshape
    refine ⟨⟨htags, nofun, nofun, nofun⟩, fun ms δ' hδ => ?_⟩
    cases hδ
    exact hshape δ' rfl
  | recursiveRef symbol raw link =>
    cases link with
    | none => exact ⟨⟨htags, nofun, nofun, nofun⟩, nofun⟩
    | some p => exact ⟨⟨htags, nofun, nofun, nofun⟩, nofun⟩
  | _ => exact ⟨⟨htags, nofun, nofun, nofun⟩, nofun⟩

/-! ## Normalizing -/

theorem Graph.Folds.exists_ends_emit {g : Graph} (h : g.Folds d a t) (hset : g.Settled d a) :
    ∃ root A, Ends (emit d a t []) ∅ root A :=
  exists_emit h.derives.sits.formed h.derives.sits.level fun v σ C hv => hset t h v σ C hv

section Normalizing

variable {g : Graph} (hgraph : ∀ id n, g.node? id = some n → n.Encodable)
  (hread : ∀ id n, g.node? id = some n → ∀ t, Folding.TagsReadable n.tags t)
  (hsize : g.nodes.size < 0x10000000000000000)

include hgraph hread hsize

/-- A graph folds into a term, and the term is written out unless a recursive reference in it has no
target there. In a settled graph every one has. -/
theorem Graph.normalize_cases :
    ∃ t st, Ends (Folding.root (g.setting d a)) {} t st ∧ t.Encodable ∧
      ((∃ root A, Ends (emit d a t []) ∅ root A ∧ g.normalize d a = .ok
          ⟨st.sink.outcome (some { g with root, nodes := A, algorithm := a.name }), st.dead,
            st.deadline⟩) ∨
        g.normalize d a = .error .noEnclosingTarget ∧ ¬ g.Settled d a) := by
  obtain ⟨t, st, hfold, henc⟩ := Folding.exists_ends_root (s := g.setting d a) hgraph hread hsize
  refine ⟨t, st, hfold, henc, ?_⟩
  have hf : g.Folds d a t := ⟨st, hfold⟩
  have hfold : (Folding.root (g.setting d a)).run {} = .ok (t, st) := hfold
  cases hemit : (emit d a t []).run ∅ with
  | ok written =>
    refine .inl ⟨written.1, written.2, hemit, ?_⟩
    simp only [Graph.normalize, Graph.normalizeFrom, hfold, hemit, bind, Except.bind, pure,
      Except.pure]
  | error e =>
    obtain rfl := failsOnly_emit t [] ∅ e hemit
    refine .inr ⟨?_, fun hset => ?_⟩
    · simp only [Graph.normalize, Graph.normalizeFrom, hfold, hemit, bind, Except.bind]
    · obtain ⟨root, A, hends⟩ := hf.exists_ends_emit hset
      cases hemit.symm.trans hends

end Normalizing

/-! ## Hashing -/

namespace Hasher

variable {s : Setting} {st : State} {stack : List NodeId} {visit : NodeId → M (String × Heights)}

theorem exists_parts (hn : n.Digestible) (hvisit : ∀ c st, ∃ q st', Ends (visit c) st q st')
    (hstack : stack.length ≤ 0x10000000000000000) :
    ∃ p st', Ends (parts s n stack visit) st p st' ∧ ∀ f ∈ p.1, f.2.Writes 252 := by
  have hvisits {β : Type} (f : β → NodeId) (cs : List β) :
      ∃ qs st', Ends (cs.mapM fun c => visit (f c)) st qs st' := by
    obtain ⟨qs, st', hqs, -, -⟩ := exists_chain (I := fun _ => True) (Q := fun _ _ _ _ => True)
      (fun c _ st _ => by
        obtain ⟨q, st', hq⟩ := hvisit (f c) st
        exact ⟨q, st', hq, trivial, trivial⟩) trivial
    exact ⟨qs, st', ends_mapM.2 hqs⟩
  have hleaf (shape : TermShape) {cs : List String} {hs : Heights} (h : shape.Encodable) :
      ∃ p st', Ends (pure (shape.payload, cs, hs) : M _) st p st' ∧ ∀ f ∈ p.1, f.2.Writes 252 :=
    ⟨_, st, ends_pure.2 ⟨rfl, rfl⟩, h.writes⟩
  have hnodes {β : Type} (f : β → NodeId) (cs : List β) {payload : List (String × Datum)}
      {g : List String → List String} (h : ∀ f ∈ payload, f.2.Writes 252) :
      ∃ p st', Ends (do
        let below := together (← cs.mapM fun c => visit (f c))
        return (payload, g below.1, below.2) : M _) st p st' ∧ ∀ f ∈ p.1, f.2.Writes 252 := by
    obtain ⟨qs, st', hqs⟩ := hvisits f cs
    exact ⟨_, st', ends_bind.2 ⟨qs, st', hqs, ends_pure.2 ⟨rfl, rfl⟩⟩, h⟩
  unfold parts
  cases hs : n.shape with
  | recursiveRef target symbol =>
    dsimp only
    split
    · exact ⟨_, _, ends_bind.2 ⟨⟨⟩, _, ends_modify.2 rfl, ends_pure.2 ⟨rfl, rfl⟩⟩,
        writes_recursionPayload (by simp)⟩
    · next depth hdepth =>
      refine ⟨_, st, ends_pure.2 ⟨rfl, rfl⟩, writes_recursionPayload fun m hm => ?_⟩
      obtain rfl := Option.some.inj hm
      exact Nat.lt_of_lt_of_le (List.idxOf?_eq_some_iff.1 hdepth).1 hstack
  | unknown reason cause =>
    have hpayload : ∀ f ∈ unknownPayload reason cause, f.2.Writes 252 :=
      @TermShape.Encodable.writes (.unknown reason cause) trivial
    dsimp only
    split
    · exact ⟨_, _, ends_bind.2 ⟨⟨⟩, _, ends_modify.2 rfl, ends_pure.2 ⟨rfl, rfl⟩⟩, hpayload⟩
    · exact ⟨_, st, ends_pure.2 ⟨rfl, rfl⟩, hpayload⟩
  | primitive p => exact hleaf (.primitive p) trivial
  | literal k x => exact hleaf (.literal k x) (hn.literal k x hs)
  | enum ms => exact hleaf (.enum ms) (hn.enum ms hs)
  | object fs =>
    refine hnodes Field.type (sortFields fs) (g := id) fun f hf => ?_
    obtain rfl := List.mem_singleton.1 hf
    refine Datum.writes_list fun v hv => ?_
    obtain ⟨g, hg, rfl⟩ := List.mem_map.1 hv
    exact writes_fieldPayload _ _ _ (hn.fields fs hs g (List.mem_mergeSort.1 hg))
  | union ms δ =>
    exact hnodes id ms (g := sortDigests) (writes_unionPayload fun d hd =>
      hn.discriminant ms d (hd ▸ hs))
  | intersection ms => exact hnodes id ms (g := sortDigests) (by simp)
  | array e => exact hnodes id [e] (g := id) (by simp)
  | tuple es => exact hnodes id es (g := id) (by simp)
  | reference target symbol => exact hnodes id [target] (g := id) (by simp)

theorem exists_nodeDigest (kind : String) (payload : List (String × Datum)) (cs : List String)
    (h : ∀ f ∈ payload, f.2.Writes 252) (st : State) :
    ∃ x, Ends (nodeDigest s kind payload cs) st x st := by
  obtain ⟨x, hx⟩ := s.digester.exists_node s.algorithm kind cs h
  exact ⟨x, ends_lift.2 ⟨hx, rfl⟩⟩

theorem exists_brokenDigest (st : State) : ∃ q, Ends (brokenDigest s) st q st := by
  obtain ⟨x, hx⟩ := exists_nodeDigest (s := s) "unknown" [("cause", .text "recursion")] []
    (fun f hf => List.mem_singleton.1 hf ▸ Datum.writes_text "recursion") st
  exact ⟨_, ends_bind.2 ⟨x, st, hx, ends_pure.2 ⟨rfl, rfl⟩⟩⟩

/-- Whatever node a hash starts at, and however little fuel it has left, it comes to a digest. -/
theorem exists_digest (hgraph : ∀ (id : NodeId) (n : Node), s.graph.node? id = some n → n.Digestible)
    {fuel : ℕ} {path : Std.ExtTreeSet NodeId} (hfuel : stack.length + fuel ≤ 0x10000000000000000)
    (st : State) : ∃ q st', Ends (digest s fuel id stack path) st q st' := by
  have hbroken (detail : String) (id : NodeId) (st : State) :
      ∃ q st', Ends (do unstable s detail id; brokenDigest s) st q st' := by
    obtain ⟨q, hq⟩ := exists_brokenDigest (s := s) _
    exact ⟨q, _, ends_bind.2 ⟨⟨⟩, _, ends_modify.2 rfl, hq⟩⟩
  induction fuel generalizing id stack path st with
  | zero =>
    obtain ⟨q, hq⟩ := exists_brokenDigest (s := s) st
    exact ⟨q, st, hq⟩
  | succ fuel ih =>
    simp only [digest, ends_bind]
    cases hclosed : st.closed[id]? with
    | some x =>
      refine ⟨(x, ∅), st, st, st, ends_get.2 ⟨rfl, rfl⟩, ?_⟩
      rw [hclosed]
      exact ends_pure.2 ⟨rfl, rfl⟩
    | none =>
      cases hn : s.graph.node? id with
      | none =>
        obtain ⟨q, st', hq⟩ := hbroken ("missing node " ++ id) id st
        refine ⟨q, st', st, st, ends_get.2 ⟨rfl, rfl⟩, ?_⟩
        simpa only [hclosed] using hq
      | some n =>
        by_cases hp : path.contains id
        · obtain ⟨q, st', hq⟩ := hbroken ("cycle without recursive_ref " ++ id) id st
          refine ⟨q, st', st, st, ends_get.2 ⟨rfl, rfl⟩, ?_⟩
          simpa only [hclosed, if_pos hp] using hq
        · set inner := if s.binders.contains id then id :: stack else stack with hinner
          have hlength : inner.length ≤ stack.length + 1 := by
            rw [hinner]
            split <;> simp
          obtain ⟨p, st₁, hparts, hpayload⟩ : ∃ p st₁,
              Ends (parts s n inner fun c => digest s fuel c inner (path.insert id)) st p st₁ ∧
                ∀ f ∈ p.1, f.2.Writes 252 :=
            exists_parts (hgraph id n hn) (fun c st => ih (by omega) st) (by omega)
          obtain ⟨x, hx⟩ := exists_nodeDigest (s := s) n.shape.kind _ p.2.1
            (writes_sharedPayload (s.binders.contains id) (by decide) hpayload
              (hgraph id n hn).tags) st₁
          set free := if s.binders.contains id then p.2.2.erase stack.length else p.2.2
            with hfree
          refine ⟨(x, free), if free.isEmpty then
            { st₁ with closed := st₁.closed.insert id x } else st₁, st, st,
            ends_get.2 ⟨rfl, rfl⟩, ?_⟩
          simp only [hclosed, if_neg hp, ends_bind]
          refine ⟨p, st₁, hparts, x, st₁, hx, ?_⟩
          simp only [← hfree]
          split
          · exact ends_bind.2 ⟨⟨⟩, _, ends_modify.2 rfl, ends_pure.2 ⟨rfl, rfl⟩⟩
          · exact ends_pure.2 ⟨rfl, rfl⟩

end Hasher

/-- A graph of which everything can be written can be hashed. -/
theorem Graph.exists_hash {g : Graph} (hgraph : ∀ id n, g.node? id = some n → n.Digestible)
    (hsize : g.nodes.size < 0x10000000000000000) : ∃ o, g.hash d a = .ok o := by
  obtain ⟨q, st, hq⟩ : ∃ q st,
      Ends (Hasher.digest ⟨d, a, g, g.binders⟩ (g.nodes.size + 1) g.root [] ∅) {} q st :=
    Hasher.exists_digest hgraph (by simp only [List.length_nil]; omega) {}
  exact exists_bind ⟨(q, st), hq⟩ fun _ _ => ⟨_, rfl⟩

end TypeAtlas
