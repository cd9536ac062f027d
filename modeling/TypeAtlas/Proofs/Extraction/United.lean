import TypeAtlas.Proofs.Extraction.Limited
import TypeAtlas.Proofs.Relabeling.Written
import TypeAtlas.Proofs.Rerooting.Folded
import TypeAtlas.Proofs.Rerooting.Walked

/-! # Unions of a single member

When the description of a declaration becomes the only member of a union, the hash of the declaration
stays the same, and nothing is reported but that the union gave way to its member. The exception is a
description that is no union itself and refers back to its own declaration: the references then name
the union, which is kept.
-/

namespace TypeAtlas

open Resolution

variable {d : Digester} {a : Algorithm} {g g' : Graph} {deadline : Option Deadline} {normal : Normalized}

/-! ## Normalization -/

namespace Resolution

theorem exists_target_moved (k : ℕ) : ∃ j, moved.target (numbered k) = numbered j := by
  by_cases hroot : numbered k = moved.root
  · exact ⟨k, hroot ▸ moved.target_root⟩
  · rw [moved.target_of_ne hroot]
    rcases nextName_eq_or (numbered k) with ⟨j, -, h⟩ | ⟨-, h⟩
    · exact ⟨j + 2, h⟩
    · exact ⟨k, h⟩

end Resolution

namespace Graph

theorem collapses_of_normalize (hn : g.normalize d a deadline = .ok normal) (hok : normal.outcome.ok) :
    ∀ e ∈ normal.outcome.diagnostics, Folding.Collapses e := by
  obtain ⟨t, st, root, nodes, hfold, -, rfl⟩ := normalize_eq_ok hn
  exact Folding.collapses_of_ends_root hfold (by simpa using hok)

theorem diagnostics_of_hash {hash : Outcome String} (hh : g.hash d a = .ok hash) (hok : hash.ok) :
    hash.diagnostics = [] := by
  rw [Outcome.ok, Bool.not_eq_true', List.any_eq_false] at hok
  exact List.eq_nil_iff_forall_not_mem.2 fun e he => hok e he (errors_of_hash hh e he).2

/-- Names of raw nodes are no names of canonical nodes, so references that have lost their targets have
lost them under other names as well. -/
theorem Folds.loses {t : Term} {root : NodeId} {A : Arena} {node : NodeId → NodeId}
    (hnode : Function.Injective node) (h : g.Folds d a t) (hd : d.Unnumbered a)
    (htargets : ∀ id n, g.node? id = some n → ∀ x, n.shape.recursionTarget? = some x →
      ∃ k, x = numbered k)
    (hemit : Ends (Emission.emit d a t []) ∅ root A) : (moved.naming hnode).Loses A t := by
  intro u hu symbol raw hshape
  obtain ⟨id, n, hn, htarget⟩ := h.recursive hu hshape
  obtain ⟨k, rfl⟩ := htargets id n hn raw htarget
  obtain ⟨j, hj⟩ : ∃ j, (moved.naming hnode).target (numbered k) = numbered j := exists_target_moved k
  rw [hj]
  exact ⟨h.numbered_not_mem hd hemit k, h.numbered_not_mem hd hemit j⟩

/-- The normal form of a graph is covered as the normal form of the graph below a union is, if the root
is an untagged union itself or no recursion target. -/
theorem Rerooted.normalize {location : Option SourceLocation} (h : g.Rerooted moved location g')
    (hg : g.nodes.Grown) (hmem : g.root ∈ g.nodes) (hback : g.UnionRooted ∨ g.root ∉ g.binders)
    (hd : d.Unnumbered a)
    (htargets : ∀ id n, g.node? id = some n → ∀ x, n.shape.recursionTarget? = some x →
      ∃ k, x = numbered k)
    (hn : g.normalize d a deadline = .ok normal) :
    ∃ normal' c c', g'.normalize d a = .ok normal' ∧ normal.outcome.value = some c ∧
      normal'.outcome.value = some c' ∧ c.toGraph.Covered False c'.toGraph ∧
      normal'.outcome.ok = normal.outcome.ok := by
  obtain ⟨t, st, root, nodes, hfold, hemit, rfl⟩ := normalize_eq_ok hn
  have huntimed := Folding.ends_root_untimed hfold
  obtain ⟨node, hnode, t', st', hfold', ht', hst'⟩ := h.exists_ends_root hg hmem hback huntimed
  have hlost := Folds.loses hnode ⟨_, huntimed⟩ hd htargets hemit
  have hwrites : Emission.Writes (Node.Covered nodes False) (· = ·) (Emission.emit d a t [])
      (Emission.emit d a t' []) := by
    rcases ht' with rfl | rfl
    · exact (moved.naming hnode).writes_term hlost []
    · exact (moved.naming hnode).writes_ascribed hlost _ []
  obtain ⟨_, nodes', hemit', rfl, hnodes⟩ := hwrites.ends Arena.Corresponds.empty hemit
  refine ⟨⟨st'.sink.outcome (some { g' with root, nodes := nodes', algorithm := a.name }), st'.dead,
    st'.deadline⟩, _, _, ?_, rfl, rfl, covered_of_corresponds rfl hnodes, ?_⟩
  · have hfold' : (Folding.root (g'.setting d a)).run {} = .ok (t', st') := hfold'
    have hemit' : (Emission.emit d a t' []).run ∅ = .ok (root, nodes') := hemit'
    simp only [Graph.normalize, normalizeFrom, hfold', hemit', bind, Except.bind, pure, Except.pure]
  · rw [Sink.ok_outcome, Sink.ok_outcome, hst']
    rfl

end Graph

/-! ## Declarations -/

namespace DeclarationTable

variable {t : DeclarationTable} {d : Declaration}

theorem key_of_lookup {k : DeclarationKey} (h : t.lookup k = some d) : d.key = k :=
  by simpa using List.find?_some (show t.find? _ = some d from h)

variable (d) (label : Option String) (position : Option Position)

/-- The declaration in a table in which the given one is described by a union with its description as
the only member. The union is added to every arena. -/
def unite (x : Declaration) : Declaration :=
  if x.key = d.key then d.united label position else x.extended (.ok (d.union label position))

variable (t) in
def united : DeclarationTable := t.map (unite d label position)

variable {d label position}

theorem key_unite (x : Declaration) : (unite d label position x).key = x.key := by
  unfold unite
  split
  · next h => exact h.symm
  · rfl

theorem lookup_united (k : DeclarationKey) :
    (t.united d label position).lookup k = (t.lookup k).map (unite d label position) := by
  rw [lookup, lookup, united, List.find?_map]
  simp only [Function.comp_def, key_unite]

theorem lookup_united_self (hd : t.lookup d.key = some d) :
    (t.united d label position).lookup d.key = some (d.united label position) := by
  rw [lookup_united, hd, Option.map_some, unite, if_pos rfl]

theorem lookup_united_of_ne {k : DeclarationKey} (hk : k ≠ d.key) :
    (t.united d label position).lookup k =
      (t.lookup k).map (Declaration.extended (.ok (d.union label position))) := by
  rw [lookup_united]
  refine Option.map_congr fun x hx => if_neg ?_
  rwa [key_of_lookup hx]

theorem depth_united (hd : d ∈ t) (hsize : ∀ x ∈ t, x.types.size = d.types.size) :
    (t.united d label position).source.depth = t.source.depth + 1 := by
  have hnext {x} (hx : x ∈ t) : (unite d label position x).types.size = x.types.size + 1 := by
    unfold unite
    split
    · rw [hsize x hx]
      exact Array.size_push _
    · exact Array.size_push _
  have hsizes : (t.united d label position).map (fun x => x.types.size) =
      (t.map fun x => x.types.size).map (· + 1) := by
    rw [united, List.map_map, List.map_map]
    exact List.map_congr_left fun x hx => hnext hx
  rw [source, source, hsizes]
  obtain ⟨x, xs, rfl⟩ := List.exists_cons_of_ne_nil (List.ne_nil_of_mem hd)
  simp only [List.map_cons, List.foldl_cons, Nat.zero_max, foldl_max_succ]

theorem rerooted_united (hsize : ∀ x ∈ t, x.types.size = d.types.size) (vocabulary : Vocabulary)
    (maxNodes : Int) (symbol : String) (sharing : Bool) :
    Setting.Rerooted d.key d.types.size (.ok (d.union label position))
      ⟨t.source, vocabulary, maxNodes, symbol, sharing⟩
      ⟨(t.united d label position).source, vocabulary, maxNodes, symbol, sharing⟩ where
  lookup _ hk := congrArg Except.ok (lookup_united_of_ne hk)
  size _ x hx := hsize x (List.mem_of_find?_eq_some (Except.ok.inj hx))
  shared := rfl
  vocabulary := rfl
  maxNodes := rfl
  symbol := rfl
  sharing := rfl

theorem size_types_ofRecords {ds : List RecordDeclaration} {x y : Declaration} (hx : x ∈ ofRecords ds)
    (hy : y ∈ ofRecords ds) : x.types.size = y.types.size := by
  obtain ⟨p, -, rfl⟩ := List.mem_map.1 (List.mem_reverse.1 hx)
  obtain ⟨q, -, rfl⟩ := List.mem_map.1 (List.mem_reverse.1 hy)
  rfl

end DeclarationTable

/-! ## Extractions -/

namespace ExtractionRequest

variable {r : ExtractionRequest} {t : DeclarationTable} {D : Declaration} {label : Option String}
  {position : Option Position} {resolved : Outcome Graph} {o : Outcome Extraction}

/-- No tags are read from the comment of the declaration. -/
def Untagged (r : ExtractionRequest) (source : DeclarationSource) (d : Declaration) : Prop :=
  tagsAt ⟨source, r.vocabulary, r.maxNodes, r.symbol, true⟩ (some d.key) d.comment none d.position = []

theorem not_limitedOnce_of_ok {α : Type} {o : Outcome α} (hok : o.ok) : ¬ LimitedOnce o.diagnostics := by
  rintro ⟨e, he, herror⟩
  have hmem : e ∈ limitReports o.diagnostics := he ▸ List.mem_singleton_self e
  rw [Outcome.ok, Bool.not_eq_true', List.any_eq_false] at hok
  exact hok e (List.mem_filter.1 hmem).1 herror

/-- Without an error, the graph of the declaration is resolved below a union. -/
theorem resolution_united (label : Option String) (position : Option Position)
    (hd : t.lookup ⟨r.file, r.symbol⟩ = some D)
    (hsize : ∀ x ∈ t, x.types.size = D.types.size) (huntagged : r.Untagged t.source D)
    (h : r.resolution t.source = .ok resolved) (hok : resolved.ok) :
    ∃ resolved' g g' location,
      (r.unlimited r.maxNodes).resolution (t.united D label position).source = .ok resolved' ∧
      (r.unlimited r.maxNodes).remaining (t.united D label position).source = none ∧
      resolved'.diagnostics = resolved.diagnostics ∧ resolved.value = some g ∧
      resolved'.value = some g' ∧ g.Rerooted moved location g' ∧ (D.IsUnion → g.UnionRooted) := by
  have hkey := DeclarationTable.key_of_lookup hd
  obtain ⟨-, huntimed⟩ := (resolution_unlimited le_rfl h).resolve_left (not_limitedOnce_of_ok hok)
  obtain ⟨root, st, hdone, rfl⟩ := exists_done_of_resolve huntimed
  have hclean : ¬ st.sink.hasErrors := by simpa using hok
  have hlimit : st.limit = none := by
    by_contra hlimit
    have hcandid := (secures_root r.file _ candid_initial).1 root st hdone
    exact hclean (hcandid.limit (Option.isSome_iff_ne_none.2 hlimit))
  obtain ⟨_, st₁, hlookup, hdone⟩ := done_bind.1 hdone
  have hfound : t.source.lookup ⟨r.file, r.symbol⟩ = .ok (some D) := congrArg Except.ok hd
  obtain ⟨rfl, rfl⟩ := (done_lookup_iff hfound).1 hlookup
  have hdone : Done (declaration _ (follow _ t.source.depth) D) _ root st := hdone
  obtain ⟨rfl, st₁, st₂, hentry⟩ := exists_entry huntagged hdone
  have hroom := hentry.room hlimit
  have hs : Setting.Rerooted D.key D.types.size (.ok (D.union label position))
      ⟨t.source, r.vocabulary, r.maxNodes, r.symbol, true⟩
      ⟨(t.united D label position).source, r.vocabulary, r.maxNodes, r.symbol, true⟩ :=
    DeclarationTable.rerooted_united hsize r.vocabulary r.maxNodes r.symbol true
  obtain ⟨st', hdone', hsink, hdeadline, hnodes⟩ := hentry.exists_done hs hroom
  have hroot : Done (Resolution.root ⟨(t.united D label position).source, r.vocabulary, r.maxNodes,
      r.symbol, true⟩ r.file) {} (numbered 1) st' := by
    have hunited : (t.united D label position).source.lookup ⟨r.file, r.symbol⟩ =
        .ok (some (D.united label position)) := by
      rw [← hkey]
      exact congrArg Except.ok (DeclarationTable.lookup_united_self (hkey ▸ hd))
    refine done_bind.2 ⟨_, _, (done_lookup_iff hunited).2 ⟨rfl, rfl⟩, ?_⟩
    dsimp only
    rw [DeclarationTable.depth_united (List.mem_of_find?_eq_some hd) hsize]
    exact hdone'
  obtain ⟨hresolved', hdeadline'⟩ := resolve_of_done hroot
  refine ⟨_, _, _, locationAt (some D.key) position, hresolved', hdeadline'.trans hdeadline, ?_, rfl, rfl,
    ⟨rfl, rfl, hnodes, rfl, rfl⟩, fun hunion => ?_⟩
  · exact congrArg Sink.toList hsink
  · obtain ⟨n, ids, δ, hn, htags, hshape⟩ := hentry.exists_union hroom hunion
    exact ⟨n, ids, δ, hn, htags, hshape⟩

theorem exists_resolved_of_extract {source : DeclarationSource} (h : r.extract d source = .ok o) (hok : o.ok) :
    ∃ resolved, r.resolution source = .ok resolved ∧ resolved.ok := by
  obtain ⟨p, hp, rfl⟩ := exists_pass_of_extract h hok
  obtain ⟨resolved, hresolved, hp⟩ := exists_stages hp
  obtain ⟨a, normal, hash, hfin⟩ := exists_finished hp
  have hparts : resolved.ok ∧ normal.outcome.ok ∧ hash.ok := by
    simpa [Outcome.ok, hfin.diagnostics, and_assoc] using hok
  exact ⟨resolved, hresolved, hparts.1⟩

/-- If the graph is resolved below a union, the extraction comes to the same hash, and only reports of
composites that gave way differ. -/
theorem extract_of_rerooted {source source' : DeclarationSource} {resolved' : Outcome Graph} {g g' : Graph}
    {location : Option SourceLocation} (hunnumbered : ∀ a, d.Unnumbered a) (h : r.extract d source = .ok o)
    (hok : o.ok) (hresolved : r.resolution source = .ok resolved) (hg : resolved.value = some g)
    (hresolved' : (r.unlimited r.maxNodes).resolution source' = .ok resolved')
    (hremaining : (r.unlimited r.maxNodes).remaining source' = none)
    (hreports : resolved'.diagnostics = resolved.diagnostics) (hg' : resolved'.value = some g')
    (hrerooted : g.Rerooted moved location g') (hback : g.UnionRooted ∨ g.root ∉ g.binders) :
    ∃ o' x x', (r.unlimited r.maxNodes).extract d source' = .ok o' ∧ o'.ok ∧
      o.value = some x ∧ o'.value = some x' ∧ x'.fingerprint = x.fingerprint ∧
      ∃ ds es es', o.diagnostics = ds ++ es ∧ o'.diagnostics = ds ++ es' ∧
        ∀ e ∈ es ++ es', Folding.Collapses e := by
  obtain ⟨p, hp, rfl⟩ := exists_pass_of_extract h hok
  obtain ⟨_, hstage, hp⟩ := exists_stages hp
  obtain rfl := Except.ok.inj (hresolved.symm.trans hstage)
  obtain ⟨a, normal, hash, hfin⟩ := exists_finished hp
  have hparts : resolved.ok ∧ normal.outcome.ok ∧ hash.ok := by
    simpa [Outcome.ok, hfin.diagnostics, and_assoc] using hok
  have hresolves : r.Resolves source g := ⟨resolved, hresolved, hg⟩
  have hn : g.normalize d a (r.remaining source) = .ok normal := by
    have := hfin.normalized
    rwa [hfin.raw, hg] at this
  obtain ⟨normal', c, c', hn', hc, hc', hcovered, hnok⟩ := hrerooted.normalize hresolves.grown.1
    hresolves.grown.2 hback (hunnumbered a) (fun _ _ hn _ hx => hresolves.numbered hn hx) hn
  have hh : c.toGraph.hash d a = .ok hash := by
    have := hfin.hashed
    rwa [hfin.graph, hc] at this
  obtain ⟨hash', hh', hhok, hvalue, -⟩ := hcovered.hash hh
  have hparts' : resolved'.ok ∧ normal'.outcome.ok ∧ hash'.ok := by
    refine ⟨?_, hnok.trans hparts.2.1, hhok.trans hparts.2.2⟩
    rw [Outcome.ok, hreports]
    exact hparts.1
  have hp' : ((r.unlimited r.maxNodes).finish d resolved' none).1 = .ok _ :=
    finish_eq_ok hfin.named (by rw [hg']; exact hn') (by rw [hc']; exact hh')
  have hextract := extract_of_resolved (d := d) hresolved'
  rw [hremaining, hp'] at hextract
  refine ⟨_, _, _, hextract, ?_, rfl, rfl, ?_, resolved.diagnostics, normal.outcome.diagnostics,
    normal'.outcome.diagnostics, ?_, ?_, fun e he => ?_⟩
  · simpa [outcome, Outcome.ok, and_assoc] using hparts'
  · exact hvalue.trans hfin.fingerprint.symm
  · rw [hfin.diagnostics, Graph.diagnostics_of_hash hh hparts.2.2, List.append_nil]
  · simp only [outcome, Graph.diagnostics_of_hash hh' hparts'.2.2, List.append_nil, hreports]
  · rcases List.mem_append.1 he with he | he
    · exact Graph.collapses_of_normalize hn hparts.2.1 e he
    · exact Graph.collapses_of_normalize hn' hparts'.2.1 e he

/-- An extraction without an error comes to the same hash when the description of the declaration becomes
the only member of a union, and only reports of composites that gave way differ. A description that is no
union must not refer back to its declaration, for then the union is kept. -/
theorem extract_united (label : Option String) (position : Option Position)
    (hunnumbered : ∀ a, d.Unnumbered a) (hd : t.lookup ⟨r.file, r.symbol⟩ = some D)
    (hsize : ∀ x ∈ t, x.types.size = D.types.size) (huntagged : r.Untagged t.source D)
    (hback : D.IsUnion ∨ ∀ g, r.Resolves t.source g → g.root ∉ g.binders)
    (h : r.extract d t.source = .ok o) (hok : o.ok) :
    ∃ o' x x', (r.unlimited r.maxNodes).extract d (t.united D label position).source = .ok o' ∧ o'.ok ∧
      o.value = some x ∧ o'.value = some x' ∧ x'.fingerprint = x.fingerprint ∧
      ∃ ds es es', o.diagnostics = ds ++ es ∧ o'.diagnostics = ds ++ es' ∧
        ∀ e ∈ es ++ es', Folding.Collapses e := by
  obtain ⟨resolved, hresolved, hrok⟩ := exists_resolved_of_extract h hok
  obtain ⟨resolved', g, g', location, hresolved', hremaining, hreports, hg, hg', hrerooted, hunion⟩ :=
    resolution_united label position hd hsize huntagged hresolved hrok
  exact extract_of_rerooted hunnumbered h hok hresolved hg hresolved' hremaining hreports hg' hrerooted
    (hback.imp hunion fun h => h g ⟨resolved, hresolved, hg⟩)

/-- With the published algorithms, this is so for all declarations from records. -/
theorem extract_united_ofRecords {ds : List RecordDeclaration} (label : Option String)
    (position : Option Position) (hd : (DeclarationTable.ofRecords ds).lookup ⟨r.file, r.symbol⟩ = some D)
    (huntagged : r.Untagged (DeclarationTable.ofRecords ds).source D)
    (hback : D.IsUnion ∨ ∀ g, r.Resolves (DeclarationTable.ofRecords ds).source g → g.root ∉ g.binders)
    (h : r.extract .standard (DeclarationTable.ofRecords ds).source = .ok o) (hok : o.ok) :
    ∃ o' x x', (r.unlimited r.maxNodes).extract .standard
        ((DeclarationTable.ofRecords ds).united D label position).source = .ok o' ∧ o'.ok ∧
      o.value = some x ∧ o'.value = some x' ∧ x'.fingerprint = x.fingerprint ∧
      ∃ ds es es', o.diagnostics = ds ++ es ∧ o'.diagnostics = ds ++ es' ∧
        ∀ e ∈ es ++ es', Folding.Collapses e := by
  have hsize : ∀ x ∈ DeclarationTable.ofRecords ds, x.types.size = D.types.size :=
    fun x hx => DeclarationTable.size_types_ofRecords hx (List.mem_of_find?_eq_some hd)
  obtain ⟨resolved, hresolved, hrok⟩ := exists_resolved_of_extract h hok
  obtain ⟨resolved', g, g', location, hresolved', hremaining, hreports, hg, hg', hrerooted, hunion⟩ :=
    resolution_united label position hd hsize huntagged hresolved hrok
  exact extract_of_rerooted Digester.standard_unnumbered h hok hresolved hg hresolved' hremaining hreports hg'
    hrerooted (hback.imp hunion fun h => h g ⟨resolved, hresolved, hg⟩)

/-- A title is a text, written as a union. -/
def writtenTitle : Declaration where
  name := "Title"
  filePath := "title.ts"
  types := #[.ok { shape := .union [1] }, .ok { shape := .primitive .string }]
  type := 0

/-- A title may be in one more union. -/
theorem extract_united_title :
    let r : ExtractionRequest := { file := "title.ts", symbol := "Title" }
    ∃ o o' x x', r.extract .legible (DeclarationTable.source [writtenTitle]) = .ok o ∧ o.ok ∧
      (r.unlimited r.maxNodes).extract .legible
        (DeclarationTable.united [writtenTitle] writtenTitle none none).source = .ok o' ∧ o'.ok ∧
      o.value = some x ∧ o'.value = some x' ∧ x'.fingerprint = x.fingerprint ∧
      ∃ ds es es', o.diagnostics = ds ++ es ∧ o'.diagnostics = ds ++ es' ∧
        ∀ e ∈ es ++ es', Folding.Collapses e := by
  intro r
  have hrun : (r.extract .legible (DeclarationTable.source [writtenTitle])).toOption.any Outcome.ok = true := by
    decide +kernel
  obtain ⟨o, ho, hok⟩ := exists_ok_of_any hrun
  obtain ⟨o', x, x', hsame⟩ := extract_united none none Digester.legible_unnumbered
    (show DeclarationTable.lookup [writtenTitle] ⟨r.file, r.symbol⟩ = some writtenTitle from rfl) (by simp) rfl
    (.inl ⟨_, [1], rfl, rfl⟩) ho hok
  exact ⟨o, o', x, x', ho, hok, hsame⟩

/-- The hash of an extraction without an error. -/
def hash? (x : Attempt (Outcome Extraction)) : Option String :=
  (x.toOption.filter Outcome.ok).bind fun o => o.value.bind Extraction.fingerprint

/-- A box of boxes is no union and refers back to its declaration. Below a union it has another hash. -/
theorem not_extract_united_box :
    let r : ExtractionRequest := { file := "box.ts", symbol := "Box" }
    ∃ D hash hash', boxes.lookup ⟨r.file, r.symbol⟩ = some D ∧ r.Untagged boxes.source D ∧
      hash? (r.extract .legible boxes.source) = some hash ∧
      hash? (r.extract .legible (boxes.united D none none).source) = some hash' ∧ hash' ≠ hash := by
  intro r
  have hcheck : ((hash? (r.extract .legible boxes.source)).any fun hash =>
      (hash? (r.extract .legible (boxes.united (boxes.head (by simp [boxes])) none none).source)).any
        (· ≠ hash)) = true := by decide +kernel
  obtain ⟨hash, hhash, hother⟩ := (Option.any_eq_true _ _).1 hcheck
  obtain ⟨hash', hhash', hne⟩ := (Option.any_eq_true _ _).1 hother
  exact ⟨_, hash, hash', rfl, rfl, hhash, hhash', of_decide_eq_true hne⟩

end ExtractionRequest

end TypeAtlas
