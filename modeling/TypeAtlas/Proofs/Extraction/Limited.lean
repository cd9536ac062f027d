import TypeAtlas.Proofs.Extraction.Renamed
import TypeAtlas.Proofs.Extraction.Total
import TypeAtlas.Proofs.Resolution.Budgeted

/-! # Extractions under limits

A limit shows. An extraction that is out of time says so and nothing else, one that leaves something
out because of its budget reports that once, and any other one comes to what it comes to without
limits. The exception are graphs in which a recursive reference is written out where it has no target:
leaving something out can bring that about. A graph from which nothing is left out may exceed the budget,
but by less than the depth to which descriptions are nested.
-/

namespace TypeAtlas

variable {d : Digester} {a : Algorithm} {deadline : Option Deadline}

/-! ## Deadlines -/

namespace Graph

theorem normalize_of_fault {g : Graph} {e : Fault}
    (h : (Folding.root (g.setting d a)).run { deadline } = .error e) :
    g.normalize d a deadline = .error e := by
  simp only [normalize, normalizeFrom, h, bind, Except.bind]

/-- A deadline decides whether a graph is normalized, and nothing else. -/
theorem normalize_untimed (d : Digester) (a : Algorithm) (g : Graph) (deadline : Option Deadline) :
    (∃ seconds, g.normalize d a deadline = .error (.deadlineExpired seconds)) ∨
      (g.normalize d a deadline).map Normalized.outcome = (g.normalize d a).map Normalized.outcome := by
  cases hfold : (Folding.root (g.setting d a)).run { deadline } with
  | error e =>
    rcases Folding.late_of_root hfold with hlate | hfold'
    · cases hlate
      exact .inl ⟨_, normalize_of_fault hfold⟩
    · right
      rw [normalize_of_fault hfold, normalize_of_fault hfold']
  | ok p =>
    obtain ⟨t, st⟩ := p
    have hfold' : (Folding.root (g.setting d a)).run {} = .ok (t, st.untimed) :=
      Folding.ends_root_untimed hfold
    right
    simp only [normalize, normalizeFrom, hfold, hfold', bind, Except.bind]
    cases (Emission.emit d a t []).run ∅ <;> rfl

end Graph

/-! ## Budgets -/

/-- The reports that something was left out because of the budget. -/
def limitReports (ds : List Diagnostic) : List Diagnostic :=
  ds.filter fun d => d.code = DiagnosticKey.resolutionLimit.code

theorem limitReports_append (ds es : List Diagnostic) :
    limitReports (ds ++ es) = limitReports ds ++ limitReports es :=
  List.filter_append ..

theorem limitReports_eq_nil {ds : List Diagnostic} :
    limitReports ds = [] ↔ ∀ d ∈ ds, d.code ≠ DiagnosticKey.resolutionLimit.code := by
  simp [limitReports]

/-- Exactly one report says that something was left out, and that is an error. -/
def LimitedOnce (ds : List Diagnostic) : Prop := ∃ e, limitReports ds = [e] ∧ e.isError

/-- The second source answers what the first one answers; where that fails, it may give any answer. -/
structure DeclarationSource.Extends (source source' : DeclarationSource) : Prop where
  lookup : ∀ k d, source.lookup k = .ok d → source'.lookup k = .ok d
  shared : source'.shared = source.shared
  depth : source'.depth = source.depth

theorem DeclarationSource.Extends.refl (source : DeclarationSource) : source.Extends source :=
  ⟨fun _ _ h => h, rfl, rfl⟩

namespace Resolution

/-- Something is reported as left out once if it was, and never otherwise. -/
structure Tallied (st : State) : Prop where
  none : st.limit = none → limitReports st.sink.toList = []
  some : st.limit.isSome → LimitedOnce st.sink.toList

theorem enduring_tallied : Enduring Tallied where
  congr hsink hlimit h := by
    refine ⟨fun hnone => ?_, fun hsome => ?_⟩
    · rw [hsink]
      exact h.none (hlimit ▸ hnone)
    · rw [hsink]
      exact h.some (hlimit ▸ hsome)
  emit {st d} hd h := by
    have hnil : limitReports [d] = [] := limitReports_eq_nil.2 (by simpa using hd)
    have hsame : limitReports (st.sink.emit d).toList = limitReports st.sink.toList := by
      rw [Sink.toList_emit, limitReports_append, hnil, List.append_nil]
    refine ⟨fun hnone => hsame.trans (h.none hnone), fun hsome => ?_⟩
    rw [LimitedOnce, hsame]
    exact h.some hsome
  limit {st d i} hnone hd he h := by
    refine ⟨nofun, fun _ => ⟨d, ?_, he⟩⟩
    rw [Sink.toList_emit, limitReports_append, h.none hnone]
    simp [limitReports, hd]

theorem Setting.beside_of_extends {s : Setting} {source' : DeclarationSource} {n : ℤ}
    (h : s.source.Extends source') (hn : s.maxNodes ≤ n) :
    s.Beside .refl { s with source := source', maxNodes := n } where
  lookup k d hd := by
    rw [Renaming.declaration_refl, Option.map_id]
    exact h.lookup k d hd
  shared := h.shared
  depth := h.depth
  vocabulary := rfl
  maxNodes := hn
  symbol := rfl
  sharing := rfl

theorem tallied_of_done_root {s : Setting} {file : String} {x : NodeId} {st : State}
    (h : Done (root s file) { deadline } x st) : Tallied st :=
  (mirrors_root (Setting.beside_of_extends (.refl s.source) le_rfl) (fun _ : True => rfl) file).lasts _
    enduring_tallied _ _ _ h ⟨fun _ => rfl, nofun⟩

/-- A walk that leaves nothing out is the same with a larger budget and a source that answers more. -/
theorem exists_done_of_extends {s : Setting} {source' : DeclarationSource} {n : ℤ} {file : String}
    {x : NodeId} {st : State} {deadline' : Option Deadline} (hsource : s.source.Extends source')
    (hn : s.maxNodes ≤ n) (hdeadline : deadline' = none ∨ deadline' = deadline)
    (h : Done (root s file) { deadline } x st) : LimitedOnce st.sink.toList ∨
      limitReports st.sink.toList = [] ∧ ∃ st',
        Done (root { s with source := source', maxNodes := n } file) { deadline := deadline' } x st' ∧
        st'.sink = st.sink ∧ st'.nodes = st.nodes ∧ st'.dependencies = st.dependencies ∧
        (st'.deadline = none ∨ st'.deadline = st.deadline) := by
  have hmirrors := mirrors_root (Setting.beside_of_extends hsource hn) (fun _ : True => rfl) file
  have htally := tallied_of_done_root h
  rcases hmirrors.along _ _ _ _ (State.beside_initial hdeadline) h with hlost | ⟨st', h', hst⟩
  · exact .inl (htally.some (hlost.resolve_right fun h => h.1 trivial))
  · have hnodes : st'.nodes = st.nodes := by rw [hst.nodes, Renaming.arena_refl]
    exact .inr ⟨htally.none hst.limit, st', h', hst.sink trivial, hnodes, hst.dependencies trivial,
      hst.deadline⟩

end Resolution

namespace ExtractionRequest

open Resolution

variable {r : ExtractionRequest} {source : DeclarationSource} {resolved : Outcome Graph}

/-- A pass that is out of time has no value and a single report. -/
def TimedOut (r : ExtractionRequest) (x : Attempt (Outcome Extraction)) : Prop :=
  ∃ seconds, x = .ok ⟨none, [r.timeoutReport seconds]⟩

theorem finish_untimed (d : Digester) (r : ExtractionRequest) (resolved : Outcome Graph)
    (deadline : Option Deadline) :
    (∃ seconds, (r.finish d resolved deadline).1 = .error (.deadlineExpired seconds)) ∨
      (r.finish d resolved deadline).1 = (r.finish d resolved none).1 := by
  unfold finish
  cases Algorithm.named r.algorithm with
  | error f => exact .inr rfl
  | ok a =>
    dsimp only
    rcases (resolved.value.getD default).normalize_untimed d a deadline with ⟨seconds, h⟩ | h
    · exact .inl ⟨seconds, by rw [h]⟩
    · right
      generalize (resolved.value.getD default).normalize d a deadline = x at h
      generalize (resolved.value.getD default).normalize d a = y at h
      cases x with
      | error e =>
        cases y with
        | error e' =>
          cases h
          rfl
        | ok normal' => cases h
      | ok normal =>
        cases y with
        | error e' => cases h
        | ok normal' =>
          have houtcome : normal.outcome = normal'.outcome := Except.ok.inj h
          dsimp only
          rw [houtcome]

/-- Partial reports of a pass that is out of time are dropped; otherwise the pass goes as it does without
a deadline. -/
theorem extract_untimed (h : r.resolution source = .ok resolved) :
    r.TimedOut (r.extract d source) ∨
      r.extract d source = (r.ending (r.finish d resolved none).1).map outcome := by
  rw [extract_of_resolved h]
  rcases finish_untimed d r resolved (r.remaining source) with ⟨seconds, hlate⟩ | hsame
  · rw [hlate]
    exact .inl ⟨seconds, rfl⟩
  · rw [hsame]
    exact .inr rfl

/-- The request without a time limit and with another budget. -/
def unlimited (r : ExtractionRequest) (maxNodes : ℤ) : ExtractionRequest :=
  { r with timeout := none, maxNodes }

/-- A resolution that leaves something out says so once, and any other one comes to what it comes to with
a larger budget and without a deadline. -/
theorem resolution_unlimited {n : ℤ} (hn : r.maxNodes ≤ n) (h : r.resolution source = .ok resolved) :
    LimitedOnce resolved.diagnostics ∨
      limitReports resolved.diagnostics = [] ∧ (r.unlimited n).resolution source = .ok resolved := by
  obtain ⟨root, st, hdone, rfl⟩ := exists_done_of_resolve h
  refine (exists_done_of_extends (.refl source) hn (.inl rfl) hdone).imp_right fun ⟨hnone, st', h'⟩ => ?_
  obtain ⟨hdone', hsink, hnodes, hdependencies, -⟩ := h'
  refine ⟨hnone, (resolve_of_done hdone').1.trans ?_⟩
  rw [hsink, hnodes, hdependencies]

theorem resolution_of_extends {source' : DeclarationSource} (hsource : source.Extends source')
    (h : r.resolution source = .ok resolved) (hnone : limitReports resolved.diagnostics = []) :
    r.resolution source' = .ok resolved ∧ (r.remaining source = none → r.remaining source' = none) := by
  obtain ⟨root, st, hdone, rfl⟩ := exists_done_of_resolve h
  rcases exists_done_of_extends hsource le_rfl (.inr rfl) hdone with ⟨e, he, -⟩ | ⟨-, st', h'⟩
  · cases he.symm.trans hnone
  obtain ⟨hdone', hsink, hnodes, hdependencies, hdeadline⟩ := h'
  refine ⟨(resolve_of_done hdone').1.trans ?_, fun hlate => ?_⟩
  · rw [hsink, hnodes, hdependencies]
  · have hlate : st.deadline = none := (resolve_of_done hdone).2.symm.trans hlate
    exact (resolve_of_done hdone').2.trans (hdeadline.elim id fun h => h.trans hlate)

theorem limitReports_of_finish {p : ExtractionPass} (h : (r.finish d resolved deadline).1 = .ok p) :
    limitReports p.diagnostics = limitReports resolved.diagnostics := by
  obtain ⟨a, normal, hash, hfin⟩ := exists_finished h
  have hnormal : limitReports normal.outcome.diagnostics = [] := by
    obtain ⟨t, st, root, nodes, hfold, -, hnormal⟩ := Graph.normalize_eq_ok hfin.normalized
    rw [hnormal]
    exact limitReports_eq_nil.2 (Folding.code_ne_of_ends_root hfold)
  have hhash : limitReports hash.diagnostics = [] := by
    refine limitReports_eq_nil.2 fun d hd => ?_
    rw [(Graph.errors_of_hash hfin.hashed d hd).1]
    decide
  rw [hfin.diagnostics, limitReports_append, limitReports_append, hnormal, hhash, List.append_nil,
    List.append_nil]

/-- A pass that leaves nothing out is the same where more names could be looked up. -/
theorem pass_of_extends {source' : DeclarationSource} {p : ExtractionPass} (hsource : source.Extends source')
    (h : (r.pass d source).1 = .ok (.complete p)) (hremaining : r.remaining source = none)
    (hnone : limitReports p.diagnostics = []) : (r.pass d source').1 = .ok (.complete p) := by
  obtain ⟨resolved, hresolved, hp⟩ := exists_stages h
  rw [limitReports_of_finish hp] at hnone
  obtain ⟨hresolved', hremaining'⟩ := resolution_of_extends hsource hresolved hnone
  rw [hremaining] at hp
  have hremaining' := hremaining' hremaining
  rw [resolution] at hresolved'
  rw [remaining] at hremaining'
  simp only [pass, hresolved', hremaining', hp]
  rfl

/-- From a raw graph that can be written a pass comes to its end, unless a recursive reference is written
out where it has no target. -/
theorem finish_or_astray {g : Graph} (ha : Algorithm.named r.algorithm = .ok a)
    (hg : resolved.value = some g) (hgraph : ∀ id n, g.node? id = some n → n.Encodable)
    (hread : ∀ id n, g.node? id = some n → ∀ t, Folding.TagsReadable n.tags t)
    (hsize : g.nodes.size < 0x10000000000000000)
    (hcsize : ∀ c, g.canonical? d a = some c → c.nodes.size < 0x10000000000000000) :
    (r.finish d resolved none).1 = .error .noEnclosingTarget ∨
      ∃ p, (r.finish d resolved none).1 = .ok p := by
  rcases Graph.finish_or_astray hgraph hread hsize hcsize with hastray | ⟨normal, c, hash, hn, hc, hh⟩
  · left
    simp only [finish, ha, hg, Option.getD_some, hastray]
  · right
    exact ⟨_, finish_eq_ok ha (by rw [hg]; exact hn) (by rw [hc]; exact hh)⟩

section Records

variable {ds : List RecordDeclaration} (hwell : WellDescribed (DeclarationTable.ofRecords ds).source)
  (hbrief : (DeclarationTable.ofRecords ds).source.Brief)

include hwell hbrief

theorem resolution_timely (r : ExtractionRequest) :
    (∃ resolved, r.resolution (DeclarationTable.ofRecords ds).source = .ok resolved) ∨
      ∃ seconds, r.resolution (DeclarationTable.ofRecords ds).source =
        .error (.deadlineExpired seconds) :=
  (resolve_timely hwell hbrief (DeclarationTable.finite_source fun _ => DeclarationTable.legible_ofRecords)
    (.inl rfl) (DeclarationTable.bound_lt_depth _ _)).imp_right And.right

theorem extract_of_free {n : ℤ}
    (hresolved : r.resolution (DeclarationTable.ofRecords ds).source = .ok resolved)
    (hnone : limitReports resolved.diagnostics = [])
    (hfree : ∀ o, (r.unlimited n).resolution (DeclarationTable.ofRecords ds).source = .ok o →
      limitReports o.diagnostics = []) :
    (r.unlimited n).extract d (DeclarationTable.ofRecords ds).source =
      (r.ending (r.finish d resolved none).1).map outcome := by
  have hnever {ds : List Diagnostic} (h : limitReports ds = []) : ¬ LimitedOnce ds := by
    rintro ⟨e, he, -⟩
    cases h.symm.trans he
  obtain ⟨resolved', hresolved', hremaining⟩ : ∃ o,
      (r.unlimited n).resolution (DeclarationTable.ofRecords ds).source = .ok o ∧
        (r.unlimited n).remaining (DeclarationTable.ofRecords ds).source = none :=
    exists_resolve hwell hbrief (DeclarationTable.finite_source fun _ => DeclarationTable.legible_ofRecords)
      (.inl rfl) (DeclarationTable.bound_lt_depth _ _)
  -- both go along with the walk that has the larger one of the two budgets
  obtain ⟨-, hmax⟩ := (resolution_unlimited (le_max_left r.maxNodes n) hresolved).resolve_left
    (hnever hnone)
  obtain ⟨-, hmax'⟩ := (resolution_unlimited (r := r.unlimited n) (le_max_right r.maxNodes n)
    hresolved').resolve_left (hnever (hfree _ hresolved'))
  obtain rfl := Except.ok.inj (hmax.symm.trans hmax')
  rw [extract_of_resolved hresolved', hremaining]
  rfl

omit hbrief in
/-- An extraction under limits is out of time and says nothing else, or leaves something out and reports
that once, or comes to what it comes to without a deadline and with a budget that is never used up. It
comes to an end in any case, unless a recursive reference is written out where it has no target. Counts
of nodes are taken to fit 64 bits. -/
theorem extract_limited {n : ℤ} (ha : Algorithm.named r.algorithm = .ok a)
    (henc : (DeclarationTable.ofRecords ds).source.Encodable r.vocabulary)
    (hsize : ∀ g, r.Resolves (DeclarationTable.ofRecords ds).source g →
      g.nodes.size < 0x10000000000000000 ∧
      ∀ c, g.canonical? d a = some c → c.nodes.size < 0x10000000000000000)
    (hfree : ∀ o, (r.unlimited n).resolution (DeclarationTable.ofRecords ds).source = .ok o →
      limitReports o.diagnostics = [])
    (hplaced : r.extract d (DeclarationTable.ofRecords ds).source ≠ .error .noEnclosingTarget) :
    ∃ o, r.extract d (DeclarationTable.ofRecords ds).source = .ok o ∧
      (r.TimedOut (.ok o) ∨ LimitedOnce o.diagnostics ∨
        (r.unlimited n).extract d (DeclarationTable.ofRecords ds).source = .ok o) := by
  rcases resolution_timely hwell henc.brief r with ⟨resolved, hresolved⟩ | ⟨seconds, hlate⟩
  · rcases extract_untimed (d := d) hresolved with ⟨seconds, hlate⟩ | hrun
    · exact ⟨_, hlate, .inl ⟨seconds, rfl⟩⟩
    · obtain ⟨g, hg⟩ : ∃ g, resolved.value = some g := by
        obtain ⟨root, st, -, rfl⟩ := exists_done_of_resolve hresolved
        exact ⟨_, rfl⟩
      obtain ⟨hsize, hcsize⟩ := hsize g ⟨resolved, hresolved, hg⟩
      rcases finish_or_astray ha hg (fun _ _ hn => (resolve_sourced hresolved hg hn).encodable henc)
        (fun _ _ hn => (resolve_sourced hresolved hg hn).readable) hsize hcsize with hastray | ⟨p, hp⟩
      · exact absurd (by rw [hrun, hastray]; rfl) hplaced
      · have hextract : r.extract d (DeclarationTable.ofRecords ds).source =
            .ok ⟨some p.extraction, p.diagnostics⟩ := by
          rw [hrun, hp]
          rfl
        refine ⟨_, hextract, .inr ?_⟩
        rcases resolution_unlimited le_rfl hresolved with ⟨e, he, herror⟩ | ⟨hnone, -⟩
        · exact .inl ⟨e, (limitReports_of_finish hp).trans he, herror⟩
        · exact .inr ((extract_of_free hwell henc.brief hresolved hnone hfree).trans (hrun.symm.trans hextract))
  · exact ⟨_, by rw [extract_of_fault hlate]; rfl, .inl ⟨seconds, rfl⟩⟩

end Records

/-- A box of boxes for which there is no room. -/
theorem extract_limited_box :
    let r : ExtractionRequest := { file := "box.ts", symbol := "Box", maxNodes := 1 }
    ∃ o, r.extract .legible (DeclarationTable.ofRecords [box]).source = .ok o ∧
      (r.TimedOut (.ok o) ∨ LimitedOnce o.diagnostics ∨
        (r.unlimited 10).extract .legible (DeclarationTable.ofRecords [box]).source = .ok o) := by
  intro r
  have hsmall : ((r.resolution (DeclarationTable.ofRecords [box]).source).toOption.bind
      Outcome.value).any (fun g => decide (g.nodes.size < 0x10000000000000000) &&
        (g.canonical? .legible .sha256).all fun c => c.nodes.size < 0x10000000000000000) = true := by
    rw [ofRecords_box]
    decide +kernel
  have hroom : ((r.unlimited 10).resolution (DeclarationTable.ofRecords [box]).source).toOption.all
      (fun o => o.diagnostics.all fun d => d.code != DiagnosticKey.resolutionLimit.code) = true := by
    rw [ofRecords_box]
    decide +kernel
  have hends : (r.extract .legible (DeclarationTable.ofRecords [box]).source).toOption.isSome := by
    rw [ofRecords_box]
    decide +kernel
  obtain ⟨o, g, ho, hg, hsmall⟩ := Resolution.exists_graph_of_any hsmall
  simp only [Bool.and_eq_true, decide_eq_true_eq, Option.all_eq_true] at hsmall
  refine extract_limited (DeclarationTable.wellDescribed_of_sound sound_box) (a := .sha256) rfl
    (encodable_box _) (fun g' hg' => ?_) (fun o' ho' => ?_) fun hastray => ?_
  · obtain rfl := Resolves.unique ⟨o, ho, hg⟩ hg'
    exact hsmall
  · rw [ho'] at hroom
    exact limitReports_eq_nil.2 (by simpa [Except.toOption] using hroom)
  · rw [hastray] at hends
    cases hends

end ExtractionRequest

/-! ## Sizes -/

namespace ExtractionRequest

open Resolution

variable {r : ExtractionRequest} {source : DeclarationSource} {resolved : Outcome Graph} {g : Graph}

/-- At most one report says that something was left out. Without it there are no more nodes than the budget
and those in the midst of which the walk can be: it has less than its depth of them, and where all
declarations have one arena, less than the depth to which descriptions are nested below the symbol. -/
theorem size_of_resolution (htyped : Typed source) (hpos : 1 ≤ r.maxNodes)
    (h : r.resolution source = .ok resolved) (hg : resolved.value = some g) :
    (limitReports resolved.diagnostics).length ≤ 1 ∧
      (limitReports resolved.diagnostics = [] →
        (g.nodes.size : ℤ) ≤ r.maxNodes + (source.depth - 1 : ℕ) ∧
          ∀ n, source.shared → source.NestsWithin ⟨r.file, r.symbol⟩ n →
            (g.nodes.size : ℤ) ≤ r.maxNodes + (n - 1 : ℕ)) := by
  obtain ⟨root, st, hdone, rfl⟩ := exists_done_of_resolve h
  obtain rfl := Option.some.inj hg
  have htally := tallied_of_done_root hdone
  have hinitial : Within [] 0 { deadline := r.timeout.map fun seconds => Deadline.start seconds r.clock } :=
    ⟨rfl, fun _ => by simp⟩
  cases hlimit : st.limit with
  | none =>
    have hnone : limitReports st.sink.toList = [] := htally.none hlimit
    refine ⟨by simp [Sink.outcome, hnone], fun _ => ⟨?_, fun n hshared hn => ?_⟩⟩
    · exact ((spends_root_of_fuel htyped hpos r.file _ hinitial).1 root st hdone).size hlimit
    · exact ((spends_root_of_nestsWithin htyped hpos hshared hn _ hinitial).1 root st hdone).size hlimit
  | some limit =>
    obtain ⟨e, he, -⟩ := htally.some (hlimit ▸ rfl)
    refine ⟨by simp [Sink.outcome, he], fun hnone => ?_⟩
    cases he.symm.trans hnone

def grid : Declaration where
  name := "Grid"
  filePath := "grid.ts"
  types := #[.ok { shape := .array 1 }, .ok { shape := .array 2 }, .ok { shape := .array 3 },
    .ok { shape := .primitive .string }]
  type := 0

def grids : DeclarationTable := [grid]

theorem eq_of_below_grid {i : ℕ} {q : Descriptions × DescriptionId} (hi : i ≤ 3)
    (h : grids.source.Below (grid.types, i) q) : ∃ j : ℕ, q = (grid.types, j) ∧ j = i + 1 ∧ j ≤ 3 := by
  have harray {i : ℕ} {d : Description} {j : DescriptionId} (hi : i ≤ 3) (hd : grid.types.get i = .ok d)
      (hj : j ∈ d.shape.children) : j = i + 1 ∧ j ≤ 3 := by
    match i with
    | 0 | 1 | 2 | 3 => cases hd; simp_all [DescriptionShape.children]
  cases h with
  | child hd hj => exact ⟨_, rfl, harray hi hd hj⟩
  | reference hd hs =>
    match i with
    | 0 | 1 | 2 | 3 => cases hd; cases hs

/-- The descriptions of a grid are nested four deep. -/
theorem grids_nestsWithin : grids.source.NestsWithin ⟨"grid.ts", "Grid"⟩ 4 := by
  have hall (l : List (Descriptions × DescriptionId)) (h : grids.source.Trail ⟨"grid.ts", "Grid"⟩ l) :
      ∃ (i : ℕ) (rest : List _), l = (grid.types, i) :: rest ∧ l.length = i + 1 ∧ i ≤ 3 := by
    induction h with
    | root hD =>
      obtain rfl := Option.some.inj (Except.ok.inj hD)
      exact ⟨0, [], rfl, rfl, by decide⟩
    | down h hl hq ih =>
      obtain ⟨i, rest, he, hlength, hi⟩ := ih
      obtain ⟨rfl, rfl⟩ := List.cons.inj he
      obtain ⟨j, rfl, hj, hj'⟩ := eq_of_below_grid hi hq
      exact ⟨j, _, rfl, by rw [List.length_cons, hlength, hj], hj'⟩
  intro l hl
  obtain ⟨i, rest, -, hlength, hi⟩ := hall l hl
  omega

/-- A budget of one node leaves nothing out of four nodes that are nested. -/
theorem size_of_resolution_grids :
    let r : ExtractionRequest := { file := "grid.ts", symbol := "Grid", maxNodes := 1 }
    ∃ resolved g, r.resolution grids.source = .ok resolved ∧ resolved.value = some g ∧
      limitReports resolved.diagnostics = [] ∧ g.nodes.size = 4 ∧
      grids.source.NestsWithin ⟨r.file, r.symbol⟩ 4 ∧ (g.nodes.size : ℤ) ≤ r.maxNodes + (4 - 1 : ℕ) := by
  intro r
  have htyped : Typed grids.source := DeclarationTable.typed_source (by decide)
  have hrun : ((r.resolution grids.source).toOption.bind Outcome.value).any
      (fun g => decide (g.nodes.size = 4)) = true := by decide +kernel
  have hfree : (r.resolution grids.source).toOption.all
      (fun o => o.diagnostics.all fun d => d.code != DiagnosticKey.resolutionLimit.code) = true := by
    decide +kernel
  obtain ⟨resolved, g, hresolved, hg, hfour⟩ := Resolution.exists_graph_of_any hrun
  rw [hresolved] at hfree
  have hnone : limitReports resolved.diagnostics = [] :=
    limitReports_eq_nil.2 (by simpa [Except.toOption] using hfree)
  exact ⟨resolved, g, hresolved, hg, hnone, of_decide_eq_true hfour, grids_nestsWithin,
    ((size_of_resolution htyped (by decide) hresolved hg).2 hnone).2 4 rfl grids_nestsWithin⟩

end ExtractionRequest

end TypeAtlas
