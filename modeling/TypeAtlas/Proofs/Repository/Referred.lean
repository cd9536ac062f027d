import TypeAtlas.Proofs.Declaration.Imported
import TypeAtlas.Proofs.Extraction.Storing
import TypeAtlas.Proofs.Reference.Search
import TypeAtlas.Proofs.Repository.Ended
import TypeAtlas.Proofs.Resolution.Mentioned

/-! # What the groups of a summary are

The names that an extraction gives as dependencies are the ones that the description of its declaration
mentions, unless something was left out. That also holds of an extraction that was taken from a cache, if
it holds of the entries in there. A run looks these names up once more, and the groups in its summary are
those of the references that it finds so. These are the references of the declarations themselves where
files import under the names that are exported.
-/

namespace TypeAtlas

/-! ## Dependencies of extractions -/

open Work

/-- Nothing failed and nothing was left out: no file, no node for lack of room, and none for lack of
time. -/
structure Unhindered (ds : List Diagnostic) : Prop where
  files : NoIoFailure ds
  room : limitReports ds = []
  time : ∀ x ∈ ds, x.code ≠ DiagnosticKey.resolutionTimeout.code

theorem Unhindered.of_subset {ds es : List Diagnostic} (h : Unhindered es) (hsub : ds ⊆ es) :
    Unhindered ds where
  files x hx := h.files x (hsub hx)
  room := limitReports_eq_nil.2 fun x hx => limitReports_eq_nil.1 h.room x (hsub hx)
  time x hx := h.time x (hsub hx)

/-- The names are those that the description of a declaration mentions. -/
def Declaration.Depends (D : Declaration) (names : List String) : Prop :=
  ∀ name, name ∈ names ↔ ∃ hint, D.types.Mentions D.type name hint

namespace ExtractionRequest

open Resolution

variable {d : Digester} {source : DeclarationSource} {r : ExtractionRequest} {p : ExtractionPass}
  {D : Declaration}

/-- A resolution that leaves nothing out records what the declaration mentions. -/
theorem depends_of_resolution {resolved : Outcome Graph} {g : Graph} (h : r.resolution source = .ok resolved)
    (hg : resolved.value = some g) (hlimit : limitReports resolved.diagnostics = [])
    (hD : source.lookup ⟨r.file, r.symbol⟩ = .ok (some D)) : D.Depends g.dependencies := by
  obtain ⟨root, st, hdone, rfl⟩ := exists_done_of_resolve h
  obtain rfl := Option.some.inj hg
  have htally := tallied_of_done_root hdone
  have hnone : st.limit = none := by
    by_contra hsome
    obtain ⟨e, he, -⟩ := htally.some (Option.isSome_iff_ne_none.2 hsome)
    cases he.symm.trans hlimit
  intro name
  rw [Std.ExtTreeSet.mem_toList]
  exact mem_dependencies_of_root hdone hD hnone

theorem depends_of_pass (h : (r.pass d source).1 = .ok (.complete p)) (hlimit : limitReports p.diagnostics = [])
    (hD : source.lookup ⟨r.file, r.symbol⟩ = .ok (some D)) : D.Depends p.extraction.graph.dependencies := by
  obtain ⟨resolved, deadline, hresolved, hp⟩ := exists_resolution h
  obtain ⟨a, normal, hash, hfin⟩ := exists_finished hp
  rw [limitReports_of_finish hp] at hlimit
  obtain ⟨g, hg⟩ : ∃ g, resolved.value = some g := by
    obtain ⟨root, st, -, rfl⟩ := exists_done_of_resolve hresolved
    exact ⟨_, rfl⟩
  have hgraph : p.extraction.graph.dependencies = g.dependencies := by
    obtain ⟨t, st, root, nodes, -, -, hnormal⟩ := Graph.normalize_eq_ok hfin.normalized
    rw [hfin.graph, hnormal, hfin.raw, hg]
    rfl
  rw [hgraph]
  exact depends_of_resolution hresolved hg hlimit hD

theorem limitReports_of_clean (h : (r.pass d source).1 = .ok (.complete p))
    (hclean : p.diagnostics.any Diagnostic.isError = false) : limitReports p.diagnostics = [] := by
  obtain ⟨resolved, deadline, hresolved, hp⟩ := exists_resolution h
  rcases resolution_unlimited le_rfl hresolved with ⟨e, he, herror⟩ | ⟨hnone, -⟩
  · rw [← limitReports_of_finish hp] at he
    have hmem : e ∈ p.diagnostics := List.mem_of_mem_filter (he ▸ List.mem_singleton_self e)
    exact absurd herror (List.any_eq_false.1 hclean e hmem)
  · rwa [limitReports_of_finish hp]

end ExtractionRequest

/-! ## References and groups -/

/-- The key of a declaration in the graph of references. -/
def RecordDeclaration.node (D : RecordDeclaration) : String := symbolKey D.file D.name

namespace SourceTree

variable {t : SourceTree} {file : String} {D E : RecordDeclaration}

/-- A name that a declaration mentions is resolved to another one. -/
def Refers (t : SourceTree) (D E : RecordDeclaration) : Prop :=
  ∃ name hint, D.alone.types.Mentions D.alone.type name hint ∧
    t.lookup ⟨hint.getD D.file, name⟩ = .ok (some E)

/-- A name that a declaration mentions stands for another one in the file of the first. -/
def Finds (t : SourceTree) (D E : RecordDeclaration) : Prop :=
  ∃ name hint, D.alone.types.Mentions D.alone.type name hint ∧ t.lookup ⟨D.file, name⟩ = .ok (some E)

/-- Where imports keep the names, what is found is what is referred to. -/
theorem finds_iff_refers (ht : t.Patient) (hD : t.Declares file D)
    (hkeeps : ∀ m, t.module file = .ok (some m) → m.KeepsNames) : t.Finds D E ↔ t.Refers D E := by
  obtain ⟨m, d, hm, -, rfl⟩ := hD
  refine exists_congr fun name => exists_congr fun hint => and_congr_right fun hmention => ?_
  exact lookup_iff_of_mentions ht hm (hkeeps m hm) hmention

/-- The declarations of the files of a scan. -/
def Indexed (t : SourceTree) (r : ScanRequest) (D : RecordDeclaration) : Prop :=
  ∃ paths, r.scan t.volume t.root = .ok paths ∧ ∃ path ∈ paths, t.Declares path.toString D

/-- A declaration of a scan refers to another one, each given by its key. -/
def Leads (t : SourceTree) (r : ScanRequest) (a b : String) : Prop :=
  (∃ D E, t.Indexed r D ∧ D.node = a ∧ E.node = b ∧ t.Refers D E) ∧ ∃ D, t.Indexed r D ∧ D.node = b

theorem indexed_iff {r : ScanRequest} {paths : List Path} (h : r.scan t.volume t.root = .ok paths) :
    t.Indexed r D ↔ ∃ path ∈ paths, t.Declares path.toString D := by
  simp [Indexed, h]

end SourceTree

open SourceTree

theorem ScanRequest.isSourceName_of_scan {r : ScanRequest} {v : Volume} {root path : Path} {paths : List Path}
    (h : r.scan v root = .ok paths) (hpath : path ∈ paths) : isSourceName path.toString := by
  obtain ⟨ignored, -, h⟩ := bind_eq_ok.1 h
  obtain rfl := Except.ok.inj h
  have hselects := (List.mem_filter.1 hpath).2
  simp only [selects, Bool.and_eq_true] at hselects
  obtain ⟨⟨⟨⟨⟨⟨⟨⟨hname, -⟩, -⟩, -⟩, -⟩, -⟩, -⟩, -⟩, -⟩ := hselects
  exact Path.isSourceName_toString hname

/-! ## References -/

def SourceTree.Traces (t : SourceTree) (D : RecordDeclaration) (r : String × List String) : Prop :=
  r.1 = D.node ∧ ∀ key, key ∈ r.2 ↔ ∃ E : RecordDeclaration, key = E.node ∧ t.Finds D E

/-- The references of some declarations are recorded, and of no others. -/
structure SourceTree.Covers (t : SourceTree) (Ds : Set RecordDeclaration)
    (references : List (String × List String)) : Prop where
  sound : ∀ r ∈ references, ∃ D ∈ Ds, t.Traces D r
  complete : ∀ D ∈ Ds, ∃ r ∈ references, t.Traces D r

theorem SourceTree.Covers.append {t : SourceTree} {Ds Es : Set RecordDeclaration}
    {rs qs : List (String × List String)} (h : t.Covers Ds rs) (h' : t.Covers Es qs) :
    t.Covers (Ds ∪ Es) (rs ++ qs) where
  sound r hr := by
    rcases List.mem_append.1 hr with hr | hr
    · obtain ⟨D, hD, hr⟩ := h.sound r hr
      exact ⟨D, .inl hD, hr⟩
    · obtain ⟨D, hD, hr⟩ := h'.sound r hr
      exact ⟨D, .inr hD, hr⟩
  complete D hD := by
    rcases hD with hD | hD
    · obtain ⟨r, hr, hD⟩ := h.complete D hD
      exact ⟨r, List.mem_append_left _ hr, hD⟩
    · obtain ⟨r, hr, hD⟩ := h'.complete D hD
      exact ⟨r, List.mem_append_right _ hr, hD⟩

/-- The graph of the recorded references leads from each declaration to those that are found. -/
theorem SourceTree.Covers.refers_iff {t : SourceTree} {Ds : Set RecordDeclaration}
    {rs : List (String × List String)} (h : t.Covers Ds rs) {a b : String} :
    (ReferenceGraph.ofReferences rs).Refers a b ↔ ∃ D E, D ∈ Ds ∧ D.node = a ∧ E.node = b ∧ t.Finds D E := by
  rw [(ReferenceGraph.ofReferences_spec rs).2]
  constructor
  · rintro ⟨targets, hmem, hb⟩
    obtain ⟨D, hD, hnode, hkeys⟩ := h.sound _ hmem
    obtain ⟨E, rfl, hfinds⟩ := (hkeys b).1 hb
    exact ⟨D, E, hD, hnode.symm, rfl, hfinds⟩
  · rintro ⟨D, E, hD, rfl, rfl, hfinds⟩
    obtain ⟨⟨node, targets⟩, hmem, hnode, hkeys⟩ := h.complete D hD
    obtain rfl : node = D.node := hnode
    exact ⟨targets, hmem, (hkeys _).2 ⟨E, rfl, hfinds⟩⟩

/-! ## Steps -/

/-- The dependencies of an entry are what its declaration mentions. -/
def CacheEntry.Honest (t : SourceTree) (e : CacheEntry) : Prop :=
  ∀ D, t.lookup ⟨e.filePath, e.symbol⟩ = .ok (some D) → D.alone.Depends e.graph.dependencies

namespace Indexing

/-- The documents of a run have no names of source files, and its entries are honest. -/
def Records (s : Setting) (v : Volume) (kind : CacheKind) (name : String) (content : ByteArray) : Prop :=
  ¬ isSourceName name ∧ (kind = .ir → ∀ payload e,
    Cache.Envelops s.digester s.cache.algorithm.name content payload → CacheEntry.read payload = .ok e →
      e.Honest (ofVolume s.root v))

variable {s : Setting} {v₀ v : Volume} {base : Location} {w w' : Workspace} {file fingerprint name : String}
  {st st' : IndexingState} {D : RecordDeclaration}

theorem Records.not_isSourceName (kind : CacheKind) (name : String) (content : ByteArray)
    (h : Records s v kind name content) : ¬ isSourceName name := h.1

/-- A workspace in the midst of a run with honest entries. -/
abbrev Recording (s : Setting) (v₀ : Volume) (base : Location) (v : Volume) (w : Workspace) : Prop :=
  Underway s v₀ base v (Records s v) w

theorem Recording.source_lookup (hs : s.Starts v₀ base v) (h : Recording s v₀ base v w)
    (hfile : isSourceName file) (hD : (ofVolume s.root v).lookup ⟨file, name⟩ = .ok (some D)) :
    (w.sources s.root).source.lookup ⟨file, name⟩ = .ok (some D.alone) := by
  have hfound := ((h.sees.reads hs.plain.unlinked).lookup hs.patient hfile).2 hD
  change ((w.sources s.root).lookup ⟨file, name⟩ >>= fun d => pure (d.map RecordDeclaration.alone)) = _
  rw [hfound]
  rfl

/-- The entry that an extraction files is honest. -/
theorem Recording.honest (hs : s.Starts v₀ base v) (h : Recording s v₀ base v w) (hfile : isSourceName file)
    {a : Algorithm} {p : ExtractionPass} {e e' : CacheEntry} {content : ByteArray} {payload : Datum}
    (hfiles : (s.request file name).Files s.digester (w.sources s.root).source a p e content)
    (hpayload : Cache.Envelops s.digester a.name content payload) (he' : CacheEntry.read payload = .ok e') :
    e'.Honest (ofVolume s.root v) := by
  obtain ⟨envelope, henvelope, -, hread⟩ := hfiles.readsFrom (SourceTree.finiteValues _)
  obtain ⟨_, checksum, -, hsame, -⟩ := hpayload
  obtain rfl := Option.some.inj (henvelope.symm.trans hsame)
  obtain ⟨sources, hentry⟩ := hfiles.entry
  have hrecorded : e' = e.recorded := by
    have hchecked := he'.symm.trans hread
    injection hchecked
  rw [hrecorded, hentry]
  intro D hD
  have hlimit := ExtractionRequest.limitReports_of_clean hfiles.complete hfiles.clean
  exact ExtractionRequest.depends_of_pass hfiles.complete hlimit (h.source_lookup hs hfile hD)

theorem Recording.runs_extractSource {o : Outcome Extraction} (hs : s.Starts v₀ base v)
    (h : Recording s v₀ base v w) (hfile : isSourceName file)
    (hD : (ofVolume s.root v).lookup ⟨file, name⟩ = .ok (some D))
    (hruns : Runs ((s.request file name).extractSource s.digester s.root (some s.cache)) w (.ok o) w')
    (ho : Unhindered o.diagnostics) :
    Recording s v₀ base v w' ∧ ∃ x, o.value = some x ∧ D.alone.Depends x.graph.dependencies := by
  have hw' : Recording s v₀ base v w' := by
    refine h.of_extractSource Records.not_isSourceName hs (fun key x p e content _ hfiled => ?_) hruns ho.files
    exact ⟨not_isSourceName_entryFilename key, fun _ payload e' hpayload he' =>
      h.honest hs hfile hfiled hpayload he'⟩
  rw [ExtractionRequest.extractSource, runs_get_bind] at hruns
  cases (ExtractionRequest.runs_extractCached_ok (keeps_volume_observe _) hruns).1 with
  | unreadable hreport => exact absurd ho.files hreport
  | late hpass hreport _ =>
    obtain ⟨seconds, rfl⟩ := ExtractionRequest.exists_of_pass_eq_timedOut hpass
    exact absurd rfl (ho.time _ hreport)
  | @found key content payload e x hread hpayload he hfilePath hsymbol hx hgraph hv =>
    refine ⟨hw', x, hx, ?_⟩
    have hrecords := h.kept.of_read hs.empty (ContentCache.entryFilename_ne key) hread
    rw [hgraph]
    exact hrecords.2 rfl payload e hpayload he D (by rw [hfilePath, hsymbol]; exact hD)
  | @passed p hpass hvalue hreports _ =>
    exact ⟨hw', p.extraction, hvalue,
      ExtractionRequest.depends_of_pass hpass (ho.of_subset hreports).room (h.source_lookup hs hfile hD)⟩

/-- A step of a run records the references of some declarations, and the run goes on. -/
structure Adds (s : Setting) (v₀ : Volume) (base : Location) (v : Volume) (Ds : Set RecordDeclaration)
    (st st' : IndexingState) (w' : Workspace) : Prop where
  underway : Recording s v₀ base v w'
  references : ∃ rs, st'.references = st.references ++ rs ∧ (ofVolume s.root v).Covers Ds rs

namespace Adds

variable {Ds Es : Set RecordDeclaration}

theorem refl (h : Recording s v₀ base v w) : Adds s v₀ base v ∅ st st w :=
  ⟨h, [], by simp, by simp, by simp⟩

theorem trans {st'' : IndexingState} {w'' : Workspace} (h : Adds s v₀ base v Ds st st' w')
    (h' : Adds s v₀ base v Es st' st'' w'') : Adds s v₀ base v (Ds ∪ Es) st st'' w'' where
  underway := h'.underway
  references := by
    obtain ⟨rs, hrs, hcovers⟩ := h.references
    obtain ⟨qs, hqs, hcovers'⟩ := h'.references
    exact ⟨rs ++ qs, by rw [hqs, hrs, List.append_assoc], hcovers.append hcovers'⟩

end Adds

theorem adds_symbol {summary : SymbolSummary} (hs : s.Starts v₀ base v) (hw : Recording s v₀ base v w)
    (hfile : isSourceName file) (hD : (ofVolume s.root v).Declares file D) (hname : D.name = name)
    (h : Runs (symbol s file fingerprint st name) w (.ok (st', summary)) w')
    (ho : Unhindered st'.reports) : Adds s v₀ base v {D} st st' w' := by
  obtain ⟨r, w₁, found, hr, hfound, -, -, hreports, hreferences⟩ := runs_symbol_ok h
  have hlookup : (ofVolume s.root v).lookup ⟨file, name⟩ = .ok (some D) :=
    hs.patient _ _ (hname ▸ hD.stands)
  obtain ⟨hw₁, x, hx, hdepends⟩ := hw.runs_extractSource hs hfile hlookup hr
    (ho.of_subset (hreports ▸ List.subset_append_right _ _))
  obtain ⟨hkeys, hv, hsees⟩ := runs_targets hw₁.sees hs.plain.unlinked hs.patient hfile hfound
  have htraces : (ofVolume s.root v).Traces D (symbolKey file name, found) := by
    refine ⟨by rw [RecordDeclaration.node, hD.file_eq, hname], fun key => ?_⟩
    dsimp only
    rw [hkeys]
    refine exists_congr fun E => and_congr_right fun _ => ?_
    simp only [dependencies, hx, List.mem_mergeSort, hdepends _, Finds, hD.file_eq]
    constructor
    · rintro ⟨dep, ⟨hint, hmention⟩, hE⟩
      exact ⟨dep, hint, hmention, hE⟩
    · rintro ⟨dep, hint, hmention, hE⟩
      exact ⟨dep, ⟨hint, hmention⟩, hE⟩
  exact ⟨hw₁.of_sees hv hsees, _, hreferences, by simpa using htraces, by simpa using htraces⟩

theorem adds_symbols {names : List String} {summaries : List SymbolSummary} (hs : s.Starts v₀ base v)
    (hw : Recording s v₀ base v w) (hfile : isSourceName file)
    (hnames : ∀ name ∈ names, ∃ D, (ofVolume s.root v).Declares file D ∧ D.name = name)
    (h : Runs (symbols s file fingerprint st names) w (.ok (st', summaries)) w')
    (ho : Unhindered st'.reports) :
    Adds s v₀ base v {D | (ofVolume s.root v).Declares file D ∧ D.name ∈ names} st st' w' := by
  induction names generalizing st w summaries with
  | nil =>
    obtain ⟨hres, rfl⟩ := runs_pure.1 h
    obtain ⟨rfl, rfl⟩ := Prod.mk.inj (Except.ok.inj hres)
    simpa using Adds.refl hw
  | cons name names ih =>
    obtain ⟨⟨D, hD, hname⟩, hrest⟩ := List.forall_mem_cons.1 hnames
    obtain ⟨found, w₁, hfound, hcases⟩ := runs_symbols_cons_ok h
    obtain ⟨hstands, hv, hsees⟩ := hw.sees.runs_lookup hs.plain.unlinked hs.patient hfile hfound
    have hw₁ := hw.of_sees hv hsees
    rcases hcases with ⟨hskipped, -⟩ | ⟨-, st₁, summary, w₂, rest, hsymbol, hsymbols, -⟩
    · exact absurd ⟨D, (hstands D).2 (hs.patient _ _ (hname ▸ hD.stands)), hD.file_eq⟩ hskipped
    · have hone := adds_symbol hs hw₁ hfile hD hname hsymbol
        (ho.of_subset (prefix_symbols hsymbols).subset)
      convert hone.trans (ih hone.underway hrest hsymbols) using 1
      ext E
      simp only [Set.mem_ofPred_eq, Set.mem_union, Set.mem_singleton_iff, List.mem_cons]
      constructor
      · rintro ⟨hE, hE' | hmem⟩
        · exact .inl (hE.unique hD (hE'.trans hname.symm))
        · exact .inr ⟨hE, hmem⟩
      · rintro (rfl | ⟨hE, hmem⟩)
        · exact ⟨hD, .inl hname⟩
        · exact ⟨hE, .inr hmem⟩

theorem adds_file {path : Path} (hs : s.Starts v₀ base v) (hw : Recording s v₀ base v w)
    (hpath : isSourceName path.toString) (h : Runs (Indexing.file s st path) w (.ok st') w')
    (ho : Unhindered st'.reports) :
    Adds s v₀ base v {D | (ofVolume s.root v).Declares path.toString D} st st' w' := by
  rcases runs_file_ok h with ⟨-, -, -, -, hfailed⟩ |
    ⟨_, _, names, w₁, st₁, _, w₂, _, w₃, _, -, hnames, hsymbols, hstored, rfl, hreports, hreferences, -⟩
  · exact absurd ho.files hfailed
  · obtain ⟨hdeclared, hv, hsees⟩ := runs_declaredNames hw.sees hs.plain.unlinked hpath hnames
    have hmem {name : String} : name ∈ names ↔
        ∃ D, (ofVolume s.root v).Declares path.toString D ∧ D.name = name := mem_names_iff hdeclared
    have hadds := adds_symbols hs (hw.of_sees hv hsees) hpath (fun name hname => hmem.1 hname) hsymbols
      (ho.of_subset (hreports ▸ List.subset_append_left _ _))
    have hkept := (ContentCache.kept_storeTable hadds.underway.kept hs.empty
      (fun key _ _ _ => ⟨not_isSourceName_entryFilename key, nofun⟩) hstored
      (ho.of_subset (hreports ▸ List.subset_append_right _ _)).files).2
    have hpinned := ContentCache.keeps_storeTable Cache.aside_pinned _ _ _ _ hstored
    obtain ⟨rs, hrs, hcovers⟩ := hadds.references
    refine ⟨hadds.underway.of_kept Records.not_isSourceName hs hkept hpinned, rs, hreferences.trans hrs, ?_⟩
    convert hcovers using 1
    ext D
    exact ⟨fun hD => ⟨hD, hmem.2 ⟨D, hD, rfl⟩⟩, And.left⟩

theorem adds_foldlM {paths : List Path} (hs : s.Starts v₀ base v) (hw : Recording s v₀ base v w)
    (hpaths : ∀ path ∈ paths, isSourceName path.toString)
    (h : Runs (paths.foldlM (Indexing.file s) st) w (.ok st') w') (ho : Unhindered st'.reports) :
    Adds s v₀ base v {D | ∃ path ∈ paths, (ofVolume s.root v).Declares path.toString D} st st' w' := by
  induction paths generalizing st w with
  | nil =>
    obtain ⟨hres, rfl⟩ := runs_pure.1 h
    obtain rfl := Except.ok.inj hres
    simpa using Adds.refl hw
  | cons path paths ih =>
    obtain ⟨hpath, hrest⟩ := List.forall_mem_cons.1 hpaths
    rw [List.foldlM_cons] at h
    obtain ⟨st₁, w₁, hfile, h⟩ := runs_bind_ok.1 h
    have hone := adds_file hs hw hpath hfile (ho.of_subset (prefix_foldlM h).subset)
    convert hone.trans (ih hone.underway hrest h) using 1
    ext D
    simp

/-! ## Runs -/

/-- The groups of a run are those of what the declarations of the scan find. -/
theorem groups_run {o : Outcome Manifest} (hs : s.Starts v₀ base w.volume) (hpinned : w.pinned = ∅)
    (h : Runs (Indexing.run s) w (.ok o) w') (ho : Unhindered o.diagnostics) :
    ∃ m, o.value = some m ∧ m.recursiveGroups.Pairwise (· < ·) ∧ ∀ group, group ∈ m.recursiveGroups ↔
      IsComponent (fun a b => ∃ D E, (ofVolume s.root w.volume).Indexed (s.scan w.volume) D ∧ D.node = a ∧
        E.node = b ∧ (ofVolume s.root w.volume).Finds D E) group := by
  obtain ⟨paths, st, w₁, _, _, indexed, _, summed, _, _, hscan, hfold, -, -, -, -, -, rfl⟩ := runs_run_ok h
  have hw : Recording s v₀ base w.volume w := .initial hs rfl hpinned
  have hadds := adds_foldlM hs hw (fun path hpath => ScanRequest.isSourceName_of_scan hscan hpath) hfold
    (ho.of_subset fun x hx => List.mem_append_left _ (List.mem_append_left _ hx))
  obtain ⟨rs, hrs, hcovers⟩ := hadds.references
  obtain rfl : rs = st.references := by simpa using hrs.symm
  refine ⟨manifest s st, rfl, ReferenceGraph.pairwise_recursiveGroups _, fun group => ?_⟩
  have hrefers : (ReferenceGraph.ofReferences st.references).Refers = fun a b => ∃ D E,
      (ofVolume s.root w.volume).Indexed (s.scan w.volume) D ∧ D.node = a ∧ E.node = b ∧
        (ofVolume s.root w.volume).Finds D E := by
    funext a b
    have hindexed (D : RecordDeclaration) : (ofVolume s.root w.volume).Indexed (s.scan w.volume) D ↔ _ :=
      indexed_iff hscan
    simp only [hcovers.refers_iff, hindexed, Set.mem_ofPred_eq]
  rw [← hrefers]
  exact ReferenceGraph.mem_recursiveGroups_iff

end Indexing

section Groups

open Indexing

variable {s : Setting} {v : Volume} {base : Location} {w w' : Workspace} {o : Outcome Manifest}

/-- Where all imports keep the names, what is found leads from one declaration of a scan to another. -/
theorem SourceTree.isComponent_leads {t : SourceTree} {r : ScanRequest} {group : List String} (ht : t.Patient)
    (hkeeps : ∀ D m, t.Indexed r D → t.module D.file = .ok (some m) → m.KeepsNames) :
    IsComponent (fun a b => ∃ D E, t.Indexed r D ∧ D.node = a ∧ E.node = b ∧ t.Finds D E) group ↔
      IsComponent (t.Leads r) group := by
  have hfinds : (fun a b => ∃ D E, t.Indexed r D ∧ D.node = a ∧ E.node = b ∧ t.Finds D E) =
      fun a b => ∃ D E, t.Indexed r D ∧ D.node = a ∧ E.node = b ∧ t.Refers D E := by
    funext a b
    refine propext (exists_congr fun D => exists_congr fun E => and_congr_right fun hD => ?_)
    obtain ⟨paths, -, path, -, hdeclares⟩ := id hD
    rw [finds_iff_refers ht hdeclares fun m hm => hkeeps D m hD (hdeclares.file_eq ▸ hm)]
  rw [hfinds]
  symm
  apply isComponent_restrict
  rintro a b ⟨D, E, hD, hnode, -⟩
  exact ⟨D, hD, hnode⟩

/-- The groups in the summary of a run are the strongly connected components of the references between
the declarations that are indexed, as far as imports keep the names and nothing stands in the way. -/
theorem recursiveGroups_indexRepository (hwellFormed : w.volume.WellFormed)
    (hout : ∀ name ∈ s.cache.root.segments, Volume.IsName name)
    (hvacant : Cache.Vacant w.volume s.cache.root base) (hlaid : Cache.LaysOut w.volume s.cache.root v)
    (hplain : v.Plain) (hpatient : (ofVolume s.root v).Patient)
    (hkeeps : ∀ D m, (ofVolume s.root v).Indexed (s.scan v) D →
      (ofVolume s.root v).module D.file = .ok (some m) → m.KeepsNames)
    (h : Runs (indexRepository s.digester s.root s.cache.root s.config s.clock) w (.ok o) w')
    (ho : Unhindered o.diagnostics) :
    ∃ m, o.value = some m ∧ m.recursiveGroups.Pairwise (· < ·) ∧ ∀ group, group ∈ m.recursiveGroups ↔
      IsComponent ((ofVolume s.root v).Leads (s.scan v)) group := by
  obtain ⟨layout, w₁, w₂, hlayout, rfl, hcases⟩ := runs_indexRepository_ok h
  rcases Cache.runs_ensureLayout_vacant (P := fun _ _ _ => False)
      (w := { w with pinned := ∅ }) hwellFormed hout hvacant hlayout with
    ⟨hfailed, hreported⟩ | ⟨rfl, -, v₀, hempty, hkept⟩
  · rcases hcases with ⟨-, rfl, -⟩ | ⟨hok, -⟩
    · exact absurd ho.files hreported
    · exact absurd hok hfailed
  · rcases hcases with ⟨hfailed, -, -⟩ | ⟨-, a, hnamed, hrun⟩
    · cases hfailed
    obtain ⟨v', hlaid', rfl⟩ := Cache.exists_laysOut hlayout
    obtain ⟨-, rfl⟩ := Prod.mk.inj (Eq.trans (Eq.symm hlaid) hlaid')
    have hs : Setting.Starts { s with cache := ⟨s.cache.root, a⟩ } v₀ base v :=
      ⟨hnamed, hempty, hkept, hplain, hpatient⟩
    obtain ⟨m, hm, hsorted, hgroups⟩ := groups_run hs rfl hrun ho
    exact ⟨m, hm, hsorted, fun group => (hgroups group).trans (isComponent_leads hpatient hkeeps)⟩

theorem Indexing.EndsWell.unhindered {files symbols : ℕ} (h : EndsWell files symbols o) :
    Unhindered o.diagnostics where
  files := h.noIoFailure
  room := by
    rw [limitReports_eq_nil]
    intro x hx
    rw [h.1 x hx]
    decide
  time x hx := by
    rw [h.1 x hx]
    decide

/-- Whether a name is mentioned at the top of a description, or right below. -/
def mentionsAtTop (types : Descriptions) (i : DescriptionId) (name : String) : Bool :=
  (types.get i).toOption.any fun d => d.shape.names.contains name || d.shape.children.any fun c =>
    (types.get c).toOption.any fun d' => d'.shape.names.contains name

theorem mentions_of_top {types : Descriptions} {i : DescriptionId} {name : String}
    (h : mentionsAtTop types i name) : ∃ hint, types.Mentions i name hint := by
  have hget {i : DescriptionId} {p : Description → Bool} (h : (types.get i).toOption.any p) :
      ∃ d, types.get i = .ok d ∧ p d := by
    cases hd : types.get i with
    | error e => simp [hd, Except.toOption] at h
    | ok d => exact ⟨d, rfl, by simpa [hd, Except.toOption] using h⟩
  obtain ⟨d, hd, h⟩ := hget h
  rw [Bool.or_eq_true, List.contains_iff_mem, List.any_eq_true] at h
  rcases h with h | ⟨c, hc, h⟩
  · obtain ⟨hint, hs⟩ := DescriptionShape.mem_names.1 h
    exact ⟨hint, .itself hd hs⟩
  · obtain ⟨d', hd', h⟩ := hget h
    obtain ⟨hint, hs⟩ := DescriptionShape.mem_names.1 (List.contains_iff_mem.1 h)
    exact ⟨hint, .inside hd hc (.itself hd' hs)⟩
theorem node_ringRecord (d : TypeScript.DeclarationSyntax) : (ringRecord d).node = symbolKey "ring.ts" d.name := rfl

theorem ring_mentions : ∀ p ∈ [("Node", "Link"), ("Link", "Node")], (ringModule.declaration? p.1).any fun d =>
    mentionsAtTop (ringRecord d).alone.types (ringRecord d).alone.type p.2 := by
  decide +kernel

namespace Indexing.AnnexStarts

theorem indexed_iff_ring (h : AnnexStarts v) {D : RecordDeclaration} :
    (ofVolume annexSetting.root v).Indexed (annexSetting.scan v) D ↔
      ∃ d, ringModule.declaration? d.name = some d ∧ D = ringRecord d := by
  have hscan := h.scan
  rw [indexed_iff (t := ofVolume annexSetting.root v) hscan]
  simp only [List.mem_singleton, exists_eq_left, toString_ring, Declares, h.module, Except.ok.injEq, Option.some.injEq]
  simp [record_ringModule]

theorem leads (h : AnnexStarts v) {a b : String} (hab : (a, b) ∈ [("Node", "Link"), ("Link", "Node")]) :
    (ofVolume annexSetting.root v).Leads (annexSetting.scan v) (symbolKey "ring.ts" a)
      (symbolKey "ring.ts" b) := by
  have hmember {name : String} {d : TypeScript.DeclarationSyntax} (hd : ringModule.declaration? name = some d) :
      d.name = name ∧ (ofVolume annexSetting.root v).Indexed (annexSetting.scan v) (ringRecord d) := by
    have hname := (TypeScript.ModuleSyntax.mem_of_declaration? hd).2
    exact ⟨hname, h.indexed_iff_ring.2 ⟨d, hname ▸ hd, rfl⟩⟩
  obtain ⟨d, hd, hmentions⟩ := (Option.any_eq_true _ _).1 (ring_mentions _ hab)
  obtain ⟨hint, hmentions⟩ := mentions_of_top hmentions
  obtain ⟨e, he, -⟩ := (Option.any_eq_true _ _).1 (ring_mentions (b, a) (by simpa [or_comm, and_comm] using hab))
  obtain ⟨rfl, hD⟩ := hmember hd
  obtain ⟨rfl, hE⟩ := hmember he
  refine ⟨⟨ringRecord d, ringRecord e, hD, node_ringRecord d, node_ringRecord e, e.name, hint, hmentions, ?_⟩,
    ringRecord e, hE, node_ringRecord e⟩
  rw [← record_ringModule (ofVolume annexSetting.root v)] at hmentions
  refine (lookup_iff_of_mentions h.starts.patient h.module (h.importless.keepsNames h.module) hmentions).1 ?_
  rw [lookup_of_importless _ h.module ring_imports (patience_pos _ v), he, record_ringModule]
  rfl

theorem isComponent (h : AnnexStarts v) : IsComponent
    ((ofVolume annexSetting.root v).Leads (annexSetting.scan v)) ["ring.ts#Link", "ring.ts#Node"] := by
  have hlink : symbolKey "ring.ts" "Link" = "ring.ts#Link" := by simp [symbolKey]
  have hnode : symbolKey "ring.ts" "Node" = "ring.ts#Node" := by simp [symbolKey]
  have hforth := h.leads (a := "Link") (b := "Node") (by simp)
  have hback := h.leads (a := "Node") (b := "Link") (by simp)
  rw [hlink, hnode] at hforth hback
  refine isComponent_pair (String.lt_iff_toList_lt.2 (by decide)) hforth hback ?_
  rintro x y ⟨-, D, hD, rfl⟩
  obtain ⟨d, hd, rfl⟩ := h.indexed_iff_ring.1 hD
  have hname : d.name ∈ ringModule.declarations.map TypeScript.DeclarationSyntax.name :=
    List.mem_map_of_mem (TypeScript.ModuleSyntax.mem_of_declaration? hd).1
  rw [ring_names, ringNames, List.mem_pair] at hname
  rw [node_ringRecord]
  rcases hname with hname | hname
  · exact .inr (by rw [hname, hnode])
  · exact .inl (by rw [hname, hlink])

end Indexing.AnnexStarts

/-- The two declarations of the annex that are indexed make a group. -/
theorem recursiveGroups_indexRepository_annex : ∃ o w' m v,
    Runs (indexRepository .standard ⟨.relative, []⟩ ⟨.relative, ["lib", "cache"]⟩ {}) annex (.ok o) w' ∧
      Cache.LaysOut annex.volume ⟨.relative, ["lib", "cache"]⟩ v ∧ o.value = some m ∧
        m.recursiveGroups.Pairwise (· < ·) ∧ (∀ group, group ∈ m.recursiveGroups ↔
          IsComponent ((ofVolume annexSetting.root v).Leads (annexSetting.scan v)) group) ∧
            ["ring.ts#Link", "ring.ts#Node"] ∈ m.recursiveGroups := by
  obtain ⟨v, hv⟩ := exists_annexStarts
  obtain ⟨o, w', hrun, ho⟩ := hv.succeeds
  obtain ⟨m, hm, hsorted, hgroups⟩ := recursiveGroups_indexRepository (s := annexSetting)
    annex_unfiltered.wellFormed (by decide) annex_empty.vacant hv.laid hv.starts.plain hv.starts.patient
    (fun D m _ hm => hv.importless.keepsNames hm) hrun ho.unhindered
  exact ⟨o, w', m, v, hrun, hv.laid, hm, hsorted, hgroups, (hgroups _).2 hv.isComponent⟩

end Groups

end TypeAtlas
