import TypeAtlas.Proofs.Cache.Entry
import TypeAtlas.Proofs.Digest.Legible
import TypeAtlas.Proofs.Extraction.Storing
import TypeAtlas.Proofs.Repository.Scanned
import TypeAtlas.Proofs.Repository.Validated
import TypeAtlas.Repository.Index

/-! # What indexing leaves behind

A run over a repository ends without a fault only if its steps do, one after the other. A run that reports
no failure of a file fills an empty cache with nothing but documents that pass validation: entries with the
hash of their graphs, symbol tables, the index and the summary.
-/

namespace TypeAtlas

open Work

/-- What is done with fresh sources is done as such; only what was read before is restored. -/
theorem Work.runs_withFreshSources {α : Type} {x : Work α} {w w' : Workspace} {r : Attempt α}
    (h : Runs (withFreshSources x) w r w') :
    ∃ w₁, Runs x { w with pinned := ∅ } r w₁ ∧ w' = { w₁ with pinned := w.pinned } := by
  rw [withFreshSources, runs_get_bind] at h
  dsimp only at h
  rw [runs_modify_bind] at h
  rcases runs_bind.1 h with ⟨ended, w₂, hended, hdone⟩ | ⟨e, hended, rfl⟩
  · rcases runs_tryCatch.1 hended with ⟨_, hx, hsame⟩ | ⟨f, w₃, -, hcaught⟩
    · obtain rfl := Except.ok.inj hsame
      obtain ⟨a, w₁, hdoes, hreturned⟩ := runs_bind_ok.1 hx
      rw [runs_modify_bind] at hreturned
      obtain ⟨hvalue, rfl⟩ := runs_pure.1 hreturned
      obtain rfl := Except.ok.inj hvalue
      obtain ⟨rfl, rfl⟩ := runs_pure.1 hdone
      exact ⟨w₁, hdoes, rfl⟩
    · rw [runs_modify_bind] at hcaught
      cases (runs_throw_bind.1 hcaught).1
  · rcases runs_tryCatch.1 hended with ⟨_, -, he⟩ | ⟨f, w₁, hx, hcaught⟩
    · cases he
    · rw [runs_modify_bind] at hcaught
      obtain ⟨he, rfl⟩ := runs_throw_bind.1 hcaught
      obtain rfl := Except.error.inj he
      rcases runs_bind.1 hx with ⟨a, w₂, -, hreturned⟩ | ⟨_, hfails, hsame⟩
      · rw [runs_modify_bind] at hreturned
        cases (runs_pure.1 hreturned).1
      · obtain rfl := Except.error.inj hsame
        exact ⟨w₁, hfails, rfl⟩

namespace Indexing

variable {s : Setting} {w w' : Workspace} {file fingerprint name : String} {st st' : IndexingState}

/-- The names that an extraction depends on, in order. -/
def dependencies (o : Outcome Extraction) : List String :=
  match o.value with
  | some e => e.graph.dependencies.mergeSort fun a b => decide (a ≤ b)
  | none => []

theorem runs_symbol_ok {summary : SymbolSummary}
    (h : Runs (symbol s file fingerprint st name) w (.ok (st', summary)) w') : ∃ r w₁ found,
      Runs ((s.request file name).extractSource s.digester s.root (some s.cache)) w (.ok r) w₁ ∧
      Runs (targets s file (dependencies r)) w₁ (.ok found) w' ∧ summary.name = name ∧
      st'.files = st.files ∧ st'.reports = st.reports ++ r.diagnostics ∧
      st'.references = st.references ++ [(symbolKey file name, found)] := by
  unfold symbol at h
  obtain ⟨r, w₁, hr, h⟩ := runs_bind_ok.1 h
  obtain ⟨entry, -, h⟩ := runs_lift_bind_ok.1 h
  obtain ⟨found, w₂, hfound, h⟩ := runs_bind_ok.1 h
  obtain ⟨hres, rfl⟩ := runs_pure.1 h
  obtain ⟨rfl, rfl⟩ := Prod.mk.inj (Except.ok.inj hres)
  exact ⟨r, w₁, found, hr, hfound, rfl, rfl, rfl, rfl⟩

/-- Indexing the next symbol of a file, unless the file only imports it. -/
theorem runs_symbols_cons_ok {names : List String} {summaries : List SymbolSummary}
    (h : Runs (symbols s file fingerprint st (name :: names)) w (.ok (st', summaries)) w') :
    ∃ found w₁, Runs (Work.lookup s.root ⟨file, name⟩) w (.ok found) w₁ ∧
      ((¬ (∃ D, found = some D ∧ D.file = file) ∧
          Runs (symbols s file fingerprint st names) w₁ (.ok (st', summaries)) w') ∨
        (∃ D, found = some D ∧ D.file = file) ∧ ∃ st₁ summary w₂ rest,
          Runs (symbol s file fingerprint st name) w₁ (.ok (st₁, summary)) w₂ ∧
          Runs (symbols s file fingerprint st₁ names) w₂ (.ok (st', rest)) w' ∧ summaries = summary :: rest) := by
  obtain ⟨found, w₁, hfound, h⟩ := runs_bind_ok.1 h
  refine ⟨found, w₁, hfound, ?_⟩
  split at h
  · exact .inl ⟨by simp, h⟩
  · next D =>
    split at h
    · next hne => exact .inl ⟨by simpa using hne, h⟩
    · next heq =>
      obtain ⟨⟨st₁, summary⟩, w₂, hsymbol, h⟩ := runs_bind_ok.1 h
      obtain ⟨⟨st₂, rest⟩, w₃, hsymbols, h⟩ := runs_bind_ok.1 h
      obtain ⟨hres, rfl⟩ := runs_pure.1 h
      obtain ⟨rfl, rfl⟩ := Prod.mk.inj (Except.ok.inj hres)
      exact .inr ⟨by simpa using heq, st₁, summary, w₂, rest, hsymbol, hsymbols, rfl⟩

/-- Indexing a file: it cannot be read, or its symbols are indexed and its table is filed. -/
theorem runs_file_ok {path : Path} (h : Runs (Indexing.file s st path) w (.ok st') w') :
    ((∃ e, w.volume.read (s.root / path) = .error e) ∧ w' = w ∧ st'.files = st.files ∧
      st.reports <+: st'.reports ∧ ¬ NoIoFailure st'.reports) ∨
    ∃ content fingerprint names w₁ st₁ summaries w₂ stored w₃ log,
      w.volume.read (s.root / path) = .ok content ∧
      Runs (Work.declaredNames s.root path.toString) w (.ok names) w₁ ∧
      Runs (symbols s path.toString fingerprint st names) w₁ (.ok (st₁, summaries)) w₂ ∧
      Runs (s.cache.storeTable s.digester
        { filePath := path.toString, fileFingerprint := fingerprint, symbols := summaries }) w₂
        (.ok stored) w₃ ∧ w' = { w₃ with log } ∧
      st'.reports = st₁.reports ++ stored.diagnostics ∧ st'.references = st₁.references ∧
      st'.files = st₁.files ++
        [(path.toString, ⟨fingerprint, summaries.map fun x => (x.name, x.hash)⟩)] := by
  unfold Indexing.file at h
  rw [runs_get_bind] at h
  dsimp only at h
  unfold Volume.readOutcome at h
  cases hread : w.volume.read (s.root / path) with
  | error e =>
    rw [hread] at h
    obtain ⟨hres, rfl⟩ := runs_pure.1 h
    obtain rfl := Except.ok.inj hres
    exact .inl ⟨⟨e, rfl⟩, rfl, rfl, List.prefix_append _ _, fun hio =>
      not_noIoFailure_ofFileError _ _ (noIoFailure_append.1 hio).2⟩
  | ok content =>
    rw [hread] at h
    have hsame : { st with reports := st.reports ++ [] } = st := by rw [List.append_nil]
    simp only [Outcome.ofFileResult, Outcome.success, hsame] at h
    obtain ⟨fingerprint, -, h⟩ := runs_lift_bind_ok.1 h
    obtain ⟨names, w₁, hnames, h⟩ := runs_bind_ok.1 h
    obtain ⟨⟨st₁, summaries⟩, w₂, hsymbols, h⟩ := runs_bind_ok.1 h
    obtain ⟨stored, w₃, hstored, h⟩ := runs_bind_ok.1 h
    obtain ⟨table, -, h⟩ := runs_lift_bind_ok.1 h
    dsimp only at h
    rw [say, log, runs_modify_bind] at h
    obtain ⟨hres, rfl⟩ := runs_pure.1 h
    obtain rfl := Except.ok.inj hres
    exact .inr ⟨content, fingerprint, names, w₁, st₁, summaries, w₂, stored, w₃, _, rfl, hnames, hsymbols,
      hstored, rfl, rfl, rfl, rfl⟩

theorem prefix_symbols {names : List String} {summaries : List SymbolSummary}
    (h : Runs (symbols s file fingerprint st names) w (.ok (st', summaries)) w') :
    st.reports <+: st'.reports := by
  induction names generalizing st w summaries with
  | nil =>
    obtain ⟨hres, -⟩ := runs_pure.1 h
    obtain ⟨rfl, -⟩ := Prod.mk.inj (Except.ok.inj hres)
    exact List.prefix_rfl
  | cons name names ih =>
    obtain ⟨found, w₁, -, ⟨-, hrest⟩ | ⟨-, st₁, summary, w₂, rest, hsymbol, hsymbols, -⟩⟩ :=
      runs_symbols_cons_ok h
    · exact ih hrest
    · obtain ⟨r, _, _, -, -, -, -, hreports, -⟩ := runs_symbol_ok hsymbol
      exact List.IsPrefix.trans (hreports ▸ List.prefix_append _ _) (ih hsymbols)

theorem prefix_file {path : Path} (h : Runs (Indexing.file s st path) w (.ok st') w') :
    st.reports <+: st'.reports := by
  rcases runs_file_ok h with ⟨-, -, -, hreports, -⟩ |
    ⟨_, _, _, _, _, _, _, _, _, _, -, -, hsymbols, -, -, hreports, -⟩
  · exact hreports
  · exact (prefix_symbols hsymbols).trans (hreports ▸ List.prefix_append _ _)

theorem prefix_foldlM {paths : List Path} (h : Runs (paths.foldlM (Indexing.file s) st) w (.ok st') w') :
    st.reports <+: st'.reports := by
  induction paths generalizing st w with
  | nil =>
    obtain ⟨hres, -⟩ := runs_pure.1 h
    obtain rfl := Except.ok.inj hres
    exact List.prefix_rfl
  | cons path paths ih =>
    rw [List.foldlM_cons] at h
    obtain ⟨st₁, w₁, hfile, h⟩ := runs_bind_ok.1 h
    exact (prefix_file hfile).trans (ih h)

theorem runs_run_ok {o : Outcome Manifest} (h : Runs (Indexing.run s) w (.ok o) w') :
    ∃ paths st w₁ w₂ w₃ indexed w₄ summed w₅ log, (s.scan w.volume).scan w.volume s.root = .ok paths ∧
      Runs (paths.foldlM (Indexing.file s) {}) w (.ok st) w₁ ∧
      Runs (prune (Cache.directory s.cache.root .ir) st.liveEntries) w₁ (.ok ⟨⟩) w₂ ∧
      Runs (prune (Cache.directory s.cache.root .symbols) st.liveTables) w₂ (.ok ⟨⟩) w₃ ∧
      Runs (Cache.writeDocument (s.cache.root / Cache.indexFile) (index s st).toDatum) w₃ (.ok indexed) w₄ ∧
      Runs (Cache.writeDocument (s.cache.root / Cache.manifestFile) (manifest s st).toDatum) w₄
        (.ok summed) w₅ ∧ w' = { w₅ with log } ∧
      o = ⟨some (manifest s st), st.reports ++ indexed.diagnostics ++ summed.diagnostics⟩ := by
  unfold Indexing.run at h
  rw [runs_get_bind] at h
  dsimp only at h
  obtain ⟨paths, hscan, h⟩ := runs_lift_bind_ok.1 h
  obtain ⟨st, w₁, hfold, h⟩ := runs_bind_ok.1 h
  obtain ⟨_, w₂, hentries, h⟩ := runs_bind_ok.1 h
  obtain ⟨_, w₃, htables, h⟩ := runs_bind_ok.1 h
  obtain ⟨indexed, w₄, hindexed, h⟩ := runs_bind_ok.1 h
  obtain ⟨summed, w₅, hsummed, h⟩ := runs_bind_ok.1 h
  rw [say, log, runs_modify_bind] at h
  obtain ⟨hres, rfl⟩ := runs_pure.1 h
  exact ⟨paths, st, w₁, w₂, w₃, indexed, w₄, summed, w₅, _, hscan, hfold, hentries, htables, hindexed,
    hsummed, rfl, Except.ok.inj hres⟩

end Indexing

/-- Indexing a repository: the cache cannot be laid out, or the files are indexed with fresh sources. -/
theorem runs_indexRepository_ok {d : Digester} {root out : Path} {config : Config} {clock : Clock}
    {w w' : Workspace} {o : Outcome Manifest} (h : Runs (indexRepository d root out config clock) w (.ok o) w') :
    ∃ layout w₁ w₂, Runs (Cache.ensureLayout out) { w with pinned := ∅ } (.ok layout) w₁ ∧
      w' = { w₂ with pinned := w.pinned } ∧ ((layout.ok = false ∧ o = layout.withValue none ∧ w₂ = w₁) ∨
        layout.ok ∧ ∃ a, Algorithm.named config.hashAlgorithm = .ok a ∧
          Runs (Indexing.run { digester := d, root, cache := ⟨out, a⟩, config, clock }) w₁ (.ok o) w₂) := by
  obtain ⟨w₂, hfresh, rfl⟩ := runs_withFreshSources h
  obtain ⟨layout, w₁, hlayout, hrest⟩ := runs_bind_ok.1 hfresh
  refine ⟨layout, w₁, w₂, hlayout, rfl, ?_⟩
  cases hok : layout.ok with
  | false =>
    rw [hok] at hrest
    obtain ⟨hres, rfl⟩ := runs_pure.1 hrest
    exact .inl ⟨rfl, Except.ok.inj hres, rfl⟩
  | true =>
    rw [hok] at hrest
    obtain ⟨a, ha, hrun⟩ := runs_lift_bind_ok.1 hrest
    exact .inr ⟨rfl, a, ha, hrun⟩

open Validation

/-! ## Documents -/

namespace Cache

variable {d : Digester} {a : Algorithm} {content : ByteArray} {key : String}

theorem isEntryFilename_entryFilename (hlow : 16 ≤ key.length) (hhigh : key.length ≤ 128)
    (hhex : ∀ c ∈ key.toList, isHexDigit c) : isEntryFilename (entryFilename key) := by
  have hlist : (entryFilename key).toList = key.toList ++ ".json".toList := String.toList_append
  have htake : (entryFilename key).toList.takeWhile isHexDigit = key.toList := by
    rw [hlist, List.takeWhile_append_of_pos hhex]
    exact List.append_nil _
  have hdrop : (entryFilename key).toList.dropWhile isHexDigit = ".json".toList := by
    rw [hlist, List.dropWhile_append_of_pos hhex]
    rfl
  simp [isEntryFilename, htake, hdrop, String.length_toList, hlow, hhigh]

theorem isEntryFilename_of_value {x : Datum} (hd : d.Hexadecimal) (h : d.value a x = .ok key) :
    isEntryFilename (entryFilename key) := by
  obtain ⟨s, -, rfl⟩ := Digester.value_eq_ok.1 h
  obtain ⟨hlow, hhigh, hhex⟩ := hd a s.toUTF8
  exact isEntryFilename_entryFilename hlow hhigh hhex

end Cache

namespace Validation

variable {α : Type} {d : Digester} {a : Algorithm} {content : ByteArray} {read : Datum → Checked α}
  {version : α → Int} {record : α}

theorem encloses_of_holds {x : Datum} (h : Cache.Holds d a x content) (hx : x.Distinct)
    (hnull : x.canonical ≠ .null) (hmeets : Meets read version x.canonical record) :
    Encloses d a.name read version content record := by
  obtain ⟨checksum, text, hsum, htext, rfl⟩ := h
  refine ⟨x.canonical, hnull, ⟨a, checksum, Algorithm.ofName?_name a, ?_, ?_⟩, hmeets⟩
  · exact Cache.envelope?_indented htext hx
  · exact Digester.value_canonical hsum

theorem passesAsTable_of_holds {t : SymbolTable} (h : Cache.Holds d a t.toDatum content)
    (hversion : t.schemaVersion = Cache.schemaVersion) : PassesAsTable d a.name content :=
  .inr ⟨t, encloses_of_holds h t.distinct (by simp [SymbolTable.toDatum, Datum.canonical])
    ⟨t.read_canonical, hversion⟩⟩

/-- The entry that an extraction files passes. -/
theorem passesAsEntry_of_files {source : DeclarationSource} {r : ExtractionRequest} {p : ExtractionPass}
    {e : CacheEntry} (h : r.Files d source a p e content) (ha : Algorithm.named r.algorithm = .ok a)
    (hs : source.FiniteValues) : PassesAsEntry d a.name content := by
  obtain ⟨sources, he⟩ := h.entry
  have hrecordable := h.recordable hs
  have hversion : e.recorded.schemaVersion = Cache.schemaVersion := by
    rw [he]
    rfl
  obtain ⟨b, hb, hsound⟩ := h.sound
  obtain rfl := Except.ok.inj (ha.symm.trans hb)
  obtain ⟨o, ho, hhash⟩ := hsound.hash
  exact .inr ⟨e.recorded, encloses_of_holds h.holds hrecordable.distinct
    (by simp [CacheEntry.toDatum, Datum.canonical]) ⟨CacheEntry.read_canonical hrecordable.graph, hversion⟩,
    a, o, Algorithm.ofName?_name a, ho, hhash⟩

end Validation

/-! ## What the steps leave -/

namespace Indexing

def Leaves (d : Digester) (algorithm : String) : CacheKind → String → ByteArray → Prop
  | .ir, name, content => Cache.isEntryFilename name ∧ PassesAsEntry d algorithm content
  | .symbols, name, content => Cache.isEntryFilename name ∧ PassesAsTable d algorithm content
  | .index, name, content => name = "index.json" ∧ ∃ x i, Json.parseBytes? content = some x ∧
      Meets RepositoryIndex.read RepositoryIndex.schemaVersion x i ∧ i.algorithm = algorithm
  | .manifests, name, content => name = "manifest.json" ∧ ∃ x m, Json.parseBytes? content = some x ∧
      Meets Manifest.read Manifest.schemaVersion x m

/-- The cache of a run is in order. -/
abbrev InOrder (s : Setting) (v₀ : Volume) (base : Location) (v : Volume) : Prop :=
  Cache.Kept v₀ base (Leaves s.digester s.cache.algorithm.name) v

/-- What holds of the setting of a run throughout. -/
structure Setting.Fits (s : Setting) (v₀ : Volume) (base : Location) : Prop where
  named : Algorithm.named s.config.hashAlgorithm = .ok s.cache.algorithm
  hexadecimal : s.digester.Hexadecimal
  empty : Cache.Empty v₀ s.cache.root base

variable {s : Setting} {v₀ : Volume} {base : Location} {w w' : Workspace} {file fingerprint name : String}
  {st st' : IndexingState}

theorem kept_extractSource {P : CacheKind → String → ByteArray → Prop} {o : Outcome Extraction}
    (h₀ : Cache.Empty v₀ s.cache.root base) (h : Cache.Kept v₀ base P w.volume)
    (hP : ∀ key x p e content, s.digester.value s.cache.algorithm x = .ok key →
      (s.request file name).Files s.digester (w.sources s.root).source s.cache.algorithm p e content →
        P .ir (Cache.entryFilename key) content)
    (hruns : Runs ((s.request file name).extractSource s.digester s.root (some s.cache)) w (.ok o) w')
    (hio : NoIoFailure o.diagnostics) : Cache.Kept v₀ base P w'.volume := by
  rw [ExtractionRequest.extractSource, runs_get_bind] at hruns
  cases (ExtractionRequest.runs_extractCached_ok (keeps_volume_observe _) hruns).1 with
  | unreadable hreport => exact absurd hio hreport
  | found _ _ _ _ _ _ _ hsame => rwa [hsame]
  | late _ _ hsame => rwa [hsame]
  | passed _ _ _ hstores =>
    rcases hstores with hsame | ⟨key, e, w₁, w₂, stored, hw₁, hw₂, hstored, hfiles, hreports⟩
    · rwa [hsame]
    rw [← hw₁] at h
    rw [← hw₂]
    have hnoIo : NoIoFailure stored.diagnostics := fun x hx => hio x (hreports hx)
    exact (ContentCache.kept_store h h₀ (fun key content hkey hholds =>
      hP key _ _ _ content hkey (hfiles content hholds)) hstored hnoIo).2

theorem keeps_lookup (root : Path) (key : DeclarationKey) : Keeps Workspace.volume (Work.lookup root key) := by
  unfold Work.lookup
  exact keeps_get.bind fun w => (keeps_volume_observe _ _).bind fun _ => keeps_lift _

theorem keeps_mapM {α β : Type} {f : α → Work β} (hf : ∀ x, Keeps Workspace.volume (f x)) (xs : List α) :
    Keeps Workspace.volume (xs.mapM f) := by
  induction xs with
  | nil => exact keeps_pure _
  | cons x xs ih =>
    rw [List.mapM_cons]
    exact (hf x).bind fun y => ih.bind fun ys => keeps_pure _

theorem keeps_targets (names : List String) : Keeps Workspace.volume (targets s file names) := by
  unfold targets
  exact (keeps_mapM (fun name => keeps_lookup _ _) _).bind fun _ => keeps_pure _

theorem keeps_declaredNames (root : Path) (file : String) :
    Keeps Workspace.volume (Work.declaredNames root file) := by
  unfold Work.declaredNames
  refine keeps_get.bind fun w => ?_
  split
  apply Keeps.bind
  · exact keeps_modify fun _ => rfl
  · exact fun _ => (keeps_volume_log _).bind fun _ => keeps_lift _

theorem files_symbols {names : List String} {summaries : List SymbolSummary}
    (h : Runs (symbols s file fingerprint st names) w (.ok (st', summaries)) w') :
    (summaries.map SymbolSummary.name).Sublist names ∧ st'.files = st.files := by
  induction names generalizing st w summaries with
  | nil =>
    obtain ⟨hres, -⟩ := runs_pure.1 h
    obtain ⟨rfl, rfl⟩ := Prod.mk.inj (Except.ok.inj hres)
    exact ⟨List.Sublist.refl _, rfl⟩
  | cons name names ih =>
    obtain ⟨found, w₁, -, ⟨-, hrest⟩ | ⟨-, st₁, summary, w₂, rest, hsymbol, hsymbols, rfl⟩⟩ :=
      runs_symbols_cons_ok h
    · obtain ⟨hnames, hfiles⟩ := ih hrest
      exact ⟨hnames.cons _, hfiles⟩
    · obtain ⟨_, _, _, -, -, rfl, hfiles₁, -, -⟩ := runs_symbol_ok hsymbol
      obtain ⟨hnames, hfiles⟩ := ih hsymbols
      exact ⟨hnames.cons_cons _, hfiles.trans hfiles₁⟩

theorem inOrder_symbols {names : List String} {summaries : List SymbolSummary} (hs : s.Fits v₀ base)
    (hw : InOrder s v₀ base w.volume)
    (h : Runs (symbols s file fingerprint st names) w (.ok (st', summaries)) w')
    (hio : NoIoFailure st'.reports) : InOrder s v₀ base w'.volume := by
  induction names generalizing st w summaries with
  | nil =>
    obtain ⟨-, rfl⟩ := runs_pure.1 h
    exact hw
  | cons name names ih =>
    obtain ⟨found, w₁, hfound, hcases⟩ := runs_symbols_cons_ok h
    rw [← keeps_lookup _ _ _ _ _ hfound] at hw
    rcases hcases with ⟨-, hrest⟩ | ⟨-, st₁, summary, w₂, rest, hsymbol, hsymbols, -⟩
    · exact ih hw hrest
    · refine ih ?_ hsymbols
      obtain ⟨r, w₃, targets, hr, htargets, -, -, hreports, -⟩ := runs_symbol_ok hsymbol
      rw [keeps_targets _ _ _ _ htargets]
      refine kept_extractSource hs.empty hw (fun key x p e content hkey hfiled => ?_) hr fun x hx =>
        hio x ((prefix_symbols hsymbols).subset ?_)
      · exact ⟨Cache.isEntryFilename_of_value hs.hexadecimal hkey,
          passesAsEntry_of_files hfiled hs.named (SourceTree.finiteValues _)⟩
      · rw [hreports]
        exact List.mem_append_right _ hx

theorem nodup_declaredNames {root : Path} {names : List String}
    (h : Runs (Work.declaredNames root file) w (.ok names) w') : names.Nodup := by
  unfold Work.declaredNames at h
  rw [runs_get_bind] at h
  split at h
  next t lines _ =>
    rw [runs_modify_bind, Work.log, runs_modify_bind] at h
    exact SourceTree.nodup_names (runs_lift.1 h).1.symm

theorem files_file {path : Path} (h : Runs (Indexing.file s st path) w (.ok st') w') :
    ∃ fs : List (String × IndexedFile), st'.files = st.files ++ fs ∧
      (fs.map Prod.fst).Sublist [path.toString] ∧ ∀ f ∈ fs, (f.2.symbols.map Prod.fst).Nodup := by
  rcases runs_file_ok h with ⟨-, -, hfiles, -, -⟩ |
    ⟨_, _, names, _, _, summaries, _, _, _, _, -, hnames, hsymbols, -, -, -, -, hfiles⟩
  · exact ⟨[], by simp [hfiles]⟩
  · obtain ⟨hsub, hfiles₁⟩ := files_symbols hsymbols
    refine ⟨_, hfiles₁ ▸ hfiles, List.Sublist.refl _, ?_⟩
    simp only [List.mem_singleton, forall_eq, List.map_map]
    exact hsub.nodup (nodup_declaredNames hnames)

theorem inOrder_file {path : Path} (hs : s.Fits v₀ base) (hw : InOrder s v₀ base w.volume)
    (h : Runs (Indexing.file s st path) w (.ok st') w') (hio : NoIoFailure st'.reports) :
    InOrder s v₀ base w'.volume := by
  rcases runs_file_ok h with ⟨-, rfl, -, -, -⟩ |
    ⟨_, _, names, w₁, _, _, w₂, _, w₃, _, -, hnames, hsymbols, hstored, rfl, hreports, -, -⟩
  · exact hw
  · rw [hreports, noIoFailure_append] at hio
    rw [← keeps_declaredNames _ _ _ _ _ hnames] at hw
    refine (ContentCache.kept_storeTable (inOrder_symbols hs hw hsymbols hio.1) hs.empty
      (fun key content hkey hholds => ?_) hstored hio.2).2
    exact ⟨Cache.isEntryFilename_of_value hs.hexadecimal hkey, passesAsTable_of_holds hholds rfl⟩

theorem files_foldlM {paths : List Path} (h : Runs (paths.foldlM (Indexing.file s) st) w (.ok st') w') :
    ∃ fs : List (String × IndexedFile), st'.files = st.files ++ fs ∧
      (fs.map Prod.fst).Sublist (paths.map Path.toString) ∧ ∀ f ∈ fs, (f.2.symbols.map Prod.fst).Nodup := by
  induction paths generalizing st w with
  | nil =>
    obtain ⟨hres, -⟩ := runs_pure.1 h
    obtain rfl := Except.ok.inj hres
    exact ⟨[], by simp⟩
  | cons path paths ih =>
    rw [List.foldlM_cons] at h
    obtain ⟨st₁, w₁, hfile, h⟩ := runs_bind_ok.1 h
    obtain ⟨fs, hfs, hsub, hnodup⟩ := files_file hfile
    obtain ⟨gs, hgs, hsub', hnodup'⟩ := ih h
    refine ⟨fs ++ gs, by rw [hgs, hfs, List.append_assoc], ?_, ?_⟩
    · rw [List.map_append]
      exact hsub.append hsub'
    · exact List.forall_mem_append.2 ⟨hnodup, hnodup'⟩

/-- Indexing one file after another leaves the cache in order. -/
theorem inOrder_foldlM {paths : List Path} (hs : s.Fits v₀ base) (hw : InOrder s v₀ base w.volume)
    (h : Runs (paths.foldlM (Indexing.file s) st) w (.ok st') w') (hio : NoIoFailure st'.reports) :
    InOrder s v₀ base w'.volume := by
  induction paths generalizing st w with
  | nil =>
    obtain ⟨-, rfl⟩ := runs_pure.1 h
    exact hw
  | cons path paths ih =>
    rw [List.foldlM_cons] at h
    obtain ⟨st₁, w₁, hfile, h⟩ := runs_bind_ok.1 h
    exact ih (inOrder_file hs hw hfile fun x hx => hio x ((prefix_foldlM h).subset hx)) h

/-! ## Removing documents -/

theorem inOrder_pruneAll {kind : CacheKind} {live : List Path} {names : List String}
    (hs : s.Fits v₀ base) (h : InOrder s v₀ base w.volume) (hnames : ∀ name ∈ names, name ≠ "..")
    (hruns : Runs (names.forM fun name => do
      let path := (Cache.directory s.cache.root kind).child name
      if !live.contains path then
        Work.say .debug origin ("Pruning stale cache entry " ++ name)
        Work.mustAct (FileAction.discard path)) w (.ok ⟨⟩) w') :
    InOrder s v₀ base w'.volume := by
  induction names generalizing w with
  | nil =>
    obtain ⟨-, rfl⟩ := runs_pure.1 hruns
    exact h
  | cons name names ih =>
    obtain ⟨hname, hnames⟩ := List.forall_mem_cons.1 hnames
    obtain ⟨_, w₁, hone, hrest⟩ := runs_bind_ok.1 hruns
    refine ih ?_ hnames hrest
    dsimp only at hone
    split at hone
    · obtain ⟨w₂, hw₂, hone⟩ := runs_say_bind hone
      obtain ⟨v, hdiscarded, rfl⟩ := runs_mustAct_ok.1 hone
      rw [← hw₂] at h
      exact h.runs_discard hs.empty hname hdiscarded
    · obtain ⟨-, rfl⟩ := runs_pure.1 hone
      exact h

theorem inOrder_prune {kind : CacheKind} {live : List Path} (hs : s.Fits v₀ base)
    (h : InOrder s v₀ base w.volume)
    (hruns : Runs (prune (Cache.directory s.cache.root kind) live) w (.ok ⟨⟩) w') :
    InOrder s v₀ base w'.volume := by
  unfold prune at hruns
  rw [runs_get_bind] at hruns
  refine inOrder_pruneAll hs h (fun name hname => ?_) hruns
  have hname := (List.mem_filter.1 hname).1
  rw [Volume.list, h.find_directory hs.empty] at hname
  obtain ⟨e, he⟩ := Option.ne_none_iff_exists'.1 (Volume.at?_of_mem_names hname)
  exact (h.documents kind name e he).1

/-! ## Runs -/

theorem name_of_named {n : String} {a : Algorithm} (h : Algorithm.named n = .ok a) : a.name = n := by
  unfold Algorithm.named at h
  split at h
  · next found =>
    obtain rfl := Except.ok.inj h
    rw [Algorithm.ofName?] at found
    have hname := List.find?_some found
    exact eq_of_beq hname
  · cases h

theorem leaves_index {text : String} (hs : s.Fits v₀ base) (hfiles : (st.files.map Prod.fst).Nodup)
    (hsymbols : ∀ f ∈ st.files, (f.2.symbols.map Prod.fst).Nodup)
    (h : Json.indented (index s st).toDatum = .ok text) :
    Leaves s.digester s.cache.algorithm.name .index "index.json" text.toUTF8 :=
  ⟨rfl, _, (index s st).ordered, Json.parseBytes?_write h (RepositoryIndex.distinct hfiles hsymbols),
    ⟨RepositoryIndex.read_canonical _, rfl⟩, (name_of_named hs.named).symm⟩

theorem leaves_manifest {text : String} (h : Json.indented (manifest s st).toDatum = .ok text) :
    Leaves s.digester s.cache.algorithm.name .manifests "manifest.json" text.toUTF8 := by
  have hcounts : ((manifest s st).diagnostics.map Prod.fst).Nodup := by
    have hnames : (countCodes st.codes).map Prod.fst = Vocabulary.sortedNames st.codes := by
      simp [countCodes, Function.comp_def]
    rw [manifest, hnames]
    exact Vocabulary.nodup_sortedNames _
  exact ⟨rfl, _, (manifest s st).ordered, Json.parseBytes?_write h (Manifest.distinct hcounts),
    Manifest.read_canonical _, rfl⟩

theorem join_indexFile (p : Path) :
    p / Cache.indexFile = (Cache.directory p .index).child "index.json" :=
  congrArg (Path.mk p.anchor) (List.append_assoc p.segments ["index"] ["index.json"]).symm

theorem join_manifestFile (p : Path) :
    p / Cache.manifestFile = (Cache.directory p .manifests).child "manifest.json" :=
  congrArg (Path.mk p.anchor) (List.append_assoc p.segments ["manifests"] ["manifest.json"]).symm

/-- The documents of a run that are about all files. -/
structure Completed (s : Setting) (v₀ : Volume) (base : Location) (v : Volume) : Prop where
  inOrder : InOrder s v₀ base v
  index : v.at? (base ++ [CacheKind.index.name] ++ ["index.json"]) ≠ none
  manifest : v.at? (base ++ [CacheKind.manifests.name] ++ ["manifest.json"]) ≠ none

theorem runs_writeSummaries {indexed summed : Outcome Unit} {w₁ : Workspace} (hs : s.Fits v₀ base)
    (h : InOrder s v₀ base w.volume) (hfiles : (st.files.map Prod.fst).Nodup)
    (hsymbols : ∀ f ∈ st.files, (f.2.symbols.map Prod.fst).Nodup)
    (hindexed : Runs (Cache.writeDocument (s.cache.root / Cache.indexFile) (index s st).toDatum) w
      (.ok indexed) w₁) (hindexedIo : NoIoFailure indexed.diagnostics)
    (hsummed : Runs (Cache.writeDocument (s.cache.root / Cache.manifestFile) (manifest s st).toDatum) w₁
      (.ok summed) w') (hsummedIo : NoIoFailure summed.diagnostics) : Completed s v₀ base w'.volume := by
  rw [join_indexFile] at hindexed
  rw [join_manifestFile] at hsummed
  obtain ⟨-, h₁, _, hindex⟩ := h.runs_writeDocument hs.empty (by decide)
    (fun text htext => leaves_index hs hfiles hsymbols htext) hindexed hindexedIo
  obtain ⟨-, h', _, hmanifest⟩ := h₁.runs_writeDocument hs.empty (by decide)
    (fun text htext => leaves_manifest htext) hsummed hsummedIo
  refine ⟨h', ?_, ?_⟩
  · rw [hmanifest.others _ (by simp [CacheKind.name]), hindex.here]
    exact Option.some_ne_none _
  · rw [hmanifest.here]
    exact Option.some_ne_none _

/-- A run leaves the cache in order, with an index and a summary. -/
theorem completed_run {o : Outcome Manifest} (hs : s.Fits v₀ base) (h : InOrder s v₀ base w.volume)
    (hv : w.volume.WellFormed) (hruns : Runs (Indexing.run s) w (.ok o) w')
    (hio : NoIoFailure o.diagnostics) : Completed s v₀ base w'.volume := by
  obtain ⟨paths, st, w₁, w₂, w₃, indexed, w₄, summed, w₅, log, hscan, hfold, hentries, htables, hindexed,
    hsummed, rfl, rfl⟩ := runs_run_ok hruns
  have hpaths := ScanRequest.nodup_scan hv hscan
  obtain ⟨fs, hfs, hsub, hnodup⟩ := files_foldlM hfold
  obtain ⟨hio, hsummedIo⟩ := noIoFailure_append.1 hio
  obtain ⟨hio, hindexedIo⟩ := noIoFailure_append.1 hio
  have hfiles : st.files = fs := hfs
  have h₃ := inOrder_prune hs (inOrder_prune hs (inOrder_foldlM hs h hfold hio) hentries) htables
  change Completed s v₀ base w₅.volume
  exact runs_writeSummaries hs h₃ (by rw [hfiles]; exact hsub.nodup hpaths) (by rwa [hfiles])
    hindexed hindexedIo hsummed hsummedIo

end Indexing

end TypeAtlas
