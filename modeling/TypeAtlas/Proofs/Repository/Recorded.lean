import TypeAtlas.Proofs.Cache.Confined
import TypeAtlas.Proofs.Repository.Accepted

/-! # What the index records

A run keeps to the directory of its cache, so the source files that its scan has found are there when their
turn comes, and the index records every one of them. The scan leaves out the directory at the top of the
repository that the cache is in: what else is in that directory is not recorded.
-/

namespace TypeAtlas

open Work Volume

/-! ## Extractions -/

namespace ExtractionRequest

open Cache

variable {d : Digester} {source : DeclarationSource} {r : ExtractionRequest} {p : ExtractionPass}
  {root : Path} {c : ContentCache} {f : Filing} {base : Location} {observe : List Resolution.Event → Work Unit}

theorem within_fileAway : Within (Confined f.cache.root base base) (r.fileAway d root f p) := by
  refine within_get.bind fun w => ?_
  split
  · exact (ContentCache.within_store _ _).bind fun _ => within_pure _
  · exact within_pure _

theorem within_extractAnew (hobserve : ∀ events, Keeps Workspace.volume (observe events))
    (before : List Diagnostic) : Within (Confined f.cache.root base base)
      (r.extractAnew d root source observe (some f) before) := by
  unfold extractAnew
  refine (within_of_keeps (hobserve _)).bind fun _ => (within_of_keeps (keeps_volume_log _)).bind fun _ =>
    (within_of_keeps (keeps_lift _)).bind fun ending => ?_
  cases ending with
  | timedOut report => exact (within_of_keeps (keeps_volume_log _)).bind fun _ => within_pure _
  | complete p =>
    dsimp only
    split
    · exact (within_pure _).bind fun _ => (within_of_keeps (keeps_volume_log _)).bind fun _ => within_pure _
    · exact within_fileAway.bind fun _ => (within_of_keeps (keeps_volume_log _)).bind fun _ => within_pure _

theorem within_extractCached (hobserve : ∀ events, Keeps Workspace.volume (observe events)) :
    Within (Confined c.root base base) (r.extractCached d root source observe c) := by
  unfold extractCached
  refine within_get.bind fun w => ?_
  dsimp only
  split
  · exact within_pure _
  refine (within_of_keeps (keeps_lift _)).bind fun a => (within_of_keeps (keeps_lift _)).bind fun key =>
    (within_of_keeps (ContentCache.keeps_lookup_of _ keeps_volume_log)).bind fun hit => ?_
  have hanew : Within (Confined c.root base base)
      (r.extractAnew d root source observe (some ⟨c, key, a⟩) hit.diagnostics) :=
    within_extractAnew (f := ⟨c, key, a⟩) hobserve _
  split
  · refine within_get.bind fun w => ?_
    split
    · exact (within_of_keeps (keeps_volume_log _)).bind fun _ => within_of_keeps (keeps_lift _)
    · exact hanew
  · exact hanew

end ExtractionRequest

namespace Indexing

open Cache

variable {s : Setting} {w w' : Workspace} {file fingerprint name : String} {st st' : IndexingState}
  {base cache : Location} {path : Path}

/-! ## Steps -/

theorem within_symbol (file fingerprint : String) (st : IndexingState) (name : String) :
    Within (Confined s.cache.root cache cache) (symbol s file fingerprint st name) := by
  refine Within.bind ?_ fun r => (within_of_keeps (keeps_lift _)).bind fun entry =>
    (within_of_keeps (keeps_targets _)).bind fun found => within_pure _
  exact within_get.bind fun w => ExtractionRequest.within_extractCached (keeps_volume_observe _)

theorem within_symbols (file fingerprint : String) (st : IndexingState) (names : List String) :
    Within (Confined s.cache.root cache cache) (symbols s file fingerprint st names) := by
  induction names generalizing st with
  | nil => exact within_pure _
  | cons name names ih =>
    refine (within_of_keeps (keeps_lookup _ _)).bind fun found => ?_
    split
    · exact ih st
    · split
      · exact ih st
      · exact (within_symbol _ _ _ _).bind fun p => (ih _).bind fun q => within_pure _

theorem within_file (st : IndexingState) (path : Path) :
    Within (Confined s.cache.root cache cache) (Indexing.file s st path) := by
  unfold Indexing.file
  refine within_get.bind fun w => ?_
  dsimp only
  split
  · exact within_pure _
  · exact (within_of_keeps (keeps_lift _)).bind fun fingerprint =>
      (within_of_keeps (keeps_declaredNames _ _)).bind fun names =>
      (within_symbols _ _ _ _).bind fun p => (ContentCache.within_storeTable _).bind fun stored =>
      (within_of_keeps (keeps_lift _)).bind fun table =>
      (within_of_keeps (keeps_volume_log _)).bind fun _ => within_pure _

theorem within_prune (kind : CacheKind) (live : List Path) :
    Within (Confined s.cache.root cache cache) (prune (Cache.directory s.cache.root kind) live) := by
  refine within_get.bind fun w => within_forM fun name hname => ?_
  have hup : name ≠ ".." := by
    rintro rfl
    exact absurd (List.mem_filter.1 hname).2 (by decide)
  dsimp only
  split
  · exact (within_of_keeps (keeps_volume_log _)).bind fun _ =>
      within_cache (within_mustAct (FileAction.within_discard hup))
  · exact within_pure _

/-! ## Files -/

/-- A file of the repository that is there, and not in the cache. -/
def Spared (s : Setting) (cache : Location) (v : Volume) (path : Path) : Prop :=
  ∃ l content, v.find (s.root / path) = .ok (l, .file content) ∧ ¬ cache <+: l

theorem Spared.spares {v v' : Volume} (h : Spared s cache v path) (hv : v.Literal)
    (hspared : Spares cache v v') : Spared s cache v' path := by
  obtain ⟨l, content, hfind, hl⟩ := h
  exact ⟨l, content, hspared.find hv hfind (.inr hl), hl⟩

/-- Whether a file of the repository can be read. -/
def readable (s : Setting) (v : Volume) (path : Path) : Bool := (v.read (s.root / path)).isOk

theorem Spared.readable_eq {v v' : Volume} (h : Spared s cache v path) (hv : v.Literal)
    (hspared : Spares cache v v') : readable s v' path = readable s v path := by
  obtain ⟨l, content, hfind, hl⟩ := h
  rw [readable, readable, Volume.read, Volume.read, hfind, hspared.find hv hfind (.inr hl)]
  simp only [hspared.refusal]

theorem files_of_readable (h : Runs (Indexing.file s st path) w (.ok st') w') :
    st'.files.map Prod.fst =
      st.files.map Prod.fst ++ ([path].filter (readable s w.volume)).map Path.toString := by
  rcases runs_file_ok h with ⟨⟨e, he⟩, -, hfiles, -⟩ |
    ⟨content, _, _, _, _, _, _, _, _, _, hread, -, hsymbols, -, -, -, -, hfiles⟩
  · have hno : readable s w.volume path = false := by rw [readable, he]; rfl
    rw [hfiles, List.filter_cons_of_neg (by simp [hno])]
    exact (List.append_nil _).symm
  · have hyes : readable s w.volume path = true := by rw [readable, hread]; rfl
    rw [hfiles, (files_symbols hsymbols).2, List.map_append, List.filter_cons_of_pos hyes]
    rfl

theorem files_foldlM_of_spared {paths : List Path} (hw : Furnished w.volume s.cache.root cache)
    (hpaths : ∀ path ∈ paths, Spared s cache w.volume path)
    (h : Runs (paths.foldlM (Indexing.file s) st) w (.ok st') w') : st'.files.map Prod.fst =
      st.files.map Prod.fst ++ (paths.filter (readable s w.volume)).map Path.toString := by
  induction paths generalizing st w with
  | nil =>
    obtain ⟨hres, -⟩ := runs_pure.1 h
    obtain rfl := Except.ok.inj hres
    simp
  | cons path paths ih =>
    obtain ⟨hpath, hpaths⟩ := List.forall_mem_cons.1 hpaths
    rw [List.foldlM_cons] at h
    obtain ⟨st₁, w₁, hfile, hrest⟩ := runs_bind_ok.1 h
    have hspared := within_file st path _ _ _ hfile hw
    have hsame : paths.filter (readable s w₁.volume) = paths.filter (readable s w.volume) :=
      List.filter_congr fun q hq => (hpaths q hq).readable_eq hw.literal hspared
    rw [ih (hw.spares hspared) (fun q hq => (hpaths q hq).spares hw.literal hspared) hrest, hsame,
      files_of_readable hfile, List.append_assoc, ← List.map_append, ← List.filter_append]
    rfl

/-! ## The index -/

def HoldsIndex (v : Volume) (out : Path) (i : RepositoryIndex) : Prop :=
  ∃ l content x, v.find (out / Cache.indexFile) = .ok (l, .file content) ∧
    Json.parseBytes? content = some x ∧ RepositoryIndex.read x = .ok i

/-- The index of a run over files that are there records all of them that can be read. -/
theorem recorded_run {o : Outcome Manifest} (hw : Furnished w.volume s.cache.root cache)
    (hv : w.volume.WellFormed)
    (hpaths : ∀ paths, (s.scan w.volume).scan w.volume s.root = .ok paths →
      ∀ path ∈ paths, Spared s cache w.volume path)
    (h : Runs (Indexing.run s) w (.ok o) w')
    (ho : ∀ e, Diagnostic.ofFileError (s.cache.root / Cache.indexFile).toString e ∉ o.diagnostics) :
    ∃ paths i, (s.scan w.volume).scan w.volume s.root = .ok paths ∧ HoldsIndex w'.volume s.cache.root i ∧
      ∀ file, file ∈ i.files.map Prod.fst ↔
        ∃ path ∈ paths, readable s w.volume path ∧ file = path.toString := by
  obtain ⟨paths, st, w₁, w₂, w₃, indexed, w₄, summed, w₅, log, hscan, hfold, hentries, htables, hindexed,
    hsummed, rfl, rfl⟩ := runs_run_ok h
  have hnames := files_foldlM_of_spared hw (hpaths paths hscan) hfold
  obtain ⟨fs, hfs, -, hsymbols⟩ := files_foldlM hfold
  have hfiles : st.files = fs := hfs
  rw [List.map_nil, List.nil_append] at hnames
  have hnodup : (st.files.map Prod.fst).Nodup :=
    hnames ▸ (List.filter_sublist.map _).nodup (ScanRequest.nodup_scan hv hscan)
  have hdistinct : (index s st).toDatum.Distinct := RepositoryIndex.distinct hnodup (by rwa [index, hfiles])
  have hw₁ := hw.spares (within_foldlM within_file _ _ _ _ _ hfold hw)
  have hw₂ := hw₁.spares (within_prune .ir _ _ _ _ hentries hw₁)
  have hw₃ := hw₂.spares (within_prune .symbols _ _ _ _ htables hw₂)
  rw [join_indexFile] at hindexed ho
  rw [join_manifestFile] at hsummed
  have hw₄ := hw₃.spares (within_writeDocument .index (by decide) _ _ _ _ hindexed hw₃)
  have hspared := within_writeDocument .manifests (by decide) _ _ _ _ hsummed hw₄
  rcases Cache.runs_writeDocument hw₃ (by decide) hindexed with ⟨e, he⟩ | ⟨text, htext, hfile⟩
  · exact absurd (List.mem_append_left _ (List.mem_append_right _ he)) (ho e)
  have hfile₅ : w₅.volume.at? (cache ++ [CacheKind.index.name] ++ ["index.json"]) =
      some (.file text.toUTF8) := by
    rw [hspared.outside _ (by simp [List.append_assoc, CacheKind.name]), hfile]
  have hfind := find_child ((hw₄.spares hspared).directories .index) (by decide) hfile₅ (by simp)
  rw [← join_indexFile] at hfind
  refine ⟨paths, (index s st).ordered, hscan, ⟨_, _, _, hfind, Json.parseBytes?_write htext hdistinct,
    RepositoryIndex.read_canonical _⟩, fun file => ?_⟩
  · have hordered : file ∈ (index s st).ordered.files.map Prod.fst ↔ file ∈ st.files.map Prod.fst := by
      simp [RepositoryIndex.ordered, index, Function.comp_def]
    rw [hordered, hnames, List.mem_map]
    constructor
    · rintro ⟨path, hpath, rfl⟩
      obtain ⟨hmem, hread⟩ := List.mem_filter.1 hpath
      exact ⟨path, hmem, hread, rfl⟩
    · rintro ⟨path, hmem, hread, rfl⟩
      exact ⟨path, List.mem_filter.2 ⟨hmem, hread⟩, rfl⟩

end Indexing

/-! ## Repositories -/

section Repositories

open Indexing

variable {d : Digester} {root out : Path} {config : Config} {clock : Clock} {w w' : Workspace}
  {o : Outcome Manifest} {base rest l m : Location} {top : String} {v : Volume}

/-- Source files are told apart by the texts of their paths. -/
theorem Volume.IsSource.toString_inj (hv : v.WellFormed) (hl : v.IsSource base l) (hm : v.IsSource base m)
    (h : Path.toString ⟨.relative, l⟩ = Path.toString ⟨.relative, m⟩) : l = m := by
  have hnames {l : Location} (hl : v.IsSource base l) : ∀ s ∈ l, IsName s := by
    obtain ⟨content, hat⟩ := file?_ne_none.1 hl.regular
    exact fun s hs => hv.names (base ++ l) (by simp [hat]) s (List.mem_append_right _ hs)
  exact Path.toString_inj hl.ne_nil hm.ne_nil (hnames hl) (hnames hm) h

/-- What is left out with the directory at the top is left out with the cache, just in case all the sources
of that directory are in the cache. -/
theorem recorded_iff (hv : v.WellFormed) : (∀ file,
    (∃ l, file = Path.toString ⟨.relative, l⟩ ∧ v.IsReadableSource base l ∧ l.head? ≠ some top) ↔
      ∃ l, file = Path.toString ⟨.relative, l⟩ ∧ v.IsReadableSource base l ∧ ¬ top :: rest <+: l) ↔
    ∀ l, v.IsReadableSource base l → l.head? = some top → top :: rest <+: l := by
  have hhead {l : Location} (hl : top :: rest <+: l) : l.head? = some top := by
    obtain ⟨m, rfl⟩ := hl
    rfl
  constructor
  · intro h l hl htop
    by_contra hcache
    obtain ⟨m, hm, hsource, hnot⟩ := (h _).2 ⟨l, rfl, hl, hcache⟩
    obtain rfl := hl.toString_inj hv hsource.toIsSource hm
    exact hnot htop
  · intro h file
    constructor
    · rintro ⟨l, rfl, hl, hnot⟩
      exact ⟨l, rfl, hl, fun hcache => hnot (hhead hcache)⟩
    · rintro ⟨l, rfl, hl, hnot⟩
      exact ⟨l, rfl, hl, fun htop => hnot (h l hl htop)⟩

theorem Volume.IsSource.spared {s : Setting} (hv : v.Unfiltered s.root base) (hl : v.IsSource base l)
    (htop : l.head? ≠ some top) : Spared s (base ++ top :: rest) v ⟨.relative, l⟩ := by
  obtain ⟨content, hat⟩ := file?_ne_none.1 hl.regular
  have hup : ".." ∉ l := fun hmem =>
    hv.literal.upless (base ++ l) (by simp [hat]) (List.mem_append_right _ hmem)
  refine ⟨base ++ l, content, (find_join hv.wellFormed hv.literal hv.found hl.ne_nil hup).2 ⟨rfl, hat⟩, ?_⟩
  rw [List.prefix_append_right_inj]
  rintro ⟨m, rfl⟩
  exact htop rfl

/-- A source file that can be read is one to a run. -/
theorem Volume.IsSource.readable_iff {s : Setting} (hv : v.Unfiltered s.root base) (hl : v.IsSource base l) :
    readable s v ⟨.relative, l⟩ ↔ v.IsReadableSource base l := by
  obtain ⟨content, hat⟩ := file?_ne_none.1 hl.regular
  have hup : ".." ∉ l := fun hmem =>
    hv.literal.upless (base ++ l) (by simp [hat]) (List.mem_append_right _ hmem)
  have hfind := (find_join hv.wellFormed hv.literal hv.found hl.ne_nil hup).2 ⟨rfl, hat⟩
  constructor
  · intro hread
    cases hr : v.read (s.root / ⟨.relative, l⟩) with
    | error e =>
      rw [readable, hr] at hread
      cases hread
    | ok content' =>
      obtain ⟨m, hm, hrefusal⟩ := read_eq_ok.1 hr
      obtain ⟨rfl, -⟩ := Prod.mk.inj (Except.ok.inj (hfind.symm.trans hm))
      exact ⟨hl, hrefusal⟩
  · intro hread
    rw [readable, read_eq_ok.2 ⟨_, hfind, hread.readable⟩]
    rfl

/-- The index of a run records the source files of the repository that can be read, outside of the directory
at the top that the cache is in. These are the ones outside of the cache if that directory has no others. -/
theorem files_indexRepository (hv : w.volume.Unfiltered root base) (hout : ∀ s ∈ out.segments, IsName s)
    (hplace : (w.volume.resolve out).segments = base ++ top :: rest) (htop : top ≠ "")
    (hincluded : config.included = []) (hexcluded : config.excluded = [])
    (h : Runs (indexRepository d root out config clock) w (.ok o) w') (hvalue : o.value ≠ none)
    (ho : ∀ e, Diagnostic.ofFileError (out / Cache.indexFile).toString e ∉ o.diagnostics) :
    ∃ i, HoldsIndex w'.volume out i ∧
      (∀ file, file ∈ i.files.map Prod.fst ↔ ∃ l, file = Path.toString ⟨.relative, l⟩ ∧
        w.volume.IsReadableSource base l ∧ l.head? ≠ some top) ∧
      ((∀ file, file ∈ i.files.map Prod.fst ↔ ∃ l, file = Path.toString ⟨.relative, l⟩ ∧
          w.volume.IsReadableSource base l ∧ ¬ top :: rest <+: l) ↔
        ∀ l, w.volume.IsReadableSource base l → l.head? = some top → top :: rest <+: l) := by
  obtain ⟨layout, w₁, w₂, hlayout, rfl, ⟨-, rfl, -⟩ | ⟨hok, a, -, hrun⟩⟩ := runs_indexRepository_ok h
  · exact absurd rfl hvalue
  obtain ⟨-, hw₁, hspared, hfiles, cache, hfurnished⟩ :=
    Cache.exists_furnished (w := { w with pinned := ∅ }) hv.wellFormed hv.literal hout hlayout hok
  have hfiles : w₁.volume.file? = w.volume.file? := hfiles
  have hv₁ := hv.spares hw₁ hspared hfiles
  have hsource {l : Location} : w₁.volume.IsSource base l ↔ w.volume.IsSource base l := by
    constructor
    · exact fun hl => ⟨hfiles ▸ hl.regular, hl.named, hl.domestic⟩
    · exact fun hl => ⟨hfiles.symm ▸ hl.regular, hl.named, hl.domestic⟩
  have hreadable {l : Location} : w₁.volume.IsReadableSource base l ↔ w.volume.IsReadableSource base l := by
    constructor
    · exact fun hl => ⟨hsource.1 hl.toIsSource, hspared.refusal ▸ hl.readable⟩
    · exact fun hl => ⟨hsource.2 hl.toIsSource, hspared.refusal.symm ▸ hl.readable⟩
  have hcache : base ++ top :: rest = cache := by
    rw [← hplace, ← segments_resolve hfurnished.found]
    exact congrArg Path.segments (hspared.resolve hv.literal out).symm
  have hskipped : skippedDirectory w₁.volume root out = top := by
    rw [skippedDirectory, segments_resolve hv₁.found, segments_resolve hfurnished.found, ← hcache,
      FileAction.below?_append]
  have hselected {paths : List Path} {p : Path}
      (hscan : (Setting.scan ⟨d, root, ⟨out, a⟩, config, clock⟩ w₁.volume).scan w₁.volume root = .ok paths) :
      p ∈ paths ↔ ∃ l, p = ⟨.relative, l⟩ ∧ w.volume.IsSource base l ∧ l.head? ≠ some top := by
    rw [ScanRequest.mem_scan hv₁ hincluded hexcluded hscan, Setting.scan, hskipped]
    simp [hsource, htop]
  obtain ⟨paths, i, hscan, hi, hrecorded⟩ := recorded_run (hcache ▸ hfurnished) hw₁
    (fun paths hscan path hpath => by
      obtain ⟨l, rfl, hl, hnot⟩ := (hselected hscan).1 hpath
      exact (hsource.2 hl).spared hv₁ hnot) hrun ho
  have hfiles (file : String) : file ∈ i.files.map Prod.fst ↔ ∃ l,
      file = Path.toString ⟨.relative, l⟩ ∧ w.volume.IsReadableSource base l ∧ l.head? ≠ some top := by
    rw [hrecorded]
    constructor
    · rintro ⟨p, hp, hread, rfl⟩
      obtain ⟨l, rfl, hl, hnot⟩ := (hselected hscan).1 hp
      exact ⟨l, rfl, hreadable.1 (((hsource.2 hl).readable_iff hv₁).1 hread), hnot⟩
    · rintro ⟨l, rfl, hl, hnot⟩
      have hl₁ := hreadable.2 hl
      exact ⟨_, (hselected hscan).2 ⟨l, rfl, hl.toIsSource, hnot⟩,
        (hl₁.toIsSource.readable_iff hv₁).2 hl₁, rfl⟩
  refine ⟨i, hi, hfiles, ?_⟩
  rw [← recorded_iff hv.wellFormed]
  exact forall_congr' fun file => by rw [hfiles file]

/-- The source file at the top is recorded, and the one beside the cache is not, although it is not in the
cache. -/
theorem files_indexRepository_annex : ∃ o w' i,
    Runs (indexRepository .standard ⟨.relative, []⟩ ⟨.relative, ["lib", "cache"]⟩ {}) annex (.ok o) w' ∧
      HoldsIndex w'.volume ⟨.relative, ["lib", "cache"]⟩ i ∧ "ring.ts" ∈ i.files.map Prod.fst ∧
      annex.volume.IsReadableSource [] ["lib", "ring.ts"] ∧ ¬ ["lib", "cache"] <+: ["lib", "ring.ts"] ∧
      "lib/ring.ts" ∉ i.files.map Prod.fst := by
  obtain ⟨v, hv⟩ := exists_annexStarts
  obtain ⟨o, w', hrun, ho⟩ := hv.succeeds
  have hplace : (annex.volume.resolve ⟨.relative, ["lib", "cache"]⟩).segments = [] ++ "lib" :: ["cache"] :=
    segments_resolve annex_empty.found
  obtain ⟨i, hi, hfiles, -⟩ := files_indexRepository annex_unfiltered (by decide) hplace (by decide) rfl rfl
    hrun (by obtain ⟨-, m, hm, -⟩ := ho; simp [hm]) fun e he => ho.noIoFailure _ he rfl
  have hsource {l : Location} (hat : annex.volume.at? l = some (.file ringText.toUTF8))
      (hname : SourceTree.isSourceName (l.getLast?.getD "")) (hdomestic : ∀ directory ∈ l.dropLast,
        directory ∉ ScanRequest.foreignDirectories) : annex.volume.IsReadableSource [] l :=
    ⟨⟨file?_ne_none.2 ⟨_, hat⟩, hname, hdomestic⟩, rfl⟩
  have htop := hsource annex_files.2 Indexing.isSourceName_ring (by decide)
  have hbeside := hsource annex_files.1 Indexing.isSourceName_ring (by decide)
  refine ⟨o, w', i, hrun, hi, (hfiles _).2 ⟨_, by decide, htop, by decide⟩, hbeside, by decide, fun hmem => ?_⟩
  obtain ⟨l, htext, hl, houtside⟩ := (hfiles _).1 hmem
  obtain rfl := hbeside.toIsSource.toString_inj annex_unfiltered.wellFormed hl.toIsSource htext
  exact houtside rfl

end Repositories

end TypeAtlas
