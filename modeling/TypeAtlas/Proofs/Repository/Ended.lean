import TypeAtlas.Proofs.Cache.Confined
import TypeAtlas.Proofs.Declaration.Imported
import TypeAtlas.Proofs.Extraction.Ended
import TypeAtlas.Proofs.Extraction.Limited
import TypeAtlas.Proofs.Repository.Underway

/-! # Runs that end

Where nothing is refused and every source file can be decoded, look-ups end and documents are written. If,
besides, every pass is complete without a report, a run comes to its end. It reports nothing but damaged
documents, which it comes upon only where digests collide.
-/

namespace TypeAtlas

open Work SourceTree

namespace Indexing

variable {s : Setting} {v₀ v : Volume} {base : Location} {w w' : Workspace} {file fingerprint name : String}
  {st st' st'' : IndexingState} {content : ByteArray}

/-- The documents of a run without reports can be told from source files and removed, and the entries among
them can be read and hold no reports. -/
structure Sober (s : Setting) (kind : CacheKind) (name : String) (content : ByteArray) : Prop where
  apart : ¬ isSourceName name
  nullFree : '\x00' ∉ name.toList
  shallow : kind = .ir → Cache.Shallow content
  silent : kind = .ir → ∀ payload e, Cache.Envelops s.digester s.cache.algorithm.name content payload →
    CacheEntry.read payload = .ok e → e.diagnostics = []

/-- A workspace in the midst of a run without reports. -/
abbrev Quiet (s : Setting) (v₀ : Volume) (base : Location) (v : Volume) (w : Workspace) : Prop :=
  Underway s v₀ base v (Sober s) w

/-- The pass over a declaration is complete, whichever source files were read before. -/
def Setting.Completes (s : Setting) (v : Volume) (file name : String) : Prop :=
  ∀ t, Reads (ofVolume s.root v) t → ∃ p, (s.request file name).Completes s.digester t.source p

theorem Sober.of_files {t : SourceTree} {p q : ExtractionPass} {key : String} {x : Datum} {e : CacheEntry}
    (hp : (s.request file name).Completes s.digester t.source p)
    (hkey : s.digester.value s.cache.algorithm x = .ok key)
    (h : (s.request file name).Files s.digester t.source s.cache.algorithm q e content) :
    Sober s .ir (Cache.entryFilename key) content where
  apart := not_isSourceName_entryFilename key
  nullFree := by
    obtain ⟨text, -, rfl⟩ := Digester.value_eq_ok.1 hkey
    exact ContentCache.not_null_mem_entryFilename (s.digester.nameable _ _)
  shallow _ := Cache.shallow_of_holds h.holds (h.recordable t.finiteValues).distinct
  silent _ payload e' hpayload he' := by
    obtain ⟨envelope, henvelope, -, hread⟩ := h.readsFrom t.finiteValues
    obtain ⟨_, checksum, -, hsame, -⟩ := hpayload
    obtain rfl := Option.some.inj (henvelope.symm.trans hsame)
    obtain ⟨sources, hentry⟩ := h.entry
    obtain rfl : q = p := by
      have hsame := h.complete.symm.trans hp.complete
      injection hsame with hsame
      injection hsame
    have hrecorded : e' = e.recorded := by
      have hchecked := he'.symm.trans hread
      injection hchecked
    rw [hrecorded, hentry]
    simp [ExtractionRequest.entry, CacheEntry.recorded, hp.silent]

/-- The entries of a run without reports hold none. -/
theorem Quiet.silent (hs : s.Starts v₀ base v) (h : Quiet s v₀ base v w) :
    ExtractionRequest.Silent s.digester s.cache w.volume := by
  have hsober {k : EntryKey} {content : ByteArray}
      (hfound : ContentCache.Found s.digester s.cache k w.volume content) :
      ∃ name, Sober s .ir name content := by
    obtain ⟨path, hpath, hread⟩ := hfound
    obtain ⟨key, -, hfile⟩ := bind_eq_ok.1 hpath
    obtain rfl : s.cache.file .ir key = path := Except.ok.inj hfile
    exact ⟨_, h.kept.of_read hs.empty (ContentCache.entryFilename_ne key) hread⟩
  constructor
  · intro k content hfound
    obtain ⟨name, h⟩ := hsober hfound
    exact h.shallow rfl
  · rintro k content e hfound ⟨payload, hpayload, he, -⟩
    obtain ⟨name, h⟩ := hsober hfound
    exact h.silent rfl payload e hpayload he

theorem Quiet.succeeds_extractSource (hs : s.Starts v₀ base v) (hv : v₀.Granted) (h : Quiet s v₀ base v w)
    (hfile : isSourceName file) (hread : v.read (s.root / Path.ofString file) = .ok content)
    (hcompletes : s.Completes v file name) :
    Succeeds ((s.request file name).extractSource s.digester s.root (some s.cache)) w
      fun o w' => Quiet s v₀ base v w' ∧ Cache.Warns o := by
  obtain ⟨p, hp⟩ := hcompletes _ (h.sees.reads hs.plain.unlinked)
  have hpath := (Path.isSource_ofString hfile).join (p := s.root)
  have hread := (h.sees.alike.read_iff hs.plain.unlinked hpath).2 hread
  have hobserve (events : List Resolution.Event) (w₁ : Workspace) :
      Succeeds (Work.observe (w.sources s.root) events) w₁ fun _ w' => w'.volume = w₁.volume :=
    (Sees.succeeds_observe _ _).imp fun _ _ hruns _ => keeps_volume_observe _ _ _ _ _ hruns
  refine Succeeds.imp (succeeds_get_bind (ExtractionRequest.succeeds_extractCached hp hread hs.named
    (h.silent hs) hobserve h.kept hs.empty (h.kept.granted hv))) fun o w' hruns hwarns => ⟨?_, hwarns⟩
  exact h.of_extractSource (fun _ _ _ hsober => hsober.apart) hs
    (fun key x q e content hkey hfiled => .of_files hp hkey hfiled) hruns hwarns.noIoFailure

/-! ## Steps -/

/-- A step adds so many files and symbols, none of which failed, and at most as many reports of damaged
documents as symbols. -/
structure Advances (files symbols : ℕ) (st st' : IndexingState) : Prop where
  reports : ∃ ds, st'.reports = st.reports ++ ds ∧ ∀ x ∈ ds, x.code = DiagnosticKey.cacheCorrupted.code
  codes : st'.codes.length ≤ st.codes.length + symbols
  files : st'.files.length = st.files.length + files
  symbols : st'.symbolCount = st.symbolCount + symbols
  failed : st'.failed = st.failed

namespace Advances

variable {k l m n : ℕ}

theorem refl (st : IndexingState) : Advances 0 0 st st :=
  ⟨⟨[], by simp, by simp⟩, le_rfl, rfl, rfl, rfl⟩

theorem trans (h : Advances k m st st') (h' : Advances l n st' st'') : Advances (k + l) (m + n) st st'' where
  reports := by
    obtain ⟨ds, hds, hcodes⟩ := h.reports
    obtain ⟨es, hes, hcodes'⟩ := h'.reports
    refine ⟨ds ++ es, by rw [hes, hds, List.append_assoc], ?_⟩
    rw [List.forall_mem_append]
    exact ⟨hcodes, hcodes'⟩
  codes := by
    have := h.codes
    have := h'.codes
    omega
  files := by rw [h'.files, h.files, Nat.add_assoc]
  symbols := by rw [h'.symbols, h.symbols, Nat.add_assoc]
  failed := h'.failed.trans h.failed

end Advances

theorem Quiet.succeeds_targets {names : List String} (hs : s.Starts v₀ base v)
    (hd : (ofVolume s.root v).Decodes) (h : Quiet s v₀ base v w) (hfile : isSourceName file) :
    Succeeds (targets s file names) w fun _ w' => Quiet s v₀ base v w' := by
  have hfound : Succeeds (targets s file names) w fun _ _ => True :=
    (h.sees.succeeds_lookups hs.plain.unlinked hs.patient hd hfile).bind fun _ _ _ => succeeds_pure trivial
  refine hfound.imp fun keys w' hruns _ => ?_
  obtain ⟨-, hv, hsees⟩ := runs_targets h.sees hs.plain.unlinked hs.patient hfile hruns
  exact h.of_sees hv hsees

/-- The names that a file declares, if it can be decoded. -/
def namesIn (s : Setting) (v : Volume) (path : Path) : List String :=
  ((ofVolume s.root v).names path.toString).toOption.getD []

/-- What lets the run over a file come to its end. -/
structure Setting.Ready (s : Setting) (v : Volume) (path : Path) : Prop where
  source : isSourceName path.toString
  named : Path.ofString path.toString = path
  readable : ∃ content, v.read (s.root / path) = .ok content
  completes : ∀ name ∈ namesIn s v path, s.Completes v path.toString name

namespace Quiet

variable (hs : s.Starts v₀ base v) (hv : v₀.Granted) (hd : (ofVolume s.root v).Decodes)

include hs hv hd

theorem succeeds_symbol (h : Quiet s v₀ base v w) (hfile : isSourceName file)
    (hread : v.read (s.root / Path.ofString file) = .ok content) (hcompletes : s.Completes v file name) :
    Succeeds (symbol s file fingerprint st name) w
      fun q w' => Quiet s v₀ base v w' ∧ Advances 0 1 st q.1 := by
  refine (h.succeeds_extractSource hs hv hfile hread hcompletes).bind fun o w₁ ⟨h₁, hwarns⟩ => ?_
  obtain ⟨text, htext⟩ := (EntryKey.mk fingerprint file name).exists_compact
  have hentry := ContentCache.entryPath_eq (d := s.digester) (c := s.cache) htext
  refine succeeds_lift_bind hentry ((h₁.succeeds_targets hs hd hfile).bind fun found w₂ h₂ => ?_)
  obtain ⟨hone, hcodes⟩ := Cache.Warns.codes hwarns
  refine succeeds_pure ⟨h₂, ⟨⟨o.diagnostics, rfl, hcodes⟩, ?_, rfl, rfl, if_pos hwarns.ok⟩⟩
  simpa [Outcome.codes] using hone

theorem succeeds_symbols {names : List String} (h : Quiet s v₀ base v w) (hfile : isSourceName file)
    (hread : v.read (s.root / Path.ofString file) = .ok content)
    (hnames : ∀ name ∈ names, ∃ D, (ofVolume s.root v).Declares file D ∧ D.name = name)
    (hcompletes : ∀ name ∈ names, s.Completes v file name) :
    Succeeds (symbols s file fingerprint st names) w
      fun q w' => Quiet s v₀ base v w' ∧ Advances 0 names.length st q.1 := by
  induction names generalizing st w with
  | nil => exact succeeds_pure ⟨h, .refl st⟩
  | cons name names ih =>
    obtain ⟨⟨D, hD, rfl⟩, hdeclared⟩ := List.forall_mem_cons.1 hnames
    obtain ⟨hone, hmore⟩ := List.forall_mem_cons.1 hcompletes
    have hfound : Succeeds (Work.lookup s.root ⟨file, D.name⟩) w
        fun found w₁ => found = some D ∧ Quiet s v₀ base v w₁ := by
      refine (h.sees.succeeds_lookup hs.plain.unlinked hd hfile).imp fun found w₁ hruns _ => ?_
      obtain ⟨hfound, hvolume, hsees⟩ := h.sees.runs_lookup hs.plain.unlinked hs.patient hfile hruns
      exact ⟨(hfound D).2 (hs.patient _ _ hD.stands), h.of_sees hvolume hsees⟩
    refine hfound.bind ?_
    rintro _ w₁ ⟨rfl, h₁⟩
    dsimp only
    rw [hD.file_eq, if_neg (by simp)]
    refine (succeeds_symbol hs hv hd h₁ hfile hread hone).bind fun q w₂ ⟨h₂, hadvances⟩ => ?_
    refine (ih h₂ hdeclared hmore).bind fun q' w₃ ⟨h₃, hrest⟩ => succeeds_pure ⟨h₃, ?_⟩
    rw [List.length_cons, Nat.add_comm]
    exact hadvances.trans hrest

omit hd in
theorem succeeds_storeTable (h : Quiet s v₀ base v w) (t : SymbolTable)
    (ht : t.schemaVersion = Cache.schemaVersion) : Succeeds (s.cache.storeTable s.digester t) w
      fun o w' => o = {} ∧ Quiet s v₀ base v w' := by
  have hwrites : t.toDatum.Writes 253 :=
    (SymbolTable.writes (by rw [ht]; decide)).mono (by decide)
  refine (ContentCache.succeeds_storeTable h.kept hs.empty (h.kept.granted hv) hwrites).imp ?_
  rintro _ w' hruns rfl
  have hkept := (ContentCache.kept_storeTable h.kept hs.empty (fun key content hkey _ => ?_) hruns
    (by simp [NoIoFailure])).2
  · exact ⟨rfl, h.of_kept (fun _ _ _ hsober => hsober.apart) hs hkept
      (ContentCache.keeps_storeTable Cache.aside_pinned _ _ _ _ hruns)⟩
  · obtain ⟨text, -, rfl⟩ := Digester.value_eq_ok.1 hkey
    exact ⟨not_isSourceName_entryFilename _,
      ContentCache.not_null_mem_entryFilename (s.digester.nameable _ _), nofun, nofun⟩

theorem succeeds_file {path : Path} (h : Quiet s v₀ base v w) (hpath : s.Ready v path) :
    Succeeds (Indexing.file s st path) w
      fun st' w' => Quiet s v₀ base v w' ∧ Advances 1 (namesIn s v path).length st st' := by
  obtain ⟨content, hread⟩ := hpath.readable
  have hsource := (Path.isSource_ofString hpath.source).join (p := s.root)
  rw [hpath.named] at hsource
  have hcontent : w.volume.readOutcome (s.root / path) = .success content := by
    rw [Volume.readOutcome, (h.sees.alike.read_iff hs.plain.unlinked hsource).2 hread]
    rfl
  refine succeeds_get_bind ?_
  rw [hcontent]
  dsimp only [Outcome.success]
  obtain ⟨fingerprint, hfingerprint⟩ :=
    exists_fingerprintKey s.digester s.cache.algorithm s.config.vocabulary content
  refine succeeds_lift_bind (congrArg Attempt.ofWrite hfingerprint) ?_
  have hnames : Succeeds (Work.declaredNames s.root path.toString) w
      fun names w₁ => (names = namesIn s v path ∧ ∀ name ∈ names,
        ∃ D, (ofVolume s.root v).Declares path.toString D ∧ D.name = name) ∧ Quiet s v₀ base v w₁ := by
    refine (h.sees.succeeds_declaredNames hs.plain.unlinked hd hpath.source).imp fun names w₁ hruns _ => ?_
    obtain ⟨hnames, hvolume, hsees⟩ := runs_declaredNames h.sees hs.plain.unlinked hpath.source hruns
    exact ⟨⟨by rw [namesIn, hnames]; rfl, fun name => (mem_names_iff hnames).1⟩, h.of_sees hvolume hsees⟩
  refine hnames.bind ?_
  rintro _ w₁ ⟨⟨rfl, hdeclared⟩, h₁⟩
  rw [← hpath.named] at hread
  refine (succeeds_symbols hs hv hd h₁ hpath.source hread hdeclared hpath.completes).bind ?_
  rintro q w₂ ⟨h₂, hadvances⟩
  refine (succeeds_storeTable hs hv h₂ _ rfl).bind ?_
  rintro _ w₃ ⟨rfl, h₃⟩
  obtain ⟨key, htable, -⟩ := ContentCache.exists_tablePath s.digester s.cache path.toString
  refine succeeds_lift_bind htable (succeeds_say_bind fun log => succeeds_pure ⟨h₃.of_sees rfl ?_, ?_⟩)
  · exact ⟨h₃.sees.alike, h₃.sees.files, h₃.sees.pinned⟩
  · obtain ⟨ds, hds, hcodes⟩ := hadvances.reports
    refine ⟨⟨ds, by simpa using hds, hcodes⟩, hadvances.codes, ?_, hadvances.symbols, hadvances.failed⟩
    rw [List.length_append, hadvances.files]
    rfl

theorem succeeds_foldlM {paths : List Path} (h : Quiet s v₀ base v w) (hpaths : ∀ path ∈ paths, s.Ready v path) :
    Succeeds (paths.foldlM (Indexing.file s) st) w fun st' w' => Quiet s v₀ base v w' ∧
      Advances paths.length (paths.map fun path => (namesIn s v path).length).sum st st' := by
  induction paths generalizing st w with
  | nil => exact succeeds_pure ⟨h, .refl st⟩
  | cons path paths ih =>
    obtain ⟨hpath, hrest⟩ := List.forall_mem_cons.1 hpaths
    rw [List.foldlM_cons]
    refine (succeeds_file hs hv hd h hpath).bind fun st₁ w₁ ⟨h₁, hone⟩ => ?_
    refine (ih h₁ hrest).imp fun st' w' _ ⟨h', hmore⟩ => ⟨h', ?_⟩
    rw [List.length_cons, Nat.add_comm]
    exact hone.trans hmore

end Quiet

/-! ## Summaries -/

theorem succeeds_prune {kind : CacheKind} (h₀ : Cache.Empty v₀ s.cache.root base) (hv : v₀.Granted)
    (h : Cache.Kept v₀ base (Sober s) w.volume) (live : List Path) :
    Succeeds (prune (Cache.directory s.cache.root kind) live) w
      fun _ w' => Cache.Kept v₀ base (Sober s) w'.volume := by
  have hlisted : ∀ name ∈ w.volume.list (Cache.directory s.cache.root kind),
      name ≠ ".." ∧ '\x00' ∉ name.toList := by
    intro name hname
    rw [Volume.list, h.find_directory h₀] at hname
    obtain ⟨e, he⟩ := Option.ne_none_iff_exists'.1 (Volume.at?_of_mem_names hname)
    obtain ⟨hup, content, -, hsober⟩ := h.documents kind name e he
    exact ⟨hup, hsober.nullFree⟩
  refine succeeds_get_bind (succeeds_forM (I := fun w : Workspace => Cache.Kept v₀ base (Sober s) w.volume)
    (fun name hname w₁ h₁ => ?_) h)
  obtain ⟨hup, hnull⟩ := hlisted name (List.mem_filter.1 hname).1
  dsimp only
  split
  · have hdiscards : Succeeds (FileAction.discard ((Cache.directory s.cache.root kind).child name)) w₁.volume
        fun _ _ => True := h₁.succeeds_discard h₀ (h₁.granted hv) hup hnull
    obtain ⟨_, v, hdiscarded, -⟩ := hdiscards
    have hact (log : Array LogLine) :
        Runs (mustAct (FileAction.discard ((Cache.directory s.cache.root kind).child name)))
          { w₁ with log } (.ok _) { w₁ with log, volume := v } := runs_mustAct_ok.2 ⟨v, hdiscarded, rfl⟩
    exact succeeds_say_bind fun log => (hact _).succeeds (h₁.runs_discard h₀ hup hdiscarded)
  · exact succeeds_pure h₁

theorem sober_index (content : ByteArray) : Sober s .index "index.json" content :=
  ⟨by rw [isSourceName_iff]; decide, by decide, nofun, nofun⟩

theorem sober_manifest (content : ByteArray) : Sober s .manifests "manifest.json" content :=
  ⟨by rw [isSourceName_iff]; decide, by decide, nofun, nofun⟩

theorem encodable_schemaVersion : Json.encodable Cache.schemaVersion := by decide

theorem writes_manifest {m n : ℕ} (h : Advances m n {} st) (hm : m < 0x10000000000000000)
    (hn : n < 0x10000000000000000) : (manifest s st).toDatum.Writes 3 := by
  have hcodes : st.codes.length ≤ n := by simpa using h.codes
  have hfiles : st.files.length = m := by simpa using h.files
  have hsymbols : st.symbolCount = n := by simpa using h.symbols
  refine Manifest.writes encodable_schemaVersion (Json.encodable_natCast (by omega))
    (Json.encodable_natCast (by omega)) ?_
  simp only [manifest, countCodes, List.forall_mem_map]
  intro c _
  have hcount := List.count_le_length (a := c) (l := st.codes)
  exact Json.encodable_natCast (by omega)

theorem succeeds_writeSummary {kind : CacheKind} {name : String} {x : Datum}
    (h₀ : Cache.Empty v₀ s.cache.root base) (hv : v₀.Granted) (h : Cache.Kept v₀ base (Sober s) w.volume)
    (hname : name ≠ "..") (hsober : ∀ content, Sober s kind name content) (hx : x.Writes 254) :
    Succeeds (Cache.writeDocument ((Cache.directory s.cache.root kind).child name) x) w
      fun o w' => o = {} ∧ Cache.Kept v₀ base (Sober s) w'.volume := by
  have hnull : '\x00' ∉ name.toList := (hsober default).nullFree
  refine (h.succeeds_writeDocument h₀ (h.granted hv) hname hnull hx).imp ?_
  rintro _ w' hruns rfl
  exact ⟨rfl, (h.runs_writeDocument h₀ hname (fun _ _ => hsober _) hruns (by simp [NoIoFailure])).2.1⟩

/-- What a run comes to that has nothing to report but damaged documents: so many files and symbols, none of
which failed. -/
def EndsWell (files symbols : ℕ) (o : Outcome Manifest) : Prop :=
  (∀ x ∈ o.diagnostics, x.code = DiagnosticKey.cacheCorrupted.code) ∧ ∃ m, o.value = some m ∧
    m.fileCount = files ∧ m.symbolCount = symbols ∧ m.failedSymbols = []

theorem EndsWell.noIoFailure {files symbols : ℕ} {o : Outcome Manifest} (h : EndsWell files symbols o) :
    NoIoFailure o.diagnostics := by
  intro x hx
  rw [h.1 x hx]
  decide

theorem succeeds_run {paths : List Path} (hs : s.Starts v₀ base v) (hv : v₀.Granted)
    (hd : (ofVolume s.root v).Decodes) (hw : w.volume = v) (hpinned : w.pinned = ∅)
    (hscan : (s.scan v).scan v s.root = .ok paths) (hpaths : ∀ path ∈ paths, s.Ready v path)
    (hfiles : paths.length < 0x10000000000000000)
    (hnames : (paths.map fun path => (namesIn s v path).length).sum < 0x10000000000000000) :
    Succeeds (run s) w
      fun o _ => EndsWell paths.length (paths.map fun path => (namesIn s v path).length).sum o := by
  subst hw
  refine succeeds_get_bind (succeeds_lift_bind hscan ?_)
  refine (Quiet.succeeds_foldlM hs hv hd (.initial hs rfl hpinned) hpaths).bind
    fun st w₁ ⟨h₁, hadvances⟩ => ?_
  refine (succeeds_prune hs.empty hv h₁.kept _).bind fun _ w₂ h₂ => ?_
  refine (succeeds_prune hs.empty hv h₂ _).bind fun _ w₃ h₃ => ?_
  have hindex := RepositoryIndex.writes (i := index s st) encodable_schemaVersion
  have hmanifest := writes_manifest (s := s) hadvances hfiles hnames
  rw [join_indexFile, join_manifestFile]
  refine (succeeds_writeSummary hs.empty hv h₃ (by decide) sober_index (hindex.mono (by decide))).bind ?_
  rintro _ w₄ ⟨rfl, h₄⟩
  refine (succeeds_writeSummary hs.empty hv h₄ (by decide) sober_manifest
    (hmanifest.mono (by decide))).bind ?_
  rintro _ w₅ ⟨rfl, -⟩
  refine succeeds_say_bind fun log => succeeds_pure ⟨?_, manifest s st, rfl, ?_, ?_, ?_⟩
  · obtain ⟨ds, hds, hcodes⟩ := hadvances.reports
    simpa [hds] using hcodes
  · simp [manifest, hadvances.files]
  · simp [manifest, hadvances.symbols]
  · simp [manifest, hadvances.failed]

theorem Succeeds.withFreshSources {α : Type} {x : Work α} {Q : α → Prop}
    (h : Succeeds x { w with pinned := ∅ } fun a _ => Q a) :
    Succeeds (Work.withFreshSources x) w fun a _ => Q a := by
  obtain ⟨a, w₁, ha, hQ⟩ := h
  rcases hrun : (Work.withFreshSources x).run.run w with ⟨q, w'⟩
  obtain ⟨w₂, hfresh, rfl⟩ := runs_withFreshSources hrun
  obtain ⟨rfl, rfl⟩ := Prod.mk.inj (hfresh.symm.trans ha)
  exact ⟨a, _, hrun, hQ⟩

/-- Indexing comes to its end where the cache can be laid out, the files can be read and decoded, and every
pass over a declaration is complete without a report. -/
theorem succeeds_indexRepository {paths : List Path} (hlaid : Cache.LaysOut w.volume s.cache.root v)
    (hs : s.Starts v₀ base v) (hv : v₀.Granted) (hd : (ofVolume s.root v).Decodes)
    (hscan : (s.scan v).scan v s.root = .ok paths) (hpaths : ∀ path ∈ paths, s.Ready v path)
    (hfiles : paths.length < 0x10000000000000000)
    (hnames : (paths.map fun path => (namesIn s v path).length).sum < 0x10000000000000000) :
    Succeeds (indexRepository s.digester s.root s.cache.root s.config s.clock) w
      fun o _ => EndsWell paths.length (paths.map fun path => (namesIn s v path).length).sum o := by
  have hmade : Runs (Cache.ensureLayout s.cache.root) { w with pinned := ∅ } (.ok {})
      { w with pinned := ∅, volume := v } :=
    runs_bind.2 (.inl ⟨_, _, runs_act_of hlaid, runs_pure.2 ⟨rfl, rfl⟩⟩)
  have hruns := succeeds_run (w := { w with pinned := ∅, volume := v }) hs hv hd rfl rfl hscan hpaths hfiles
    hnames
  have hrest : Succeeds (liftM (Algorithm.named s.config.hashAlgorithm) >>= fun a =>
      run { s with cache := ⟨s.cache.root, a⟩ } : Work (Outcome Manifest)) { w with pinned := ∅, volume := v }
        fun o _ => EndsWell paths.length (paths.map fun path => (namesIn s v path).length).sum o :=
    succeeds_lift_bind hs.named hruns
  obtain ⟨o, w', hrun, ho⟩ := hrest
  exact Succeeds.withFreshSources (((runs_ok_bind hmade).2 hrun).succeeds ho)

/-! ## Files without imports -/

theorem readModule_toUTF8 (s : String) : readModule s.toUTF8 = .ok (some (TypeScript.parseModule s)) := by
  have hutf8 : String.fromUTF8? s.toUTF8 = some s := dif_pos s.isValidUTF8
  rw [readModule, hutf8]

theorem lookup_of_importless {t : SourceTree} {m : TypeScript.ModuleSyntax} {file : String}
    (name : String) (hm : t.module file = .ok (some m)) (himports : m.imports = []) (ht : 0 < t.patience) :
    t.lookup ⟨file, name⟩ = .ok ((m.declaration? name).map (t.record m file)) := by
  obtain ⟨n, hn⟩ : ∃ n, t.patience = n + 1 := ⟨t.patience - 1, by omega⟩
  rw [SourceTree.lookup, follow, hn]
  cases hd : m.declaration? name with
  | some d =>
    rw [trail_of_declared rfl hm hd]
    rfl
  | none =>
    have himport : m.import? name = none := by simp [TypeScript.ModuleSyntax.import?, himports]
    simp only [SourceTree.trail, hm, hd, himport, List.contains_nil, Bool.false_eq_true, if_false, bind,
      Except.bind, Option.bind]
    rfl

theorem record_of_importless (t t' : SourceTree) {m : TypeScript.ModuleSyntax} (himports : m.imports = []) :
    t.record m = t'.record m := by
  funext file d
  simp [SourceTree.record, TypeScript.ModuleSyntax.import?, himports]

theorem patience_pos (root : Path) (v : Volume) : 0 < (ofVolume root v).patience := by
  rw [patience_ofVolume]
  omega

/-- Every file can be decoded, and none imports anything. -/
def Importless (v : Volume) : Prop :=
  ∀ l content, v.at? l = some (.file content) → ∃ m, readModule content = .ok (some m) ∧ m.imports = []

namespace Importless

variable {root : Path} {m : TypeScript.ModuleSyntax}

theorem module (h : Importless v) (root : Path) (file : String) : (ofVolume root v).module file = .ok none ∨
    ∃ m, (ofVolume root v).module file = .ok (some m) ∧ m.imports = [] := by
  have hnow : (ofVolume root v).module file = readingAt v (root / Path.ofString file) := current_ofVolume ∅
  rw [hnow, readingAt]
  split
  · next content hread =>
    obtain ⟨l, hfind, -⟩ := Volume.read_eq_ok.1 hread
    exact .inr (h l content (Volume.find_eq_ok.1 hfind).2)
  · exact .inl rfl

theorem imports_eq_nil (h : Importless v) (hm : (ofVolume root v).module file = .ok (some m)) :
    m.imports = [] := by
  rcases h.module root file with hnone | ⟨m', hm', himports⟩
  · cases hnone.symm.trans hm
  · obtain rfl := Option.some.inj (Except.ok.inj (hm'.symm.trans hm))
    exact himports

theorem decodes (h : Importless v) : (ofVolume root v).Decodes := by
  intro file _
  rcases h.module root file with hnone | ⟨m, hm, -⟩
  · exact ⟨none, hnone⟩
  · exact ⟨some m, hm⟩

theorem patient (h : Importless v) : (ofVolume root v).Patient := by
  rintro ⟨file, name⟩ D hstands
  cases hstands with
  | declared hm hd =>
    rw [lookup_of_importless name hm (h.imports_eq_nil hm) (patience_pos root v), hd]
    rfl
  | imported hm _ hi _ _ =>
    have himports := h.imports_eq_nil hm
    simp [TypeScript.ModuleSyntax.import?, himports] at hi

theorem keepsNames (h : Importless v) (hm : (ofVolume root v).module file = .ok (some m)) : m.KeepsNames := by
  intro i hi
  rw [h.imports_eq_nil hm] at hi
  cases hi

end Importless

/-- A cache is laid out in an empty directory among files without links, and a run can start. -/
theorem exists_starts (hnamed : Algorithm.named s.config.hashAlgorithm = .ok s.cache.algorithm)
    (hv : v.Unfiltered s.root []) (hgranted : v.Granted) (h₀ : Cache.Empty v s.cache.root base)
    (hout : ∀ name ∈ s.cache.root.segments, Volume.IsName name) (hroot : v.entries[([] : Location)]? = none)
    (himports : Importless v) : ∃ v', Cache.LaysOut v s.cache.root v' ∧ s.Starts v base v' ∧
      v'.Unfiltered s.root [] ∧ v'.file? = v.file? ∧ Importless v' := by
  obtain ⟨v', hlaid, -, -, hkinds⟩ := (Cache.Holding.initial h₀ hgranted).runs_layout h₀ CacheKind.all
  have hbare := ((Cache.Bare.initial v base).layout h₀ hlaid).1
  obtain ⟨hspared, -⟩ := Cache.find_of_forM hv.wellFormed hv.literal hout hlaid
  have hfiles : v'.file? = v.file? :=
    keeps_forM (fun kind => FileAction.keeps_ensureDirectories _) _ _ _ _ hlaid
  have hv' := hv.spares (Cache.wellFormed_layout hv.wellFormed hout hlaid) hspared hfiles
  have himports' : Importless v' := by
    intro l content hat
    have hfile : v.file? l = some content := by
      rw [← hfiles, Volume.file?, hat]
    refine himports l content ?_
    unfold Volume.file? at hfile
    split at hfile
    · next hat => rwa [Option.some.inj hfile] at hat
    · cases hfile
  refine ⟨v', hlaid, ⟨hnamed, h₀, hbare.kept h₀ hkinds, ⟨?_, ?_⟩, himports'.patient⟩, hv', hfiles, himports'⟩
  · exact fun l name target _ _ => hv'.literal.linkless l target
  · rw [hbare.top, hroot]

/-! ## An annex -/

section Annex

open TypeScript

/-- Two declarations that refer to each other. -/
def ringText : String := "export interface Node \x7b next: Link \x7d\nexport type Link = Node\n"

/-- A workspace with a source file, and with one more beside the directory of an empty cache. -/
def annex : Workspace where
  volume :=
    { entries := ((((∅ : Std.ExtTreeMap Location FileEntry).insert ["lib"] .directory).insert
        ["lib", "cache"] .directory).insert ["lib", "ring.ts"] (.file ringText.toUTF8)).insert
          ["ring.ts"] (.file ringText.toUTF8) }

def annexSetting : Setting where
  digester := .standard
  root := ⟨.relative, []⟩
  cache := ⟨⟨.relative, ["lib", "cache"]⟩, .sha256⟩
  config := {}
  clock := .still

theorem annex_entries {l : Location} {e : FileEntry} (h : annex.volume.at? l = some e) :
    (l = [] ∨ l = ["lib"] ∨ l = ["lib", "cache"]) ∧ e = .directory ∨
      (l = ["lib", "ring.ts"] ∨ l = ["ring.ts"]) ∧ e = .file ringText.toUTF8 := by
  by_cases hroot : l = []
  · rw [hroot] at h
    exact .inl ⟨.inl hroot, (Option.some.inj h).symm⟩
  · simp only [annex, Volume.at?, hroot, if_false, Std.ExtTreeMap.getElem?_insert,
      Std.LawfulEqCmp.compare_eq_iff_eq] at h
    split_ifs at h with hring hcopy hcache hlib
    · exact .inr ⟨.inr hring.symm, (Option.some.inj h).symm⟩
    · exact .inr ⟨.inl hcopy.symm, (Option.some.inj h).symm⟩
    · exact .inl ⟨.inr (.inr hcache.symm), (Option.some.inj h).symm⟩
    · exact .inl ⟨.inr (.inl hlib.symm), (Option.some.inj h).symm⟩
    · simp at h

theorem annex_directories : annex.volume.at? ["lib"] = some .directory ∧
    annex.volume.at? ["lib", "cache"] = some .directory := by
  simp [annex, Volume.at?, Std.ExtTreeMap.getElem_insert]

theorem annex_files : annex.volume.at? ["lib", "ring.ts"] = some (.file ringText.toUTF8) ∧
    annex.volume.at? ["ring.ts"] = some (.file ringText.toUTF8) := by
  simp [annex, Volume.at?, Std.ExtTreeMap.getElem_insert]

theorem annex_unfiltered : annex.volume.Unfiltered ⟨.relative, []⟩ [] where
  wellFormed := by
    refine ⟨rfl, fun l hl => ?_, fun l hl => ?_⟩
    all_goals
      obtain ⟨e, he⟩ := Option.ne_none_iff_exists'.1 hl
      obtain ⟨rfl | rfl | rfl, -⟩ | ⟨rfl | rfl, -⟩ := annex_entries he
    all_goals first | rfl | exact annex_directories.1 | decide
  literal := by
    refine ⟨fun l target hl => ?_, fun l hl => ?_, List.not_mem_nil⟩
    · obtain ⟨-, he⟩ | ⟨-, he⟩ := annex_entries hl <;> cases he
    · obtain ⟨e, he⟩ := Option.ne_none_iff_exists'.1 hl
      obtain ⟨rfl | rfl | rfl, -⟩ | ⟨rfl | rfl, -⟩ := annex_entries he <;> decide
  found := Volume.find_start rfl rfl
  ignoring l := by
    by_contra hfile
    obtain ⟨content, hat⟩ := Volume.file?_ne_none.1 hfile
    obtain ⟨-, he⟩ | ⟨hl | hl, -⟩ := annex_entries hat
    · cases he
    all_goals
      have hlast := congrArg List.getLast? hl
      simp [ScanRequest.ignoreFileName] at hlast

theorem annex_empty : Cache.Empty annex.volume ⟨.relative, ["lib", "cache"]⟩ ["lib", "cache"] where
  found := (Volume.find_join annex_unfiltered.wellFormed annex_unfiltered.literal annex_unfiltered.found
    (by simp) (by decide)).2 ⟨rfl, annex_directories.2⟩
  nothing l hl := by
    by_contra hat
    obtain ⟨e, he⟩ := Option.ne_none_iff_exists'.1 hat
    obtain ⟨h | h | h, -⟩ | ⟨h | h, -⟩ := annex_entries he <;> simp [hl] at h
  named := by decide
  legible _ := rfl

def ringModule : ModuleSyntax := parseModule ringText

theorem ring_imports : ringModule.imports = [] := by decide +kernel

def ringNames : List String := ["Node", "Link"]

theorem ring_names : ringModule.declarations.map DeclarationSyntax.name = ringNames := by decide +kernel

theorem isSourceName_ring : isSourceName "ring.ts" := isSourceName_iff.2 ⟨".ts", by decide, by decide⟩

theorem ofString_ring : Path.ofString "ring.ts" = ⟨.relative, ["ring.ts"]⟩ := by decide

theorem toString_ring : Path.toString ⟨.relative, ["ring.ts"]⟩ = "ring.ts" := rfl

theorem eraseDups_ringNames : ringNames.eraseDups = ringNames := by decide

theorem annex_importless : Importless annex.volume := by
  intro l content hat
  obtain ⟨-, he⟩ | ⟨-, he⟩ := annex_entries hat
  · cases he
  · obtain rfl := FileEntry.file.inj he
    exact ⟨_, readModule_toUTF8 ringText, ring_imports⟩

/-- Where the run over the annex starts from. -/
structure AnnexStarts (v : Volume) : Prop where
  laid : Cache.LaysOut annex.volume annexSetting.cache.root v
  starts : annexSetting.Starts annex.volume ["lib", "cache"] v
  unfiltered : v.Unfiltered ⟨.relative, []⟩ []
  files : v.file? = annex.volume.file?
  importless : Importless v

theorem exists_annexStarts : ∃ v, AnnexStarts v := by
  obtain ⟨v, hlaid, hstarts, hv, hfiles, himports⟩ := exists_starts (s := annexSetting) rfl annex_unfiltered
    (fun _ _ _ => rfl) annex_empty (by decide) (by simp [annex]) annex_importless
  exact ⟨v, hlaid, hstarts, hv, hfiles, himports⟩

variable {v : Volume}

namespace AnnexStarts

theorem source_iff (h : AnnexStarts v) {l : Location} (houtside : l.head? ≠ some "lib") :
    v.IsSource [] l ↔ l = ["ring.ts"] := by
  constructor
  · intro hl
    obtain ⟨content, hat⟩ := Volume.file?_ne_none.1 (h.files ▸ hl.regular)
    obtain ⟨-, he⟩ | ⟨rfl | hl, -⟩ := annex_entries hat
    · cases he
    · simp at houtside
    · exact hl
  · rintro rfl
    refine ⟨?_, isSourceName_ring, by decide⟩
    rw [h.files]
    exact Volume.file?_ne_none.2 ⟨_, annex_files.2⟩

theorem scan (h : AnnexStarts v) :
    (annexSetting.scan v).scan v annexSetting.root = .ok [⟨.relative, ["ring.ts"]⟩] := by
  have hskipped : (annexSetting.scan v).skipped = "lib" := by
    have hout := Volume.find_of_grown h.starts.kept.grown annex_empty.found
    change skippedDirectory v ⟨.relative, []⟩ ⟨.relative, ["lib", "cache"]⟩ = "lib"
    rw [skippedDirectory, Volume.segments_resolve h.unfiltered.found, Volume.segments_resolve hout]
    rfl
  have hscan := ScanRequest.scan_unfiltered (r := annexSetting.scan v) h.unfiltered
  have hnodup := (ScanRequest.nodup_scan h.unfiltered.wellFormed hscan).of_map
  refine hscan.trans (congrArg Except.ok (List.perm_singleton.1 ?_))
  refine (List.perm_ext_iff_of_nodup hnodup (List.nodup_singleton _)).2 fun p => ?_
  rw [ScanRequest.mem_scan h.unfiltered rfl rfl hscan, List.mem_singleton, hskipped]
  constructor
  · rintro ⟨l, rfl, hl, houtside⟩
    rw [(h.source_iff (houtside.resolve_left (by decide))).1 hl]
  · rintro rfl
    exact ⟨_, rfl, (h.source_iff (by decide)).2 rfl, .inr (by decide)⟩

theorem read (h : AnnexStarts v) : v.read (annexSetting.root / ⟨.relative, ["ring.ts"]⟩) = .ok ringText.toUTF8 := by
  have hat : v.at? ["ring.ts"] = some (.file ringText.toUTF8) :=
    (h.starts.kept.grown.kept _ (by simp [annex_files.2])).trans annex_files.2
  refine Volume.read_eq_ok.2 ⟨["ring.ts"], (Volume.find_join h.unfiltered.wellFormed h.unfiltered.literal
    h.unfiltered.found (by simp) (by decide)).2 ⟨rfl, hat⟩, ?_⟩
  rw [h.starts.kept.grown.refusal]
  rfl

theorem module (h : AnnexStarts v) : (ofVolume annexSetting.root v).module "ring.ts" = .ok (some ringModule) := by
  have hnow : (ofVolume annexSetting.root v).module "ring.ts" =
    readingAt v (annexSetting.root / Path.ofString "ring.ts") := current_ofVolume ∅
  rw [hnow, ofString_ring, readingAt, h.read]
  exact readModule_toUTF8 ringText

end AnnexStarts

/-- A declaration of the file, wherever that is. -/
def ringRecord (d : DeclarationSyntax) : RecordDeclaration :=
  SourceTree.record ⟨annexSetting.root, {}, ∅, ∅, 0⟩ ringModule "ring.ts" d

/-- The declarations of the file, and of no other one. -/
def ringSource : DeclarationSource where
  lookup key :=
    if key.file = "ring.ts" then
      .ok ((ringModule.declaration? key.name).map fun d => (ringRecord d).alone)
    else .error .notUtf8
  shared := false
  depth := maxDepth

/-- The pass over a declaration of the file. -/
def ringPass (name : String) : Option ExtractionPass :=
  ExtractionRequest.completed ((annexSetting.request "ring.ts" name).pass .standard ringSource).1

/-- The pass over a declaration is well made, and not timed. -/
def Passes (name : String) : Prop :=
  (ringPass name).any ExtractionRequest.wellMade ∧ ((annexSetting.request "ring.ts" name).remaining ringSource).isNone

theorem passes_node : Passes "Node" := ⟨by decide +kernel, by decide +kernel⟩

theorem passes_link : Passes "Link" := ⟨by decide +kernel, by decide +kernel⟩

theorem passes_of_mem_ringNames : ∀ name ∈ ringNames, Passes name := by
  simp [ringNames, passes_node, passes_link]

theorem record_ringModule (t : SourceTree) : t.record ringModule "ring.ts" = ringRecord := by
  rw [record_of_importless t ⟨annexSetting.root, {}, ∅, ∅, 0⟩ ring_imports]
  rfl

theorem ringSource_extends {t : SourceTree} (hm : t.module "ring.ts" = .ok (some ringModule))
    (ht : 0 < t.patience) : ringSource.Extends t.source where
  lookup key D h := by
    obtain ⟨file, name⟩ := key
    unfold ringSource at h
    dsimp only at h
    split at h
    · next hfile =>
      subst hfile
      have hlookup := lookup_of_importless name hm ring_imports ht
      rw [← h, source]
      dsimp only
      rw [hlookup, record_ringModule]
      simp [bind, Except.bind, pure, Except.pure, Function.comp_def]
    · cases h
  shared := rfl
  depth := rfl

namespace AnnexStarts

theorem completes (h : AnnexStarts v) {name : String} (hname : name ∈ ringNames) :
    annexSetting.Completes v "ring.ts" name := by
  intro t ht
  have hm := (ht.module _ isSourceName_ring).trans h.module
  have hpatience : 0 < t.patience := (patience_pos _ v).trans_le ht.patience
  obtain ⟨hany, hremaining⟩ := passes_of_mem_ringNames name hname
  obtain ⟨p, hp, hmade⟩ := (Option.any_eq_true _ _).1 hany
  have hp := ExtractionRequest.completes_of_completed hp hmade
  refine ⟨p, ExtractionRequest.pass_of_extends (ringSource_extends hm hpatience) hp.complete
    (Option.isNone_iff_eq_none.1 hremaining) ?_, hp.silent, hp.writes⟩
  simp [hp.silent, limitReports]

theorem namesIn_ring (h : AnnexStarts v) : namesIn annexSetting v ⟨.relative, ["ring.ts"]⟩ =
    ringNames.mergeSort fun a b => decide (a ≤ b) := by
  rw [namesIn, toString_ring, names, h.module]
  simp only [bind, Except.bind, pure, Except.pure, ring_names, eraseDups_ringNames]
  rfl

theorem ready (h : AnnexStarts v) : annexSetting.Ready v ⟨.relative, ["ring.ts"]⟩ where
  source := by rw [toString_ring, isSourceName_ring]
  named := by rw [toString_ring, ofString_ring]
  readable := ⟨_, h.read⟩
  completes name hname := by
    rw [h.namesIn_ring, List.mem_mergeSort] at hname
    exact h.completes hname

/-- Indexing comes to its end. -/
theorem succeeds (h : AnnexStarts v) :
    Succeeds (indexRepository .standard ⟨.relative, []⟩ ⟨.relative, ["lib", "cache"]⟩ {}) annex
      fun o _ => EndsWell 1 2 o := by
  have hlength : (namesIn annexSetting v ⟨.relative, ["ring.ts"]⟩).length = 2 := by
    rw [h.namesIn_ring, List.length_mergeSort]
    rfl
  have hends := succeeds_indexRepository (w := annex) h.laid h.starts (fun _ _ _ => rfl) h.importless.decodes
    h.scan (by simpa using h.ready) (by simp) (by simp [hlength])
  rw [List.map_singleton, List.sum_singleton, hlength] at hends
  exact hends

end AnnexStarts

end Annex

end Indexing

end TypeAtlas
