import TypeAtlas.Cache.Document
import TypeAtlas.Proofs.Graph.Recorded
import TypeAtlas.Proofs.Json.Rewritten

/-! # Entries, tables and summaries read back

An entry that was written to a file in an envelope is read back from that file: its checksum is right,
and it holds the graph with the payloads of tags in order. The documents about a repository give back
symbol tables as they were, and an index and a summary with their free records in order.
-/

namespace TypeAtlas

/-! ## Reports -/

theorem Datum.distinct_fieldIf {α : Type} {name : String} {f : α → Datum} {x : Option α}
    (h : ∀ a ∈ x, (f a).Distinct) : ∀ g ∈ fieldIf name f x, g.2.Distinct := by
  cases x with
  | none => simp [fieldIf]
  | some a => simpa [fieldIf] using h a rfl

theorem Datum.names_fieldIf {α : Type} (name : String) (f : α → Datum) (x : Option α) :
    ((fieldIf name f x).map Prod.fst).Sublist [name] := by
  cases x with
  | none => exact List.nil_sublist _
  | some a => exact List.Sublist.refl _

theorem Place.distinct_toFields (p : Place) : (Datum.record p.toFields).Distinct := by
  have hnames : (p.toFields.map Prod.fst).Sublist ["filePath", "line", "column", "symbol"] := by
    simp only [toFields, List.map_append]
    exact (((Datum.names_fieldIf _ _ _).append (Datum.names_fieldIf _ _ _)).append
      (Datum.names_fieldIf _ _ _)).append (Datum.names_fieldIf _ _ _)
  refine .record (hnames.nodup (by decide)) fun f hf => ?_
  simp only [toFields, List.mem_append] at hf
  rcases hf with ((hf | hf) | hf) | hf
  · exact Datum.distinct_fieldIf (fun _ _ => .text _) f hf
  · exact Datum.distinct_fieldIf (fun _ _ => .number _) f hf
  · exact Datum.distinct_fieldIf (fun _ _ => .number _) f hf
  · exact Datum.distinct_fieldIf (fun _ _ => .text _) f hf

theorem Context.distinct_toFields (c : Context) : (Datum.record c.toFields).Distinct := by
  have hnames : (c.toFields.map Prod.fst).Sublist ["entity", "field", "hint"] := by
    simp only [toFields, List.map_append]
    exact ((Datum.names_fieldIf _ _ _).append (Datum.names_fieldIf _ _ _)).append
      (Datum.names_fieldIf _ _ _)
  refine .record (hnames.nodup (by decide)) fun f hf => ?_
  simp only [toFields, List.mem_append] at hf
  rcases hf with (hf | hf) | hf <;> exact Datum.distinct_fieldIf (fun _ _ => .text _) f hf

theorem Diagnostic.distinct_toFields (d : Diagnostic) : (Datum.record d.toFields).Distinct := by
  have hnames : (d.toFields.map Prod.fst).Sublist
      ["code", "category", "message", "helpUrl", "location", "context"] := by
    simp only [toFields, List.map_append]
    exact ((List.Sublist.refl ["code", "category", "message"]).append
      (Datum.names_fieldIf _ _ _)).append (Datum.names_fieldIf _ _ _) |>.append
        (Datum.names_fieldIf _ _ _)
  refine .record (hnames.nodup (by decide)) fun f hf => ?_
  simp only [toFields, List.mem_append, List.mem_cons, List.not_mem_nil, or_false] at hf
  rcases hf with (((rfl | rfl | rfl) | hf) | hf) | hf
  · exact .text _
  · exact .text _
  · exact .text _
  · exact Datum.distinct_fieldIf (fun _ _ => .text _) f hf
  · exact Datum.distinct_fieldIf (fun p _ => p.distinct_toFields) f hf
  · exact Datum.distinct_fieldIf (fun c _ => c.distinct_toFields) f hf

/-! ## Entries -/

/-- The fields of a record as a document gives them back. -/
abbrev Datum.givenBack (fs : List (String × Datum)) : List (String × Datum) :=
  Json.sortFields (canonicalFields fs)

namespace CacheEntry

def recorded (e : CacheEntry) : CacheEntry :=
  { e with graph := e.graph.recorded, diagnostics := e.diagnostics.map Datum.givenBack }

structure Recordable (e : CacheEntry) : Prop where
  graph : e.graph.toGraph.Recordable
  diagnostics : ∀ fs ∈ e.diagnostics, (Datum.record fs).Distinct

theorem read_canonical {e : CacheEntry} (h : e.graph.toGraph.Recordable) :
    read e.toDatum.canonical = .ok e.recorded := by
  refine Schema.record_canonical (by simp) (by simp) fun gs hgs => ?_
  have hversion : Schema.withDefault gs "schema_version" Schema.int Cache.schemaVersion =
      .ok e.schemaVersion :=
    Schema.withDefault_of_gives hgs (d := .int e.schemaVersion) (by simp [Datum.field?]) rfl
  have hsymbol : Schema.required gs "symbol" Schema.text = .ok e.symbol :=
    Schema.required_of_gives hgs (d := .text e.symbol) (by simp [Datum.field?]) rfl
  have hfile : Schema.required gs "file_path" Schema.text = .ok e.filePath :=
    Schema.required_of_gives hgs (d := .text e.filePath) (by simp [Datum.field?]) rfl
  have hhash : Schema.required gs "hash" Schema.text = .ok e.hash :=
    Schema.required_of_gives hgs (d := .text e.hash) (by simp [Datum.field?]) rfl
  have hgraph : Schema.required gs "ir" CanonicalGraph.read = .ok e.graph.recorded :=
    Schema.required_of_gives hgs (d := e.graph.toDatum) (by simp [Datum.field?])
      (CanonicalGraph.read_canonical h)
  obtain ⟨ss, hdict, hmap⟩ := Schema.table_canonical (f := Datum.text) (g := id) (m := e.sources)
    fun _ _ _ => (rfl : Schema.text _ = _)
  have hsources : Schema.withDefault gs "sources" (Schema.dict Schema.text) [] = .ok ss :=
    Schema.withDefault_of_gives hgs (d := .record (e.sources.toList.map fun s => (s.1, .text s.2)))
      (by simp [Datum.field?]) hdict
  have hdiagnostics : Schema.withDefault gs "diagnostics" (Schema.list Schema.anyRecord) [] =
      .ok (e.diagnostics.map Datum.givenBack) :=
    Schema.withDefault_of_gives hgs (d := .list (e.diagnostics.map .record)) (by simp [Datum.field?])
      (Schema.list_canonical fun fs _ => by
        rw [Datum.canonical]
        rfl)
  have hsame : e.sources.map (fun _ => id) = e.sources := by
    refine Std.ExtTreeMap.ext_getElem? fun k => ?_
    rw [Std.ExtTreeMap.getElem?_map, Option.map_id, id]
  rw [hversion, hsymbol, hfile, hhash, hgraph, hsources, hdiagnostics, recorded, ← hsame, ← hmap]
  rfl

theorem Recordable.distinct {e : CacheEntry} (h : e.Recordable) : e.toDatum.Distinct := by
  refine .record (by simp) ?_
  simp only [List.forall_mem_cons, List.not_mem_nil, false_implies, implies_true, and_true]
  exact ⟨.number _, .text _, .text _, .text _, h.graph.distinct,
    Datum.distinct_table fun _ _ _ => .text _, Datum.distinct_list h.diagnostics⟩

end CacheEntry

/-! ## Envelopes -/

namespace Envelope

theorem read_canonical (e : Envelope) :
    read e.toDatum.canonical = .ok { e with payload := e.payload.canonical } := by
  refine Schema.record_canonical (by simp) (by simp) fun gs hgs => ?_
  have hversion : Schema.required gs "v" Schema.int = .ok e.version :=
    Schema.required_of_gives hgs (d := .int e.version) (by simp [Datum.field?]) rfl
  have halgorithm : Schema.required gs "algo" Schema.text = .ok e.algorithm :=
    Schema.required_of_gives hgs (d := .text e.algorithm) (by simp [Datum.field?]) rfl
  have hchecksum : Schema.required gs "checksum" Schema.text = .ok e.checksum :=
    Schema.required_of_gives hgs (d := .text e.checksum) (by simp [Datum.field?]) rfl
  have hpayload : Schema.required gs "payload" .ok = .ok e.payload.canonical :=
    Schema.required_of_gives hgs (d := e.payload) (by simp [Datum.field?]) rfl
  rw [hversion, halgorithm, hchecksum, hpayload]
  rfl

theorem distinct_toDatum {e : Envelope} (h : e.payload.Distinct) : e.toDatum.Distinct := by
  refine .record (by simp) ?_
  simp only [List.forall_mem_cons, List.not_mem_nil, false_implies, implies_true, and_true]
  exact ⟨.number _, .text _, .text _, h⟩

end Envelope

namespace Cache

variable {d : Digester} {a : Algorithm} {path : Path} {text : String} {e : Envelope}

theorem envelope?_indented (h : Json.indented e.toDatum = .ok text) (hd : e.payload.Distinct) :
    envelope? text.toUTF8 = some { e with payload := e.payload.canonical } := by
  simp only [envelope?, Json.parseBytes?_write h (Envelope.distinct_toDatum hd), Option.bind_eq_bind,
    Option.bind_some, Envelope.read_canonical]

/-- The checksum of an envelope is that of its payload when this is read back. -/
theorem openEnvelope_canonical {payload : Datum} {checksum : String}
    (hsum : d.value a payload = .ok checksum) (hnull : payload.canonical ≠ .null) :
    openEnvelope d a.name path { algorithm := a.name, checksum, payload := payload.canonical } =
      .ok (.success payload.canonical) := by
  simp only [openEnvelope, bne_self_eq_false, Algorithm.ofName?_name, beq_self_eq_true,
    Digester.value_canonical hsum, Attempt.ofWrite]
  simp [bind, Except.bind, pure, Except.pure]

end Cache

/-! ## Tables and summaries -/

open Json (sortFields)

theorem Schema.texts_list_canonical (ss : List String) :
    Schema.list Schema.text (Datum.texts ss).canonical = .ok ss := by
  rw [Datum.texts, Schema.list_canonical (f := Datum.text) (g := id) fun s _ => rfl, List.map_id]

theorem Schema.name_canonical (x : Option String) :
    Schema.nullable Schema.text (Datum.optional .text x).canonical = .ok x := by
  rw [Schema.nullable_canonical (f := Datum.text) (g := id) (by simp [Datum.canonical]) fun _ _ => rfl,
    Option.map_id, id]

theorem Datum.distinct_name (x : Option String) : (Datum.optional .text x).Distinct := by
  cases x
  · exact .null
  · exact .text _

/-! ## Symbol tables -/

namespace SymbolSummary

theorem read_canonical (s : SymbolSummary) : read s.toDatum.canonical = .ok s := by
  refine Schema.record_canonical (by simp) (by simp) fun gs hgs => ?_
  have hname : Schema.required gs "name" Schema.text = .ok s.name :=
    Schema.required_of_gives hgs (d := .text s.name) (by simp [Datum.field?]) rfl
  have hhash : Schema.required gs "hash" (Schema.nullable Schema.text) = .ok s.hash :=
    Schema.required_of_gives hgs (d := Datum.optional .text s.hash) (by simp [Datum.field?])
      (Schema.name_canonical s.hash)
  have hok : Schema.required gs "ok" Schema.bool = .ok s.ok :=
    Schema.required_of_gives hgs (d := .bool s.ok) (by simp [Datum.field?]) rfl
  have hdependencies : Schema.withDefault gs "dependencies" (Schema.list Schema.text) [] =
      .ok s.dependencies :=
    Schema.withDefault_of_gives hgs (d := .texts s.dependencies) (by simp [Datum.field?])
      (Schema.texts_list_canonical s.dependencies)
  have hcodes : Schema.withDefault gs "codes" (Schema.list Schema.text) [] = .ok s.codes :=
    Schema.withDefault_of_gives hgs (d := .texts s.codes) (by simp [Datum.field?])
      (Schema.texts_list_canonical s.codes)
  rw [hname, hhash, hok, hdependencies, hcodes]
  rfl

theorem distinct (s : SymbolSummary) : s.toDatum.Distinct := by
  refine .record (by simp) ?_
  simp only [List.forall_mem_cons, List.not_mem_nil, false_implies, implies_true, and_true]
  exact ⟨.text _, Datum.distinct_name _, .bool _, Datum.distinct_texts _, Datum.distinct_texts _⟩

end SymbolSummary

namespace SymbolTable

theorem read_canonical (t : SymbolTable) : read t.toDatum.canonical = .ok t := by
  refine Schema.record_canonical (by simp) (by simp) fun gs hgs => ?_
  have hversion : Schema.withDefault gs "schema_version" Schema.int Cache.schemaVersion =
      .ok t.schemaVersion :=
    Schema.withDefault_of_gives hgs (d := .int t.schemaVersion) (by simp [Datum.field?]) rfl
  have hfile : Schema.required gs "file_path" Schema.text = .ok t.filePath :=
    Schema.required_of_gives hgs (d := .text t.filePath) (by simp [Datum.field?]) rfl
  have hfingerprint : Schema.required gs "file_fingerprint" Schema.text = .ok t.fileFingerprint :=
    Schema.required_of_gives hgs (d := .text t.fileFingerprint) (by simp [Datum.field?]) rfl
  have hlist : Schema.list SymbolSummary.read
      (Datum.list (t.symbols.map SymbolSummary.toDatum)).canonical = .ok t.symbols := by
    rw [Schema.list_canonical (g := id) fun s _ => s.read_canonical, List.map_id]
  have hsymbols : Schema.withDefault gs "symbols" (Schema.list SymbolSummary.read) [] = .ok t.symbols :=
    Schema.withDefault_of_gives hgs (by simp [Datum.field?]) hlist
  rw [hversion, hfile, hfingerprint, hsymbols]
  rfl

theorem distinct (t : SymbolTable) : t.toDatum.Distinct := by
  refine .record (by simp) ?_
  simp only [List.forall_mem_cons, List.not_mem_nil, false_implies, implies_true, and_true]
  exact ⟨.number _, .text _, .text _, Datum.distinct_list fun s _ => s.distinct⟩

end SymbolTable

/-! ## Indices -/

namespace IndexedFile

def ordered (f : IndexedFile) : IndexedFile := { f with symbols := sortFields f.symbols }

theorem read_canonical (f : IndexedFile) : read f.toDatum.canonical = .ok f.ordered := by
  refine Schema.record_canonical (by simp) (by simp) fun gs hgs => ?_
  have hfingerprint : Schema.required gs "file_fingerprint" Schema.text = .ok f.fileFingerprint :=
    Schema.required_of_gives hgs (d := .text f.fileFingerprint) (by simp [Datum.field?]) rfl
  have hdict : Schema.dict (Schema.nullable Schema.text)
      (Datum.record (f.symbols.map fun s => (s.1, Datum.optional .text s.2))).canonical =
        .ok (sortFields f.symbols) := by
    rw [Schema.dict_canonical (g := id) fun s _ => Schema.name_canonical s.2]
    simp
  have hsymbols : Schema.withDefault gs "symbols" (Schema.dict (Schema.nullable Schema.text)) [] =
      .ok (sortFields f.symbols) :=
    Schema.withDefault_of_gives hgs (by simp [Datum.field?]) hdict
  rw [hfingerprint, hsymbols]
  rfl

theorem distinct {f : IndexedFile} (h : (f.symbols.map Prod.fst).Nodup) : f.toDatum.Distinct := by
  refine .record (by simp) ?_
  simp only [List.forall_mem_cons, List.not_mem_nil, false_implies, implies_true, and_true]
  refine ⟨.text _, .record (by simpa [Function.comp_def] using h) fun g hg => ?_⟩
  obtain ⟨s, -, rfl⟩ := List.mem_map.1 hg
  exact Datum.distinct_name s.2

end IndexedFile

namespace RepositoryIndex

def ordered (i : RepositoryIndex) : RepositoryIndex :=
  { i with files := (sortFields i.files).map fun f => (f.1, f.2.ordered) }

theorem read_canonical (i : RepositoryIndex) : read i.toDatum.canonical = .ok i.ordered := by
  refine Schema.record_canonical (by simp) (by simp) fun gs hgs => ?_
  have hversion : Schema.withDefault gs "schema_version" Schema.int Cache.schemaVersion =
      .ok i.schemaVersion :=
    Schema.withDefault_of_gives hgs (d := .int i.schemaVersion) (by simp [Datum.field?]) rfl
  have htool : Schema.required gs "tool_version" Schema.text = .ok i.toolVersion :=
    Schema.required_of_gives hgs (d := .text i.toolVersion) (by simp [Datum.field?]) rfl
  have halgorithm : Schema.required gs "algorithm" Schema.text = .ok i.algorithm :=
    Schema.required_of_gives hgs (d := .text i.algorithm) (by simp [Datum.field?]) rfl
  have hfiles : Schema.withDefault gs "files" (Schema.dict IndexedFile.read) [] = .ok i.ordered.files :=
    Schema.withDefault_of_gives hgs (by simp [Datum.field?])
      (Schema.dict_canonical fun f _ => f.2.read_canonical)
  rw [hversion, htool, halgorithm, hfiles]
  rfl

theorem distinct {i : RepositoryIndex} (h : (i.files.map Prod.fst).Nodup)
    (hfiles : ∀ f ∈ i.files, (f.2.symbols.map Prod.fst).Nodup) : i.toDatum.Distinct := by
  refine .record (by simp) ?_
  simp only [List.forall_mem_cons, List.not_mem_nil, false_implies, implies_true, and_true]
  refine ⟨.number _, .text _, .text _, .record (by simpa [Function.comp_def] using h) fun g hg => ?_⟩
  obtain ⟨f, hf, rfl⟩ := List.mem_map.1 hg
  exact IndexedFile.distinct (hfiles f hf)

end RepositoryIndex

/-! ## Summaries -/

namespace Manifest

def ordered (m : Manifest) : Manifest := { m with diagnostics := sortFields m.diagnostics }

theorem read_canonical (m : Manifest) : read m.toDatum.canonical = .ok m.ordered := by
  refine Schema.record_canonical (by simp) (by simp) fun gs hgs => ?_
  have hversion : Schema.withDefault gs "schema_version" Schema.int Cache.schemaVersion =
      .ok m.schemaVersion :=
    Schema.withDefault_of_gives hgs (d := .int m.schemaVersion) (by simp [Datum.field?]) rfl
  have htool : Schema.required gs "tool_version" Schema.text = .ok m.toolVersion :=
    Schema.required_of_gives hgs (d := .text m.toolVersion) (by simp [Datum.field?]) rfl
  have halgorithm : Schema.required gs "algorithm" Schema.text = .ok m.algorithm :=
    Schema.required_of_gives hgs (d := .text m.algorithm) (by simp [Datum.field?]) rfl
  have hfiles : Schema.withDefault gs "file_count" Schema.int 0 = .ok m.fileCount :=
    Schema.withDefault_of_gives hgs (d := .int m.fileCount) (by simp [Datum.field?]) rfl
  have hsymbols : Schema.withDefault gs "symbol_count" Schema.int 0 = .ok m.symbolCount :=
    Schema.withDefault_of_gives hgs (d := .int m.symbolCount) (by simp [Datum.field?]) rfl
  have hfailed : Schema.withDefault gs "failed_symbols" (Schema.list Schema.text) [] =
      .ok m.failedSymbols :=
    Schema.withDefault_of_gives hgs (d := .texts m.failedSymbols) (by simp [Datum.field?])
      (Schema.texts_list_canonical m.failedSymbols)
  have hcounts : Schema.dict Schema.int
      (Datum.record (m.diagnostics.map fun d => (d.1, .int d.2))).canonical =
        .ok (sortFields m.diagnostics) := by
    rw [Schema.dict_canonical (g := id) fun d _ => (rfl : Schema.int (Datum.int d.2).canonical = _)]
    simp
  have hdiagnostics : Schema.withDefault gs "diagnostics" (Schema.dict Schema.int) [] =
      .ok (sortFields m.diagnostics) :=
    Schema.withDefault_of_gives hgs (by simp [Datum.field?]) hcounts
  have hlists : Schema.list (Schema.list Schema.text)
      (Datum.list (m.recursiveGroups.map .texts)).canonical = .ok m.recursiveGroups := by
    rw [Schema.list_canonical (g := id) fun ss _ => Schema.texts_list_canonical ss, List.map_id]
  have hgroups : Schema.withDefault gs "recursive_groups" (Schema.list (Schema.list Schema.text)) [] =
      .ok m.recursiveGroups :=
    Schema.withDefault_of_gives hgs (by simp [Datum.field?]) hlists
  rw [hversion, htool, halgorithm, hfiles, hsymbols, hfailed, hdiagnostics, hgroups]
  rfl

theorem distinct {m : Manifest} (h : (m.diagnostics.map Prod.fst).Nodup) : m.toDatum.Distinct := by
  refine .record (by simp) ?_
  simp only [List.forall_mem_cons, List.not_mem_nil, false_implies, implies_true, and_true]
  refine ⟨.number _, .text _, .text _, .number _, .number _, Datum.distinct_texts _,
    .record (by simpa [Function.comp_def] using h) fun g hg => ?_,
    Datum.distinct_list fun ss _ => Datum.distinct_texts ss⟩
  obtain ⟨x, -, rfl⟩ := List.mem_map.1 hg
  exact .number _

end Manifest

end TypeAtlas
