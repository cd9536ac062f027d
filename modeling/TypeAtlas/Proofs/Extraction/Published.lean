import TypeAtlas.Proofs.Extraction.Ended
import TypeAtlas.Proofs.Extraction.Storing

/-! # What a shared cache publishes

Extractions that share a cache put nothing into it but sound entries, whose graphs have no unknown type and
whose reports are no errors.
-/

namespace TypeAtlas

open Work

variable {d : Digester} {a : Algorithm} {source : DeclarationSource} {r : ExtractionRequest}
  {p : ExtractionPass} {root : Path} {w w' : Workspace} {c : ContentCache} {base : Location}

/-! ## The first extraction -/

/-- Nothing is found in an empty cache. -/
theorem ContentCache.succeeds_lookup_empty (h₀ : Cache.Empty w.volume c.root base) (hv : w.volume.Granted)
    (fingerprint file symbol : String) : Succeeds (c.lookup d fingerprint file symbol) w
      fun hit w₁ => hit = {} ∧ w₁.volume = w.volume := by
  obtain ⟨s, hs⟩ := (EntryKey.mk fingerprint file symbol).exists_compact
  rcases hrun : (c.lookup d fingerprint file symbol).run.run w with ⟨q, w₁⟩
  obtain rfl := runs_lookup_of_none (k := ⟨fingerprint, file, symbol⟩) (Cache.Holding.initial h₀ hv) h₀ hs
    rfl hrun
  exact Runs.succeeds hrun ⟨rfl, keeps_lookup_of _ keeps_volume_log _ _ _ hrun⟩

/-- What is stored in an empty cache is in a new file. -/
theorem ContentCache.succeeds_store_empty {e : CacheEntry} (h₀ : Cache.Empty w.volume c.root base)
    (hv : w.volume.Granted) (he : e.fits) (fingerprint : String) : Succeeds (c.store d fingerprint e) w
      fun o w' => o = {} ∧ ∃ l content, files w l = none ∧ files w' l = some content := by
  obtain ⟨s, hs⟩ := (EntryKey.mk fingerprint e.filePath e.symbol).exists_compact
  rcases hrun : (c.store d fingerprint e).run.run w with ⟨q, w'⟩
  obtain ⟨rfl, content, -, hfiled⟩ := runs_store_of_fits (Cache.Holding.initial h₀ hv) h₀ he hs hrun
  refine Runs.succeeds hrun ⟨rfl, base ++ [CacheKind.ir.name] ++ [documentName d c s], content, ?_, ?_⟩
  · rw [List.append_assoc]
    simp [files, Volume.file?, h₀.nothing]
  · rw [files, Volume.file?, hfiled.documents, Function.update_self]
    rfl

/-- The entry of a complete pass is put into an empty cache. -/
theorem ExtractionRequest.succeeds_extractCached_first {content : ByteArray} {hash : String}
    {sources : Std.ExtTreeMap String String} (hp : r.Completes d source p)
    (ha : Algorithm.named r.algorithm = .ok a)
    (hread : w.volume.read (root / Path.ofString r.file) = .ok content)
    (hsources : p.raw.sourceDigests d a w.volume root = some sources)
    (hhash : p.extraction.fingerprint = some hash) (h₀ : Cache.Empty w.volume c.root base)
    (hv : w.volume.Granted) : Succeeds (r.extractCached d root source (fun _ => pure ⟨⟩) c) w
      fun _ w' => ∃ l content, files w l = none ∧ files w' l = some content := by
  have hcontent : w.volume.readOutcome (root / Path.ofString r.file) = .success content := by
    rw [Volume.readOutcome, hread]
    rfl
  obtain ⟨key, hkey⟩ := exists_fingerprintKey d a r.vocabulary content
  have haway (w₁ : Workspace) (hw₁ : w₁.volume = w.volume) : Succeeds (r.fileAway d root ⟨c, key, a⟩ p) w₁
      fun _ w' => ∃ l content, files w l = none ∧ files w' l = some content := by
    refine succeeds_get_bind ?_
    dsimp only
    rw [hw₁, hsources, hhash]
    have hstored := ContentCache.succeeds_store_empty (d := d) (hw₁.symm ▸ h₀) (hw₁.symm ▸ hv)
      (ContentCache.fits_iff_writes.2 (hp.writes_entry hash sources)) key
    refine Succeeds.bind hstored ?_
    rintro _ w' ⟨rfl, l, filed, hnone, hsome⟩
    rw [files, hw₁] at hnone
    exact succeeds_pure ⟨l, filed, hnone, hsome⟩
  unfold extractCached
  refine succeeds_get_bind ?_
  rw [hcontent]
  dsimp only [Outcome.success]
  refine succeeds_lift_bind ha (succeeds_lift_bind (congrArg Attempt.ofWrite hkey)
    ((ContentCache.succeeds_lookup_empty h₀ hv _ _ _).bind ?_))
  rintro _ w₁ ⟨rfl, hw₁⟩
  dsimp only
  unfold extractAnew
  have hpass := hp.complete
  cases hrun : r.pass d source with
  | mk result trace =>
    rw [hrun] at hpass
    dsimp only
    rw [pure_bind]
    refine succeeds_modify_bind (succeeds_lift_bind hpass ?_)
    simp only [hp.silent, List.append_nil, List.any_nil, Bool.false_eq_true, if_false]
    refine (haway _ ?_).bind fun _ w' hfiled => succeeds_say_bind fun log => succeeds_pure hfiled
    exact hw₁

/-! ## Runs -/

/-- An extraction from declarations that are given as records. -/
structure MemoryExtraction where
  declarations : List RecordDeclaration
  request : ExtractionRequest

namespace MemoryExtraction

variable {c : MemoryExtraction} {cs : List MemoryExtraction} {cache : ContentCache}

def declared (c : MemoryExtraction) : DeclarationSource :=
  (DeclarationTable.ofRecords c.declarations).source

def run (d : Digester) (root : Path) (cache : ContentCache) (c : MemoryExtraction) :
    Work (Outcome Extraction) :=
  c.request.extractCached d root c.declared (fun _ => pure ⟨⟩) cache

/-- The workspace after some extractions through one cache, one after the other. -/
def after (d : Digester) (root : Path) (cache : ContentCache) : List MemoryExtraction → Workspace → Workspace
  | [], w => w
  | c :: cs, w => after d root cache cs ((c.run d root cache).run.run w).2

/-- The bytes are those of a sound entry for the extraction, which a cache with this algorithm reads. -/
def Publishes (d : Digester) (b : Algorithm) (c : MemoryExtraction) (content : ByteArray) : Prop :=
  ∃ a e, Algorithm.named c.request.algorithm = .ok a ∧ CacheEntry.ReadsFrom d b content e ∧
    e.Sound d a ∧ (c.request.Settles d c.declared → e.hash = e.graph.root)

theorem removable_run {q : Attempt (Outcome Extraction)} (hw : w.volume.Removable)
    (h : Runs (c.run d root cache) w q w') : w'.volume.Removable :=
  hw.congr (ExtractionRequest.keeps_extractCached Cache.aside_refusal (fun _ => keeps_pure _) _ _ _ h)

/-- An extraction leaves every file as it was, or succeeds and replaces one by a sound entry. -/
theorem runs_run {q : Attempt (Outcome Extraction)} (hw : w.volume.Removable)
    (h : Runs (c.run d root cache) w q w') : files w' = files w ∨ (∃ o, q = .ok o ∧ o.ok) ∧
      ∃ content, c.Publishes d cache.algorithm content ∧ Cache.Replaced (files w) (files w') content := by
  rcases ExtractionRequest.runs_extractCached hw (fun _ => keeps_pure _) h with hkept | ⟨hok, hpublished⟩
  · exact .inl hkept
  · obtain ⟨p, e, content, hfiled, hreplaced⟩ := hpublished
    have hfinite := DeclarationTable.finiteValues_ofRecords c.declarations
    obtain ⟨a, ha, hsound⟩ := hfiled.sound
    exact .inr ⟨hok, content, ⟨a, e.recorded, ha, hfiled.readsFrom hfinite, hsound, hfiled.hash_eq⟩,
      hreplaced⟩

/-- Nothing is published from a pass that failed: whatever files are new after some extractions hold
sound entries, and a further extraction that fails changes no file. Each extraction hashes with its own
algorithm, whatever that of the cache is. -/
theorem published (d : Digester) (root : Path) (cache : ContentCache) (cs : List MemoryExtraction)
    (w : Workspace) (hw : w.volume.Removable) :
    (∀ l content, files (after d root cache cs w) l = some content →
      files w l ≠ some content → ∃ c ∈ cs, c.Publishes d cache.algorithm content) ∧
    ∀ (c : MemoryExtraction) q w', Runs (c.run d root cache) (after d root cache cs w) q w' →
      (∀ o, q = .ok o → o.ok = false) → files w' = files (after d root cache cs w) := by
  induction cs generalizing w with
  | nil =>
    refine ⟨fun l content h hne => absurd h hne, fun c q w' h hfails => ?_⟩
    rcases runs_run hw h with hkept | ⟨⟨o, ho, hok⟩, -⟩
    · exact hkept
    · simp [hfails o ho] at hok
  | cons c cs ih =>
    have hrun : Runs (c.run d root cache) w _ _ := rfl
    obtain ⟨hnew, hfails⟩ := ih _ (removable_run hw hrun)
    refine ⟨fun l content h hne => ?_, hfails⟩
    by_cases hl : files ((c.run d root cache).run.run w).2 l = some content
    · rcases runs_run hw hrun with hkept | ⟨-, content', hpublished, k, hk, hothers⟩
      · exact absurd ((congrFun hkept l).symm.trans hl) hne
      · by_cases hlk : l = k
        · subst hlk
          obtain rfl := Option.some.inj (hl.symm.trans hk)
          exact ⟨c, List.mem_cons_self, hpublished⟩
        · exact absurd ((hothers l hlk).symm.trans hl) hne
    · obtain ⟨c', hc', hpublished⟩ := hnew l content h hl
      exact ⟨c', List.mem_cons_of_mem _ hc', hpublished⟩

/-- A workspace with a source file beside an empty cache. -/
def boxShelf : Workspace where
  volume := { entries := ContentCache.shelf.volume.entries.insert ["box.ts"] (.file ByteArray.empty) }

theorem boxShelf_empty : Cache.Empty boxShelf.volume ⟨.relative, ["cache"]⟩ ["cache"] where
  found := Volume.find_child (q := ⟨.relative, []⟩) (Volume.find_start rfl rfl) (by decide)
    (by simp [boxShelf, ContentCache.shelf, Volume.at?, Std.ExtTreeMap.getElem_insert]) (by simp)
  nothing l hl := by simp [boxShelf, ContentCache.shelf, Volume.at?, hl]
  named := by decide
  legible _ := rfl

theorem read_boxShelf : boxShelf.volume.read ⟨.relative, ["box.ts"]⟩ = .ok ByteArray.empty := by
  have hat : boxShelf.volume.at? ([] ++ ["box.ts"]) = some (.file ByteArray.empty) := by
    simp [boxShelf, Volume.at?]
  have hfind := Volume.find_child (q := ⟨.relative, []⟩) (Volume.find_start rfl rfl) (by decide) hat (by simp)
  exact Volume.read_eq_ok.2 ⟨_, hfind, rfl⟩

/-- The box of boxes, hashed with another algorithm than that of the cache. -/
def boxExtraction : MemoryExtraction :=
  ⟨[ExtractionRequest.box], { file := "box.ts", symbol := "Box", algorithm := "blake2b" }⟩

def boxPass : Option ExtractionPass :=
  ExtractionRequest.completed (boxExtraction.request.pass .legible boxExtraction.declared).1

theorem boxPass_made : boxPass.any fun p => ExtractionRequest.wellMade p && p.extraction.fingerprint.isSome &&
    p.raw.files == ["box.ts"] := by
  decide +kernel

/-- An entry is published that is sealed with another algorithm than the one its graph is hashed with. -/
theorem published_box : ∃ l content,
    files (after .legible ⟨.relative, []⟩ ⟨⟨.relative, ["cache"]⟩, .sha256⟩ [boxExtraction] boxShelf) l =
        some content ∧
      files boxShelf l ≠ some content ∧ boxExtraction.Publishes .legible .sha256 content := by
  obtain ⟨p, hp, hmade⟩ := (Option.any_eq_true _ _).1 boxPass_made
  simp only [Bool.and_eq_true, Option.isSome_iff_exists, beq_iff_eq] at hmade
  obtain ⟨⟨hmade, hash, hhash⟩, hfiles⟩ := hmade
  have hcompletes := ExtractionRequest.completes_of_completed hp hmade
  have hpath : (⟨.relative, []⟩ : Path) / Path.ofString "box.ts" = ⟨.relative, ["box.ts"]⟩ := by decide
  have hread := read_boxShelf
  rw [← hpath] at hread
  have hsources : ∃ sources, p.raw.sourceDigests .legible .blake2b boxShelf.volume ⟨.relative, []⟩ = some sources := by
    rw [Graph.sourceDigests, hfiles]
    simp [hread]
  obtain ⟨sources, hsources⟩ := hsources
  obtain ⟨o, w', hrun, l, content, hnone, hsome⟩ := ExtractionRequest.succeeds_extractCached_first
    (c := ⟨⟨.relative, ["cache"]⟩, .sha256⟩) hcompletes rfl hread hsources hhash boxShelf_empty fun _ _ _ => rfl
  have hnew : files boxShelf l ≠ some content := by simp [hnone]
  have hafter : after .legible ⟨.relative, []⟩ ⟨⟨.relative, ["cache"]⟩, .sha256⟩ [boxExtraction] boxShelf = w' := by
    rw [after, after]
    exact congrArg Prod.snd hrun
  rw [← hafter] at hsome
  obtain ⟨c', hc', hpublishes⟩ := (published .legible ⟨.relative, []⟩ ⟨⟨.relative, ["cache"]⟩, .sha256⟩
    [boxExtraction] boxShelf fun _ => rfl).1 l content hsome hnew
  exact ⟨l, content, hsome, hnew, List.mem_singleton.1 hc' ▸ hpublishes⟩

end MemoryExtraction

end TypeAtlas
