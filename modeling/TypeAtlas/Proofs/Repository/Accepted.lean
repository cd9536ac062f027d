import TypeAtlas.Proofs.Repository.Ended

/-! # What is indexed is valid

Indexing into an empty cache and validating this cache are separate paths over one contract: whatever a
run leaves that reports no failure of a file passes every check.
-/

namespace TypeAtlas

open Work Validation

section Accepted

open Indexing

variable {d : Digester} {v v₀ : Volume} {root out : Path} {base : Location} {config : Config} {clock : Clock}
  {w w' : Workspace} {o : Outcome Manifest}

/-- A cache that a run has completed conforms to the contract, and has nothing else in it. -/
theorem Indexing.Completed.validateCache {s : Setting} (h : Completed s v₀ base v) (hs : s.Fits v₀ base) :
    validateCache s.digester v s.cache.root = .ok {} := by
  have hroot := Volume.find_of_grown h.inOrder.grown hs.empty.found
  have hfound {kind : CacheKind} {name : String}
      (hname : v.at? (base ++ [kind.name] ++ [name]) ≠ none) : ∃ content,
        v.read ((Cache.directory s.cache.root kind).child name) = .ok content ∧
          Leaves s.digester s.cache.algorithm.name kind name content := by
    obtain ⟨e, he⟩ := Option.ne_none_iff_exists'.1 hname
    obtain ⟨content, rfl, hleaves, -⟩ := h.inOrder.find_document hs.empty he
    exact ⟨content, h.inOrder.read_document hs.empty he, hleaves⟩
  have hlisted {kind : CacheKind} {name : String}
      (hname : name ∈ v.list (Cache.directory s.cache.root kind)) : ∃ content,
        v.read ((Cache.directory s.cache.root kind).child name) = .ok content ∧
          Leaves s.digester s.cache.algorithm.name kind name content := by
    rw [Volume.list, h.inOrder.find_directory hs.empty] at hname
    exact hfound (Volume.at?_of_mem_names hname)
  obtain ⟨indexed, hindexed, -, x, i, hx, hi, hia⟩ := hfound h.index
  obtain ⟨summed, hsummed, -, y, m, hy, hm⟩ := hfound h.manifest
  refine validateCache_of_conforms (i := i) (m := m) ?_ ⟨fun kind => ?_, ?_, ?_, ?_, ?_⟩ ?_ ?_
  · simp [Volume.isDirectory, hroot]
  · simp [Volume.isDirectory, h.inOrder.find_directory hs.empty]
  · rw [join_indexFile]
    exact ⟨indexed, x, hindexed, hx, hi⟩
  · rw [join_manifestFile]
    exact ⟨summed, y, hsummed, hy, hm⟩
  · intro name hname _ _
    obtain ⟨content, hread, hleaves⟩ := hlisted hname
    exact ⟨content, hread, hia ▸ hleaves.2⟩
  · intro name hname _ _
    obtain ⟨content, hread, hleaves⟩ := hlisted hname
    exact ⟨content, hread, hia ▸ hleaves.2⟩
  · intro name hname
    obtain ⟨content, hread, hleaves⟩ := hlisted hname
    exact ⟨Volume.isFile_of_read hread, hleaves.1⟩
  · intro name hname
    obtain ⟨content, hread, hleaves⟩ := hlisted hname
    exact ⟨Volume.isFile_of_read hread, hleaves.1⟩

theorem validateCache_indexRepository_of_hexadecimal (hd : d.Hexadecimal) (hv : w.volume.WellFormed)
    (hout : ∀ s ∈ out.segments, Volume.IsName s) (hvacant : Cache.Vacant w.volume out base)
    (h : Runs (indexRepository d root out config clock) w (.ok o) w') (hio : NoIoFailure o.diagnostics) :
    validateCache d w'.volume out = .ok {} := by
  obtain ⟨layout, w₁, w₂, hlayout, rfl, hcases⟩ := runs_indexRepository_ok h
  rcases Cache.runs_ensureLayout_vacant (P := Indexing.Leaves d config.hashAlgorithm)
      (w := { w with pinned := ∅ }) hv hout hvacant hlayout with
    ⟨hfailed, hreported⟩ | ⟨rfl, hv₁, v₀, hempty, hkept⟩
  · rcases hcases with ⟨-, rfl, -⟩ | ⟨hok, -⟩
    · exact absurd hio hreported
    · exact absurd hok hfailed
  · rcases hcases with ⟨hfailed, -, -⟩ | ⟨-, a, hnamed, hrun⟩
    · cases hfailed
    rw [← name_of_named hnamed] at hkept
    have hs : Setting.Fits { digester := d, root, cache := ⟨out, a⟩, config, clock } v₀ base :=
      ⟨hnamed, hd, hempty⟩
    exact (completed_run hs hkept hv₁ hrun hio).validateCache hs

/-- What indexing leaves in a cache that was empty, validation accepts without an error or a warning. -/
theorem validateCache_indexRepository (hv : w.volume.WellFormed)
    (hout : ∀ s ∈ out.segments, Volume.IsName s) (hvacant : Cache.Vacant w.volume out base)
    (h : Runs (indexRepository .standard root out config clock) w (.ok o) w')
    (hio : NoIoFailure o.diagnostics) : validateCache .standard w'.volume out = .ok {} :=
  validateCache_indexRepository_of_hexadecimal Digester.standard_hexadecimal hv hout hvacant h hio

/-- The cache is accepted in which a file with two declarations was indexed. -/
theorem validateCache_indexRepository_annex : ∃ o w',
    Runs (indexRepository .standard ⟨.relative, []⟩ ⟨.relative, ["lib", "cache"]⟩ {}) annex (.ok o) w' ∧
      EndsWell 1 2 o ∧ NoIoFailure o.diagnostics ∧
        validateCache .standard w'.volume ⟨.relative, ["lib", "cache"]⟩ = .ok {} := by
  obtain ⟨v, hv⟩ := exists_annexStarts
  obtain ⟨o, w', hrun, ho⟩ := hv.succeeds
  exact ⟨o, w', hrun, ho, ho.noIoFailure, validateCache_indexRepository annex_unfiltered.wellFormed (by decide)
    annex_empty.vacant hrun ho.noIoFailure⟩

end Accepted

end TypeAtlas
