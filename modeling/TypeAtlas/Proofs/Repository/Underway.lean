import TypeAtlas.Proofs.Declaration.Consulted
import TypeAtlas.Proofs.Repository.Indexed

/-! # Runs underway

A run files documents in its cache while it reads source files. As long as the documents do not have names
of source files, it finds these files as they were when it started.
-/

namespace TypeAtlas

open Work SourceTree

namespace Indexing

structure Setting.Starts (s : Setting) (v₀ : Volume) (base : Location) (v : Volume) : Prop where
  named : Algorithm.named s.config.hashAlgorithm = .ok s.cache.algorithm
  empty : Cache.Empty v₀ s.cache.root base
  kept : Cache.Kept v₀ base (fun _ _ _ => False) v
  plain : v.Plain
  patient : (ofVolume s.root v).Patient

/-- A workspace in the midst of a run whose documents have a property. -/
structure Underway (s : Setting) (v₀ : Volume) (base : Location) (v : Volume)
    (P : CacheKind → String → ByteArray → Prop) (w : Workspace) : Prop where
  kept : Cache.Kept v₀ base P w.volume
  sees : Sees v s.root w

namespace Underway

variable {s : Setting} {v₀ v : Volume} {base : Location} {P : CacheKind → String → ByteArray → Prop}
  {w w' : Workspace} {file name : String} {D : RecordDeclaration}

theorem initial (hs : s.Starts v₀ base v) (hv : w.volume = v) (hpinned : w.pinned = ∅) :
    Underway s v₀ base v P w where
  kept := hv ▸ hs.kept.mono fun _ _ _ hfalse => hfalse.elim
  sees := .initial v s.root w hv hpinned

/-- Looking names up does not interfere with a run. -/
theorem of_sees (h : Underway s v₀ base v P w) (hv : w'.volume = w.volume) (hsees : Sees v s.root w') :
    Underway s v₀ base v P w' := ⟨hv ▸ h.kept, hsees⟩

variable (hP : ∀ kind name content, P kind name content → ¬ isSourceName name)

include hP

theorem of_kept (hs : s.Starts v₀ base v) (h : Underway s v₀ base v P w)
    (hkept : Cache.Kept v₀ base P w'.volume) (hpinned : w'.pinned = w.pinned) : Underway s v₀ base v P w' :=
  ⟨hkept, Sees.of_kept hs.kept hkept hP hs.plain.rootless (hpinned ▸ h.sees.pinned)⟩

theorem of_pins (hs : s.Starts v₀ base v) (h : Underway s v₀ base v P w)
    (hpins : ExtractionRequest.Pins (Work.observe (w.sources s.root)) w w')
    (hkept : Cache.Kept v₀ base P w'.volume) : Underway s v₀ base v P w' := by
  rcases hpins with hsame | ⟨events, w₁, w₂, hobserved, hv₁, -, hsame⟩
  · exact h.of_kept hP hs hkept hsame
  · obtain ⟨hv₂, hsees⟩ := h.sees.observe hs.plain.unlinked hv₁ hobserved
    exact (h.of_sees hv₂ hsees).of_kept hP hs hkept hsame

/-- A run goes on after an extraction, if what this files has the property. -/
theorem of_extractSource {o : Outcome Extraction} (hs : s.Starts v₀ base v) (h : Underway s v₀ base v P w)
    (hfiles : ∀ key x p e content, s.digester.value s.cache.algorithm x = .ok key →
      (s.request file name).Files s.digester (w.sources s.root).source s.cache.algorithm p e content →
        P .ir (Cache.entryFilename key) content)
    (hruns : Runs ((s.request file name).extractSource s.digester s.root (some s.cache)) w (.ok o) w')
    (hio : NoIoFailure o.diagnostics) : Underway s v₀ base v P w' := by
  refine h.of_pins hP hs ?_ (kept_extractSource hs.empty h.kept hfiles hruns hio)
  rw [ExtractionRequest.extractSource, runs_get_bind] at hruns
  exact (ExtractionRequest.runs_extractCached_ok (keeps_volume_observe _) hruns).2

end Underway

end Indexing

end TypeAtlas
