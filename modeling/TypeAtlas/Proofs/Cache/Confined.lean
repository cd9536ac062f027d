import TypeAtlas.Proofs.Cache.Kept
import TypeAtlas.Proofs.Extraction.Storing
import TypeAtlas.Proofs.Files.Spared

/-! # Caches that keep to their directory

Once its directories are there, a cache changes nothing outside of them, whatever was in them before and
whether its steps end well or not. A document that is written can be read.
-/

namespace TypeAtlas

open Work

namespace Cache

open Volume FileAction

variable {α : Type} {d : Digester} {a : Algorithm} {v v' : Volume} {out : Path} {base region : Location}
  {kind : CacheKind} {name : String} {content : ByteArray} {w w' : Workspace}

/-! ## The directories of a cache -/

/-- The directories of a cache are there, where names lead to their places. -/
structure Furnished (v : Volume) (out : Path) (base : Location) : Prop where
  literal : v.Literal
  found : v.find out = .ok (base, .directory)
  directories : ∀ kind, v.find (directory out kind) = .ok (base ++ [kind.name], .directory)

theorem Furnished.spares (h : Furnished v out base) (hv : Spares region v v') : Furnished v' out base where
  literal := hv.literal h.literal
  found := hv.find h.literal h.found (.inl rfl)
  directories kind := hv.find h.literal (h.directories kind) (.inl rfl)

theorem find_of_forM (hw : v.WellFormed) (hv : v.Literal) (hout : ∀ s ∈ out.segments, IsName s)
    {kinds : List CacheKind}
    (h : Runs (kinds.forM fun kind => ensureDirectories (directory out kind)) v (.ok ⟨⟩) v') :
    Spares [] v v' ∧ ∀ kind ∈ kinds, ∃ b, v'.find out = .ok (b, .directory) ∧
      v'.find (directory out kind) = .ok (b ++ [kind.name], .directory) := by
  induction kinds generalizing v with
  | nil =>
    obtain ⟨-, rfl⟩ := runs_pure.1 h
    exact ⟨.refl [] v', by simp⟩
  | cons kind kinds ih =>
    obtain ⟨_, v₁, hone, hrest⟩ := runs_bind_ok.1 h
    have hmade := spares_ensureDirectories hv hone
    have hnames : ∀ s ∈ (directory out kind).segments, IsName s := by
      intro s hs
      rcases List.mem_append.1 hs with hs | hs
      · exact hout s hs
      · rw [List.mem_singleton.1 hs]
        cases kind <;> decide
    obtain ⟨hspared, hfound⟩ := ih (wellFormed_ensureDirectories hw hnames hone) (hmade.literal hv) hrest
    refine ⟨hmade.trans hspared, List.forall_mem_cons.2 ⟨?_, hfound⟩⟩
    obtain ⟨b, hb, hkind⟩ := find_of_ensureDirectories hw hv hout kind.name_ne hone
    have hv₁ := hmade.literal hv
    exact ⟨b, hspared.find hv₁ hb (.inl rfl), hspared.find hv₁ hkind (.inl rfl)⟩

/-- A layout that was made has furnished the cache, and only directories are new. -/
theorem exists_furnished (hw : w.volume.WellFormed) (hv : w.volume.Literal)
    (hout : ∀ s ∈ out.segments, IsName s) {o : Outcome Unit}
    (h : Runs (ensureLayout out) w (.ok o) w') (ho : o.ok) :
    o = {} ∧ w'.volume.WellFormed ∧ Spares [] w.volume w'.volume ∧ files w' = files w ∧
      ∃ base, Furnished w'.volume out base := by
  have hfiles := keeps_ensureLayout out _ _ _ h
  obtain ⟨made, w₁, hmade, hdone⟩ := runs_bind_ok.1 h
  obtain ⟨v', hlaid, rfl⟩ := runs_act_ok hmade
  obtain ⟨hres, rfl⟩ := runs_pure.1 hdone
  obtain rfl := Except.ok.inj hres
  cases made with
  | error e =>
    have herror : (Diagnostic.ofFileError out.toString e).isError := rfl
    simp [Outcome.ok, herror] at ho
  | ok _ =>
    obtain ⟨hspared, hfound⟩ := find_of_forM hw hv hout hlaid
    refine ⟨rfl, wellFormed_layout hw hout hlaid, hspared, hfiles, ?_⟩
    obtain ⟨base, hbase, -⟩ := hfound .ir (by decide)
    refine ⟨base, hspared.literal hv, hbase, fun kind => ?_⟩
    obtain ⟨b, hb, hkind⟩ := hfound kind (by cases kind <;> decide)
    obtain ⟨rfl, -⟩ := Prod.mk.inj (Except.ok.inj (hb.symm.trans hbase))
    exact hkind

/-! ## Changes of a cache -/

/-- A change of a furnished cache that is below a directory at most. -/
def Confined (out : Path) (base region : Location) (w w' : Workspace) : Prop :=
  Furnished w.volume out base → Spares region w.volume w'.volume

instance : IsPreorder Workspace (Confined out base region) where
  refl := fun w _ => .refl region w.volume
  trans := fun _ _ _ h h' hw => (h hw).trans (h' (hw.spares (h hw)))

theorem within_of_keeps {m : Work α} (h : Keeps Workspace.volume m) : Within (Confined out base region) m :=
  h.within fun w _ hsame _ => hsame ▸ .refl region w.volume

/-- What is done in one directory of a cache is done in the cache. -/
theorem within_cache {m : Work α} (h : Within (Confined out base (base ++ [kind.name])) m) :
    Within (Confined out base base) m :=
  h.mono fun _ _ hchange hw => (hchange hw).widen (List.prefix_append _ _)

theorem within_mustAct {act : FileAction α}
    (h : Within (ChangesBelow (directory out kind) (base ++ [kind.name])) act) :
    Within (Confined out base (base ++ [kind.name])) (Work.mustAct act) := by
  intro w r w' hruns hw
  obtain ⟨x, v, hv, -, rfl⟩ := runs_mustAct.1 hruns
  exact h _ _ _ hv hw.literal (hw.directories kind)

theorem within_ensureLayout : Within (Confined out base region) (ensureLayout out) := by
  have hnone {kinds : List CacheKind} {v : Volume} (hv : Furnished v out base) : ∀ q v',
      Runs (kinds.forM fun kind => ensureDirectories (directory out kind)) v q v' → v' = v := by
    induction kinds with
    | nil => exact fun q v' h => (runs_pure.1 h).2
    | cons kind kinds ih =>
      intro q v' h
      rcases runs_bind.1 h with ⟨_, v₁, hone, hrest⟩ | ⟨e, hone, -⟩
      · obtain rfl := eq_of_ensureDirectories_found (hv.directories kind) hone
        exact ih q v' hrest
      · exact eq_of_ensureDirectories_found (hv.directories kind) hone
  have hlayout : Within (fun v v' => Furnished v out base → v' = v)
      (CacheKind.all.forM fun kind => ensureDirectories (directory out kind)) :=
    fun v q v' h hv => hnone hv q v' h
  intro w r w' hruns hw
  have hact {q : Attempt (Except FileError Unit)} {w₁ : Workspace}
      (h : Runs (act (CacheKind.all.forM fun kind => ensureDirectories (directory out kind))) w q w₁) :
      Spares region w.volume w₁.volume := by
    obtain ⟨x, v, hv, -, rfl⟩ := runs_mustAct.1 h
    obtain rfl := within_caught hlayout _ _ _ hv hw
    exact .refl region _
  rcases runs_bind.1 hruns with ⟨made, w₁, hmade, hdone⟩ | ⟨e, hmade, -⟩
  · rw [(runs_pure.1 hdone).2]
    exact hact hmade
  · exact hact hmade

theorem within_writeBytes (kind : CacheKind) (hname : name ≠ "..") (content : ByteArray) :
    Within (Confined out base (base ++ [kind.name]))
      (writeBytes ((directory out kind).child name) content) := by
  refine (within_mustAct (within_replace hname)).bind fun made => ?_
  cases made with
  | ok _ => exact within_pure _
  | error e => exact within_pure _

theorem within_writeDocument (kind : CacheKind) (hname : name ≠ "..") (x : Datum) :
    Within (Confined out base (base ++ [kind.name])) (writeDocument ((directory out kind).child name) x) :=
  (within_of_keeps (keeps_lift _)).bind fun _ => within_writeBytes kind hname _

theorem within_writeEnvelope (kind : CacheKind) (hname : name ≠ "..") (payload : Datum) :
    Within (Confined out base (base ++ [kind.name]))
      (writeEnvelope d a ((directory out kind).child name) payload) :=
  (within_of_keeps (keeps_lift _)).bind fun _ => within_writeDocument kind hname _

theorem runs_writeDocument {x : Datum} {o : Outcome Unit} (hw : Furnished w.volume out base)
    (hname : name ≠ "..") (h : Runs (writeDocument ((directory out kind).child name) x) w (.ok o) w') :
    (∃ e, Diagnostic.ofFileError ((directory out kind).child name).toString e ∈ o.diagnostics) ∨
      ∃ text, Json.indented x = .ok text ∧
        w'.volume.at? (base ++ [kind.name] ++ [name]) = some (.file text.toUTF8) := by
  obtain ⟨text, htext, hrest⟩ := runs_lift_bind_ok.1 h
  obtain ⟨made, w₁, hmade, hrest⟩ := runs_bind_ok.1 hrest
  obtain ⟨v, hreplaced, rfl⟩ := runs_mustAct_ok.1 hmade
  cases made with
  | error e =>
    obtain ⟨hres, rfl⟩ := runs_pure.1 hrest
    obtain rfl := Except.ok.inj hres
    exact .inl ⟨e, List.mem_cons_self⟩
  | ok _ =>
    obtain ⟨-, rfl⟩ := runs_pure.1 hrest
    refine .inr ⟨text, ofWrite_eq_ok htext, ?_⟩
    exact (runs_replace_within hw.literal (hw.directories kind) hname hreplaced).2 rfl

end Cache

/-! ## Entries and tables -/

namespace ContentCache

open Cache

variable {d : Digester} {c : ContentCache} {base : Location}

theorem within_filed {α : Type} {path : Attempt Path} {f : Path → Work α} {R : Workspace → Workspace → Prop}
    [IsPreorder Workspace R] (h : ∀ p, path = .ok p → Within R (f p)) : Within R (liftM path >>= f) := by
  intro w r w' hruns
  rcases runs_bind.1 hruns with ⟨p, w₁, hp, hrest⟩ | ⟨e, he, -⟩
  · obtain ⟨hpath, rfl⟩ := runs_lift.1 hp
    exact h p hpath.symm _ _ _ hrest
  · rw [(runs_lift.1 he).2]
    exact refl_of R w

theorem within_store (fingerprint : String) (e : CacheEntry) :
    Within (Confined c.root base base) (c.store d fingerprint e) := by
  refine within_ensureLayout.bind fun layout => ?_
  split
  · exact within_pure _
  · refine within_filed fun path hpath => ?_
    obtain ⟨key, -, hfile⟩ := bind_eq_ok.1 hpath
    obtain rfl : c.file .ir key = path := Except.ok.inj hfile
    exact (within_of_keeps (keeps_volume_log _)).bind fun _ =>
      within_cache (within_writeEnvelope .ir (entryFilename_ne key) _)

theorem within_storeTable (t : SymbolTable) : Within (Confined c.root base base) (c.storeTable d t) := by
  refine within_ensureLayout.bind fun layout => ?_
  split
  · exact within_pure _
  · refine within_filed fun path hpath => ?_
    obtain ⟨key, -, hfile⟩ := bind_eq_ok.1 hpath
    obtain rfl : c.file .symbols key = path := Except.ok.inj hfile
    exact within_cache (within_writeEnvelope .symbols (entryFilename_ne key) _)

end ContentCache

end TypeAtlas
