import TypeAtlas.Proofs.Cache.Held
import TypeAtlas.Proofs.Cache.Stored
import TypeAtlas.Proofs.Files.Placed

/-! # Caches in order

What the steps of a run keep of a cache that started out empty, on any volume, as long as no failure
of a file is reported: its four directories are there, and everything in them is a document with a
property that each writer establishes for its own.
-/

namespace TypeAtlas

open Work

/-- No report is about a file that could not be read or written. -/
def NoIoFailure (ds : List Diagnostic) : Prop := ∀ x ∈ ds, x.code ≠ DiagnosticKey.ioFailure.code

theorem noIoFailure_append {ds es : List Diagnostic} :
    NoIoFailure (ds ++ es) ↔ NoIoFailure ds ∧ NoIoFailure es := List.forall_mem_append

theorem not_noIoFailure_ofFileError (path : String) (e : FileError) :
    ¬ NoIoFailure [Diagnostic.ofFileError path e] := fun h => h _ List.mem_cons_self rfl

theorem Work.runs_say_bind {β : Type} {w w' : Workspace} {level : LogLevel} {origin message : String}
    {f : Unit → Work β} {q : Attempt β} (h : Runs (Work.say level origin message >>= f) w q w') :
    ∃ w₁, w₁.volume = w.volume ∧ Runs (f ⟨⟩) w₁ q w' := by
  rw [Work.say, Work.log, runs_modify_bind] at h
  refine ⟨_, ?_, h⟩
  rfl

namespace Cache

open Volume FileAction

variable {d : Digester} {a : Algorithm} {v₀ v v' : Volume} {out path : Path} {base : Location} {kind : CacheKind}
  {name : String} {content : ByteArray} {w w' : Workspace} {r : Attempt (Outcome Unit)}
  {P : CacheKind → String → ByteArray → Prop}

/-! ## Starting out -/

/-- There is an empty directory at a path, at the latest once it is made. -/
structure Vacant (v : Volume) (out : Path) (base : Location) : Prop where
  made : ∃ v₁, Runs (ensureDirectories out) v (.ok ⟨⟩) v₁ ∧ Empty v₁ out base

theorem Empty.vacant (h : Empty v out base) : Vacant v out base :=
  ⟨v, runs_ensureDirectories_found h.named h.found, h⟩

/-- A cache in which nothing is new but some of its directories. -/
structure Bare (v₀ : Volume) (base : Location) (v : Volume) : Prop where
  grown : v₀.Grown v
  only : ∀ m e, v₀.at? m = none → v.at? m = some e →
    e = .directory ∧ ∃ kind : CacheKind, m = base ++ [kind.name]
  top : v.entries[([] : Location)]? = v₀.entries[([] : Location)]?

namespace Bare

theorem initial (v₀ : Volume) (base : Location) : Bare v₀ base v₀ where
  grown := .refl v₀
  only m e hm he := by
    rw [hm] at he
    cases he
  top := rfl

theorem directory_of_some (h : Bare v₀ base v) (h₀ : Empty v₀ out base) {l : Location} {e : FileEntry}
    (hl : l ≠ []) (he : v.at? (base ++ l) = some e) :
    e = .directory ∧ ∃ kind : CacheKind, l = [kind.name] := by
  obtain ⟨hdirectory, kind, hk⟩ := h.only _ e (h₀.nothing l hl) he
  exact ⟨hdirectory, kind, List.append_cancel_left hk⟩

theorem ensureDirectories (h : Bare v₀ base v) (h₀ : Empty v₀ out base)
    (hruns : Runs (ensureDirectories (directory out kind)) v (.ok ⟨⟩) v') :
    Bare v₀ base v' ∧ v'.at? (base ++ [kind.name]) = some .directory ∧
      ∀ m, v.at? m = some .directory → v'.at? m = some .directory := by
  have hfound := find_of_grown h.grown h₀.found
  have hwalk (through : Bool) : v.walk through maxLinks (v.start (directory out kind))
      (directory out kind).segments = .ok (base ++ [kind.name]) :=
    walk_child hfound kind.name_ne (fun target he => by cases (h.directory_of_some h₀ (by simp) he).1)
      through
  have hone : Runs (ensureDirectory (directory out kind)) v (.ok ⟨⟩) v' := by
    rcases runs_ensureDirectories_ok hruns with hone | ⟨-, v₁, hparent, hone⟩
    · exact hone
    · rw [directory, parent_child] at hparent
      obtain rfl := eq_of_ensureDirectories_found hfound hparent
      exact hone
  rcases runs_ensureDirectory hone with ⟨_, he, -⟩ | ⟨-, hdirectory, rfl⟩ | ⟨l, -, hl, habsent, rfl⟩
  · cases he
  · refine ⟨h, ?_, fun _ hm => hm⟩
    unfold isDirectory at hdirectory
    cases hfind : v'.find (directory out kind) with
    | error e => simp [hfind] at hdirectory
    | ok le =>
      obtain ⟨l, e⟩ := le
      obtain ⟨hl, he⟩ := find_eq_ok.1 hfind
      obtain rfl := Except.ok.inj ((hwalk true).symm.trans hl)
      rw [he, (h.directory_of_some h₀ (by simp) he).1]
  · obtain rfl := Except.ok.inj ((hwalk false).symm.trans hl)
    have hput := updated_put (v := v) (e := .directory) (ne_nil_of_absent habsent)
    refine ⟨⟨?_, fun m e hm he => ?_, ?_⟩, hput.here, fun m hm => ?_⟩
    · refine ⟨fun m hm => ?_, h.grown.start, h.grown.refusal⟩
      rw [hput.others m, h.grown.kept m hm]
      rintro rfl
      exact hm (h₀.nothing _ (by simp))
    · by_cases hmk : m = base ++ [kind.name]
      · rw [hmk, hput.here] at he
        exact ⟨(Option.some.inj he).symm, kind, hmk⟩
      · rw [hput.others _ hmk] at he
        exact h.only m e hm he
    · rw [← h.top]
      simp [Volume.put, Std.ExtTreeMap.getElem?_insert]
    · rw [hput.others m (by rintro rfl; simp [habsent] at hm), hm]

theorem layout (h : Bare v₀ base v) (h₀ : Empty v₀ out base) {kinds : List CacheKind}
    (hruns : Runs (kinds.forM fun kind => FileAction.ensureDirectories (directory out kind)) v (.ok ⟨⟩) v') :
    Bare v₀ base v' ∧ (∀ kind ∈ kinds, v'.at? (base ++ [kind.name]) = some .directory) ∧
      ∀ m, v.at? m = some .directory → v'.at? m = some .directory := by
  induction kinds generalizing v with
  | nil =>
    obtain ⟨-, rfl⟩ := runs_pure.1 hruns
    exact ⟨h, by simp, fun _ hm => hm⟩
  | cons kind kinds ih =>
    obtain ⟨_, v₁, hone, hrest⟩ := runs_bind_ok.1 hruns
    obtain ⟨h₁, hkind, hkept⟩ := h.ensureDirectories h₀ hone
    obtain ⟨h', hkinds, hkept'⟩ := ih h₁ hrest
    exact ⟨h', List.forall_mem_cons.2 ⟨hkept' _ hkind, hkinds⟩, fun m hm => hkept' m (hkept m hm)⟩

end Bare

theorem wellFormed_layout (hv : v.WellFormed) (hout : ∀ s ∈ out.segments, IsName s)
    {kinds : List CacheKind}
    (hruns : Runs (kinds.forM fun kind => FileAction.ensureDirectories (directory out kind)) v (.ok ⟨⟩) v') :
    v'.WellFormed := by
  induction kinds generalizing v with
  | nil =>
    obtain ⟨-, rfl⟩ := runs_pure.1 hruns
    exact hv
  | cons kind kinds ih =>
    obtain ⟨_, v₁, hone, hrest⟩ := runs_bind_ok.1 hruns
    have hnames : ∀ s ∈ (directory out kind).segments, IsName s := by
      intro s hs
      rcases List.mem_append.1 hs with hs | hs
      · exact hout s hs
      · rw [List.mem_singleton.1 hs]
        cases kind <;> decide
    exact ih (wellFormed_ensureDirectories hv hnames hone) hrest

/-! ## Documents -/

def LaysOut (v : Volume) (out : Path) (v' : Volume) : Prop :=
  Runs (CacheKind.all.forM fun kind => ensureDirectories (directory out kind)) v (.ok ⟨⟩) v'

theorem exists_laysOut (h : Runs (ensureLayout out) w (.ok {}) w') :
    ∃ v, LaysOut w.volume out v ∧ w' = { w with volume := v } := by
  obtain ⟨made, w₁, hmade, hdone⟩ := runs_bind_ok.1 h
  obtain ⟨v, hv, rfl⟩ := runs_act_ok hmade
  obtain ⟨ho, rfl⟩ := runs_pure.1 hdone
  cases made with
  | error e => cases Except.ok.inj ho
  | ok _ => exact ⟨v, hv, rfl⟩

/-- A cache in a directory that was empty, with its directories and with documents of a kind. -/
structure Kept (v₀ : Volume) (base : Location) (P : CacheKind → String → ByteArray → Prop) (v : Volume) :
    Prop where
  grown : v₀.Grown v
  directories : ∀ kind : CacheKind, v.at? (base ++ [kind.name]) = some .directory
  documents : ∀ (kind : CacheKind) name e, v.at? (base ++ [kind.name] ++ [name]) = some e →
    name ≠ ".." ∧ ∃ content, e = .file content ∧ P kind name content
  only : ∀ m, v₀.at? m = none → v.at? m ≠ none → ∃ kind : CacheKind,
    m = base ++ [kind.name] ∨ ∃ name, m = base ++ [kind.name] ++ [name]

theorem Bare.kept (h : Bare v₀ base v) (h₀ : Empty v₀ out base)
    (hkinds : ∀ kind ∈ CacheKind.all, v.at? (base ++ [kind.name]) = some .directory) : Kept v₀ base P v where
  grown := h.grown
  directories kind := hkinds kind (by cases kind <;> simp [CacheKind.all])
  documents kind name e he := by
    rw [List.append_assoc] at he
    obtain ⟨-, kind', hk⟩ := h.directory_of_some h₀ (by simp) he
    simp at hk
  only m hm hsome := by
    obtain ⟨e, he⟩ := Option.ne_none_iff_exists'.1 hsome
    obtain ⟨-, kind, hk⟩ := h.only m e hm he
    exact ⟨kind, .inl hk⟩

/-- The layout of a cache that starts out vacant is made, or there is a report of a failure. -/
theorem runs_ensureLayout_vacant {o : Outcome Unit} (hv : w.volume.WellFormed)
    (hout : ∀ s ∈ out.segments, IsName s) (hvacant : Vacant w.volume out base)
    (h : Runs (ensureLayout out) w (.ok o) w') : (¬ o.ok ∧ ¬ NoIoFailure o.diagnostics) ∨
      o = {} ∧ w'.volume.WellFormed ∧ ∃ v₀, Empty v₀ out base ∧ Kept v₀ base P w'.volume := by
  obtain ⟨made, w₁, hmade, h⟩ := runs_bind_ok.1 h
  obtain ⟨v', hlaid, rfl⟩ := runs_act_ok hmade
  obtain ⟨ho, rfl⟩ := runs_pure.1 h
  obtain rfl := Except.ok.inj ho
  cases made with
  | error e =>
    have herror : (Diagnostic.ofFileError out.toString e).isError := rfl
    exact .inl ⟨by simp [Outcome.ok, herror], not_noIoFailure_ofFileError _ _⟩
  | ok _ =>
    refine .inr ⟨rfl, wellFormed_layout hv hout hlaid, ?_⟩
    obtain ⟨v₀, hstart, hempty⟩ := hvacant.made
    -- The first directory is made together with the one that all are in.
    have hlayout : Runs (CacheKind.all.forM fun kind => ensureDirectories (directory out kind)) v₀
        (.ok ⟨⟩) v' := by
      obtain ⟨_, v₁, hfirst, hrest⟩ := runs_bind_ok.1 hlaid
      exact (runs_ok_bind (runs_ensureDirectories_child hv (CacheKind.name_ne .ir) hstart hfirst)).2 hrest
    obtain ⟨hbare, hkinds, -⟩ := (Bare.initial v₀ base).layout hempty hlayout
    exact ⟨v₀, hempty, hbare.kept hempty hkinds⟩

namespace Kept

theorem mono {Q : CacheKind → String → ByteArray → Prop} (h : Kept v₀ base P v)
    (hPQ : ∀ kind name content, P kind name content → Q kind name content) : Kept v₀ base Q v where
  grown := h.grown
  directories := h.directories
  documents kind name e he := by
    obtain ⟨hname, content, hc, hP⟩ := h.documents kind name e he
    exact ⟨hname, content, hc, hPQ kind name content hP⟩
  only := h.only

theorem granted (h : Kept v₀ base P v) (hv : v₀.Granted) : v.Granted := by
  intro step l hstep
  rw [h.grown.refusal]
  exact hv step l hstep

theorem find_directory (h : Kept v₀ base P v) (h₀ : Empty v₀ out base) (kind : CacheKind) :
    v.find (directory out kind) = .ok (base ++ [kind.name], .directory) :=
  find_child (find_of_grown h.grown h₀.found) kind.name_ne (h.directories kind) (by simp)

theorem find_document (h : Kept v₀ base P v) (h₀ : Empty v₀ out base) {e : FileEntry}
    (he : v.at? (base ++ [kind.name] ++ [name]) = some e) :
    ∃ content, e = .file content ∧ P kind name content ∧
      v.find ((directory out kind).child name) = .ok (base ++ [kind.name] ++ [name], .file content) := by
  obtain ⟨hname, content, rfl, hP⟩ := h.documents kind name e he
  exact ⟨content, rfl, hP, find_child (h.find_directory h₀ kind) hname he (by simp)⟩

theorem read_document (h : Kept v₀ base P v) (h₀ : Empty v₀ out base)
    (he : v.at? (base ++ [kind.name] ++ [name]) = some (.file content)) :
    v.read ((directory out kind).child name) = .ok content := by
  obtain ⟨content', hfile, -, hfind⟩ := h.find_document h₀ he
  obtain rfl := FileEntry.file.inj hfile
  refine read_eq_ok.2 ⟨_, hfind, ?_⟩
  rw [h.grown.refusal, List.append_assoc]
  exact h₀.legible _

theorem of_read (h : Kept v₀ base P v) (h₀ : Empty v₀ out base) (hname : name ≠ "..")
    (hread : v.read ((directory out kind).child name) = .ok content) : P kind name content := by
  obtain ⟨l, hfind, -⟩ := read_eq_ok.1 hread
  obtain ⟨hlocate, he⟩ := find_eq_ok.1 hfind
  have hplace := walk_child (h.find_directory h₀ kind) hname (fun target ht => by
    obtain ⟨-, content, hc, -⟩ := h.documents kind name _ ht
    cases hc) true
  obtain rfl := Except.ok.inj (hplace.symm.trans hlocate)
  obtain ⟨-, content', hc, hP⟩ := h.documents kind name _ he
  obtain rfl := FileEntry.file.inj hc
  exact hP

theorem runs_layout (h : Kept v₀ base P v) (h₀ : Empty v₀ out base) (kinds : List CacheKind) :
    Runs (kinds.forM fun kind => ensureDirectories (directory out kind)) v (.ok ⟨⟩) v := by
  induction kinds with
  | nil => exact runs_pure.2 ⟨rfl, rfl⟩
  | cons kind kinds ih =>
    exact runs_bind.2 (.inl ⟨⟨⟩, v, runs_ensureDirectories_found (h₀.hasNull_directory kind)
      (h.find_directory h₀ kind), ih⟩)

theorem runs_ensureLayout (h : Kept v₀ base P w.volume) (h₀ : Empty v₀ out base) :
    Runs (ensureLayout out) w (.ok {}) w :=
  runs_bind.2 (.inl ⟨_, _, runs_act_of (h.runs_layout h₀ _), runs_pure.2 ⟨rfl, rfl⟩⟩)

theorem updated (h : Kept v₀ base P v) (h₀ : Empty v₀ out base) (hname : name ≠ "..")
    (hP : P kind name content) (hv : Updated v (base ++ [kind.name] ++ [name]) (.file content) v') :
    Kept v₀ base P v' where
  grown := by
    refine ⟨fun m hm => ?_, hv.start.trans h.grown.start, hv.refusal.trans h.grown.refusal⟩
    rw [hv.others m, h.grown.kept m hm]
    rintro rfl
    rw [List.append_assoc] at hm
    exact hm (h₀.nothing _ (by simp))
  directories kind' := by
    rw [hv.others _ (fun he => by simpa using congrArg List.length he)]
    exact h.directories kind'
  documents kind' name' e he := by
    by_cases hsame : base ++ [kind'.name] ++ [name'] = base ++ [kind.name] ++ [name]
    · obtain ⟨hkind, rfl⟩ : kind'.name = kind.name ∧ name' = name := by simpa using hsame
      obtain rfl : kind' = kind := by
        cases kind <;> cases kind' <;> first | rfl | exact absurd hkind (by decide)
      rw [hv.here] at he
      exact ⟨hname, content, (Option.some.inj he).symm, hP⟩
    · rw [hv.others _ hsame] at he
      exact h.documents kind' name' e he
  only m hm hsome := by
    by_cases hml : m = base ++ [kind.name] ++ [name]
    · exact ⟨kind, .inr ⟨name, hml⟩⟩
    · rw [hv.others m hml] at hsome
      exact h.only m hm hsome

theorem dropped (h : Kept v₀ base P v) (h₀ : Empty v₀ out base) :
    Kept v₀ base P (v.drop (base ++ [kind.name] ++ [name])) where
  grown := by
    refine ⟨fun m hm => ?_, h.grown.start, h.grown.refusal⟩
    rw [at?_drop_of_ne, h.grown.kept m hm]
    rintro rfl
    rw [List.append_assoc] at hm
    exact hm (h₀.nothing _ (by simp))
  directories kind' := by
    rw [at?_drop_of_ne (fun he => by simpa using congrArg List.length he)]
    exact h.directories kind'
  documents kind' name' e he := by
    by_cases hsame : base ++ [kind'.name] ++ [name'] = base ++ [kind.name] ++ [name]
    · rw [hsame, at?_drop_self (by simp)] at he
      cases he
    · rw [at?_drop_of_ne hsame] at he
      exact h.documents kind' name' e he
  only m hm hsome := by
    refine h.only m hm fun hnone => ?_
    by_cases hml : m = base ++ [kind.name] ++ [name]
    · exact hsome (by rw [hml, at?_drop_self (by simp)])
    · exact hsome (by rw [at?_drop_of_ne hml, hnone])

/-! ## Steps -/

/-- Writing a document reports the failure of a file, or puts the document into its place. -/
theorem runs_writeBytes {o : Outcome Unit} (h : Kept v₀ base P w.volume) (h₀ : Empty v₀ out base)
    (hname : name ≠ "..") (hP : P kind name content)
    (hruns : Runs (writeBytes ((directory out kind).child name) content) w (.ok o) w') :
    ¬ NoIoFailure o.diagnostics ∨ (o = {} ∧ Kept v₀ base P w'.volume ∧
      Updated w.volume (base ++ [kind.name] ++ [name]) (.file content) w'.volume) := by
  obtain ⟨x, w₁, hx, hruns⟩ := runs_bind_ok.1 hruns
  obtain ⟨v, hv, rfl⟩ := runs_mustAct_ok.1 hx
  cases x with
  | error e =>
    obtain ⟨ho, rfl⟩ := runs_pure.1 hruns
    obtain rfl := Except.ok.inj ho
    exact .inl (not_noIoFailure_ofFileError _ _)
  | ok _ =>
    obtain ⟨ho, rfl⟩ := runs_pure.1 hruns
    have hupdated := runs_replace_child (h.find_directory h₀ kind) hname
      (fun e he => ((h.documents kind name e he).2).imp fun _ hc => hc.1) hv
    exact .inr ⟨Except.ok.inj ho, h.updated h₀ hname hP hupdated, hupdated⟩

theorem runs_writeDocument {x : Datum} {o : Outcome Unit} (h : Kept v₀ base P w.volume)
    (h₀ : Empty v₀ out base) (hname : name ≠ "..")
    (hP : ∀ text, Json.indented x = .ok text → P kind name text.toUTF8)
    (hruns : Runs (writeDocument ((directory out kind).child name) x) w (.ok o) w')
    (hio : NoIoFailure o.diagnostics) : o = {} ∧ Kept v₀ base P w'.volume ∧
      ∃ content, Updated w.volume (base ++ [kind.name] ++ [name]) (.file content) w'.volume := by
  obtain ⟨text, htext, hruns⟩ := runs_lift_bind_ok.1 hruns
  rcases h.runs_writeBytes h₀ hname (hP text (ofWrite_eq_ok htext)) hruns with
    hfailed | ⟨ho, hkept, hupdated⟩
  · exact absurd hio hfailed
  · exact ⟨ho, hkept, _, hupdated⟩

theorem exists_writeDocument (kind : CacheKind) {x : Datum} {text : String}
    (h : Kept v₀ base P w.volume) (h₀ : Empty v₀ out base) (hv : w.volume.Granted) (hname : name ≠ "..")
    (hnull : '\x00' ∉ name.toList) (htext : Json.indented x = .ok text) :
    ∃ v, Runs (writeDocument ((directory out kind).child name) x) w (.ok {}) { w with volume := v } ∧
      Updated w.volume (base ++ [kind.name] ++ [name]) (.file text.toUTF8) v := by
  have hself : w.volume.locateItself (directory out kind) = .ok (base ++ [kind.name]) :=
    walk_child (find_of_grown h.grown h₀.found) kind.name_ne (by simp [h.directories kind]) false
  obtain ⟨v, hreplaced, hupdated⟩ := runs_replace_granted text.toUTF8 hv (h.find_directory h₀ kind)
    hself hname (h₀.hasNull_document kind hnull)
    fun e he => ((h.documents kind name e he).2).imp fun _ hc => hc.1
  refine ⟨v, ?_, hupdated⟩
  rw [writeDocument, htext, Attempt.ofWrite, runs_lift_ok_bind rfl, writeBytes,
    runs_ok_bind (runs_mustAct_of hreplaced)]
  exact runs_pure.2 ⟨rfl, rfl⟩

theorem succeeds_writeDocument {x : Datum} (h : Kept v₀ base P w.volume) (h₀ : Empty v₀ out base)
    (hv : w.volume.Granted) (hname : name ≠ "..") (hnull : '\x00' ∉ name.toList) (hx : x.Writes 254) :
    Succeeds (writeDocument ((directory out kind).child name) x) w fun o _ => o = {} := by
  obtain ⟨text, htext⟩ := hx .indented 0 (by decide)
  obtain ⟨v, hruns, -⟩ := h.exists_writeDocument kind h₀ hv hname hnull htext
  exact hruns.succeeds rfl

theorem succeeds_writeEnvelope {payload : Datum} (h : Kept v₀ base P w.volume) (h₀ : Empty v₀ out base)
    (hv : w.volume.Granted) (hname : name ≠ "..") (hnull : '\x00' ∉ name.toList)
    (hpayload : payload.Writes 253) :
    Succeeds (writeEnvelope d a ((directory out kind).child name) payload) w fun o _ => o = {} := by
  obtain ⟨content, checksum, text, hsum, htext, -⟩ := exists_holds d a hpayload
  obtain ⟨v, hruns, -⟩ := h.exists_writeDocument kind h₀ hv hname hnull htext
  exact succeeds_lift_bind (congrArg Attempt.ofWrite hsum) (hruns.succeeds rfl)

theorem runs_writeEnvelope {payload : Datum} {o : Outcome Unit} (h : Kept v₀ base P w.volume)
    (h₀ : Empty v₀ out base) (hname : name ≠ "..")
    (hP : ∀ content, Holds d a payload content → P kind name content)
    (hruns : Runs (writeEnvelope d a ((directory out kind).child name) payload) w (.ok o) w')
    (hio : NoIoFailure o.diagnostics) : o = {} ∧ Kept v₀ base P w'.volume := by
  obtain ⟨checksum, hsum, hruns⟩ := runs_lift_bind_ok.1 hruns
  have hwritten := h.runs_writeDocument h₀ hname (fun text htext => hP _
    ⟨checksum, text, ofWrite_eq_ok hsum, htext, rfl⟩) hruns hio
  exact ⟨hwritten.1, hwritten.2.1⟩

theorem runs_discard {q : Except FileError Unit} (h : Kept v₀ base P v) (h₀ : Empty v₀ out base)
    (hname : name ≠ "..") (hruns : Runs (discard ((directory out kind).child name)) v q v') :
    Kept v₀ base P v' := by
  rcases runs_discard_or hruns with rfl | ⟨l, hl, -, rfl⟩
  · exact h
  · have hplace := walk_child (h.find_directory h₀ kind) hname (fun target he => by
      obtain ⟨-, content, hc, -⟩ := h.documents kind name _ he
      cases hc) false
    obtain rfl := Except.ok.inj (hplace.symm.trans hl)
    exact h.dropped h₀

theorem succeeds_discard (h : Kept v₀ base P v) (h₀ : Empty v₀ out base) (hv : v.Granted)
    (hname : name ≠ "..") (hnull : '\x00' ∉ name.toList) :
    Succeeds (discard ((directory out kind).child name)) v fun _ _ => True := by
  have hdocument (e : FileEntry) (he : v.at? (base ++ [kind.name] ++ [name]) = some e) :
      ∃ content, e = .file content := ((h.documents kind name e he).2).imp fun _ hc => hc.1
  refine (succeeds_discard_granted hv (placed_child (h.find_directory h₀ kind) hname
    (h₀.hasNull_document kind hnull) fun target ht => ?_) fun hd => ?_).imp fun _ _ _ _ => trivial
  · obtain ⟨content, hc⟩ := hdocument _ ht
    cases hc
  · obtain ⟨content, hc⟩ := hdocument _ hd
    cases hc

end Kept

end Cache

namespace ContentCache

open Cache

variable {d : Digester} {c : ContentCache} {v₀ : Volume} {base : Location} {w w' : Workspace}
  {P : CacheKind → String → ByteArray → Prop} {o : Outcome Unit}

theorem entryFilename_ne (key : String) : entryFilename key ≠ ".." := by
  intro h
  have hlength := congrArg String.length h
  have htwo : "..".length = 2 := rfl
  have hfive : ".json".length = 5 := rfl
  rw [entryFilename, String.length_append, htwo, hfive] at hlength
  omega

/-- Filing an entry reports the failure of a file, or files its document. -/
theorem kept_store {fingerprint : String} {e : CacheEntry} (h : Kept v₀ base P w.volume)
    (h₀ : Cache.Empty v₀ c.root base)
    (hP : ∀ key content, c.entryKey d fingerprint e.filePath e.symbol = .ok key →
      Holds d c.algorithm e.toDatum content → P .ir (entryFilename key) content)
    (hruns : Runs (c.store d fingerprint e) w (.ok o) w') (hio : NoIoFailure o.diagnostics) :
    o = {} ∧ Kept v₀ base P w'.volume := by
  rw [store, runs_ok_bind (h.runs_ensureLayout h₀)] at hruns
  obtain ⟨path, hpath, hruns⟩ := runs_lift_bind_ok.1 hruns
  obtain ⟨key, hkey, hfile⟩ := bind_eq_ok.1 hpath
  obtain rfl : c.file .ir key = path := Except.ok.inj hfile
  obtain ⟨w₂, hw, hruns⟩ := runs_say_bind hruns
  rw [← hw] at h
  exact h.runs_writeEnvelope h₀ (entryFilename_ne key)
    (fun content => hP key content (ofWrite_eq_ok hkey)) hruns hio

theorem kept_storeTable {t : SymbolTable} (h : Kept v₀ base P w.volume)
    (h₀ : Cache.Empty v₀ c.root base)
    (hP : ∀ key content, c.tableKey d t.filePath = .ok key →
      Holds d c.algorithm t.toDatum content → P .symbols (entryFilename key) content)
    (hruns : Runs (c.storeTable d t) w (.ok o) w') (hio : NoIoFailure o.diagnostics) :
    o = {} ∧ Kept v₀ base P w'.volume := by
  rw [storeTable, runs_ok_bind (h.runs_ensureLayout h₀)] at hruns
  obtain ⟨path, hpath, hruns⟩ := runs_lift_bind_ok.1 hruns
  obtain ⟨key, hkey, hfile⟩ := bind_eq_ok.1 hpath
  obtain rfl : c.file .symbols key = path := Except.ok.inj hfile
  exact h.runs_writeEnvelope h₀ (entryFilename_ne key)
    (fun content => hP key content (ofWrite_eq_ok hkey)) hruns hio

end ContentCache

end TypeAtlas
