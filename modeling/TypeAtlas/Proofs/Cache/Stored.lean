import TypeAtlas.Cache.Document
import TypeAtlas.Cache.Store
import TypeAtlas.Proofs.Files.Replace
import TypeAtlas.Proofs.Json.Encodable
import TypeAtlas.Proofs.Run

/-! # What a cache does to files

Looking an entry up changes no file. Filing one changes at most one, which then holds the entry in an
envelope; if it does not, the reason is reported or is a fault. An envelope is opened if its version, its
algorithm and its checksum are right, and what it holds is handed on, unless that is null. An entry that is
found in a cache was read from such an envelope.
-/

namespace TypeAtlas

namespace Work

variable {α : Type} {w w' : Workspace}

abbrev files (w : Workspace) : Location → Option ByteArray := w.volume.file?

theorem runs_lift {m : Attempt α} {r : Attempt α} :
    Runs (liftM m : Work α) w r w' ↔ r = m ∧ w' = w := by
  cases m with
  | ok x => exact runs_pure
  | error e => exact runs_throw

theorem runs_lift_ok_bind {β : Type} {m : Attempt α} {x : α} {f : α → Work β} {q : Attempt β}
    (h : m = .ok x) : Runs (liftM m >>= f) w q w' ↔ Runs (f x) w q w' :=
  runs_ok_bind (runs_lift.2 ⟨h.symm, rfl⟩)

theorem runs_lift_bind_ok {β : Type} {m : Attempt α} {f : α → Work β} {y : β} :
    Runs (liftM m >>= f) w (.ok y) w' ↔ ∃ x, m = .ok x ∧ Runs (f x) w (.ok y) w' := by
  rw [runs_bind_ok]
  constructor
  · rintro ⟨x, w₁, hx, h⟩
    obtain ⟨hm, rfl⟩ := runs_lift.1 hx
    exact ⟨x, hm.symm, h⟩
  · rintro ⟨x, hm, h⟩
    exact ⟨x, w, runs_lift.2 ⟨hm.symm, rfl⟩, h⟩

theorem succeeds_lift_bind {β : Type} {m : Attempt α} {x : α} {f : α → Work β} {R : β → Workspace → Prop}
    (h : m = .ok x) (hf : Succeeds (f x) w R) : Succeeds (liftM m >>= f) w R := by
  obtain ⟨y, w', hy, hR⟩ := hf
  exact ((runs_lift_ok_bind h).2 hy).succeeds hR

theorem succeeds_say_bind {β : Type} {level : LogLevel} {origin message : String} {f : Unit → Work β}
    {R : β → Workspace → Prop} (h : ∀ log, Succeeds (f ⟨⟩) { w with log } R) :
    Succeeds (say level origin message >>= f) w R :=
  succeeds_modify_bind (h _)

theorem keeps_lift {γ : Type} {view : Workspace → γ} (m : Attempt α) :
    Keeps view (liftM m : Work α) := by
  intro s r s' h
  rw [(runs_lift.1 h).2]

theorem keeps_log (lines : List LogLine) : Keeps files (log lines) := keeps_modify fun _ => rfl

theorem keeps_say (level : LogLevel) (origin message : String) :
    Keeps files (say level origin message) := keeps_log _

theorem runs_say_pure {level : LogLevel} {origin message : String} {x : α} {r : Attempt α}
    (h : Runs (do say level origin message; return x) w r w') :
    r = .ok x ∧ files w' = files w := by
  rw [say, log, runs_modify_bind] at h
  obtain ⟨rfl, rfl⟩ := runs_pure.1 h
  exact ⟨rfl, rfl⟩

/-- Acting on a volume ends as the action does, with a fault for an error. -/
theorem runs_mustAct {a : FileAction α} {r : Attempt α} : Runs (mustAct a) w r w' ↔
    ∃ x v, Runs a w.volume x v ∧ r = x.mapError .file ∧ w' = { w with volume := v } := by
  rw [mustAct, runs_get_bind]
  constructor
  · intro h
    rcases hx : a.run.run w.volume with ⟨x, v⟩
    rw [hx] at h
    dsimp only at h
    rw [runs_modify_bind] at h
    cases x with
    | ok y =>
      obtain ⟨rfl, rfl⟩ := runs_pure.1 h
      exact ⟨_, v, hx, rfl, rfl⟩
    | error e =>
      obtain ⟨rfl, rfl⟩ := runs_throw.1 h
      exact ⟨_, v, hx, rfl, rfl⟩
  · rintro ⟨x, v, hx, rfl, rfl⟩
    have hx : a.run.run w.volume = (x, v) := hx
    rw [hx]
    dsimp only
    rw [runs_modify_bind]
    cases x with
    | ok y => exact runs_pure.2 ⟨rfl, rfl⟩
    | error e => exact runs_throw.2 ⟨rfl, rfl⟩

theorem runs_mustAct_of {a : FileAction α} {x : Except FileError α} {v : Volume} (h : Runs a w.volume x v) :
    Runs (mustAct a) w (x.mapError .file) { w with volume := v } :=
  runs_mustAct.2 ⟨x, v, h, rfl, rfl⟩

theorem runs_mustAct_ok {a : FileAction α} {x : α} : Runs (mustAct a) w (.ok x) w' ↔
    ∃ v, Runs a w.volume (.ok x) v ∧ w' = { w with volume := v } := by
  rw [runs_mustAct]
  constructor
  · rintro ⟨y | y, v, hy, hx, rfl⟩
    · cases hx
    · obtain rfl := Except.ok.inj hx
      exact ⟨v, hy, rfl⟩
  · rintro ⟨v, hx, rfl⟩
    exact ⟨_, v, hx, rfl, rfl⟩

theorem runs_act_ok {a : FileAction α} {x : Except FileError α} (h : Runs (act a) w (.ok x) w') :
    ∃ v, Runs a w.volume x v ∧ w' = { w with volume := v } := by
  obtain ⟨v, hcaught, rfl⟩ := runs_mustAct_ok.1 h
  refine ⟨v, ?_, rfl⟩
  rcases FileAction.runs_caught.1 hcaught with ⟨y, hy, hx⟩ | ⟨e, he, hx⟩
  · exact Except.ok.inj hx ▸ hy
  · split at hx
    · exact Except.ok.inj hx ▸ he
    · cases hx

theorem runs_act_of {a : FileAction α} {x : α} {v : Volume} (h : Runs a w.volume (.ok x) v) :
    Runs (act a) w (.ok (.ok x)) { w with volume := v } :=
  runs_mustAct_ok.2 ⟨v, FileAction.runs_caught_ok h, rfl⟩

theorem keeps_mustAct {γ : Type} {view : Volume → γ} {a : FileAction α} (h : Keeps view a) :
    Keeps (fun w => view w.volume) (mustAct a) := by
  intro w r w' hr
  obtain ⟨x, v, hx, -, rfl⟩ := runs_mustAct.1 hr
  exact h _ _ _ hx

theorem keeps_act {γ : Type} {view : Volume → γ} {a : FileAction α} (h : Keeps view a) :
    Keeps (fun w => view w.volume) (act a) :=
  keeps_mustAct (FileAction.keeps_caught h)

end Work

open Work

variable {d : Digester} {a : Algorithm} {w w' : Workspace} {path : Path}

namespace Cache

theorem keeps_ensureLayout (root : Path) : Keeps files (ensureLayout root) := by
  refine (keeps_act (keeps_forM (fun kind => FileAction.keeps_ensureDirectories _) _)).bind
    fun made => ?_
  exact keeps_pure _

/-- One file has new content, and every other one is as it was. -/
def Replaced (fs fs' : Location → Option ByteArray) (content : ByteArray) : Prop :=
  ∃ k, fs' k = some content ∧ ∀ l, l ≠ k → fs' l = fs l

theorem runs_writeBytes {content : ByteArray} {r : Attempt (Outcome Unit)} (hw : w.volume.Removable)
    (h : Runs (writeBytes path content) w r w') :
    files w' = files w ∨ (r = .ok {} ∧ Replaced (files w) (files w') content) := by
  rw [writeBytes, runs_bind] at h
  rcases h with ⟨x, w₁, hx, h⟩ | ⟨e, he, -⟩
  · obtain ⟨v, hv, rfl⟩ := runs_mustAct_ok.1 hx
    rcases FileAction.runs_replace hw hv with ⟨hfailed, hfiles⟩ | ⟨k, hk, hcontent, hothers⟩
    · cases x with
      | ok x => exact absurd rfl (hfailed x)
      | error e =>
        obtain ⟨-, rfl⟩ := runs_pure.1 h
        exact .inl hfiles
    · obtain rfl := Except.ok.inj hk
      obtain ⟨rfl, rfl⟩ := runs_pure.1 h
      exact .inr ⟨rfl, k, hcontent, hothers⟩
  · obtain ⟨x, v, hv, hx, rfl⟩ := runs_mustAct.1 he
    rcases FileAction.runs_replace hw hv with ⟨-, hfiles⟩ | ⟨k, rfl, -⟩
    · exact .inl hfiles
    · cases hx

/-- The bytes of an entry in its envelope. -/
def Holds (d : Digester) (a : Algorithm) (payload : Datum) (content : ByteArray) : Prop :=
  ∃ checksum text, d.value a payload = .ok checksum ∧
    Json.indented ({ algorithm := a.name, checksum, payload : Envelope }).toDatum = .ok text ∧
      content = text.toUTF8

/-- A value that can be written one level below has a place in an envelope. -/
theorem exists_holds (d : Digester) (a : Algorithm) {payload : Datum} (h : payload.Writes 253) :
    ∃ content, Holds d a payload content := by
  obtain ⟨text, htext⟩ := h .compact 0 (by decide)
  have hversion : Json.encodable schemaVersion := by decide
  have henvelope : (Envelope.toDatum
      { algorithm := a.name, checksum := d.text a text, payload }).Writes 254 := by
    apply Datum.writes_record
    simp only [List.forall_mem_cons, List.not_mem_nil, false_implies, implies_true, and_true]
    exact ⟨Datum.writes_number hversion, Datum.writes_text _, Datum.writes_text _, h⟩
  obtain ⟨document, hdocument⟩ := henvelope .indented 0 (by decide)
  exact ⟨_, _, document, congrArg (Except.map (d.text a)) htext, hdocument, rfl⟩

theorem ofWrite_eq_ok {α : Type} {m : Except Json.WriteError α} {x : α}
    (h : Attempt.ofWrite m = .ok x) : m = .ok x := by
  cases m with
  | ok y => exact congrArg Except.ok (Except.ok.inj h)
  | error e => cases h

theorem runs_writeEnvelope {payload : Datum} {r : Attempt (Outcome Unit)} (hw : w.volume.Removable)
    (h : Runs (writeEnvelope d a path payload) w r w') :
    files w' = files w ∨
      (r = .ok {} ∧ ∃ content, Holds d a payload content ∧ Replaced (files w) (files w') content) := by
  rw [writeEnvelope, runs_bind] at h
  rcases h with ⟨checksum, w₁, hsum, h⟩ | ⟨e, he, -⟩
  · obtain ⟨hd, rfl⟩ := runs_lift.1 hsum
    rw [writeDocument, runs_bind] at h
    rcases h with ⟨text, w₂, htext, h⟩ | ⟨e, he, -⟩
    · obtain ⟨hj, rfl⟩ := runs_lift.1 htext
      rcases runs_writeBytes hw h with hfiles | ⟨rfl, hreplaced⟩
      · exact .inl hfiles
      · exact .inr ⟨rfl, _, ⟨checksum, text, ofWrite_eq_ok hd.symm, ofWrite_eq_ok hj.symm, rfl⟩,
          hreplaced⟩
    · exact .inl (congrArg files (runs_lift.1 he).2)
  · exact .inl (congrArg files (runs_lift.1 he).2)

/-- What writing to a cache leaves alone. -/
structure Aside {γ : Type} (view : Workspace → γ) : Prop where
  log : ∀ lines, Keeps view (Work.log lines)
  layout : ∀ root, Keeps view (ensureLayout root)
  write : ∀ path content, Keeps view (writeBytes path content)

theorem aside_refusal : Aside fun w => w.volume.refusal where
  log _ := keeps_modify fun _ => rfl
  layout root := (keeps_act (keeps_forM
    (fun kind => FileAction.keeps_refusal_ensureDirectories _) _)).bind fun _ => keeps_pure _
  write path content := by
    refine (keeps_mustAct (FileAction.keeps_refusal_replace path content)).bind fun x => ?_
    split <;> exact keeps_pure _

theorem aside_pinned : Aside Workspace.pinned := by
  have hact {α : Type} (a : FileAction α) : Keeps Workspace.pinned (mustAct a) := by
    intro w r w' h
    obtain ⟨_, _, -, -, rfl⟩ := runs_mustAct.1 h
    rfl
  refine ⟨fun _ => keeps_modify fun _ => rfl, fun root => ?_, fun path content => ?_⟩
  · exact (hact _).bind fun _ => keeps_pure _
  · refine (hact _).bind fun x => ?_
    split <;> exact keeps_pure _

theorem Aside.writeEnvelope {γ : Type} {view : Workspace → γ} (h : Aside view) (payload : Datum) :
    Keeps view (writeEnvelope d a path payload) :=
  (keeps_lift _).bind fun _ => (keeps_lift _).bind fun _ => h.write _ _

end Cache

namespace ContentCache

variable {c : ContentCache} {fingerprint file symbol : String} {e : CacheEntry}

theorem keeps_lookup_of {γ : Type} (view : Workspace → γ) (h : ∀ lines, Keeps view (log lines)) :
    Keeps view (c.lookup d fingerprint file symbol) := by
  refine (keeps_lift _).bind fun path => keeps_get.bind fun w => (keeps_lift _).bind fun payload =>
    keeps_get.bind fun w => (h _).bind fun _ => ?_
  split
  · exact (h _).bind fun _ => keeps_pure _
  · split
    · exact keeps_pure _
    · exact (h _).bind fun _ => keeps_pure _

theorem keeps_store {γ : Type} {view : Workspace → γ} (h : Cache.Aside view) :
    Keeps view (c.store d fingerprint e) := by
  refine (h.layout _).bind fun layout => ?_
  split
  · exact keeps_pure _
  · exact (keeps_lift _).bind fun _ => (h.log _).bind fun _ => h.writeEnvelope _

theorem keeps_storeTable {γ : Type} {view : Workspace → γ} (h : Cache.Aside view) (t : SymbolTable) :
    Keeps view (c.storeTable d t) := by
  refine (h.layout _).bind fun layout => ?_
  split
  · exact keeps_pure _
  · exact (keeps_lift _).bind fun _ => h.writeEnvelope _

/-- Filing an entry leaves every file as it was, or puts the entry into one and reports nothing. -/
theorem runs_store {r : Attempt (Outcome Unit)} (hw : w.volume.Removable)
    (h : Runs (c.store d fingerprint e) w r w') : files w' = files w ∨ (r = .ok {} ∧
      ∃ content, Cache.Holds d c.algorithm e.toDatum content ∧ Cache.Replaced (files w) (files w') content) := by
  rcases runs_bind.1 h with ⟨layout, w₁, hlayout, h⟩ | ⟨_, hlayout, -⟩
  · have hw₁ := hw.congr (Cache.aside_refusal.layout _ _ _ _ hlayout)
    rw [← Cache.keeps_ensureLayout _ _ _ _ hlayout]
    split at h
    · exact .inl (congrArg files (runs_pure.1 h).2)
    rcases runs_bind.1 h with ⟨path, w₂, hpath, hrest⟩ | ⟨_, hpath, -⟩
    · obtain ⟨-, rfl⟩ := runs_lift.1 hpath
      have hwritten := Cache.runs_writeEnvelope (by exact hw₁) (runs_modify_bind.1 hrest)
      exact hwritten
    · exact .inl (congrArg files (runs_lift.1 hpath).2)
  · exact .inl (Cache.keeps_ensureLayout _ _ _ _ hlayout)

end ContentCache

/-! ## Envelopes in order -/

namespace Cache

variable {d : Digester} {v : Volume} {path : Path} {algorithm : String} {content : ByteArray}

/-- The bytes are an envelope of this version around a payload, with the right checksum. -/
def Envelops (d : Digester) (algorithm : String) (content : ByteArray) (payload : Datum) : Prop :=
  ∃ a checksum, Algorithm.ofName? algorithm = some a ∧
    envelope? content = some { algorithm, checksum, payload } ∧ d.value a payload = .ok checksum

/-- The payload that a reading gives, which is none if it is null. -/
def payload? : Datum → Option Datum
  | .null => none
  | payload => some payload

theorem eq_of_payload? {x y : Datum} (h : payload? x = some y) : x = y := by
  cases x with
  | null => cases h
  | _ => exact Option.some.inj h

theorem openEnvelope_or {e : Envelope} {o : Outcome Datum}
    (h : openEnvelope d algorithm path e = .ok o) :
    (o = ⟨payload? e.payload, []⟩ ∧ e.version = schemaVersion ∧ e.algorithm = algorithm ∧
      ∃ a, Algorithm.ofName? algorithm = some a ∧ d.value a e.payload = .ok e.checksum) ∨
    (∃ detail, o = corrupted path detail) ∧ ¬(e.version = schemaVersion ∧ e.algorithm = algorithm ∧
      ∃ a, Algorithm.ofName? algorithm = some a ∧ d.value a e.payload = .ok e.checksum) := by
  unfold openEnvelope at h
  split at h
  · next hversion =>
    obtain rfl := Except.ok.inj h
    exact .inr ⟨⟨_, rfl⟩, fun horder => by simp [horder.1] at hversion⟩
  · next hversion =>
    have hversion : e.version = schemaVersion := by simpa using hversion
    split at h
    · next a halgorithm hsame =>
      have hsame : e.algorithm = algorithm := by simpa using hsame
      obtain ⟨checksum, hchecksum, h⟩ := bind_eq_ok.1 h
      have hchecksum : d.value a e.payload = .ok checksum := ofWrite_eq_ok hchecksum
      rw [hsame] at halgorithm
      split at h
      · next hne =>
        obtain rfl := Except.ok.inj h
        refine .inr ⟨⟨_, rfl⟩, ?_⟩
        rintro ⟨-, -, a', ha', hsum⟩
        obtain rfl := Option.some.inj (halgorithm.symm.trans ha')
        obtain rfl := Except.ok.inj (hchecksum.symm.trans hsum)
        simp at hne
      · next heq =>
        obtain rfl : checksum = e.checksum := by simpa using heq
        refine .inl ⟨?_, hversion, hsame, a, halgorithm, hchecksum⟩
        rw [← Except.ok.inj h]
        cases e.payload <;> rfl
    · next hne =>
      obtain rfl := Except.ok.inj h
      refine .inr ⟨⟨_, rfl⟩, ?_⟩
      rintro ⟨-, rfl, a, ha, -⟩
      exact hne a ha (by simp)

/-- The payload of a file is read, or there is a report and the file is not an envelope in order. -/
theorem readEnvelope_or {o : Outcome Datum} (hread : v.read path = .ok content)
    (h : readEnvelope d algorithm v path = .ok o) :
    (∃ payload, Envelops d algorithm content payload ∧ o = ⟨payload? payload, []⟩) ∨
      (∃ detail, o = corrupted path detail) ∧ ∀ payload, ¬ Envelops d algorithm content payload := by
  rw [readEnvelope, hread] at h
  dsimp only at h
  cases he : envelope? content with
  | none =>
    rw [he] at h
    obtain rfl := Except.ok.inj h
    exact .inr ⟨⟨_, rfl⟩, fun payload ⟨_, _, _, he', _⟩ => by simp [he] at he'⟩
  | some e =>
    rw [he] at h
    rcases openEnvelope_or h with ⟨ho, hversion, rfl, a, ha, hsum⟩ | ⟨ho, horder⟩
    · obtain ⟨version, algorithm, checksum, payload⟩ := e
      obtain rfl : version = schemaVersion := hversion
      exact .inl ⟨payload, ⟨a, checksum, ha, he, hsum⟩, ho⟩
    · refine .inr ⟨ho, ?_⟩
      rintro payload ⟨a, checksum, ha, he', hsum⟩
      obtain rfl := Option.some.inj (he.symm.trans he')
      exact horder ⟨rfl, rfl, a, ha, hsum⟩

theorem Envelops.unique {x y : Datum} (hx : Envelops d algorithm content x)
    (hy : Envelops d algorithm content y) : x = y := by
  obtain ⟨_, _, -, hx, -⟩ := hx
  obtain ⟨_, _, -, hy, -⟩ := hy
  exact congrArg Envelope.payload (Option.some.inj (hx.symm.trans hy))

theorem exists_readEnvelope {payload : Datum} (hread : v.read path = .ok content)
    (h : Envelops d algorithm content payload) :
    readEnvelope d algorithm v path = .ok ⟨payload? payload, []⟩ := by
  obtain ⟨a, checksum, ha, he, hsum⟩ := h
  rw [readEnvelope, hread]
  simp only [he, openEnvelope, bne_self_eq_false, ha, beq_self_eq_true, hsum, Attempt.ofWrite]
  cases payload <;> simp [bind, Except.bind, pure, Except.pure, payload?, Outcome.success]

theorem exists_envelops_of_readEnvelope {o : Outcome Datum} {payload : Datum}
    (h : readEnvelope d algorithm v path = .ok o) (ho : o.value = some payload) :
    ∃ content, v.read path = .ok content ∧ Envelops d algorithm content payload := by
  cases hread : v.read path with
  | error f =>
    rw [readEnvelope, hread] at h
    cases f <;> rw [← Except.ok.inj h] at ho <;> cases ho
  | ok content =>
    rcases readEnvelope_or hread h with ⟨x, hx, rfl⟩ | ⟨⟨_, rfl⟩, -⟩
    · obtain rfl := eq_of_payload? ho
      exact ⟨content, rfl, hx⟩
    · cases ho

end Cache

namespace ContentCache

variable {d : Digester} {c : ContentCache} {fingerprint file symbol : String} {w w' : Workspace}

theorem checkEntry_eq_some {path : Path} {e e' : CacheEntry}
    (h : (checkEntry path file symbol e).value = some e') : e' = e ∧ e.filePath = file ∧ e.symbol = symbol := by
  unfold checkEntry at h
  split at h
  · next hsame =>
    obtain rfl := Option.some.inj h
    simpa [and_comm] using hsame
  · cases h

/-- An entry that is found was read from its file, and belongs to the symbol. -/
theorem exists_envelops_of_lookup {o : Outcome CacheEntry} {e : CacheEntry}
    (h : Runs (c.lookup d fingerprint file symbol) w (.ok o) w') (he : o.value = some e) :
    ∃ key content payload, w.volume.read (c.file .ir key) = .ok content ∧
      Cache.Envelops d c.algorithm.name content payload ∧ CacheEntry.read payload = .ok e ∧
        e.filePath = file ∧ e.symbol = symbol := by
  unfold lookup at h
  obtain ⟨path, hpath, h⟩ := runs_lift_bind_ok.1 h
  obtain ⟨key, -, hkey⟩ := bind_eq_ok.1 hpath
  obtain rfl : c.file .ir key = path := Except.ok.inj hkey
  rw [runs_get_bind] at h
  obtain ⟨found, hfound, h⟩ := runs_lift_bind_ok.1 h
  rw [runs_get_bind, log, runs_modify_bind] at h
  split at h
  · rw [say, log, runs_modify_bind] at h
    obtain ⟨ho, -⟩ := runs_pure.1 h
    obtain rfl := Except.ok.inj ho
    cases he
  · next payload hpayload =>
    obtain ⟨content, hcontent, henvelops⟩ := Cache.exists_envelops_of_readEnvelope hfound hpayload
    split at h
    · next e' hread =>
      obtain ⟨ho, -⟩ := runs_pure.1 h
      obtain rfl := Except.ok.inj ho
      obtain ⟨rfl, hfile, hsymbol⟩ := checkEntry_eq_some he
      exact ⟨key, content, payload, hcontent, henvelops, hread, hfile, hsymbol⟩
    · rw [say, log, runs_modify_bind] at h
      obtain ⟨ho, -⟩ := runs_pure.1 h
      obtain rfl := Except.ok.inj ho
      cases he

end ContentCache

end TypeAtlas
