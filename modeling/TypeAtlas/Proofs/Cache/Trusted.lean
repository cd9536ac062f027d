import TypeAtlas.Proofs.Cache.Map
import TypeAtlas.Proofs.Json.Nesting

/-! # Entries that can be trusted

Whatever bytes stand where an entry is looked for, looking it up ends, and ends well. It gives an entry
only if the bytes vouch for it; otherwise it gives nothing, with one warning at most.
-/

namespace TypeAtlas

/-! ## Envelopes in documents -/

namespace Checked

variable {α β : Type} {x : Checked α} {b : β}

theorem of_map {f : α → β} (h : f <$> x = .ok b) : ∃ a, x = .ok a ∧ f a = b := by
  cases x with
  | ok a => exact ⟨a, rfl, Checked.ok.inj h⟩
  | bad issues => cases h

theorem of_seq {f : Checked (α → β)} (h : f <*> x = .ok b) : ∃ g a, f = .ok g ∧ x = .ok a ∧ g a = b := by
  cases f with
  | ok g =>
    cases x with
    | ok a => exact ⟨g, a, rfl, rfl, Checked.ok.inj h⟩
    | bad issues => cases h
  | bad issues => cases x <;> cases h

theorem of_within {step : String} {a : α} (h : x.within step = .ok a) : x = .ok a := by
  cases x with
  | ok a => exact h
  | bad issues => cases h

end Checked

theorem Schema.mem_of_required {α : Type} {fs : List (String × Datum)} {name : String}
    {read : Datum → Checked α} {a : α} (h : required fs name read = .ok a) :
    ∃ d, (name, d) ∈ fs ∧ read d = .ok a := by
  unfold required at h
  split at h
  · next d hd =>
    obtain ⟨f, hf, rfl⟩ := Option.map_eq_some_iff.1 hd
    obtain rfl : f.1 = name := by simpa using List.find?_some hf
    exact ⟨f.2, List.mem_reverse.1 (List.mem_of_find?_eq_some hf), Checked.of_within h⟩
  · cases h

theorem Envelope.payload_mem {v : Datum} {e : Envelope} (h : Envelope.read v = .ok e) :
    ∃ fs, v = .record fs ∧ ("payload", e.payload) ∈ fs := by
  cases v with
  | record fs =>
    obtain ⟨_, _, hwhole, -, rfl⟩ := Checked.of_seq h
    obtain ⟨_, hfields, rfl⟩ := Checked.of_map hwhole
    obtain ⟨_, payload, hthree, hpayload, rfl⟩ := Checked.of_seq hfields
    obtain ⟨_, checksum, htwo, -, rfl⟩ := Checked.of_seq hthree
    obtain ⟨_, algorithm, hone, -, rfl⟩ := Checked.of_seq htwo
    obtain ⟨version, -, rfl⟩ := Checked.of_map hone
    obtain ⟨d, hd, hread⟩ := Schema.mem_of_required hpayload
    obtain rfl := Checked.ok.inj hread
    exact ⟨fs, rfl, hd⟩
  | _ => cases h

namespace Cache

variable {d : Digester} {a : Algorithm} {algorithm : String} {v : Volume} {path : Path}
  {content : ByteArray} {e : Envelope}

/-- A document, if the bytes are one, is not nested more deeply than can be written. -/
def Shallow (content : ByteArray) : Prop :=
  ∀ v, Json.parseBytes? content = some v → v.nesting ≤ Json.maxDepth

theorem shallow_of_holds {payload : Datum} (h : Holds d a payload content) (hpayload : payload.Distinct) : Shallow content := by
  obtain ⟨checksum, text, -, htext, rfl⟩ := h
  intro x hx
  have hread := Json.parseBytes?_write htext (Envelope.distinct_toDatum hpayload)
  obtain rfl := Option.some.inj (hread.symm.trans hx)
  have hwritten := (Json.exists_write_iff (by decide) _).1 ⟨text, Json.write_canonical _ htext⟩
  have hlevel := hwritten.2
  omega

theorem exists_value (h : envelope? content = some e) (hshallow : Shallow content) :
    ∃ checksum, d.value a e.payload = .ok checksum := by
  obtain ⟨x, hx, h⟩ := Option.bind_eq_some_iff.1 h
  split at h
  · next e' hread =>
    obtain rfl := Option.some.inj h
    obtain ⟨fs, rfl, hmem⟩ := Envelope.payload_mem hread
    have hencodable := Json.encodable_of_parseBytes? hx
    have hnesting := hshallow _ hx
    rw [Datum.encodable, Datum.encodableFields_eq, Datum.encodableList_iff, List.forall_mem_map]
      at hencodable
    rw [Datum.nesting, Datum.nestingFields_eq, Datum.nestingList_le, List.forall_mem_map] at hnesting
    have hpayload : e'.payload.nesting + 1 ≤ Json.maxDepth := hnesting _ hmem
    obtain ⟨text, htext⟩ : ∃ text, Json.compact e'.payload = .ok text :=
      (Json.exists_write_iff (by decide) _).2 ⟨hencodable _ hmem, by omega⟩
    exact ⟨_, Digester.value_eq_ok.2 ⟨text, htext, rfl⟩⟩
  · cases h

theorem exists_openEnvelope (h : ∀ a, ∃ checksum, d.value a e.payload = .ok checksum) :
    ∃ o, openEnvelope d algorithm path e = .ok o := by
  unfold openEnvelope
  split
  · exact ⟨_, rfl⟩
  · split
    · next a _ _ =>
      obtain ⟨checksum, hsum⟩ := h a
      rw [hsum]
      simp only [Attempt.ofWrite, bind, Except.bind]
      split <;> exact ⟨_, rfl⟩
    · exact ⟨_, rfl⟩

theorem exists_readEnvelope_of_shallow (algorithm : String)
    (h : ∀ content, v.read path = .ok content → Shallow content) :
    ∃ o, readEnvelope d algorithm v path = .ok o := by
  unfold readEnvelope
  split
  · exact ⟨_, rfl⟩
  · exact ⟨_, rfl⟩
  · next content hread =>
    split
    · exact ⟨_, rfl⟩
    · next e he => exact exists_openEnvelope fun a => exists_value he (h content hread)

def Warns {α : Type} (o : Outcome α) : Prop :=
  o.diagnostics = [] ∨ ∃ g, o.diagnostics = [g] ∧ g.code = DiagnosticKey.cacheCorrupted.code ∧
    g.category = .warning

theorem warns_corrupted {α : Type} (path : Path) (detail : String) :
    Warns (corrupted path detail : Outcome α) :=
  .inr ⟨_, rfl, rfl, rfl⟩

theorem Warns.ok {α : Type} {o : Outcome α} (h : Warns o) : o.ok := by
  rcases h with h | ⟨g, h, -, hwarning⟩
  · simp [Outcome.ok, h]
  · simp [Outcome.ok, h, Diagnostic.isError, hwarning]

end Cache

/-! ## Looking up -/

namespace ContentCache

open Work

variable {d : Digester} {c : ContentCache} {k : EntryKey} {w w' : Workspace} {path : Path}
  {content : ByteArray} {e : CacheEntry}

/-- The bytes of the file in which an entry is looked for. -/
def Found (d : Digester) (c : ContentCache) (k : EntryKey) (v : Volume) (content : ByteArray) : Prop :=
  ∃ path, c.entryPath d k.fingerprint k.file k.symbol = .ok path ∧ v.read path = .ok content

/-- Bytes vouch for an entry if they are an envelope in order around it, and it belongs to the file and
the symbol. -/
def Vouches (d : Digester) (c : ContentCache) (k : EntryKey) (content : ByteArray) (e : CacheEntry) : Prop :=
  ∃ payload, Cache.Envelops d c.algorithm.name content payload ∧ CacheEntry.read payload = .ok e ∧
    e.filePath = k.file ∧ e.symbol = k.symbol

/-- What looking up makes of the payload of a file. -/
def answer (path : Path) (k : EntryKey) (found : Outcome Datum) : Outcome CacheEntry :=
  match found.value with
  | none => found.withValue none
  | some payload =>
    match CacheEntry.read payload with
    | .ok e => checkEntry path k.file k.symbol e
    | .bad _ => Cache.corrupted path "invalid entry"

theorem runs_lookup_answer {found : Outcome Datum}
    (hpath : c.entryPath d k.fingerprint k.file k.symbol = .ok path)
    (hfound : Cache.readEnvelope d c.algorithm.name w.volume path = .ok found) :
    ∃ w', Runs (c.lookup d k.fingerprint k.file k.symbol) w (.ok (answer path k found)) w' := by
  simp only [lookup, runs_lift_ok_bind hpath, runs_get_bind, runs_lift_ok_bind hfound, log,
    runs_modify_bind, answer]
  cases found.value with
  | none => exact ⟨_, runs_modify_bind.2 (runs_pure.2 ⟨rfl, rfl⟩)⟩
  | some payload =>
    dsimp only
    cases CacheEntry.read payload with
    | ok e => exact ⟨_, runs_pure.2 ⟨rfl, rfl⟩⟩
    | bad issues => exact ⟨_, runs_modify_bind.2 (runs_pure.2 ⟨rfl, rfl⟩)⟩

theorem checkEntry_or (path : Path) (k : EntryKey) (e : CacheEntry) :
    (checkEntry path k.file k.symbol e = .success e ∧ e.filePath = k.file ∧ e.symbol = k.symbol) ∨
      (∃ detail, checkEntry path k.file k.symbol e = Cache.corrupted path detail) ∧
        ¬(e.filePath = k.file ∧ e.symbol = k.symbol) := by
  unfold checkEntry
  by_cases h : e.filePath = k.file ∧ e.symbol = k.symbol
  · exact .inl ⟨by simp [h.1, h.2], h⟩
  · exact .inr ⟨⟨_, if_neg (by simpa [and_comm] using h)⟩, h⟩

/-- A payload that was read is all that the bytes can vouch for. -/
theorem vouches_iff {payload : Datum} (h : Cache.Envelops d c.algorithm.name content payload) :
    c.Vouches d k content e ↔
      CacheEntry.read payload = .ok e ∧ e.filePath = k.file ∧ e.symbol = k.symbol := by
  constructor
  · rintro ⟨payload', h', he⟩
    rwa [h'.unique h] at he
  · intro he
    exact ⟨payload, h, he⟩

/-- What comes of bytes: the entry that they vouch for, or nothing and at most one warning. -/
theorem answer_or {found : Outcome Datum} (hread : w.volume.read path = .ok content)
    (hfound : Cache.readEnvelope d c.algorithm.name w.volume path = .ok found) :
    (∃ e, c.Vouches d k content e ∧ answer path k found = .success e) ∨
      (∀ e, ¬ c.Vouches d k content e) ∧ (answer path k found).value = none ∧
        Cache.Warns (answer path k found) := by
  rcases Cache.readEnvelope_or hread hfound with ⟨payload, henvelops, rfl⟩ | ⟨⟨detail, rfl⟩, hnone⟩
  · by_cases hnull : payload = .null
    · subst hnull
      refine .inr ⟨?_, rfl, .inl rfl⟩
      intro e he
      cases ((vouches_iff henvelops).1 he).1
    · have hpayload : Cache.payload? payload = some payload := by
        cases payload <;> first | rfl | exact absurd rfl hnull
      simp only [answer, hpayload]
      cases hentry : CacheEntry.read payload with
      | ok e =>
        rcases checkEntry_or path k e with ⟨hsuccess, howner⟩ | ⟨⟨detail, hcorrupted⟩, howner⟩
        · exact .inl ⟨e, (vouches_iff henvelops).2 ⟨hentry, howner⟩, hsuccess⟩
        · dsimp only
          rw [hcorrupted]
          refine .inr ⟨?_, rfl, Cache.warns_corrupted path detail⟩
          intro e' he'
          obtain ⟨hentry', howner'⟩ := (vouches_iff henvelops).1 he'
          obtain rfl := Checked.ok.inj (hentry.symm.trans hentry')
          exact howner howner'
      | bad issues =>
        refine .inr ⟨?_, rfl, Cache.warns_corrupted path _⟩
        intro e he
        cases hentry.symm.trans ((vouches_iff henvelops).1 he).1
  · refine .inr ⟨?_, rfl, Cache.warns_corrupted path detail⟩
    rintro e ⟨payload, henvelops, -⟩
    exact hnone payload henvelops

theorem answer_of_unread {found : Outcome Datum} {f : FileError} (hread : w.volume.read path = .error f)
    (hfound : Cache.readEnvelope d c.algorithm.name w.volume path = .ok found) :
    (answer path k found).value = none ∧ Cache.Warns (answer path k found) := by
  rw [Cache.readEnvelope, hread] at hfound
  cases f with
  | notFound =>
    obtain rfl := Except.ok.inj hfound
    exact ⟨rfl, .inl rfl⟩
  | _ =>
    obtain rfl := Except.ok.inj hfound
    exact ⟨rfl, Cache.warns_corrupted path _⟩

/-- Looking up ends well whatever bytes it comes upon, and changes no file. It gives the entry that the
bytes vouch for; if they vouch for none, it gives nothing and warns at most once. -/
theorem lookup_trusted (h : ∀ content, c.Found d k w.volume content → Cache.Shallow content) :
    ∃ o w', Runs (c.lookup d k.fingerprint k.file k.symbol) w (.ok o) w' ∧
      w'.volume = w.volume ∧ o.ok ∧
      ((∃ content e, c.Found d k w.volume content ∧ c.Vouches d k content e ∧ o = .success e) ∨
        (∀ content e, c.Found d k w.volume content → ¬ c.Vouches d k content e) ∧
          o.value = none ∧ Cache.Warns o) := by
  obtain ⟨path, hpath⟩ : ∃ path, c.entryPath d k.fingerprint k.file k.symbol = .ok path := by
    obtain ⟨s, hs⟩ := k.exists_compact
    exact ⟨_, entryPath_eq hs⟩
  have hfoundIff (content : ByteArray) :
      c.Found d k w.volume content ↔ w.volume.read path = .ok content := by
    constructor
    · rintro ⟨path', hpath', hread⟩
      rwa [← Except.ok.inj (hpath.symm.trans hpath')] at hread
    · intro hread
      exact ⟨path, hpath, hread⟩
  obtain ⟨found, hfound⟩ := Cache.exists_readEnvelope_of_shallow c.algorithm.name
    fun content hread => h content ((hfoundIff content).2 hread)
  obtain ⟨w', hruns⟩ := runs_lookup_answer hpath hfound
  refine ⟨_, w', hruns, keeps_lookup_of Workspace.volume (fun _ => keeps_modify fun _ => rfl) _ _ _ hruns, ?_⟩
  simp only [hfoundIff]
  cases hread : w.volume.read path with
  | error f =>
    obtain ⟨hvalue, hwarns⟩ := answer_of_unread hread hfound
    refine ⟨hwarns.ok, .inr ⟨?_, hvalue, hwarns⟩⟩
    rintro content e ⟨⟩
  | ok content =>
    rcases answer_or hread hfound with ⟨e, he, hanswer⟩ | ⟨hnone, hvalue, hwarns⟩
    · rw [hanswer]
      exact ⟨rfl, .inl ⟨content, e, rfl, he, rfl⟩⟩
    · refine ⟨hwarns.ok, .inr ⟨?_, hvalue, hwarns⟩⟩
      rintro _ e ⟨⟩
      exact hnone e

theorem vouches_of_holds (he : e.Lossless) (h : Cache.Holds d c.algorithm e.toDatum content)
    (hfile : e.filePath = k.file) (hsymbol : e.symbol = k.symbol) : c.Vouches d k content e.ordered := by
  obtain ⟨checksum, document, hsum, hdocument, rfl⟩ := h
  exact ⟨e.toDatum.canonical, ⟨c.algorithm, checksum, Algorithm.ofName?_name _,
    Cache.envelope?_indented hdocument he.distinct, Digester.value_canonical hsum⟩, he.read_canonical, hfile,
    hsymbol⟩

theorem Vouches.unique {e' : CacheEntry} (h : c.Vouches d k content e) (h' : c.Vouches d k content e') :
    e = e' := by
  obtain ⟨payload, henvelops, hread, -⟩ := h
  exact Checked.ok.inj (hread.symm.trans ((vouches_iff henvelops).1 h').1)

def shelfWith (name : String) (content : ByteArray) : Volume where
  entries := (shelf.volume.entries.insert ["cache", "ir"] .directory).insert ["cache", "ir", name] (.file content)

theorem read_shelfWith (content : ByteArray) {name : String} (hname : name ≠ "..") :
    (shelfWith name content).read ((Cache.directory ⟨.relative, ["cache"]⟩ .ir).child name) = .ok content := by
  have hcache : (shelfWith name content).find ⟨.relative, ["cache"]⟩ = .ok (["cache"], .directory) :=
    Volume.find_child (q := ⟨.relative, []⟩) (Volume.find_start rfl rfl) (by decide)
      (by simp [shelfWith, shelf, Volume.at?, Std.ExtTreeMap.getElem_insert]) (by simp)
  have hir : (shelfWith name content).find (Cache.directory ⟨.relative, ["cache"]⟩ .ir) =
      .ok (["cache", "ir"], .directory) :=
    Volume.find_child hcache (by decide) (by simp [shelfWith, Volume.at?, Std.ExtTreeMap.getElem_insert, CacheKind.name])
      (by simp)
  have hfile := Volume.find_child hir hname
    (by simp [shelfWith, Volume.at?] : (shelfWith name content).at? _ = some (.file content)) (by simp)
  exact Volume.read_eq_ok.2 ⟨_, hfile, rfl⟩

theorem found_shelfWith {s : String} {content' : ByteArray} {a : Algorithm}
    (hs : Json.compact k.toDatum = .ok s) :
    Found d ⟨⟨.relative, ["cache"]⟩, a⟩ k
        (shelfWith (documentName d ⟨⟨.relative, ["cache"]⟩, a⟩ s) content) content' ↔
      content' = content := by
  have hpath := entryPath_eq (d := d) (c := ⟨⟨.relative, ["cache"]⟩, a⟩) hs
  have hread := read_shelfWith content (documentName_ne d ⟨⟨.relative, ["cache"]⟩, a⟩ s)
  constructor
  · rintro ⟨path, hpath', hread'⟩
    obtain rfl := Except.ok.inj (hpath.symm.trans hpath')
    exact Except.ok.inj (hread'.symm.trans hread)
  · rintro rfl
    exact ⟨_, hpath, hread⟩

/-- A note is found where its document is; an empty record in its place is reported. -/
theorem lookup_trusted_note :
    ∃ (v v' : Volume) (content : ByteArray) (w w' : Workspace) (o : Outcome CacheEntry),
      ContentCache.Found .legible ⟨⟨.relative, ["cache"]⟩, .sha256⟩ ⟨"f", "note.ts", "Note"⟩ v content ∧
      ContentCache.Vouches .legible ⟨⟨.relative, ["cache"]⟩, .sha256⟩ ⟨"f", "note.ts", "Note"⟩ content
        note.ordered ∧
      Runs (ContentCache.lookup .legible ⟨⟨.relative, ["cache"]⟩, .sha256⟩ "f" "note.ts" "Note") ⟨v, ∅, #[]⟩
        (.ok (.success note.ordered)) w ∧
      ContentCache.Found .legible ⟨⟨.relative, ["cache"]⟩, .sha256⟩ ⟨"f", "note.ts", "Note"⟩ v'
        "\x7b\x7d".toUTF8 ∧
      Runs (ContentCache.lookup .legible ⟨⟨.relative, ["cache"]⟩, .sha256⟩ "f" "note.ts" "Note") ⟨v', ∅, #[]⟩
        (.ok o) w' ∧ o.ok ∧ o.value = none ∧ Cache.Warns o := by
  let c : ContentCache := ⟨⟨.relative, ["cache"]⟩, .sha256⟩
  let k : EntryKey := ⟨"f", "note.ts", "Note"⟩
  obtain ⟨s, hs⟩ := k.exists_compact
  let name := documentName .legible c s
  have hfound (content content' : ByteArray) :
      ContentCache.Found .legible c k (shelfWith name content) content' ↔ content' = content :=
    found_shelfWith hs
  have hfits : note.fits := by decide +kernel
  obtain ⟨content, hholds⟩ := Cache.exists_holds .legible c.algorithm (fits_iff_writes.1 hfits)
  have hvouches := vouches_of_holds (k := k) note_lossless hholds rfl rfl
  obtain ⟨o, w, hruns, -, -, hcases⟩ := lookup_trusted (d := .legible) (c := c) (k := k)
    (w := ⟨shelfWith name content, ∅, #[]⟩) fun content' hcontent =>
      (hfound _ _).1 hcontent ▸ Cache.shallow_of_holds hholds note_lossless.distinct
  obtain rfl : o = .success note.ordered := by
    rcases hcases with ⟨content', e, hcontent, he, rfl⟩ | ⟨hnone, -⟩
    · obtain rfl := (hfound _ _).1 hcontent
      rw [he.unique hvouches]
    · exact absurd hvouches (hnone _ _ ((hfound _ _).2 rfl))
  have hshallow : Cache.Shallow "\x7b\x7d".toUTF8 := by
    intro x hx
    have hparse : Json.parseBytes? "\x7b\x7d".toUTF8 = some (.record []) := by decide +kernel
    obtain rfl := Option.some.inj (hparse.symm.trans hx)
    decide
  obtain ⟨o', w', hruns', -, hok, hcases'⟩ := lookup_trusted (d := .legible) (c := c) (k := k)
    (w := ⟨shelfWith name "\x7b\x7d".toUTF8, ∅, #[]⟩) fun content' hcontent =>
      (hfound _ _).1 hcontent ▸ hshallow
  obtain ⟨hvalue, hwarns⟩ : o'.value = none ∧ Cache.Warns o' := by
    rcases hcases' with ⟨content', e, hcontent, ⟨payload, ⟨a, checksum, -, henvelope, -⟩, -⟩, -⟩ | ⟨-, h⟩
    · have hnone : (Cache.envelope? "\x7b\x7d".toUTF8).isNone := by decide +kernel
      rw [← (hfound _ _).1 hcontent, henvelope] at hnone
      cases hnone
    · exact h
  exact ⟨_, _, content, w, w', o', (hfound _ _).2 rfl, hvouches, hruns, (hfound _ _).2 rfl, hruns', hok, hvalue,
    hwarns⟩

end ContentCache

end TypeAtlas
