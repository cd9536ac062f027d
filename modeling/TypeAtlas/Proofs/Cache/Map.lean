import TypeAtlas.Proofs.Cache.Held
import TypeAtlas.Proofs.Cache.Ordered
import TypeAtlas.Proofs.Cache.Stored
import TypeAtlas.Proofs.Digest.Legible
import TypeAtlas.Proofs.Json.Encodable
import TypeAtlas.Proofs.Json.Nesting

/-! # The content cache as a finite map

Over a directory that was empty, on a volume that refuses nothing, the cache is a map from
fingerprints, files and symbols to entries: looking up gives the entry that was filed last, or nothing.
Entries are filed if they can be written at all.
-/

namespace TypeAtlas

open Work

structure EntryKey where
  fingerprint : String
  file : String
  symbol : String
deriving DecidableEq

namespace EntryKey

def toDatum (k : EntryKey) : Datum := .texts ["ir", k.fingerprint, k.file, k.symbol]

/-- The texts whose digests name the documents of entries. -/
def texts (keys : List EntryKey) : Set String := {s | ∃ k ∈ keys, Json.compact k.toDatum = .ok s}

theorem exists_compact (k : EntryKey) : ∃ s, Json.compact k.toDatum = .ok s :=
  Datum.writes_texts (k := 0) _ .compact 0 (by decide)

theorem eq_of_compact_eq {k l : EntryKey} {s : String} (hk : Json.compact k.toDatum = .ok s)
    (hl : Json.compact l.toDatum = .ok s) : k = l := by
  have h := Json.canonical_eq_of_compact_eq hk hl
  rw [toDatum, toDatum, Datum.canonical_texts, Datum.canonical_texts] at h
  have h := Datum.texts_inj h
  cases k
  cases l
  simpa using h

end EntryKey

def CacheEntry.fits (e : CacheEntry) : Bool :=
  e.toDatum.encodable && decide (e.toDatum.nesting < Json.maxDepth)

inductive CacheCall where
  | store (fingerprint : String) (e : CacheEntry)
  | lookup (fingerprint file symbol : String)

namespace CacheCall

def key : CacheCall → EntryKey
  | store fingerprint e => ⟨fingerprint, e.filePath, e.symbol⟩
  | lookup fingerprint file symbol => ⟨fingerprint, file, symbol⟩

/-- The workspace after a call, whatever it answers. -/
def run (d : Digester) (c : ContentCache) (w : Workspace) : CacheCall → Workspace
  | store fingerprint e => ((c.store d fingerprint e).run.run w).2
  | lookup fingerprint file symbol => ((c.lookup d fingerprint file symbol).run.run w).2

def filed (k : EntryKey) : CacheCall → Option CacheEntry
  | store fingerprint e => if ⟨fingerprint, e.filePath, e.symbol⟩ = k ∧ e.fits then some e else none
  | lookup _ _ _ => none

def lastFiled (calls : List CacheCall) (k : EntryKey) : Option CacheEntry :=
  calls.reverse.findSome? (filed k)

variable {calls : List CacheCall} {call : CacheCall} {k : EntryKey} {e : CacheEntry}

theorem lastFiled_concat (calls : List CacheCall) (call : CacheCall) (k : EntryKey) :
    lastFiled (calls ++ [call]) k = (call.filed k).or (lastFiled calls k) := by
  rw [lastFiled, List.reverse_append, List.reverse_singleton, List.singleton_append,
    List.findSome?_cons, lastFiled]
  cases call.filed k <;> rfl

theorem filed_eq_some (h : call.filed k = some e) :
    ∃ fingerprint, call = store fingerprint e ∧ k = ⟨fingerprint, e.filePath, e.symbol⟩ ∧ e.fits := by
  cases call with
  | store fingerprint e' =>
    obtain ⟨⟨rfl, hfits⟩, he⟩ := Option.ite_none_right_eq_some.1 h
    obtain rfl := Option.some.inj he
    exact ⟨fingerprint, rfl, rfl, hfits⟩
  | lookup _ _ _ => cases h

theorem lastFiled_eq_some (h : lastFiled calls k = some e) :
    ∃ fingerprint, store fingerprint e ∈ calls ∧ k = ⟨fingerprint, e.filePath, e.symbol⟩ := by
  obtain ⟨call, hcall, hfiled⟩ := List.exists_of_findSome?_eq_some h
  obtain ⟨fingerprint, rfl, hk, -⟩ := filed_eq_some hfiled
  exact ⟨fingerprint, List.mem_reverse.1 hcall, hk⟩

end CacheCall

namespace ContentCache

variable {d : Digester} {c : ContentCache} {w w' : Workspace} {v₀ : Volume} {base : Location}
  {contents : String → Option ByteArray} {k : EntryKey} {e : CacheEntry} {fingerprint s : String}
  {calls : List CacheCall}

/-- The document of an entry, by the text whose digest names it. -/
def documentName (d : Digester) (c : ContentCache) (s : String) : String :=
  Cache.entryFilename (d.text c.algorithm s)

theorem documentName_ne (d : Digester) (c : ContentCache) (s : String) :
    documentName d c s ≠ ".." := by
  intro h
  have hlength := congrArg String.length h
  have htwo : "..".length = 2 := rfl
  have hfive : ".json".length = 5 := rfl
  rw [documentName, Cache.entryFilename, String.length_append, htwo, hfive] at hlength
  omega

theorem not_null_mem_entryFilename {key : String} (h : '\x00' ∉ key.toList) :
    '\x00' ∉ (Cache.entryFilename key).toList := by
  simp [Cache.entryFilename, String.toList_append, h]

theorem entryPath_eq (hs : Json.compact k.toDatum = .ok s) :
    c.entryPath d k.fingerprint k.file k.symbol =
      .ok ((Cache.directory c.root .ir).child (documentName d c s)) := by
  have hkey : c.entryKey d k.fingerprint k.file k.symbol = .ok (d.text c.algorithm s) :=
    Digester.value_eq_ok.2 ⟨s, hs, rfl⟩
  rw [entryPath, hkey]
  rfl

/-! ## Filing -/

theorem nesting_envelope {a checksum : String} {payload : Datum} :
    ({ algorithm := a, checksum, payload : Envelope }).toDatum.nesting = payload.nesting + 1 := by
  simp only [Envelope.toDatum, Datum.nesting, Datum.nestingFields]
  omega

theorem encodable_envelope {a checksum : String} {payload : Datum} :
    ({ algorithm := a, checksum, payload : Envelope }).toDatum.encodable = payload.encodable := by
  have hversion : Json.encodable Cache.schemaVersion := by decide
  simp [Envelope.toDatum, Datum.encodable, Datum.encodableFields, hversion]

theorem fits_iff_writes : e.fits ↔ e.toDatum.Writes 253 := by
  rw [CacheEntry.fits, Bool.and_eq_true, decide_eq_true_eq]
  constructor
  · exact fun ⟨hencodable, hnesting⟩ => Json.writes_of_nesting hencodable (Nat.le_of_lt_succ hnesting)
  · intro h
    have hwritten := (Json.exists_write_iff (by decide) _).1 (h .compact 1 (by decide))
    exact ⟨hwritten.1, by omega⟩

theorem fits_of_holds {a : Algorithm} {content : ByteArray} (h : Cache.Holds d a e.toDatum content) :
    e.fits := by
  obtain ⟨checksum, document, -, hdocument, -⟩ := h
  have h := (Json.exists_write_iff (by decide) _).1 ⟨document, hdocument⟩
  rw [encodable_envelope, nesting_envelope] at h
  rw [CacheEntry.fits, h.1, Bool.true_and, decide_eq_true_eq]
  omega

theorem runs_ensureLayout (h : Cache.Holding v₀ base contents w.volume)
    (h₀ : Cache.Empty v₀ c.root base) :
    ∃ v, Runs (Cache.ensureLayout c.root) w (.ok {}) { w with volume := v } ∧
      Cache.Holding v₀ base contents v ∧ v.at? (base ++ [CacheKind.ir.name]) = some .directory := by
  obtain ⟨v, hmade, hv, -, hkinds⟩ := h.runs_layout h₀ CacheKind.all
  refine ⟨v, ?_, hv, hkinds .ir (by decide)⟩
  exact runs_bind.2 (.inl ⟨_, _, runs_act_of hmade, runs_pure.2 ⟨rfl, rfl⟩⟩)

theorem runs_store_start (h : Cache.Holding v₀ base contents w.volume)
    (h₀ : Cache.Empty v₀ c.root base) {r : Attempt (Outcome Unit)}
    (hs : Json.compact (EntryKey.mk fingerprint e.filePath e.symbol).toDatum = .ok s)
    (hruns : Runs (c.store d fingerprint e) w r w') :
    ∃ w₁ : Workspace, Cache.Holding v₀ base contents w₁.volume ∧
      w₁.volume.at? (base ++ [CacheKind.ir.name]) = some .directory ∧
        Runs (Cache.writeEnvelope d c.algorithm
          ((Cache.directory c.root .ir).child (documentName d c s)) e.toDatum) w₁ r w' := by
  obtain ⟨v, hlayout, hv, hir⟩ := runs_ensureLayout h h₀
  rw [store, runs_ok_bind hlayout] at hruns
  have hruns := runs_modify_bind.1 ((runs_lift_ok_bind (entryPath_eq hs)).1 hruns)
  exact ⟨_, hv, hir, hruns⟩

theorem runs_store_of_fits (h : Cache.Holding v₀ base contents w.volume)
    (h₀ : Cache.Empty v₀ c.root base) (hfits : e.fits) {r : Attempt (Outcome Unit)}
    (hs : Json.compact (EntryKey.mk fingerprint e.filePath e.symbol).toDatum = .ok s)
    (hruns : Runs (c.store d fingerprint e) w r w') :
    r = .ok {} ∧ ∃ content, Cache.Holds d c.algorithm e.toDatum content ∧
      Cache.Holding v₀ base (Function.update contents (documentName d c s) (some content)) w'.volume := by
  obtain ⟨w₁, h₁, hir, hwrite⟩ := runs_store_start h h₀ hs hruns
  obtain ⟨content, hholds⟩ := Cache.exists_holds d c.algorithm (fits_iff_writes.1 hfits)
  obtain ⟨v', hreplaced, hv'⟩ := h₁.runs_replace content h₀ (documentName_ne d c s)
    (not_null_mem_entryFilename (d.nameable _ _)) hir
  obtain ⟨checksum, document, hsum, hdocument, rfl⟩ := id hholds
  rw [Cache.writeEnvelope, hsum, Attempt.ofWrite, runs_lift_ok_bind rfl, Cache.writeDocument,
    hdocument, Attempt.ofWrite, runs_lift_ok_bind rfl, Cache.writeBytes,
    runs_ok_bind (runs_mustAct_of hreplaced)] at hwrite
  obtain ⟨rfl, rfl⟩ := runs_pure.1 hwrite
  exact ⟨rfl, _, hholds, hv'⟩

theorem runs_store_of_not_fits (h : Cache.Holding v₀ base contents w.volume)
    (h₀ : Cache.Empty v₀ c.root base) (hfits : ¬ e.fits) {r : Attempt (Outcome Unit)}
    (hs : Json.compact (EntryKey.mk fingerprint e.filePath e.symbol).toDatum = .ok s)
    (hruns : Runs (c.store d fingerprint e) w r w') :
    (∃ err, r = .error (.unwritable err)) ∧ Cache.Holding v₀ base contents w'.volume := by
  obtain ⟨w₁, h₁, -, hwrite⟩ := runs_store_start h h₀ hs hruns
  cases hsum : d.value c.algorithm e.toDatum with
  | error err =>
    rw [Cache.writeEnvelope, hsum] at hwrite
    obtain ⟨rfl, rfl⟩ := runs_throw_bind.1 hwrite
    exact ⟨⟨err, rfl⟩, h₁⟩
  | ok checksum =>
    rw [Cache.writeEnvelope, hsum, Attempt.ofWrite, runs_lift_ok_bind rfl,
      Cache.writeDocument] at hwrite
    cases hdocument : Json.indented (Envelope.toDatum
        { algorithm := c.algorithm.name, checksum, payload := e.toDatum }) with
    | error err =>
      rw [hdocument] at hwrite
      obtain ⟨rfl, rfl⟩ := runs_throw_bind.1 hwrite
      exact ⟨⟨err, rfl⟩, h₁⟩
    | ok document => exact absurd (fits_of_holds ⟨checksum, document, hsum, hdocument, rfl⟩) hfits

/-! ## Looking up -/

theorem readEnvelope_of_holds {path : Path} {v : Volume} {content : ByteArray} {a : Algorithm}
    (he : e.Lossless) (hholds : Cache.Holds d a e.toDatum content) (hread : v.read path = .ok content) :
    Cache.readEnvelope d a.name v path = .ok (.success e.toDatum.canonical) := by
  obtain ⟨checksum, document, hsum, hdocument, rfl⟩ := hholds
  rw [Cache.readEnvelope, hread]
  simp only [Cache.envelope?_indented hdocument he.distinct]
  exact Cache.openEnvelope_canonical hsum (by simp [CacheEntry.toDatum, Datum.canonical])

theorem runs_lookup_of_some (h : Cache.Holding v₀ base contents w.volume)
    (h₀ : Cache.Empty v₀ c.root base) {content : ByteArray} (he : e.Lossless)
    (hholds : Cache.Holds d c.algorithm e.toDatum content)
    (hs : Json.compact (EntryKey.mk fingerprint e.filePath e.symbol).toDatum = .ok s)
    (hc : contents (documentName d c s) = some content) {r : Attempt (Outcome CacheEntry)}
    (hruns : Runs (c.lookup d fingerprint e.filePath e.symbol) w r w') :
    r = .ok (.success e.ordered) := by
  have hread : w.volume.read ((Cache.directory c.root .ir).child (documentName d c s)) =
      .ok content := by rw [h.read h₀ (documentName_ne d c s), hc]
  have hpayload := readEnvelope_of_holds he hholds hread
  rw [lookup, runs_lift_ok_bind (entryPath_eq hs), runs_get_bind, runs_lift_ok_bind hpayload,
    runs_get_bind, Work.log, runs_modify_bind] at hruns
  simp only [Outcome.success, he.read_canonical, checkEntry, CacheEntry.ordered, decide_true,
    Bool.and_self, if_true] at hruns
  exact (runs_pure.1 hruns).1

theorem runs_lookup_of_none (h : Cache.Holding v₀ base contents w.volume)
    (h₀ : Cache.Empty v₀ c.root base) (hs : Json.compact k.toDatum = .ok s)
    (hc : contents (documentName d c s) = none) {r : Attempt (Outcome CacheEntry)}
    (hruns : Runs (c.lookup d k.fingerprint k.file k.symbol) w r w') :
    r = .ok {} := by
  have hread : w.volume.read ((Cache.directory c.root .ir).child (documentName d c s)) =
      .error .notFound := by rw [h.read h₀ (documentName_ne d c s), hc]
  have hpayload : Cache.readEnvelope d c.algorithm.name w.volume
      ((Cache.directory c.root .ir).child (documentName d c s)) = .ok {} := by
    rw [Cache.readEnvelope, hread]
  rw [lookup, runs_lift_ok_bind (entryPath_eq hs), runs_get_bind, runs_lift_ok_bind hpayload,
    runs_get_bind, Work.log, runs_modify_bind] at hruns
  dsimp only at hruns
  rw [Work.say, Work.log, runs_modify_bind] at hruns
  exact (runs_pure.1 hruns).1

/-! ## Sequences of calls -/

open CacheCall

/-- The documents of a cache are those of the entries that were filed last. -/
def Mirrors (d : Digester) (c : ContentCache) (v₀ : Volume) (base : Location) (keys : List EntryKey)
    (calls : List CacheCall) (w : Workspace) : Prop :=
  ∃ contents, Cache.Holding v₀ base contents w.volume ∧
    ∀ k ∈ keys, ∀ s, Json.compact k.toDatum = .ok s →
      Option.Rel (fun e content => Cache.Holds d c.algorithm e.toDatum content) (lastFiled calls k)
        (contents (documentName d c s))

variable {keys : List EntryKey} {call : CacheCall}

/-- Documents of different keys have different names. -/
theorem key_eq_of_documentName (hd : d.CollisionFree c.algorithm (EntryKey.texts keys)) {l : EntryKey}
    {t : String} (hk : k ∈ keys) (hl : l ∈ keys) (hs : Json.compact k.toDatum = .ok s)
    (ht : Json.compact l.toDatum = .ok t) (h : documentName d c s = documentName d c t) : k = l := by
  have hdigest : d.text c.algorithm s = d.text c.algorithm t := by
    have h := congrArg String.toList h
    rw [documentName, documentName, Cache.entryFilename, Cache.entryFilename, String.toList_append,
      String.toList_append] at h
    exact String.toList_inj.1 (List.append_cancel_right h)
  obtain rfl := hd ⟨k, hk, hs⟩ ⟨l, hl, ht⟩ hdigest
  exact EntryKey.eq_of_compact_eq hs ht

theorem Mirrors.run (h : Mirrors d c v₀ base keys calls w) (h₀ : Cache.Empty v₀ c.root base)
    (hd : d.CollisionFree c.algorithm (EntryKey.texts keys)) (hkey : call.key ∈ keys) :
    Mirrors d c v₀ base keys (calls ++ [call]) (call.run d c w) := by
  obtain ⟨contents, hholding, hrel⟩ := h
  cases call with
  | lookup fingerprint file symbol =>
    have hvolume : ((CacheCall.lookup fingerprint file symbol).run d c w).volume = w.volume :=
      keeps_lookup_of Workspace.volume (fun _ => keeps_modify fun _ => rfl) w _ _ rfl
    refine ⟨contents, hvolume ▸ hholding, fun k hk s hs => ?_⟩
    rw [lastFiled_concat]
    exact hrel k hk s hs
  | store fingerprint e =>
    obtain ⟨s, hs⟩ := (EntryKey.mk fingerprint e.filePath e.symbol).exists_compact
    by_cases hfits : e.fits
    · obtain ⟨-, content, hholds, hholding⟩ := runs_store_of_fits hholding h₀ hfits hs rfl
      refine ⟨_, hholding, fun k hk t ht => ?_⟩
      rw [lastFiled_concat]
      by_cases hname : documentName d c t = documentName d c s
      · obtain rfl := key_eq_of_documentName hd hk hkey ht hs hname
        rw [hname, Function.update_self, filed, if_pos ⟨rfl, hfits⟩]
        exact .some hholds
      · have hother : ¬(EntryKey.mk fingerprint e.filePath e.symbol = k ∧ e.fits) := by
          rintro ⟨rfl, -⟩
          exact hname (by rw [Except.ok.inj (ht.symm.trans hs)])
        rw [Function.update_of_ne hname, filed, if_neg hother]
        exact hrel k hk t ht
    · obtain ⟨-, hholding⟩ := runs_store_of_not_fits hholding h₀ hfits hs rfl
      refine ⟨contents, hholding, fun k hk t ht => ?_⟩
      rw [lastFiled_concat, filed, if_neg fun hstored => hfits hstored.2]
      exact hrel k hk t ht

/-- A sequence of calls files the entries that fit. -/
theorem mirrors_foldl (h₀ : Cache.Empty w.volume c.root base) (hv : w.volume.Granted)
    (hd : d.CollisionFree c.algorithm (EntryKey.texts keys)) (hkeys : ∀ call ∈ calls, call.key ∈ keys) :
    Mirrors d c w.volume base keys calls (calls.foldl (CacheCall.run d c) w) := by
  induction calls using List.reverseRecOn with
  | nil => exact ⟨_, .initial h₀ hv, fun _ _ _ _ => .none⟩
  | append_singleton calls call ih =>
    have hcalls := List.forall_mem_append.1 hkeys
    rw [List.foldl_concat]
    exact (ih hcalls.1).run h₀ hd (hcalls.2 call (by simp))

/-- Whatever calls came before, looking up gives the entry that was filed last under the same
fingerprint, file and symbol, or nothing, and never a report. Filing succeeds if the entry fits, and is
at fault otherwise. -/
theorem answers_lastFiled (h₀ : Cache.Empty w.volume c.root base) (hv : w.volume.Granted)
    (hentries : ∀ fingerprint e, CacheCall.store fingerprint e ∈ calls → e.Lossless) (k : EntryKey)
    (hd : d.CollisionFree c.algorithm (EntryKey.texts (k :: calls.map CacheCall.key))) :
    ((c.lookup d k.fingerprint k.file k.symbol).run.run (calls.foldl (CacheCall.run d c) w)).1 =
        .ok ⟨(lastFiled calls k).map CacheEntry.ordered, []⟩ ∧
      ∀ (fingerprint : String) (e : CacheEntry), if e.fits
        then ((c.store d fingerprint e).run.run (calls.foldl (CacheCall.run d c) w)).1 = .ok {}
        else ∃ err, ((c.store d fingerprint e).run.run (calls.foldl (CacheCall.run d c) w)).1 =
          .error (.unwritable err) := by
  obtain ⟨contents, hholding, hrel⟩ := mirrors_foldl h₀ hv hd
    fun call (hcall : call ∈ calls) => List.mem_cons_of_mem _ (List.mem_map_of_mem hcall)
  constructor
  · obtain ⟨s, hs⟩ := k.exists_compact
    have hk := hrel k List.mem_cons_self s hs
    generalize hlast : lastFiled calls k = last at hk ⊢
    generalize hc : contents (documentName d c s) = content at hk
    cases hk with
    | none => exact runs_lookup_of_none hholding h₀ hs hc rfl
    | @some e content hholds =>
      obtain ⟨fingerprint, hstored, rfl⟩ := lastFiled_eq_some hlast
      exact runs_lookup_of_some hholding h₀ (hentries _ _ hstored) hholds hs hc rfl
  · intro fingerprint e
    obtain ⟨s, hs⟩ := (EntryKey.mk fingerprint e.filePath e.symbol).exists_compact
    split
    · next hfits => exact (runs_store_of_fits hholding h₀ hfits hs rfl).1
    · next hfits => exact (runs_store_of_not_fits hholding h₀ hfits hs rfl).1

def shelf : Workspace where
  volume := { entries := (∅ : Std.ExtTreeMap Location FileEntry).insert ["cache"] .directory }

def noteNode : Node where
  id := "s"
  shape := .primitive .string
  tags := [⟨"fk", "User.id", some [("target", .text "User"), ("field", .text "id")]⟩]

def note : CacheEntry where
  symbol := "Note"
  filePath := "note.ts"
  hash := "s"
  graph :=
    { root := "s"
      symbol := "Note"
      filePath := "note.ts"
      nodes := (∅ : Std.ExtTreeMap NodeId Node).insert "s" noteNode }

theorem shelf_empty : Cache.Empty shelf.volume ⟨.relative, ["cache"]⟩ ["cache"] where
  found := Volume.find_child (q := ⟨.relative, []⟩) (Volume.find_start rfl rfl) (by decide)
    (by simp [shelf, Volume.at?]) (by simp)
  nothing l hl := by simp [shelf, Volume.at?, hl]
  named := by decide
  legible _ := rfl

theorem note_lossless : note.Lossless := by
  have hpayload : (Datum.record [("target", .text "User"), ("field", .text "id")]).Distinct :=
    .record (by decide) (by simp [Datum.Distinct.text])
  have hrecordable : note.Recordable := by
    constructor
    · intro id n hn
      rw [Graph.node?, note, Std.ExtTreeMap.getElem?_insert] at hn
      obtain ⟨-, rfl⟩ : compare "s" id = .eq ∧ noteNode = n := by simpa using hn
      refine ⟨⟨?_, ?_, ?_, ?_⟩, ?_⟩
      · simpa [noteNode, Tag.Recordable] using hpayload
      all_goals simp [noteNode]
    · simp [note]
  exact ⟨hrecordable.distinct, by decide +kernel⟩

/-- An entry is found again once it was filed. -/
theorem answers_lastFiled_note :
    ((ContentCache.lookup .legible ⟨⟨.relative, ["cache"]⟩, .sha256⟩ "f" "note.ts" "Note").run.run
      ([CacheCall.store "f" note, .lookup "g" "note.ts" "Note"].foldl
        (CacheCall.run .legible ⟨⟨.relative, ["cache"]⟩, .sha256⟩) shelf)).1 =
      .ok ⟨some note.ordered, []⟩ := by
  have hfits : note.fits := by decide +kernel
  have hlast : lastFiled [.store "f" note, .lookup "g" "note.ts" "Note"] ⟨"f", "note.ts", "Note"⟩ =
      some note := by
    have hfiled : CacheCall.filed ⟨"f", "note.ts", "Note"⟩ (.store "f" note) = some note := by
      rw [filed, if_pos ⟨rfl, hfits⟩]
    exact hfiled ▸ rfl
  have hentries : ∀ fingerprint e, CacheCall.store fingerprint e ∈
      [CacheCall.store "f" note, .lookup "g" "note.ts" "Note"] → e.Lossless := by
    intro fingerprint e he
    obtain ⟨-, rfl⟩ : fingerprint = "f" ∧ e = note := by simpa using he
    exact note_lossless
  have h := (answers_lastFiled (c := ⟨⟨.relative, ["cache"]⟩, .sha256⟩) shelf_empty (fun _ _ _ => rfl)
    hentries ⟨"f", "note.ts", "Note"⟩ (Digester.legible_collisionFree .sha256 _)).1
  rw [hlast] at h
  exact h

end ContentCache

end TypeAtlas
