import TypeAtlas.Proofs.Cache.Stored
import TypeAtlas.Proofs.Files.Granted
import TypeAtlas.Repository.Validation

/-! # What validation establishes

A cache in which validation finds no error has its directories and fixed documents, and every document
of a family is an envelope in order. What it holds is a record of this contract, with the hash of its
graph where it has one, or nothing at all: an envelope around null is let through.
-/

namespace TypeAtlas

open Validation

variable {α : Type} {d : Digester} {v : Volume} {root path : Path} {algorithm artifact : String}
  {content : ByteArray} {r : ValidationResult}

/-! ## Results -/

namespace ValidationResult

variable (a b : ValidationResult) (rs : List ValidationResult)

@[simp] theorem errors_append : (a ++ b).errors = a.errors ++ b.errors := rfl

@[simp] theorem warnings_append : (a ++ b).warnings = a.warnings ++ b.warnings := rfl

@[simp] theorem errors_all : (all rs).errors = rs.flatMap errors := by
  have hfold (a : ValidationResult) : (rs.foldl append a).errors = a.errors ++ rs.flatMap errors := by
    induction rs generalizing a with
    | nil => simp
    | cons r rs ih => rw [List.foldl_cons, ih, List.flatMap_cons, ← List.append_assoc]; rfl
  exact hfold {}

@[simp] theorem warnings_all : (all rs).warnings = rs.flatMap warnings := by
  have hfold (a : ValidationResult) :
      (rs.foldl append a).warnings = a.warnings ++ rs.flatMap warnings := by
    induction rs generalizing a with
    | nil => simp
    | cons r rs ih => rw [List.foldl_cons, ih, List.flatMap_cons, ← List.append_assoc]; rfl
  exact hfold {}

end ValidationResult

open ValidationResult

/-! ## Checks -/

/-- A check that gives no warnings, and no error exactly if a condition holds. -/
structure ValidationResult.Decides (r : ValidationResult) (P : Prop) : Prop where
  quiet : r.warnings = []
  errors : r.errors = [] ↔ P

namespace ValidationResult.Decides

variable {a b : ValidationResult} {P Q : Prop}

theorem append (ha : a.Decides P) (hb : b.Decides Q) : (a ++ b).Decides (P ∧ Q) where
  quiet := by simp [ha.quiet, hb.quiet]
  errors := by simp [ha.errors, hb.errors]

theorem congr (h : a.Decides P) (hPQ : P ↔ Q) : a.Decides Q := ⟨h.quiet, h.errors.trans hPQ⟩

theorem empty (hP : P) : Decides {} P := ⟨rfl, by simp [hP]⟩

theorem error (path : Path) (message : String) (hP : ¬ P) :
    Decides (ValidationResult.error artifact path message) P :=
  ⟨rfl, by simp [ValidationResult.error, hP]⟩

end ValidationResult.Decides

namespace Validation

variable {read : Datum → Checked α} {version : α → Int} {x : Option α}

theorem decides_checkVersion (n : Int) :
    (checkVersion artifact path n).Decides (n = Cache.schemaVersion) := by
  unfold checkVersion
  split
  · next h => exact .empty h
  · next h => exact .error _ _ h

/-- A datum is a record of the version of this contract. -/
def Meets (read : Datum → Checked α) (version : α → Int) (d : Datum) (record : α) : Prop :=
  read d = .ok record ∧ version record = Cache.schemaVersion

theorem decides_checkRecord (payload : Datum) :
    (checkRecord artifact path read version payload).2.Decides (∃ x, Meets read version payload x) := by
  unfold checkRecord
  cases hread : read payload with
  | ok record =>
    refine (decides_checkVersion _).congr ⟨fun h => ⟨record, hread, h⟩, ?_⟩
    rintro ⟨record', hread', hversion⟩
    cases hread.symm.trans hread'
    exact hversion
  | bad issues =>
    refine .error _ _ ?_
    rintro ⟨record, hread', -⟩
    cases hread.symm.trans hread'

theorem checkRecord_of_meets {payload : Datum} {record : α} (h : Meets read version payload record) :
    (checkRecord artifact path read version payload).1 = some record := by
  rw [checkRecord, h.1]

/-- A file is a document that holds a record. -/
def Documents (v : Volume) (path : Path) (read : Datum → Checked α) (version : α → Int)
    (record : α) : Prop :=
  ∃ content datum, v.read path = .ok content ∧ Json.parseBytes? content = some datum ∧
    Meets read version datum record

theorem decides_checkDocument :
    (checkDocument v artifact path read version).2.Decides (∃ x, Documents v path read version x) := by
  have hdocuments : (∃ x, Documents v path read version x) ↔
      ∃ datum, (v.read path).toOption.bind Json.parseBytes? = some datum ∧
        ∃ x, Meets read version datum x := by
    cases hread : v.read path with
    | error e => simp [Documents, hread, Except.toOption]
    | ok content =>
      simp only [Documents, hread, Except.toOption, Option.bind_some, Except.ok.injEq,
        exists_eq_left', exists_and_left]
      exact exists_comm.trans (by simp)
  rw [hdocuments]
  unfold checkDocument
  split
  · next hmissing =>
    refine .error _ _ ?_
    rintro ⟨datum, hdatum, -⟩
    obtain ⟨content, hread, -⟩ := Option.bind_eq_some_iff.1 hdatum
    cases hcontent : v.read path with
    | error e => simp [hcontent, Except.toOption] at hread
    | ok content => simp [Volume.isFile_of_read hcontent] at hmissing
  · cases hdatum : (v.read path).toOption.bind Json.parseBytes? with
    | none => exact .error _ _ (by simp)
    | some datum => exact (decides_checkRecord datum).congr (by simp)

theorem checkDocument_of_documents {record : α} (h : Documents v path read version record) :
    (checkDocument v artifact path read version).1 = some record := by
  obtain ⟨content, datum, hread, hparse, hmeets⟩ := h
  simp only [checkDocument, Volume.isFile_of_read hread, hread, Except.toOption, Option.bind_some, hparse]
  exact checkRecord_of_meets hmeets

/-- Bytes are an envelope in order around a record. -/
def Encloses (d : Digester) (algorithm : String) (read : Datum → Checked α) (version : α → Int)
    (content : ByteArray) (record : α) : Prop :=
  ∃ payload, payload ≠ .null ∧ Cache.Envelops d algorithm content payload ∧
    Meets read version payload record

theorem encloses_iff {payload : Datum} {record : α} (h : Cache.Envelops d algorithm content payload)
    (hnull : payload ≠ .null) :
    Encloses d algorithm read version content record ↔ Meets read version payload record := by
  constructor
  · rintro ⟨payload', -, hp', hmeets⟩
    exact hp'.unique h ▸ hmeets
  · intro hmeets
    exact ⟨payload, hnull, h, hmeets⟩

theorem not_encloses_of_null {record : α} (h : Cache.Envelops d algorithm content .null) :
    ¬ Encloses d algorithm read version content record := by
  rintro ⟨payload, hnull, hp, -⟩
  exact hnull (hp.unique h)

/-- What the check of an envelope comes to. If it gives a record, the bytes enclose no other. -/
theorem decides_checkEnvelope (hread : v.read path = .ok content)
    (h : checkEnvelope d v algorithm artifact path read version = .ok (x, r)) :
    r.Decides (Cache.Envelops d algorithm content .null ∨
        ∃ record, Encloses d algorithm read version content record) ∧
      ((x = none ∧ ∀ record, ¬ Encloses d algorithm read version content record) ∨
        ∃ record a, x = some record ∧ Algorithm.ofName? algorithm = some a ∧
          ¬ Cache.Envelops d algorithm content .null ∧
            ∀ other, Encloses d algorithm read version content other → other = record) := by
  obtain ⟨o, ho, h⟩ := bind_eq_ok.1 h
  rcases Cache.readEnvelope_or hread ho with ⟨payload, hp, rfl⟩ | ⟨⟨detail, rfl⟩, hnone⟩
  · by_cases hnull : payload = .null
    · subst hnull
      obtain ⟨rfl, rfl⟩ := Prod.mk.inj (Except.ok.inj h)
      exact ⟨.empty (.inl hp), .inl ⟨rfl, fun record => not_encloses_of_null hp⟩⟩
    · have hpayload : Cache.payload? payload = some payload := by
        cases payload <;> first | rfl | exact absurd rfl hnull
      rw [hpayload] at h
      have hr := congrArg Prod.snd (Except.ok.inj h)
      have hx := congrArg Prod.fst (Except.ok.inj h)
      subst hr hx
      have hencloses (record : α) : Encloses d algorithm read version content record ↔ _ := encloses_iff hp hnull
      constructor
      · refine (decides_checkRecord payload).congr ⟨?_, ?_⟩
        · rintro ⟨record, hrecord⟩
          exact .inr ⟨record, (hencloses record).2 hrecord⟩
        · rintro (hp' | ⟨record, hrecord⟩)
          · exact absurd (hp.unique hp') hnull
          · exact ⟨record, (hencloses record).1 hrecord⟩
      · cases hread : read payload with
        | bad issues =>
          refine .inl ⟨by rw [checkRecord, hread], fun record hrecord => ?_⟩
          cases hread.symm.trans ((hencloses record).1 hrecord).1
        | ok record =>
          obtain ⟨a, checksum, ha, -⟩ := id hp
          refine .inr ⟨record, a, by rw [checkRecord, hread], ha, fun hp' => hnull (hp.unique hp'), ?_⟩
          intro other hother
          cases hread.symm.trans ((hencloses other).1 hother).1
          rfl
  · obtain ⟨rfl, rfl⟩ := Prod.mk.inj (Except.ok.inj h)
    have hrecord (record : α) : ¬ Encloses d algorithm read version content record := by
      rintro ⟨payload, -, hp, -⟩
      exact hnone payload hp
    refine ⟨.error _ _ ?_, .inl ⟨rfl, hrecord⟩⟩
    rintro (hp | ⟨record, hencloses⟩)
    · exact hnone _ hp
    · exact hrecord record hencloses

/-! ## Documents of families -/

/-- The graph of an entry has the hash that the entry records. -/
def Hashes (d : Digester) (algorithm : String) (e : CacheEntry) : Prop :=
  ∃ a o, Algorithm.ofName? algorithm = some a ∧ e.graph.toGraph.hash d a = .ok o ∧
    o.value = some e.hash

theorem choose_of_ofName? {a : Algorithm} (ha : Algorithm.ofName? algorithm = some a)
    (recorded : Option String) : Algorithm.choose (some algorithm) recorded = .ok a := by
  have hne : algorithm ≠ "" := by
    rintro rfl
    revert ha
    decide +revert
  simp [Algorithm.choose, hne, Algorithm.named, ha]

theorem decides_checkHash {e : CacheEntry} {a : Algorithm} (ha : Algorithm.ofName? algorithm = some a)
    (h : checkHash d algorithm path e = .ok r) : r.Decides (Hashes d algorithm e) := by
  rw [checkHash, choose_of_ofName? ha] at h
  obtain ⟨a', ha', h⟩ := bind_eq_ok.1 h
  obtain rfl := Except.ok.inj ha'
  obtain ⟨o, ho, h⟩ := bind_eq_ok.1 h
  have ho := Cache.ofWrite_eq_ok ho
  have hhashes : Hashes d algorithm e ↔ o.value = some e.hash := by
    constructor
    · rintro ⟨a', o', ha', ho', hhash⟩
      obtain rfl := Option.some.inj (ha.symm.trans ha')
      obtain rfl := Except.ok.inj (ho.symm.trans ho')
      exact hhash
    · exact fun hhash => ⟨a, o, ha, ho, hhash⟩
  obtain rfl := Except.ok.inj h
  split
  · next hhash => exact .empty (hhashes.2 hhash)
  · next hhash => exact .error _ _ fun hp => hhash (hhashes.1 hp)

/-- The bytes of an entry that passes: one with the hash of its graph, or an envelope around null. -/
def PassesAsEntry (d : Digester) (algorithm : String) (content : ByteArray) : Prop :=
  Cache.Envelops d algorithm content .null ∨ ∃ e,
    Encloses d algorithm CacheEntry.read CacheEntry.schemaVersion content e ∧ Hashes d algorithm e

/-- The bytes of a symbol table that passes. -/
def PassesAsTable (d : Digester) (algorithm : String) (content : ByteArray) : Prop :=
  Cache.Envelops d algorithm content .null ∨ ∃ t,
    Encloses d algorithm SymbolTable.read SymbolTable.schemaVersion content t

theorem decides_entry (hread : v.read path = .ok content)
    (h : checkEntry d v algorithm path = .ok r) : r.Decides (PassesAsEntry d algorithm content) := by
  obtain ⟨⟨x, r₀⟩, henvelope, h⟩ := bind_eq_ok.1 h
  obtain ⟨hdecides, ⟨rfl, hnone⟩ | ⟨e, a, rfl, ha, hnull, honly⟩⟩ := decides_checkEnvelope hread henvelope
  · obtain rfl := Except.ok.inj h
    refine hdecides.congr (or_congr_right ⟨?_, ?_⟩)
    · rintro ⟨e, he⟩
      exact absurd he (hnone e)
    · rintro ⟨e, he, -⟩
      exact absurd he (hnone e)
  · obtain ⟨r₁, hhash, h⟩ := bind_eq_ok.1 h
    obtain rfl := Except.ok.inj h
    refine (hdecides.append (decides_checkHash ha hhash)).congr ⟨?_, ?_⟩
    · rintro ⟨hp | ⟨e', he⟩, hhashes⟩
      · exact absurd hp hnull
      · exact .inr ⟨e', he, (honly e' he).symm ▸ hhashes⟩
    · rintro (hp | ⟨e', he, hhashes⟩)
      · exact absurd hp hnull
      · exact ⟨.inr ⟨e', he⟩, honly e' he ▸ hhashes⟩

/-- A file is read, and its bytes pass. -/
def ReadsAs (v : Volume) (path : Path) (passes : ByteArray → Prop) : Prop :=
  ∃ content, v.read path = .ok content ∧ passes content

theorem readsAs_iff {passes : ByteArray → Prop} (hread : v.read path = .ok content) :
    ReadsAs v path passes ↔ passes content := by
  simp [ReadsAs, hread]

theorem decides_checkEnvelope_refused {e : Refusal} (passes : ByteArray → Prop)
    (hread : v.read path = .error e.val)
    (h : checkEnvelope d v algorithm artifact path read version = .ok (x, r)) :
    x = none ∧ r.Decides (ReadsAs v path passes) := by
  have hnone : ¬ ReadsAs v path passes := by simp [ReadsAs, hread]
  have hpayload : ∃ detail, Cache.readEnvelope d algorithm v path = .ok (Cache.corrupted path detail) := by
    rw [Cache.readEnvelope, hread]
    split
    · next heq => exact absurd (Except.error.inj heq) e.property.2
    · exact ⟨_, rfl⟩
    · next heq => cases heq
  obtain ⟨detail, hpayload⟩ := hpayload
  rw [checkEnvelope, hpayload] at h
  obtain ⟨rfl, rfl⟩ := Prod.mk.inj (Except.ok.inj h)
  exact ⟨rfl, .error _ _ hnone⟩

theorem decides_checkEntry (hfile : v.isFile path) (h : checkEntry d v algorithm path = .ok r) :
    r.Decides (ReadsAs v path (PassesAsEntry d algorithm)) := by
  rcases Volume.read_of_isFile hfile with ⟨content, hread⟩ | ⟨e, hread⟩
  · exact (decides_entry hread h).congr (readsAs_iff hread).symm
  · obtain ⟨⟨x, r₀⟩, henvelope, h⟩ := bind_eq_ok.1 h
    obtain ⟨rfl, hdecides⟩ := decides_checkEnvelope_refused (PassesAsEntry d algorithm) hread henvelope
    exact Except.ok.inj h ▸ hdecides

theorem decides_checkTable (hfile : v.isFile path) (h : checkTable d v algorithm path = .ok r) :
    r.Decides (ReadsAs v path (PassesAsTable d algorithm)) := by
  obtain ⟨⟨x, r₀⟩, henvelope, h⟩ := bind_eq_ok.1 h
  obtain rfl := Except.ok.inj h
  rcases Volume.read_of_isFile hfile with ⟨content, hread⟩ | ⟨e, hread⟩
  · exact (decides_checkEnvelope hread henvelope).1.congr
      (readsAs_iff hread : ReadsAs v path (PassesAsTable d algorithm) ↔ _).symm
  · exact (decides_checkEnvelope_refused _ hread henvelope).2

/-! ## Families -/

/-- Every document of a family can be read and passes. -/
def FamilyPasses (v : Volume) (root : Path) (kind : CacheKind) (passes : ByteArray → Prop) : Prop :=
  ∀ name ∈ v.list (Cache.directory root kind), Cache.isEntryFilename name →
    v.isFile ((Cache.directory root kind).child name) →
      ReadsAs v ((Cache.directory root kind).child name) passes

/-- Nothing but files with the names of entries is in the directory of a family. -/
def FamilyPure (v : Volume) (root : Path) (kind : CacheKind) : Prop :=
  ∀ name ∈ v.list (Cache.directory root kind),
    v.isFile ((Cache.directory root kind).child name) ∧ Cache.isEntryFilename name

theorem mem_documents {kind : CacheKind} {p : Path} : p ∈ (documents v root kind).1 ↔
    ∃ name ∈ v.list (Cache.directory root kind), p = (Cache.directory root kind).child name ∧
      v.isFile p ∧ Cache.isEntryFilename name := by
  simp only [documents, List.mem_filter, List.mem_map, Bool.and_eq_true]
  constructor
  · rintro ⟨⟨name, hname, rfl⟩, hfile, hentry⟩
    exact ⟨name, hname, rfl, hfile, by rwa [FileAction.name_child] at hentry⟩
  · rintro ⟨name, hname, rfl, hfile, hentry⟩
    exact ⟨⟨name, hname, rfl⟩, hfile, by rwa [FileAction.name_child]⟩

theorem errors_documents (kind : CacheKind) : (documents v root kind).2.errors = [] := by
  rw [documents, errors_all, List.flatMap_map, List.flatMap_eq_nil_iff]
  intro p _
  rfl

theorem warnings_documents {kind : CacheKind} :
    (documents v root kind).2.warnings = [] ↔ FamilyPure v root kind := by
  rw [documents, warnings_all, List.flatMap_map, List.flatMap_eq_nil_iff]
  constructor
  · intro h name hname
    by_contra hout
    have hmem : (Cache.directory root kind).child name ∈
        ((v.list (Cache.directory root kind)).map (Cache.directory root kind).child).filter
          fun p => !(v.isFile p && Cache.isEntryFilename p.name) := by
      refine List.mem_filter.2 ⟨List.mem_map_of_mem hname, ?_⟩
      rw [FileAction.name_child, Bool.not_eq_true', ← Bool.not_eq_true, Bool.and_eq_true]
      exact hout
    exact List.cons_ne_nil _ _ (h _ hmem)
  · intro h p hp
    obtain ⟨hp, hout⟩ := List.mem_filter.1 hp
    obtain ⟨name, hname, rfl⟩ := List.mem_map.1 hp
    obtain ⟨hfile, hentry⟩ := h name hname
    simp [FileAction.name_child, hfile, hentry] at hout

variable {kind : CacheKind} {check : Path → Attempt ValidationResult} {passes : ByteArray → Prop}

theorem mem_of_mapM {β γ : Type} {f : β → Attempt γ} {xs : List β} {ys : List γ}
    (h : xs.mapM f = .ok ys) :
    (∀ x ∈ xs, ∃ y ∈ ys, f x = .ok y) ∧ ∀ y ∈ ys, ∃ x ∈ xs, f x = .ok y := by
  induction xs generalizing ys with
  | nil =>
    obtain rfl : [] = ys := Except.ok.inj h
    simp
  | cons x xs ih =>
    rw [List.mapM_cons] at h
    obtain ⟨y, hy, h⟩ := bind_eq_ok.1 h
    obtain ⟨zs, hzs, h⟩ := bind_eq_ok.1 h
    obtain rfl := Except.ok.inj h
    obtain ⟨hleft, hright⟩ := ih hzs
    constructor
    · rintro z (_ | ⟨_, hz⟩)
      · exact ⟨y, List.mem_cons_self, hy⟩
      · obtain ⟨u, hu, huz⟩ := hleft z hz
        exact ⟨u, List.mem_cons_of_mem y hu, huz⟩
    · rintro z (_ | ⟨_, hz⟩)
      · exact ⟨x, List.mem_cons_self, hy⟩
      · obtain ⟨u, hu, huz⟩ := hright z hz
        exact ⟨u, List.mem_cons_of_mem x hu, huz⟩

/-- The check of a family, by the check of its documents. -/
theorem decides_checkFamily
    (hcheck : ∀ path r, v.isFile path → check path = .ok r → r.Decides (ReadsAs v path passes))
    (h : checkFamily v root kind check = .ok r) :
    (r.errors = [] ↔ FamilyPasses v root kind passes) ∧
      (r.warnings = [] ↔ FamilyPure v root kind) := by
  obtain ⟨rs, hrs, h⟩ := bind_eq_ok.1 h
  obtain rfl : (documents v root kind).2 ++ all rs = r := Except.ok.inj h
  obtain ⟨hchecked, hresult⟩ := mem_of_mapM (show (documents v root kind).1.mapM check = .ok rs from hrs)
  have hdecides {r : ValidationResult} (hr : r ∈ rs) : ∃ name ∈ v.list (Cache.directory root kind),
      Cache.isEntryFilename name ∧ v.isFile ((Cache.directory root kind).child name) ∧
        r.Decides (ReadsAs v ((Cache.directory root kind).child name) passes) := by
    obtain ⟨p, hp, hcheckp⟩ := hresult r hr
    obtain ⟨name, hname, rfl, hfile, hentry⟩ := mem_documents.1 hp
    exact ⟨name, hname, hentry, hfile, hcheck _ _ hfile hcheckp⟩
  constructor
  · rw [errors_append, errors_documents, List.nil_append, errors_all, List.flatMap_eq_nil_iff]
    constructor
    · intro hclean name hname hentry hfile
      obtain ⟨r, hr, hcheckr⟩ := hchecked _ (mem_documents.2 ⟨name, hname, rfl, hfile, hentry⟩)
      exact (hcheck _ r hfile hcheckr).errors.1 (hclean r hr)
    · intro hpasses r hr
      obtain ⟨name, hname, hentry, hfile, hr⟩ := hdecides hr
      exact hr.errors.2 (hpasses name hname hentry hfile)
  · have hquiet : (all rs).warnings = [] := by
      rw [warnings_all, List.flatMap_eq_nil_iff]
      intro r hr
      obtain ⟨_, _, _, _, hr⟩ := hdecides hr
      exact hr.quiet
    rw [warnings_append, hquiet, List.append_nil, warnings_documents]

theorem decides_checkDirectories : (checkDirectories v root).Decides
    (∀ kind, v.isDirectory (Cache.directory root kind)) := by
  constructor
  · rw [checkDirectories, warnings_all, List.flatMap_map, List.flatMap_eq_nil_iff]
    intro kind _
    dsimp only
    split <;> rfl
  · rw [checkDirectories, errors_all, List.flatMap_map, List.flatMap_eq_nil_iff]
    constructor
    · intro h kind
      by_contra hmissing
      have herror := h kind (by cases kind <;> simp [CacheKind.all])
      rw [if_neg hmissing] at herror
      exact List.cons_ne_nil _ _ herror
    · intro h kind _
      rw [if_pos (h kind)]

end Validation

/-! ## Caches -/

/-- What is true of a cache with this index and this summary when no error is found. -/
structure Conforms (d : Digester) (v : Volume) (root : Path) (i : RepositoryIndex) (m : Manifest) :
    Prop where
  directories : ∀ kind, v.isDirectory (Cache.directory root kind)
  index : Documents v (root / Cache.indexFile) RepositoryIndex.read RepositoryIndex.schemaVersion i
  manifest : Documents v (root / Cache.manifestFile) Manifest.read Manifest.schemaVersion m
  entries : FamilyPasses v root .ir (PassesAsEntry d i.algorithm)
  tables : FamilyPasses v root .symbols (PassesAsTable d i.algorithm)

section Parts

variable (v root)

def indexChecked : Option RepositoryIndex × ValidationResult :=
  checkDocument v CacheKind.index.name (root / Cache.indexFile) RepositoryIndex.read
    RepositoryIndex.schemaVersion

def manifestChecked : Option Manifest × ValidationResult :=
  checkDocument v CacheKind.manifests.name (root / Cache.manifestFile) Manifest.read
    Manifest.schemaVersion

def indexAlgorithm : String :=
  match (indexChecked v root).1 with
  | some i => i.algorithm
  | none => Algorithm.sha256.name

end Parts

theorem indexAlgorithm_eq {i : RepositoryIndex} (h : Documents v (root / Cache.indexFile)
    RepositoryIndex.read RepositoryIndex.schemaVersion i) : indexAlgorithm v root = i.algorithm := by
  rw [indexAlgorithm, indexChecked, checkDocument_of_documents h]

theorem isPresent_of_isDirectory (h : v.isDirectory root) : v.isPresent root := by
  unfold Volume.isDirectory at h
  unfold Volume.isPresent
  cases hfind : v.find root with
  | error e => simp [hfind] at h
  | ok p => rfl

theorem validateCache_eq_ok (hroot : v.isDirectory root) : validateCache d v root = .ok r ↔
    ∃ entries tables,
      checkFamily v root .ir (checkEntry d v (indexAlgorithm v root)) = .ok entries ∧
      checkFamily v root .symbols (checkTable d v (indexAlgorithm v root)) = .ok tables ∧
      checkDirectories v root ++ (indexChecked v root).2 ++ (manifestChecked v root).2 ++ entries ++
        tables = r := by
  have hparts : validateCache d v root = (do
      let entries ← checkFamily v root .ir (checkEntry d v (indexAlgorithm v root))
      let tables ← checkFamily v root .symbols (checkTable d v (indexAlgorithm v root))
      return checkDirectories v root ++ (indexChecked v root).2 ++ (manifestChecked v root).2 ++
        entries ++ tables) := by
    rw [validateCache, isPresent_of_isDirectory hroot, hroot]
    rfl
  rw [hparts, bind_eq_ok]
  constructor
  · rintro ⟨entries, hentries, h⟩
    obtain ⟨tables, htables, h⟩ := bind_eq_ok.1 h
    exact ⟨entries, tables, hentries, htables, Except.ok.inj h⟩
  · rintro ⟨entries, tables, hentries, htables, rfl⟩
    exact ⟨entries, hentries, bind_eq_ok.2 ⟨tables, htables, rfl⟩⟩

theorem validateCache_of_not_directory (hroot : ¬ v.isDirectory root)
    (h : validateCache d v root = .ok r) : r.errors ≠ [] := by
  rw [validateCache, Bool.eq_false_iff.2 hroot] at h
  split at h <;> rw [← Except.ok.inj h] <;> exact List.cons_ne_nil _ _

/-- Validation finds no error exactly in a cache that conforms to the contract. -/
theorem validateCache_errors (h : validateCache d v root = .ok r) :
    r.errors = [] ↔ v.isDirectory root ∧ ∃ i m, Conforms d v root i m := by
  by_cases hroot : v.isDirectory root
  · obtain ⟨entries, tables, hentries, htables, rfl⟩ := (validateCache_eq_ok hroot).1 h
    have hentries := (decides_checkFamily (fun _ _ => decides_checkEntry) hentries).1
    have htables := (decides_checkFamily (fun _ _ => decides_checkTable) htables).1
    simp only [errors_append, List.append_eq_nil_iff, decides_checkDirectories.errors, indexChecked,
      manifestChecked, decides_checkDocument.errors, hentries, htables, hroot, true_and]
    constructor
    · rintro ⟨⟨⟨⟨hdirectories, i, hi⟩, m, hm⟩, hentries⟩, htables⟩
      rw [indexAlgorithm_eq hi] at hentries htables
      exact ⟨i, m, hdirectories, hi, hm, hentries, htables⟩
    · rintro ⟨i, m, h⟩
      rw [indexAlgorithm_eq h.index]
      exact ⟨⟨⟨⟨h.directories, i, h.index⟩, m, h.manifest⟩, h.entries⟩, h.tables⟩
  · constructor
    · exact fun hclean => absurd hclean (validateCache_of_not_directory hroot h)
    · exact fun hconforms => absurd hconforms.1 hroot

/-- Validation finds nothing to warn of exactly if every file is a document. -/
theorem validateCache_warnings (hroot : v.isDirectory root) (h : validateCache d v root = .ok r) :
    r.warnings = [] ↔ FamilyPure v root .ir ∧ FamilyPure v root .symbols := by
  obtain ⟨entries, tables, hentries, htables, rfl⟩ := (validateCache_eq_ok hroot).1 h
  have hentries := (decides_checkFamily (fun _ _ => decides_checkEntry) hentries).2
  have htables := (decides_checkFamily (fun _ _ => decides_checkTable) htables).2
  simp only [warnings_append, List.append_eq_nil_iff, decides_checkDirectories.quiet, indexChecked,
    manifestChecked, decides_checkDocument.quiet, hentries, htables, true_and]

/-! ## Caches that pass -/

namespace Validation

theorem exists_checkEnvelope {read : Datum → Checked α} {version : α → Int} {payload : Datum}
    (hread : v.read path = .ok content) (h : Cache.Envelops d algorithm content payload) :
    ∃ p, checkEnvelope d v algorithm artifact path read version = .ok p := by
  rw [checkEnvelope, Cache.exists_readEnvelope hread h]
  cases payload <;> exact ⟨_, rfl⟩

theorem exists_checkEntry (hread : v.read path = .ok content) (h : PassesAsEntry d algorithm content) :
    ∃ r, checkEntry d v algorithm path = .ok r := by
  obtain ⟨payload, hp⟩ : ∃ payload, Cache.Envelops d algorithm content payload := by
    rcases h with hp | ⟨e, ⟨payload, -, hp, -⟩, -⟩ <;> exact ⟨_, hp⟩
  refine exists_bind (exists_checkEnvelope hread hp) ?_
  rintro ⟨x, r⟩ hx
  cases x with
  | none => exact ⟨r, rfl⟩
  | some e =>
    obtain ⟨-, ⟨hnone, -⟩ | ⟨e', a, he, ha, hnull, honly⟩⟩ := decides_checkEnvelope hread hx
    · cases hnone
    · obtain rfl := Option.some.inj he
      obtain ⟨e', he', a', o, ha', ho, -⟩ := h.resolve_left hnull
      obtain rfl := honly e' he'
      have hhash : ∃ r, checkHash d algorithm path e' = .ok r := by
        rw [checkHash, choose_of_ofName? ha']
        exact exists_bind ⟨a', rfl⟩ fun x hx => exists_bind
          ⟨o, by rw [← Except.ok.inj hx, ho]; rfl⟩ fun _ _ => ⟨_, rfl⟩
      exact exists_bind hhash fun _ _ => ⟨_, rfl⟩

theorem exists_checkTable (hread : v.read path = .ok content) (h : PassesAsTable d algorithm content) :
    ∃ r, checkTable d v algorithm path = .ok r := by
  obtain ⟨payload, hp⟩ : ∃ payload, Cache.Envelops d algorithm content payload := by
    rcases h with hp | ⟨t, payload, -, hp, -⟩ <;> exact ⟨_, hp⟩
  exact exists_bind (exists_checkEnvelope hread hp) fun _ _ => ⟨_, rfl⟩

theorem exists_checkFamily {kind : CacheKind} {check : Path → Attempt ValidationResult}
    {passes : ByteArray → Prop}
    (hcheck : ∀ path content, v.read path = .ok content → passes content → ∃ r, check path = .ok r)
    (h : FamilyPasses v root kind passes) : ∃ r, checkFamily v root kind check = .ok r := by
  refine exists_bind (exists_mapM fun p hp => ?_) fun _ _ => ⟨_, rfl⟩
  obtain ⟨name, hname, rfl, hfile, hentry⟩ :=
    mem_documents.1 (show p ∈ (documents v root kind).1 from hp)
  obtain ⟨content, hread, hpasses⟩ := h name hname hentry hfile
  exact hcheck _ content hread hpasses

end Validation

theorem exists_validateCache {i : RepositoryIndex} {m : Manifest} (hroot : v.isDirectory root)
    (h : Conforms d v root i m) : ∃ r, validateCache d v root = .ok r := by
  obtain ⟨entries, he⟩ := exists_checkFamily (fun _ _ => exists_checkEntry) h.entries
  obtain ⟨tables, ht⟩ := exists_checkFamily (fun _ _ => exists_checkTable) h.tables
  rw [← indexAlgorithm_eq h.index] at he ht
  exact ⟨_, (validateCache_eq_ok hroot).2 ⟨entries, tables, he, ht, rfl⟩⟩

/-- Validation ends without an error exactly in a cache that conforms to the contract. -/
theorem validateCache_clean_iff : (∃ r, validateCache d v root = .ok r ∧ r.errors = []) ↔
    v.isDirectory root ∧ ∃ i m, Conforms d v root i m := by
  constructor
  · rintro ⟨r, hr, hclean⟩
    exact (validateCache_errors hr).1 hclean
  · rintro ⟨hroot, i, m, h⟩
    obtain ⟨r, hr⟩ := exists_validateCache hroot h
    exact ⟨r, hr, (validateCache_errors hr).2 ⟨hroot, i, m, h⟩⟩

/-- A cache that conforms to the contract and holds nothing else is accepted. -/
theorem validateCache_of_conforms {i : RepositoryIndex} {m : Manifest} (hroot : v.isDirectory root)
    (h : Conforms d v root i m) (hentries : FamilyPure v root .ir)
    (htables : FamilyPure v root .symbols) : validateCache d v root = .ok {} := by
  obtain ⟨r, hr⟩ := exists_validateCache hroot h
  have herrors := (validateCache_errors hr).2 ⟨hroot, i, m, h⟩
  have hwarnings := (validateCache_warnings hroot hr).2 ⟨hentries, htables⟩
  obtain ⟨errors, warnings⟩ := r
  obtain rfl : errors = [] := herrors
  obtain rfl : warnings = [] := hwarnings
  exact hr

end TypeAtlas
