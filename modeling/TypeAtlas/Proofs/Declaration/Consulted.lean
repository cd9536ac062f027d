import Mathlib.Algebra.Order.BigOperators.Group.List
import Mathlib.Data.List.Perm.Subperm
import TypeAtlas.Proofs.Cache.Undisturbed
import TypeAtlas.Repository.Index

/-! # Consulted sources

Looking names up reads files, and a file that was read counts as it was then. As long as the source files
stay as they are, no look-up changes what another one finds.
-/

namespace TypeAtlas

open Work

theorem TypeScript.ModuleSyntax.mem_of_declaration? {m : ModuleSyntax} {name : String} {d : DeclarationSyntax}
    (h : m.declaration? name = some d) : d ∈ m.declarations ∧ d.name = name :=
  ⟨List.mem_of_find?_eq_some h, by simpa using List.find?_some h⟩

namespace SourceTree

variable {t t' t'' : SourceTree} {key : DeclarationKey} {D : RecordDeclaration} {file : String}
  {fuel fuel' : ℕ} {seen : List DeclarationKey} {way : Trail}

/-! ## What names stand for -/

/-- A name stands for a declaration, which the file makes itself or imports. -/
inductive Stands (t : SourceTree) : DeclarationKey → RecordDeclaration → Prop
  | declared {key : DeclarationKey} {m : TypeScript.ModuleSyntax} {d : TypeScript.DeclarationSyntax}
      (hm : t.module key.file = .ok (some m)) (hd : m.declaration? key.name = some d) :
      Stands t key (t.record m key.file d)
  | imported {key : DeclarationKey} {m : TypeScript.ModuleSyntax} {i : TypeScript.ImportSyntax}
      {target : String} {D : RecordDeclaration} (hm : t.module key.file = .ok (some m))
      (hd : m.declaration? key.name = none) (hi : m.import? key.name = some i)
      (ht : t.resolveModule key.file i.module = some target) (h : Stands t ⟨target, i.exportedName⟩ D) :
      Stands t key D

theorem lookup_eq_some : t.lookup key = .ok (some D) ↔
    ∃ way, t.follow key = .ok way ∧ way.declaration = some D := by
  rw [lookup, bind_eq_ok]
  constructor
  · rintro ⟨way, hway, hD⟩
    exact ⟨way, hway, Except.ok.inj hD⟩
  · rintro ⟨way, hway, hD⟩
    exact ⟨way, hway, congrArg Except.ok hD⟩

/-- What a file imports under a name. -/
def importOf? (t : SourceTree) (m : TypeScript.ModuleSyntax) (key : DeclarationKey) :
    Option DeclarationKey := do
  let i ← m.import? key.name
  let target ← t.resolveModule key.file i.module
  return ⟨target, i.exportedName⟩

theorem importOf?_eq_some {m : TypeScript.ModuleSyntax} {next : DeclarationKey} :
    t.importOf? m key = some next ↔ ∃ i target, m.import? key.name = some i ∧
      t.resolveModule key.file i.module = some target ∧ next = ⟨target, i.exportedName⟩ := by
  simp only [importOf?, Option.bind_eq_bind, Option.bind_eq_some_iff, Option.pure_def, Option.some.injEq,
    eq_comm (b := next)]
  constructor
  · rintro ⟨i, hi, target, ht, rfl⟩
    exact ⟨i, target, hi, ht, rfl⟩
  · rintro ⟨i, target, hi, ht, rfl⟩
    exact ⟨i, hi, target, ht, rfl⟩

/-- A way that leads to a declaration ends in the file, or goes on with what this imports. -/
theorem trail_cases (h : t.trail (fuel + 1) seen key = .ok way) (hD : way.declaration = some D) :
    seen.contains key = false ∧ ∃ m, t.module key.file = .ok (some m) ∧
      ((∃ d, m.declaration? key.name = some d ∧
          way = { files := [key.file], declaration := some (t.record m key.file d) }) ∨
        m.declaration? key.name = none ∧ ∃ next further, t.importOf? m key = some next ∧
          t.trail fuel (key :: seen) next = .ok further ∧
            way = { further with files := key.file :: further.files }) := by
  rw [SourceTree.trail] at h
  split at h
  · obtain rfl := Except.ok.inj h
    cases hD
  · next hseen =>
    refine ⟨Bool.eq_false_iff.2 hseen, ?_⟩
    obtain ⟨m, hm, h⟩ := bind_eq_ok.1 h
    cases m with
    | none =>
      obtain rfl := Except.ok.inj h
      cases hD
    | some m =>
      refine ⟨m, hm, ?_⟩
      dsimp only at h
      split at h
      · next d hd => exact .inl ⟨d, hd, (Except.ok.inj h).symm⟩
      · next hd =>
        split at h
        · obtain rfl := Except.ok.inj h
          cases hD
        · next next hnext =>
          obtain ⟨further, hfurther, h⟩ := bind_eq_ok.1 h
          exact .inr ⟨hd, next, further, hnext, hfurther, (Except.ok.inj h).symm⟩

theorem trail_of_declared {m : TypeScript.ModuleSyntax} {d : TypeScript.DeclarationSyntax}
    (hseen : seen.contains key = false) (hm : t.module key.file = .ok (some m))
    (hd : m.declaration? key.name = some d) : t.trail (fuel + 1) seen key =
      .ok { files := [key.file], declaration := some (t.record m key.file d) } := by
  simp only [SourceTree.trail, hseen, hm, hd, Bool.false_eq_true, if_false, bind, Except.bind, pure, Except.pure]

theorem trail_of_imported {m : TypeScript.ModuleSyntax} {next : DeclarationKey} {further : Trail}
    (hseen : seen.contains key = false) (hm : t.module key.file = .ok (some m))
    (hd : m.declaration? key.name = none) (hnext : t.importOf? m key = some next)
    (hfurther : t.trail fuel (key :: seen) next = .ok further) :
    t.trail (fuel + 1) seen key = .ok { further with files := key.file :: further.files } := by
  obtain ⟨i, target, hi, ht, rfl⟩ := importOf?_eq_some.1 hnext
  simp only [SourceTree.trail, hseen, hm, hd, hi, ht, hfurther, Bool.false_eq_true, if_false, bind,
    Except.bind, pure, Except.pure, Option.bind]

theorem stands_of_trail (h : t.trail fuel seen key = .ok way) (hD : way.declaration = some D) :
    t.Stands key D := by
  induction fuel generalizing seen key way with
  | zero =>
    obtain rfl := Except.ok.inj h
    cases hD
  | succ fuel ih =>
    obtain ⟨-, m, hm, ⟨d, hd, rfl⟩ | ⟨hd, next, further, hnext, hfurther, rfl⟩⟩ := trail_cases h hD
    · obtain rfl := Option.some.inj hD
      exact .declared hm hd
    · obtain ⟨i, target, hi, ht, rfl⟩ := importOf?_eq_some.1 hnext
      exact .imported hm hd hi ht (ih hfurther hD)

/-- No way to a declaration is longer than what is followed. -/
def Patient (t : SourceTree) : Prop := ∀ key D, t.Stands key D → t.lookup key = .ok (some D)

theorem Patient.lookup_iff (ht : t.Patient) : t.lookup key = .ok (some D) ↔ t.Stands key D := by
  constructor
  · intro h
    obtain ⟨way, hway, hD⟩ := lookup_eq_some.1 h
    exact stands_of_trail hway hD
  · exact ht key D

/-! ## What files declare -/

def Declares (t : SourceTree) (file : String) (D : RecordDeclaration) : Prop :=
  ∃ m d, t.module file = .ok (some m) ∧ m.declaration? d.name = some d ∧ D = t.record m file d

theorem Declares.file_eq (h : t.Declares file D) : D.file = file := by
  obtain ⟨m, d, -, -, rfl⟩ := h
  rfl

theorem Declares.stands (h : t.Declares file D) : t.Stands ⟨file, D.name⟩ D := by
  obtain ⟨m, d, hm, hd, rfl⟩ := h
  exact .declared hm hd

theorem Declares.unique {E : RecordDeclaration} (h : t.Declares file D) (h' : t.Declares file E)
    (hname : D.name = E.name) :
    D = E := by
  obtain ⟨m, d, hm, hd, rfl⟩ := h
  obtain ⟨m', e, hm', he, rfl⟩ := h'
  obtain rfl := Option.some.inj (Except.ok.inj (hm.symm.trans hm'))
  have hname : d.name = e.name := hname
  obtain rfl := Option.some.inj (hd.symm.trans (hname ▸ he))
  rfl

theorem mem_names_iff {name : String} {names : List String} (h : t.names file = .ok names) :
    name ∈ names ↔ ∃ D, t.Declares file D ∧ D.name = name := by
  obtain ⟨m, hm, h⟩ := bind_eq_ok.1 h
  cases m with
  | none =>
    obtain rfl := Except.ok.inj h
    refine ⟨nofun, ?_⟩
    rintro ⟨D, ⟨m, d, hm', -, -⟩, -⟩
    cases hm.symm.trans hm'
  | some m =>
    obtain rfl := Except.ok.inj h
    simp only [List.mem_mergeSort, List.mem_eraseDups, List.mem_map]
    constructor
    · rintro ⟨d, hd, rfl⟩
      obtain ⟨d', hd'⟩ : ∃ d', m.declaration? d.name = some d' :=
        Option.isSome_iff_exists.1 (List.find?_isSome.2 ⟨d, hd, by simp⟩)
      have hname := (TypeScript.ModuleSyntax.mem_of_declaration? hd').2
      exact ⟨_, ⟨m, d', hm, hname ▸ hd', rfl⟩, hname⟩
    · rintro ⟨D, ⟨m', d, hm', hd, rfl⟩, rfl⟩
      obtain rfl := Option.some.inj (Except.ok.inj (hm.symm.trans hm'))
      exact ⟨d, (TypeScript.ModuleSyntax.mem_of_declaration? hd).1, rfl⟩

/-! ## Look-ups that end -/

theorem isSourceName_resolveModule {specifier target : String}
    (h : t.resolveModule file specifier = some target) :
    isSourceName target ∧ t.volume.isFile (t.path target) := by
  have hfound := List.find?_some h
  exact Bool.and_eq_true_iff.1 hfound

/-- Whatever source file there is can be decoded. -/
def Decodes (t : SourceTree) : Prop := ∀ file, isSourceName file → ∃ m, t.module file = .ok m

namespace Decodes

theorem exists_trail (ht : t.Decodes) (hkey : isSourceName key.file) (fuel : ℕ) (seen : List DeclarationKey) :
    ∃ way, t.trail fuel seen key = .ok way := by
  induction fuel generalizing seen key with
  | zero => exact ⟨_, rfl⟩
  | succ fuel ih =>
    rw [SourceTree.trail]
    split
    · exact ⟨_, rfl⟩
    · obtain ⟨m, hm⟩ := ht key.file hkey
      rw [hm]
      cases m with
      | none => exact ⟨_, rfl⟩
      | some m =>
        dsimp only [bind, Except.bind]
        split
        · exact ⟨_, rfl⟩
        · split
          · exact ⟨_, rfl⟩
          · next next hnext =>
            obtain ⟨i, target, -, htarget, rfl⟩ := importOf?_eq_some.1 hnext
            have hsource : isSourceName (DeclarationKey.mk target i.exportedName).file :=
              (isSourceName_resolveModule htarget).1
            obtain ⟨further, hfurther⟩ := ih hsource (key :: seen)
            rw [hfurther]
            exact ⟨_, rfl⟩

theorem exists_lookup (ht : t.Decodes) (hkey : isSourceName key.file) : ∃ d, t.lookup key = .ok d := by
  obtain ⟨way, hway⟩ := ht.exists_trail hkey t.patience []
  exact ⟨way.declaration, bind_eq_ok.2 ⟨way, hway, rfl⟩⟩

theorem exists_names (ht : t.Decodes) (hfile : isSourceName file) : ∃ names, t.names file = .ok names := by
  obtain ⟨m, hm⟩ := ht file hfile
  cases m with
  | none => exact ⟨_, bind_eq_ok.2 ⟨none, hm, rfl⟩⟩
  | some m => exact ⟨_, bind_eq_ok.2 ⟨some m, hm, rfl⟩⟩

end Decodes

/-! ## Trees that read alike -/

/-- The source files are the same, and ways may be as long. -/
structure Reads (t t' : SourceTree) : Prop where
  module : ∀ file, isSourceName file → t'.module file = t.module file
  resolve : ∀ file specifier, t'.resolveModule file specifier = t.resolveModule file specifier
  patience : t.patience ≤ t'.patience

namespace Reads

theorem record (h : Reads t t') : t'.record = t.record := by
  funext m file d
  simp only [SourceTree.record, h.resolve]

theorem importOf (h : Reads t t') : t'.importOf? = t.importOf? := by
  funext m key
  simp only [importOf?, h.resolve]

theorem trail (h : Reads t t') (hkey : isSourceName key.file) (hfuel : fuel ≤ fuel')
    (hway : t.trail fuel seen key = .ok way) (hD : way.declaration = some D) :
    t'.trail fuel' seen key = .ok way := by
  induction fuel generalizing fuel' seen key way with
  | zero =>
    obtain rfl := Except.ok.inj hway
    cases hD
  | succ fuel ih =>
    obtain ⟨fuel', rfl⟩ : ∃ n, fuel' = n + 1 := ⟨fuel' - 1, by omega⟩
    obtain ⟨hseen, m, hm, hcases⟩ := trail_cases hway hD
    rw [← h.module _ hkey] at hm
    rcases hcases with ⟨d, hd, rfl⟩ | ⟨hd, next, further, hnext, hfurther, rfl⟩
    · rw [trail_of_declared hseen hm hd, h.record]
    · refine trail_of_imported hseen hm hd (h.importOf ▸ hnext) (ih ?_ (by omega) hfurther hD)
      obtain ⟨i, target, -, ht, rfl⟩ := importOf?_eq_some.1 hnext
      exact (isSourceName_resolveModule ht).1

theorem decodes (h : Reads t t') (ht : t.Decodes) : t'.Decodes := by
  intro file hfile
  rw [h.module file hfile]
  exact ht file hfile

theorem stands (h : Reads t t') (hkey : isSourceName key.file) (hs : t'.Stands key D) : t.Stands key D := by
  induction hs with
  | declared hm hd =>
    rw [h.record]
    exact .declared ((h.module _ hkey).symm.trans hm) hd
  | imported hm hd hi ht _ ih =>
    rw [h.resolve] at ht
    exact .imported ((h.module _ hkey).symm.trans hm) hd hi ht (ih (isSourceName_resolveModule ht).1)

theorem lookup (h : Reads t t') (ht : t.Patient) (hkey : isSourceName key.file) :
    t'.lookup key = .ok (some D) ↔ t.lookup key = .ok (some D) := by
  rw [lookup_eq_some]
  constructor
  · rintro ⟨way, hway, hD⟩
    exact ht key D (h.stands hkey (stands_of_trail hway hD))
  · intro hlookup
    obtain ⟨way, hway, hD⟩ := lookup_eq_some.1 hlookup
    exact ⟨way, h.trail hkey h.patience hway hD, hD⟩

end Reads

/-! ## Reading files -/

/-- The same tree, of which some more files may have been read. -/
structure Rereads (t t' : SourceTree) : Prop where
  rest : t' = { t with pinned := t'.pinned }
  module : ∀ file, t'.module file = t.module file

namespace Rereads

theorem refl (t : SourceTree) : Rereads t t := ⟨rfl, fun _ => rfl⟩

theorem trans (h : Rereads t t') (h' : Rereads t' t'') : Rereads t t'' where
  rest := by
    rw [h'.rest, h.rest]
  module file := (h'.module file).trans (h.module file)

end Rereads

theorem rereads_pin (t : SourceTree) (file : String) : Rereads t (t.pin file) := by
  unfold pin
  split
  · exact .refl t
  · next hnew =>
    refine ⟨rfl, fun other => ?_⟩
    have hcurrent : ({ t with pinned := t.pinned.insert file (t.current file) } : SourceTree).current other =
        t.current other := rfl
    rw [module, module, hcurrent, Std.ExtTreeMap.getElem?_insert]
    split
    · next hsame =>
      obtain rfl := Std.LawfulEqCmp.eq_of_compare hsame
      have habsent : t.pinned[file]? = none := by simpa using hnew
      rw [habsent]
      rfl
    · rfl

theorem rereads_pinAll (files : List String) (t : SourceTree) : Rereads t (t.pinAll files).1 := by
  induction files generalizing t with
  | nil => exact .refl t
  | cons file files ih => exact (rereads_pin t file).trans (ih _)

theorem rereads_visit (t : SourceTree) (key : DeclarationKey) : Rereads t (t.visit key).1 := by
  unfold visit
  split
  · exact rereads_pin t key.file
  · next way _ =>
    have h := rereads_pinAll way.files t
    dsimp only
    split <;> exact h

theorem rereads_visitAll (events : List Resolution.Event) (t : SourceTree) :
    Rereads t (t.visitAll events).1 := by
  induction events generalizing t with
  | nil => exact .refl t
  | cons event events ih =>
    cases event with
    | asked key => exact (rereads_visit t key).trans (ih _)
    | entered name by_ => exact ih t

/-! ## Volumes -/

variable {root : Path} {v v' : Volume}

/-- What a file holds, or nothing if there is no such file or it may not be read. -/
def readingAt (v : Volume) (p : Path) : ModuleReading :=
  match v.read p with
  | .ok content => readModule content
  | .error _ => .ok none

def files (v : Volume) : List (Location × ByteArray) :=
  v.entries.toList.filterMap fun (l, e) => match e with
    | .file content => some (l, content)
    | _ => none

theorem mem_files {l : Location} {content : ByteArray} :
    (l, content) ∈ files v ↔ v.entries[l]? = some (.file content) := by
  rw [files, List.mem_filterMap, ← Std.ExtTreeMap.mem_toList_iff_getElem?_eq_some]
  constructor
  · rintro ⟨⟨m, e⟩, hmem, hfile⟩
    cases e <;> cases hfile
    exact hmem
  · exact fun h => ⟨_, h, rfl⟩

theorem distinct_files (v : Volume) : (files v).Pairwise fun a b => ¬ compare a.1 b.1 = .eq := by
  rw [files, List.pairwise_filterMap]
  refine Std.ExtTreeMap.distinct_keys_toList.imp ?_
  rintro ⟨a, e⟩ ⟨b, f⟩ hab x hx y hy
  cases e <;> cases hx
  cases f <;> cases hy
  exact hab

theorem nodup_files (v : Volume) : (files v).Nodup :=
  (distinct_files v).imp fun hab hsame => hab (by rw [hsame]; exact Std.ReflCmp.compare_self)

theorem modules_ofVolume (root : Path) {l : Location} {content : ByteArray} (h : v.at? l = some (.file content)) :
    ∃ reading, (ofVolume root v).modules[l]? = some reading ∧ reading.get = readModule content := by
  have hentry : v.entries[l]? = some (.file content) := by
    unfold Volume.at? at h
    split at h
    · cases h
    · exact h
  have hmodules : (ofVolume root v).modules =
      .ofList ((files v).map fun f => (f.1, Thunk.mk fun _ => readModule f.2)) := by
    rw [files, List.map_filterMap]
    change Std.ExtTreeMap.ofList (List.filterMap _ _) _ = _
    congr 2
    funext f
    obtain ⟨l, e⟩ := f
    cases e <;> rfl
  refine ⟨Thunk.mk fun _ => readModule content, ?_, rfl⟩
  rw [hmodules]
  refine Std.ExtTreeMap.getElem?_ofList_of_mem Std.ReflCmp.compare_self ?_ ?_
  · rw [List.pairwise_map]
    exact distinct_files v
  · exact List.mem_map_of_mem (mem_files.2 hentry)

theorem current_eq (hmodules : ∀ l content, t.volume.at? l = some (.file content) →
    ∃ reading, t.modules[l]? = some reading ∧ reading.get = readModule content) :
    t.current file = readingAt t.volume (t.path file) := by
  rw [current, readingAt, Volume.read]
  rcases hfind : t.volume.find (t.path file) with _ | ⟨l, _ | content | _⟩
  · rfl
  · rfl
  · obtain ⟨reading, hreading, hget⟩ := hmodules l content (Volume.find_eq_ok.1 hfind).2
    simp only [hreading, hget]
    cases hrefusal : t.volume.refusal .readFile l <;> simp [bind, Except.bind, hrefusal] <;> rfl
  · rfl

theorem current_ofVolume (pinned : Std.ExtTreeMap String ModuleReading) :
    ({ ofVolume root v with pinned } : SourceTree).current file = readingAt v (root / Path.ofString file) :=
  current_eq fun _ _ h => modules_ofVolume root h

theorem patience_ofVolume (root : Path) (v : Volume) :
    (ofVolume root v).patience = 1 + ((files v).map fun f => f.2.size).sum := by
  have hfold (fs : List (Location × FileEntry)) (n : ℕ) :
      fs.foldl (fun n (_, e) => match e with
        | .file content => n + content.size
        | _ => n) n = n + ((fs.filterMap fun (l, e) => match e with
          | .file content => some (l, content)
          | _ => none).map fun f => f.2.size).sum := by
    induction fs generalizing n with
    | nil => rfl
    | cons f fs ih =>
      obtain ⟨l, e⟩ := f
      cases e with
      | file content => simp [ih, Nat.add_assoc]
      | directory => simp [ih]
      | link target => simp [ih]
  exact hfold _ 1

/-- Where there are more files, longer ways are followed. -/
theorem patience_le (h : files v ⊆ files v') : (ofVolume root v).patience ≤ (ofVolume root v').patience := by
  obtain ⟨fs, hperm, hsub⟩ := (nodup_files v).subperm h
  rw [patience_ofVolume, patience_ofVolume, ← (hperm.map _).sum_eq]
  have hsum := (hsub.map fun f => f.2.size).sum_le_sum fun _ _ => Nat.zero_le _
  omega

end SourceTree

open SourceTree

/-! ## Workspaces -/

/-- A workspace finds the source files of a volume as they are there. -/
structure Sees (v : Volume) (root : Path) (w : Workspace) : Prop where
  alike : v.Alike w.volume
  files : SourceTree.files v ⊆ SourceTree.files w.volume
  pinned : ∀ file reading, isSourceName file → w.pinned[file]? = some reading →
    reading = readingAt v (root / Path.ofString file)

variable {v : Volume} {root : Path} {w w' : Workspace} {key : DeclarationKey} {file : String}

theorem readingAt_alike {v' : Volume} {p : Path} (h : v.Alike v') (hv : v.Unlinked) (hp : p.IsSource) :
    readingAt v' p = readingAt v p := by
  unfold readingAt
  cases hread : v.read p with
  | ok content => rw [(h.read_iff hv hp).2 hread]
  | error e =>
    cases hread' : v'.read p with
    | ok content => cases hread.symm.trans ((h.read_iff hv hp).1 hread')
    | error e' => rfl

namespace Sees

theorem initial (v : Volume) (root : Path) (w : Workspace) (hv : w.volume = v) (hpinned : w.pinned = ∅) :
    Sees v root w where
  alike := by
    rw [hv]
    exact ⟨rfl, rfl, fun _ _ _ _ => rfl, fun _ hm => absurd rfl hm⟩
  files := by rw [hv]; exact List.Subset.refl _
  pinned file reading _ h := by
    rw [hpinned] at h
    simp at h

/-- The sources do not change with the documents of a cache. -/
theorem of_kept {v₀ : Volume} {base : Location} {P : CacheKind → String → ByteArray → Prop}
    (h : Cache.Kept v₀ base (fun _ _ _ => False) v) (h' : Cache.Kept v₀ base P w.volume)
    (hP : ∀ kind name content, P kind name content → ¬ isSourceName name)
    (hv : v.entries[([] : Location)]? = none) (hpinned : ∀ file reading, isSourceName file →
      w.pinned[file]? = some reading → reading = readingAt v (root / Path.ofString file)) : Sees v root w where
  alike := h.alike h' (fun _ _ _ hfalse => hfalse.elim) hP
  files := by
    rintro ⟨l, content⟩ hmem
    have hentry := mem_files.1 hmem
    have hl : l ≠ [] := by
      rintro rfl
      cases hv.symm.trans hentry
    have hat {u : Volume} : u.at? l = u.entries[l]? := by
      unfold Volume.at?
      split
      · contradiction
      · rfl
    rw [← hat] at hentry
    have hold : v₀.at? l ≠ none := by
      intro hnone
      obtain ⟨kind, rfl | ⟨name, rfl⟩⟩ := h.only l hnone (by simp [hentry])
      · cases (h.directories kind).symm.trans hentry
      · obtain ⟨-, _, -, hfalse⟩ := h.documents kind name _ hentry
        exact hfalse
    rw [mem_files, ← hat, h'.grown.kept l hold, ← h.grown.kept l hold, hentry]
  pinned := hpinned

theorem reads (h : Sees v root w) (hv : v.Unlinked) : Reads (ofVolume root v) (w.sources root) where
  module file hfile := by
    have hp := (Path.isSource_ofString hfile).join (p := root)
    have hnow : (ofVolume root v).module file = readingAt v (root / Path.ofString file) :=
      current_ofVolume ∅
    have hcurrent : (w.sources root).current file = readingAt w.volume (root / Path.ofString file) :=
      current_ofVolume w.pinned
    rw [hnow, module, hcurrent, readingAt_alike h.alike hv hp]
    change (w.pinned[file]?).getD _ = _
    cases hreading : w.pinned[file]? with
    | none => rfl
    | some reading => exact h.pinned file reading hfile hreading
  resolve file specifier := by
    unfold resolveModule
    dsimp only
    congr 1
    funext candidate
    by_cases hname : isSourceName candidate
    · have hp := (Path.isSource_ofString hname).join (p := root)
      exact congrArg _ (h.alike.isFile_eq hv hp)
    · simp only [hname, Bool.false_and]
  patience := patience_le h.files

theorem rereads (h : Sees v root w) (hv : v.Unlinked) (hvolume : w'.volume = w.volume)
    (hr : Rereads (w.sources root) { w.sources root with pinned := w'.pinned }) : Sees v root w' where
  alike := hvolume ▸ h.alike
  files := hvolume ▸ h.files
  pinned file reading hfile hreading := by
    have hmodule := hr.module file
    rw [(h.reads hv).module file hfile, module] at hmodule
    change (w'.pinned[file]?).getD _ = (ofVolume root v).current file at hmodule
    rw [hreading] at hmodule
    exact hmodule.trans (current_ofVolume ∅)

theorem observe {events : List Resolution.Event} {r : Attempt Unit} {w₁ : Workspace} (h : Sees v root w)
    (hv : v.Unlinked) (hw₁ : w₁.volume = w.volume)
    (hruns : Runs (Work.observe (w.sources root) events) w₁ r w') :
    w'.volume = w.volume ∧ Sees v root w' := by
  have hvisited := rereads_visitAll events (w.sources root)
  unfold Work.observe at hruns
  rw [runs_modify_bind] at hruns
  obtain ⟨-, rfl⟩ := runs_modify.1 hruns
  rw [hvisited.rest] at hvisited
  exact ⟨hw₁, h.rereads hv hw₁ hvisited⟩

theorem runs_lookup {d : Option RecordDeclaration} (h : Sees v root w) (hv : v.Unlinked)
    (ht : (ofVolume root v).Patient) (hfile : isSourceName key.file)
    (hruns : Runs (Work.lookup root key) w (.ok d) w') :
    (∀ D, d = some D ↔ (ofVolume root v).lookup key = .ok (some D)) ∧ w'.volume = w.volume ∧
      Sees v root w' := by
  unfold Work.lookup at hruns
  rw [runs_get_bind] at hruns
  obtain ⟨_, w₁, hobserved, hfound⟩ := runs_bind_ok.1 hruns
  obtain ⟨hd, rfl⟩ := runs_lift.1 hfound
  refine ⟨fun D => ?_, h.observe hv rfl hobserved⟩
  rw [← (h.reads hv).lookup ht hfile, ← hd, Except.ok.injEq]

theorem succeeds_observe (t : SourceTree) (events : List Resolution.Event) :
    Succeeds (Work.observe t events) w fun _ _ => True := by
  unfold Work.observe
  exact succeeds_modify_bind ((runs_modify.2 ⟨rfl, rfl⟩).succeeds trivial)

theorem succeeds_lookup (h : Sees v root w) (hv : v.Unlinked) (hd : (ofVolume root v).Decodes)
    (hfile : isSourceName key.file) : Succeeds (Work.lookup root key) w fun _ _ => True := by
  obtain ⟨d, hfound⟩ := ((h.reads hv).decodes hd).exists_lookup hfile
  refine succeeds_get_bind ((succeeds_observe _ _).bind fun _ w₁ _ => ?_)
  exact (runs_lift.2 ⟨hfound.symm, rfl⟩).succeeds trivial

/-- Names that are looked up one after the other are found as if each came first. -/
theorem runs_lookups {names : List String} {found : List (Option RecordDeclaration)}
    (h : Sees v root w) (hv : v.Unlinked) (ht : (ofVolume root v).Patient) (hfile : isSourceName file)
    (hruns : Runs (names.mapM fun name => Work.lookup root ⟨file, name⟩) w (.ok found) w') :
    (∀ D, some D ∈ found ↔ ∃ name ∈ names, (ofVolume root v).lookup ⟨file, name⟩ = .ok (some D)) ∧
      w'.volume = w.volume ∧ Sees v root w' := by
  induction names generalizing w found with
  | nil =>
    obtain ⟨hfound, rfl⟩ := runs_pure.1 hruns
    obtain rfl := Except.ok.inj hfound
    exact ⟨by simp, rfl, h⟩
  | cons name names ih =>
    rw [List.mapM_cons] at hruns
    obtain ⟨first, w₁, hfirst, hmore⟩ := runs_bind_ok.1 hruns
    obtain ⟨rest, w₂, hrest, hdone⟩ := runs_bind_ok.1 hmore
    obtain ⟨hfound, rfl⟩ := runs_pure.1 hdone
    obtain rfl := Except.ok.inj hfound
    obtain ⟨hfirst, hvolume, h₁⟩ := h.runs_lookup hv ht hfile hfirst
    obtain ⟨hrest, hvolume', h'⟩ := ih h₁ hrest
    refine ⟨fun D => ?_, hvolume'.trans hvolume, h'⟩
    rw [List.mem_cons, hrest, eq_comm, hfirst]
    simp

theorem succeeds_lookups {names : List String} (h : Sees v root w) (hv : v.Unlinked)
    (ht : (ofVolume root v).Patient) (hd : (ofVolume root v).Decodes) (hfile : isSourceName file) :
    Succeeds (names.mapM fun name => Work.lookup root ⟨file, name⟩) w fun _ _ => True := by
  induction names generalizing w with
  | nil => exact succeeds_pure trivial
  | cons name names ih =>
    rw [List.mapM_cons]
    refine ((h.succeeds_lookup hv hd hfile).imp fun _ _ hfirst _ =>
      (h.runs_lookup hv ht hfile hfirst).2.2).bind fun _ _ h₁ => ?_
    exact (ih h₁).bind fun _ _ _ => succeeds_pure trivial

theorem succeeds_declaredNames (h : Sees v root w) (hv : v.Unlinked) (hd : (ofVolume root v).Decodes)
    (hfile : isSourceName file) : Succeeds (Work.declaredNames root file) w fun _ _ => True := by
  have hread := rereads_pinAll [file] (w.sources root)
  have hdecodes : ((w.sources root).pinAll [file]).1.Decodes := by
    intro other hother
    rw [hread.module]
    exact (h.reads hv).decodes hd other hother
  obtain ⟨names, hnames⟩ := hdecodes.exists_names hfile
  refine succeeds_get_bind (succeeds_modify_bind (succeeds_modify_bind ?_))
  exact (runs_lift.2 ⟨hnames.symm, rfl⟩).succeeds trivial

end Sees

/-- The targets of names are the declarations that these stand for in the file. -/
theorem Indexing.runs_targets {s : Indexing.Setting} {names keys : List String} (h : Sees v s.root w)
    (hv : v.Unlinked) (ht : (ofVolume s.root v).Patient) (hfile : isSourceName file)
    (hruns : Runs (Indexing.targets s file names) w (.ok keys) w') :
    (∀ key, key ∈ keys ↔ ∃ D : RecordDeclaration, key = symbolKey D.file D.name ∧
      ∃ name ∈ names, (ofVolume s.root v).lookup ⟨file, name⟩ = .ok (some D)) ∧
        w'.volume = w.volume ∧ Sees v s.root w' := by
  obtain ⟨found, w₁, hfound, hdone⟩ := runs_bind_ok.1 hruns
  obtain ⟨hkeys, rfl⟩ := runs_pure.1 hdone
  obtain rfl := Except.ok.inj hkeys
  obtain ⟨hfound, hrest⟩ := h.runs_lookups hv ht hfile hfound
  refine ⟨fun key => ?_, hrest⟩
  simp only [List.mem_filterMap, ← hfound]
  constructor
  · rintro ⟨_ | D, hD, hkey⟩
    · cases hkey
    · exact ⟨D, (Option.some.inj hkey).symm, hD⟩
  · rintro ⟨D, rfl, hD⟩
    exact ⟨some D, hD, rfl⟩

theorem Work.runs_declaredNames {names : List String} (h : Sees v root w) (hv : v.Unlinked)
    (hfile : isSourceName file) (hruns : Runs (Work.declaredNames root file) w (.ok names) w') :
    (ofVolume root v).names file = .ok names ∧ w'.volume = w.volume ∧ Sees v root w' := by
  unfold Work.declaredNames at hruns
  rw [runs_get_bind] at hruns
  dsimp only at hruns
  rw [runs_modify_bind, Work.log, runs_modify_bind] at hruns
  obtain ⟨hnames, rfl⟩ := runs_lift.1 hruns
  have hread := rereads_pinAll [file] (w.sources root)
  have hmodule := ((h.reads hv).module file hfile).symm.trans (hread.module file).symm
  refine ⟨?_, rfl, h.rereads hv rfl ?_⟩
  · rw [hnames, SourceTree.names, SourceTree.names, hmodule]
  · rw [hread.rest] at hread
    exact hread

end TypeAtlas
