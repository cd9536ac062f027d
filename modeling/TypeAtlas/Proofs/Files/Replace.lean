import Mathlib.Data.Nat.Notation
import TypeAtlas.Proofs.Files.Runs

/-! # Replacing files

Making directories changes no file. Once the directories are made, replacing a file gives it its new
content and changes nothing else; if that fails, the volume is as it was, and the temporary file is gone.
-/

namespace TypeAtlas

namespace Volume

variable {v v' : Volume} {l m : Location} {e : FileEntry} {content : ByteArray}

/-- The content of the file at a location, if there is one. -/
def file? (v : Volume) (l : Location) : Option ByteArray :=
  match v.at? l with
  | some (.file content) => some content
  | _ => none

/-- The volume with an entry at a location. -/
def put (v : Volume) (l : Location) (e : FileEntry) : Volume :=
  { v with entries := v.entries.insert l e }

/-- The volume without what is at a location. -/
def drop (v : Volume) (l : Location) : Volume := { v with entries := v.entries.erase l }

theorem ne_nil_of_absent (h : v.at? l = none) : l ≠ [] := by
  rintro rfl
  simp [at?] at h

theorem ne_nil_of_not_directory (h : v.at? l ≠ some .directory) : l ≠ [] := by
  rintro rfl
  exact h rfl

theorem at?_put_self (hl : l ≠ []) : (v.put l e).at? l = some e := by
  simp [at?, put, hl]

theorem at?_put_of_ne (h : m ≠ l) : (v.put l e).at? m = v.at? m := by
  have hc : ¬ l = m := fun hlm => h hlm.symm
  simp [at?, put, Std.ExtTreeMap.getElem?_insert, hc]

theorem at?_drop_self (hl : l ≠ []) : (v.drop l).at? l = none := by
  simp [at?, drop, hl]

theorem at?_drop_of_ne (h : m ≠ l) : (v.drop l).at? m = v.at? m := by
  have hc : ¬ l = m := fun hlm => h hlm.symm
  simp [at?, drop, Std.ExtTreeMap.getElem?_erase, hc]

theorem put_put {f : FileEntry} : (v.put l e).put l f = v.put l f := by
  have hentries : (v.entries.insert l e).insert l f = v.entries.insert l f := by
    apply Std.ExtTreeMap.ext_getElem?
    intro m
    rw [Std.ExtTreeMap.getElem?_insert, Std.ExtTreeMap.getElem?_insert, Std.ExtTreeMap.getElem?_insert]
    grind
  exact congrArg (fun entries => { v with entries }) hentries

theorem drop_put (hl : v.at? l = none) : (v.put l e).drop l = v := by
  have hnone : v.entries[l]? = none := by simpa [at?, ne_nil_of_absent hl] using hl
  have hentries : (v.entries.insert l e).erase l = v.entries := by
    apply Std.ExtTreeMap.ext_getElem?
    intro m
    rw [Std.ExtTreeMap.getElem?_erase, Std.ExtTreeMap.getElem?_insert]
    grind
  exact congrArg (fun entries => { v with entries }) hentries

theorem file?_congr (h : v'.at? l = v.at? l) : v'.file? l = v.file? l := by
  rw [file?, file?, h]

theorem file?_eq_none_of_absent (h : v.at? l = none) : v.file? l = none := by
  rw [file?, h]

theorem file?_put_self (hl : l ≠ []) : (v.put l (.file content)).file? l = some content := by
  rw [file?, at?_put_self hl]

/-- A path to a place where there is at most a file leads there as well once a file or directory is put
there. -/
theorem walk_put {links : ℕ} {at_ : Location} {segments : List String}
    (h : v.walk false links at_ segments = .ok l) (hl : ∀ f, v.at? l = some f → ∃ c, f = .file c)
    (he : ∀ target, e ≠ .link target) (throughLast : Bool) :
    (v.put l e).walk throughLast links at_ segments = .ok l := by
  have hkeep {m : Location} {f : FileEntry} (hf : v.at? m = some f) (hfile : ∀ c, f ≠ .file c) :
      (v.put l e).at? m = some f := by
    rw [at?_put_of_ne, hf]
    rintro rfl
    obtain ⟨c, hc⟩ := hl f hf
    exact hfile c hc
  have hself : (v.put l e).at? l = some e := by
    apply at?_put_self
    rintro rfl
    obtain ⟨c, hc⟩ := hl .directory rfl
    cases hc
  -- At its end the path meets what was put, which it has no link to follow from.
  have hend {links : ℕ} {at_ : Location} {segment : String} (hup : ¬ segment = "..")
      (hnext : at_ ++ [segment] = l) : (v.put l e).walk throughLast links at_ [segment] = .ok l := by
    subst hnext
    cases e with
    | directory => simp only [walk, if_neg hup, hself]
    | file content =>
      simp only [walk, if_neg hup, hself]
      rfl
    | link target => exact absurd rfl (he target)
  fun_induction walk v false links at_ segments with
  | case1 links at_ =>
    rw [walk]
    exact h
  | case2 links at_ rest ih =>
    rw [walk, if_pos rfl]
    exact ih h
  | case3 links at_ segment rest hup next hnext ih =>
    have hnext : (v.put l e).at? (at_ ++ [segment]) = some .directory := hkeep hnext (by simp)
    simp only [walk, if_neg hup, hnext]
    exact ih h
  | case4 links at_ segment rest hup next target hnext hlast =>
    obtain rfl := Except.ok.inj h
    obtain ⟨c, hc⟩ := hl _ hnext
    cases hc
  | case5 => cases h
  | case6 at_ segment rest hup next target hnext hlast links ih =>
    have hlast : rest.isEmpty = false := by simpa using hlast
    have hnext : (v.put l e).at? (at_ ++ [segment]) = some (.link target) := hkeep hnext (by simp)
    simp only [walk, if_neg hup, hnext, hlast]
    exact ih h
  | case7 links at_ segment rest hup next content' hnext hlast =>
    obtain rfl := List.isEmpty_iff.1 hlast
    exact hend hup (Except.ok.inj h)
  | case8 => cases h
  | case9 links at_ segment rest hup next hnext hlast =>
    obtain rfl := List.isEmpty_iff.1 hlast
    exact hend hup (Except.ok.inj h)
  | case10 => cases h

/-- A file that is put where nothing was is in no path's way, unless the path leads to it. -/
theorem walk_of_put {links : ℕ} {at_ : Location} {segments : List String} {k : Location}
    (hl : v.at? l = none) (h : (v.put l (.file content)).walk false links at_ segments = .ok k) :
    v.walk false links at_ segments = .ok k := by
  have hkept {m : Location} {f : FileEntry} (hf : (v.put l (.file content)).at? m = some f)
      (hfile : ∀ c, f ≠ .file c) : v.at? m = some f := by
    rwa [at?_put_of_ne] at hf
    rintro rfl
    rw [at?_put_self (ne_nil_of_absent hl)] at hf
    exact hfile content (Option.some.inj hf).symm
  fun_induction walk (v.put l (.file content)) false links at_ segments with
  | case1 links at_ =>
    rw [walk]
    exact h
  | case2 links at_ rest ih =>
    rw [walk, if_pos rfl]
    exact ih h
  | case3 links at_ segment rest hup next hnext ih =>
    have hnext : v.at? (at_ ++ [segment]) = some .directory := hkept hnext (by simp)
    simp only [walk, if_neg hup, hnext]
    exact ih h
  | case4 links at_ segment rest hup next target hnext hlast =>
    have hnext : v.at? (at_ ++ [segment]) = some (.link target) := hkept hnext (by simp)
    simp only [walk, if_neg hup, hnext, hlast]
    exact h
  | case5 => cases h
  | case6 at_ segment rest hup next target hnext hlast links ih =>
    have hnext : v.at? (at_ ++ [segment]) = some (.link target) := hkept hnext (by simp)
    simp only [walk, if_neg hup, hnext, hlast]
    exact ih h
  | case7 links at_ segment rest hup next content' hnext hlast =>
    -- The file that the path ends with may be the new one.
    obtain rfl := Except.ok.inj h
    obtain rfl := List.isEmpty_iff.1 hlast
    by_cases hnew : next = l
    · have hnone : v.at? (at_ ++ [segment]) = none := by rw [← hl, ← hnew]
      simp only [walk, if_neg hup, hnone]
      rfl
    · have hold : v.at? (at_ ++ [segment]) = some (.file content') := by
        rw [← hnext, at?_put_of_ne hnew]
      simp only [walk, if_neg hup, hold]
      rfl
  | case8 => cases h
  | case9 links at_ segment rest hup next hnext hlast =>
    have hnone : v.at? (at_ ++ [segment]) = none := by
      rwa [at?_put_of_ne] at hnext
      rintro hnew
      rw [hnew, at?_put_self (ne_nil_of_absent hl)] at hnext
      cases hnext
    simp only [walk, if_neg hup, hnone, hlast]
    exact h
  | case10 => cases h

def Removable (v : Volume) : Prop := ∀ l, v.refusal .removeFile l = none

theorem Removable.congr (hv : v.Removable) (h : v'.refusal = v.refusal) : v'.Removable :=
  fun l => h ▸ hv l

/-- Where something that is to be changed is, if it can be anywhere. -/
def placed (v : Volume) (p : Path) : Except FileError Location :=
  if p.hasNull then .error .nullCharacter else v.locateItself p

theorem placed_eq_ok {p : Path} : v.placed p = .ok l ↔ p.hasNull = false ∧ v.locateItself p = .ok l := by
  unfold placed
  split
  · next h => simp [h]
  · next h => simp [h]

theorem placed_of_hasNull {p : Path} (h : p.hasNull) : v.placed p = .error .nullCharacter := if_pos h

end Volume

namespace FileAction

open Volume

variable {α β : Type} {v v' : Volume} {p : Path} {content : ByteArray}

/-! ## Single steps -/

section Steps

variable {l : Location} {e : FileEntry} {step : FileStep} {r : Except FileError Unit}

theorem runs_ask {f : Volume → Except FileError α} {r : Except FileError α} :
    Runs (ask f) v r v' ↔ r = f v ∧ v' = v := by
  rw [ask, runs_get_bind]
  cases f v with
  | ok a => exact runs_pure
  | error e => exact runs_throw

theorem runs_look {f : Volume → α} {r : Except FileError α} :
    Runs (look f) v r v' ↔ r = .ok (f v) ∧ v' = v :=
  runs_pure (x := f v)

theorem runs_checkName : Runs (checkName p) v r v' ↔
    r = (if p.hasNull then .error .nullCharacter else .ok ⟨⟩) ∧ v' = v := by
  unfold checkName
  split
  · exact runs_throw
  · exact runs_pure

theorem runs_place {r : Except FileError Location} :
    Runs (place p) v r v' ↔ r = v.placed p ∧ v' = v := by
  unfold place checkName placed
  split
  · exact runs_throw_bind
  · exact runs_ask

theorem runs_put : Runs (put l e) v r v' ↔ r = .ok ⟨⟩ ∧ v' = v.put l e := runs_modify

theorem runs_drop : Runs (drop l) v r v' ↔ r = .ok ⟨⟩ ∧ v' = v.drop l := runs_modify

theorem runs_permit : Runs (permit step l) v r v' ↔
    r = (match v.refusal step l with
      | some e => .error e.val
      | none => .ok ⟨⟩) ∧ v' = v := by
  rw [permit, runs_get_bind]
  cases v.refusal step l with
  | some e => exact runs_throw
  | none => exact runs_pure

theorem runs_permit_put (h : Runs (permit step l >>= fun _ => put l e) v r v') :
    (∃ f : Refusal, r = .error f.val ∧ v' = v) ∨ (r = .ok ⟨⟩ ∧ v' = v.put l e) := by
  rw [permit, bind_assoc, runs_get_bind] at h
  cases hf : v.refusal step l with
  | some f =>
    rw [hf] at h
    exact .inl ⟨f, runs_throw_bind.1 h⟩
  | none =>
    rw [hf] at h
    exact .inr (runs_put.1 h)

theorem runs_caught {a : FileAction α} {q : Except FileError (Except FileError α)} :
    Runs (caught a) v q v' ↔ (∃ x, Runs a v (.ok x) v' ∧ q = .ok (.ok x)) ∨
      ∃ e, Runs a v (.error e) v' ∧ q = (if e.isSystem then .ok (.error e) else .error e) := by
  rw [caught, runs_tryCatch]
  constructor
  · rintro (⟨x, h, rfl⟩ | ⟨e, v₁, h, hcatch⟩)
    · obtain ⟨y, hy, rfl⟩ := runs_map_ok.1 h
      exact .inl ⟨y, hy, rfl⟩
    · right
      refine ⟨e, ?_⟩
      split at hcatch
      · next he =>
        obtain ⟨rfl, rfl⟩ := runs_pure.1 hcatch
        exact ⟨runs_map_error.1 h, by rw [if_pos he]⟩
      · next he =>
        obtain ⟨rfl, rfl⟩ := runs_throw.1 hcatch
        exact ⟨runs_map_error.1 h, by rw [if_neg he]⟩
  · rintro (⟨x, h, rfl⟩ | ⟨e, h, rfl⟩)
    · exact .inl ⟨_, runs_map_ok.2 ⟨x, h, rfl⟩, rfl⟩
    · refine .inr ⟨e, v', runs_map_error.2 h, ?_⟩
      split
      · exact runs_pure.2 ⟨rfl, rfl⟩
      · exact runs_throw.2 ⟨rfl, rfl⟩

theorem runs_caught_ok {a : FileAction α} {x : α} (h : Runs a v (.ok x) v') :
    Runs (caught a) v (.ok (.ok x)) v' :=
  runs_caught.2 (.inl ⟨x, h, rfl⟩)

theorem keeps_caught {γ : Type} {view : Volume → γ} {a : FileAction α} (h : Keeps view a) :
    Keeps view (caught a) := by
  intro v q v' hq
  rcases runs_caught.1 hq with ⟨x, hx, -⟩ | ⟨e, he, -⟩
  · exact h _ _ _ hx
  · exact h _ _ _ he

end Steps

/-! ## Directories -/

section Directories

variable {γ : Type} {view : Volume → γ}

theorem keeps_look (f : Volume → α) : Keeps view (look f) := by
  intro v r v' h
  rw [(runs_look.1 h).2]

variable (hview : ∀ v l, v.at? l = none → view (v.put l .directory) = view v)

include hview

theorem keeps_makeDirectory (p : Path) : Keeps view (makeDirectory p) := by
  intro v r v' h
  rw [makeDirectory, runs_bind] at h
  rcases h with ⟨l, v₁, hl, h⟩ | ⟨e, he, -⟩
  · obtain ⟨-, rfl⟩ := runs_place.1 hl
    rw [runs_get_bind] at h
    split at h
    · rw [(runs_throw_bind.1 h).2]
    · next habsent =>
      rcases runs_permit_put h with ⟨e, -, rfl⟩ | ⟨-, rfl⟩
      · rfl
      · exact hview v₁ l (by simpa using habsent)
  · rw [(runs_place.1 he).2]

theorem keeps_ensureDirectory (p : Path) : Keeps view (ensureDirectory p) := by
  rw [ensureDirectory]
  refine (((keeps_makeDirectory hview p).bind fun _ => keeps_pure _).tryCatch fun e =>
    (keeps_look _).bind fun b => ?_).bind fun x => ?_
  · split
    · exact keeps_pure (α := Except Unit Unit) (.error ⟨⟩)
    · exact (keeps_throw e).bind fun _ => keeps_pure _
  · cases x <;> exact keeps_pure _

theorem keeps_ensureDirectories_of (p : Path) : Keeps view (ensureDirectories p) := by
  fun_induction ensureDirectories p with
  | case1 p ih =>
    refine (keeps_ensureDirectory hview p).tryCatch fun e => ?_
    split
    · next hmore => exact (ih e hmore).bind fun _ => keeps_ensureDirectory hview p
    · exact keeps_throw _

end Directories

theorem keeps_ensureDirectories (p : Path) : Keeps file? (ensureDirectories p) := by
  refine keeps_ensureDirectories_of (fun v l hl => funext fun m => ?_) p
  by_cases hm : m = l
  · subst hm
    rw [file?_eq_none_of_absent hl, file?, at?_put_self (ne_nil_of_absent hl)]
  · exact file?_congr (at?_put_of_ne hm)

theorem keeps_refusal_ensureDirectories (p : Path) : Keeps Volume.refusal (ensureDirectories p) :=
  keeps_ensureDirectories_of (fun _ _ _ => rfl) p

/-! ## Replacing -/

theorem runs_create {r : Except FileError Unit} (h : Runs (create p) v r v') :
    (∃ e, r = .error e ∧ v' = v) ∨ ∃ l, r = .ok ⟨⟩ ∧ v.placed p = .ok l ∧ v.at? l = none ∧
      v' = v.put l (.file ByteArray.empty) := by
  rw [create, runs_bind] at h
  rcases h with ⟨l, v₁, hl, h⟩ | ⟨e, he, rfl⟩
  · obtain ⟨hl, rfl⟩ := runs_place.1 hl
    rw [runs_get_bind] at h
    split at h
    · obtain ⟨rfl, rfl⟩ := runs_throw_bind.1 h
      exact .inl ⟨_, rfl, rfl⟩
    · next habsent =>
      rcases runs_permit_put h with ⟨e, rfl, rfl⟩ | ⟨rfl, rfl⟩
      · exact .inl ⟨_, rfl, rfl⟩
      · exact .inr ⟨l, rfl, hl.symm, by simpa using habsent, rfl⟩
  · exact .inl ⟨e, rfl, (runs_place.1 he).2⟩

variable {l : Location} {c : ByteArray} {r : Except FileError Unit}

theorem runs_write (hp : v.locate p = .ok l) (hl : v.at? l = some (.file c))
    (h : Runs (write p content) v r v') :
    (∃ e, r = .error e ∧ v' = v) ∨ (r = .ok ⟨⟩ ∧ v' = v.put l (.file content)) := by
  rw [write, runs_bind] at h
  rcases h with ⟨_, v₁, hname, h⟩ | ⟨e, hname, rfl⟩
  · obtain ⟨-, rfl⟩ := runs_checkName.1 hname
    rw [runs_bind] at h
    rcases h with ⟨k, v₂, hk, h⟩ | ⟨e, he, rfl⟩
    · obtain ⟨hk, rfl⟩ := runs_ask.1 hk
      obtain rfl := Except.ok.inj (hk.trans hp)
      rw [runs_get_bind, hl] at h
      rcases runs_permit_put h with ⟨e, rfl, rfl⟩ | ⟨rfl, rfl⟩
      · exact .inl ⟨_, rfl, rfl⟩
      · exact .inr ⟨rfl, rfl⟩
    · exact .inl ⟨e, rfl, (runs_ask.1 he).2⟩
  · exact .inl ⟨e, rfl, (runs_checkName.1 hname).2⟩

theorem runs_remove (hp : v.placed p = .ok l) (hl : v.at? l = some (.file c))
    (h : Runs (remove p) v r v') : (r = .ok ⟨⟩ ∧ v' = v.drop l) ∨
      ∃ e, v.refusal .removeFile l = some e ∧ r = .error e.val ∧ v' = v := by
  rw [remove, runs_ok_bind (runs_place.2 ⟨hp.symm, rfl⟩), runs_get_bind, hl, permit, bind_assoc,
    runs_get_bind] at h
  cases he : v.refusal .removeFile l with
  | some e =>
    rw [he] at h
    exact .inr ⟨e, rfl, runs_throw_bind.1 h⟩
  | none =>
    rw [he] at h
    exact .inl (runs_drop.1 h)

theorem runs_discard (hp : v.placed p = .ok l) (hl : v.at? l = some (.file c))
    (h : Runs (discard p) v r v') : (r = .ok ⟨⟩ ∧ v' = v.drop l) ∨
      ∃ e, v.refusal .removeFile l = some e ∧ r = .error e.val ∧ v' = v := by
  rw [discard, runs_tryCatch] at h
  rcases h with ⟨_, hremove, rfl⟩ | ⟨e, v₁, hremove, hcatch⟩
  · rcases runs_remove hp hl hremove with ⟨-, rfl⟩ | ⟨e, -, he, -⟩
    · exact .inl ⟨rfl, rfl⟩
    · cases he
  · rcases runs_remove hp hl hremove with ⟨hok, -⟩ | ⟨f, hf, he, rfl⟩
    · cases hok
    · obtain rfl := Except.error.inj he
      rw [if_neg f.property.2] at hcatch
      obtain ⟨rfl, rfl⟩ := runs_throw.1 hcatch
      exact .inr ⟨f, hf, rfl, rfl⟩

theorem runs_rename {q : Path} (hp : v.placed p = .ok l) (hl : v.at? l = some (.file c))
    (h : Runs (rename p q) v r v') :
    (∃ e, r = .error e ∧ v' = v) ∨ ∃ k, r = .ok ⟨⟩ ∧ v.placed q = .ok k ∧
      v.at? k ≠ some .directory ∧ v' = (v.drop l).put k (.file c) := by
  rw [rename, runs_ok_bind (runs_place.2 ⟨hp.symm, rfl⟩), runs_bind] at h
  rcases h with ⟨k, v₂, hk, h⟩ | ⟨e, he, rfl⟩
  · obtain ⟨hk, rfl⟩ := runs_place.1 hk
    rw [runs_get_bind, runs_get_bind, hl] at h
    split at h
    · next hnone => cases hnone
    · obtain ⟨rfl, rfl⟩ := runs_throw.1 h
      exact .inl ⟨_, rfl, rfl⟩
    · next e he hdirectory =>
      obtain rfl := Option.some.inj he
      rw [runs_bind] at h
      rcases h with ⟨_, v₃, hpermit, h⟩ | ⟨e, hpermit, rfl⟩
      · obtain ⟨-, rfl⟩ := runs_permit.1 hpermit
        exact .inr ⟨k, (runs_put.1 h).1, hk.symm, hdirectory, (runs_put.1 h).2⟩
      · exact .inl ⟨e, rfl, (runs_permit.1 hpermit).2⟩
  · exact .inl ⟨e, rfl, (runs_place.1 he).2⟩

/-- A temporary file that was put where nothing was is filled and renamed, or stays. -/
theorem runs_complete {temporary : Path} (hl : v.at? l = none) (htemporary : v.placed temporary = .ok l)
    (h : Runs (complete temporary p content) (v.put l (.file c)) r v') :
    (∃ e c', r = .error e ∧ v' = v.put l (.file c')) ∨ ∃ k, r = .ok ⟨⟩ ∧ v.placed p = .ok k ∧
      v.at? k ≠ some .directory ∧ v' = v.put k (.file content) := by
  obtain ⟨hname, htemporary⟩ := placed_eq_ok.1 htemporary
  -- Up to the renaming, the temporary file is all that is new.
  have hleads (c : ByteArray) (throughLast : Bool) : (v.put l (.file c)).walk throughLast maxLinks
      ((v.put l (.file c)).start temporary) temporary.segments = .ok l :=
    walk_put htemporary (by simp [hl]) (by simp) throughLast
  have hhere (c : ByteArray) : (v.put l (.file c)).at? l = some (.file c) :=
    at?_put_self (ne_nil_of_absent hl)
  rw [complete, runs_bind] at h
  rcases h with ⟨_, w, hwrite, h⟩ | ⟨e, hwrite, rfl⟩
  · rcases runs_write (hleads c true) (hhere c) hwrite with ⟨e, he, -⟩ | ⟨-, rfl⟩
    · cases he
    rw [put_put] at h
    rcases runs_rename (placed_eq_ok.2 ⟨hname, hleads content false⟩) (hhere content) h with
      ⟨e, rfl, rfl⟩ | ⟨k, rfl, hk, hdirectory, rfl⟩
    · exact .inl ⟨e, content, rfl, rfl⟩
    · have hold : v.at? k ≠ some .directory := by
        by_cases hkl : k = l
        · simp [hkl, hl]
        · rwa [at?_put_of_ne hkl] at hdirectory
      rw [drop_put hl]
      obtain ⟨hp, hk⟩ := placed_eq_ok.1 hk
      exact .inr ⟨k, rfl, placed_eq_ok.2 ⟨hp, walk_of_put hl hk⟩, hold, rfl⟩
  · rcases runs_write (hleads c true) (hhere c) hwrite with ⟨_, -, rfl⟩ | ⟨hok, -⟩
    · exact .inl ⟨e, c, rfl, rfl⟩
    · cases hok

/-! ## Errors -/

/-- An error of the system, or one that tells a path that nothing can have. -/
def Names (p : Path) (e : FileError) : Prop := e.isSystem ∨ p.hasNull

theorem isSystem_of_walk {throughLast : Bool} {links : ℕ} {at_ : Location} {segments : List String}
    {e : FileError} (h : v.walk throughLast links at_ segments = .error e) : e.isSystem := by
  fun_induction walk v throughLast links at_ segments with
  | case1 => cases h
  | case2 _ _ _ ih => exact ih h
  | case3 _ _ _ _ _ _ _ ih => exact ih h
  | case4 => cases h
  | case5 => exact Except.error.inj h ▸ rfl
  | case6 _ _ _ _ _ _ _ _ _ ih => exact ih h
  | case7 => cases h
  | case8 => exact Except.error.inj h ▸ rfl
  | case9 => cases h
  | case10 => exact Except.error.inj h ▸ rfl

theorem failsWith_ask {F : FileError → Prop} {f : Volume → Except FileError α}
    (h : ∀ v e, f v = .error e → F e) : FailsWith F (ask f) :=
  fun v e _ hr => h v e (runs_ask.1 hr).1.symm

theorem failsWith_checkName (p : Path) : FailsWith (Names p) (checkName p) := by
  unfold checkName
  split
  · next hp => exact failsWith_throw (.inr hp)
  · exact failsWith_pure _

theorem failsWith_place (p : Path) : FailsWith (Names p) (place p) :=
  (failsWith_checkName p).bind fun _ => failsWith_ask fun _ _ h => .inl (isSystem_of_walk h)

theorem failsWith_permit {q : Path} (step : FileStep) (l : Location) :
    FailsWith (Names q) (permit step l) := by
  refine failsWith_get.bind fun v => ?_
  cases v.refusal step l with
  | some e => exact failsWith_throw (.inl e.property.1)
  | none => exact failsWith_pure _

theorem failsWith_makeDirectory (p : Path) : FailsWith (Names p) (makeDirectory p) := by
  refine (failsWith_place p).bind fun l => failsWith_get.bind fun v => ?_
  have hput : FailsWith (Names p) (do permit .makeDirectory l; put l .directory) :=
    (failsWith_permit _ l).bind fun _ => failsWith_modify _
  split
  · exact failsWith_throw (.inl rfl)
  · exact hput

theorem failsWith_ensureDirectory (p : Path) : FailsWith (Names p) (ensureDirectory p) := by
  rw [ensureDirectory]
  refine (((failsWith_makeDirectory p).bind fun _ => failsWith_pure _).tryCatch fun e he =>
    FailsWith.bind (fun _ _ _ h => by cases (runs_look.1 h).1) fun b => ?_).bind fun x => ?_
  · split
    · exact failsWith_pure (α := Except Unit Unit) (.error ⟨⟩)
    · exact (failsWith_throw he).bind fun _ => failsWith_pure _
  · cases x <;> exact failsWith_pure _

theorem hasNull_of_parent (h : p.parent.hasNull) : p.hasNull := by
  obtain ⟨s, hs, hnull⟩ := List.any_eq_true.1 h
  exact List.any_eq_true.2 ⟨s, List.dropLast_subset _ hs, hnull⟩

theorem Names.of_parent {e : FileError} (h : Names p.parent e) : Names p e :=
  h.imp_right hasNull_of_parent

theorem failsWith_ensureDirectories (p : Path) : FailsWith (Names p) (ensureDirectories p) := by
  fun_induction ensureDirectories p with
  | case1 p ih =>
    refine (failsWith_ensureDirectory p).tryCatch fun e he => ?_
    split
    · next hmore =>
      exact ((ih e hmore).mono fun _ => .of_parent).bind fun _ => failsWith_ensureDirectory p
    · exact failsWith_throw he

theorem hasNull_temporary (p : Path) (taken : List String) :
    (p.parent.child (temporaryName p.name taken)).hasNull = p.hasNull := by
  have hname (name : String) :
      (temporaryName name taken).toList.contains '\x00' = name.toList.contains '\x00' := by
    simp [temporaryName, String.toList_append]
  obtain ⟨anchor, segments⟩ := p
  simp only [Path.hasNull, Path.child, Path.parent, Path.name, List.any_append, List.any_cons,
    List.any_nil, Bool.or_false, hname]
  rcases List.eq_nil_or_concat segments with rfl | ⟨ss, s, rfl⟩
  · rfl
  · simp [List.any_append]

theorem failsWith_create (p : Path) : FailsWith (Names p) (create p) := by
  refine (failsWith_place p).bind fun l => failsWith_get.bind fun v => ?_
  have hput : FailsWith (Names p) (do permit .createFile l; put l (.file ByteArray.empty)) :=
    (failsWith_permit _ l).bind fun _ => failsWith_modify _
  split
  · exact failsWith_throw (.inl rfl)
  · exact hput

theorem failsWith_createBeside (p : Path) : FailsWith (Names p) (createBeside p) := by
  refine ((failsWith_ensureDirectories p.parent).mono fun _ => .of_parent).bind fun _ => ?_
  refine FailsWith.bind (fun _ _ _ h => by cases (runs_look.1 h).1) fun taken => ?_
  refine FailsWith.bind ?_ fun _ => failsWith_pure _
  exact (failsWith_create _).mono fun e he => he.imp_right fun h => hasNull_temporary p taken ▸ h

theorem eq_nullCharacter {e : FileError} (h : ¬ e.isSystem) : e = .nullCharacter := by
  revert h
  cases e <;> decide

/-! ## Replacing -/

def temporary (v : Volume) (p : Path) : Path := p.parent.child (temporaryName p.name (v.list p.parent))

/-- What comes of replacing a file once its directories are made: how it ends, and in which volume. -/
inductive Replaced (p : Path) (content : ByteArray) (u : Volume) :
    Except FileError (Except FileError Unit) → Volume → Prop
  | done {l : Location} (hl : u.placed p = .ok l) (hold : u.at? l ≠ some .directory) :
    Replaced p content u (.ok (.ok ⟨⟩)) (u.put l (.file content))
  | failed {e : FileError} (he : e.isSystem) : Replaced p content u (.ok (.error e)) u
  /-- Nothing can have the path. -/
  | misnamed (hp : p.hasNull) : Replaced p content u (.error .nullCharacter) u
  /-- The temporary file cannot be removed. -/
  | stranded {l : Location} {c : ByteArray} {e : Refusal} (hplace : u.placed (temporary u p) = .ok l)
    (hl : u.at? l = none) (he : u.refusal .removeFile l = some e) :
    Replaced p content u (.error e.val) (u.put l (.file c))

theorem runs_createBeside {q : Except FileError Path} (h : Runs (createBeside p) v q v') :
    ∃ s u, Runs (ensureDirectories p.parent) v s u ∧ ((∃ e, q = .error e ∧ v' = u) ∨
      ∃ l, q = .ok (temporary u p) ∧ p.hasNull = false ∧ u.placed (temporary u p) = .ok l ∧
        u.at? l = none ∧ v' = u.put l (.file ByteArray.empty)) := by
  rw [createBeside, runs_bind] at h
  rcases h with ⟨_, u, hmade, h⟩ | ⟨e, hmade, rfl⟩
  · refine ⟨_, u, hmade, ?_⟩
    rw [runs_ok_bind (runs_look.2 ⟨rfl, rfl⟩), runs_bind] at h
    rcases h with ⟨_, w, hcreate, h⟩ | ⟨e, hcreate, rfl⟩
    · obtain ⟨rfl, rfl⟩ := runs_pure.1 h
      rcases runs_create hcreate with ⟨e, he, -⟩ | ⟨l, -, hl, habsent, rfl⟩
      · cases he
      · have hname := (placed_eq_ok.1 hl).1
        rw [hasNull_temporary] at hname
        exact .inr ⟨l, rfl, hname, hl, habsent, rfl⟩
    · rcases runs_create hcreate with ⟨_, -, rfl⟩ | ⟨l, hl, -⟩
      · exact .inl ⟨e, rfl, rfl⟩
      · cases hl
  · exact ⟨_, v', hmade, .inl ⟨e, rfl, rfl⟩⟩

theorem failsWith_complete {temporary : Path} (hp : p.hasNull = false) (ht : temporary.hasNull = false) :
    FailsWith (fun e => e.isSystem) (complete temporary p content) := by
  have hsystem {q : Path} (hq : q.hasNull = false) (e : FileError) (h : Names q e) : e.isSystem :=
    h.resolve_right (by simp [hq])
  have hwrite : FailsWith (Names temporary) (write temporary content) := by
    refine (failsWith_checkName temporary).bind fun _ => FailsWith.bind (failsWith_ask fun _ _ h =>
      .inl (isSystem_of_walk h)) fun l => failsWith_get.bind fun v => ?_
    have hput (step : FileStep) : FailsWith (Names temporary)
        (do permit step l; put l (.file content)) :=
      (failsWith_permit step l).bind fun _ => failsWith_modify _
    split
    · exact failsWith_throw (.inl rfl)
    · exact hput _
    · exact hput _
  refine (hwrite.mono (hsystem ht)).bind fun _ => ?_
  refine ((failsWith_place temporary).mono (hsystem ht)).bind fun old => ?_
  refine ((failsWith_place p).mono (hsystem hp)).bind fun new => failsWith_get.bind fun v => ?_
  refine failsWith_get.bind fun w => ?_
  split
  · exact failsWith_throw rfl
  · exact failsWith_throw rfl
  · exact ((failsWith_permit .rename new).mono (hsystem hp)).bind fun _ =>
      (failsWith_modify _).bind fun _ => failsWith_modify _

/-- What has been begun with a temporary file is completed, or undone if the file can be removed. -/
theorem runs_settle {q : Except FileError (Except FileError Unit)} (hp : p.hasNull = false)
    (hl : v.at? l = none) (htemporary : v.placed (temporary v p) = .ok l)
    (h : Runs (do
      match ← caught (complete (temporary v p) p content) with
      | .ok _ => return .ok ⟨⟩
      | .error e =>
        discard (temporary v p)
        return .error e) (v.put l (.file c)) q v') : Replaced p content v q v' := by
  obtain ⟨hname, hleads⟩ := placed_eq_ok.1 htemporary
  have hsystem {e : FileError} {w : Volume}
      (h : Runs (complete (temporary v p) p content) (v.put l (.file c)) (.error e) w) : e.isSystem :=
    failsWith_complete hp hname _ _ _ h
  rw [runs_bind] at h
  rcases h with ⟨x, w, hcaught, h⟩ | ⟨e, hcaught, -⟩
  · rcases runs_caught.1 hcaught with ⟨_, hcomplete, hx⟩ | ⟨e, hcomplete, hx⟩
    · obtain rfl := Except.ok.inj hx
      obtain ⟨rfl, rfl⟩ := runs_pure.1 h
      rcases runs_complete hl htemporary hcomplete with ⟨e, _, he, -⟩ | ⟨k, -, hk, hold, rfl⟩
      · cases he
      · exact .done hk hold
    · rw [if_pos (hsystem hcomplete)] at hx
      obtain rfl := Except.ok.inj hx
      rcases runs_complete hl htemporary hcomplete with ⟨_, c', -, rfl⟩ | ⟨_, hok, -⟩
      · have hplaced : (v.put l (.file c')).placed (temporary v p) = .ok l :=
          placed_eq_ok.2 ⟨hname, walk_put hleads (by simp [hl]) (by simp) false⟩
        have hhere : (v.put l (.file c')).at? l = some (.file c') := at?_put_self (ne_nil_of_absent hl)
        rw [runs_bind] at h
        rcases h with ⟨_, w, hdiscard, h⟩ | ⟨f, hdiscard, rfl⟩
        · rcases runs_discard hplaced hhere hdiscard with ⟨-, rfl⟩ | ⟨_, -, hf, -⟩
          · obtain ⟨rfl, rfl⟩ := runs_pure.1 h
            rw [drop_put hl]
            exact .failed (hsystem hcomplete)
          · cases hf
        · rcases runs_discard hplaced hhere hdiscard with ⟨hok, -⟩ | ⟨g, hg, hf, rfl⟩
          · cases hok
          · obtain rfl := Except.error.inj hf
            exact .stranded htemporary hl hg
      · cases hok
  · rcases runs_caught.1 hcaught with ⟨_, -, hx⟩ | ⟨f, hcomplete, hx⟩
    · cases hx
    · rw [if_pos (hsystem hcomplete)] at hx
      cases hx

/-- Once its directories are made, replacing a file puts it where the path leads and changes nothing
else, or fails. A failure is without a change, unless the temporary file cannot be removed. -/
theorem runs_replace_made {q : Except FileError (Except FileError Unit)}
    (h : Runs (replace p content) v q v') :
    ∃ s u, Runs (ensureDirectories p.parent) v s u ∧ Replaced p content u q v' := by
  rw [replace, runs_bind] at h
  rcases h with ⟨begun, w, hbegun, h⟩ | ⟨e, hbegun, rfl⟩
  · rcases runs_caught.1 hbegun with ⟨t, hcreate, hq⟩ | ⟨e, hcreate, hq⟩
    · obtain rfl := Except.ok.inj hq
      obtain ⟨s, u, hmade, ⟨e, he, -⟩ | ⟨l, ht, hname, hl, habsent, rfl⟩⟩ := runs_createBeside hcreate
      · cases he
      · obtain rfl := Except.ok.inj ht
        exact ⟨s, u, hmade, runs_settle hname habsent hl h⟩
    · split at hq
      · next hsystem =>
        obtain rfl := Except.ok.inj hq
        obtain ⟨rfl, rfl⟩ := runs_pure.1 h
        obtain ⟨s, u, hmade, ⟨_, -, rfl⟩ | ⟨_, ht, -⟩⟩ := runs_createBeside hcreate
        · exact ⟨s, _, hmade, .failed hsystem⟩
        · cases ht
      · cases hq
  · rcases runs_caught.1 hbegun with ⟨_, -, hq⟩ | ⟨f, hcreate, hq⟩
    · cases hq
    · split at hq
      · cases hq
      · next hsystem =>
        obtain rfl := Except.error.inj hq
        have hnull := (failsWith_createBeside p _ _ _ hcreate).resolve_left hsystem
        obtain ⟨s, u, hmade, ⟨_, -, rfl⟩ | ⟨_, ht, -⟩⟩ := runs_createBeside hcreate
        · exact ⟨s, _, hmade, eq_nullCharacter hsystem ▸ .misnamed hnull⟩
        · cases ht

theorem keeps_refusal_replace (p : Path) (content : ByteArray) :
    Keeps Volume.refusal (replace p content) := by
  intro v q v' h
  obtain ⟨s, u, hmade, hreplaced⟩ := runs_replace_made h
  rw [← keeps_refusal_ensureDirectories _ _ _ _ hmade]
  cases hreplaced <;> rfl

/-- Where files can be removed, replacing one either fails and leaves every file as it was, or gives the
file its content and leaves every other one as it was. -/
theorem runs_replace {q : Except FileError (Except FileError Unit)} (hv : v.Removable)
    (h : Runs (replace p content) v q v') :
    ((∀ x, q ≠ .ok (.ok x)) ∧ v'.file? = v.file?) ∨
      ∃ k, q = .ok (.ok ⟨⟩) ∧ v'.file? k = some content ∧ ∀ m, m ≠ k → v'.file? m = v.file? m := by
  obtain ⟨s, u, hmade, hreplaced⟩ := runs_replace_made h
  rw [← keeps_ensureDirectories _ _ _ _ hmade]
  cases hreplaced with
  | @done l hl hold =>
    exact .inr ⟨l, rfl, file?_put_self (ne_nil_of_not_directory hold),
      fun m hm => file?_congr (at?_put_of_ne hm)⟩
  | failed => exact .inl ⟨by simp, rfl⟩
  | misnamed => exact .inl ⟨by simp, rfl⟩
  | @stranded l c e _ _ he =>
    rw [keeps_refusal_ensureDirectories _ _ _ _ hmade, hv l] at he
    cases he

end FileAction

end TypeAtlas
