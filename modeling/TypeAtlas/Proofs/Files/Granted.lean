import TypeAtlas.Proofs.Files.Replace
import TypeAtlas.Proofs.Run

/-! # File actions that succeed

On a volume that refuses nothing, a directory is made and a file is replaced wherever a path leads to
a directory that is there. Nothing else in the volume changes.
-/

namespace TypeAtlas

namespace Volume

variable {v v' : Volume} {l m base : Location} {e : FileEntry} {links : ℕ} {at_ : Location}
  {segments rest : List String} {throughLast : Bool} {name : String}

def Granted (v : Volume) : Prop := ∀ step l, step ≠ .readFile → v.refusal step l = none

/-- A volume with an entry at a location, where all else is the same. -/
structure Updated (v : Volume) (l : Location) (e : FileEntry) (v' : Volume) : Prop where
  here : v'.at? l = some e
  others : ∀ m, m ≠ l → v'.at? m = v.at? m
  start : v'.workingDirectory = v.workingDirectory
  refusal : v'.refusal = v.refusal

theorem updated_put (hl : l ≠ []) : Updated v l e (v.put l e) :=
  ⟨at?_put_self hl, fun _ hm => at?_put_of_ne hm, rfl, rfl⟩

theorem Updated.put (h : Updated v l e v') (hl : l ≠ []) (f : FileEntry) :
    Updated v l f (v'.put l f) :=
  ⟨at?_put_self hl, fun m hm => (at?_put_of_ne hm).trans (h.others m hm), h.start, h.refusal⟩

theorem Updated.moved (h : Updated v l e v') (hl : v.at? l = none) (hm : m ≠ []) :
    Updated v m e ((v'.drop l).put m e) := by
  refine ⟨at?_put_self hm, fun k hk => ?_, h.start, h.refusal⟩
  rw [at?_put_of_ne hk]
  by_cases hkl : k = l
  · rw [hkl, at?_drop_self (ne_nil_of_absent hl), hl]
  · rw [at?_drop_of_ne hkl, h.others k hkl]

theorem Granted.updated (hv : v.Granted) (h : Updated v l e v') : v'.Granted := by
  intro step m hstep
  rw [h.refusal]
  exact hv step m hstep

/-- A volume that has all that another one has, and refuses the same. -/
structure Grown (v v' : Volume) : Prop where
  kept : ∀ m, v.at? m ≠ none → v'.at? m = v.at? m
  start : v'.workingDirectory = v.workingDirectory
  refusal : v'.refusal = v.refusal

theorem Grown.refl (v : Volume) : Grown v v := ⟨fun _ _ => rfl, rfl, rfl⟩

theorem Updated.grown (h : Updated v l e v') (hl : v.at? l = none) : Grown v v' := by
  refine ⟨fun m hm => h.others m ?_, h.start, h.refusal⟩
  rintro rfl
  exact hm hl

/-! ## Paths -/

/-- What is there is found where it was. -/
theorem walk_of_grown (hv : Grown v v') (h : v.walk throughLast links at_ segments = .ok l)
    (hl : v.at? l ≠ none) : v'.walk throughLast links at_ segments = .ok l := by
  have hkeep {m : Location} {e : FileEntry} (he : v.at? m = some e) : v'.at? m = some e := by
    rw [hv.kept m (by simp [he]), he]
  fun_induction walk v throughLast links at_ segments with
  | case1 links at_ =>
    rw [walk]
    exact h
  | case2 links at_ rest ih =>
    rw [walk, if_pos rfl]
    exact ih h
  | case3 links at_ segment rest hup next hnext ih =>
    have hnext : v'.at? (at_ ++ [segment]) = some .directory := hkeep hnext
    simp only [walk, if_neg hup, hnext]
    exact ih h
  | case4 links at_ segment rest hup next target hnext hlast =>
    have hnext : v'.at? (at_ ++ [segment]) = some (.link target) := hkeep hnext
    simp only [walk, if_neg hup, hnext, hlast]
    exact h
  | case5 => cases h
  | case6 at_ segment rest hup next target hnext hlast links ih =>
    have hnext : v'.at? (at_ ++ [segment]) = some (.link target) := hkeep hnext
    simp only [walk, if_neg hup, hnext, hlast]
    exact ih h
  | case7 links at_ segment rest hup next content hnext hlast =>
    have hnext : v'.at? (at_ ++ [segment]) = some (.file content) := hkeep hnext
    simp only [walk, if_neg hup, hnext, hlast]
    exact h
  | case8 => cases h
  | case9 links at_ segment rest hup next hnext hlast =>
    obtain rfl := Except.ok.inj h
    exact absurd hnext hl
  | case10 => cases h

theorem find_eq_ok {p : Path} : v.find p = .ok (l, e) ↔ v.locate p = .ok l ∧ v.at? l = some e := by
  unfold find
  cases hl : v.locate p with
  | error f => simp [bind, Except.bind]
  | ok m =>
    cases he : v.at? m with
    | none =>
      simp only [bind, Except.bind, he]
      constructor
      · intro h
        cases h
      · rintro ⟨h, hat⟩
        obtain rfl := Except.ok.inj h
        cases he.symm.trans hat
    | some f =>
      simp only [bind, Except.bind, he, pure, Except.pure, Except.ok.injEq, Prod.mk.injEq]
      constructor
      · rintro ⟨rfl, rfl⟩
        exact ⟨rfl, he⟩
      · rintro ⟨rfl, h⟩
        exact ⟨rfl, Option.some.inj (he.symm.trans h)⟩

theorem read_eq_ok {p : Path} {content : ByteArray} : v.read p = .ok content ↔
    ∃ l, v.find p = .ok (l, .file content) ∧ v.refusal .readFile l = none := by
  unfold read
  cases hfind : v.find p with
  | error e => simp [bind, Except.bind]
  | ok found =>
    obtain ⟨l, _ | c | target⟩ := found
    · simp [bind, Except.bind, throw, throwThe, MonadExceptOf.throw]
    · cases hrefusal : v.refusal .readFile l with
      | none => simp [bind, Except.bind, pure, Except.pure, hrefusal, eq_comm]
      | some e => simp [bind, Except.bind, throw, throwThe, MonadExceptOf.throw, hrefusal, eq_comm]
    · simp [bind, Except.bind, throw, throwThe, MonadExceptOf.throw]

theorem isFile_iff_find {p : Path} : v.isFile p ↔ ∃ l content, v.find p = .ok (l, .file content) := by
  unfold isFile
  split
  · next l content hfind => simp [hfind]
  · next hother => simpa using fun l content => hother l content

theorem isFile_of_read {p : Path} {content : ByteArray} (h : v.read p = .ok content) : v.isFile p := by
  obtain ⟨l, hfind, -⟩ := read_eq_ok.1 h
  exact isFile_iff_find.2 ⟨l, content, hfind⟩

theorem read_of_isFile {p : Path} (h : v.isFile p) :
    (∃ content, v.read p = .ok content) ∨ ∃ e : Refusal, v.read p = .error e.val := by
  obtain ⟨l, content, hfind⟩ := isFile_iff_find.1 h
  cases hrefusal : v.refusal .readFile l with
  | none => exact .inl ⟨content, read_eq_ok.2 ⟨l, hfind, hrefusal⟩⟩
  | some e =>
    refine .inr ⟨e, ?_⟩
    simp [read, hfind, hrefusal, bind, Except.bind, throw, throwThe, MonadExceptOf.throw]

theorem find_of_grown {p : Path} (hv : Grown v v') (h : v.find p = .ok (l, e)) :
    v'.find p = .ok (l, e) := by
  obtain ⟨hl, he⟩ := find_eq_ok.1 h
  have hsome : v.at? l ≠ none := by simp [he]
  rw [find_eq_ok, locate, start, hv.start, hv.kept l hsome]
  exact ⟨walk_of_grown hv hl hsome, he⟩

theorem exists_walk_append (h : v.walk true links at_ segments = .ok base)
    (hb : v.at? base = some .directory) :
    ∃ links', ∀ throughLast rest, rest ≠ [] →
      v.walk throughLast links at_ (segments ++ rest) = v.walk throughLast links' base rest := by
  have hlast {rest below : List String} (h : below ≠ []) : (rest ++ below).isEmpty = false := by
    simp [h]
  fun_induction walk v true links at_ segments with
  | case1 links at_ =>
    obtain rfl := Except.ok.inj h
    exact ⟨links, fun _ _ _ => rfl⟩
  | case2 links at_ rest ih =>
    obtain ⟨links', ih⟩ := ih h
    refine ⟨links', fun throughLast below hbelow => ?_⟩
    rw [List.cons_append, walk, if_pos rfl, ih throughLast below hbelow]
  | case3 links at_ segment rest hup next hnext ih =>
    obtain ⟨links', ih⟩ := ih h
    have hnext : v.at? (at_ ++ [segment]) = some .directory := hnext
    refine ⟨links', fun throughLast below hbelow => ?_⟩
    simp only [List.cons_append, walk, if_neg hup, hnext]
    exact ih throughLast below hbelow
  | case4 links at_ segment rest hup next target hnext hthrough => simp at hthrough
  | case5 => cases h
  | case6 at_ segment rest hup next target hnext hthrough links ih =>
    obtain ⟨links', ih⟩ := ih h
    have hnext : v.at? (at_ ++ [segment]) = some (.link target) := hnext
    refine ⟨links', fun throughLast below hbelow => ?_⟩
    simp only [List.cons_append, walk, if_neg hup, hnext, hlast hbelow, Bool.false_and]
    rw [← List.append_assoc]
    exact ih throughLast below hbelow
  | case7 links at_ segment rest hup next content hnext =>
    obtain rfl := Except.ok.inj h
    cases hb.symm.trans hnext
  | case8 => cases h
  | case9 links at_ segment rest hup next hnext =>
    obtain rfl := Except.ok.inj h
    cases hb.symm.trans hnext
  | case10 => cases h

theorem walk_child {q : Path} (hq : v.find q = .ok (base, .directory)) (hname : name ≠ "..")
    (hfree : ∀ target, v.at? (base ++ [name]) ≠ some (.link target)) (throughLast : Bool) :
    v.walk throughLast maxLinks (v.start (q.child name)) (q.child name).segments =
      .ok (base ++ [name]) := by
  obtain ⟨hlocate, hbase⟩ := find_eq_ok.1 hq
  obtain ⟨links, hwalk⟩ := exists_walk_append hlocate hbase
  have hstart : v.start (q.child name) = v.start q := rfl
  rw [hstart, Path.child, hwalk throughLast [name] (by simp)]
  cases hat : v.at? (base ++ [name]) with
  | none => simp [walk, hname, hat]
  | some e =>
    cases e with
    | directory => simp [walk, hname, hat]
    | file content => simp [walk, hname, hat]
    | link target => exact absurd hat (hfree target)

theorem placed_child {q : Path} (hq : v.find q = .ok (base, .directory)) (hname : name ≠ "..")
    (hnull : (q.child name).hasNull = false)
    (hfree : ∀ target, v.at? (base ++ [name]) ≠ some (.link target)) :
    v.placed (q.child name) = .ok (base ++ [name]) :=
  placed_eq_ok.2 ⟨hnull, walk_child hq hname hfree false⟩

theorem find_child {q : Path} (hq : v.find q = .ok (base, .directory)) (hname : name ≠ "..")
    (he : v.at? (base ++ [name]) = some e) (hfree : ∀ target, e ≠ .link target) :
    v.find (q.child name) = .ok (base ++ [name], e) := by
  rw [find_eq_ok]
  refine ⟨walk_child hq hname (fun target h => ?_) true, he⟩
  exact hfree target (Option.some.inj (he.symm.trans h))

theorem find_start {p : Path} (hp : p.segments = []) (h : v.start p = []) : v.find p = .ok ([], .directory) :=
  find_eq_ok.2 ⟨by rw [locate, hp, h, walk], rfl⟩

/-- Nothing is found below a directory that is not there. -/
theorem find_below_absent {q : Path} {sub : String} (hq : v.find q = .ok (base, .directory))
    (hsub : sub ≠ "..") (habsent : v.at? (base ++ [sub]) = none) :
    v.find ((q.child sub).child name) = .error .notFound := by
  obtain ⟨hlocate, hbase⟩ := find_eq_ok.1 hq
  obtain ⟨links, hwalk⟩ := exists_walk_append hlocate hbase
  have hstart : v.start ((q.child sub).child name) = v.start q := rfl
  have hsegments : ((q.child sub).child name).segments = q.segments ++ [sub, name] := by
    simp [Path.child]
  have hnone : v.locate ((q.child sub).child name) = .error .notFound := by
    rw [locate, hstart, hsegments, hwalk true [sub, name] (by simp)]
    simp [walk, hsub, habsent]
  rw [find, hnone]
  rfl

theorem find_absent {q : Path} (hq : v.find q = .ok (base, .directory)) (hname : name ≠ "..")
    (habsent : v.at? (base ++ [name]) = none) : v.find (q.child name) = .error .notFound := by
  have hlocate : v.locate (q.child name) = .ok (base ++ [name]) :=
    walk_child hq hname (fun target h => by simp [habsent] at h) true
  rw [find, hlocate]
  simp [bind, Except.bind, habsent]
  rfl

end Volume

namespace FileAction

open Volume

variable {v v' : Volume} {l base : Location} {p q : Path} {name : String} {content c : ByteArray}

/-! ## Actions -/

theorem runs_permit_granted {step : FileStep} (hv : v.Granted) (hstep : step ≠ .readFile) (l : Location) :
    Runs (permit step l) v (.ok ⟨⟩) v := by
  rw [permit, runs_get_bind, hv step l hstep]
  exact runs_pure.2 ⟨rfl, rfl⟩

theorem runs_put_granted {step : FileStep} (hv : v.Granted) (hstep : step ≠ .readFile) (l : Location)
    (e : FileEntry) : Runs (permit step l >>= fun _ => put l e) v (.ok ⟨⟩) (v.put l e) :=
  runs_bind.2 (.inl ⟨⟨⟩, v, runs_permit_granted hv hstep l, runs_put.2 ⟨rfl, rfl⟩⟩)

theorem runs_place_bind {α : Type} {g : Location → FileAction α} {r : Except FileError α}
    (hl : v.placed p = .ok l) (h : Runs (g l) v r v') : Runs (place p >>= g) v r v' :=
  (runs_ok_bind (runs_place.2 ⟨hl.symm, rfl⟩)).2 h

theorem runs_makeDirectory_absent (hv : v.Granted) (hl : v.placed p = .ok l)
    (habsent : v.at? l = none) : Runs (makeDirectory p) v (.ok ⟨⟩) (v.put l .directory) := by
  apply runs_place_bind hl
  rw [runs_get_bind, habsent]
  exact runs_put_granted hv (by decide) l .directory

theorem runs_makeDirectory_present (hl : v.placed p = .ok l) (h : (v.at? l).isSome) :
    Runs (makeDirectory p) v (.error .exists_) v := by
  apply runs_place_bind hl
  rw [runs_get_bind, if_pos h]
  exact runs_throw_bind.2 ⟨rfl, rfl⟩

theorem runs_ensureDirectory_absent (hv : v.Granted) (hl : v.placed p = .ok l)
    (habsent : v.at? l = none) : Runs (ensureDirectory p) v (.ok ⟨⟩) (v.put l .directory) := by
  have hmade := runs_makeDirectory_absent hv hl habsent
  rw [ensureDirectory]
  refine runs_bind.2 (.inl ⟨.ok ⟨⟩, v.put l .directory,
    runs_tryCatch.2 (.inl ⟨.ok ⟨⟩, ?_, rfl⟩), ?_⟩)
  · exact runs_bind.2 (.inl ⟨_, _, hmade, runs_pure.2 ⟨rfl, rfl⟩⟩)
  · exact runs_pure.2 ⟨rfl, rfl⟩

theorem runs_ensureDirectory_present (hl : v.placed p = .ok l) (h : (v.at? l).isSome)
    (hp : v.isDirectory p) : Runs (ensureDirectory p) v (.ok ⟨⟩) v := by
  have hmade := runs_makeDirectory_present hl h
  rw [ensureDirectory]
  refine runs_bind.2 (.inl ⟨.error ⟨⟩, v, runs_tryCatch.2 (.inr ⟨.exists_, v, ?_, ?_⟩), ?_⟩)
  · exact runs_bind.2 (.inr ⟨_, hmade, rfl⟩)
  · refine runs_bind.2 (.inl ⟨_, v, runs_look.2 ⟨rfl, rfl⟩, ?_⟩)
    rw [hp]
    exact runs_pure.2 ⟨rfl, rfl⟩
  · exact runs_pure.2 ⟨rfl, rfl⟩

theorem runs_ensureDirectories {v'' : Volume} (h : Runs (ensureDirectory p) v (.ok ⟨⟩) v'') :
    Runs (ensureDirectories p) v (.ok ⟨⟩) v'' := by
  rw [ensureDirectories]
  exact runs_tryCatch.2 (.inl ⟨⟨⟩, h, rfl⟩)

theorem runs_write_granted (hv : v.Granted) (hnull : p.hasNull = false) (hp : v.locate p = .ok l)
    (hl : v.at? l = some (.file c)) : Runs (write p content) v (.ok ⟨⟩) (v.put l (.file content)) := by
  have hname : Runs (checkName p) v (.ok ⟨⟩) v := runs_checkName.2 (by simp [hnull])
  rw [write, runs_ok_bind hname, runs_ok_bind (runs_ask.2 ⟨hp.symm, rfl⟩), runs_get_bind, hl]
  exact runs_put_granted hv (by decide) l (.file content)

theorem runs_create_granted (hv : v.Granted) (hp : v.placed p = .ok l) (hl : v.at? l = none) :
    Runs (create p) v (.ok ⟨⟩) (v.put l (.file ByteArray.empty)) := by
  apply runs_place_bind hp
  rw [runs_get_bind, hl]
  exact runs_put_granted hv (by decide) l (.file ByteArray.empty)

theorem runs_rename_granted {k : Location} {e : FileEntry} (hv : v.Granted)
    (hp : v.placed p = .ok l) (hq : v.placed q = .ok k) (hl : v.at? l = some e)
    (hk : v.at? k ≠ some .directory) : Runs (rename p q) v (.ok ⟨⟩) ((v.drop l).put k e) := by
  apply runs_place_bind hp
  apply runs_place_bind hq
  rw [runs_get_bind, runs_get_bind, hl]
  split
  · next hnone => cases hnone
  · next hdirectory _ => exact absurd hdirectory hk
  · next e' he _ =>
    obtain rfl := Option.some.inj he
    refine runs_bind.2 (.inl ⟨⟨⟩, v, runs_permit_granted hv (by decide) k, ?_⟩)
    exact runs_bind.2 (.inl ⟨⟨⟩, v.drop l, runs_drop.2 ⟨rfl, rfl⟩, runs_put.2 ⟨rfl, rfl⟩⟩)

theorem succeeds_discard_granted (hv : v.Granted) (hp : v.placed p = .ok l) (hl : v.at? l ≠ some .directory) :
    Succeeds (discard p) v fun _ _ => True := by
  have hremoved : (∃ v', Runs (remove p) v (.ok ⟨⟩) v') ∨ Runs (remove p) v (.error .notFound) v := by
    cases hat : v.at? l with
    | none =>
      right
      apply runs_place_bind hp
      rw [runs_get_bind, hat]
      exact runs_throw.2 ⟨rfl, rfl⟩
    | some e =>
      have hdropped : Runs (permit .removeFile l >>= fun _ => drop l) v (.ok ⟨⟩) (v.drop l) :=
        (runs_ok_bind (runs_permit_granted hv (by decide) l)).2 (runs_drop.2 ⟨rfl, rfl⟩)
      refine .inl ⟨v.drop l, runs_place_bind hp ?_⟩
      rw [runs_get_bind, hat]
      cases e with
      | directory => exact absurd hat hl
      | file content => exact hdropped
      | link target => exact hdropped
  rcases hremoved with ⟨v', hremoved⟩ | habsent
  · exact (runs_tryCatch.2 (.inl ⟨⟨⟩, hremoved, rfl⟩)).succeeds trivial
  · exact (runs_tryCatch.2 (.inr ⟨_, v, habsent, runs_pure.2 ⟨rfl, rfl⟩⟩)).succeeds trivial

/-! ## Replacing -/

theorem below?_append (l : Location) (m : Location) : below? l (l ++ m) = some m := by
  induction l with
  | nil => rfl
  | cons a l ih => rw [List.cons_append, below?, if_pos rfl, ih]

theorem mem_names (h : v.at? (base ++ [name]) ≠ none) : name ∈ v.names base := by
  have hkey : base ++ [name] ∈ v.entries.keys := by
    rw [Std.ExtTreeMap.mem_keys, Std.ExtTreeMap.mem_iff_isSome_getElem?, ← Option.ne_none_iff_isSome]
    simpa [at?] using h
  rw [names, List.mem_filterMap]
  refine ⟨[name], ?_, rfl⟩
  rw [below, List.mem_filter, List.mem_filterMap]
  exact ⟨⟨_, hkey, below?_append base [name]⟩, by simp⟩

theorem length_temporaryName (name : String) (taken : List String) :
    (temporaryName name taken).length =
      name.length + (taken.map String.length).foldl max 0 + 6 := by
  have htmp : ".tmp".length = 4 := rfl
  have hpoint : ".".length = 1 := rfl
  simp only [temporaryName, String.length_append, String.length_ofList, List.length_replicate, htmp,
    hpoint]
  omega

theorem at?_temporaryName (v : Volume) (base : Location) (name : String) :
    v.at? (base ++ [temporaryName name (v.names base)]) = none := by
  by_contra h
  have hle : (temporaryName name (v.names base)).length ≤
      ((v.names base).map String.length).foldl max 0 :=
    le_foldl_max (.inl (List.mem_map_of_mem (mem_names h)))
  rw [length_temporaryName] at hle
  omega

theorem temporaryName_ne (name : String) (taken : List String) : temporaryName name taken ≠ ".." := by
  intro h
  have hlength := congrArg String.length h
  have htwo : "..".length = 2 := rfl
  rw [length_temporaryName, htwo] at hlength
  omega

theorem parent_child (q : Path) (name : String) : (q.child name).parent = q := by
  simp [Path.parent, Path.child]

theorem name_child (q : Path) (name : String) : (q.child name).name = name := by
  simp [Path.name, Path.child]

theorem hasNull_child_temporary (hnull : (q.child name).hasNull = false) (taken : List String) :
    (q.child (temporaryName name taken)).hasNull = false := by
  have h := hasNull_temporary (q.child name) taken
  rwa [parent_child, name_child, hnull] at h

theorem runs_createBeside_granted (hv : v.Granted) (hq : v.find q = .ok (base, .directory))
    (hensured : Runs (ensureDirectories q) v (.ok ⟨⟩) v) (hnull : (q.child name).hasNull = false) :
    Runs (createBeside (q.child name)) v (.ok (q.child (temporaryName name (v.names base))))
      (v.put (base ++ [temporaryName name (v.names base)]) (.file ByteArray.empty)) := by
  have hlist : v.list q = v.names base := by simp [list, hq]
  have habsent := at?_temporaryName v base name
  have hplace := placed_child hq (temporaryName_ne name (v.names base))
    (hasNull_child_temporary hnull _) (by simp [habsent])
  have hcreated := runs_create_granted hv hplace habsent
  rw [createBeside, parent_child, name_child, runs_ok_bind hensured,
    runs_ok_bind (runs_look.2 ⟨rfl, rfl⟩), hlist, runs_ok_bind hcreated]
  exact runs_pure.2 ⟨rfl, rfl⟩

theorem runs_complete_granted {w : Volume} {tmp : String} (content : ByteArray) (hv : v.Granted)
    (hq : v.find q = .ok (base, .directory)) (htmp : tmp ≠ "..")
    (hnull : (q.child tmp).hasNull = false) (habsent : v.at? (base ++ [tmp]) = none)
    (hw : Updated v (base ++ [tmp]) (.file c) w) (hname : name ≠ "..")
    (hnull' : (q.child name).hasNull = false)
    (hfile : ∀ e, v.at? (base ++ [name]) = some e → ∃ c, e = .file c) :
    ∃ v', Runs (complete (q.child tmp) (q.child name) content) w (.ok ⟨⟩) v' ∧
      Updated v (base ++ [name]) (.file content) v' := by
  -- The temporary file is new, so a volume with it has all that there was.
  have hfound {w : Volume} {c : ByteArray} (hw : Updated v (base ++ [tmp]) (.file c) w)
      (through : Bool) :
      w.walk through maxLinks (w.start (q.child tmp)) (q.child tmp).segments = .ok (base ++ [tmp]) :=
    walk_child (find_of_grown (hw.grown habsent) hq) htmp (by simp [hw.here]) through
  have hfilled := hw.put (by simp) (.file content)
  have hold : ∀ e, (w.put (base ++ [tmp]) (.file content)).at? (base ++ [name]) = some e →
      ∃ c, e = .file c := by
    intro e he
    by_cases hsame : name = tmp
    · rw [hsame, hfilled.here] at he
      exact ⟨content, (Option.some.inj he).symm⟩
    · rw [hfilled.others _ (by simp [hsame])] at he
      exact hfile e he
  have hplace : (w.put (base ++ [tmp]) (.file content)).placed (q.child name) =
      .ok (base ++ [name]) := by
    refine placed_child (find_of_grown (hfilled.grown habsent) hq) hname hnull' fun target h => ?_
    obtain ⟨c, hc⟩ := hold _ h
    cases hc
  have hwrite : Runs (write (q.child tmp) content) w (.ok ⟨⟩) (w.put (base ++ [tmp]) (.file content)) :=
    runs_write_granted (hv.updated hw) hnull (hfound hw true) hw.here
  have hrename : Runs (rename (q.child tmp) (q.child name)) (w.put (base ++ [tmp]) (.file content))
      (.ok ⟨⟩) (((w.put (base ++ [tmp]) (.file content)).drop (base ++ [tmp])).put (base ++ [name])
        (.file content)) := by
    refine runs_rename_granted (hv.updated hfilled) (placed_eq_ok.2 ⟨hnull, hfound hfilled false⟩) hplace
      hfilled.here ?_
    intro h
    obtain ⟨c, hc⟩ := hold _ h
    cases hc
  exact ⟨_, runs_bind.2 (.inl ⟨⟨⟩, _, hwrite, hrename⟩), hfilled.moved habsent (by simp)⟩

/-- A file below a directory is replaced, and nothing else changes. -/
theorem runs_replace_granted (content : ByteArray) (hv : v.Granted) (hq : v.find q = .ok (base, .directory))
    (hself : v.locateItself q = .ok base) (hname : name ≠ "..") (hnull : (q.child name).hasNull = false)
    (hfile : ∀ e, v.at? (base ++ [name]) = some e → ∃ c, e = .file c) :
    ∃ v', Runs (replace (q.child name) content) v (.ok (.ok ⟨⟩)) v' ∧
      Updated v (base ++ [name]) (.file content) v' := by
  obtain ⟨-, hbase⟩ := find_eq_ok.1 hq
  have hparent : q.hasNull = false := (Bool.or_eq_false_iff.1 (Path.hasNull_child q name ▸ hnull)).1
  have hensured : Runs (ensureDirectories q) v (.ok ⟨⟩) v :=
    runs_ensureDirectories (runs_ensureDirectory_present (placed_eq_ok.2 ⟨hparent, hself⟩)
      (by simp [hbase]) (by simp [isDirectory, hq]))
  have hcreated := runs_createBeside_granted hv hq hensured hnull
  obtain ⟨v', hcompleted, hv'⟩ := runs_complete_granted content hv hq (temporaryName_ne name _)
    (hasNull_child_temporary hnull _) (at?_temporaryName v base name) (updated_put (by simp)) hname
    hnull hfile
  refine ⟨v', ?_, hv'⟩
  rw [replace, runs_ok_bind (runs_caught_ok hcreated)]
  exact (runs_ok_bind (runs_caught_ok hcompleted)).2 (runs_pure.2 ⟨rfl, rfl⟩)

end FileAction

end TypeAtlas
