import TypeAtlas.Proofs.Files.Granted

/-! # Where file actions act

On any volume, what an action has changed when it succeeds. Every entry of a well-formed volume is in
a directory and has names without slashes; making directories keeps it so.
-/

namespace TypeAtlas

namespace Volume

variable {v v' : Volume} {l m base : Location} {e : FileEntry} {links : ℕ} {at_ : Location}
  {segments : List String} {throughLast : Bool} {name : String} {p : Path}

/-! ## Well-formed volumes -/

/-- Text that can be the name of an entry. -/
def IsName (s : String) : Prop := '/' ∉ s.toList

instance (s : String) : Decidable (IsName s) := inferInstanceAs (Decidable ('/' ∉ s.toList))

/-- A volume in which everything is in a directory and has a proper name. -/
structure WellFormed (v : Volume) : Prop where
  working : v.at? v.workingDirectory = some .directory
  parents : ∀ l, v.at? l ≠ none → v.at? l.dropLast = some .directory
  names : ∀ l, v.at? l ≠ none → ∀ name ∈ l, IsName name

theorem WellFormed.start (h : v.WellFormed) (p : Path) : v.at? (v.start p) = some .directory := by
  unfold Volume.start
  split
  · rfl
  · exact h.working

theorem linkStart_eq_or (target : Path) (l : Location) : linkStart target l = [] ∨ linkStart target l = l := by
  unfold linkStart
  split
  · exact .inl rfl
  · exact .inr rfl

theorem at?_linkStart (target : Path) (h : v.at? at_ = some .directory) :
    v.at? (linkStart target at_) = some .directory := by
  rcases linkStart_eq_or target at_ with he | he <;> rw [he]
  · rfl
  · exact h

/-- A walk to a place where nothing is ends below a directory, under the last name of the way. -/
theorem WellFormed.walk_absent (hv : v.WellFormed) (hat : v.at? at_ = some .directory)
    (h : v.walk false links at_ segments = .ok l) (hl : v.at? l = none) :
    ∃ b s, l = b ++ [s] ∧ v.at? b = some .directory ∧ segments.getLast? = some s := by
  have hlast {s t : String} {ss : List String} (ht : ss.getLast? = some t) :
      (s :: ss).getLast? = some t := by
    rw [List.getLast?_cons, ht]
    rfl
  fun_induction walk v false links at_ segments with
  | case1 links at_ =>
    obtain rfl := Except.ok.inj h
    cases hat.symm.trans hl
  | case2 links at_ rest ih =>
    obtain ⟨b, s, rfl, hb, hs⟩ := ih (hv.parents _ (by simp [hat])) h
    exact ⟨b, s, rfl, hb, hlast hs⟩
  | case3 links at_ segment rest hup next hnext ih =>
    obtain ⟨b, s, rfl, hb, hs⟩ := ih hnext h
    exact ⟨b, s, rfl, hb, hlast hs⟩
  | case4 links at_ segment rest hup next target hnext hthrough =>
    obtain rfl := Except.ok.inj h
    cases hl.symm.trans hnext
  | case5 => cases h
  | case6 at_ segment rest hup next target hnext hthrough links ih =>
    obtain ⟨b, s, rfl, hb, hs⟩ := ih (at?_linkStart target hat) h
    have hrest : rest ≠ [] := by simpa using hthrough
    rw [List.getLast?_append_of_ne_nil _ hrest] at hs
    exact ⟨b, s, rfl, hb, hlast hs⟩
  | case7 links at_ segment rest hup next content hnext =>
    obtain rfl := Except.ok.inj h
    cases hl.symm.trans hnext
  | case8 => cases h
  | case9 links at_ segment rest hup next hnext hrest =>
    obtain rfl := Except.ok.inj h
    obtain rfl : rest = [] := by simpa using hrest
    exact ⟨at_, segment, rfl, hat, rfl⟩
  | case10 => cases h

/-- The way to a name leads to the directory that the name is in. -/
theorem WellFormed.exists_walk_prefix (hv : v.WellFormed) (hat : v.at? at_ = some .directory)
    (hname : name ≠ "..") {ss : List String} (h : v.walk throughLast links at_ ss = .ok l) :
    ∀ segments, ss = segments ++ [name] →
      ∃ b, v.walk true links at_ segments = .ok b ∧ v.at? b = some .directory := by
  -- The induction is on the longer way; the shorter one is over when only the name is left.
  have hsplit {s : String} {rest segments : List String} (h : s :: rest = segments ++ [name]) :
      (segments = [] ∧ s = name) ∨ ∃ more, segments = s :: more ∧ rest = more ++ [name] := by
    cases segments with
    | nil => exact .inl ⟨rfl, (List.cons.inj h).1⟩
    | cons t more =>
      obtain ⟨rfl, rfl⟩ := List.cons.inj h
      exact .inr ⟨more, rfl, rfl⟩
  fun_induction walk v throughLast links at_ ss with
  | case1 => intro segments hss; simp at hss
  | case2 links at_ rest ih =>
    intro segments hss
    rcases hsplit hss with ⟨-, rfl⟩ | ⟨more, rfl, hrest⟩
    · exact absurd rfl hname
    · rw [walk, if_pos rfl]
      exact ih (hv.parents _ (by simp [hat])) h more hrest
  | case3 links at_ segment rest hup next hnext ih =>
    intro segments hss
    rcases hsplit hss with ⟨rfl, -⟩ | ⟨more, rfl, hrest⟩
    · exact ⟨at_, by rw [walk], hat⟩
    · have hnext : v.at? (at_ ++ [segment]) = some .directory := hnext
      simp only [walk, if_neg hup, hnext]
      exact ih hnext h more hrest
  | case4 links at_ segment rest hup next target hnext hthrough =>
    intro segments hss
    rcases hsplit hss with ⟨rfl, -⟩ | ⟨more, rfl, rfl⟩
    · exact ⟨at_, by rw [walk], hat⟩
    · simp at hthrough
  | case5 => cases h
  | case6 at_ segment rest hup next target hnext hthrough links ih =>
    intro segments hss
    rcases hsplit hss with ⟨rfl, -⟩ | ⟨more, rfl, rfl⟩
    · exact ⟨at_, by rw [walk], hat⟩
    · have hnext : v.at? (at_ ++ [segment]) = some (.link target) := hnext
      simp only [walk, if_neg hup, hnext, Bool.not_true, Bool.and_false]
      exact ih (at?_linkStart target hat) h _ (List.append_assoc _ _ _).symm
  | case7 links at_ segment rest hup next content hnext hrest =>
    intro segments hss
    rcases hsplit hss with ⟨rfl, -⟩ | ⟨more, rfl, rfl⟩
    · exact ⟨at_, by rw [walk], hat⟩
    · simp at hrest
  | case8 => cases h
  | case9 links at_ segment rest hup next hnext hrest =>
    intro segments hss
    rcases hsplit hss with ⟨rfl, -⟩ | ⟨more, rfl, rfl⟩
    · exact ⟨at_, by rw [walk], hat⟩
    · simp at hrest
  | case10 => cases h

theorem WellFormed.find_of_child (hv : v.WellFormed) (hname : name ≠ "..")
    (h : v.walk throughLast maxLinks (v.start (p.child name)) (p.child name).segments = .ok l) :
    ∃ b, v.find p = .ok (b, .directory) := by
  obtain ⟨b, hb, hdirectory⟩ := hv.exists_walk_prefix (hv.start p) hname h p.segments rfl
  exact ⟨b, find_eq_ok.2 ⟨hb, hdirectory⟩⟩

/-- What a path leads to through a link at its end, it leads to as well when that link counts. -/
theorem exists_walk_itself (h : v.walk true links at_ segments = .ok l) (hl : v.at? l ≠ none) :
    ∃ m, v.walk false links at_ segments = .ok m ∧ v.at? m ≠ none := by
  fun_induction walk v true links at_ segments with
  | case1 links at_ =>
    obtain rfl := Except.ok.inj h
    exact ⟨at_, by rw [walk], hl⟩
  | case2 links at_ rest ih =>
    rw [walk, if_pos rfl]
    exact ih h
  | case3 links at_ segment rest hup next hnext ih =>
    have hnext : v.at? (at_ ++ [segment]) = some .directory := hnext
    simp only [walk, if_neg hup, hnext]
    exact ih h
  | case4 links at_ segment rest hup next target hnext hthrough => simp at hthrough
  | case5 => cases h
  | case6 at_ segment rest hup next target hnext hthrough links ih =>
    have hnext : v.at? (at_ ++ [segment]) = some (.link target) := hnext
    cases rest with
    | nil =>
      simp only [walk, if_neg hup, hnext]
      exact ⟨_, rfl, by simp [hnext]⟩
    | cons s rest =>
      simp only [walk, if_neg hup, hnext, List.isEmpty_cons, Bool.false_and]
      exact ih h
  | case7 links at_ segment rest hup next content hnext hrest =>
    have hnext : v.at? (at_ ++ [segment]) = some (.file content) := hnext
    simp only [walk, if_neg hup, hnext, hrest]
    exact ⟨_, rfl, by simp [hnext]⟩
  | case8 => cases h
  | case9 =>
    obtain rfl := Except.ok.inj h
    contradiction
  | case10 => cases h

theorem WellFormed.put (hv : v.WellFormed) (hl : v.at? (base ++ [name]) = none)
    (hbase : v.at? base = some .directory) (hname : IsName name) :
    (v.put (base ++ [name]) .directory).WellFormed := by
  have hkept {m : Location} (hm : v.at? m = some .directory) :
      (v.put (base ++ [name]) .directory).at? m = some .directory := by
    rw [at?_put_of_ne (by rintro rfl; simp [hl] at hm), hm]
  refine ⟨hkept hv.working, fun m hm => ?_, fun m hm s hs => ?_⟩
  · by_cases hmb : m = base ++ [name]
    · rw [hmb, List.dropLast_concat]
      exact hkept hbase
    · rw [at?_put_of_ne hmb] at hm
      exact hkept (hv.parents m hm)
  · by_cases hmb : m = base ++ [name]
    · rw [hmb, List.mem_append, List.mem_singleton] at hs
      rcases hs with hs | rfl
      · exact hv.names base (by simp [hbase]) s hs
      · exact hname
    · rw [at?_put_of_ne hmb] at hm
      exact hv.names m hm s hs

/-! ## What is below a location -/

theorem eq_append_of_below? {l m rest : Location} (h : below? l m = some rest) : m = l ++ rest := by
  induction l generalizing m with
  | nil => exact Option.some.inj h
  | cons a l ih =>
    cases m with
    | nil => cases h
    | cons b m =>
      rw [below?] at h
      split at h
      · next hab => rw [hab, ih h, List.cons_append]
      · cases h

theorem at?_of_mem_below (h : m ∈ v.below base) : m ≠ [] ∧ v.at? (base ++ m) ≠ none := by
  rw [below, List.mem_filter, List.mem_filterMap] at h
  obtain ⟨⟨l, hl, hbelow⟩, hm⟩ := h
  have hm : m ≠ [] := by simpa using hm
  obtain rfl := eq_append_of_below? hbelow
  rw [Std.ExtTreeMap.mem_keys, Std.ExtTreeMap.mem_iff_isSome_getElem?,
    ← Option.ne_none_iff_isSome] at hl
  exact ⟨hm, by simpa [at?, hm] using hl⟩

theorem at?_of_mem_names (h : name ∈ v.names base) : v.at? (base ++ [name]) ≠ none := by
  rw [names, List.mem_filterMap] at h
  obtain ⟨rest, hrest, hname⟩ := h
  split at hname
  · obtain rfl := Option.some.inj hname
    exact (at?_of_mem_below hrest).2
  · cases hname

end Volume

namespace FileAction

open Volume

variable {v v' v₁ : Volume} {l base : Location} {p q : Path} {name : String} {content : ByteArray}
  {r : Except FileError Unit}

/-! ## Directories -/

theorem runs_makeDirectory (h : Runs (makeDirectory p) v r v') : (∃ e, r = .error e ∧ v' = v) ∨
    ∃ l, r = .ok ⟨⟩ ∧ v.locateItself p = .ok l ∧ v.at? l = none ∧ v' = v.put l .directory := by
  rw [makeDirectory, runs_bind] at h
  rcases h with ⟨l, v₁, hl, h⟩ | ⟨e, he, rfl⟩
  · obtain ⟨hl, rfl⟩ := runs_place.1 hl
    rw [runs_get_bind] at h
    split at h
    · obtain ⟨rfl, rfl⟩ := runs_throw_bind.1 h
      exact .inl ⟨_, rfl, rfl⟩
    · next habsent =>
      rcases runs_permit_put h with ⟨e, rfl, rfl⟩ | ⟨rfl, rfl⟩
      · exact .inl ⟨e, rfl, rfl⟩
      · exact .inr ⟨l, rfl, (placed_eq_ok.1 hl.symm).2, by simpa using habsent, rfl⟩
  · exact .inl ⟨e, rfl, (runs_place.1 he).2⟩

/-- Ensuring a directory fails without a change, finds it there, or makes it. -/
theorem runs_ensureDirectory (h : Runs (ensureDirectory p) v r v') : (∃ e, r = .error e ∧ v' = v) ∨
    (r = .ok ⟨⟩ ∧ v.isDirectory p ∧ v' = v) ∨
      ∃ l, r = .ok ⟨⟩ ∧ v.locateItself p = .ok l ∧ v.at? l = none ∧ v' = v.put l .directory := by
  -- Whether it is made, there already or neither is only known once the attempt to make it is over.
  have hnot {w : Volume} {e : FileError} {q : Except FileError (Except Unit Unit)}
      (hmade : Runs (do let x ← makeDirectory p; pure (.ok x : Except Unit Unit)) v (.error e) w)
      (hcaught : Runs (do
        let there ← look (·.isDirectory p)
        if e.isSystem && e != .notFound && there then pure (.error ⟨⟩)
        else do let x ← throw e; pure (.ok x)) w q v') :
      (v.isDirectory p ∧ q = .ok (.error ⟨⟩) ∧ v' = v) ∨ ∃ e, q = .error e ∧ v' = v := by
    obtain rfl : w = v := by
      rcases runs_bind.1 hmade with ⟨_, _, -, hpure⟩ | ⟨e', hmade, -⟩
      · cases (runs_pure.1 hpure).1
      · rcases runs_makeDirectory hmade with ⟨_, -, rfl⟩ | ⟨_, he, -⟩
        · rfl
        · cases he
    rw [runs_ok_bind (runs_look.2 ⟨rfl, rfl⟩)] at hcaught
    split at hcaught
    · next hthere =>
      obtain ⟨rfl, rfl⟩ := runs_pure.1 hcaught
      exact .inl ⟨(Bool.and_eq_true_iff.1 hthere).2, rfl, rfl⟩
    · obtain ⟨rfl, rfl⟩ := runs_throw_bind.1 hcaught
      exact .inr ⟨e, rfl, rfl⟩
  rw [ensureDirectory] at h
  rcases runs_bind.1 h with ⟨ended, v₁, hended, hdone⟩ | ⟨e, hended, rfl⟩
  · obtain ⟨rfl, rfl⟩ : r = .ok ⟨⟩ ∧ v' = v₁ := by cases ended <;> exact runs_pure.1 hdone
    rcases runs_tryCatch.1 hended with ⟨_, hmade, -⟩ | ⟨e, v₂, hmade, hcaught⟩
    · obtain ⟨_, v₂, hmade, hpure⟩ := runs_bind_ok.1 hmade
      obtain ⟨-, rfl⟩ := runs_pure.1 hpure
      rcases runs_makeDirectory hmade with ⟨e, he, -⟩ | ⟨l, -, hl, habsent, rfl⟩
      · cases he
      · exact .inr (.inr ⟨l, rfl, hl, habsent, rfl⟩)
    · rcases hnot hmade hcaught with ⟨hthere, -, rfl⟩ | ⟨_, he, -⟩
      · exact .inr (.inl ⟨rfl, hthere, rfl⟩)
      · cases he
  · rcases runs_tryCatch.1 hended with ⟨_, -, he⟩ | ⟨e, v₂, hmade, hcaught⟩
    · cases he
    · rcases hnot hmade hcaught with ⟨-, he, -⟩ | ⟨_, -, rfl⟩
      · cases he
      · exact .inl ⟨_, rfl, rfl⟩

theorem runs_ensureDirectories_ok (h : Runs (ensureDirectories p) v (.ok ⟨⟩) v') :
    Runs (ensureDirectory p) v (.ok ⟨⟩) v' ∨ p.segments ≠ [] ∧
      ∃ v₁, Runs (ensureDirectories p.parent) v (.ok ⟨⟩) v₁ ∧ Runs (ensureDirectory p) v₁ (.ok ⟨⟩) v' := by
  rw [ensureDirectories, runs_tryCatch] at h
  rcases h with ⟨_, hmade, -⟩ | ⟨e, v₁, hmade, h⟩
  · exact .inl hmade
  · rcases runs_ensureDirectory hmade with ⟨_, -, rfl⟩ | ⟨he, -⟩ | ⟨_, he, -⟩
    · split at h
      · next hmore =>
        obtain ⟨_, v₂, hparent, h⟩ := runs_bind_ok.1 h
        exact .inr ⟨hmore.2, v₂, hparent, h⟩
      · cases (runs_throw.1 h).1
    · cases he
    · cases he

theorem runs_ensureDirectories_of_hasNull (hp : p.hasNull) (v : Volume) :
    Runs (ensureDirectories p) v (.error .nullCharacter) v := by
  have hplace : Runs (place p) v (.error .nullCharacter) v :=
    runs_place.2 ⟨(placed_of_hasNull hp).symm, rfl⟩
  have hmade : Runs (makeDirectory p) v (.error .nullCharacter) v := runs_bind.2 (.inr ⟨_, hplace, rfl⟩)
  have hone : Runs (ensureDirectory p) v (.error .nullCharacter) v := by
    rw [ensureDirectory]
    refine runs_bind.2 (.inr ⟨_, runs_tryCatch.2 (.inr ⟨.nullCharacter, v, ?_, ?_⟩), rfl⟩)
    · exact runs_bind.2 (.inr ⟨_, hmade, rfl⟩)
    · exact (runs_ok_bind (runs_look.2 ⟨rfl, rfl⟩)).2 (runs_throw_bind.2 ⟨rfl, rfl⟩)
  rw [ensureDirectories]
  refine runs_tryCatch.2 (.inr ⟨.nullCharacter, v, hone, ?_⟩)
  rw [dif_neg (by simp)]
  exact runs_throw.2 ⟨rfl, rfl⟩

theorem hasNull_of_ensureDirectories (h : Runs (ensureDirectories p) v (.ok ⟨⟩) v') :
    p.hasNull = false := by
  by_contra hp
  cases (runs_ensureDirectories_of_hasNull (by simpa using hp) v).symm.trans h

theorem runs_ensureDirectories_found (hp : p.hasNull = false) (h : v.find p = .ok (base, .directory)) :
    Runs (ensureDirectories p) v (.ok ⟨⟩) v := by
  obtain ⟨hlocate, hbase⟩ := find_eq_ok.1 h
  obtain ⟨l, hl, hsome⟩ := exists_walk_itself hlocate (by simp [hbase])
  refine runs_ensureDirectories (runs_ensureDirectory_present (placed_eq_ok.2 ⟨hp, hl⟩) ?_
    (by simp [isDirectory, h]))
  exact Option.isSome_iff_ne_none.2 hsome

theorem eq_of_ensureDirectories_found (hq : v.find q = .ok (base, .directory))
    (h : Runs (ensureDirectories q) v r v') : v' = v := by
  cases hp : q.hasNull with
  | false => exact (Prod.mk.inj (h.symm.trans (runs_ensureDirectories_found hp hq))).2
  | true => exact (Prod.mk.inj (h.symm.trans (runs_ensureDirectories_of_hasNull hp v))).2

/-- A directory below one that was made is made as it would have been with that one at once. -/
theorem runs_ensureDirectories_child (hv : v.WellFormed) (hname : name ≠ "..")
    (hmade : Runs (ensureDirectories p) v (.ok ⟨⟩) v₁)
    (h : Runs (ensureDirectories (p.child name)) v (.ok ⟨⟩) v') :
    Runs (ensureDirectories (p.child name)) v₁ (.ok ⟨⟩) v' := by
  -- A directory that was there already has not changed anything.
  have hthere {l : Location} {through : Bool}
      (hwalk : v.walk through maxLinks (v.start (p.child name)) (p.child name).segments = .ok l) :
      v₁ = v := by
    obtain ⟨b, hb⟩ := hv.find_of_child hname hwalk
    have hfound := runs_ensureDirectories_found (hasNull_of_ensureDirectories hmade) hb
    exact (Prod.mk.inj (hmade.symm.trans hfound)).2
  rcases runs_ensureDirectories_ok h with hone | ⟨-, v₂, hparent, hone⟩
  · rcases runs_ensureDirectory hone with ⟨_, he, -⟩ | ⟨-, hdirectory, -⟩ | ⟨l, -, hl, -⟩
    · cases he
    · unfold isDirectory at hdirectory
      cases hfind : v.find (p.child name) with
      | error e => simp [hfind] at hdirectory
      | ok le =>
        obtain rfl := hthere (find_eq_ok.1 hfind).1
        exact h
    · obtain rfl := hthere hl
      exact h
  · rw [parent_child] at hparent
    obtain rfl := (Prod.mk.inj (hmade.symm.trans hparent)).2
    exact runs_ensureDirectories hone

theorem wellFormed_ensureDirectory (hv : v.WellFormed) (hp : ∀ s ∈ p.segments, IsName s)
    (h : Runs (ensureDirectory p) v r v') : v'.WellFormed := by
  rcases runs_ensureDirectory h with ⟨_, -, rfl⟩ | ⟨-, -, rfl⟩ | ⟨l, -, hl, habsent, rfl⟩
  · exact hv
  · exact hv
  · obtain ⟨b, s, rfl, hb, hs⟩ := hv.walk_absent (hv.start p) hl habsent
    exact hv.put habsent hb (hp s (List.mem_of_getLast? hs))

theorem wellFormed_ensureDirectories (hv : v.WellFormed) (hp : ∀ s ∈ p.segments, IsName s)
    (h : Runs (ensureDirectories p) v (.ok ⟨⟩) v') : v'.WellFormed := by
  induction hn : p.segments.length generalizing p v' with
  | zero =>
    rcases runs_ensureDirectories_ok h with hone | ⟨hne, -⟩
    · exact wellFormed_ensureDirectory hv hp hone
    · exact absurd (List.length_eq_zero_iff.1 hn) hne
  | succ n ih =>
    rcases runs_ensureDirectories_ok h with hone | ⟨-, v₁, hparent, hone⟩
    · exact wellFormed_ensureDirectory hv hp hone
    · have hparents : ∀ s ∈ p.parent.segments, IsName s := fun s hs => hp s (List.dropLast_subset _ hs)
      exact wellFormed_ensureDirectory (ih hparents hparent (by simp [Path.parent, hn])) hp hone

/-! ## Files -/

theorem runs_remove_or (h : Runs (remove p) v r v') : (∃ e, r = .error e ∧ v' = v) ∨
    ∃ l, r = .ok ⟨⟩ ∧ v.locateItself p = .ok l ∧ v.at? l ≠ some .directory ∧ v' = v.drop l := by
  rw [remove, runs_bind] at h
  rcases h with ⟨l, v₁, hplaced, h⟩ | ⟨e, he, rfl⟩
  · obtain ⟨hl, rfl⟩ := runs_place.1 hplaced
    rw [runs_get_bind] at h
    split at h
    · obtain ⟨rfl, rfl⟩ := runs_throw.1 h
      exact .inl ⟨_, rfl, rfl⟩
    · next e hnot he =>
      rcases runs_bind.1 h with ⟨_, v₂, hpermit, hdrop⟩ | ⟨e, hpermit, rfl⟩
      · obtain ⟨-, rfl⟩ := runs_permit.1 hpermit
        obtain ⟨rfl, rfl⟩ := runs_drop.1 hdrop
        exact .inr ⟨l, rfl, (placed_eq_ok.1 hl.symm).2, by simpa [he] using hnot, rfl⟩
      · exact .inl ⟨e, rfl, (runs_permit.1 hpermit).2⟩
    · obtain ⟨rfl, rfl⟩ := runs_throw.1 h
      exact .inl ⟨_, rfl, rfl⟩
  · exact .inl ⟨e, rfl, (runs_place.1 he).2⟩

theorem runs_discard_or (h : Runs (discard p) v r v') : v' = v ∨
    ∃ l, v.locateItself p = .ok l ∧ v.at? l ≠ some .directory ∧ v' = v.drop l := by
  rw [discard, runs_tryCatch] at h
  rcases h with ⟨_, hremove, -⟩ | ⟨e, v₁, hremove, hcatch⟩
  · rcases runs_remove_or hremove with ⟨_, he, -⟩ | ⟨l, -, hl⟩
    · cases he
    · exact .inr ⟨l, hl⟩
  · rcases runs_remove_or hremove with ⟨_, -, rfl⟩ | ⟨_, hok, -⟩
    · split at hcatch
      · exact .inl (runs_pure.1 hcatch).2
      · exact .inl (runs_throw.1 hcatch).2
    · cases hok

/-- A file below a directory that was replaced has the new content, and nothing else has changed. -/
theorem runs_replace_child (hq : v.find q = .ok (base, .directory)) (hname : name ≠ "..")
    (hfile : ∀ e, v.at? (base ++ [name]) = some e → ∃ c, e = .file c)
    (h : Runs (replace (q.child name) content) v (.ok (.ok ⟨⟩)) v') :
    Updated v (base ++ [name]) (.file content) v' := by
  obtain ⟨s, u, hmade, hreplaced⟩ := runs_replace_made h
  cases hreplaced with
  | @done l hl hold =>
    rw [parent_child] at hmade
    obtain rfl := eq_of_ensureDirectories_found hq hmade
    have hplace := walk_child hq hname (fun target he => by
      obtain ⟨c, hc⟩ := hfile _ he
      cases hc) false
    obtain rfl := Except.ok.inj (hplace.symm.trans (placed_eq_ok.1 hl).2)
    exact updated_put (by simp)

end FileAction

end TypeAtlas
