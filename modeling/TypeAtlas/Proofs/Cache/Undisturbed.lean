import TypeAtlas.Declaration.Files
import TypeAtlas.Proofs.Cache.Kept
import TypeAtlas.Proofs.Tag.Signature

/-! # Undisturbed sources

The documents of a cache do not have the names of source files. As long as no link has such a name either,
whatever becomes of the documents, a path to a source file leads where it did before.
-/

namespace TypeAtlas

/-! ## Names of source files -/

namespace Text

theorem getLast?_splitAt {sep : Char} {word : List Char} (hword : sep ∉ word) (cs : List Char) :
    ∃ part, (splitAt sep (cs ++ word)).getLast? = some part ∧ word <:+ part := by
  induction cs with
  | nil => exact ⟨word, by rw [List.nil_append, splitAt_of_not_mem hword]; rfl, List.suffix_rfl⟩
  | cons c cs ih =>
    obtain ⟨part, hlast, hsuffix⟩ := ih
    rw [List.cons_append, splitAt]
    cases hparts : splitAt sep (cs ++ word) with
    | nil => simp [hparts] at hlast
    | cons first parts =>
      rw [hparts] at hlast
      by_cases hc : c = sep
      · exact ⟨part, by simpa [hc] using hlast, hsuffix⟩
      · rw [if_neg hc]
        cases parts with
        | nil =>
          obtain rfl := Option.some.inj hlast
          exact ⟨c :: first, rfl, hsuffix.trans (List.suffix_cons _ _)⟩
        | cons second parts => exact ⟨part, hlast, hsuffix⟩

end Text

namespace SourceTree

theorem isSourceName_iff {s : String} : isSourceName s ↔ ∃ e ∈ endings, e.toList <:+ s.toList := by
  simp only [isSourceName, List.any_eq_true, ← String.endsWith_toSlice, String.Slice.endsWith_string_iff,
    String.copy_toSlice]

theorem isSourceName_append (s : String) {t : String} (h : isSourceName t) : isSourceName (s ++ t) := by
  obtain ⟨e, he, hsuffix⟩ := isSourceName_iff.1 h
  refine isSourceName_iff.2 ⟨e, he, hsuffix.trans ?_⟩
  rw [String.toList_append]
  exact List.suffix_append _ _

theorem not_isSourceName_entryFilename (key : String) : ¬ isSourceName (Cache.entryFilename key) := by
  intro h
  obtain ⟨e, he, cs, hcs⟩ := isSourceName_iff.1 h
  have hlast := congrArg List.getLast? hcs
  have hjson : (Cache.entryFilename key).toList = key.toList ++ ".json".toList := String.toList_append
  have hn : ".json".toList.getLast? = some 'n' := by decide
  have hne : e.toList.getLast? = some 's' ∨ e.toList.getLast? = some 'x' := by
    simp only [endings, List.mem_cons, List.not_mem_nil, or_false] at he
    rcases he with rfl | rfl <;> decide
  rw [hjson, List.getLast?_append, List.getLast?_append, hn] at hlast
  rcases hne with hs | hx
  · simp [hs] at hlast
  · simp [hx] at hlast

end SourceTree

/-- The last segment of a path is the name of a source file. -/
def Path.IsSource (p : Path) : Prop := ∃ name, p.segments.getLast? = some name ∧ SourceTree.isSourceName name

theorem Path.isSource_ofString {s : String} (h : SourceTree.isSourceName s) : (ofString s).IsSource := by
  obtain ⟨e, he, cs, hcs⟩ := SourceTree.isSourceName_iff.1 h
  have hword : '/' ∉ e.toList := by
    simp only [SourceTree.endings, List.mem_cons, List.not_mem_nil, or_false] at he
    rcases he with rfl | rfl <;> decide
  obtain ⟨part, hlast, hsuffix⟩ := Text.getLast?_splitAt hword cs
  have hname : SourceTree.isSourceName (String.ofList part) :=
    SourceTree.isSourceName_iff.2 ⟨e, he, by rwa [String.toList_ofList]⟩
  have hkept : String.ofList part ≠ "" ∧ String.ofList part ≠ "." := by
    constructor
    · rintro hempty
      rw [hempty] at hname
      exact absurd hname (by decide)
    · rintro hdot
      rw [hdot] at hname
      exact absurd hname (by decide)
  refine ⟨_, ?_, hname⟩
  obtain ⟨parts, hparts⟩ := List.getLast?_eq_some_iff.1 hlast
  rw [ofString, ← hcs, hparts, List.map_append, List.map_singleton, List.filter_append]
  simp [hkept]

theorem Text.exists_join_append (sep s : String) (ss : List String) : ∃ t, join sep (ss ++ [s]) = t ++ s := by
  cases ss with
  | nil => exact ⟨"", by simp [join]⟩
  | cons x xs => exact ⟨_, List.foldl_append⟩

theorem Path.isSourceName_toString {p : Path} (h : SourceTree.isSourceName p.name) :
    SourceTree.isSourceName p.toString := by
  obtain ⟨anchor, segments⟩ := p
  rcases List.eq_nil_or_concat segments with rfl | ⟨ss, s, rfl⟩
  · have hempty : SourceTree.isSourceName "" = false := by decide
    cases hempty.symm.trans h
  · have hname : SourceTree.isSourceName s := by simpa [name] using h
    obtain ⟨t, ht⟩ := Text.exists_join_append "/" s ss
    have htext : ∃ u, (Path.mk anchor (ss ++ [s])).toString = u ++ s := by
      unfold Path.toString
      split
      · simp_all
      · exact ⟨t, ht⟩
      · exact ⟨"/" ++ t, by rw [ht, String.append_assoc]⟩
      · exact ⟨"//" ++ t, by rw [ht, String.append_assoc]⟩
    obtain ⟨u, hu⟩ := htext
    rw [List.concat_eq_append, hu]
    exact SourceTree.isSourceName_append u hname

theorem Path.IsSource.join {p q : Path} (h : q.IsSource) : (p / q).IsSource := by
  obtain ⟨name, hlast, hname⟩ := h
  refine ⟨name, ?_, hname⟩
  change (Path.join p q).segments.getLast? = _
  unfold Path.join
  split
  · exact hlast
  · rw [List.getLast?_append, hlast, Option.some_or]

/-! ## Volumes -/

namespace Volume

variable {v v' : Volume} {l at_ : Location} {links : ℕ} {segments : List String} {name : String}
  {content : ByteArray} {p : Path}

/-- Volumes that differ at most in files which do not have the names of source files. -/
structure Alike (v v' : Volume) : Prop where
  start : v'.workingDirectory = v.workingDirectory
  refusal : v'.refusal = v.refusal
  sources : ∀ m name, m.getLast? = some name → SourceTree.isSourceName name → v'.at? m = v.at? m
  files : ∀ m, v'.at? m ≠ v.at? m →
    (∀ e, v.at? m = some e → ∃ c, e = .file c) ∧ ∀ e, v'.at? m = some e → ∃ c, e = .file c

/-- No link has the name of a source file. -/
def Unlinked (v : Volume) : Prop :=
  ∀ m name target, m.getLast? = some name → SourceTree.isSourceName name → v.at? m ≠ some (.link target)

/-- No link has the name of a source file, and the root is nothing but a directory. -/
structure Plain (v : Volume) : Prop where
  unlinked : v.Unlinked
  rootless : v.entries[([] : Location)]? = none

namespace Alike

theorem symm (h : Alike v v') : Alike v' v where
  start := h.start.symm
  refusal := h.refusal.symm
  sources m name hlast hname := (h.sources m name hlast hname).symm
  files m hm := (h.files m (Ne.symm hm)).symm

theorem unlinked (h : Alike v v') (hv : v.Unlinked) : v'.Unlinked := by
  intro m name target hlast hname
  rw [h.sources m name hlast hname]
  exact hv m name target hlast hname

theorem at?_eq (h : Alike v v') {m : Location} {e : FileEntry} (he : v.at? m = some e)
    (hfile : ∀ c, e ≠ .file c) : v'.at? m = some e := by
  by_contra hne
  obtain ⟨c, hc⟩ := (h.files m (by rwa [he])).1 e he
  exact hfile c hc

theorem walk (h : Alike v v') (hv : v.Unlinked) (hlast : segments.getLast? = some name)
    (hname : SourceTree.isSourceName name) (hwalk : v.walk true links at_ segments = .ok l)
    (hl : v.at? l = some (.file content)) :
    v'.walk true links at_ segments = .ok l ∧ v'.at? l = some (.file content) := by
  have hmore {segment : String} {rest : List String}
      (hlast : (segment :: rest).getLast? = some name) (hrest : rest ≠ []) : rest.getLast? = some name := by
    obtain ⟨next, rest, rfl⟩ := List.exists_cons_of_ne_nil hrest
    exact hlast
  fun_induction Volume.walk v true links at_ segments with
  | case1 => cases hlast
  | case2 links at_ rest ih =>
    rw [Volume.walk, if_pos rfl]
    by_cases hrest : rest = []
    · subst hrest
      obtain rfl := Option.some.inj hlast
      exact absurd hname (by decide)
    · exact ih (hmore hlast hrest) hwalk
  | case3 links at_ segment rest hup next hnext ih =>
    have hnext' : v'.at? (at_ ++ [segment]) = some .directory := h.at?_eq hnext fun c hc => by cases hc
    simp only [Volume.walk, if_neg hup, hnext']
    by_cases hrest : rest = []
    · subst hrest
      rw [Volume.walk] at hwalk
      obtain rfl := Except.ok.inj hwalk
      cases hnext.symm.trans hl
    · exact ih (hmore hlast hrest) hwalk
  | case4 links at_ segment rest hup next target hnext hthrough => simp at hthrough
  | case5 => cases hwalk
  | case6 at_ segment rest hup next target hnext hthrough links ih =>
    have hnext' : v'.at? (at_ ++ [segment]) = some (.link target) := h.at?_eq hnext fun c hc => by cases hc
    simp only [Volume.walk, if_neg hup, hnext', hthrough]
    by_cases hrest : rest = []
    · subst hrest
      obtain rfl := Option.some.inj hlast
      exact absurd hnext (hv _ segment target (by simp [next]) hname)
    · refine ih ?_ hwalk
      rw [List.getLast?_append, hmore hlast hrest, Option.some_or]
  | case7 links at_ segment rest hup next found hnext hrest =>
    obtain rfl := List.isEmpty_iff.1 hrest
    obtain rfl := Option.some.inj hlast
    have hnext' : v'.at? (at_ ++ [segment]) = some (.file found) := by
      rw [h.sources _ segment (by simp) hname]
      exact hnext
    simp only [Volume.walk, if_neg hup, hnext', List.isEmpty_nil, if_true]
    obtain rfl := Except.ok.inj hwalk
    exact ⟨rfl, hnext'.trans (hnext.symm.trans hl)⟩
  | case8 => cases hwalk
  | case9 links at_ segment rest hup next hnext hrest =>
    obtain rfl := Except.ok.inj hwalk
    cases hnext.symm.trans hl
  | case10 => cases hwalk

theorem find_of_file (h : Alike v v') (hv : v.Unlinked) (hp : p.IsSource)
    (hfind : v.find p = .ok (l, .file content)) : v'.find p = .ok (l, .file content) := by
  obtain ⟨name, hlast, hname⟩ := hp
  obtain ⟨hlocate, hl⟩ := find_eq_ok.1 hfind
  have hstart : v'.start p = v.start p := by rw [Volume.start, Volume.start, h.start]
  rw [find_eq_ok, Volume.locate, hstart]
  exact h.walk hv hlast hname hlocate hl

theorem find_iff (h : Alike v v') (hv : v.Unlinked) (hp : p.IsSource) :
    v'.find p = .ok (l, .file content) ↔ v.find p = .ok (l, .file content) :=
  ⟨h.symm.find_of_file (h.unlinked hv) hp, h.find_of_file hv hp⟩

/-- The same is read of a source file. -/
theorem read_iff (h : Alike v v') (hv : v.Unlinked) (hp : p.IsSource) :
    v'.read p = .ok content ↔ v.read p = .ok content := by
  simp only [read_eq_ok, h.find_iff hv hp, h.refusal]

theorem isFile_eq (h : Alike v v') (hv : v.Unlinked) (hp : p.IsSource) : v'.isFile p = v.isFile p := by
  rw [Bool.eq_iff_iff, isFile_iff_find, isFile_iff_find]
  simp only [h.find_iff hv hp]

end Alike

end Volume

/-! ## Caches -/

namespace Cache

open Volume

variable {v₀ v v' : Volume} {base : Location} {P P' : CacheKind → String → ByteArray → Prop}

theorem Kept.at?_source {kind : CacheKind} {name : String} (h : Kept v₀ base P v)
    (hP : ∀ kind name content, P kind name content → ¬ SourceTree.isSourceName name)
    (hname : SourceTree.isSourceName name) : v.at? (base ++ [kind.name] ++ [name]) = none := by
  by_contra hsome
  obtain ⟨e, he⟩ := Option.ne_none_iff_exists'.1 hsome
  obtain ⟨-, content, -, hc⟩ := h.documents kind name e he
  exact hP kind name content hc hname

/-- Two stages of a cache differ in its documents only. -/
theorem Kept.alike (h : Kept v₀ base P v) (h' : Kept v₀ base P' v')
    (hP : ∀ kind name content, P kind name content → ¬ SourceTree.isSourceName name)
    (hP' : ∀ kind name content, P' kind name content → ¬ SourceTree.isSourceName name) : Alike v v' := by
  have hplaces {m : Location} (hm : v'.at? m ≠ v.at? m) :
      ∃ (kind : CacheKind) (name : String), m = base ++ [kind.name] ++ [name] := by
    by_cases hm₀ : v₀.at? m = none
    · have hplace : ∃ kind : CacheKind, m = base ++ [kind.name] ∨ ∃ name, m = base ++ [kind.name] ++ [name] := by
        by_cases hnone : v.at? m = none
        · exact h'.only m hm₀ fun hnone' => hm (hnone'.trans hnone.symm)
        · exact h.only m hm₀ hnone
      obtain ⟨kind, rfl | ⟨name, rfl⟩⟩ := hplace
      · exact absurd ((h'.directories kind).trans (h.directories kind).symm) hm
      · exact ⟨kind, name, rfl⟩
    · exact absurd ((h'.grown.kept m hm₀).trans (h.grown.kept m hm₀).symm) hm
  refine ⟨h'.grown.start.trans h.grown.start.symm, h'.grown.refusal.trans h.grown.refusal.symm,
    fun m name hlast hname => ?_, fun m hm => ?_⟩
  · by_contra hm
    obtain ⟨kind, name', rfl⟩ := hplaces hm
    obtain rfl : name' = name := by simpa using hlast
    exact hm ((h'.at?_source hP' hname).trans (h.at?_source hP hname).symm)
  · obtain ⟨kind, name, rfl⟩ := hplaces hm
    refine ⟨fun e he => ?_, fun e he => ?_⟩
    · obtain ⟨-, content, hc, -⟩ := h.documents kind name e he
      exact ⟨content, hc⟩
    · obtain ⟨-, content, hc, -⟩ := h'.documents kind name e he
      exact ⟨content, hc⟩

end Cache

end TypeAtlas
