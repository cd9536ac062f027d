import Mathlib.Data.List.Nodup
import TypeAtlas.Proofs.Files.Placed
import TypeAtlas.Proofs.Files.Spared
import TypeAtlas.Proofs.Json.ReadBack
import TypeAtlas.Proofs.Tag.Signature
import TypeAtlas.Repository.Scan

/-! # Scanned paths

A scan of a well-formed volume gives every file once, and different paths have different texts.

In a tree of files without links and ignore files, a scan that asks for no patterns selects the source files
by their names and places alone.
-/

namespace TypeAtlas

open Volume (IsName)

/-! ## Texts of paths -/

namespace Path

theorem splitAt_toString {segments : List String} (hne : segments ≠ [])
    (h : ∀ s ∈ segments, IsName s) :
    Text.splitAt '/' (toString ⟨.relative, segments⟩).toList = segments.map String.toList := by
  obtain ⟨p, ps, rfl⟩ := List.exists_cons_of_ne_nil hne
  have htext : toString ⟨.relative, p :: ps⟩ = Text.join "/" (p :: ps) := rfl
  rw [htext, Json.toList_join_append]
  clear htext hne
  induction ps generalizing p with
  | nil => simpa using Text.splitAt_of_not_mem (h p List.mem_cons_self)
  | cons q ps ih =>
    obtain ⟨hp, hps⟩ := List.forall_mem_cons.1 h
    have hrest : p.toList ++ ((q :: ps).map String.toList).flatMap (fun r => "/".toList ++ r) =
        p.toList ++ '/' :: (q.toList ++ (ps.map String.toList).flatMap fun r => "/".toList ++ r) := by
      simp
    rw [hrest, Text.splitAt_append hp, ih q hps, List.map_cons (a := p)]

theorem toString_inj {xs ys : List String} (hx : xs ≠ []) (hy : ys ≠ [])
    (hxs : ∀ s ∈ xs, IsName s) (hys : ∀ s ∈ ys, IsName s)
    (h : toString ⟨.relative, xs⟩ = toString ⟨.relative, ys⟩) : xs = ys := by
  have hsplit := splitAt_toString hx hxs
  rw [h, splitAt_toString hy hys] at hsplit
  exact (List.map_injective_iff.2 fun _ _ => String.toList_inj.1) hsplit.symm

end Path

/-! ## Trees -/

namespace Volume

variable {v : Volume} {l : Location} {root : Path}

theorem nodup_below (v : Volume) (l : Location) : (v.below l).Nodup := by
  rw [below]
  refine List.Nodup.filter _ (List.Nodup.filterMap (fun m m' rest hm hm' => ?_) Std.ExtTreeMap.nodup_keys)
  rw [eq_append_of_below? hm, eq_append_of_below? hm']

/-- Different paths in the tree of a well-formed volume have different texts. -/
theorem nodup_tree (hv : v.WellFormed) (root : Path) : ((v.tree root).map Path.toString).Nodup := by
  rw [tree]
  split
  · next l _ =>
    refine ((List.mergeSort_perm _ _).map _).nodup_iff.2 ?_
    rw [List.map_map]
    refine List.Nodup.map_on (fun x hx y hy h => ?_) (nodup_below v l)
    obtain ⟨hx, hatx⟩ := at?_of_mem_below hx
    obtain ⟨hy, haty⟩ := at?_of_mem_below hy
    exact Path.toString_inj hx hy (fun s hs => hv.names _ hatx s (List.mem_append_right _ hs))
      (fun s hs => hv.names _ haty s (List.mem_append_right _ hs)) h
  · exact List.nodup_nil

end Volume

theorem ScanRequest.nodup_scan {r : ScanRequest} {v : Volume} {root : Path} {paths : List Path}
    (hv : v.WellFormed) (h : r.scan v root = .ok paths) : (paths.map Path.toString).Nodup := by
  obtain ⟨ignored, -, h⟩ := bind_eq_ok.1 h
  obtain rfl := Except.ok.inj h
  exact (List.filter_sublist.map _).nodup (Volume.nodup_tree hv root)

/-! ## Names without repetition -/

theorem nodup_eraseDups (names : List String) : names.eraseDups.Nodup := by
  match names with
  | [] => exact List.nodup_nil
  | name :: names =>
    rw [List.eraseDups_cons, List.nodup_cons]
    constructor
    · simp [List.mem_eraseDups]
    · exact nodup_eraseDups _
termination_by names.length
decreasing_by
  have hle := List.length_filter_le (fun s => !s == name) names
  rw [List.length_cons]
  omega

theorem SourceTree.nodup_names {t : SourceTree} {file : String} {names : List String}
    (h : t.names file = .ok names) : names.Nodup := by
  obtain ⟨m, -, h⟩ := bind_eq_ok.1 h
  cases m with
  | none =>
    obtain rfl := Except.ok.inj h
    exact List.nodup_nil
  | some m =>
    obtain rfl := Except.ok.inj h
    exact (List.mergeSort_perm _ _).nodup_iff.2 (nodup_eraseDups _)

theorem Vocabulary.nodup_sortedNames (names : List String) : (sortedNames names).Nodup := by
  have h : ∀ (names acc : List String), acc.Nodup →
      (names.foldl (fun acc s => if acc.contains s then acc else s :: acc) acc).Nodup := by
    intro names
    induction names with
    | nil => exact fun _ h => h
    | cons s names ih =>
      intro acc hacc
      rw [List.foldl_cons]
      apply ih
      split
      · exact hacc
      · next hs => exact List.nodup_cons.2 ⟨by simpa using hs, hacc⟩
  exact (List.mergeSort_perm _ _).nodup_iff.2 (h names [] List.nodup_nil)

open Volume

namespace Volume

variable {v v' : Volume} {root : Path} {base at_ l m : Location} {links : ℕ} {segments : List String}
  {throughLast : Bool} {e : FileEntry}

/-! ## Files of a tree -/

theorem file?_ne_none : v.file? l ≠ none ↔ ∃ content, v.at? l = some (.file content) := by
  unfold file?
  split
  · next content h => simp [h]
  · next h => simpa using h

/-- Names lead one after the other to the location that they make up. -/
theorem Literal.eq_append_of_walk (hv : v.Literal) (hup : ".." ∉ segments)
    (h : v.walk throughLast links at_ segments = .ok l) : l = at_ ++ segments := by
  fun_induction walk v throughLast links at_ segments with
  | case1 links at_ => rw [List.append_nil, Except.ok.inj h]
  | case2 => simp at hup
  | case3 links at_ segment rest _ next _ ih =>
    rw [ih (fun hmem => hup (List.mem_cons_of_mem _ hmem)) h]
    simp [next]
  | case4 links at_ segment rest _ next target hlink => exact absurd hlink (hv.linkless _ target)
  | case5 at_ segment rest _ next target hlink => exact absurd hlink (hv.linkless _ target)
  | case6 at_ segment rest _ next target hlink => exact absurd hlink (hv.linkless _ target)
  | case7 links at_ segment rest _ next content _ hrest =>
    rw [List.isEmpty_iff.1 hrest]
    exact (Except.ok.inj h).symm
  | case8 => cases h
  | case9 links at_ segment rest _ next _ hrest =>
    rw [List.isEmpty_iff.1 hrest]
    exact (Except.ok.inj h).symm
  | case10 => cases h

theorem find_join (hw : v.WellFormed) (hv : v.Literal) (hroot : v.find root = .ok (base, .directory))
    (hnil : m ≠ []) (hup : ".." ∉ m) :
    v.find (root / ⟨.relative, m⟩) = .ok (l, e) ↔ l = base ++ m ∧ v.at? (base ++ m) = some e := by
  obtain ⟨hlocate, hbase⟩ := find_eq_ok.1 hroot
  obtain ⟨links, hwalk⟩ := exists_walk_append hlocate hbase
  have hjoined : v.locate (root / ⟨.relative, m⟩) = v.walk true links base m := hwalk true m hnil
  rw [find_eq_ok, hjoined]
  constructor
  · rintro ⟨hl, he⟩
    obtain rfl := hv.eq_append_of_walk hup hl
    exact ⟨rfl, he⟩
  · rintro ⟨rfl, he⟩
    exact ⟨hw.walk_entry hv (by simp [he]), he⟩

theorem isFile_join (hw : v.WellFormed) (hv : v.Literal) (hroot : v.find root = .ok (base, .directory))
    (hnil : m ≠ []) (hup : ".." ∉ m) : v.isFile (root / ⟨.relative, m⟩) ↔ v.file? (base ++ m) ≠ none := by
  simp [isFile_iff_find, find_join hw hv hroot hnil hup, file?_ne_none]

theorem Literal.isLink_eq_false (hv : v.Literal) (p : Path) : v.isLink p = false := by
  unfold isLink
  split
  · split
    · next target hlink => exact absurd hlink (hv.linkless _ target)
    · rfl
  · rfl

/-- The tree below a directory has the paths to all that is there. -/
theorem mem_tree (hroot : v.find root = .ok (base, .directory)) {p : Path} :
    p ∈ v.tree root ↔ ∃ l, p = ⟨.relative, l⟩ ∧ l ≠ [] ∧ v.at? (base ++ l) ≠ none := by
  have hbelow {l : Location} : l ∈ v.below base ↔ l ≠ [] ∧ v.at? (base ++ l) ≠ none := by
    refine ⟨at?_of_mem_below, fun ⟨hnil, hat⟩ => ?_⟩
    have hkey : base ++ l ∈ v.entries.keys := by
      rw [Std.ExtTreeMap.mem_keys, Std.ExtTreeMap.mem_iff_isSome_getElem?, ← Option.ne_none_iff_isSome]
      simpa [at?, hnil] using hat
    rw [below, List.mem_filter, List.mem_filterMap]
    exact ⟨⟨_, hkey, FileAction.below?_append base l⟩, by simpa using hnil⟩
  simp only [tree, hroot, List.mem_mergeSort, List.mem_map, hbelow]
  constructor
  · rintro ⟨l, hl, rfl⟩
    exact ⟨l, rfl, hl⟩
  · rintro ⟨l, rfl, hl⟩
    exact ⟨l, hl, rfl⟩

/-- A source file below a location, in no directory of foreign files. -/
structure IsSource (v : Volume) (base l : Location) : Prop where
  regular : v.file? (base ++ l) ≠ none
  named : SourceTree.isSourceName (l.getLast?.getD "")
  domestic : ∀ directory ∈ l.dropLast, directory ∉ ScanRequest.foreignDirectories

theorem IsSource.ne_nil (h : v.IsSource base l) : l ≠ [] := by
  rintro rfl
  exact absurd h.named (by decide)

/-- A source file that can be read. -/
structure IsReadableSource (v : Volume) (base l : Location) : Prop extends v.IsSource base l where
  readable : v.refusal .readFile (base ++ l) = none

/-- A tree of files without links and ignore files. -/
structure Unfiltered (v : Volume) (root : Path) (base : Location) : Prop where
  wellFormed : v.WellFormed
  literal : v.Literal
  found : v.find root = .ok (base, .directory)
  ignoring : ∀ l, v.file? (base ++ l ++ [ScanRequest.ignoreFileName]) = none

theorem Unfiltered.spares (h : v.Unfiltered root base) (hw : v'.WellFormed) (hv : Spares [] v v')
    (hfiles : v'.file? = v.file?) : v'.Unfiltered root base where
  wellFormed := hw
  literal := hv.literal h.literal
  found := hv.find h.literal h.found (.inl rfl)
  ignoring l := by rw [hfiles, h.ignoring l]

end Volume

namespace ScanRequest

variable {r : ScanRequest} {v : Volume} {root : Path} {base : Location} {paths : List Path} {p : Path}

/-! ## Scans -/

theorem ignoreFiles_eq_nil (hv : v.Unfiltered root base) : r.ignoreFiles v root = [] := by
  unfold ignoreFiles
  split
  · rw [List.filter_eq_nil_iff]
    intro p hp hignore
    obtain ⟨l, rfl, hnil, hat⟩ := (mem_tree hv.found).1 hp
    obtain ⟨hname, hfile⟩ := Bool.and_eq_true_iff.1 hignore
    have hup : ".." ∉ l := fun hmem => hv.literal.upless _ hat (List.mem_append_right _ hmem)
    obtain ⟨m, s, rfl⟩ := List.eq_nil_or_concat l |>.resolve_left hnil
    obtain rfl : s = ignoreFileName := by simpa [Path.name] using hname
    rw [isFile_join hv.wellFormed hv.literal hv.found hnil hup, List.concat_eq_append, ← List.append_assoc]
      at hfile
    exact hfile (hv.ignoring m)
  · rw [List.filter_eq_nil_iff]
    intro p hp hfile
    rw [List.mem_singleton.1 hp, isFile_join hv.wellFormed hv.literal hv.found (by simp) (by decide)] at hfile
    exact hfile (by simpa using hv.ignoring [])

theorem scan_unfiltered (hv : v.Unfiltered root base) :
    r.scan v root = .ok ((v.tree root).filter (r.selects v root [])) := by
  rw [scan, ignoreTable, ignoreFiles_eq_nil hv]
  rfl

theorem staysBelow_of_entry (hv : v.Unfiltered root base) {l : Location} (hnil : l ≠ [])
    (hat : v.at? (base ++ l) ≠ none) : staysBelow v root ⟨.relative, l⟩ := by
  have hup : ".." ∉ l := fun hmem => hv.literal.upless _ hat (List.mem_append_right _ hmem)
  obtain ⟨e, he⟩ := Option.ne_none_iff_exists'.1 hat
  have hfind := (find_join hv.wellFormed hv.literal hv.found hnil hup).2 ⟨rfl, he⟩
  rw [staysBelow, segments_resolve hv.found, segments_resolve hfind, FileAction.below?_append]
  rfl

theorem selects_iff (hv : v.Unfiltered root base) (hincluded : r.included = []) (hexcluded : r.excluded = [])
    {l : Location} (hnil : l ≠ []) (hat : v.at? (base ++ l) ≠ none) :
    r.selects v root [] ⟨.relative, l⟩ ↔
      v.IsSource base l ∧ (r.skipped = "" ∨ l.head? ≠ some r.skipped) := by
  have hup : ".." ∉ l := fun hmem => hv.literal.upless _ hat (List.mem_append_right _ hmem)
  have hfile := isFile_join hv.wellFormed hv.literal hv.found hnil hup
  have hforeign : (!l.dropLast.any foreignDirectories.contains) = true ↔
      ∀ directory ∈ l.dropLast, directory ∉ foreignDirectories := by simp
  have hskipped : (r.skipped == "" || l.head? != some r.skipped) = true ↔
      (r.skipped = "" ∨ l.head? ≠ some r.skipped) := by simp
  have hignored : IgnoreTable.ignores [] ⟨.relative, l⟩ = false := rfl
  simp only [selects, hincluded, hexcluded, hv.literal.isLink_eq_false, staysBelow_of_entry hv hnil hat,
    hignored, Bool.and_eq_true, hforeign, hskipped, hfile, List.isEmpty_nil, Bool.true_or, List.any_nil,
    Bool.not_false, and_true]
  constructor
  · rintro ⟨⟨⟨hnamed, hregular⟩, hdomestic⟩, houtside⟩
    exact ⟨⟨hregular, hnamed, hdomestic⟩, houtside⟩
  · rintro ⟨⟨hregular, hnamed, hdomestic⟩, houtside⟩
    exact ⟨⟨⟨hnamed, hregular⟩, hdomestic⟩, houtside⟩

/-- A scan without patterns finds the source files outside of the skipped directory. -/
theorem mem_scan (hv : v.Unfiltered root base) (hincluded : r.included = []) (hexcluded : r.excluded = [])
    (h : r.scan v root = .ok paths) : p ∈ paths ↔
      ∃ l, p = ⟨.relative, l⟩ ∧ v.IsSource base l ∧ (r.skipped = "" ∨ l.head? ≠ some r.skipped) := by
  obtain rfl := Except.ok.inj ((scan_unfiltered hv).symm.trans h)
  rw [List.mem_filter, mem_tree hv.found]
  constructor
  · rintro ⟨⟨l, rfl, hnil, hat⟩, hselects⟩
    exact ⟨l, rfl, (selects_iff hv hincluded hexcluded hnil hat).1 hselects⟩
  · rintro ⟨l, rfl, hsource, houtside⟩
    obtain ⟨content, hat⟩ := file?_ne_none.1 hsource.regular
    have hat : v.at? (base ++ l) ≠ none := by simp [hat]
    exact ⟨⟨l, rfl, hsource.ne_nil, hat⟩,
      (selects_iff hv hincluded hexcluded hsource.ne_nil hat).2 ⟨hsource, houtside⟩⟩

end ScanRequest

end TypeAtlas
