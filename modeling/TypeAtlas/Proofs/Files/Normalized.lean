import TypeAtlas.Proofs.Repository.Scanned

/-! # Normalized paths

A normalized path starts at a root, and all its segments are names. It is its own normalized path
unless a backslash of the base has stayed in it. A relative path is normalized below its base like
the text of both with a slash between them.
-/

namespace TypeAtlas

/-! ## Parts between separators -/

namespace Text

variable {sep c : Char} {cs part : List Char}

theorem splitAt_ne_nil (sep : Char) (cs : List Char) : splitAt sep cs ≠ [] := by
  cases cs with
  | nil => exact List.cons_ne_nil _ _
  | cons c cs =>
    rw [splitAt]
    split
    · exact List.cons_ne_nil _ _
    · split <;> exact List.cons_ne_nil _ _

theorem splitAt_append_sep (sep : Char) (cs ds : List Char) :
    splitAt sep (cs ++ sep :: ds) = splitAt sep cs ++ splitAt sep ds := by
  induction cs with
  | nil =>
    rw [List.nil_append, splitAt.eq_2, if_pos rfl]
    rfl
  | cons c cs ih =>
    rw [List.cons_append, splitAt, splitAt, ih]
    split
    · rfl
    · cases h : splitAt sep cs with
      | nil => exact absurd h (splitAt_ne_nil sep cs)
      | cons part parts => rfl

theorem of_mem_splitAt (h : part ∈ splitAt sep cs) : sep ∉ part ∧ part ⊆ cs := by
  induction cs generalizing part with
  | nil =>
    obtain rfl := List.mem_singleton.1 h
    exact ⟨List.not_mem_nil, List.nil_subset _⟩
  | cons c cs ih =>
    rw [splitAt] at h
    split at h
    · rcases List.mem_cons.1 h with rfl | h
      · exact ⟨List.not_mem_nil, List.nil_subset _⟩
      · exact ⟨(ih h).1, List.subset_cons_of_subset c (ih h).2⟩
    · next hc =>
      cases hparts : splitAt sep cs with
      | nil => exact absurd hparts (splitAt_ne_nil sep cs)
      | cons first parts =>
        rw [hparts] at h ih
        rcases List.mem_cons.1 h with rfl | h
        · obtain ⟨hsep, hsub⟩ := ih List.mem_cons_self
          exact ⟨fun h => (List.mem_cons.1 h).elim (Ne.symm hc) hsep, List.cons_subset_cons c hsub⟩
        · obtain ⟨hsep, hsub⟩ := ih (List.mem_cons_of_mem first h)
          exact ⟨hsep, List.subset_cons_of_subset c hsub⟩

theorem toList_swap (old new : Char) (s : String) :
    (swap old new s).toList = s.toList.map fun c => if c = old then new else c :=
  String.toList_ofList

theorem swap_of_not_mem {old new : Char} {s : String} (h : old ∉ s.toList) : swap old new s = s := by
  have hkept : ∀ c ∈ s.toList, (if c = old then new else c) = c := by
    rintro c hc
    exact if_neg (ne_of_mem_of_not_mem hc h)
  rw [← String.toList_inj, toList_swap, List.map_congr_left hkept, List.map_id']

theorem not_mem_swap {old new : Char} (h : old ≠ new) (s : String) : old ∉ (swap old new s).toList := by
  rw [toList_swap, List.mem_map]
  rintro ⟨c, -, hc⟩
  split at hc
  · exact h hc.symm
  · next hne => exact hne hc

end Text

namespace Path

open Volume (IsName)

variable {p q : Path} {s t : String} {segments done : List String}

/-! ## Normal forms -/

/-- A segment that is not empty and stands for neither the directory at hand nor the one above. -/
structure IsProper (s : String) : Prop where
  name : IsName s
  ne_empty : s ≠ ""
  ne_here : s ≠ "."
  ne_up : s ≠ ".."

/-- A path that starts at a root, with names for segments. -/
structure Normal (p : Path) : Prop where
  absolute : p.isAbsolute
  proper : ∀ s ∈ p.segments, IsProper s

/-- The text of a path in normal form: a root, and then names between slashes. -/
def IsNormalText (t : String) : Prop :=
  ∃ root ∈ ["/", "//"], ∃ names, (∀ s ∈ names, IsProper s) ∧ t = root ++ Text.join "/" names

theorem Normal.isNormalText (h : p.Normal) : IsNormalText p.toString := by
  obtain ⟨anchor, segments⟩ := p
  cases anchor with
  | relative => cases h.absolute
  | root => exact ⟨"/", by simp, segments, h.proper, rfl⟩
  | doubleRoot => exact ⟨"//", by simp, segments, h.proper, rfl⟩

/-! ## Reading texts -/

theorem of_mem_ofString (h : s ∈ (ofString t).segments) :
    s ≠ "" ∧ s ≠ "." ∧ IsName s ∧ s.toList ⊆ t.toList := by
  rw [ofString, List.mem_filter, List.mem_map] at h
  obtain ⟨⟨part, hpart, rfl⟩, hs⟩ := h
  obtain ⟨hsep, hsub⟩ := Text.of_mem_splitAt hpart
  simp only [Bool.and_eq_true, decide_eq_true_eq] at hs
  refine ⟨hs.1, hs.2, ?_, ?_⟩
  · rwa [IsName, String.toList_ofList]
  · rwa [String.toList_ofList]

theorem anchorOf_append {cs : List Char} (h : anchorOf cs ≠ .relative) (hone : cs ≠ ['/'])
    (htwo : cs ≠ ['/', '/']) (ds : List Char) : anchorOf (cs ++ ds) = anchorOf cs := by
  fun_cases anchorOf cs with
  | case1 tail => rfl
  | case2 tail hthree =>
    cases tail with
    | nil => exact absurd rfl htwo
    | cons c tail =>
      have hc : c ≠ '/' := by
        rintro rfl
        exact hthree tail rfl
      rw [List.cons_append, List.cons_append, List.cons_append, anchorOf]
      simp [hc]
  | case3 tail hthree hdouble =>
    cases tail with
    | nil => exact absurd rfl hone
    | cons c tail =>
      have hc : c ≠ '/' := by
        rintro rfl
        exact hdouble tail rfl
      rw [List.cons_append, List.cons_append, anchorOf] <;> simp [hc]
  | case4 hthree hdouble hslash => exact absurd (by rw [anchorOf] <;> assumption) h

theorem ofString_append (ht : (ofString t).isAbsolute) (hone : t ≠ "/") (htwo : t ≠ "//") (s : String) :
    ofString (t ++ "/" ++ s) = { ofString t with
      segments := (ofString t).segments ++ (ofString s).segments } := by
  have htext : (t ++ "/" ++ s).toList = t.toList ++ '/' :: s.toList := by simp
  have hanchor : anchorOf (t.toList ++ '/' :: s.toList) = anchorOf t.toList := by
    apply anchorOf_append
    · exact bne_iff_ne.1 ht
    · exact fun h => hone (String.toList_inj.1 h)
    · exact fun h => htwo (String.toList_inj.1 h)
  rw [ofString, ofString, ofString, htext, hanchor, Text.splitAt_append_sep, List.map_append,
    List.filter_append]

theorem Normal.ofString_toString (h : p.Normal) : ofString p.toString = p := by
  obtain ⟨anchor, segments⟩ := p
  have hproper : ∀ s ∈ segments, IsProper s := h.proper
  have hkept : segments.filter (fun s => s ≠ "" && s ≠ ".") = segments :=
    List.filter_eq_self.2 fun s hs => by simp [(hproper s hs).ne_empty, (hproper s hs).ne_here]
  cases segments with
  | nil =>
    cases anchor with
    | relative => cases h.absolute
    | root => rfl
    | doubleRoot => rfl
  | cons s ss =>
    have hsplit := splitAt_toString (List.cons_ne_nil s ss) fun r hr => (hproper r hr).name
    have htext : toString ⟨.relative, s :: ss⟩ = Text.join "/" (s :: ss) := rfl
    have hparts : ((s :: ss).map String.toList).map String.ofList = s :: ss := by
      simp [List.map_map, Function.comp_def]
    -- The first name is not empty, so the slashes of the root end in front of it.
    obtain ⟨c, cs, hc, hslash⟩ : ∃ c cs, (Text.join "/" (s :: ss)).toList = c :: cs ∧ c ≠ '/' := by
      obtain ⟨c, cs, hs⟩ := List.exists_cons_of_ne_nil
        (String.toList_eq_nil_iff.not.2 (hproper s List.mem_cons_self).ne_empty)
      refine ⟨c, _, by rw [Json.toList_join_append, hs, List.cons_append], ?_⟩
      rintro rfl
      exact (hproper s List.mem_cons_self).name (by simp [hs])
    rw [htext, hc] at hsplit
    cases anchor with
    | relative => cases h.absolute
    | root =>
      have htext : (toString ⟨.root, s :: ss⟩).toList = '/' :: c :: cs := by
        rw [toString, String.toList_append, hc]
        rfl
      have hroot : anchorOf ('/' :: c :: cs) = .root := by
        rw [anchorOf] <;> simp [hslash]
      rw [ofString, htext, hroot, Text.splitAt, if_pos rfl, hsplit, List.map_cons, hparts]
      exact congrArg (Path.mk .root) hkept
    | doubleRoot =>
      have htext : (toString ⟨.doubleRoot, s :: ss⟩).toList = '/' :: '/' :: c :: cs := by
        rw [toString, String.toList_append, hc]
        rfl
      have hroot : anchorOf ('/' :: '/' :: c :: cs) = .doubleRoot := by
        rw [anchorOf]
        simp [hslash]
      rw [ofString, htext, hroot, Text.splitAt, if_pos rfl, Text.splitAt, if_pos rfl, hsplit,
        List.map_cons, List.map_cons, hparts]
      exact congrArg (Path.mk .doubleRoot) hkept

/-! ## Folding -/

theorem of_mem_foldl_foldStep {P : String → Prop} (hdone : ∀ s ∈ done, P s)
    (hsegments : ∀ s ∈ segments, s ≠ ".." → P s) : ∀ s ∈ segments.foldl (foldStep true) done, P s := by
  induction segments generalizing done with
  | nil => exact hdone
  | cons s segments ih =>
    obtain ⟨hs, hsegments⟩ := List.forall_mem_cons.1 hsegments
    suffices hstep : ∀ kept ∈ foldStep true done s, P kept from ih hstep hsegments
    unfold foldStep
    split
    · split
      · exact fun _ h => absurd h List.not_mem_nil
      · next last rest =>
        obtain ⟨hlast, hrest⟩ := List.forall_mem_cons.1 hdone
        split
        · next hup => exact List.forall_mem_cons.2 ⟨hup ▸ hlast, hdone⟩
        · exact hrest
    · next hup => exact List.forall_mem_cons.2 ⟨hs hup, hdone⟩

theorem foldl_foldStep_of_proper {absolute : Bool} (h : ∀ s ∈ segments, s ≠ "..") (done : List String) :
    segments.foldl (foldStep absolute) done = segments.reverse ++ done := by
  induction segments generalizing done with
  | nil => rfl
  | cons s segments ih =>
    obtain ⟨hs, h⟩ := List.forall_mem_cons.1 h
    have hstep : foldStep absolute done s = s :: done := by rw [foldStep.eq_def, if_neg hs]
    rw [List.foldl_cons, hstep, ih h, List.reverse_cons, List.append_assoc, List.singleton_append]

theorem Normal.fold_eq (h : p.Normal) : p.fold = p := by
  rw [fold, foldl_foldStep_of_proper (fun s hs => (h.proper s hs).ne_up), List.append_nil,
    List.reverse_reverse]

theorem of_mem_fold {P : String → Prop} (hp : p.isAbsolute) (h : ∀ s ∈ p.segments, s ≠ ".." → P s) :
    ∀ s ∈ p.fold.segments, P s := by
  intro s hs
  rw [fold, hp, List.mem_reverse] at hs
  exact of_mem_foldl_foldStep (fun _ h => absurd h List.not_mem_nil) h s hs

theorem normal_fold (hp : p.isAbsolute) (h : ∀ s ∈ p.segments, s ≠ "" ∧ s ≠ "." ∧ IsName s) :
    p.fold.Normal := by
  refine ⟨hp, of_mem_fold hp fun s hs hup => ?_⟩
  obtain ⟨hempty, hhere, hname⟩ := h s hs
  exact ⟨hname, hempty, hhere, hup⟩

theorem mem_toString {c : Char} (hp : p.isAbsolute) (h : c ∈ p.toString.toList) :
    c = '/' ∨ ∃ s ∈ p.segments, c ∈ s.toList := by
  obtain ⟨anchor, segments⟩ := p
  have hjoin : c ∈ (Text.join "/" segments).toList → c = '/' ∨ ∃ s ∈ segments, c ∈ s.toList := by
    cases segments with
    | nil => exact fun h => absurd h List.not_mem_nil
    | cons s ss =>
      rw [Json.toList_join_append]
      simp only [List.mem_append, List.mem_flatMap, List.mem_map]
      rintro (h | ⟨_, ⟨t, ht, rfl⟩, h⟩)
      · exact .inr ⟨s, List.mem_cons_self, h⟩
      · rcases h with h | h
        · exact .inl (List.mem_singleton.1 h)
        · exact .inr ⟨t, List.mem_cons_of_mem s ht, h⟩
  cases anchor with
  | relative => cases hp
  | root =>
    rw [toString, String.toList_append, List.mem_append] at h
    rcases h with h | h
    · exact .inl (List.mem_singleton.1 h)
    · exact hjoin h
  | doubleRoot =>
    rw [toString, String.toList_append, List.mem_append] at h
    rcases h with h | h
    · exact .inl (by simpa using h)
    · exact hjoin h

/-! ## Joining -/

theorem join_of_isAbsolute (hq : q.isAbsolute) : p / q = q := if_pos hq

theorem join_of_relative (hq : ¬ q.isAbsolute) : p / q = { p with segments := p.segments ++ q.segments } :=
  if_neg hq

theorem isAbsolute_join (hp : p.isAbsolute) (q : Path) : (p / q).isAbsolute := by
  by_cases hq : q.isAbsolute
  · rwa [join_of_isAbsolute hq]
  · rw [join_of_relative hq]
    exact hp

theorem mem_segments_join (h : s ∈ (p / q).segments) :
    s ∈ q.segments ∨ ¬ q.isAbsolute ∧ s ∈ p.segments := by
  by_cases hq : q.isAbsolute
  · rw [join_of_isAbsolute hq] at h
    exact .inl h
  · rw [join_of_relative hq] at h
    exact (List.mem_append.1 h).symm.imp_right fun h => ⟨hq, h⟩

/-! ## Normalizing -/

variable {path base : String}

theorem normalize_some (hbase : (ofString base).isAbsolute) (path : String) (at_ : Path) :
    normalize path (some base) at_ = (ofString base / ofString (Text.swap '\\' '/' path)).fold.toString :=
  congrArg (fun start => (start / ofString (Text.swap '\\' '/' path)).fold.toString)
    (join_of_isAbsolute hbase)

theorem normalize_absolute (h : (ofString (Text.swap '\\' '/' path)).isAbsolute) (base : Option String)
    (at_ : Path) : normalize path base at_ = (ofString (Text.swap '\\' '/' path)).fold.toString :=
  congrArg (fun p : Path => p.fold.toString) (join_of_isAbsolute h)

/-- A path in normal form has nothing left to normalize, wherever it is taken to stand. -/
theorem Normal.normalize_eq (h : p.Normal) (hslash : '\\' ∉ p.toString.toList) (base : Option String)
    (at_ : Path) : normalize p.toString base at_ = p.toString := by
  have hself : ofString (Text.swap '\\' '/' p.toString) = p := by
    rw [Text.swap_of_not_mem hslash, h.ofString_toString]
  rw [normalize_absolute (by rw [hself]; exact h.absolute), hself, h.fold_eq]

/-- Folding a path below an absolute base gives a path in normal form. -/
theorem normal_fold_join (hbase : (ofString base).isAbsolute) (t : String) :
    (ofString base / ofString t).fold.Normal := by
  refine normal_fold (isAbsolute_join hbase _) fun s hs => ?_
  rcases mem_segments_join hs with h | ⟨-, h⟩
  · exact ⟨(of_mem_ofString h).1, (of_mem_ofString h).2.1, (of_mem_ofString h).2.2.1⟩
  · exact ⟨(of_mem_ofString h).1, (of_mem_ofString h).2.1, (of_mem_ofString h).2.2.1⟩

/-- A backslash in a normalized path is one of the base. -/
theorem of_backslash_mem_normalize (hbase : (ofString base).isAbsolute) (path : String)
    (h : '\\' ∈ (ofString base / ofString (Text.swap '\\' '/' path)).fold.toString.toList) :
    ¬ (ofString (Text.swap '\\' '/' path)).isAbsolute ∧ '\\' ∈ base.toList := by
  have habsolute := isAbsolute_join hbase (ofString (Text.swap '\\' '/' path))
  rcases mem_toString (normal_fold_join hbase _).absolute h with hslash | ⟨s, hs, hmem⟩
  · cases hslash
  refine of_mem_fold (P := fun s => '\\' ∈ s.toList → _) habsolute (fun s hs _ hmem => ?_) s hs hmem
  rcases mem_segments_join hs with hs | ⟨hrelative, hs⟩
  · exact absurd ((of_mem_ofString hs).2.2.2 hmem) (Text.not_mem_swap (by decide) path)
  · exact ⟨hrelative, (of_mem_ofString hs).2.2.2 hmem⟩

/-- Normalization at an absolute base gives a normal form, which is fixed unless a backslash of the base is
left in it. A relative path is normalized like the text of the base and the path with a slash between
them, unless this slash belongs to the root. -/
theorem normalize_canonical (hbase : (ofString base).isAbsolute) (path : String) (at_ : Path) :
    IsNormalText (normalize path (some base) at_) ∧
      ('\\' ∈ (normalize path (some base) at_).toList →
        ¬ (ofString (Text.swap '\\' '/' path)).isAbsolute ∧ '\\' ∈ base.toList) ∧
      ('\\' ∉ (normalize path (some base) at_).toList → ∀ other there,
        normalize (normalize path (some base) at_) other there = normalize path (some base) at_) ∧
      (¬ (ofString (Text.swap '\\' '/' path)).isAbsolute →
        '\\' ∉ base.toList → base ≠ "/" → base ≠ "//" → ∀ other there,
          normalize (base ++ "/" ++ path) other there = normalize path (some base) at_) := by
  have hnormal := normal_fold_join hbase (Text.swap '\\' '/' path)
  rw [normalize_some hbase]
  refine ⟨hnormal.isNormalText, of_backslash_mem_normalize hbase path,
    fun hslash other there => hnormal.normalize_eq hslash other there,
    fun hrelative hslash hone htwo other there => ?_⟩
  have hswap : Text.swap '\\' '/' (base ++ "/" ++ path) = base ++ "/" ++ Text.swap '\\' '/' path := by
    have hkept : (Text.swap '\\' '/' base).toList = base.toList := by rw [Text.swap_of_not_mem hslash]
    rw [Text.toList_swap] at hkept
    rw [← String.toList_inj]
    simp [Text.toList_swap, hkept]
  have hbelow := ofString_append hbase hone htwo (Text.swap '\\' '/' path)
  rw [normalize_absolute (by rw [hswap, hbelow]; exact hbase), hswap, hbelow, join_of_relative hrelative]

theorem normalize_canonical_climbing :
    (ofString "/repo/src").isAbsolute ∧
      ¬ (ofString (Text.swap '\\' '/' "..\\lib//./a.ts")).isAbsolute ∧
      '\\' ∉ (normalize "..\\lib//./a.ts" (some "/repo/src")).toList ∧
      ('\\' ∉ "/repo/src".toList ∧ "/repo/src" ≠ "/" ∧ "/repo/src" ≠ "//") ∧
      IsNormalText (normalize "..\\lib//./a.ts" (some "/repo/src")) ∧
      (∀ other there, normalize (normalize "..\\lib//./a.ts" (some "/repo/src")) other there =
        normalize "..\\lib//./a.ts" (some "/repo/src")) ∧
      ∀ other there, normalize ("/repo/src" ++ "/" ++ "..\\lib//./a.ts") other there =
        normalize "..\\lib//./a.ts" (some "/repo/src") := by
  have habsolute : (ofString "/repo/src").isAbsolute := by decide
  have hrelative : ¬ (ofString (Text.swap '\\' '/' "..\\lib//./a.ts")).isAbsolute := by decide
  have hslash : '\\' ∉ (normalize "..\\lib//./a.ts" (some "/repo/src")).toList := by decide
  have hbase : '\\' ∉ "/repo/src".toList ∧ "/repo/src" ≠ "/" ∧ "/repo/src" ≠ "//" := by decide
  obtain ⟨hnormal, -, hfixed, hjoined⟩ := normalize_canonical habsolute "..\\lib//./a.ts" root
  exact ⟨habsolute, hrelative, hslash, hbase, hnormal, hfixed hslash,
    hjoined hrelative hbase.1 hbase.2.1 hbase.2.2⟩

/-- A slash after a root makes another root, and a backslash of the base is a separator only when the
text is read again. -/
theorem normalize_not_canonical :
    normalize "x" (some "/") ≠ normalize ("/" ++ "/" ++ "x") (some "/") ∧
      normalize "x" (some "//") ≠ normalize ("//" ++ "/" ++ "x") (some "//") ∧
      normalize "x" (some "/a\\b") ≠ normalize ("/a\\b" ++ "/" ++ "x") (some "/") ∧
      normalize (normalize "x" (some "/a\\b")) (some "/") ≠ normalize "x" (some "/a\\b") := by
  decide

end Path

end TypeAtlas
