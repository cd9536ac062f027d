import Mathlib.Data.List.TakeWhile
import TypeAtlas.Proofs.Json.ReadBack
import TypeAtlas.Tag.Comment

/-! # Tags written into comments

Splitting a comment undoes writing tags into one. A payload may be wrapped over any number of lines, and
its parts may begin with a star or contain the marks of a comment.
-/

namespace TypeAtlas

/-! ## Blanks and lines -/

namespace Text

variable {c : Char} {cs ds : List Char}

theorem isBlank_of_isLineBreak (h : isLineBreak c) : isBlank c := by
  have hbreaks : ∀ n ∈ lineBreaks, n ∈ blanks := by decide
  exact List.contains_iff_mem.2 (hbreaks _ (List.contains_iff_mem.1 h))

theorem not_isBlank_of_isWord (h : isWord c) : ¬ isBlank c := by
  have hblanks : ∀ n ∈ blanks, ¬ isWord (Char.ofNat n) := by decide +kernel
  intro hblank
  refine hblanks _ (List.contains_iff_mem.1 hblank) ?_
  rwa [Char.ofNat_toNat]

/-- There is no blank at either end. -/
structure Bare (cs : List Char) : Prop where
  head : ∀ c ∈ cs.head?, ¬ isBlank c
  last : ∀ c ∈ cs.getLast?, ¬ isBlank c

theorem trimStart_eq_self : trimStart cs = cs ↔ ∀ c ∈ cs.head?, ¬ isBlank c := by
  rw [trimStart, List.dropWhile_eq_self_iff]
  cases cs <;> simp

theorem trimEnd_eq_self : trimEnd cs = cs ↔ ∀ c ∈ cs.getLast?, ¬ isBlank c := by
  have hreverse : trimEnd cs = cs ↔ trimStart cs.reverse = cs.reverse := by
    rw [trimEnd, List.reverse_eq_iff]
    rfl
  rw [hreverse, trimStart_eq_self, List.head?_reverse]

theorem trim_eq_self : trim cs = cs ↔ Bare cs := by
  constructor
  · intro h
    have hlength : cs.length ≤ (trimStart cs).length := by
      calc cs.length = (trim cs).length := by rw [h]
        _ ≤ (trimStart cs).length := by
          have hsuffix := (List.dropWhile_suffix isBlank (l := (trimStart cs).reverse)).length_le
          simpa [trim, trimEnd] using hsuffix
    have hstart : trimStart cs = cs := (List.dropWhile_suffix _).eq_of_length_le hlength
    rw [trim, hstart] at h
    exact ⟨trimStart_eq_self.1 hstart, trimEnd_eq_self.1 h⟩
  · intro h
    rw [trim, trimStart_eq_self.2 h.head, trimEnd_eq_self.2 h.last]

theorem splitLines_append (h : ∀ c ∈ cs, ¬ isLineBreak c) :
    splitLines (cs ++ '\n' :: ds) = cs :: splitLines ds := by
  have hgo (line : List Char) :
      splitLines.go line (cs ++ '\n' :: ds) = (line.reverse ++ cs) :: splitLines ds := by
    induction cs generalizing line with
    | nil =>
      have hbreak : isLineBreak '\n' = true := by decide
      rw [List.nil_append, splitLines.go, if_pos hbreak, List.append_nil, splitLines]
      simp
    | cons c cs ih =>
      obtain ⟨hc, hcs⟩ := List.forall_mem_cons.1 h
      rw [List.cons_append, splitLines.go, if_neg hc, ih hcs, List.reverse_cons, List.append_assoc]
      · rfl
      · rintro rest rfl
        exact absurd (by decide) hc
  exact hgo []

theorem splitLines_flatMap {lines : List (List Char)} (h : ∀ l ∈ lines, ∀ c ∈ l, ¬ isLineBreak c) :
    splitLines ((lines.flatMap fun l => l ++ ['\n']) ++ ds) = lines ++ splitLines ds := by
  induction lines with
  | nil => rfl
  | cons l lines ih =>
    obtain ⟨hl, hlines⟩ := List.forall_mem_cons.1 h
    rw [List.flatMap_cons, List.append_assoc, List.append_assoc, List.singleton_append,
      splitLines_append hl, ih hlines, List.cons_append]

end Text

namespace Comment

open Text

variable {c : Char} {cs ds rest : List Char} {name : List Char}

/-! ## Lines that begin a tag -/

/-- The text is a name that a tag can have. -/
inductive IsName : List Char → Prop
  | mk {c : Char} {rest : List Char} (hc : startsName c) (hrest : ∀ x ∈ rest, continuesName x) :
      IsName (c :: rest)

/-- The line begins a tag: a name, and then nothing or a blank and any text. -/
def BeginsTag (line : List Char) : Prop :=
  ∃ name rest, IsName name ∧ line = '@' :: (name ++ rest) ∧ ∀ b ∈ rest.head?, isBlank b

theorem not_isBlank_of_continuesName (h : continuesName c) : ¬ isBlank c := by
  rcases Bool.or_eq_true_iff.1 h with h | h
  · exact not_isBlank_of_isWord h
  · obtain rfl := beq_iff_eq.1 h
    decide

theorem continuesName_of_startsName (h : startsName c) : continuesName c := by
  have hword : isWord c := by
    rcases Bool.or_eq_true_iff.1 h with h | h
    · have hsmall : c.val < 128 := by
        rcases Bool.or_eq_true_iff.1 h with hcase | hcase
        · have hle : c.val ≤ 'Z'.val := (of_decide_eq_true hcase).2
          exact UInt32.lt_of_le_of_lt hle (by decide)
        · have hle : c.val ≤ 'z'.val := of_decide_eq_true (Bool.and_eq_true_iff.1 hcase).2
          exact UInt32.lt_of_le_of_lt hle (by decide)
      rw [isWord, if_pos hsmall, Char.isAlphanum, h]
      rfl
    · obtain rfl := beq_iff_eq.1 h
      decide
  exact Bool.or_eq_true_iff.2 (.inl hword)

theorem IsName.continues (h : IsName name) : ∀ x ∈ name, continuesName x := by
  cases h with
  | mk hc hrest => exact List.forall_mem_cons.2 ⟨continuesName_of_startsName hc, hrest⟩

theorem tagLine?_append (h : IsName name) (hrest : ∀ b ∈ rest.head?, isBlank b) :
    tagLine? ('@' :: (name ++ rest)) = some (name, trimStart rest.tail) := by
  cases h with
  | @mk c cs hc hcs =>
    have hends : rest.takeWhile continuesName = [] ∧ rest.dropWhile continuesName = rest := by
      cases rest with
      | nil => exact ⟨rfl, rfl⟩
      | cons b rest =>
        have hb : ¬ continuesName b := fun hb => not_isBlank_of_continuesName hb (hrest b rfl)
        exact ⟨List.takeWhile_cons_of_neg hb, List.dropWhile_cons_of_neg hb⟩
    rw [List.cons_append, tagLine?, if_pos hc]
    dsimp only
    rw [List.takeWhile_append_of_pos hcs, List.dropWhile_append_of_pos hcs, hends.1, hends.2, List.append_nil]
    cases rest with
    | nil => rfl
    | cons b rest => exact if_pos (hrest b rfl)

theorem addLine_name (h : IsName name) (hrest : ∀ b ∈ rest.head?, isBlank b) (ds : List Draft) :
    addLine ds ('@' :: (name ++ rest)) = ⟨name, [trimStart rest.tail]⟩ :: ds := by
  simp only [addLine, tagLine?_append h hrest]

theorem beginsTag_of_tagLine? {line : List Char} {p : List Char × List Char} (h : tagLine? line = some p) :
    BeginsTag line := by
  unfold tagLine? at h
  split at h
  · next c rest =>
    split at h
    · next hc =>
      refine ⟨c :: rest.takeWhile continuesName, rest.dropWhile continuesName,
        .mk hc fun x hx => List.mem_takeWhile_imp hx, ?_, ?_⟩
      · rw [List.cons_append, List.takeWhile_append_dropWhile]
      · dsimp only at h
        split at h
        · next hrest =>
          rw [hrest]
          exact nofun
        · next b after hrest =>
          rw [hrest]
          rintro _ ⟨⟩
          by_contra hb
          rw [if_neg hb] at h
          cases h
    · cases h
  · cases h

theorem tagLine?_eq_none {line : List Char} (h : ¬ BeginsTag line) : tagLine? line = none :=
  Option.eq_none_iff_forall_ne_some.2 fun _ hp => h (beginsTag_of_tagLine? hp)

/-! ## Comments -/

/-- A text that may stand on a line by itself. -/
structure IsPart (cs : List Char) : Prop where
  ne_nil : cs ≠ []
  trimmed : trim cs = cs
  unbroken : ∀ c ∈ cs, ¬ isLineBreak c

end Comment

open Comment

/-- A tag whose payload is divided into parts, each of which has a line of its own. -/
structure WrittenTag where
  name : String
  parts : List String
  isName : IsName name.toList
  isPart : ∀ s ∈ parts, IsPart s.toList
  /-- Only the line with the name begins a tag. -/
  continues : ∀ s ∈ parts.tail, ¬ BeginsTag s.toList

namespace WrittenTag

/-- The tag with its payload in one piece. -/
def raw (t : WrittenTag) : RawTag := ⟨t.name, Text.join " " t.parts⟩

/-- The lines of the tag, of which the first one has its name. -/
def lines (t : WrittenTag) : List String :=
  match t.parts with
  | [] => ["@" ++ t.name]
  | part :: parts => ("@" ++ t.name ++ " " ++ part) :: parts

/-- The comment with the given tags, a line after the other. -/
def comment (ts : List WrittenTag) : String :=
  Text.join "\n" (["/**"] ++ (ts.flatMap lines).map (" * " ++ ·) ++ [" */"])

/-! ### Lines -/

theorem toList_comment (ts : List WrittenTag) :
    (comment ts).toList = "/**\n".toList ++ ((((ts.flatMap lines).map fun l => " * ".toList ++ l.toList).flatMap
      fun l => l ++ ['\n']) ++ " ".toList) ++ "*/".toList := by
  have hshift (ls : List (List Char)) (cs : List Char) : (ls ++ [cs]).flatMap (fun l => '\n' :: l) =
      '\n' :: (ls.flatMap fun l => l ++ ['\n']) ++ cs := by
    induction ls with
    | nil => simp
    | cons l ls ih => simp only [List.cons_append, List.flatMap_cons, ih, List.append_assoc, List.nil_append]
  have hlines : (ts.flatMap lines).map (String.toList ∘ (" * " ++ ·)) =
      (ts.flatMap lines).map fun l => " * ".toList ++ l.toList :=
    List.map_congr_left fun l _ => String.toList_append
  rw [comment, List.append_assoc, List.singleton_append, Json.toList_join_append, List.map_append,
    List.map_map, hlines]
  change "/**".toList ++ (_ ++ [" */".toList]).flatMap (fun l => '\n' :: l) = _
  rw [hshift]
  simp

/-- A line that comes out of a comment as it went in. -/
structure Kept (line : List Char) : Prop where
  bare : Text.Bare line
  unbroken : ∀ c ∈ line, ¬ Text.isLineBreak c

theorem kept_part {part : List Char} (h : IsPart part) : Kept part :=
  ⟨Text.trim_eq_self.1 h.trimmed, h.unbroken⟩

theorem kept_name {name : List Char} (h : IsName name) : Kept ('@' :: name) := by
  have hplain : ∀ c ∈ '@' :: name, ¬ Text.isBlank c :=
    List.forall_mem_cons.2 ⟨by decide, fun c hc => not_isBlank_of_continuesName (h.continues c hc)⟩
  exact ⟨⟨fun c hc => hplain c (List.mem_of_mem_head? hc), fun c hc => hplain c (List.mem_of_getLast? hc)⟩,
    fun c hc hbreak => hplain c hc (Text.isBlank_of_isLineBreak hbreak)⟩

/-- A line may be continued by a part. -/
theorem Kept.append {line part : List Char} (h : Kept line) (hne : line ≠ []) (hpart : IsPart part) :
    Kept (line ++ ' ' :: part) := by
  refine ⟨⟨fun c hc => ?_, fun c hc => ?_⟩, fun c hc => ?_⟩
  · rw [List.head?_append_of_ne_nil _ hne] at hc
    exact h.bare.head c hc
  · rw [List.append_cons, List.getLast?_append_of_ne_nil _ hpart.ne_nil] at hc
    exact (kept_part hpart).bare.last c hc
  · rcases List.mem_append.1 hc with hc | hc
    · exact h.unbroken c hc
    · rcases List.mem_cons.1 hc with rfl | hc
      · decide
      · exact hpart.unbroken c hc

theorem kept_lines (t : WrittenTag) : ∀ l ∈ t.lines, Kept l.toList := by
  obtain ⟨name, parts, isName, isPart, -⟩ := t
  intro l hl
  cases parts with
  | nil =>
    obtain rfl := List.mem_singleton.1 hl
    simpa using kept_name isName
  | cons part parts =>
    rcases List.mem_cons.1 hl with rfl | hl
    · simpa using (kept_name isName).append (List.cons_ne_nil _ _) (isPart part List.mem_cons_self)
    · exact kept_part (isPart l (List.mem_cons_of_mem _ hl))

/-- The lines of the tags are found again. -/
theorem lines_comment (ts : List WrittenTag) :
    Comment.lines (comment ts).toList = [] :: (ts.flatMap lines).map String.toList ++ [[]] := by
  have hopening (cs : List Char) : dropOpening ("/**\n".toList ++ cs) = '\n' :: cs := rfl
  have hclosing (cs : List Char) : dropClosing (cs ++ "*/".toList) = cs := by
    have hend : Text.trimEnd (cs ++ "*/".toList) = cs ++ "*/".toList :=
      Text.trimEnd_eq_self.2 (by simp; decide)
    rw [dropClosing, hend]
    simp
  have hstar (l : List Char) : dropStar (" * ".toList ++ l) = l := rfl
  have hkept : ∀ l ∈ ts.flatMap lines, Kept l.toList := by
    intro l hl
    obtain ⟨t, -, hl⟩ := List.mem_flatMap.1 hl
    exact t.kept_lines l hl
  have hunbroken : ∀ l ∈ (ts.flatMap lines).map (fun l => " * ".toList ++ l.toList),
      ∀ c ∈ l, ¬ Text.isLineBreak c := by
    intro l hl c hc
    obtain ⟨s, hs, rfl⟩ := List.mem_map.1 hl
    rcases List.mem_append.1 hc with hc | hc
    · have hmarks : (" * ".toList.all fun c => !Text.isLineBreak c) = true := by decide
      simpa using List.all_eq_true.1 hmarks c hc
    · exact (hkept s hs).unbroken c hc
  rw [Comment.lines, toList_comment, List.append_assoc, hopening, ← List.cons_append, hclosing,
    ← List.nil_append ('\n' :: _), Text.splitLines_append (by simp), Text.splitLines_flatMap hunbroken,
    List.map_cons, List.map_append, List.map_map]
  refine congrArg₂ List.cons rfl (congrArg₂ (· ++ ·) (List.map_congr_left fun l hl => ?_) rfl)
  rw [Function.comp_apply, hstar]
  exact Text.trim_eq_self.2 (hkept l hl).bare

/-! ### Drafts -/

theorem foldl_addLine_parts {ls : List (List Char)} (h : ∀ l ∈ ls, l ≠ [] ∧ ¬ BeginsTag l) (d : Draft)
    (ds : List Draft) : ls.foldl addLine (d :: ds) = ⟨d.name, ls.reverse ++ d.parts⟩ :: ds := by
  induction ls generalizing d with
  | nil => rfl
  | cons l ls ih =>
    obtain ⟨⟨hne, hplain⟩, hls⟩ := List.forall_mem_cons.1 h
    have hadd : addLine (d :: ds) l = ⟨d.name, l :: d.parts⟩ :: ds := by
      rw [addLine, tagLine?_eq_none hplain]
      exact if_neg (by simpa using hne)
    rw [List.foldl_cons, hadd, ih hls, List.reverse_cons, List.append_assoc, List.singleton_append]

/-- The lines of a tag amount to the tag. -/
theorem foldl_addLine (t : WrittenTag) (ds : List Draft) :
    ∃ d, (t.lines.map String.toList).foldl addLine ds = d :: ds ∧ d.finish = t.raw := by
  obtain ⟨name, parts, isName, isPart, continues⟩ := t
  cases parts with
  | nil =>
    refine ⟨⟨name.toList, [[]]⟩, ?_, by simp [Draft.finish, raw]⟩
    have hline : ("@" ++ name).toList = '@' :: (name.toList ++ []) := by simp
    rw [lines, List.map_singleton, List.foldl_cons, List.foldl_nil, hline]
    exact addLine_name isName (by simp) ds
  | cons part parts =>
    obtain ⟨hpart, hparts⟩ := List.forall_mem_cons.1 isPart
    refine ⟨⟨name.toList, (parts.map String.toList).reverse ++ [part.toList]⟩, ?_, ?_⟩
    · have hline : ("@" ++ name ++ " " ++ part).toList = '@' :: (name.toList ++ ' ' :: part.toList) := by
        simp
      have hstart : Text.trimStart part.toList = part.toList :=
        Text.trimStart_eq_self.2 (Text.trim_eq_self.1 hpart.trimmed).head
      rw [lines, List.map_cons, List.foldl_cons, hline, addLine_name isName (by simp; decide),
        List.tail_cons, hstart]
      refine foldl_addLine_parts (fun l hl => ?_) _ _
      obtain ⟨s, hs, rfl⟩ := List.mem_map.1 hl
      exact ⟨(hparts s hs).ne_nil, continues s hs⟩
    · have hfilter : ((part :: parts).map String.toList).filter (· ≠ []) =
          (part :: parts).map String.toList := by
        refine List.filter_eq_self.2 fun l hl => ?_
        obtain ⟨s, hs, rfl⟩ := List.mem_map.1 hl
        exact decide_eq_true (isPart s hs).ne_nil
      rw [Draft.finish, List.reverse_append, List.reverse_reverse, List.reverse_singleton,
        List.singleton_append, ← List.map_cons, hfilter]
      simp [raw]

theorem foldl_addLine_flatMap (ts : List WrittenTag) (ds : List Draft) :
    ∃ es, ((ts.flatMap lines).map String.toList).foldl addLine ds = es ++ ds ∧
      es.map Draft.finish = (ts.map raw).reverse := by
  induction ts generalizing ds with
  | nil => exact ⟨[], rfl, rfl⟩
  | cons t ts ih =>
    obtain ⟨d, hd, hraw⟩ := t.foldl_addLine ds
    obtain ⟨es, hes, hraws⟩ := ih (d :: ds)
    refine ⟨es ++ [d], ?_, ?_⟩
    · rw [List.flatMap_cons, List.map_append, List.foldl_append, hd, hes, List.append_assoc,
        List.singleton_append]
    · rw [List.map_append, hraws, List.map_singleton, hraw, List.map_cons, List.reverse_cons]

/-- Splitting a comment undoes writing tags into it, however their payloads are wrapped. -/
theorem splitTags_comment (ts : List WrittenTag) : splitTags (comment ts) = ts.map raw := by
  obtain ⟨es, hes, hraws⟩ := foldl_addLine_flatMap ts []
  rw [List.append_nil] at hes
  have hclosing : addLine es [] = es := by
    cases es <;> rfl
  rw [splitTags, lines_comment, List.foldl_append, List.foldl_cons]
  change ((([[]].foldl addLine (((ts.flatMap lines).map String.toList).foldl addLine [])).map
    Draft.finish).reverse) = _
  rw [hes, List.foldl_cons, List.foldl_nil, hclosing, hraws, List.reverse_reverse]

example : splitTags "/**\n * @check low /* or */\n * * high */\n * @pk\n */" =
    [⟨"check", "low /* or */ * high */"⟩, ⟨"pk", ""⟩] := by decide +kernel

end WrittenTag

end TypeAtlas
