import TypeAtlas.Proofs.Tag.Read
import TypeAtlas.Proofs.Tag.Written

/-! # Foreign keys

The payload of a foreign key is a reference and perhaps two actions. The grammar lets any blanks stand
between them, while the reference is read up to the first space. The two agree on a payload exactly if
the first blank in it, where there is one, is a space.
-/

namespace TypeAtlas

/-! ## Words -/

namespace Text

variable {b c sep : Char} {cs ds es : List Char}

/-- The words of a text, between its blanks. -/
def words (cs : List Char) : List (List Char) := (cs.splitOnP isBlank).filter (· ≠ [])

theorem words_cons_blank (hb : isBlank b) (cs : List Char) : words (b :: cs) = words cs := by
  rw [words, List.splitOnP_cons_eq_if_modifyHead, if_pos hb]
  rfl

theorem words_append_of_blank (h : ∀ c ∈ cs, isBlank c) (ds : List Char) :
    words (cs ++ ds) = words ds := by
  induction cs with
  | nil => rfl
  | cons c cs ih =>
    obtain ⟨hc, hcs⟩ := List.forall_mem_cons.1 h
    rw [List.cons_append, words_cons_blank hc, ih hcs]

theorem words_word (hne : cs ≠ []) (h : ∀ c ∈ cs, ¬ isBlank c) : words cs = [cs] := by
  rw [words, List.splitOnP_eq_singleton fun c hc => Bool.eq_false_iff.2 (h c hc)]
  simp [hne]

theorem words_append (hne : cs ≠ []) (h : ∀ c ∈ cs, ¬ isBlank c) (hb : isBlank b) (ds : List Char) :
    words (cs ++ b :: ds) = cs :: words ds := by
  rw [words, List.splitOnP_append_cons_of_forall_mem (fun c hc => Bool.eq_false_iff.2 (h c hc)) b hb]
  simp [words, hne]

theorem fst_cut (sep : Char) (cs : List Char) : (cut sep cs).1 = cs.takeWhile (· ≠ sep) := by
  induction cs with
  | nil => rfl
  | cons c cs ih =>
    rw [cut, List.takeWhile_cons]
    by_cases hc : c = sep <;> simp [hc, ih]

theorem eq_of_cut (h : cut sep cs = (ds, some es)) : cs = ds ++ sep :: es ∧ sep ∉ ds := by
  by_cases hmem : sep ∈ cs
  · obtain ⟨as, bs, rfl, has⟩ := List.eq_append_cons_of_mem hmem
    rw [cut_append has] at h
    obtain ⟨rfl, hes⟩ := Prod.mk.inj h
    exact ⟨by rw [Option.some.inj hes], has⟩
  · rw [cut_of_not_mem hmem] at h
    cases h

/-- A word has letters, numbers and low lines only. -/
structure Word (cs : List Char) : Prop where
  ne_nil : cs ≠ []
  word : ∀ c ∈ cs, isWord c

theorem Word.not_mem (h : Word cs) (hc : ¬ isWord c) : c ∉ cs := fun hmem => hc (h.word c hmem)

theorem Word.not_blank (h : Word cs) : ∀ c ∈ cs, ¬ isBlank c :=
  fun c hc => not_isBlank_of_isWord (h.word c hc)

theorem trim_append_of_blank (h : ∀ c ∈ cs, isBlank c) (ds : List Char) :
    trim (cs ++ ds) = trim ds := by
  rw [trim, trim, trimStart, trimStart, List.dropWhile_append_of_pos h]

theorem bare_of_not_blank (h : ∀ c ∈ cs, ¬ isBlank c) : Bare cs :=
  ⟨fun c hc => h c (List.mem_of_mem_head? hc), fun c hc => h c (List.mem_of_getLast? hc)⟩

end Text

open Text

/-! ## The grammar -/

namespace Payload

variable {cs rest : List Char} {fields : List (String × Datum)}

theorem word_of_some1 (h : some1 isWord cs) : Word cs := by
  simp only [some1, Bool.and_eq_true, Bool.not_eq_true', List.isEmpty_eq_false_iff,
    List.all_eq_true] at h
  exact ⟨h.1, h.2⟩

theorem eq_of_isActions (h : isActions cs) : ∃ d u, Word d ∧ Word u ∧ cs = d ++ ':' :: u := by
  unfold isActions at h
  split at h
  · next u hspan =>
    obtain ⟨d, hd, hword, rfl⟩ := span1?_eq_some hspan
    exact ⟨d, u, ⟨hd, hword⟩, word_of_some1 h, rfl⟩
  · cases h

theorem eq_of_isForeignKey (h : isForeignKey cs) :
    ∃ ref ≠ [], (∀ c ∈ ref, ¬ isBlank c) ∧
      (cs = ref ∨ ∃ b gap d u, isBlank b ∧ (∀ c ∈ gap, isBlank c) ∧ Word d ∧ Word u ∧
        cs = ref ++ b :: (gap ++ (d ++ ':' :: u))) := by
  have hclass (c : Char) (hc : (isWord c || c == '.') = true) : ¬ isBlank c := by
    rcases Bool.or_eq_true_iff.1 hc with hc | hc
    · exact not_isBlank_of_isWord hc
    · rw [beq_iff_eq.1 hc]
      decide
  unfold isForeignKey at h
  split at h
  · next hspan =>
    obtain ⟨ref, hne, hcls, rfl⟩ := span1?_eq_some hspan
    exact ⟨ref, hne, fun c hc => hclass c (hcls c hc), .inl (List.append_nil _)⟩
  · next b rest hspan =>
    obtain ⟨ref, hne, hcls, rfl⟩ := span1?_eq_some hspan
    obtain ⟨hb, hactions⟩ := Bool.and_eq_true_iff.1 h
    obtain ⟨d, u, hd, hu, hrest⟩ := eq_of_isActions hactions
    refine ⟨ref, hne, fun c hc => hclass c (hcls c hc), .inr
      ⟨b, rest.takeWhile isBlank, d, u, hb, fun c hc => List.mem_takeWhile_imp hc, hd, hu, ?_⟩⟩
    rw [← hrest, trimStart, List.takeWhile_append_dropWhile]
  · cases h

/-! ## The reading -/

theorem eq_of_readForeignKey (h : readForeignKey cs = some fields) :
    ∃ target field, target ≠ [] ∧ field ≠ [] ∧ '.' ∉ target ∧
      cs.takeWhile (· ≠ ' ') = target ++ '.' :: field ∧
      fields = [("target", .text (String.ofList target)), ("field", .text (String.ofList field))] ++
        (actionField "onDelete" (cut ':' (trim ((cut ' ' cs).2.getD []))).1 ++
          actionField "onUpdate" ((cut ':' (trim ((cut ' ' cs).2.getD []))).2.getD [])) := by
  unfold readForeignKey at h
  dsimp only at h
  split at h
  · cases h
  · next hne =>
    rw [← fst_cut]
    obtain ⟨htarget, hfield⟩ := not_or.1 (mt Bool.or_eq_true_iff.2 hne)
    rw [List.isEmpty_iff] at htarget hfield
    cases hpath : cut '.' (cut ' ' cs).1 with
    | mk target field =>
      rw [hpath] at h htarget hfield
      cases field with
      | none => exact absurd rfl hfield
      | some field =>
        obtain ⟨heq, hdot⟩ := eq_of_cut hpath
        exact ⟨target, field, htarget, hfield, hdot, heq, by
          rw [← List.append_assoc]; exact (Option.some.inj h).symm⟩

end Payload

def actionNames : List (String × String) := [
  ("cascade", "cascade"), ("restrict", "restrict"), ("setnull", "set null"), ("set null", "set null"),
  ("noaction", "no action"), ("no action", "no action")]

/-- The action that a word stands for, in capitals or not: no action if it has no other name. -/
def actionNamed (word : List Char) : String :=
  (actionNames.lookup (small (String.ofList word))).getD "no action"

theorem Payload.action_eq {word : List Char} (h : Word word) : action word = actionNamed word := by
  have htrim : trim word = word := trim_eq_self.2 (bare_of_not_blank h.not_blank)
  rw [action, htrim, actionNamed, small, String.toList_ofList]
  generalize String.ofList (word.map Char.toLower) = s
  by_cases h : s ∈ actionNames.map Prod.fst
  · revert s
    decide
  · have hlookup : actionNames.lookup s = none := by
      rw [List.lookup_eq_none_iff]
      intro p hp
      have hne : s ≠ p.1 := fun heq => h (heq ▸ List.mem_map_of_mem hp)
      simpa using hne
    rw [hlookup]
    simp only [actionNames, List.map_cons, List.map_nil, List.mem_cons, not_or] at h
    simp [h]

theorem Payload.actionField_word {word : List Char} (h : Word word) (label : String) :
    actionField label word = [(label, .text (actionNamed word))] := by
  rw [actionField, if_neg (by simpa using h.ne_nil), action_eq h]

/-- A foreign key: the field of a target, and perhaps what happens to references when that is deleted
and when it is updated. -/
structure ForeignKey where
  target : List Char
  field : List Char
  actions : Option (List Char × List Char)
  target_ne_nil : target ≠ []
  field_ne_nil : field ≠ []
  dot_not_mem : '.' ∉ target
  not_blank : ∀ c ∈ target ++ field, ¬ isBlank c
  actions_word : ∀ p ∈ actions, Word p.1 ∧ Word p.2

namespace ForeignKey

def words (k : ForeignKey) : List (List Char) :=
  (k.target ++ '.' :: k.field) :: (k.actions.map fun p => p.1 ++ ':' :: p.2).toList

/-- What a tag holds of a foreign key. -/
def fields (k : ForeignKey) : List (String × Datum) :=
  [("target", .text (String.ofList k.target)), ("field", .text (String.ofList k.field))] ++
    match k.actions with
    | some (d, u) => [("onDelete", .text (actionNamed d)), ("onUpdate", .text (actionNamed u))]
    | none => []

variable {cs : List Char} {fields : List (String × Datum)}

/-- A payload whose first blank is a space is read as the foreign key that its words write. -/
theorem exists_of_readForeignKey (hform : Payload.isForeignKey cs)
    (hread : Payload.readForeignKey cs = some fields) (hspace : ∀ b ∈ cs.find? isBlank, b = ' ') :
    ∃ k : ForeignKey, Text.words cs = k.words ∧ fields = k.fields := by
  obtain ⟨ref, href, hbare, hcs⟩ := Payload.eq_of_isForeignKey hform
  obtain ⟨target, field, htarget, hfield, hdot, hpath, rfl⟩ := Payload.eq_of_readForeignKey hread
  have hnospace : ' ' ∉ ref := fun h => hbare _ h (by decide)
  have hnotBlank (heq : ref = target ++ '.' :: field) : ∀ c ∈ target ++ field, ¬ isBlank c := by
    intro c hc
    apply hbare
    rw [heq]
    simp only [List.mem_append, List.mem_cons] at hc ⊢
    exact hc.imp_right .inr
  rcases hcs with rfl | ⟨b, gap, d, u, hb, hgap, hd, hu, rfl⟩
  · have heq : cs = target ++ '.' :: field := by
      rw [← hpath, ← fst_cut, cut_of_not_mem hnospace]
    refine ⟨⟨target, field, none, htarget, hfield, hdot, hnotBlank heq, by simp⟩, ?_, ?_⟩
    · rw [words_word href hbare, heq]
      rfl
    · rw [cut_of_not_mem hnospace]
      rfl
  · obtain rfl : b = ' ' := by
      apply hspace
      rw [List.find?_append, List.find?_eq_none.2 hbare, List.find?_cons, hb]
      rfl
    have heq : ref = target ++ '.' :: field := by
      rw [← hpath, ← fst_cut, cut_append hnospace]
    have hactions : ∀ c ∈ d ++ ':' :: u, ¬ isBlank c := by
      intro c hc
      rcases List.mem_append.1 hc with hc | hc
      · exact hd.not_blank c hc
      · rcases List.mem_cons.1 hc with rfl | hc
        · decide
        · exact hu.not_blank c hc
    refine ⟨⟨target, field, some (d, u), htarget, hfield, hdot, hnotBlank heq, ?_⟩, ?_, ?_⟩
    · rintro p ⟨⟩
      exact ⟨hd, hu⟩
    · rw [words_append href hbare hb, words_append_of_blank hgap, words_word (by simp) hactions, heq]
      rfl
    · have hcolon : ':' ∉ d := hd.not_mem (by decide)
      have htrim : trim (gap ++ (d ++ ':' :: u)) = d ++ ':' :: u := by
        rw [trim_append_of_blank hgap, trim_eq_self.2 (bare_of_not_blank hactions)]
      rw [cut_append hnospace, Option.getD_some, htrim, cut_append hcolon, Option.getD_some,
        Payload.actionField_word hd, Payload.actionField_word hu]
      rfl

/-- A payload that is read as a foreign key has no other blank before its first space. -/
theorem space_of_readForeignKey {k : ForeignKey} (hread : Payload.readForeignKey cs = some k.fields) :
    ∀ b ∈ cs.find? isBlank, b = ' ' := by
  intro b hfind
  obtain ⟨hb, before, after, rfl, hbefore⟩ := List.find?_eq_some_iff_append.1 hfind
  obtain ⟨target, field, -, -, -, hpath, hfields⟩ := Payload.eq_of_readForeignKey hread
  obtain ⟨rfl, rfl⟩ : k.target = target ∧ k.field = field := by
    simp only [fields, List.cons_append, List.cons.injEq, Prod.mk.injEq, true_and, Datum.text.injEq,
      String.ofList_inj] at hfields
    exact ⟨hfields.1, hfields.2.1⟩
  by_contra hne
  have hbefore : ∀ c ∈ before, decide (c ≠ ' ') = true := by
    intro c hc
    have hblank : ¬ isBlank c := by simpa using hbefore c hc
    exact decide_eq_true fun heq => hblank (heq ▸ by decide)
  have hmem : b ∈ k.target ++ '.' :: k.field := by
    rw [← hpath, List.takeWhile_append_of_pos hbefore, List.takeWhile_cons_of_pos (by simpa using hne)]
    simp
  rcases List.mem_append.1 hmem with hmem | hmem
  · exact k.not_blank b (List.mem_append_left _ hmem) hb
  · rcases List.mem_cons.1 hmem with rfl | hmem
    · exact absurd hb (by decide)
    · exact k.not_blank b (List.mem_append_right _ hmem) hb

end ForeignKey

theorem Grammar.isForeignKey_of_tag? {raw : RawTag} {tag : Tag}
    (h : (Grammar.core .fk).tag? raw = .ok (some tag)) : Payload.isForeignKey raw.payload.toList := by
  unfold tag? at h
  split at h
  · next hadmits =>
    obtain ⟨hpayload, hform⟩ := Bool.and_eq_true_iff.1 hadmits
    have hpayload : (!raw.payload.toList.isEmpty) = true := hpayload
    exact (Bool.or_eq_true_iff.1 hform).resolve_left (by simpa using hpayload)
  · cases h

/-- A foreign key that the grammar accepts is read as its words write it, exactly if its first blank,
where it has one, is a space. -/
theorem Grammar.foreignKey_iff {raw : RawTag} {tag : Tag}
    (h : (Grammar.core .fk).tag? raw = .ok (some tag)) :
    (∃ k : ForeignKey, Text.words raw.payload.toList = k.words ∧ tag.parsed = some k.fields) ↔
      ∀ b ∈ raw.payload.toList.find? Text.isBlank, b = ' ' := by
  obtain ⟨fields, hread, rfl⟩ := Grammar.tag?_eq_some h
  have hread : Payload.readForeignKey raw.payload.toList = some fields := Except.ok.inj hread
  constructor
  · rintro ⟨k, -, hk⟩
    obtain rfl := Option.some.inj hk
    exact ForeignKey.space_of_readForeignKey hread
  · intro hspace
    obtain ⟨k, hwords, rfl⟩ :=
      ForeignKey.exists_of_readForeignKey (isForeignKey_of_tag? h) hread hspace
    exact ⟨k, hwords, rfl⟩

theorem Grammar.foreignKey_iff_spaced :
    ∃ tag, (Grammar.core .fk).tag? ⟨"fk", "User.id  Cascade:SetNull"⟩ = .ok (some tag) ∧
      ∃ k : ForeignKey, Text.words "User.id  Cascade:SetNull".toList = k.words ∧
        tag.parsed = some k.fields := by
  have h : (Grammar.core .fk).tag? ⟨"fk", "User.id  Cascade:SetNull"⟩ =
      .ok (some ⟨"fk", "User.id  Cascade:SetNull", some [("target", .text "User"),
        ("field", .text "id"), ("onDelete", .text "cascade"), ("onUpdate", .text "set null")]⟩) := by
    rfl
  have hblank : "User.id  Cascade:SetNull".toList.find? Text.isBlank = some ' ' := by decide +kernel
  refine ⟨_, h, (Grammar.foreignKey_iff h).2 fun b hb => ?_⟩
  exact (Option.some.inj (hblank.symm.trans hb)).symm

end TypeAtlas
