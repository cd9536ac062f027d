import Mathlib.Data.List.Nodup
import Mathlib.Data.List.TakeWhile
import TypeAtlas.Proofs.Parallel
import TypeAtlas.Tag.Reading

/-! # What tags are read as

A recognised tag carries plain values and lists of texts, and an index carries a list of texts, if it
carries fields at all.
-/

namespace TypeAtlas

/-- A text, a truth value, a number or a list of texts. -/
def Datum.Plain (v : Datum) : Prop :=
  (∃ s, v = .text s) ∨ (∃ b, v = .bool b) ∨ (∃ n, v = .number n) ∨ ∃ ss, v = .texts ss

namespace Payload

variable {cs : List Char} {fields : List (String × Datum)}

theorem plain_number {v : Datum} (h : number cs = .ok v) : v.Plain := by
  unfold number at h
  dsimp only at h
  split at h
  · obtain ⟨n, -, rfl⟩ := map_eq_ok.1 h
    exact .inr (.inr (.inl ⟨_, rfl⟩))
  · obtain rfl := Except.ok.inj h
    exact .inr (.inr (.inl ⟨_, rfl⟩))

theorem exists_of_readDecimal (h : readDecimal cs = .ok fields) :
    ∃ precision scale : Int, fields = [("precision", .int precision), ("scale", .int scale)] := by
  unfold readDecimal at h
  obtain ⟨precision, -, h⟩ := bind_eq_ok.1 h
  obtain ⟨scale, -, h⟩ := bind_eq_ok.1 h
  exact ⟨precision, scale, (Except.ok.inj h).symm⟩

theorem plain_actionField (label : String) (cs : List Char) : ∀ f ∈ actionField label cs, f.2.Plain := by
  intro f hf
  unfold actionField at hf
  split at hf
  · cases hf
  · obtain rfl := List.mem_singleton.1 hf
    exact .inl ⟨_, rfl⟩

theorem plain_readForeignKey (h : readForeignKey cs = some fields) : ∀ f ∈ fields, f.2.Plain := by
  unfold readForeignKey at h
  dsimp only at h
  split at h
  · cases h
  · obtain rfl := Option.some.inj h
    intro f hf
    rw [List.mem_append, List.mem_append] at hf
    rcases hf with (hf | hf) | hf
    · simp only [List.mem_cons, List.not_mem_nil, or_false] at hf
      rcases hf with rfl | rfl
      · exact .inl ⟨_, rfl⟩
      · exact .inl ⟨_, rfl⟩
    · exact plain_actionField _ _ f hf
    · exact plain_actionField _ _ f hf

theorem plain_readRename (cs : List Char) : ∀ f ∈ readRename cs, f.2.Plain := by
  intro f hf
  rcases List.mem_cons.1 hf with rfl | hf
  · exact .inl ⟨_, rfl⟩
  · split at hf
    · obtain rfl := List.mem_singleton.1 hf
      exact .inl ⟨_, rfl⟩
    · cases hf

end Payload

theorem CoreTag.plain_read {t : CoreTag} {cs : List Char} {fields : List (String × Datum)}
    (h : t.read cs = .ok (some fields)) : ∀ f ∈ fields, f.2.Plain := by
  have hnone (h : some [] = some fields) : ∀ f ∈ fields, f.2.Plain := by
    obtain rfl := Option.some.inj h
    exact fun f hf => by cases hf
  have hone {label : String} {v : Datum} (h : some [(label, v)] = some fields) (hv : v.Plain) :
      ∀ f ∈ fields, f.2.Plain := by
    obtain rfl := Option.some.inj h
    exact fun f hf => List.mem_singleton.1 hf ▸ hv
  have htwo {label label' : String} {v v' : Datum} (h : some [(label, v), (label', v')] = some fields)
      (hv : v.Plain) (hv' : v'.Plain) : ∀ f ∈ fields, f.2.Plain := by
    obtain rfl := Option.some.inj h
    simpa using ⟨hv, hv'⟩
  have hwhole {label : String} (h : some [(label, Datum.text (String.ofList cs))] = some fields) :
      ∀ f ∈ fields, f.2.Plain := hone h (.inl ⟨_, rfl⟩)
  cases t with
  | entity =>
    unfold read at h
    dsimp only at h
    split at h
    · exact hnone (Except.ok.inj h)
    · exact hwhole (Except.ok.inj h)
  | pk | unique | int | email | uuid | url => exact hnone (Except.ok.inj h)
  | index => exact htwo (Except.ok.inj h) (.inr (.inr (.inr ⟨_, rfl⟩))) (.inr (.inl ⟨_, rfl⟩))
  | fk => exact Payload.plain_readForeignKey (Except.ok.inj h)
  | renameFrom =>
    obtain rfl := Option.some.inj (Except.ok.inj h)
    exact Payload.plain_readRename cs
  | decimal =>
    obtain ⟨_, hread, hfields⟩ := map_eq_ok.1 h
    obtain ⟨precision, scale, rfl⟩ := Payload.exists_of_readDecimal hread
    exact htwo hfields (.inr (.inr (.inl ⟨_, rfl⟩))) (.inr (.inr (.inl ⟨_, rfl⟩)))
  | min | max | minLength | maxLength =>
    obtain ⟨v, hread, hfields⟩ := map_eq_ok.1 h
    exact hone hfields (Payload.plain_number hread)
  | default_ | sqlType | check | version | pattern | regex | format | description | validator
  | transform => exact hwhole (Except.ok.inj h)

theorem Grammar.plain_read {g : Grammar} {cs : List Char} {fields : List (String × Datum)}
    (h : g.read cs = .ok (some fields)) : ∀ f ∈ fields, f.2.Plain := by
  cases g with
  | core t => exact CoreTag.plain_read h
  | freeForm =>
    obtain rfl := Option.some.inj (Except.ok.inj h)
    intro f hf
    split at hf
    · cases hf
    · obtain rfl := List.mem_singleton.1 hf
      exact .inl ⟨_, rfl⟩

/-! ## Digits -/

namespace Text

variable {sep : Char} {cs : List Char}

theorem cut_of_not_mem (h : sep ∉ cs) : cut sep cs = (cs, none) := by
  induction cs with
  | nil => rfl
  | cons c cs ih =>
    obtain ⟨hc, hcs⟩ := not_or.1 (mt List.mem_cons.2 h)
    rw [cut, if_neg (Ne.symm hc), ih hcs]

theorem cut_append (h : sep ∉ cs) (ds : List Char) : cut sep (cs ++ sep :: ds) = (cs, some ds) := by
  induction cs with
  | nil => rw [List.nil_append, cut, if_pos rfl]
  | cons c cs ih =>
    obtain ⟨hc, hcs⟩ := not_or.1 (mt List.mem_cons.2 h)
    rw [List.cons_append, cut, if_neg (Ne.symm hc), ih hcs]

end Text

namespace Payload

variable {cls : Char → Bool} {cs rest : List Char}

/-- No run of digits is too long to be read as an integer. -/
def Brief (cs : List Char) : Prop :=
  ∀ run, run <:+: cs → (∀ c ∈ run, Text.isDigit c) → run.length ≤ maxDecimalDigits

theorem brief_of_length_le (h : cs.length ≤ maxDecimalDigits) : Brief cs :=
  fun _ hrun _ => Nat.le_trans hrun.length_le h

theorem Brief.of_infix {ds : List Char} (h : Brief cs) (hds : ds <:+: cs) : Brief ds :=
  fun run hrun => h run (hrun.trans hds)

theorem Brief.integer (h : Brief cs) (hdigits : ∀ c ∈ cs, Text.isDigit c) :
    ∃ n, Payload.integer cs = .ok n :=
  ⟨_, if_pos (h cs (List.infix_refl cs) hdigits)⟩

theorem span1?_eq_some (h : span1? cls cs = some rest) :
    ∃ start ≠ [], (∀ c ∈ start, cls c) ∧ cs = start ++ rest := by
  unfold span1? at h
  split at h
  · cases h
  · next hne =>
    obtain rfl := Option.some.inj h
    exact ⟨cs.takeWhile cls, hne, fun c hc => (List.mem_takeWhile_imp hc),
      (List.takeWhile_append_dropWhile).symm⟩

theorem digits_of_some1 (h : some1 Text.isDigit cs) : ∀ c ∈ cs, Text.isDigit c := by
  simpa using (Bool.and_eq_true_iff.1 h).2

theorem not_mem_of_digits {c : Char} (h : ∀ c ∈ cs, Text.isDigit c) (hc : ¬ Text.isDigit c) : c ∉ cs :=
  fun hmem => hc (h c hmem)

theorem isUnsigned_of_some1 (h : some1 Text.isDigit cs) : isUnsigned cs := by
  have hne : cs ≠ [] := by simpa using (Bool.and_eq_true_iff.1 h).1
  have hall : cs.takeWhile Text.isDigit = cs := List.takeWhile_eq_self_iff.2 (digits_of_some1 h)
  have hspan : span1? Text.isDigit cs = some [] := by
    unfold span1?
    split
    · next hnil => exact absurd (hall.symm.trans hnil) hne
    · exact congrArg some (List.dropWhile_eq_nil_iff.2 (digits_of_some1 h))
  rw [isUnsigned, hspan]

theorem not_isUnsigned_cons {c : Char} (hc : ¬ Text.isDigit c) (cs : List Char) :
    ¬ isUnsigned (c :: cs) := by
  have hspan : span1? Text.isDigit (c :: cs) = none := by
    rw [span1?, List.takeWhile_cons_of_neg hc]
  simp [isUnsigned, hspan]

theorem suffix_takeSign (cs : List Char) : (takeSign cs).2 <:+ cs := by
  unfold takeSign
  split
  · exact List.suffix_cons _ _
  · exact List.suffix_cons _ _
  · exact List.suffix_refl _

theorem isUnsigned_takeSign (h : isNumber cs ∨ isUnsigned cs) : isUnsigned (takeSign cs).2 := by
  unfold takeSign
  split
  · next rest =>
    exact h.resolve_right (not_isUnsigned_cons (by decide) rest)
  · next rest =>
    have h : isUnsigned ('+' :: rest) := h.elim (fun h => h) id
    exact absurd h (not_isUnsigned_cons (by decide) rest)
  · next hminus _ =>
    refine h.elim (fun h => ?_) id
    unfold isNumber at h
    split at h
    · exact absurd rfl (hminus _)
    · exact h

theorem Brief.exists_number (h : Brief cs) (hform : isNumber cs ∨ isUnsigned cs) :
    ∃ v, number cs = .ok v := by
  have hbody : Brief (takeSign cs).2 := h.of_infix (suffix_takeSign cs).isInfix
  have hunsigned := isUnsigned_takeSign hform
  unfold number
  dsimp only
  generalize (takeSign cs).2 = body at hbody hunsigned
  unfold isUnsigned at hunsigned
  split at hunsigned
  · next hspan =>
    obtain ⟨digits, -, hdigits, rfl⟩ := span1?_eq_some hspan
    rw [List.append_nil] at hbody ⊢
    obtain ⟨n, hn⟩ := hbody.integer hdigits
    rw [Text.cut_of_not_mem (not_mem_of_digits hdigits (by decide))]
    exact ⟨_, congrArg (Except.map _) hn⟩
  · next rest hspan =>
    obtain ⟨digits, -, hdigits, rfl⟩ := span1?_eq_some hspan
    rw [Text.cut_append (not_mem_of_digits hdigits (by decide))]
    exact ⟨_, rfl⟩
  · cases hunsigned

theorem Brief.exists_readDecimal (h : Brief cs) (hform : isDecimal cs) :
    ∃ fields, readDecimal cs = .ok fields := by
  unfold isDecimal at hform
  split at hform
  · next scale hspan =>
    obtain ⟨precision, -, hdigits, rfl⟩ := span1?_eq_some hspan
    obtain ⟨p, hp⟩ := (h.of_infix (List.prefix_append _ _).isInfix).integer hdigits
    have hsuffix : scale <:+ precision ++ ',' :: scale := ⟨precision ++ [','], by simp⟩
    obtain ⟨n, hn⟩ := (h.of_infix hsuffix.isInfix).integer (digits_of_some1 hform)
    rw [readDecimal, Text.cut_append (not_mem_of_digits hdigits (by decide))]
    exact exists_bind ⟨p, hp⟩ fun _ _ => exists_bind ⟨n, hn⟩ fun _ _ => ⟨_, rfl⟩
  · cases hform

theorem exists_of_integer_eq_error {e : Fault} (h : integer cs = .error e) :
    ∃ n, e = .tooManyDigits n := by
  unfold integer at h
  split at h
  · cases h
  · exact ⟨_, (Except.error.inj h).symm⟩

theorem exists_of_number_eq_error {e : Fault} (h : number cs = .error e) :
    ∃ n, e = .tooManyDigits n := by
  unfold number at h
  dsimp only at h
  split at h
  · exact exists_of_integer_eq_error (map_eq_error.1 h)
  · cases h

theorem exists_of_readDecimal_eq_error {e : Fault} (h : readDecimal cs = .error e) :
    ∃ n, e = .tooManyDigits n := by
  rcases bind_eq_error.1 h with h | ⟨_, -, h⟩
  · exact exists_of_integer_eq_error h
  · rcases bind_eq_error.1 h with h | ⟨_, -, h⟩
    · exact exists_of_integer_eq_error h
    · cases h

end Payload

theorem CoreTag.exists_of_read_eq_error {t : CoreTag} {cs : List Char} {e : Fault}
    (h : t.read cs = .error e) : ∃ n, e = .tooManyDigits n := by
  cases t with
  | entity =>
    unfold read at h
    dsimp only at h
    split at h <;> cases h
  | decimal => exact Payload.exists_of_readDecimal_eq_error (map_eq_error.1 h)
  | min | max | minLength | maxLength => exact Payload.exists_of_number_eq_error (map_eq_error.1 h)
  | _ => cases h

theorem CoreTag.exists_read {t : CoreTag} {cs : List Char} (h : Payload.Brief cs)
    (hform : cs = [] ∨ t.accepts cs) : ∃ fields, t.read cs = .ok fields := by
  have hnumber (hform : cs = [] ∨ Payload.isNumber cs ∨ Payload.isUnsigned cs) :
      ∃ fields, (Payload.number cs).map (fun value => some [("value", value)]) = .ok fields := by
    rcases hform with rfl | hform
    · exact ⟨_, rfl⟩
    · obtain ⟨v, hv⟩ := h.exists_number hform
      exact ⟨_, congrArg (Except.map _) hv⟩
  cases t with
  | entity =>
    unfold read
    dsimp only
    split <;> exact ⟨_, rfl⟩
  | decimal =>
    rcases hform with rfl | hform
    · exact ⟨_, rfl⟩
    · obtain ⟨fields, hread⟩ := h.exists_readDecimal hform
      exact ⟨_, congrArg (Except.map some) hread⟩
  | min | max => exact hnumber (hform.imp_right .inl)
  | minLength | maxLength => exact hnumber (hform.imp_right fun h => .inr (Payload.isUnsigned_of_some1 h))
  | _ => exact ⟨_, rfl⟩

/-! ## Labels -/

theorem Payload.sublist_actionField (label : String) (cs : List Char) :
    ((actionField label cs).map Prod.fst).Sublist [label] := by
  unfold actionField
  split
  · exact List.nil_sublist _
  · exact List.Sublist.refl _

theorem Payload.nodup_readForeignKey {cs : List Char} {fields : List (String × Datum)}
    (h : readForeignKey cs = some fields) : (fields.map Prod.fst).Nodup := by
  unfold readForeignKey at h
  dsimp only at h
  split at h
  · cases h
  · obtain rfl := Option.some.inj h
    have hlabels : ["target", "field", "onDelete", "onUpdate"].Nodup := by decide
    refine List.Nodup.sublist ?_ hlabels
    rw [List.map_append, List.map_append]
    exact ((List.Sublist.refl ["target", "field"]).append (sublist_actionField _ _)).append
      (sublist_actionField _ _)

theorem CoreTag.nodup_read {t : CoreTag} {cs : List Char} {fields : List (String × Datum)}
    (h : t.read cs = .ok (some fields)) : (fields.map Prod.fst).Nodup := by
  cases t with
  | fk => exact Payload.nodup_readForeignKey (Except.ok.inj h)
  | entity =>
    unfold read at h
    dsimp only at h
    split at h
    · obtain rfl := Option.some.inj (Except.ok.inj h)
      exact List.nodup_nil
    · obtain rfl := Option.some.inj (Except.ok.inj h)
      exact List.nodup_singleton _
  | renameFrom =>
    obtain rfl := Option.some.inj (Except.ok.inj h)
    rw [Payload.readRename, List.map_cons]
    split <;> simp
  | index =>
    obtain rfl := Option.some.inj (Except.ok.inj h)
    simp [Payload.readIndex]
  | decimal =>
    obtain ⟨_, hread, hfields⟩ := map_eq_ok.1 h
    obtain ⟨precision, scale, rfl⟩ := Payload.exists_of_readDecimal hread
    obtain rfl := Option.some.inj hfields
    simp
  | min | max | minLength | maxLength =>
    obtain ⟨v, -, hfields⟩ := map_eq_ok.1 h
    obtain rfl := Option.some.inj hfields
    exact List.nodup_singleton _
  | pk | unique | int | email | uuid | url =>
    obtain rfl := Option.some.inj (Except.ok.inj h)
    exact List.nodup_nil
  | _ =>
    obtain rfl := Option.some.inj (Except.ok.inj h)
    exact List.nodup_singleton _

theorem Grammar.nodup_read {g : Grammar} {cs : List Char} {fields : List (String × Datum)}
    (h : g.read cs = .ok (some fields)) : (fields.map Prod.fst).Nodup := by
  cases g with
  | core t => exact CoreTag.nodup_read h
  | freeForm =>
    obtain rfl := Option.some.inj (Except.ok.inj h)
    split
    · exact List.nodup_nil
    · exact List.nodup_singleton _

/-! ## Comments -/

section Comments

variable {v : Vocabulary} {g : Grammar} {raw : RawTag} {tag : Tag} {text : String}
  {entity field : Option String} {location : Option Place} {fields : List (String × Datum)}
  {o : Outcome (List Tag)}

theorem Grammar.tag?_eq_some (h : g.tag? raw = .ok (some tag)) :
    ∃ fields, g.read raw.payload.toList = .ok (some fields) ∧
      tag = ⟨raw.name, raw.payload, some fields⟩ := by
  unfold tag? at h
  split at h
  · obtain ⟨read, hread, htag⟩ := map_eq_ok.1 h
    obtain ⟨fields, rfl, rfl⟩ := Option.map_eq_some_iff.1 htag
    exact ⟨fields, hread, rfl⟩
  · cases h

theorem Grammar.exists_tag? (h : Payload.Brief raw.payload.toList) : ∃ r, g.tag? raw = .ok r := by
  unfold tag?
  split
  · next hadmits =>
    have hform : raw.payload.toList = [] ∨ g.accepts raw.payload.toList := by
      simpa using (Bool.and_eq_true_iff.1 hadmits).2
    cases g with
    | core t =>
      obtain ⟨fields, hread⟩ := CoreTag.exists_read h hform
      exact ⟨_, congrArg (Except.map _) hread⟩
    | freeForm => exact ⟨_, rfl⟩
  · exact ⟨_, rfl⟩

theorem Grammar.exists_of_tag?_eq_error {e : Fault} (h : g.tag? raw = .error e) :
    ∃ n, e = .tooManyDigits n := by
  unfold tag? at h
  split at h
  · cases g with
    | core t => exact t.exists_of_read_eq_error (map_eq_error.1 h)
    | freeForm => cases h
  · cases h

/-- Nothing but a number that is too long keeps a comment from being read. -/
theorem exists_of_readTags_eq_error {comment : Option String} {e : Fault}
    (h : readTags comment v entity field location = .error e) : ∃ n, e = .tooManyDigits n := by
  cases comment with
  | none => cases h
  | some text =>
    rw [readTags] at h
    obtain ⟨s, raw, -, hstep⟩ := exists_of_foldlM_eq_error (map_eq_error.1 h)
    have hverdict := map_eq_error.1 hstep
    unfold TagReading.verdict at hverdict
    split at hverdict
    · cases hverdict
    · split at hverdict
      · cases hverdict
      · exact Grammar.exists_of_tag?_eq_error (map_eq_error.1 hverdict)

theorem TagReading.exists_step {report : DiagnosticKey → String → Diagnostic} {s : State}
    (h : Payload.Brief raw.payload.toList) : ∃ s', step v report s raw = .ok s' := by
  have hverdict : ∃ verdict, TagReading.verdict v s.seen raw = .ok verdict := by
    unfold TagReading.verdict
    split
    · exact ⟨_, rfl⟩
    · next g _ =>
      split
      · exact ⟨_, rfl⟩
      · obtain ⟨r, hr⟩ := g.exists_tag? h
        exact ⟨_, congrArg (Except.map _) hr⟩
  obtain ⟨verdict, hverdict⟩ := hverdict
  exact ⟨_, congrArg (Except.map _) hverdict⟩

theorem exists_readTags (h : ∀ raw ∈ Comment.splitTags text, Payload.Brief raw.payload.toList) :
    ∃ o, readTags (some text) v entity field location = .ok o := by
  rw [readTags]
  obtain ⟨s, hs⟩ := exists_foldlM (fun s raw hraw => TagReading.exists_step (h raw hraw)) _
  exact ⟨_, congrArg (Except.map _) hs⟩

theorem TagReading.kept_of_verdict {seen : List String} (h : verdict v seen raw = .ok (.kept tag)) :
    ∃ g, v.get? raw.name = some g ∧ g.tag? raw = .ok (some tag) := by
  unfold verdict at h
  split at h
  · cases h
  · next g hg =>
    split at h
    · cases h
    · obtain ⟨t, ht, hverdict⟩ := map_eq_ok.1 h
      cases t with
      | none => cases hverdict
      | some tag' =>
        obtain rfl := Verdict.kept.inj hverdict
        exact ⟨g, hg, ht⟩

theorem exists_of_readTags (h : readTags (some text) v entity field location = .ok o) :
    ∃ s : TagReading.State, o = ⟨some s.tags, s.diagnostics⟩ ∧
      (Comment.splitTags text).foldlM (TagReading.step v fun key arg =>
        .make key [.text arg] location
          (if entity.isNone && field.isNone then none else some { entity, field })) {} = .ok s := by
  rw [readTags] at h
  obtain ⟨s, hs, rfl⟩ := map_eq_ok.1 h
  exact ⟨s, rfl, hs⟩

/-- A tag of a comment has no payload, or is one that the vocabulary recognises. -/
theorem recognised_of_mem_readTags (h : readTags (some text) v entity field location = .ok o)
    (ht : tag ∈ o.value.getD []) :
    tag.parsed = none ∨ ∃ g raw, v.get? raw.name = some g ∧ g.tag? raw = .ok (some tag) := by
  obtain ⟨s, rfl, hs⟩ := exists_of_readTags h
  revert ht
  refine foldlM_preserves (I := fun s : TagReading.State => tag ∈ s.tags →
    tag.parsed = none ∨ ∃ g raw, v.get? raw.name = some g ∧ g.tag? raw = .ok (some tag)) hs ?_ ?_
  · intro ht
    cases ht
  · intro s raw _ s' ih hstep ht
    obtain ⟨verdict, hverdict, rfl⟩ := map_eq_ok.1 hstep
    cases verdict with
    | unknown =>
      rcases List.mem_append.1 ht with ht | ht
      · exact ih ht
      · obtain rfl := List.mem_singleton.1 ht
        exact .inl rfl
    | duplicate | malformed => exact ih ht
    | kept tag' =>
      rcases List.mem_append.1 ht with ht | ht
      · exact ih ht
      · obtain rfl := List.mem_singleton.1 ht
        obtain ⟨g, hg, htag⟩ := TagReading.kept_of_verdict hverdict
        exact .inr ⟨g, raw, hg, htag⟩

theorem plain_of_mem_readTags (h : readTags (some text) v entity field location = .ok o)
    (ht : tag ∈ o.value.getD []) (hp : tag.parsed = some fields) : ∀ f ∈ fields, f.2.Plain := by
  rcases recognised_of_mem_readTags h ht with hnone | ⟨g, raw, -, htag⟩
  · rw [hnone] at hp
    cases hp
  · obtain ⟨fields', hread, rfl⟩ := Grammar.tag?_eq_some htag
    obtain rfl := Option.some.inj hp
    exact Grammar.plain_read hread

theorem nodup_of_mem_readTags (h : readTags (some text) v entity field location = .ok o)
    (ht : tag ∈ o.value.getD []) (hp : tag.parsed = some fields) : (fields.map Prod.fst).Nodup := by
  rcases recognised_of_mem_readTags h ht with hnone | ⟨g, raw, -, htag⟩
  · rw [hnone] at hp
    cases hp
  · obtain ⟨fields', hread, rfl⟩ := Grammar.tag?_eq_some htag
    obtain rfl := Option.some.inj hp
    exact Grammar.nodup_read hread

theorem Vocabulary.get?_eq_core {t : CoreTag} {name : String} (h : v.get? name = some (.core t)) :
    t.name = name := by
  unfold get? at h
  split at h
  · next t' ht =>
    obtain rfl := Grammar.core.inj (Option.some.inj h)
    simpa using List.find?_some ht
  · split at h <;> cases h

theorem index_of_mem_readTags (h : readTags (some text) v entity field location = .ok o)
    (ht : tag ∈ o.value.getD []) (hp : tag.parsed = some fields) (hname : tag.name = "index") :
    Datum.field? fields "fields" = none ∨ ∃ ss, Datum.field? fields "fields" = some (.texts ss) := by
  rcases recognised_of_mem_readTags h ht with hnone | ⟨g, raw, hg, htag⟩
  · rw [hnone] at hp
    cases hp
  · obtain ⟨fields', hread, rfl⟩ := Grammar.tag?_eq_some htag
    obtain rfl := Option.some.inj hp
    cases g with
    | core t =>
      have hindex : t = .index := by
        have := (Vocabulary.get?_eq_core hg).trans hname
        revert this
        cases t <;> decide
      subst hindex
      obtain rfl := Option.some.inj (Except.ok.inj hread)
      exact .inr ⟨_, rfl⟩
    | freeForm =>
      obtain rfl := Option.some.inj (Except.ok.inj hread)
      left
      split <;> rfl

theorem code_of_mem_readTags {comment : Option String} {d : Diagnostic}
    (h : readTags comment v entity field location = .ok o) (hd : d ∈ o.diagnostics) :
    ∃ key ∈ [DiagnosticKey.tagUnknown, .tagDuplicate, .tagMalformed], d.code = key.code := by
  cases comment with
  | none =>
    obtain rfl := Except.ok.inj h
    cases hd
  | some text =>
    obtain ⟨s, rfl, hs⟩ := exists_of_readTags h
    revert hd
    refine foldlM_preserves (I := fun s : TagReading.State => d ∈ s.diagnostics →
      ∃ key ∈ [DiagnosticKey.tagUnknown, .tagDuplicate, .tagMalformed], d.code = key.code) hs ?_ ?_
    · intro hd
      cases hd
    · intro s raw _ s' ih hstep hd
      obtain ⟨verdict, -, rfl⟩ := map_eq_ok.1 hstep
      have hlast {key : DiagnosticKey} {arg : Datum} {place : Option Place} {context : Option Context}
          (hkey : key ∈ [DiagnosticKey.tagUnknown, .tagDuplicate, .tagMalformed])
          (hd : d ∈ s.diagnostics ++ [.make key [arg] place context]) :
          ∃ key ∈ [DiagnosticKey.tagUnknown, .tagDuplicate, .tagMalformed], d.code = key.code := by
        rcases List.mem_append.1 hd with hd | hd
        · exact ih hd
        · obtain rfl := List.mem_singleton.1 hd
          exact ⟨key, hkey, rfl⟩
      cases verdict with
      | unknown | duplicate | malformed => exact hlast (by simp) hd
      | kept tag => exact ih hd

/-- Two readings of tags have the same tags and agree on whether there was an error. -/
structure TagReading.Alike (s s' : TagReading.State) : Prop where
  tags : s'.tags = s.tags
  seen : s'.seen = s.seen
  errors : s'.diagnostics.any Diagnostic.isError = s.diagnostics.any Diagnostic.isError

theorem TagReading.Alike.take {report report' : DiagnosticKey → String → Diagnostic}
    (hreport : ∀ key arg, (report' key arg).isError = (report key arg).isError)
    {s s' : TagReading.State} (h : Alike s s') (raw : RawTag) (verdict : Verdict) :
    Alike (take report s raw verdict) (TagReading.take report' s' raw verdict) := by
  have herrors (key : DiagnosticKey) (arg : String) :
      (s'.diagnostics ++ [report' key arg]).any Diagnostic.isError =
        (s.diagnostics ++ [report key arg]).any Diagnostic.isError := by
    simp [List.any_append, h.errors, hreport]
  cases verdict with
  | unknown => exact ⟨congrArg (· ++ _) h.tags, h.seen, herrors _ _⟩
  | duplicate => exact ⟨h.tags, h.seen, herrors _ _⟩
  | malformed => exact ⟨h.tags, h.seen, herrors _ _⟩
  | kept tag => exact ⟨congrArg (· ++ _) h.tags, congrArg (_ :: ·) h.seen, h.errors⟩

theorem TagReading.alike_foldlM {report report' : DiagnosticKey → String → Diagnostic}
    (hreport : ∀ key arg, (report' key arg).isError = (report key arg).isError) (raws : List RawTag)
    {s s' : TagReading.State} (h : Alike s s') :
    Parallel Never Alike (raws.foldlM (step v report) s) (raws.foldlM (step v report') s') := by
  induction raws generalizing s s' with
  | nil => exact .ok h
  | cons raw raws ih =>
    rw [List.foldlM_cons, List.foldlM_cons]
    refine Parallel.bind (P := Alike) ?_ fun _ _ => ih
    rw [step, step, h.seen]
    cases verdict v s.seen raw with
    | error e => exact .error
    | ok verdict => exact .ok (h.take hreport raw verdict)

/-- Where a comment stands shows in nothing but its reports, and not in whether they are errors. -/
theorem readTags_moved (comment : Option String) (v : Vocabulary)
    (entity entity' field : Option String) (location location' : Option Place) :
    Parallel Never (fun o o' => o'.value = o.value ∧ o'.ok = o.ok)
      (readTags comment v entity field location) (readTags comment v entity' field location') := by
  cases comment with
  | none => exact .ok ⟨rfl, rfl⟩
  | some text =>
    rw [readTags, readTags]
    apply Parallel.map (P := TagReading.Alike)
    · apply TagReading.alike_foldlM
      · exact fun _ _ => rfl
      · exact ⟨rfl, rfl, rfl⟩
    · exact fun s s' h => ⟨congrArg some h.tags, congrArg not h.errors⟩

end Comments

end TypeAtlas
