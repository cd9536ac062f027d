import TypeAtlas.Proofs.TypeScript.Spelled

/-! # Aliases of integers

Each lexeme of an alias for an integer literal reaches as far as its characters do, whatever follows it. A
file that starts with such an alias declares it: the type is the literal, with the text as it is written.
-/

namespace TypeAtlas.TypeScript

section Lexing

variable {p : Char → Bool} {c : Char} {cs ds rest gap lexeme : List Char} {kind : TokenKind}

/-! ## Lexemes -/

theorem cutWhile_append (h : ∀ c ∈ cs, p c) (hrest : ∀ c ∈ rest.head?, p c = false) :
    cutWhile p (cs ++ rest) = (cs, rest) := by
  have hstop : rest.takeWhile p = [] ∧ rest.dropWhile p = rest := by
    cases rest with
    | nil => exact ⟨rfl, rfl⟩
    | cons d rest =>
      have hd : ¬ p d = true := by simp [hrest d rfl]
      exact ⟨List.takeWhile_cons_of_neg hd, List.dropWhile_cons_of_neg hd⟩
  rw [cutWhile, List.span_eq_takeWhile_dropWhile, List.takeWhile_append_of_pos h, List.dropWhile_append_of_pos h,
    hstop.1, hstop.2, List.append_nil]

/-- A text starts with a lexeme of the kind, whatever stands in front of it. -/
def Cuts (kind : TokenKind) (lexeme rest : List Char) : Prop :=
  ∀ afterValue, cutLexeme afterValue (lexeme ++ rest) = (kind, lexeme, rest)

def IsIdentifier (name : List Char) : Prop :=
  ∃ c cs, name = c :: cs ∧ c.isDigit = false ∧ ∀ d ∈ name, isWordChar d

/-- Characters with which a lexeme of several symbols may start. -/
def signs : List Char := "/`=.+-!".toList

theorem cutLexeme_of_not_sign (afterValue : Bool) (h : c ∉ signs) : cutLexeme afterValue (c :: rest) =
    if c = '"' ∨ c = '\'' then (.quoted, (cutQuoted c rest).push c)
    else if c.isDigit then (.number, cutNumber (c :: rest))
    else if isWordChar c then (.word, (cutWhile isWordChar rest).push c)
    else (.symbol, [c], rest) := by
  have hsign (d : Char) (hd : d ∈ signs) : c ≠ d := (ne_of_mem_of_not_mem hd h).symm
  have hpoint : c ≠ '.' := hsign _ (by decide)
  have hslash : c ≠ '/' := hsign _ (by decide)
  rw [cutLexeme]
  · simp [hpoint, hslash]
  all_goals
    intros
    subst_vars
    exact h (by decide)

theorem cuts_word {name : List Char} (h : IsIdentifier name) : Cuts .word name ([' '] ++ rest) := by
  obtain ⟨c, cs, rfl, hdigit, hword⟩ := h
  obtain ⟨hc, hcs⟩ := List.forall_mem_cons.1 hword
  have hne {d : Char} (hd : isWordChar d = false) : c ≠ d := by
    rintro rfl
    rw [hd] at hc
    cases hc
  have hsign : c ∉ signs := by
    intro hmem
    have hall : ∀ d ∈ signs, isWordChar d = false := List.all_iff_forall_prop.1 (by decide)
    exact hne (hall c hmem) rfl
  have hspace : ∀ c ∈ ([' '] ++ rest).head?, isWordChar c = false := by
    rintro c ⟨⟩
    decide
  intro afterValue
  rw [List.cons_append, cutLexeme_of_not_sign afterValue hsign, if_neg, if_neg (by simp [hdigit]), if_pos hc,
    cutWhile_append hcs hspace]
  · rfl
  · rintro (rfl | rfl)
    · exact absurd hc (by decide)
    · exact absurd hc (by decide)

theorem cuts_equals : Cuts .symbol ['='] ([' '] ++ rest) := fun _ => rfl

theorem cuts_semicolon : Cuts .symbol [';'] rest := fun _ => rfl

theorem cuts_minus (hrest : rest.head? ≠ some '-') : Cuts .symbol ['-'] rest := by
  intro afterValue
  cases rest with
  | nil => rfl
  | cons c rest =>
    have hc : c ≠ '-' := by simpa using hrest
    rw [List.singleton_append, cutLexeme]
    · rfl
    all_goals
      intros
      simp_all

theorem cutNumber_eq_decimal (h : ∀ m ∈ cs.tail.head?, isRadixMark m = false) :
    cutNumber cs = cutNumber.decimal cs := by
  unfold cutNumber
  split
  · next m rest => rw [if_neg (by simp [h m rfl])]
  · rfl

namespace IntegerLiteral

variable (w : IntegerLiteral)

theorem of_head?_tail {P : Char → Prop} (hsuffix : P 'n') (hend : P ';') (rest : List Char) :
    ∀ c ∈ (w.suffix ++ ';' :: rest).head?, P c := by
  unfold suffix
  cases w.big with
  | true =>
    rintro c ⟨⟩
    exact hsuffix
  | false =>
    rintro c ⟨⟩
    exact hend

theorem mem_joined {c : Char} (h : c ∈ List.intercalate ['_'] w.groups) : c = '_' ∨ c ∈ w.digits := by
  by_cases hc : c = '_'
  · exact .inl hc
  · right
    rw [← w.filter_digits, List.mem_filter]
    exact ⟨h, by simpa using hc⟩

theorem cutBigMark_tail (rest : List Char) :
    cutBigMark (w.suffix ++ ';' :: rest) = (w.suffix, ';' :: rest) := by
  unfold suffix
  cases w.big <;> rfl

theorem cutDecimal_digits (hbase : w.base = .decimal) (rest : List Char) :
    cutNumber.decimal (List.intercalate ['_'] w.groups ++ (w.suffix ++ ';' :: rest)) =
      (List.intercalate ['_'] w.groups ++ w.suffix, ';' :: rest) := by
  have hdigits : cutWhile isNumberChar (List.intercalate ['_'] w.groups ++ (w.suffix ++ ';' :: rest)) =
      (List.intercalate ['_'] w.groups, w.suffix ++ ';' :: rest) := by
    apply cutWhile_append
    · intro c hc
      rcases w.mem_joined hc with rfl | hc
      · rfl
      · simp [isNumberChar, isDigit_of_digitValue_lt (w.digit_lt_ten hbase hc)]
    · exact w.of_head?_tail (P := fun c => isNumberChar c = false) rfl rfl rest
  have hpoint : cutFraction (w.suffix ++ ';' :: rest) = ([], w.suffix ++ ';' :: rest) := by
    unfold suffix
    cases w.big <;> rfl
  have hexponent : cutExponent (w.suffix ++ ';' :: rest) = ([], w.suffix ++ ';' :: rest) := by
    unfold suffix
    cases w.big <;> rfl
  simp only [cutNumber.decimal, Cut.andThen, hdigits, hpoint, hexponent, cutBigMark_tail, List.append_nil]

theorem cutRadix_digits (rest : List Char) :
    cutWhile isRadixChar (List.intercalate ['_'] w.groups ++ (w.suffix ++ ';' :: rest)) =
      (List.intercalate ['_'] w.groups, w.suffix ++ ';' :: rest) := by
  have hradix : ∀ c ∈ '_' :: hexDigits, isRadixChar c = true := List.all_iff_forall_prop.1 (by decide)
  apply cutWhile_append
  · intro c hc
    rcases w.mem_joined hc with rfl | hc
    · rfl
    · exact hradix c (List.mem_cons_of_mem _ (w.mem_hexDigits_of_mem_digits hc))
  · exact w.of_head?_tail (P := fun c => isRadixChar c = false) rfl rfl rest

theorem exists_mark (hbase : w.base ≠ .decimal) : ∃ m, isRadixMark m ∧ w.mark = ['0', m] := by
  unfold mark
  cases hb : w.base with
  | decimal => exact absurd hb hbase
  | _ => cases w.upper <;> exact ⟨_, by decide, rfl⟩

theorem cutNumber_eq (rest : List Char) :
    cutNumber (w.bare ++ (w.suffix ++ ';' :: rest)) = (w.bare ++ w.suffix, ';' :: rest) := by
  by_cases hbase : w.base = .decimal
  · have hbare := w.bare_of_decimal hbase
    rw [hbare, cutNumber_eq_decimal, w.cutDecimal_digits hbase]
    intro m hm
    rw [List.tail_append_of_ne_nil (hbare ▸ w.bare_ne_nil), List.head?_append, Option.mem_def,
      Option.or_eq_some_iff] at hm
    rcases hm with hm | ⟨-, hm⟩
    · rcases w.mem_joined (List.mem_of_mem_tail (List.mem_of_mem_head? hm)) with rfl | hm
      · rfl
      · exact of_digitValue_lt_ten (P := fun c => isRadixMark c = false) (w.digit_lt_ten hbase hm)
          (List.all_iff_forall_prop.1 (by decide))
    · exact w.of_head?_tail (P := fun c => isRadixMark c = false) rfl rfl rest m hm
  · obtain ⟨m, hm, hmark⟩ := w.exists_mark hbase
    simp only [bare, hmark, List.cons_append, List.nil_append, cutNumber, if_pos hm, cutRadix_digits, Cut.push,
      Cut.andThen, cutBigMark_tail]

theorem exists_head_bare : ∃ c cs, w.bare = c :: cs ∧ c.isDigit := by
  cases hbase : w.base with
  | decimal =>
    obtain ⟨g, gs, hgroups⟩ := List.exists_cons_of_ne_nil w.groups_ne_nil
    obtain ⟨c, cs, rfl⟩ := List.exists_cons_of_ne_nil (w.group_ne_nil g (by simp [hgroups]))
    have hlt : digitValue c < 10 := w.digit_lt_ten hbase (by simp [digits, hgroups])
    have hhead : ∃ ds, List.intercalate ['_'] w.groups = c :: ds := by
      rw [hgroups]
      cases gs with
      | nil => exact ⟨cs, by simp [List.intercalate]⟩
      | cons g gs => exact ⟨_, by rw [List.intercalate_cons_cons, List.cons_append, List.cons_append]⟩
    obtain ⟨ds, hds⟩ := hhead
    exact ⟨c, ds, by rw [w.bare_of_decimal hbase, hds], isDigit_of_digitValue_lt hlt⟩
  | hexadecimal => exact ⟨_, _, by rw [bare, mark, hbase]; rfl, rfl⟩
  | octal => exact ⟨_, _, by rw [bare, mark, hbase]; rfl, rfl⟩
  | binary => exact ⟨_, _, by rw [bare, mark, hbase]; rfl, rfl⟩

theorem cuts_number (rest : List Char) : Cuts .number (w.bare ++ w.suffix) (';' :: rest) := by
  obtain ⟨c, cs, hbare, hdigit⟩ := w.exists_head_bare
  have hcut := w.cutNumber_eq rest
  have hsign : c ∉ signs := by
    intro hmem
    have hall : ∀ d ∈ signs, d.isDigit = false := List.all_iff_forall_prop.1 (by decide)
    exact absurd (hall c hmem) (by simp [hdigit])
  have hquote : ¬ (c = '"' ∨ c = '\'') := by
    rintro (rfl | rfl)
    · exact absurd hdigit (by decide)
    · exact absurd hdigit (by decide)
  intro afterValue
  rw [hbare, List.cons_append] at hcut
  rw [List.append_assoc, hbare, List.cons_append, cutLexeme_of_not_sign afterValue hsign, if_neg hquote,
    if_pos hdigit, hcut]

end IntegerLiteral

/-! ## Tokens -/

/-- A token has the text, behind the white space. -/
structure Token.Spells (t : Token) (kind : TokenKind) (gap text : List Char) : Prop where
  kind : t.kind = kind
  gap : t.gap = String.ofList gap
  text : t.text = String.ofList text

theorem exists_token (fuel : ℕ) (spot : Spot) (afterValue : Bool) (hgap : ∀ c ∈ gap, isGap c)
    (hstart : ∃ c cs, lexeme = c :: cs ∧ isGap c = false) (hcut : Cuts kind lexeme rest) :
    ∃ t spot' afterValue', t.Spells kind gap lexeme ∧
      tokensFrom (fuel + 1) spot afterValue (gap ++ (lexeme ++ rest)) =
        t :: tokensFrom fuel spot' afterValue' rest := by
  obtain ⟨c, cs, rfl, hc⟩ := hstart
  have hspan : (gap ++ (c :: cs ++ rest)).span isGap = (gap, c :: cs ++ rest) :=
    cutWhile_append hgap (by simpa using hc)
  rw [tokensFrom, hspan]
  simp only [List.cons_append]
  rw [← List.cons_append, hcut afterValue]
  exact ⟨_, _, _, ⟨rfl, rfl, rfl⟩, rfl⟩

/-- The tokens of an integer literal behind a space. -/
def IntegerLiteral.Tokens (w : IntegerLiteral) (ts : List Token) : Prop :=
  match w.minus with
  | none => ∃ n, ts = [n] ∧ n.Spells .number [' '] (w.bare ++ w.suffix)
  | some gap => ∃ s n, ts = [s, n] ∧ s.Spells .symbol [' '] ['-'] ∧ n.Spells .number gap (w.bare ++ w.suffix)

theorem exists_integer_tokens (w : IntegerLiteral) (fuel : ℕ) (spot : Spot) (afterValue : Bool)
    (rest : List Char) : ∃ ts t more, w.Tokens ts ∧ t.Spells .symbol [] [';'] ∧
      tokensFrom (fuel + 3) spot afterValue ([' '] ++ (w.sign ++ (w.bare ++ w.suffix ++ ';' :: rest))) =
        ts ++ t :: more := by
  have hspace : ∀ c ∈ [' '], isGap c := List.all_iff_forall_prop.1 (by decide)
  obtain ⟨c, cs, hbare, hdigit⟩ := w.exists_head_bare
  have hnumber : ∃ c cs, w.bare ++ w.suffix = c :: cs ∧ isGap c = false := by
    refine ⟨c, cs ++ w.suffix, by rw [hbare, List.cons_append], ?_⟩
    by_contra hgap
    have hnone : c.isDigit = false :=
      of_isGap (P := fun c => c.isDigit = false) (by simpa using hgap) (by decide)
    exact absurd (hdigit.symm.trans hnone) (by decide)
  have hend (fuel : ℕ) (spot : Spot) (afterValue : Bool) : ∃ t more, t.Spells .symbol [] [';'] ∧
      tokensFrom (fuel + 1) spot afterValue (';' :: rest) = t :: more := by
    obtain ⟨t, spot', after', ht, htokens⟩ := exists_token fuel spot afterValue (List.forall_mem_nil _)
      ⟨';', [], rfl, by decide⟩ (cuts_semicolon : Cuts .symbol [';'] rest)
    exact ⟨t, _, ht, htokens⟩
  unfold IntegerLiteral.Tokens IntegerLiteral.sign
  cases hminus : w.minus with
  | none =>
    obtain ⟨n, spot₁, after₁, hn, hfirst⟩ :=
      exists_token (fuel + 2) spot afterValue hspace hnumber (w.cuts_number rest)
    obtain ⟨t, more, ht, hlast⟩ := hend (fuel + 1) spot₁ after₁
    exact ⟨[n], t, more, ⟨n, rfl, hn⟩, ht, by rw [List.nil_append, hfirst, hlast]; rfl⟩
  | some gap =>
    have hgap : ∀ c ∈ gap, isGap c := w.isGap_of_mem gap hminus
    have hnext : (gap ++ (w.bare ++ w.suffix ++ ';' :: rest)).head? ≠ some '-' := by
      cases gap with
      | nil =>
        rw [hbare]
        rintro ⟨⟩
        exact absurd hdigit (by decide)
      | cons d gap =>
        rintro ⟨⟩
        exact absurd (hgap '-' List.mem_cons_self) (by decide)
    have hsplit : '-' :: gap ++ (w.bare ++ w.suffix ++ ';' :: rest) =
        ['-'] ++ (gap ++ (w.bare ++ w.suffix ++ ';' :: rest)) := rfl
    obtain ⟨s, spot₁, after₁, hs, hfirst⟩ :=
      exists_token (fuel + 2) spot afterValue hspace ⟨'-', [], rfl, by decide⟩ (cuts_minus hnext)
    obtain ⟨n, spot₂, after₂, hn, hsecond⟩ :=
      exists_token (fuel + 1) spot₁ after₁ hgap hnumber (w.cuts_number rest)
    obtain ⟨t, more, ht, hlast⟩ := hend fuel spot₂ after₂
    exact ⟨[s, n], t, more, ⟨s, n, rfl, hs, hn⟩, ht, by rw [hsplit, hfirst, hsecond, hlast]; rfl⟩

/-- The text of a type alias, and what follows it. -/
def aliasSource (name value rest : String) : String := "type " ++ name ++ " = " ++ value ++ ";" ++ rest

/-- The tokens of an alias for an integer literal, and what follows them. -/
inductive AliasTokens (w : IntegerLiteral) (name : String) : List Token → List Token → Prop
  | intro {t₁ t₂ t₃ t₄ : Token} {ts rest : List Token} (hword : t₁.Spells .word [] "type".toList)
      (hname : t₂.Spells .word [' '] name.toList) (hequals : t₃.Spells .symbol [' '] ['='])
      (hvalue : w.Tokens ts) (hend : t₄.Spells .symbol [] [';']) :
      AliasTokens w name (t₁ :: t₂ :: t₃ :: (ts ++ t₄ :: rest)) rest

/-- A file that starts with an alias for an integer literal starts with its tokens. -/
theorem exists_aliasTokens (w : IntegerLiteral) {name : String} (hname : IsIdentifier name.toList)
    (rest : String) : ∃ more, AliasTokens w name (tokens (aliasSource name w.text rest)) more := by
  have hchars : (aliasSource name w.text rest).toList =
      [] ++ ("type".toList ++ ([' '] ++ (name.toList ++ ([' '] ++ (['='] ++
        ([' '] ++ (w.sign ++ (w.bare ++ w.suffix ++ ';' :: rest.toList)))))))) := by
    simp [aliasSource, IntegerLiteral.text]
  obtain ⟨fuel, hfuel⟩ : ∃ fuel, (aliasSource name w.text rest).toList.length + 1 = fuel + 6 := by
    have hlength : 5 ≤ (aliasSource name w.text rest).toList.length := by
      rw [hchars]
      simp
    exact ⟨(aliasSource name w.text rest).toList.length - 5, by omega⟩
  have hspace : ∀ c ∈ [' '], isGap c := List.all_iff_forall_prop.1 (by decide)
  have htype : IsIdentifier "type".toList :=
    ⟨'t', ['y', 'p', 'e'], by decide, by decide, List.all_iff_forall_prop.1 (by decide)⟩
  have hstart : ∃ c cs, name.toList = c :: cs ∧ isGap c = false := by
    obtain ⟨c, cs, hc, -, hword⟩ := hname
    have hfirst := hword c (by simp [hc])
    simp only [isWordChar, Bool.and_eq_true, Bool.not_eq_true'] at hfirst
    exact ⟨c, cs, hc, hfirst.1.2⟩
  rw [tokens, hfuel, hchars]
  obtain ⟨t₁, spot₁, after₁, h₁, htokens₁⟩ :=
    exists_token (fuel + 5) {} false (List.forall_mem_nil _) ⟨'t', ['y', 'p', 'e'], by decide, by decide⟩
      (cuts_word htype)
  obtain ⟨t₂, spot₂, after₂, h₂, htokens₂⟩ :=
    exists_token (fuel + 4) spot₁ after₁ hspace hstart (cuts_word hname)
  obtain ⟨t₃, spot₃, after₃, h₃, htokens₃⟩ :=
    exists_token (fuel + 3) spot₂ after₂ hspace ⟨'=', [], rfl, by decide⟩ cuts_equals
  obtain ⟨ts, t₄, more, hts, h₄, hvalue⟩ := exists_integer_tokens w fuel spot₃ after₃ rest.toList
  rw [htokens₁, htokens₂, htokens₃, hvalue]
  exact ⟨more, .intro h₁ h₂ h₃ hts h₄⟩

end Lexing

variable {t s n : Token} {ts rest more : List Token} {fuel : ℕ} {open_ : Bool} {kind : TokenKind}
  {gap text : List Char} {w : IntegerLiteral}

/-! ## Tokens that come next -/

theorem skipComments_cons (h : t.kind ≠ .comment) : skipComments (t :: ts) = t :: ts :=
  List.dropWhile_cons_of_neg (by simpa [Token.isComment] using h)

theorem symbol?_eq_none {u : String} (hc : t.kind ≠ .comment) (hu : t.isSymbol u = false) :
    symbol? u (t :: ts) = none := by
  simp only [symbol?, skipComments_cons hc, hu, Bool.false_eq_true, if_false]

theorem symbol?_eq_some {u : String} (hu : t.isSymbol u = true) : symbol? u (t :: ts) = some ts := by
  have hc : t.kind ≠ .comment := by
    intro h
    simp [Token.isSymbol, h] at hu
  simp only [symbol?, skipComments_cons hc, hu, if_true]

theorem word?_eq_none {u : String} (hc : t.kind ≠ .comment) (hu : t.isWord u = false) :
    word? u (t :: ts) = none := by
  simp only [word?, skipComments_cons hc, hu, Bool.false_eq_true, if_false]

theorem anyWord?_eq_some (hw : t.kind = .word) : anyWord? (t :: ts) = some (t, ts) := by
  simp [anyWord?, skipComments_cons, hw]

namespace Token.Spells

theorem isSymbol_eq (h : t.Spells .symbol gap text) (u : String) :
    t.isSymbol u = decide (text = u.toList) := by
  simp [Token.isSymbol, h.kind, h.text, ← String.toList_inj, Bool.beq_eq_decide_eq]

theorem isWord_eq (h : t.Spells .word gap text) (u : String) :
    t.isWord u = decide (text = u.toList) := by
  simp [Token.isWord, h.kind, h.text, ← String.toList_inj, Bool.beq_eq_decide_eq]

end Token.Spells

/-! ## Types -/

/-- A type starts with a token that opens no other construct. -/
def startsInteger (t : Token) : Prop := t.kind = .number ∨ t.kind = .symbol ∧ t.text = "-"

theorem startsInteger.isWord (h : startsInteger t) (u : String) : t.isWord u = false := by
  rcases h with h | ⟨h, -⟩ <;> simp [Token.isWord, h]

theorem startsInteger.isSymbol (h : startsInteger t) {u : String} (hu : u ≠ "-") : t.isSymbol u = false := by
  rcases h with h | ⟨h, htext⟩
  · simp [Token.isSymbol, h]
  · simpa [Token.isSymbol, h, htext] using hu.symm

theorem startsInteger.kind_ne (h : startsInteger t) : t.kind ≠ .comment := by
  rcases h with h | ⟨h, -⟩ <;> simp [h]

theorem parseSuffixed_eq {x : TypeSyntax} (hs : s.Spells .symbol gap [';'])
    (h : parsePrimary (fuel + 1) open_ (t :: ts) = some (x, s :: rest)) :
    parseSuffixed (fuel + 2) open_ (t :: ts) = some (x, s :: rest) := by
  have hnone : symbol? "[" (s :: rest) = none := symbol?_eq_none (by simp [hs.kind]) (hs.isSymbol_eq _)
  rw [parseSuffixed, h]
  simp only [Option.bind_eq_bind, Option.bind_some, moreBrackets, hnone]

theorem parsePrefixed_eq {x : TypeSyntax} (ht : startsInteger t) (hs : s.Spells .symbol gap [';'])
    (h : parsePrimary (fuel + 1) open_ (t :: ts) = some (x, s :: rest)) :
    parsePrefixed (fuel + 3) open_ (t :: ts) = some (x, s :: rest) := by
  rw [parsePrefixed]
  simp only [ht.isWord, ht.isSymbol, ne_eq, String.reduceEq, not_false_eq_true, Bool.false_and,
    Bool.false_eq_true, if_false]
  exact parseSuffixed_eq hs h

theorem parseOperand_eq {x : TypeSyntax} (ht : startsInteger t) (hs : s.Spells .symbol gap [';'])
    (h : parsePrimary (fuel + 1) open_ (t :: ts) = some (x, s :: rest)) :
    parseOperand (fuel + 4) open_ (t :: ts) = some (x, s :: rest) := by
  have hunion : symbol? "|" (t :: ts) = none := symbol?_eq_none ht.kind_ne (ht.isSymbol (by decide))
  have hintersection : symbol? "&" (t :: ts) = none := symbol?_eq_none ht.kind_ne (ht.isSymbol (by decide))
  rw [parseOperand, hunion, hintersection]
  exact parsePrefixed_eq ht hs h

theorem parseUnion_eq {x : TypeSyntax} (ht : startsInteger t) (hs : s.Spells .symbol gap [';'])
    (h : parsePrimary (fuel + 1) open_ (t :: ts) = some (x, s :: rest)) :
    parseUnion (fuel + 6) open_ (t :: ts) = some (x, s :: rest) := by
  have hsemicolon : s.kind ≠ .comment := by simp [hs.kind]
  have hunion : symbol? "|" (s :: rest) = none := symbol?_eq_none hsemicolon (hs.isSymbol_eq _)
  have hintersection : symbol? "&" (s :: rest) = none := symbol?_eq_none hsemicolon (hs.isSymbol_eq _)
  have hmembers : parseIntersection (fuel + 5) open_ (t :: ts) = some (x, s :: rest) := by
    rw [parseIntersection, parseOperand_eq ht hs h]
    simp only [Option.bind_eq_bind, Option.bind_some, moreIntersection, hintersection]
  rw [parseUnion, hmembers]
  simp only [Option.bind_eq_bind, Option.bind_some, moreUnion, hunion]

theorem parseType_eq {x : TypeSyntax} (ht : startsInteger t) (hs : s.Spells .symbol gap [';'])
    (h : parsePrimary (fuel + 1) open_ (t :: ts) = some (x, s :: rest)) :
    parseType (fuel + 7) open_ (t :: ts) = some (x, s :: rest) := by
  have hextends : word? "extends" (s :: rest) = none :=
    word?_eq_none (by simp [hs.kind]) (by simp [Token.isWord, hs.kind])
  rw [parseType]
  dsimp only
  rw [skipComments_cons ht.kind_ne, parseUnion_eq ht hs h]
  simp only [Option.bind_eq_bind, Option.bind_some, hextends]

/-- The tokens of an integer literal are parsed as the literal with its text. -/
theorem exists_parsePrimary (h : w.Tokens ts) (fuel : ℕ) (open_ : Bool) (rest : List Token) :
    ∃ p : Piece, p.text = w.text ∧
      parsePrimary (fuel + 1) open_ (ts ++ rest) = some (.literal p .numeric, rest) := by
  revert h
  unfold IntegerLiteral.Tokens IntegerLiteral.text IntegerLiteral.sign
  cases w.minus with
  | none =>
    rintro ⟨n, rfl, hn⟩
    refine ⟨n.piece, hn.text, ?_⟩
    rw [List.singleton_append, parsePrimary]
    simp only [hn.kind]
  | some gap =>
    rintro ⟨s, n, rfl, hs, hn⟩
    refine ⟨pieceOf (s :: n :: rest) rest, ?_, ?_⟩
    · have htake : (s :: n :: rest).take ((s :: n :: rest).length - rest.length) = [s, n] := by
        have hlength : (s :: n :: rest).length - rest.length = 2 := by simp; omega
        rw [hlength]
        rfl
      simp only [pieceOf, htake, Token.source, List.foldl_cons, List.foldl_nil, hs.text, hn.gap, hn.text,
        ← String.ofList_append]
      simp
    · have hnumber : skipComments (n :: rest) = n :: rest := skipComments_cons (by simp [hn.kind])
      have hminus : s.text = "-" := hs.text
      rw [List.cons_append, List.singleton_append, parsePrimary]
      simp [hs.kind, hminus, hnumber, hn.kind]

theorem IntegerLiteral.Tokens.exists_cons (h : w.Tokens ts) :
    ∃ t ts', ts = t :: ts' ∧ startsInteger t := by
  unfold IntegerLiteral.Tokens at h
  split at h
  · obtain ⟨n, rfl, hn⟩ := h
    exact ⟨n, [], rfl, .inl hn.kind⟩
  · obtain ⟨s, n, rfl, hs, -⟩ := h
    exact ⟨s, [n], rfl, .inr ⟨hs.kind, hs.text⟩⟩

/-! ## Declarations -/

/-- A declaration stands for an integer literal and nothing else. -/
structure DeclarationSyntax.Aliases (d : DeclarationSyntax) (name : String) (w : IntegerLiteral) : Prop where
  name : d.name = name
  generic : d.generic = false
  body : ∃ p : Piece, p.text = w.text ∧ d.body = .typeAlias (.literal p .numeric)

theorem AliasTokens.exists_parseDeclaration {all : List Token} {name : String} (h : AliasTokens w name all more)
    (comment : Option String) : ∃ d : DeclarationSyntax, parseDeclaration comment all = some (d, more) ∧
      d.comment = comment ∧ d.Aliases name w := by
  cases h with | @intro t₁ t₂ t₃ t₄ ts _ h₁ h₂ h₃ h h₄ =>
  have hfuel : fuelFor (ts ++ t₄ :: more) = 16 * (ts ++ t₄ :: more).length + 9 + 7 := rfl
  have hequals : t₃.kind ≠ .comment := by simp [h₃.kind]
  have hangle : symbol? "<" (t₃ :: (ts ++ t₄ :: more)) = none := symbol?_eq_none hequals (h₃.isSymbol_eq _)
  have hskip : skipAngles (t₃ :: (ts ++ t₄ :: more)) = some (t₃ :: (ts ++ t₄ :: more)) := by
    rw [skipAngles, hangle]
  have hvalue : symbol? "=" (t₃ :: (ts ++ t₄ :: more)) = some (ts ++ t₄ :: more) :=
    symbol?_eq_some (h₃.isSymbol_eq _)
  have hclose : closeStatement (t₄ :: more) = more := by
    rw [closeStatement, symbol?_eq_some (h₄.isSymbol_eq _)]
  obtain ⟨p, hp, hprimary⟩ := exists_parsePrimary h (16 * (ts ++ t₄ :: more).length + 9) true (t₄ :: more)
  have htype : parseType (fuelFor (ts ++ t₄ :: more)) true (ts ++ t₄ :: more) =
      some (.literal p .numeric, t₄ :: more) := by
    obtain ⟨t, ts', rfl, ht⟩ := h.exists_cons
    exact parseType_eq ht h₄ hprimary
  have hinterface : t₁.isWord "interface" = false := h₁.isWord_eq _
  have hword : t₁.isWord "type" = true := h₁.isWord_eq _
  refine ⟨⟨t₂.text, t₁.line, t₁.column, comment, false, .typeAlias (.literal p .numeric)⟩, ?_, rfl,
    ⟨by simp [h₂.text], rfl, p, hp, rfl⟩⟩
  rw [parseDeclaration]
  simp only [hinterface, hword, Bool.false_eq_true, if_false, if_true, anyWord?_eq_some h₂.kind, hskip, hvalue,
    htype, hclose, hangle, Option.bind_eq_bind, Option.bind_some, Option.isSome_none]

/-! ## Modules -/

theorem prefix_parseStatement (before : Option Token) (t : Token) (rest : List Token) (m : ModuleSyntax) :
    m.declarations <+: (parseStatement before t rest m).1.declarations := by
  have hdeclared (comment : Option String) (ts : List Token) (other : ModuleSyntax × List Token)
      (hother : other.1 = m) : m.declarations <+: (Option.getD (if startsDeclaration ts then
        (parseDeclaration comment ts).map fun x => ({ m with declarations := m.declarations ++ [x.1] }, x.2)
      else none) other).1.declarations := by
    split_ifs
    · cases parseDeclaration comment ts with
      | none => simp [hother]
      | some x => exact List.prefix_append _ _
    · simp [hother]
  unfold parseStatement
  dsimp only
  by_cases himport : t.isWord "import"
  · rw [if_pos himport]
    split <;> exact List.prefix_rfl
  · rw [if_neg himport]
    by_cases hexport : t.isWord "export"
    · rw [if_pos hexport]
      exact hdeclared _ _ _ rfl
    · rw [if_neg hexport]
      split
      · split <;> exact List.prefix_rfl
      · exact hdeclared _ _ _ rfl

theorem prefix_parseStatements (fuel : ℕ) (before : Option Token) (ts : List Token) (m : ModuleSyntax) :
    m.declarations <+: (parseStatements fuel before ts m).declarations := by
  induction fuel generalizing before ts m with
  | zero => exact List.prefix_rfl
  | succ fuel ih =>
    unfold parseStatements
    split
    · exact List.prefix_rfl
    · split_ifs
      · exact ih _ _ _
      · exact (prefix_parseStatement _ _ _ _).trans (ih _ _ _)

theorem AliasTokens.exists_parseStatement {name : String} {all : List Token} (h : AliasTokens w name all more) :
    ∃ t rest, all = t :: rest ∧ t.isComment = false ∧ t.kind = .word ∧
      ∃ d : DeclarationSyntax, parseStatement none t rest {} = ({ declarations := [d] }, more) ∧
        d.comment = none ∧ d.Aliases name w := by
  obtain ⟨d, hparse, hcomment, halias⟩ := h.exists_parseDeclaration none
  cases h with | @intro t₁ t₂ t₃ t₄ ts _ h₁ h₂ h₃ h h₄ =>
  have hconst : t₁.isWord "const" = false := h₁.isWord_eq _
  have hword : t₁.isWord "type" = true := h₁.isWord_eq _
  have himport : t₁.isWord "import" = false := h₁.isWord_eq _
  have hexport : t₁.isWord "export" = false := h₁.isWord_eq _
  have hdeclare : t₁.isWord "declare" = false := h₁.isWord_eq _
  have hline : lineEnds (t₂ :: t₃ :: (ts ++ t₄ :: more)) = false := by
    simp [lineEnds, peek?, skipComments, Token.isComment, Token.startsLine, h₂.kind, h₂.gap]
  have hstarts : startsDeclaration (t₁ :: t₂ :: t₃ :: (ts ++ t₄ :: more)) = true := by
    simp [startsDeclaration, hconst, hword, anyWord?_eq_some h₂.kind, hline]
  refine ⟨t₁, _, rfl, by simp [Token.isComment, h₁.kind], h₁.kind, d, ?_, hcomment, halias⟩
  unfold parseStatement
  simp only [himport, hexport, hdeclare, Bool.false_and, Bool.false_eq_true, if_false, hstarts, if_true,
    documentation?, hparse, Option.map_some, Option.getD_some, List.nil_append]

/-- A file that starts with an alias for an integer literal declares its name so. -/
theorem exists_declaration (w : IntegerLiteral) {name : String} (hname : IsIdentifier name.toList)
    (rest : String) : ∃ d : DeclarationSyntax, (parseModule (aliasSource name w.text rest)).declaration? name = some d ∧
      d.comment = none ∧ d.Aliases name w := by
  obtain ⟨more, hall⟩ := exists_aliasTokens w hname rest
  obtain ⟨t, ts, htokens, hcomment, hkind, d, hparse, hd⟩ := hall.exists_parseStatement
  have hfirst : [d] <+: (parseModule (aliasSource name w.text rest)).declarations := by
    have hsymbol (u : String) : t.isSymbol u = false := by simp [Token.isSymbol, hkind]
    rw [parseModule, htokens, parseStatements]
    simp only [hcomment, hsymbol, hparse, Bool.or_self, Bool.false_eq_true, if_false]
    exact prefix_parseStatements _ _ _ { declarations := [d] }
  obtain ⟨ds, hds⟩ := hfirst
  refine ⟨d, ?_, hd⟩
  rw [ModuleSyntax.declaration?, ← hds, List.singleton_append, List.find?_cons_of_pos]
  simp [hd.2.name]

end TypeAtlas.TypeScript
