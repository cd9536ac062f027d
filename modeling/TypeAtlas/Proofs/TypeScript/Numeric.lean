import TypeAtlas.Proofs.Tag.Written
import TypeAtlas.Proofs.TypeScript.Spelled
import TypeAtlas.Description.Record

/-! # Described integers

What is read from the text of an integer literal: the integer for a number, and its decimal text for a big
integer, unless the spelling is one that the reader does not see through.
-/

namespace TypeAtlas.TypeScript

theorem toList_without (c : Char) (s : String) :
    (without c s).toList = s.toList.filter (· != c) := by
  simp [without]

theorem literalNumber?_eq {text : String} {cs : List Char}
    (h : (without '_' (without ' ' text)).toList = cs) : literalNumber? text =
      ((readLiteralInt? cs).map Number.int).or ((readFloat? cs).map Number.float) := by
  unfold literalNumber?
  rw [h]
  dsimp only
  cases readLiteralInt? cs <;> rfl

theorem joinDigitGroups?_eq {cs : List Char} (h : '_' ∉ cs) : joinDigitGroups? cs = some cs := by
  fun_induction joinDigitGroups? cs with
  | case1 => rfl
  | case2 => simp at h
  | case3 => rfl
  | case4 => simp at h
  | case5 => simp at h
  | case6 => simp at h
  | case7 => simp at h
  | case8 c rest _ _ _ ih => simp [ih fun hmem => h (List.mem_cons_of_mem _ hmem)]

theorem takeSign_eq {cs : List Char} (h : ∀ c ∈ cs.head?, c ∈ hexDigits) : takeSign cs = (false, cs) := by
  unfold takeSign
  split
  · exact absurd (h _ rfl) (by decide)
  · exact absurd (h _ rfl) (by decide)
  · rfl

theorem digitsValue_eq {ds : List Char} (h : ∀ c ∈ ds, digitValue c < 10) :
    Text.digitsValue ds = digitsIn 10 ds := by
  induction ds using List.reverseRecOn with
  | nil => rfl
  | append_singleton ds c ih =>
    have hc : Text.digitValue? c = some (digitValue c) :=
      of_digitValue_lt_ten (P := fun c => Text.digitValue? c = some (digitValue c)) (h c (by simp))
        (List.all_iff_forall_prop.1 (by decide))
    have hds := ih fun d hd => h d (List.mem_append_left _ hd)
    unfold Text.digitsValue at hds ⊢
    rw [List.foldl_append, hds, digitsIn_append]
    simp only [List.foldl_cons, List.foldl_nil, hc]

theorem readUnsignedFloat?_digits {ds : List Char} (negative : Bool) (hne : ds ≠ [])
    (h : ∀ c ∈ ds, digitValue c < 10) :
    readUnsignedFloat? negative ds = some (Binary64.ofDecimal negative (digitsIn 10 ds) 0) := by
  have hdigit (c : Char) (hc : c ∈ ds) : Text.isDigit c = true ∧ c.toLower ≠ 'i' ∧ c.toLower ≠ 'n' :=
    of_digitValue_lt_ten (P := fun c => Text.isDigit c = true ∧ c.toLower ≠ 'i' ∧ c.toLower ≠ 'n') (h c hc)
      (List.all_iff_forall_prop.1 (by decide))
  have hwhole : ds.takeWhile Text.isDigit = ds := List.takeWhile_eq_self_iff.2 fun c hc => (hdigit c hc).1
  have hrest : ds.dropWhile Text.isDigit = [] := List.dropWhile_eq_nil_iff.2 fun c hc => (hdigit c hc).1
  obtain ⟨c, cs, rfl⟩ := List.exists_cons_of_ne_nil hne
  have hc := hdigit c List.mem_cons_self
  unfold readUnsignedFloat?
  rw [if_neg (by simp [hc.2.1]), if_neg (by simp [hc.2.2]), hwhole, hrest]
  simp [readExponent?, digitsValue_eq h]

theorem readUnsignedFloat?_gap {c : Char} (negative : Bool) (cs : List Char) (hc : isGap c) :
    readUnsignedFloat? negative (c :: cs) = none := by
  have hdigit : Text.isDigit c = false :=
    of_isGap (P := fun c => Text.isDigit c = false) hc (by decide)
  have hname : c.toLower ≠ 'i' ∧ c.toLower ≠ 'n' ∧ c ≠ '.' :=
    of_isGap (P := fun c => c.toLower ≠ 'i' ∧ c.toLower ≠ 'n' ∧ c ≠ '.') hc (by decide)
  unfold readUnsignedFloat?
  rw [if_neg (by simp [hname.1]), if_neg (by simp [hname.2.1]),
    List.takeWhile_cons_of_neg (by simp [hdigit]), List.dropWhile_cons_of_neg (by simp [hdigit])]
  dsimp only
  split
  · next heq => exact absurd (List.cons.inj heq).1 hname.2.2
  · rfl

namespace IntegerLiteral

variable {w : IntegerLiteral}

/-- A spelling of which the stored value does not depend on how the integer is written. -/
structure Plain (w : IntegerLiteral) : Prop where
  /-- Only spaces stand behind the sign. -/
  spaced : ∀ gap ∈ w.minus, ∀ c ∈ gap, c = ' '
  short : w.big = false → w.base = .decimal → w.digits.length ≤ maxDecimalDigits
  decimal : w.big → w.base = .decimal
  joined : w.big → w.groups.length = 1
  nonzero : w.big → w.minus.isSome → w.magnitude ≠ 0

def closeSign (w : IntegerLiteral) : List Char := match w.minus with
  | none => []
  | some gap => '-' :: gap.filter (· != ' ')

theorem filter_sign : w.sign.filter (· != ' ') = w.closeSign := by
  unfold sign closeSign
  cases w.minus <;> rfl

theorem filter_closeSign : w.closeSign.filter (· != '_') = w.closeSign := by
  rw [List.filter_eq_self]
  intro c hc
  unfold closeSign at hc
  split at hc
  · cases hc
  · next gap hgap =>
    rcases List.mem_cons.1 hc with rfl | hc
    · rfl
    · exact of_isGap (P := (· != '_')) (w.isGap_of_mem gap hgap c (List.mem_filter.1 hc).1) (by decide)

theorem filter_space_bare : w.bare.filter (· != ' ') = w.bare := by
  rw [List.filter_eq_self]
  intro c hc
  have hall : ∀ c ∈ '_' :: hexDigits ++ "xXoO".toList, (c != ' ') = true :=
    List.all_iff_forall_prop.1 (by decide)
  exact hall c (w.mem_bare hc)

theorem toList_stripped (hbig : w.big = false) :
    (without '_' (without ' ' w.text)).toList = w.closeSign ++ (w.mark ++ w.digits) := by
  rw [toList_without, toList_without, text, String.toList_ofList, suffix, hbig]
  simp [filter_sign, filter_closeSign, filter_space_bare, filter_bare]

theorem head?_body : ∀ c ∈ (w.mark ++ w.digits).head?, c ∈ hexDigits := by
  intro c hc
  have hmark : ∀ b upper, ∀ c ∈ (Base.mark b upper).head?, c ∈ hexDigits := by
    rintro (_ | _ | _ | _) (_ | _) c ⟨⟩ <;> decide
  rw [List.head?_append] at hc
  cases hhead : w.mark.head? with
  | some d =>
    rw [hhead] at hc
    exact hmark _ _ c (hhead.trans hc)
  | none =>
    rw [hhead] at hc
    exact w.mem_hexDigits_of_mem_digits (List.mem_of_mem_head? hc)

theorem closeSign_of_spaced (h : ∀ gap ∈ w.minus, ∀ c ∈ gap, c = ' ') :
    w.closeSign = if w.minus.isSome then ['-'] else [] := by
  unfold closeSign
  cases hminus : w.minus with
  | none => rfl
  | some gap =>
    have hgap : gap.filter (· != ' ') = [] := by simpa using h gap hminus
    simp [hgap]

theorem takeSign_stripped (h : ∀ gap ∈ w.minus, ∀ c ∈ gap, c = ' ') :
    takeSign (w.closeSign ++ (w.mark ++ w.digits)) = (w.minus.isSome, w.mark ++ w.digits) := by
  rw [closeSign_of_spaced h]
  cases w.minus with
  | none => exact takeSign_eq head?_body
  | some _ => rfl

/-- A plain number is read as the integer that it writes. -/
theorem literalNumber?_of_plain (hplain : w.Plain) (hbig : w.big = false) :
    literalNumber? w.text = some (.int w.value) := by
  have hread : readLiteralNat? (w.mark ++ w.digits) = some w.magnitude := by
    rw [readLiteralNat?_eq, if_neg]
    rintro ⟨hbase, hlong⟩
    exact absurd (hplain.short hbig hbase) (by omega)
  have hint : readLiteralInt? (w.closeSign ++ (w.mark ++ w.digits)) = some w.value := by
    simp only [readLiteralInt?, takeSign_stripped hplain.spaced, hread]
    rfl
  rw [literalNumber?_eq (toList_stripped hbig), hint]
  rfl

theorem isBlank_eq_false {c : Char} (h : c ∈ hexDigits) : ¬ Text.isBlank c := by
  have hall : ∀ c ∈ hexDigits, ¬ Text.isBlank c := List.all_iff_forall_prop.1 (by decide)
  exact hall c h

theorem readFloat?_stripped : readFloat? (w.closeSign ++ (w.mark ++ w.digits)) =
    readUnsignedFloat? (takeSign (w.closeSign ++ (w.mark ++ w.digits))).1
      (takeSign (w.closeSign ++ (w.mark ++ w.digits))).2 := by
  have hjoin : '_' ∉ w.closeSign ++ (w.mark ++ w.digits) := by
    rw [← filter_closeSign, ← filter_bare, ← List.filter_append]
    simp
  have hbare : Text.Bare (w.closeSign ++ (w.mark ++ w.digits)) := by
    constructor
    · intro c hc
      unfold closeSign at hc
      split at hc
      · exact isBlank_eq_false (head?_body c hc)
      · obtain rfl := Option.some.inj hc
        decide
    · intro c hc
      rw [← List.append_assoc, List.getLast?_append_of_ne_nil _ w.digits_ne_nil] at hc
      exact isBlank_eq_false (w.mem_hexDigits_of_mem_digits (List.mem_of_getLast? hc))
  rw [readFloat?, Text.trim_eq_self.2 hbare, joinDigitGroups?_eq hjoin]
  rfl

theorem literalNumber?_of_gap {gap : List Char} (hminus : w.minus = some gap) (hbig : w.big = false)
    (hgap : ∃ c ∈ gap, c ≠ ' ') : literalNumber? w.text = none := by
  obtain ⟨c, cs, hblank⟩ : ∃ c cs, gap.filter (· != ' ') = c :: cs := by
    apply List.exists_cons_of_ne_nil
    simpa using hgap
  have hmem : c ∈ gap := (List.mem_filter.1 (hblank ▸ List.mem_cons_self)).1
  have hc : isGap c := w.isGap_of_mem gap hminus c hmem
  have hsign : w.closeSign = '-' :: c :: cs := by simp [closeSign, hminus, hblank]
  have hradix : c ≠ '0' ∧ radixDigit? 10 c = none :=
    of_isGap (P := fun c => c ≠ '0' ∧ radixDigit? 10 c = none) hc (by decide)
  have hint : readLiteralInt? (w.closeSign ++ (w.mark ++ w.digits)) = none := by
    have hread (ds : List Char) : readLiteralNat? (c :: ds) = none := by
      rw [readLiteralNat?_of_head? (by simpa using hradix.1), readDecimalNat?]
      split_ifs
      · simp [radixValue?, hradix.2]
      · rfl
    simp only [hsign, readLiteralInt?, takeSign, List.cons_append, hread]
    rfl
  have hfloat : readFloat? (w.closeSign ++ (w.mark ++ w.digits)) = none := by
    rw [readFloat?_stripped, hsign]
    exact readUnsignedFloat?_gap true _ hc
  rw [literalNumber?_eq (toList_stripped hbig), hint, hfloat]
  rfl

/-- A number with too many decimal digits is read as one that is not finite. -/
theorem literalNumber?_of_long (hspaced : ∀ gap ∈ w.minus, ∀ c ∈ gap, c = ' ') (hbig : w.big = false)
    (hbase : w.base = .decimal) (hlong : maxDecimalDigits < w.digits.length) :
    literalNumber? w.text = some (.float (Binary64.infinity w.minus.isSome)) := by
  have hint : readLiteralInt? (w.closeSign ++ (w.mark ++ w.digits)) = none := by
    simp only [readLiteralInt?, takeSign_stripped hspaced, readLiteralNat?_eq, if_pos (And.intro hbase hlong)]
    rfl
  have hdigit : ∀ c ∈ w.digits, digitValue c < 10 := fun _ => w.digit_lt_ten hbase
  have hhead : w.digits.head? ≠ some '0' := by
    rcases w.decimal_digits hbase with h | h
    · rw [h] at hlong
      exact absurd hlong (by decide)
    · exact h
  obtain ⟨hpos, hdigits⟩ := decimalDigits_digitsIn hdigit hhead w.digits_ne_nil
  have hlog : maxDecimalDigits ≤ (digitsIn 10 w.digits).log2 := by
    rw [Nat.le_log2 hpos.ne']
    apply le_trans (Nat.pow_le_pow_left (by decide : 2 ≤ 10) _)
    by_contra hlt
    have hlength := Nat.toDigits_length 10 (digitsIn 10 w.digits) maxDecimalDigits (by decide) (by omega)
    unfold decimalDigits at hdigits
    rw [hdigits] at hlength
    omega
  have hfloat : readFloat? (w.closeSign ++ (w.mark ++ w.digits)) =
      some (Binary64.infinity w.minus.isSome) := by
    rw [readFloat?_stripped, takeSign_stripped hspaced, w.mark_of_decimal hbase, List.nil_append,
      readUnsignedFloat?_digits _ w.digits_ne_nil hdigit, Binary64.ofDecimal_of_overflow]
    exact le_trans (by decide) hlog
  rw [literalNumber?_eq (toList_stripped hbig), hint, hfloat]
  rfl

/-! ## Big integers -/

theorem natAbs_value (w : IntegerLiteral) : w.value.natAbs = w.magnitude := by
  unfold value
  split_ifs <;> simp

theorem value_neg_iff (w : IntegerLiteral) : w.value < 0 ↔ w.minus.isSome ∧ w.magnitude ≠ 0 := by
  unfold value
  split_ifs with h
  · simp [h]
    omega
  · simp [h]

theorem decimalDigits_magnitude (hbase : w.base = .decimal) : decimalDigits w.magnitude = w.digits := by
  rw [magnitude, hbase]
  rcases w.decimal_digits hbase with h | h
  · rw [h]
    rfl
  · exact (decimalDigits_digitsIn (fun _ => w.digit_lt_ten hbase) h w.digits_ne_nil).2

theorem toList_kept : (without ' ' (String.ofList (w.sign ++ w.bare))).toList = w.closeSign ++ w.bare := by
  rw [toList_without, String.toList_ofList, List.filter_append, filter_sign, filter_space_bare]

theorem mem_writeInt {n : ℤ} {c : Char} (h : c ∈ (writeInt n).toList) : c = '-' ∨ c.isDigit := by
  rw [toList_writeInt] at h
  rcases mem_signed h with h | h
  · exact .inl h
  · exact .inr (isDigit_of_mem_decimalDigits h)

/-- A plain big integer is kept as its decimal text, and any other one is not. -/
theorem kept_eq_iff (hbig : w.big) :
    without ' ' (String.ofList (w.sign ++ w.bare)) = writeInt w.value ↔ w.Plain := by
  rw [← String.toList_inj, toList_kept]
  constructor
  · intro h
    have hmem {c : Char} (hc : c ∈ w.closeSign ++ w.bare) : c = '-' ∨ c.isDigit := mem_writeInt (h ▸ hc)
    constructor
    · intro gap hminus c hc
      by_contra hne
      have hkept : c ∈ w.closeSign := by
        rw [← filter_sign, List.mem_filter, sign, Option.mem_def.1 hminus]
        exact ⟨List.mem_cons_of_mem _ hc, by simpa using hne⟩
      have hgap := of_isGap (P := fun c => ¬ (c = '-' ∨ c.isDigit)) (w.isGap_of_mem gap hminus c hc)
        (by decide)
      exact hgap (hmem (List.mem_append_left _ hkept))
    · intro hsmall
      exact absurd (hbig.symm.trans hsmall) (by decide)
    · intro _
      have hmark : ∀ b upper, (∀ c ∈ Base.mark b upper, c = '-' ∨ c.isDigit) → b = .decimal := by
        intro b upper hdigits
        cases b with
        | decimal => rfl
        | _ =>
          have hletter := hdigits _ (List.mem_cons_of_mem _ List.mem_cons_self)
          cases upper <;> exact absurd hletter (by decide)
      apply hmark _ w.upper
      intro c hc
      exact hmem (List.mem_append_right _ (List.mem_append_left _ hc))
    · intro _
      rcases hgroups : w.groups with _ | ⟨g, _ | ⟨g', gs⟩⟩
      · exact absurd hgroups w.groups_ne_nil
      · rfl
      · have hseparator : '_' ∈ w.bare := by
          rw [bare, hgroups, List.intercalate_cons_cons]
          simp
        exact absurd (hmem (List.mem_append_right _ hseparator)) (by decide)
    · intro _ hsome h0
      obtain ⟨gap, hminus⟩ := Option.isSome_iff_exists.1 hsome
      have hvalue : w.value = 0 := by rw [← Int.natAbs_eq_zero, natAbs_value, h0]
      have hzero : (writeInt 0).toList = ['0'] := by decide
      rw [hvalue, hzero] at h
      simp [closeSign, hminus] at h
  · intro h
    have hbase := h.decimal hbig
    obtain ⟨g, hg⟩ := List.length_eq_one_iff.1 (h.joined hbig)
    have hbare : w.bare = w.digits := by
      rw [w.bare_of_decimal hbase, digits, hg]
      simp [List.intercalate]
    have hneg : w.value < 0 ↔ w.minus.isSome := by
      rw [value_neg_iff]
      exact ⟨And.left, fun hsome => ⟨hsome, h.nonzero hbig hsome⟩⟩
    rw [toList_writeInt, natAbs_value, decimalDigits_magnitude hbase, hbare, closeSign_of_spaced h.spaced, signed]
    simp only [hneg, decide_eq_true_eq]
    split_ifs <;> rfl

/-! ## Descriptions -/

end IntegerLiteral

/-- A value on its own is read as a description. -/
def ReadsAs (d : Datum) (x : Description) : Prop :=
  (Description.ofDatum d).1.get (Description.ofDatum d).2 = .ok x

theorem readsAs_of_placed {d written : Datum} {x : Description} {cells : Array Description.Cell}
    {labels : List (String × DescriptionId)} {id : DescriptionId} {c : Description.Cell}
    (hplace : (Description.Placing.place d).run {} = (.one (id + 1) written, ⟨cells, labels⟩))
    (hc : cells[id + 1]? = some c) (hread : Description.read cells c = .ok x) : ReadsAs d x := by
  have hget : (Description.readAll ⟨cells, labels⟩)[id + 1]? = some (.ok x) := by
    rw [Description.readAll, Array.set!_eq_setIfInBounds, Array.getElem?_setIfInBounds_ne (by simp),
      Array.getElem?_map, hc, Option.map_some, hread]
  have hdatum : Description.ofDatum d = (Description.readAll ⟨cells, labels⟩, id + 1) := by
    rw [Description.ofDatum, hplace]
    rfl
  rw [ReadsAs, hdatum, Descriptions.get, hget, Option.getD_some]

def Piece.position (p : Piece) : Position := ⟨some p.line, some p.column⟩

theorem readsAs_bigint (p : Piece) (text : String) :
    ReadsAs (p.describe "literal" [("literal_kind", .text "bigint"), ("value", .text text)])
      { shape := .literal .bigint (.text text), position := some p.position } :=
  readsAs_of_placed rfl rfl rfl

theorem readsAs_number (p : Piece) (n : Number) :
    ReadsAs (p.describe "literal" [("value", .number n)])
      { shape := if n.isFinite then .literal .number (.number n.fold)
          else .unsupported "literal" (some (Description.nonFinite n))
        position := some p.position } :=
  readsAs_of_placed rfl rfl rfl

theorem readsAs_unsupported (p : Piece) :
    ReadsAs (p.unsupported "literal")
      { shape := .unsupported "literal" (some p.text), position := some p.position } :=
  readsAs_of_placed rfl rfl rfl

/-- The kind of literal that holds an integer. -/
def integerKind (big : Bool) : LiteralKind := if big then .bigint else .number

/-- An integer as the value of a literal. -/
def integerScalar (big : Bool) (n : ℤ) : Scalar :=
  if big then .text (writeInt n) else .number (.int n)

namespace IntegerLiteral

variable {w : IntegerLiteral} {p : Piece}

theorem describeNumeric_big (hp : p.text = w.text) (hbig : w.big) :
    describeNumeric p = p.describe "literal" [("literal_kind", .text "bigint"),
      ("value", .text (without ' ' (String.ofList (w.sign ++ w.bare))))] := by
  have hreverse : p.text.toList.reverse = 'n' :: (w.sign ++ w.bare).reverse := by
    rw [hp, text, suffix, hbig]
    simp
  unfold describeNumeric
  rw [hreverse]
  simp only [List.reverse_reverse]

theorem describeNumeric_number (hp : p.text = w.text) (hbig : w.big = false) :
    describeNumeric p = match literalNumber? w.text with
      | some n => p.describe "literal" [("value", .number n)]
      | none => p.unsupported "literal" := by
  have hlast : p.text.toList.reverse.head? ≠ some 'n' := by
    intro h
    have hmem : 'n' ∈ w.bare := by
      apply List.mem_of_getLast?
      rwa [List.head?_reverse, hp, text, suffix, hbig, String.toList_ofList, if_neg (by decide),
        List.append_nil, List.getLast?_append_of_ne_nil _ w.bare_ne_nil] at h
    exact absurd (w.mem_bare hmem) (by decide)
  unfold describeNumeric
  split
  · next heq => exact absurd (congrArg List.head? heq) hlast
  · have hsame : literalNumber? p.text = literalNumber? w.text := congrArg literalNumber? hp
    cases hnumber : literalNumber? w.text <;> simp only [hsame, hnumber]

theorem readsAs_of_plain (hp : p.text = w.text) (h : w.Plain) :
    ReadsAs (describeNumeric p) { shape := .literal (integerKind w.big) (integerScalar w.big w.value)
                                  position := some p.position } := by
  cases hbig : w.big with
  | true =>
    rw [describeNumeric_big hp hbig, (kept_eq_iff hbig).2 h]
    exact readsAs_bigint p _
  | false =>
    rw [describeNumeric_number hp hbig, literalNumber?_of_plain h hbig]
    exact readsAs_number p (.int w.value)

/-- What keeps a number from being plain. -/
theorem gap_or_long (hbig : w.big = false) (h : ¬ w.Plain) :
    (∃ gap, w.minus = some gap ∧ ∃ c ∈ gap, c ≠ ' ') ∨
      (∀ gap ∈ w.minus, ∀ c ∈ gap, c = ' ') ∧ w.base = .decimal ∧ maxDecimalDigits < w.digits.length := by
  by_cases hspaced : ∀ gap ∈ w.minus, ∀ c ∈ gap, c = ' '
  · right
    refine ⟨hspaced, ?_⟩
    by_contra hshort
    apply h
    exact {
      spaced := hspaced
      short := fun _ hbase => not_lt.1 fun hlong => hshort ⟨hbase, hlong⟩
      decimal := fun h => absurd (h.symm.trans hbig) (by decide)
      joined := fun h => absurd (h.symm.trans hbig) (by decide)
      nonzero := fun h => absurd (h.symm.trans hbig) (by decide) }
  · left
    push Not at hspaced
    exact hspaced

theorem exists_readsAs_unsupported (hp : p.text = w.text) (hbig : w.big = false) (h : ¬ w.Plain) :
    ∃ detail, ReadsAs (describeNumeric p)
      { shape := .unsupported "literal" (some detail), position := some p.position } := by
  rw [describeNumeric_number hp hbig]
  rcases gap_or_long hbig h with ⟨gap, hminus, hgap⟩ | ⟨hspaced, hbase, hlong⟩
  · rw [literalNumber?_of_gap hminus hbig hgap]
    exact ⟨_, readsAs_unsupported p⟩
  · rw [literalNumber?_of_long hspaced hbig hbase hlong]
    have hinfinite : (Number.float (Binary64.infinity w.minus.isSome)).isFinite = false := by
      cases w.minus.isSome <;> decide
    have hreads := readsAs_number p (.float (Binary64.infinity w.minus.isSome))
    rw [hinfinite, if_neg (by decide)] at hreads
    exact ⟨_, hreads⟩

/-- A literal that is not plain is read as something else. -/
theorem exists_readsAs_of_not_plain (hp : p.text = w.text) (h : ¬ w.Plain) :
    (∃ text, ReadsAs (describeNumeric p)
      { shape := .literal .bigint (.text text), position := some p.position } ∧
        w.big ∧ text ≠ writeInt w.value) ∨
    ∃ detail, ReadsAs (describeNumeric p)
      { shape := .unsupported "literal" (some detail), position := some p.position } := by
  cases hbig : w.big with
  | true =>
    left
    rw [describeNumeric_big hp hbig]
    exact ⟨_, readsAs_bigint p _, rfl, mt (kept_eq_iff hbig).1 h⟩
  | false => exact .inr (exists_readsAs_unsupported hp hbig h)

end IntegerLiteral

end TypeAtlas.TypeScript
