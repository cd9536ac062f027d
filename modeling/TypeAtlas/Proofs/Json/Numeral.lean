import TypeAtlas.Json.Reader
import TypeAtlas.Json.Writer
import TypeAtlas.Proofs.Number.Rounded
import TypeAtlas.Proofs.Number.Written

/-! # Numerals of documents

A written number reads back as the same number: an integer since its digits count it, and a
floating-point number since its shortest decimal rounds to it.
-/

namespace TypeAtlas

variable {c : Char} {cs whole part rest : List Char} {power : Option ℤ} {negative : Bool}

/-! ## Digits -/

theorem head?_decimalDigits {n : ℕ} (hn : n ≠ 0) : (decimalDigits n).head? ≠ some '0' := by
  have hdigit : ∀ n < 10, n ≠ 0 → some (Nat.digitChar n) ≠ some '0' := by decide
  induction n using Nat.strongRecOn with
  | ind n ih =>
    unfold decimalDigits at ih ⊢
    rw [Nat.toDigits_eq_if (by decide)]
    split_ifs with hlt
    · exact hdigit n hlt hn
    · have hhead := ih (n / 10) (by omega) (by omega)
      cases hd : Nat.toDigits 10 (n / 10) with
      | nil => exact absurd hd Nat.toDigits_ne_nil
      | cons c cs => rwa [hd] at hhead

theorem length_decimalDigits_of_zero {n : ℕ} (h : (decimalDigits n).head? = some '0') :
    (decimalDigits n).length = 1 := by
  by_cases hn : n = 0
  · subst hn
    rfl
  · exact absurd h (head?_decimalDigits hn)

/-! ## Parts -/

/-- The parts of a written number: digits before and after a point, and a power of ten. -/
structure Numeral where
  whole : List Char
  part : List Char := []
  power : Option ℤ := none

namespace Numeral

variable (n : Numeral)

/-- The text of a number with these parts. -/
def text : List Char :=
  n.whole ++ (if n.part = [] then [] else '.' :: n.part) ++ (n.power.map (exponentText 1)).getD []

/-- There are digits before the point, and they do not begin with a zero in vain. -/
structure Proper : Prop where
  whole : ∀ c ∈ n.whole, c.isDigit
  part : ∀ c ∈ n.part, c.isDigit
  nonempty : n.whole ≠ []
  leading : n.whole.head? = some '0' → n.whole.length = 1

def IsFloat : Prop := ¬ (n.part = [] ∧ n.power = none)

end Numeral

namespace Json

/-- No character that goes on with a number comes next. -/
def Stops (rest : List Char) : Prop :=
  ∀ c ∈ rest.head?, c.isDigit = false ∧ c ≠ '.' ∧ c ≠ 'e' ∧ c ≠ 'E'

theorem takeDigits?_append (h : ∀ c ∈ cs, c.isDigit) (hne : cs ≠ [])
    (hr : ∀ c ∈ rest.head?, c.isDigit = false) : takeDigits? (cs ++ rest) = some (cs, rest) := by
  obtain ⟨ht, hd⟩ := span_digits rest h hr
  simp [takeDigits?, ht, hd, hne]

theorem asciiValue_eq (cs : List Char) : asciiValue cs = digitsNat cs := rfl

theorem readPower?_of_stops (h : Stops rest) : readPower? rest = some (none, rest) := by
  cases rest with
  | nil => rfl
  | cons c cs =>
    obtain ⟨-, -, he, hE⟩ := h c (by simp)
    simp [readPower?, he, hE]

theorem readPower?_exponentText (width : ℕ) (e : ℤ) (h : Stops rest) :
    readPower? (exponentText width e ++ rest) = some (some e, rest) := by
  have hdigits : takeDigits? (padded width e.natAbs ++ rest) = some (padded width e.natAbs, rest) :=
    takeDigits?_append (fun c => isDigit_of_mem_padded)
      (List.append_ne_nil_of_right_ne_nil _ (decimalDigits_ne_nil _)) fun c hc => (h c hc).1
  have hvalue : asciiValue (padded width e.natAbs) = e.natAbs := digitsNat_padded width e.natAbs
  unfold exponentText
  split_ifs with he
  · simp only [readPower?, List.cons_append, hdigits, Option.map_some, hvalue, if_true]
    exact congrArg (fun k => some (some k, rest)) (by omega)
  · simp only [readPower?, List.cons_append, hdigits, Option.map_some, hvalue, reduceCtorEq]
    exact congrArg (fun k => some (some k, rest)) (by simp only [if_false]; omega)

theorem readFraction?_append (hp : ∀ c ∈ part, c.isDigit)
    (hr : ∀ c ∈ rest.head?, c.isDigit = false ∧ c ≠ '.') :
    readFraction? ((if part = [] then [] else '.' :: part) ++ rest) = some (part, rest) := by
  split_ifs with hnil
  · subst hnil
    cases rest with
    | nil => rfl
    | cons c cs =>
      have hc : c ≠ '.' := (hr c (by simp)).2
      rw [List.nil_append, readFraction?]
      rintro _ ⟨⟩
      exact hc rfl
  · exact takeDigits?_append hp hnil fun c hc => (hr c hc).1

theorem readPower?_append (power : Option ℤ) (h : Stops rest) :
    readPower? ((power.map (exponentText 1)).getD [] ++ rest) = some (power, rest) := by
  cases power with
  | none => exact readPower?_of_stops h
  | some e => exact readPower?_exponentText 1 e h

/-- A number without a fraction and an exponent is an integer. -/
def numberOf? (negative : Bool) (whole part : List Char) (power : Option ℤ) : Option Number :=
  if part = [] ∧ power = none then integerNumber? negative (digitsNat whole)
  else
    let x := Binary64.ofDecimal negative (digitsNat (whole ++ part)) (power.getD 0 - part.length)
    if x.isFinite then some (.float x) else none

theorem readMagnitude?_of_reads {rest₁ rest₂ : List Char}
    (hw : takeDigits? cs = some (whole, rest₁))
    (hlead : whole.head? = some '0' → whole.length = 1)
    (hp : readFraction? rest₁ = some (part, rest₂)) (he : readPower? rest₂ = some (power, rest)) :
    readMagnitude? negative cs = (numberOf? negative whole part power).map fun n => (n, rest) := by
  have hzero : (whole.head? == some '0' && whole.length != 1) = false := by
    simpa using hlead
  unfold readMagnitude? numberOf?
  simp only [hw, hp, he, hzero, asciiValue_eq, Option.bind_eq_bind, Option.bind_some,
    Bool.false_eq_true, if_false]
  cases part with
  | nil =>
    cases power with
    | none => exact Option.map_eq_bind.symm
    | some e =>
      simp only [reduceCtorEq, and_false, if_false]
      rw [apply_ite (Option.map fun n => (n, rest))]
      rfl
  | cons c cs =>
    simp only [reduceCtorEq, false_and, if_false]
    rw [apply_ite (Option.map fun n => (n, rest))]
    rfl

theorem readMagnitude?_text {n : Numeral} (h : n.Proper) (hr : Stops rest) :
    readMagnitude? negative (n.text ++ rest) =
      (numberOf? negative n.whole n.part n.power).map fun x => (x, rest) := by
  have hpower : ∀ c ∈ ((n.power.map (exponentText 1)).getD [] ++ rest).head?,
      c.isDigit = false ∧ c ≠ '.' := by
    intro c hc
    cases hp : n.power with
    | none =>
      rw [hp] at hc
      exact ⟨(hr c hc).1, (hr c hc).2.1⟩
    | some e =>
      rw [hp] at hc
      obtain rfl : 'e' = c := by simpa [exponentText] using hc
      decide
  have hpart : ∀ c ∈ ((if n.part = [] then [] else '.' :: n.part) ++
      ((n.power.map (exponentText 1)).getD [] ++ rest)).head?, c.isDigit = false := by
    intro c hc
    split_ifs at hc
    · exact (hpower c hc).1
    · obtain rfl : '.' = c := by simpa using hc
      decide
  rw [Numeral.text, List.append_assoc, List.append_assoc]
  exact readMagnitude?_of_reads (takeDigits?_append h.whole h.nonempty hpart) h.leading
    (readFraction?_append h.part hpower) (readPower?_append n.power hr)

end Json

/-! ## Numbers -/

theorem Numeral.readDecimal_text {n : Numeral} (h : n.Proper) : readDecimal n.text =
    digitsNat (n.whole ++ n.part) * (10 : ℚ) ^ (n.power.getD 0 - n.part.length) := by
  have hpower : exponentPart ((n.power.map (exponentText 1)).getD []) = n.power.getD 0 := by
    cases n.power with
    | none => rfl
    | some e => exact exponentPart_exponentText 1 e
  have hdigit : ∀ c ∈ ((n.power.map (exponentText 1)).getD []).head?, c.isDigit = false := by
    cases n.power with
    | none => simp
    | some e => simp [exponentText]
  have hfraction : fractionPart ((if n.part = [] then [] else '.' :: n.part) ++
      (n.power.map (exponentText 1)).getD []) = (n.part, (n.power.map (exponentText 1)).getD []) := by
    split_ifs with hnil
    · rw [hnil, List.nil_append]
      cases n.power with
      | none => rfl
      | some e => rfl
    · obtain ⟨ht, hd⟩ := span_digits _ h.part hdigit
      rw [List.cons_append, fractionPart, ht, hd]
  have hspan := span_digits ((if n.part = [] then [] else '.' :: n.part) ++
    (n.power.map (exponentText 1)).getD []) h.whole (by
      split_ifs
      · exact hdigit
      · simp)
  rw [readDecimal, Numeral.text, List.append_assoc, hspan.1, hspan.2, hfraction, hpower]

theorem exists_numeral_positional {ds : List Char} (hds : ∀ c ∈ ds, c.isDigit) (hne : ds ≠ [])
    (hlead : ds.head? ≠ some '0') (place : ℤ) :
    ∃ n : Numeral, positional ds place = n.text ∧ n.Proper ∧ n.IsFloat := by
  have hzeros {k : ℕ} : ∀ c ∈ List.replicate k '0', c.isDigit := fun c => isDigit_of_mem_zeros
  have happend {cs ds : List Char} (hcs : ∀ c ∈ cs, c.isDigit) (hds : ∀ c ∈ ds, c.isDigit) :
      ∀ c ∈ cs ++ ds, c.isDigit := fun c hc => (List.mem_append.1 hc).elim (hcs c) (hds c)
  unfold positional
  dsimp only
  split_ifs with hplace hlen
  · refine ⟨⟨['0'], List.replicate (-place).toNat '0' ++ ds, none⟩, by simp [Numeral.text, hne], ?_,
      by simp [Numeral.IsFloat, hne]⟩
    exact ⟨by simp, happend hzeros hds, by simp, by simp⟩
  · refine ⟨⟨ds ++ List.replicate (place.toNat - ds.length) '0', ['0'], none⟩, by simp [Numeral.text],
      ⟨happend hds hzeros, by simp, by simp [hne], fun h => absurd ?_ hlead⟩,
      by simp [Numeral.IsFloat]⟩
    rwa [List.head?_append_of_ne_nil _ hne] at h
  · have htake : ds.take place.toNat ≠ [] := by
      simp only [ne_eq, List.take_eq_nil_iff, not_or]
      exact ⟨by omega, hne⟩
    have hdrop : ds.drop place.toNat ≠ [] := by simpa using hlen
    refine ⟨⟨ds.take place.toNat, ds.drop place.toNat, none⟩, by simp [Numeral.text, hdrop],
      ⟨fun c hc => hds c (List.mem_of_mem_take hc), fun c hc => hds c (List.mem_of_mem_drop hc),
        htake, fun h => absurd ?_ hlead⟩, by simp [Numeral.IsFloat, hdrop]⟩
    rwa [← List.take_append_drop place.toNat ds, List.head?_append_of_ne_nil _ htake]

theorem exists_numeral_scientific {ds : List Char} (hds : ∀ c ∈ ds, c.isDigit) (hne : ds ≠ [])
    (e : ℤ) : ∃ n : Numeral, scientific 1 ds e = n.text ∧ n.Proper ∧ n.IsFloat := by
  match ds, hne with
  | [d], _ => exact ⟨⟨[d], [], some e⟩, rfl, ⟨hds, by simp, by simp, by simp⟩, by simp [Numeral.IsFloat]⟩
  | d :: c :: cs, _ =>
    refine ⟨⟨[d], c :: cs, some e⟩, rfl, ⟨?_, ?_, by simp, by simp⟩, by simp [Numeral.IsFloat]⟩
    · simpa using hds d (by simp)
    · exact fun b hb => hds b (List.mem_cons_of_mem d hb)

theorem FloatLayout.exists_numeral {x : Binary64} {m : ℕ} {e : ℤ}
    (hx : x.reading = .finite negative m e) :
    ∃ n : Numeral, document.body m e = n.text ∧ n.Proper ∧ n.IsFloat := by
  unfold body
  split_ifs with hm
  · exact ⟨⟨['0'], ['0'], none⟩, rfl, ⟨by simp, by simp, by simp, by simp⟩, by simp [Numeral.IsFloat]⟩
  have hpos := Binary64.shortest_value_pos (Binary64.normal_of_reading hx hm)
  have hdigits : (Binary64.shortest m e).digits ≠ 0 := by
    intro h
    simp [Binary64.Decimal.value, h] at hpos
  have hds : ∀ c ∈ decimalDigits (Binary64.shortest m e).digits, c.isDigit :=
    fun c => isDigit_of_mem_decimalDigits
  have hne := decimalDigits_ne_nil (Binary64.shortest m e).digits
  unfold writeDecimal
  dsimp only
  split_ifs with h
  · exact exists_numeral_positional hds hne (head?_decimalDigits hdigits) _
  · exact exists_numeral_scientific hds hne _

namespace Json

theorem readNumber?_signed {body : List Char} (hb : StartsWithDigit body) :
    readNumber? (signed negative body ++ rest) = readMagnitude? negative (body ++ rest) := by
  obtain ⟨c, cs, rfl, hc⟩ := hb
  cases negative with
  | true => rfl
  | false =>
    rw [signed, if_neg (by simp), List.cons_append, readNumber?]
    rintro _ ⟨⟩
    cases hc

theorem ofDecimal_numeral {x : Binary64} {m : ℕ} {e : ℤ} {n : Numeral}
    (hx : x.reading = .finite negative m e) (hn : n.Proper)
    (htext : FloatLayout.document.body m e = n.text) :
    Binary64.ofDecimal negative (digitsNat (n.whole ++ n.part))
      (n.power.getD 0 - n.part.length) = x := by
  have hvalue := htext ▸ Numeral.readDecimal_text hn
  unfold FloatLayout.body at hvalue
  split_ifs at hvalue with hm
  · have hzero : digitsNat (n.whole ++ n.part) = 0 := by
      have : readDecimal ['0', '.', '0'] = 0 := by
        simpa [digitsNat, Nat.ofDigitChars] using readDecimal_point ['0'] ['0'] (by simp) (by simp)
      rw [this, eq_comm, mul_eq_zero] at hvalue
      have hpow : ((10 : ℚ) ^ (n.power.getD 0 - n.part.length)) ≠ 0 := by positivity
      exact_mod_cast hvalue.resolve_right hpow
    obtain ⟨i, f, -, -, hbits, ⟨rfl, hf, -⟩ | ⟨-, hf, -⟩⟩ := Binary64.bits_of_reading hx
    · rw [hzero, Binary64.ofDecimal, if_pos rfl, Binary64.ofQuotient, if_pos (by simp)]
      have hsign : x.bits.toNat = if negative then Binary64.signBit else 0 := by omega
      rw [← hsign]
      exact congrArg Binary64.mk UInt64.ofNat_toNat
    · have : Binary64.hiddenBit = 4503599627370496 := by rw [Binary64.hiddenBit_eq]; norm_num
      omega
  · rw [FloatLayout.document.readDecimal_writeDecimal] at hvalue
    refine Binary64.ofDecimal_of_within hx hm ?_
    rw [← hvalue]
    exact Binary64.within_shortest (Binary64.normal_of_reading hx hm)

theorem integerNumber?_natAbs {k : ℤ} (h : encodable k) :
    integerNumber? (decide (k < 0)) k.natAbs = some (.int k) := by
  simp only [encodable, Bool.and_eq_true, decide_eq_true_eq] at h
  unfold integerNumber?
  by_cases hk : k < 0
  · rw [decide_eq_true hk, if_pos rfl, if_pos (by omega)]
    exact congrArg (fun k => some (Number.int k)) (by omega)
  · rw [decide_eq_false hk, if_neg (by simp), if_pos (by omega)]
    exact congrArg (fun k => some (Number.int k)) (by omega)

/-- A finite number of 64 bits reads back as it was written. -/
theorem readNumber?_document {n : Number} (hn : n.isFinite) (henc : ∀ k, n = .int k → encodable k)
    (hr : Stops rest) : readNumber? (n.document.toList ++ rest) = some (n, rest) := by
  cases n with
  | int k =>
    have hproper : (⟨decimalDigits k.natAbs, [], none⟩ : Numeral).Proper :=
      ⟨fun c => isDigit_of_mem_decimalDigits, by simp, decimalDigits_ne_nil _,
        length_decimalDigits_of_zero⟩
    have htext : decimalDigits k.natAbs = (⟨decimalDigits k.natAbs, [], none⟩ : Numeral).text := by
      simp [Numeral.text]
    rw [Number.document, toList_writeInt, readNumber?_signed (startsWithDigit_decimalDigits _), htext,
      readMagnitude?_text hproper hr]
    simp [numberOf?, integerNumber?_natAbs (henc k rfl)]
  | float x =>
    obtain ⟨negative, m, e, hx⟩ := Binary64.exists_reading hn
    obtain ⟨p, hp, hproper, hfloat⟩ := FloatLayout.exists_numeral hx
    rw [Number.document, FloatLayout.document.toList_write_finite hx,
      readNumber?_signed (FloatLayout.document.startsWithDigit_body m e), hp,
      readMagnitude?_text hproper hr, numberOf?, if_neg hfloat, ofDecimal_numeral hx hproper hp]
    simp [show x.isFinite = true from hn]

end Json

end TypeAtlas
