import TypeAtlas.Number.Basic
import TypeAtlas.Proofs.Number.Shortest

/-! # Written numbers

The text of a number in a document. It has only a few kinds of character, it is null exactly if the
number is not finite, and finite numbers with the same text are the same number: integers have
neither a point nor an exponent, and floating-point numbers are read back from their digits.
-/

namespace TypeAtlas

/-- The text of a number in a document. -/
def Number.document : Number → String
  | .int n => writeInt n
  | .float x => FloatLayout.document.write x

/-- The characters of a written number or of null. -/
def isNumeral (c : Char) : Bool :=
  c.isDigit || c.isLower || c == '-' || c == '+' || c == '.'

theorem isNumeral_of_isDigit {c : Char} (h : c.isDigit) : isNumeral c := by
  simp [isNumeral, h]

/-! ## Digits and signs -/

/-- The digits of a number behind its sign. -/
def signed (negative : Bool) (body : List Char) : List Char := if negative then '-' :: body else body

def StartsWithDigit (cs : List Char) : Prop := ∃ c rest, cs = c :: rest ∧ c.isDigit

theorem signed_inj {s t : Bool} {cs ds : List Char} (hc : StartsWithDigit cs)
    (hd : StartsWithDigit ds) (h : signed s cs = signed t ds) : s = t ∧ cs = ds := by
  obtain ⟨c, cs, rfl, hc⟩ := hc
  obtain ⟨d, ds, rfl, hd⟩ := hd
  have hminus {c : Char} (hc : c.isDigit) : '-' ≠ c := by
    rintro rfl
    cases hc
  cases s <;> cases t
  · exact ⟨rfl, by simpa [signed] using h⟩
  · exact absurd (by simpa [signed] using h : c = '-' ∧ _).1.symm (hminus hc)
  · exact absurd (by simpa [signed] using h : '-' = d ∧ _).1 (hminus hd)
  · exact ⟨rfl, by simpa [signed] using h⟩

theorem mem_signed {s : Bool} {body : List Char} {c : Char} (h : c ∈ signed s body) :
    c = '-' ∨ c ∈ body := by
  cases s
  · exact .inr h
  · exact List.mem_cons.1 h

theorem mem_signed_of_mem {s : Bool} {body : List Char} {c : Char} (h : c ∈ body) :
    c ∈ signed s body := by
  cases s
  · exact h
  · exact List.mem_cons_of_mem _ h

theorem startsWithDigit_decimalDigits (n : ℕ) : StartsWithDigit (decimalDigits n) := by
  cases h : decimalDigits n with
  | nil => exact absurd h (decimalDigits_ne_nil n)
  | cons c cs => exact ⟨c, cs, rfl, isDigit_of_mem_decimalDigits (n := n) (by simp [h])⟩

theorem toList_writeInt (n : ℤ) :
    (writeInt n).toList = signed (decide (n < 0)) (decimalDigits n.natAbs) := by
  simp [writeInt, signed]

namespace FloatLayout

variable (layout : FloatLayout) (d : Binary64.Decimal)

theorem startsWithDigit_writeDecimal : StartsWithDigit (layout.writeDecimal d) := by
  obtain ⟨c, cs, hds, hc⟩ := startsWithDigit_decimalDigits d.digits
  simp only [writeDecimal, hds, positional, scientific]
  split_ifs with h hp hn
  · exact ⟨'0', _, rfl, rfl⟩
  · exact ⟨c, _, rfl, hc⟩
  · obtain ⟨k, hk⟩ : ∃ k, (d.exponent + ↑(c :: cs).length - 1 + 1).toNat = k + 1 :=
      Nat.exists_eq_succ_of_ne_zero (by omega)
    rw [hk]
    exact ⟨c, _, rfl, hc⟩
  all_goals
    cases cs with
    | nil => exact ⟨c, _, rfl, hc⟩
    | cons b bs => exact ⟨c, _, rfl, hc⟩

theorem isNumeral_of_mem_positional {digits : List Char} {place : ℤ} {c : Char}
    (hd : ∀ c ∈ digits, isNumeral c) (h : c ∈ positional digits place) : isNumeral c := by
  have hz {n : ℕ} (hc : c ∈ List.replicate n '0') : isNumeral c :=
    isNumeral_of_isDigit (isDigit_of_mem_zeros hc)
  simp only [positional] at h
  split_ifs at h with hp hn
  · simp only [List.cons_append, List.mem_cons, List.mem_append] at h
    rcases h with rfl | rfl | h | h
    · rfl
    · rfl
    · exact hz h
    · exact hd _ h
  · simp only [List.mem_append, List.mem_cons, List.not_mem_nil, or_false] at h
    rcases h with (h | h) | rfl | rfl
    · exact hd _ h
    · exact hz h
    · rfl
    · rfl
  · rcases List.mem_append.1 h with h | h
    · exact hd _ (List.mem_of_mem_take h)
    · rcases List.mem_cons.1 h with rfl | h
      · rfl
      · exact hd _ (List.mem_of_mem_drop h)

theorem isNumeral_of_mem_scientific {width : ℕ} {digits : List Char} {exponent : ℤ} {c : Char}
    (hd : ∀ c ∈ digits, isNumeral c) (h : c ∈ scientific width digits exponent) :
    isNumeral c := by
  obtain ⟨m, hsci, hm⟩ : ∃ m, scientific width digits exponent =
      m ++ 'e' :: (if exponent < 0 then '-' else '+') :: padded width exponent.natAbs ∧
      ∀ c ∈ m, isNumeral c := by
    rcases digits with _ | ⟨d, _ | ⟨e, rest⟩⟩
    · exact ⟨[], rfl, by simp⟩
    · exact ⟨[d], rfl, hd⟩
    · refine ⟨d :: '.' :: e :: rest, rfl, fun c hc => ?_⟩
      rcases List.mem_cons.1 hc with rfl | hc
      · exact hd _ List.mem_cons_self
      · rcases List.mem_cons.1 hc with rfl | hc
        · rfl
        · exact hd _ (List.mem_cons_of_mem _ hc)
  rw [hsci] at h
  rcases List.mem_append.1 h with h | h
  · exact hm c h
  · simp only [List.mem_cons] at h
    rcases h with rfl | rfl | h
    · rfl
    · split_ifs <;> rfl
    · exact isNumeral_of_isDigit (isDigit_of_mem_padded h)

theorem isNumeral_of_mem_writeDecimal {c : Char} (h : c ∈ layout.writeDecimal d) : isNumeral c := by
  have hd : ∀ c ∈ decimalDigits d.digits, isNumeral c := fun c hc =>
    isNumeral_of_isDigit (isDigit_of_mem_decimalDigits hc)
  have hz (n : ℕ) : ∀ c ∈ List.replicate n '0', isNumeral c := fun c hc =>
    isNumeral_of_isDigit (isDigit_of_mem_zeros hc)
  simp only [writeDecimal] at h
  split_ifs at h
  · exact isNumeral_of_mem_positional hd h
  · exact isNumeral_of_mem_scientific hd h

/-- What is not an integer shows it. -/
theorem point_or_exponent_mem :
    '.' ∈ layout.writeDecimal d ∨ 'e' ∈ layout.writeDecimal d := by
  simp only [writeDecimal, positional, scientific]
  split_ifs <;> simp

/-- The text of a finite number, without its sign. -/
def body (m : ℕ) (e : ℤ) : List Char :=
  if m = 0 then ['0', '.', '0'] else layout.writeDecimal (Binary64.shortest m e)

theorem startsWithDigit_body (m : ℕ) (e : ℤ) : StartsWithDigit (layout.body m e) := by
  unfold body
  split_ifs
  · exact ⟨'0', _, rfl, rfl⟩
  · exact layout.startsWithDigit_writeDecimal _

theorem isNumeral_of_mem_body {m : ℕ} {e : ℤ} {c : Char} (h : c ∈ layout.body m e) :
    isNumeral c := by
  unfold body at h
  split_ifs at h
  · simp only [List.mem_cons, List.not_mem_nil, or_false] at h
    rcases h with rfl | rfl | rfl <;> rfl
  · exact layout.isNumeral_of_mem_writeDecimal _ h

theorem point_or_exponent_mem_body (m : ℕ) (e : ℤ) :
    '.' ∈ layout.body m e ∨ 'e' ∈ layout.body m e := by
  unfold body
  split_ifs
  · exact .inl (by simp)
  · exact layout.point_or_exponent_mem _

theorem toList_write_finite {x : Binary64} {negative : Bool} {m : ℕ} {e : ℤ}
    (h : x.reading = .finite negative m e) :
    (layout.write x).toList = signed negative (layout.body m e) := by
  simp [write, h, signed, body]

theorem body_inj {x y : Binary64} {s t : Bool} {m n : ℕ} {e f : ℤ}
    (hx : x.reading = .finite s m e) (hy : y.reading = .finite t n f)
    (h : layout.body m e = layout.body n f) : m = n ∧ e = f := by
  have hzero {x : Binary64} {s : Bool} {e : ℤ} (hx : x.reading = .finite s 0 e) :
      e = Binary64.leastExponent := by
    obtain ⟨i, g, -, -, -, ⟨-, -, he⟩ | ⟨-, hm, -⟩⟩ := Binary64.bits_of_reading hx
    · exact he
    · simp [Binary64.hiddenBit_eq] at hm
  have hval {m : ℕ} {e : ℤ} (hm : m ≠ 0) :
      readDecimal (layout.body m e) = (Binary64.shortest m e).value := by
    rw [body, if_neg hm, readDecimal_writeDecimal]
  have hnull {e : ℤ} : readDecimal (layout.body 0 e) = 0 := by
    have := readDecimal_point ['0'] ['0'] (by simp) (by simp)
    simpa [body, digitsNat, Nat.ofDigitChars] using this
  rcases eq_or_ne m 0 with rfl | hm <;> rcases eq_or_ne n 0 with rfl | hn
  · exact ⟨rfl, (hzero hx).trans (hzero hy).symm⟩
  · have hpos := Binary64.shortest_value_pos (Binary64.normal_of_reading hy hn)
    rw [← hval hn, ← h, hnull] at hpos
    exact absurd hpos (lt_irrefl _)
  · have hpos := Binary64.shortest_value_pos (Binary64.normal_of_reading hx hm)
    rw [← hval hm, h, hnull] at hpos
    exact absurd hpos (lt_irrefl _)
  · refine Binary64.shortest_value_inj (Binary64.normal_of_reading hx hm)
      (Binary64.normal_of_reading hy hn) ?_
    rw [← hval hm, ← hval hn, h]

end FloatLayout

/-! ## Documents -/

namespace Number

theorem document_cases (n : Number) :
    n.isFinite = false ∧ n.document = "null" ∨
      n.isFinite ∧ ∃ s body, n.document.toList = signed s body ∧ StartsWithDigit body ∧
        ∀ c ∈ body, isNumeral c := by
  cases n with
  | int n =>
    exact .inr ⟨rfl, _, _, toList_writeInt n, startsWithDigit_decimalDigits _, fun c hc =>
      isNumeral_of_isDigit (isDigit_of_mem_decimalDigits hc)⟩
  | float x =>
    simp only [isFinite, Binary64.isFinite, document]
    cases h : x.reading with
    | nan => exact .inl ⟨rfl, by simp [FloatLayout.write, h, FloatLayout.document]⟩
    | infinite s => exact .inl ⟨rfl, by simp [FloatLayout.write, h, FloatLayout.document]⟩
    | finite s m e =>
      exact .inr ⟨rfl, s, _, FloatLayout.toList_write_finite _ h, FloatLayout.startsWithDigit_body ..,
        fun c => FloatLayout.isNumeral_of_mem_body _⟩

theorem isNumeral_of_mem_document {n : Number} {c : Char} (h : c ∈ n.document.toList) :
    isNumeral c := by
  rcases document_cases n with ⟨-, hn⟩ | ⟨-, s, body, hn, -, hb⟩
  · have hnull : "null".toList = ['n', 'u', 'l', 'l'] := by decide
    rw [hn, hnull] at h
    simp only [List.mem_cons, List.not_mem_nil, or_false] at h
    rcases h with rfl | rfl | rfl | rfl <;> rfl
  · rw [hn] at h
    rcases mem_signed h with rfl | h
    · rfl
    · exact hb _ h

theorem document_ne_empty (n : Number) : n.document.toList ≠ [] := by
  rcases document_cases n with ⟨-, hn⟩ | ⟨-, s, body, hn, ⟨c, cs, rfl, -⟩, -⟩
  · rw [hn]
    simp
  · rw [hn]
    cases s <;> simp [signed]

theorem signed_ne_letters {s : Bool} {body letters : List Char} (hb : StartsWithDigit body)
    (hl : ∀ c ∈ letters.head?, c.isAlpha) : signed s body ≠ letters := by
  obtain ⟨c, cs, rfl, hc⟩ := hb
  rintro rfl
  cases s
  · have hc' : c.isUpper ∨ c.isLower := by
      simpa only [Bool.or_eq_true] using show (c.isUpper || c.isLower) = true from
        hl c (by simp [signed])
    have hdigit : c.val ≤ 57 := of_decide_eq_true (Bool.and_eq_true_iff.1 hc).2
    rcases hc' with hc' | hc'
    · have hupper : 65 ≤ c.val := (of_decide_eq_true hc').1
      exact absurd (UInt32.le_trans hupper hdigit) (by decide)
    · have hlower : 97 ≤ c.val := of_decide_eq_true (Bool.and_eq_true_iff.1 hc').1
      exact absurd (UInt32.le_trans hlower hdigit) (by decide)
  · exact absurd (hl '-' (by simp [signed])) (by decide)

theorem document_eq_null {n : Number} : n.document = "null" ↔ n.isFinite = false := by
  rcases document_cases n with ⟨hf, hn⟩ | ⟨hf, s, body, hn, hb, -⟩
  · simp [hf, hn]
  · refine ⟨fun h => ?_, fun h => by simp [hf] at h⟩
    rw [h] at hn
    exact absurd hn.symm (signed_ne_letters hb (by simp))

theorem document_ne_bool (n : Number) (b : Bool) :
    n.document ≠ if b then "true" else "false" := by
  rcases document_cases n with ⟨-, hn⟩ | ⟨-, s, body, hn, hb, -⟩
  · rw [hn]
    cases b <;> decide
  · intro h
    rw [h] at hn
    cases b
    · exact signed_ne_letters hb (by simp) hn.symm
    · exact signed_ne_letters hb (by simp) hn.symm

theorem not_mem_document_int {n : ℤ} {c : Char} (hc : c = '.' ∨ c = 'e') :
    c ∉ (Number.int n).document.toList := by
  intro h
  rw [document, toList_writeInt] at h
  rcases mem_signed h with rfl | h
  · exact absurd hc (by decide)
  · have hd := isDigit_of_mem_decimalDigits h
    rcases hc with rfl | rfl <;> cases hd

theorem document_int_ne_float {n : ℤ} {x : Binary64} (hx : x.isFinite) :
    (Number.int n).document ≠ (float x).document := by
  intro h
  obtain ⟨s, m, e, hr⟩ := Binary64.exists_reading hx
  have hmem {c : Char} (hc : c ∈ FloatLayout.document.body m e) :
      c ∈ (Number.int n).document.toList := by
    rw [h, document, FloatLayout.toList_write_finite _ hr]
    exact mem_signed_of_mem hc
  rcases FloatLayout.point_or_exponent_mem_body FloatLayout.document m e with hc | hc
  · exact not_mem_document_int (.inl rfl) (hmem hc)
  · exact not_mem_document_int (.inr rfl) (hmem hc)

theorem document_int_inj {m n : ℤ} (h : (Number.int m).document = (Number.int n).document) :
    m = n := by
  have hl := congrArg String.toList h
  simp only [document, toList_writeInt] at hl
  obtain ⟨hs, hd⟩ := signed_inj (startsWithDigit_decimalDigits _)
    (startsWithDigit_decimalDigits _) hl
  have habs : m.natAbs = n.natAbs := by
    rw [← digitsNat_decimalDigits m.natAbs, hd, digitsNat_decimalDigits]
  rw [decide_eq_decide] at hs
  omega

theorem document_float_inj {x y : Binary64} (hx : x.isFinite) (hy : y.isFinite)
    (h : (float x).document = (float y).document) : x = y := by
  obtain ⟨s, m, e, hxr⟩ := Binary64.exists_reading hx
  obtain ⟨t, n, f, hyr⟩ := Binary64.exists_reading hy
  have hl := congrArg String.toList h
  simp only [document, FloatLayout.toList_write_finite _ hxr,
    FloatLayout.toList_write_finite _ hyr] at hl
  obtain ⟨rfl, hb⟩ := signed_inj (FloatLayout.startsWithDigit_body ..)
    (FloatLayout.startsWithDigit_body ..) hl
  obtain ⟨rfl, rfl⟩ := FloatLayout.body_inj _ hxr hyr hb
  exact Binary64.eq_of_reading_eq hxr hyr

/-- Finite numbers with the same text are the same. -/
theorem document_inj {m n : Number} (hm : m.isFinite) (hn : n.isFinite)
    (h : m.document = n.document) : m = n := by
  cases m with
  | int k =>
    cases n with
    | int l => rw [document_int_inj h]
    | float y => exact absurd h (document_int_ne_float hn)
  | float x =>
    cases n with
    | int l => exact absurd h.symm (document_int_ne_float hm)
    | float y => rw [document_float_inj hm hn h]

end Number

end TypeAtlas
