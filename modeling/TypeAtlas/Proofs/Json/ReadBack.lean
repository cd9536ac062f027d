import TypeAtlas.Proofs.Json.Numeral
import TypeAtlas.Proofs.Json.Unambiguous
import TypeAtlas.Proofs.Run

/-! # Documents read back

A document that was written, on one line or indented, reads back as the value it was written from:
with the fields in order, and null for a number that is not finite. No record may hold two fields of
one name, of which the reader keeps only the last.
-/

namespace TypeAtlas

/-- No record in the value has two fields of the same name. -/
inductive Datum.Distinct : Datum → Prop
  | null : Distinct .null
  | bool (b : Bool) : Distinct (.bool b)
  | number (n : Number) : Distinct (.number n)
  | text (s : String) : Distinct (.text s)
  | moment (s : String) : Distinct (.moment s)
  | list {xs : List Datum} (h : ∀ x ∈ xs, Distinct x) : Distinct (.list xs)
  | record {fs : List (String × Datum)} (hnames : (fs.map Prod.fst).Nodup)
      (h : ∀ f ∈ fs, Distinct f.2) : Distinct (.record fs)

namespace Json

variable {style : Style} {level k : ℕ} {v : Datum} {x : String} {cs rest w w' b : List Char}

/-! ## Layouts -/

/-- Parts between blanks, with a comma between neighbours. -/
def spread (w w' : List Char) : List (List Char) → List Char
  | [] => []
  | p :: ps => w ++ p ++ ps.flatMap (fun q => ',' :: (w ++ q)) ++ w'

/-- The text of a field, with blanks before the value. -/
def spacedField (b : List Char) (name : String) (value : List Char) : List Char :=
  (quote name).toList ++ ':' :: (b ++ value)

/-- The text of a value in some layout. Containers are nested less deeply than given. -/
inductive Spelled : ℕ → Datum → List Char → Prop
  | atom {k : ℕ} {v : Datum} {x : String} (h : v.atom? = some x)
      (henc : ∀ n, v = .int n → encodable n) : Spelled k v x.toList
  | text {k : ℕ} (s : String) : Spelled k (.text s) (quote s).toList
  | list {k : ℕ} (w w' : List Char) (hw : ∀ c ∈ w, isSpace c) (hw' : ∀ c ∈ w', isSpace c)
      (zs : List (Datum × List Char)) (h : ∀ z ∈ zs, Spelled k z.1 z.2) :
      Spelled (k + 1) (.list (zs.map Prod.fst)) ('[' :: (spread w w' (zs.map Prod.snd) ++ [']']))
  | record {k : ℕ} (w w' b : List Char) (hw : ∀ c ∈ w, isSpace c) (hw' : ∀ c ∈ w', isSpace c)
      (hb : ∀ c ∈ b, isSpace c) (fs : List (String × Datum)) (zs : List (String × Datum × List Char))
      (h : ∀ z ∈ zs, Spelled k z.2.1 z.2.2) (hs : sortFields fs = zs.map fun z => (z.1, z.2.1))
      (hnames : (zs.map Prod.fst).Nodup) :
      Spelled (k + 1) (.record fs)
        ('\x7b' :: (spread w w' (zs.map fun z => spacedField b z.1 z.2.2) ++ ['\x7d']))

theorem toList_join_append (sep : String) (ps : List String) :
    ∀ p, (Text.join sep (p :: ps)).toList =
      p.toList ++ (ps.map String.toList).flatMap fun q => sep.toList ++ q := by
  have h : ∀ (ps : List String) (acc : String),
      (ps.foldl (fun acc t => acc ++ sep ++ t) acc).toList =
        acc.toList ++ (ps.map String.toList).flatMap fun q => sep.toList ++ q := by
    intro ps
    induction ps with
    | nil => simp
    | cons p ps ih => intro acc; simp [ih]
  exact fun p => h ps p

def Style.blanks (style : Style) (level : ℕ) : List Char :=
  match style with
  | .compact => []
  | .indented => '\n' :: (indentation level).toList

/-- The blanks before the value of a field. -/
def Style.gap : Style → List Char
  | .compact => []
  | .indented => [' ']

theorem isSpace_of_mem_blanks {c : Char} (h : c ∈ style.blanks level) : isSpace c := by
  cases style with
  | compact => cases h
  | indented =>
    rcases List.mem_cons.1 h with rfl | h
    · rfl
    · rw [indentation, String.toList_ofList] at h
      rw [List.eq_of_mem_replicate h]
      rfl

theorem isSpace_of_mem_gap {c : Char} (h : c ∈ style.gap) : isSpace c := by
  cases style with
  | compact => cases h
  | indented =>
    obtain rfl := List.mem_singleton.1 h
    rfl

theorem toList_enclose_spread (opening closing : Char) {ps : List String} (hps : ps ≠ []) :
    (style.enclose level (String.singleton opening) (String.singleton closing) ps).toList =
      opening :: (spread (style.blanks (level + 1)) (style.blanks level) (ps.map String.toList) ++
        [closing]) := by
  cases ps with
  | nil => exact absurd rfl hps
  | cons p ps =>
    cases style with
    | compact => simp [Style.enclose, spread, Style.blanks, toList_join_append]
    | indented => simp [Style.enclose, spread, Style.blanks, toList_join_append]

theorem toList_fieldLine (name value : String) :
    (quote name ++ style.colon ++ value).toList = spacedField style.gap name value.toList := by
  cases style with
  | compact => simp [spacedField, Style.colon, Style.gap]
  | indented => simp [spacedField, Style.colon, Style.gap]

mutual

/-- What is written is spelled in some layout. -/
theorem spelled_of_write {style : Style} {level : ℕ} (hl : level ≤ maxDepth) :
    ∀ {v : Datum} {x : String}, write style level v = .ok x → v.Distinct →
      Spelled (maxDepth + 1 - level) v x.toList
  | .null, x, h, _ => by cases h; exact .atom rfl nofun
  | .bool b, x, h, _ => by cases h; exact .atom rfl nofun
  | .number (.int n), x, h, _ => by
    rw [write] at h
    split at h
    · next henc =>
      cases h
      exact .atom rfl fun m hm => by cases hm; exact henc
    · cases h
  | .number (.float y), x, h, _ => by cases h; exact .atom rfl nofun
  | .text s, x, h, _ => by cases h; exact .text s
  | .moment s, x, h, _ => by cases h
  | .list [], x, h, _ => by
    cases h
    rw [show maxDepth + 1 - level = maxDepth - level + 1 by omega]
    exact .list [] [] (by simp) (by simp) [] (by simp)
  | .list (v :: vs), x, h, hd => by
    rw [write] at h
    split at h
    · cases h
    · next hlt =>
      obtain ⟨ps, hps, h⟩ := bind_eq_ok.1 h
      cases h
      have hd : ∀ x ∈ v :: vs, x.Distinct := by cases hd; assumption
      obtain ⟨zs, hz, hps', hs⟩ := spelled_of_writeList (by omega) hps hd
      have hne : ps ≠ [] := by
        rintro rfl
        rw [eq_comm, List.map_eq_nil_iff] at hps'
        simp [hps'] at hz
      rw [show maxDepth + 1 - level = maxDepth + 1 - (level + 1) + 1 by omega, hz,
        show "[" = String.singleton '[' from rfl, show "]" = String.singleton ']' from rfl,
        toList_enclose_spread _ _ hne, hps', List.map_map]
      have := Spelled.list (style.blanks (level + 1)) (style.blanks level)
        (fun _ => isSpace_of_mem_blanks) (fun _ => isSpace_of_mem_blanks)
        (zs.map fun z => (z.1, z.2.toList)) (fun z hz => by
          obtain ⟨y, hy, rfl⟩ := List.mem_map.1 hz
          exact hs y hy)
      simpa [Function.comp_def] using this
  | .record [], x, h, _ => by
    cases h
    rw [show maxDepth + 1 - level = maxDepth - level + 1 by omega]
    exact .record [] [] [] (by simp) (by simp) (by simp) [] [] (by simp) (by simp [sortFields])
      (by simp)
  | .record (f :: fs), x, h, hd => by
    rw [write] at h
    split at h
    · cases h
    · next hlt =>
      obtain ⟨ps, hps, h⟩ := bind_eq_ok.1 h
      cases h
      obtain ⟨hnames, hd⟩ : ((f :: fs).map Prod.fst).Nodup ∧ ∀ g ∈ f :: fs, g.2.Distinct := by
        cases hd; exact ⟨by assumption, by assumption⟩
      obtain ⟨zs, hz, hps', hs⟩ := spelled_of_writeFields (by omega) hps hd
      have hlines : (sortFields ps).map (fun f => quote f.1 ++ style.colon ++ f.2) =
          (sortFields zs).map fun z => quote z.1 ++ style.colon ++ z.2.2 := by
        rw [hps', sortFields_map Prod.snd, List.map_map]
        rfl
      have hne : (sortFields zs).map (fun z => quote z.1 ++ style.colon ++ z.2.2) ≠ [] := by
        intro h
        have hlen : (sortFields zs).length = zs.length := length_sortFields
        rw [List.map_eq_nil_iff] at h
        simp [List.eq_nil_of_length_eq_zero (hlen ▸ congrArg List.length h)] at hz
      have htexts : ((sortFields zs).map fun z => quote z.1 ++ style.colon ++ z.2.2).map
          String.toList = ((sortFields zs).map fun z => (z.1, z.2.1, z.2.2.toList)).map
            fun z => spacedField style.gap z.1 z.2.2 := by
        rw [List.map_map, List.map_map]
        exact List.map_congr_left fun z _ => toList_fieldLine z.1 z.2.2
      have hsorted : ((sortFields zs).map fun z => (z.1, z.2.1, z.2.2.toList)).map Prod.fst =
          (sortFields zs).map Prod.fst := by
        rw [List.map_map]
        rfl
      rw [show maxDepth + 1 - level = maxDepth + 1 - (level + 1) + 1 by omega, hlines, hz,
        show "\x7b" = String.singleton '\x7b' from rfl,
        show "\x7d" = String.singleton '\x7d' from rfl, toList_enclose_spread _ _ hne, htexts]
      refine .record _ _ _ (fun _ => isSpace_of_mem_blanks) (fun _ => isSpace_of_mem_blanks)
        (fun _ => isSpace_of_mem_gap) _ _ (fun z hz => ?_) ?_ ?_
      · obtain ⟨y, hy, rfl⟩ := List.mem_map.1 hz
        exact hs y (mem_sortFields.1 hy)
      · rw [sortFields_map Prod.fst, List.map_map]
        rfl
      · rw [hz, List.map_map] at hnames
        rw [hsorted]
        exact ((sortFields_perm zs).map Prod.fst).nodup_iff.2 hnames

theorem spelled_of_writeList {style : Style} {level : ℕ} (hl : level ≤ maxDepth) :
    ∀ {vs : List Datum} {ps : List String}, writeList style level vs = .ok ps →
      (∀ v ∈ vs, v.Distinct) → ∃ zs : List (Datum × String), vs = zs.map Prod.fst ∧
        ps = zs.map Prod.snd ∧ ∀ z ∈ zs, Spelled (maxDepth + 1 - level) z.1 z.2.toList
  | [], ps, h, _ => by cases h; exact ⟨[], rfl, rfl, by simp⟩
  | v :: vs, ps, h, hd => by
    obtain ⟨p, hp, h⟩ := bind_eq_ok.1 h
    obtain ⟨qs, hqs, h⟩ := bind_eq_ok.1 h
    cases h
    obtain ⟨hv, hvs⟩ := List.forall_mem_cons.1 hd
    obtain ⟨zs, rfl, rfl, hs⟩ := spelled_of_writeList hl hqs hvs
    exact ⟨(v, p) :: zs, rfl, rfl, List.forall_mem_cons.2 ⟨spelled_of_write hl hp hv, hs⟩⟩

theorem spelled_of_writeFields {style : Style} {level : ℕ} (hl : level ≤ maxDepth) :
    ∀ {fs : List (String × Datum)} {ps : List (String × String)},
      writeFields style level fs = .ok ps → (∀ f ∈ fs, f.2.Distinct) →
        ∃ zs : List (String × Datum × String), fs = zs.map (fun z => (z.1, z.2.1)) ∧
          ps = zs.map (fun z => (z.1, z.2.2)) ∧
            ∀ z ∈ zs, Spelled (maxDepth + 1 - level) z.2.1 z.2.2.toList
  | [], ps, h, _ => by cases h; exact ⟨[], rfl, rfl, by simp⟩
  | (k, v) :: fs, ps, h, hd => by
    obtain ⟨p, hp, h⟩ := bind_eq_ok.1 h
    obtain ⟨qs, hqs, h⟩ := bind_eq_ok.1 h
    cases h
    obtain ⟨hv, hvs⟩ := List.forall_mem_cons.1 hd
    obtain ⟨zs, rfl, rfl, hs⟩ := spelled_of_writeFields hl hqs hvs
    exact ⟨(k, v, p) :: zs, rfl, rfl, List.forall_mem_cons.2 ⟨spelled_of_write hl hp hv, hs⟩⟩

end

/-! ## Reading -/

theorem skipSpace_append (hw : ∀ c ∈ w, isSpace c) (h : ∀ c ∈ cs.head?, isSpace c = false) :
    skipSpace (w ++ cs) = cs := by
  rw [skipSpace, List.dropWhile_append_of_pos hw]
  cases cs with
  | nil => rfl
  | cons c cs => rw [List.dropWhile_cons_of_neg (by rw [h c rfl]; exact Bool.false_ne_true)]

/-- What follows a value: blanks, or what goes on with the container. -/
theorem stops_cons {c : Char} (h : isSpace c ∨ c ∈ Datum.structural) (rest : List Char) :
    Stops (c :: rest) := by
  have hstructural : ∀ c ∈ Datum.structural,
      c.isDigit = false ∧ c ≠ '.' ∧ c ≠ 'e' ∧ c ≠ 'E' := by
    simp only [Datum.structural, List.forall_mem_cons, List.not_mem_nil, false_implies, implies_true,
      and_true]
    decide
  intro d hd
  obtain rfl : c = d := by simpa using hd
  rcases h with h | h
  · simp only [isSpace, Bool.or_eq_true, beq_iff_eq] at h
    rcases h with ((rfl | rfl) | rfl) | rfl <;> decide
  · exact hstructural c h

theorem readValue?_of_digit {fuel depth : ℕ} {c : Char} (hc : c = '-' ∨ c.isDigit) :
    readValue? (fuel + 1) depth (c :: cs) =
      (readNumber? (c :: cs)).map fun p => (.number p.1, p.2) := by
  have hne {d : Char} (hd : d.isDigit = false) (hminus : d ≠ '-') : c ≠ d := by
    rintro rfl
    rcases hc with rfl | hc
    · exact hminus rfl
    · simp [hd] at hc
  rw [readValue?]
  all_goals
    intro rest he
    exact absurd (List.cons.inj he).1 (hne (by decide) (by decide))

theorem readValue?_atom {fuel depth : ℕ} (hv : v.atom? = some x)
    (henc : ∀ n, v = .int n → encodable n) (hr : Stops rest) :
    readValue? (fuel + 1) depth (x.toList ++ rest) = some (v.canonical, rest) := by
  cases v <;> simp only [Datum.atom?, Option.some.injEq, reduceCtorEq] at hv <;> subst hv
  case null => rfl
  case bool b => cases b <;> rfl
  case number n =>
    rcases n.document_cases with ⟨hf, hn⟩ | ⟨hf, s, body, hn, ⟨c, cs, rfl, hc⟩, -⟩
    · rw [hn, Datum.canonical, hf]
      rfl
    · have hread := readNumber?_document hf (fun k hk => henc k (hk ▸ rfl)) hr
      rw [hn] at hread ⊢
      obtain ⟨d, ds, hds, hd⟩ : ∃ d ds, signed s (c :: cs) = d :: ds ∧ (d = '-' ∨ d.isDigit) := by
        cases s with
        | true => exact ⟨_, _, rfl, .inl rfl⟩
        | false => exact ⟨_, _, rfl, .inr hc⟩
      rw [hds, List.cons_append] at hread ⊢
      rw [readValue?_of_digit hd, hread, Datum.canonical, if_pos hf]
      rfl

theorem length_le_flatMap_escape (cs : List Char) : cs.length ≤ (cs.flatMap escape).length := by
  induction cs with
  | nil => simp
  | cons c cs ih =>
    have hpos : 0 < (escape c).length := by
      unfold escape
      split_ifs <;> simp
    simp only [List.flatMap_cons, List.length_append, List.length_cons]
    omega

/-- The reader's fuel for a text is what is left of the document. -/
theorem readText?_quote (s : String) :
    readText? ((s.toList.flatMap escape ++ '"' :: rest).length + 1) []
      (s.toList.flatMap escape ++ '"' :: rest) = some (s, rest) := by
  have hlen := length_le_flatMap_escape s.toList
  obtain ⟨fuel, hfuel⟩ : ∃ fuel, (s.toList.flatMap escape ++ '"' :: rest).length + 1 =
      s.toList.length + 1 + fuel := by
    refine ⟨(s.toList.flatMap escape).length + rest.length + 1 - s.toList.length, ?_⟩
    simp only [List.length_append, List.length_cons]
    omega
  rw [hfuel, readText?_flatMap_escape]
  simp

theorem readValue?_quote {fuel depth : ℕ} (s : String) :
    readValue? (fuel + 1) depth ((quote s).toList ++ rest) = some (.text s, rest) := by
  rw [toList_quote, List.cons_append, List.append_assoc, List.singleton_append, readValue?,
    readText?_quote]
  rfl

theorem Spelled.head (h : Spelled k v cs) :
    ∃ c ds, cs = c :: ds ∧ isSpace c = false ∧ c ≠ ']' ∧ c ≠ '\x7d' := by
  cases h with
  | @atom _ _ x ha =>
    cases hx : x.toList with
    | nil => exact absurd hx (Datum.atom_ne_nil ha)
    | cons c ds =>
      have hc := Datum.isNumeral_of_mem_atom ha (c := c) (by simp [hx])
      refine ⟨c, ds, rfl, ?_, ?_, ?_⟩
      · by_contra hs
        simp only [isSpace, Bool.not_eq_false, Bool.or_eq_true, beq_iff_eq] at hs
        rcases hs with ((rfl | rfl) | rfl) | rfl <;> cases hc
      · rintro rfl
        cases hc
      · rintro rfl
        cases hc
  | text s => exact ⟨_, _, toList_quote s, rfl, by decide, by decide⟩
  | list => exact ⟨_, _, rfl, rfl, by decide, by decide⟩
  | record => exact ⟨_, _, rfl, rfl, by decide, by decide⟩

/-- The fuel that the parts of a container need. -/
def partsFuel (ps : List (List Char)) : ℕ := 2 * (ps.map fun p => p.length + 1).sum

theorem partsFuel_le (w w' : List Char) (ps : List (List Char)) :
    partsFuel ps ≤ 2 * (spread w w' ps).length + 2 := by
  have htail (ps : List (List Char)) :
      (ps.map fun p => p.length + 1).sum ≤ (ps.flatMap fun q => ',' :: (w ++ q)).length := by
    induction ps with
    | nil => simp
    | cons p ps ih =>
      simp only [List.map_cons, List.sum_cons, List.flatMap_cons, List.length_append,
        List.length_cons]
      omega
  cases ps with
  | nil => simp [partsFuel]
  | cons p ps =>
    have := htail ps
    simp only [partsFuel, spread, List.map_cons, List.sum_cons, List.length_append]
    omega

/-- The parts of a container from the second one on, and what comes after them. -/
def tail (w w' : List Char) (ps : List (List Char)) (close : Char) (rest : List Char) : List Char :=
  ps.flatMap (fun q => ',' :: (w ++ q)) ++ (w' ++ close :: rest)

theorem stops_tail (hw' : ∀ c ∈ w', isSpace c) {close : Char} (hclose : close ∈ Datum.structural)
    (ps : List (List Char)) (rest : List Char) : Stops (tail w w' ps close rest) := by
  cases ps with
  | nil =>
    cases w' with
    | nil => exact stops_cons (.inr hclose) rest
    | cons c cs => exact stops_cons (.inl (hw' c (by simp))) _
  | cons p ps => exact stops_cons (.inr (by decide)) _

theorem skipSpace_tail_nil (hw' : ∀ c ∈ w', isSpace c) {close : Char} (hclose : isSpace close = false)
    (rest : List Char) : skipSpace (tail w w' [] close rest) = close :: rest :=
  skipSpace_append hw' (by simpa using hclose)

theorem skipSpace_tail_cons (p : List Char) (ps : List (List Char)) (close : Char)
    (rest : List Char) : skipSpace (tail w w' (p :: ps) close rest) =
      ',' :: (w ++ (p ++ tail w w' ps close rest)) := by
  have htail : tail w w' (p :: ps) close rest = ',' :: (w ++ (p ++ tail w w' ps close rest)) := by
    simp [tail]
  rw [htail]
  exact skipSpace_append (w := []) (by simp) (by simp [isSpace])

/-- The reader takes a text for a value, whatever comes after it. -/
structure Reads (depth : ℕ) (v : Datum) (cs : List Char) : Prop where
  read : ∀ fuel rest, 2 * cs.length ≤ fuel → Stops rest →
    readValue? fuel depth (cs ++ rest) = some (v, rest)
  head : ∃ c ds, cs = c :: ds ∧ isSpace c = false ∧ c ≠ ']' ∧ c ≠ '\x7d'

theorem Reads.skipSpace {depth : ℕ} (h : Reads depth v cs) (hw : ∀ c ∈ w, isSpace c)
    (rest : List Char) : skipSpace (w ++ (cs ++ rest)) = cs ++ rest := by
  obtain ⟨c, ds, rfl, hc, -⟩ := h.head
  exact skipSpace_append hw (by simpa using hc)

theorem partsFuel_cons (p : List Char) (ps : List (List Char)) :
    partsFuel (p :: ps) = 2 * p.length + 2 + partsFuel ps := by
  simp only [partsFuel, List.map_cons, List.sum_cons]
  ring

theorem readItems?_item {depth fuel : ℕ} (h : Reads depth v cs) (hfuel : 2 * cs.length ≤ fuel)
    (hr : Stops rest) (acc : List Datum) {r : List Char} :
    (skipSpace rest = ',' :: r → readItems? (fuel + 1) depth acc (cs ++ rest) =
      readItems? fuel depth (v :: acc) (skipSpace r)) ∧
    (skipSpace rest = ']' :: r →
      readItems? (fuel + 1) depth acc (cs ++ rest) = some (.list (v :: acc).reverse, r)) := by
  rw [readItems?, h.read fuel rest hfuel hr]
  constructor
  · intro hskip
    simp only [Option.bind_eq_bind, Option.bind_some, hskip]
  · intro hskip
    simp only [Option.bind_eq_bind, Option.bind_some, hskip]

theorem readItems?_tail (hw : ∀ c ∈ w, isSpace c) (hw' : ∀ c ∈ w', isSpace c) {depth fuel : ℕ}
    {z : Datum × List Char} {zs : List (Datum × List Char)}
    (hz : ∀ y ∈ z :: zs, Reads depth y.1 y.2) (hfuel : partsFuel ((z :: zs).map Prod.snd) ≤ fuel)
    (acc : List Datum) :
    readItems? fuel depth acc (z.2 ++ tail w w' (zs.map Prod.snd) ']' rest) =
      some (.list (acc.reverse ++ (z :: zs).map Prod.fst), rest) := by
  induction zs generalizing z fuel acc with
  | nil =>
    rw [List.map_cons, partsFuel_cons] at hfuel
    obtain ⟨fuel, rfl⟩ : ∃ f, fuel = f + 1 := ⟨fuel - 1, by omega⟩
    have hstops := stops_tail (w := w) hw' (show ']' ∈ Datum.structural by decide) [] rest
    rw [List.map_nil, (readItems?_item (hz z (by simp)) (by omega) hstops acc).2
      (skipSpace_tail_nil hw' rfl rest)]
    simp
  | cons y ys ih =>
    obtain ⟨hfirst, hrest⟩ := List.forall_mem_cons.1 hz
    rw [List.map_cons, partsFuel_cons] at hfuel
    obtain ⟨fuel, rfl⟩ : ∃ f, fuel = f + 1 := ⟨fuel - 1, by omega⟩
    have hstops := stops_tail (w := w) hw' (show ']' ∈ Datum.structural by decide)
      ((y :: ys).map Prod.snd) rest
    rw [(readItems?_item hfirst (by omega) hstops acc).1 (skipSpace_tail_cons ..),
      (hrest y (by simp)).skipSpace hw, ih hrest (by omega)]
    simp

theorem putField_append {fs : List (String × Datum)} {name : String} (h : name ∉ fs.map Prod.fst)
    (d : Datum) : putField fs name d = fs ++ [(name, d)] := by
  rw [putField, if_neg]
  simpa [List.any_eq_true] using h

theorem readFields?_field {depth fuel : ℕ} (h : Reads depth v cs) (hb : ∀ c ∈ b, isSpace c)
    (hfuel : 2 * cs.length ≤ fuel) (hr : Stops rest) (acc : List (String × Datum)) (name : String)
    {r : List Char} :
    (skipSpace rest = ',' :: r → readFields? (fuel + 1) depth acc (spacedField b name cs ++ rest) =
      readFields? fuel depth (putField acc name v) (skipSpace r)) ∧
    (skipSpace rest = '\x7d' :: r → readFields? (fuel + 1) depth acc (spacedField b name cs ++ rest) =
      some (.record (putField acc name v), r)) := by
  have htext : spacedField b name cs ++ rest =
      '"' :: (name.toList.flatMap escape ++ '"' :: ':' :: (b ++ (cs ++ rest))) := by
    simp [spacedField, toList_quote]
  have hcolon : skipSpace (':' :: (b ++ (cs ++ rest))) = ':' :: (b ++ (cs ++ rest)) :=
    skipSpace_append (w := []) (by simp) (by simp [isSpace])
  rw [htext, readFields?]
  simp only [readText?_quote, Option.bind_eq_bind, Option.bind_some, hcolon, h.skipSpace hb,
    h.read fuel rest hfuel hr]
  constructor
  · intro hskip
    simp only [hskip]
  · intro hskip
    simp only [hskip]

theorem readFields?_tail (hw : ∀ c ∈ w, isSpace c) (hw' : ∀ c ∈ w', isSpace c)
    (hb : ∀ c ∈ b, isSpace c) {depth fuel : ℕ} {z : String × Datum × List Char}
    {zs : List (String × Datum × List Char)} (hz : ∀ y ∈ z :: zs, Reads depth y.2.1 y.2.2)
    (hfuel : partsFuel ((z :: zs).map fun y => spacedField b y.1 y.2.2) ≤ fuel)
    (acc : List (String × Datum)) (hnames : (acc.map Prod.fst ++ (z :: zs).map Prod.fst).Nodup) :
    readFields? fuel depth acc (spacedField b z.1 z.2.2 ++
        tail w w' (zs.map fun y => spacedField b y.1 y.2.2) '\x7d' rest) =
      some (.record (acc ++ (z :: zs).map fun y => (y.1, y.2.1)), rest) := by
  have hlength (name : String) (cs : List Char) : cs.length ≤ (spacedField b name cs).length := by
    simp only [spacedField, List.length_append, List.length_cons]
    omega
  have hnew : z.1 ∉ acc.map Prod.fst := fun h =>
    (List.nodup_append.1 hnames).2.2 _ h _ (by simp) rfl
  induction zs generalizing z fuel acc with
  | nil =>
    have := hlength z.1 z.2.2
    rw [List.map_cons, partsFuel_cons] at hfuel
    obtain ⟨fuel, rfl⟩ : ∃ f, fuel = f + 1 := ⟨fuel - 1, by omega⟩
    have hstops := stops_tail (w := w) hw' (show '\x7d' ∈ Datum.structural by decide) [] rest
    rw [List.map_nil, (readFields?_field (hz z (by simp)) hb (by omega) hstops acc z.1).2
      (skipSpace_tail_nil hw' rfl rest), putField_append hnew]
    simp
  | cons y ys ih =>
    have := hlength z.1 z.2.2
    obtain ⟨hfirst, hrest⟩ := List.forall_mem_cons.1 hz
    rw [List.map_cons, partsFuel_cons] at hfuel
    obtain ⟨fuel, rfl⟩ : ∃ f, fuel = f + 1 := ⟨fuel - 1, by omega⟩
    have hstops := stops_tail (w := w) hw' (show '\x7d' ∈ Datum.structural by decide)
      ((y :: ys).map fun y => spacedField b y.1 y.2.2) rest
    have hskip (r : List Char) : skipSpace (w ++ (spacedField b y.1 y.2.2 ++ r)) =
        spacedField b y.1 y.2.2 ++ r :=
      skipSpace_append hw (by simp [spacedField, toList_quote, isSpace])
    have hnames' : ((acc ++ [(z.1, z.2.1)]).map Prod.fst ++ (y :: ys).map Prod.fst).Nodup := by
      simpa using hnames
    rw [(readFields?_field hfirst hb (by omega) hstops acc z.1).1 (skipSpace_tail_cons ..), hskip,
      putField_append hnew, ih hrest (by omega) _ hnames'
        fun h => (List.nodup_append.1 hnames').2.2 _ h _ (by simp) rfl]
    simp

theorem spread_append (w w' p : List Char) (ps : List (List Char)) (close : Char) (rest : List Char) :
    spread w w' (p :: ps) ++ [close] ++ rest = w ++ (p ++ tail w w' ps close rest) := by
  simp [spread, tail]

theorem readValue?_list (hw : ∀ c ∈ w, isSpace c) (hw' : ∀ c ∈ w', isSpace c) {depth fuel : ℕ}
    {zs : List (Datum × List Char)} (hz : ∀ z ∈ zs, Reads depth z.1 z.2)
    (hfuel : partsFuel (zs.map Prod.snd) ≤ fuel) :
    readValue? (fuel + 1) (depth + 1) ('[' :: (spread w w' (zs.map Prod.snd) ++ [']'] ++ rest)) =
      some (.list (zs.map Prod.fst), rest) := by
  cases zs with
  | nil => rfl
  | cons z zs =>
    obtain ⟨c, ds, hds, hc, hclose, -⟩ := (hz z (by simp)).head
    have htext := spread_append w w' z.2 (zs.map Prod.snd) ']' rest
    rw [List.map_cons, htext, readValue?, (hz z (by simp)).skipSpace hw]
    split
    · next hskip =>
      rw [hds, List.cons_append, List.cons.injEq] at hskip
      exact absurd hskip.1 hclose
    · rw [readItems?_tail hw hw' hz hfuel]
      simp

theorem readValue?_record (hw : ∀ c ∈ w, isSpace c) (hw' : ∀ c ∈ w', isSpace c)
    (hb : ∀ c ∈ b, isSpace c) {depth fuel : ℕ} {zs : List (String × Datum × List Char)}
    (hz : ∀ z ∈ zs, Reads depth z.2.1 z.2.2)
    (hfuel : partsFuel (zs.map fun z => spacedField b z.1 z.2.2) ≤ fuel)
    (hnames : (zs.map Prod.fst).Nodup) :
    readValue? (fuel + 1) (depth + 1)
        ('\x7b' :: (spread w w' (zs.map fun z => spacedField b z.1 z.2.2) ++ ['\x7d'] ++ rest)) =
      some (.record (zs.map fun z => (z.1, z.2.1)), rest) := by
  cases zs with
  | nil => rfl
  | cons z zs =>
    have htext := spread_append w w' (spacedField b z.1 z.2.2)
      (zs.map fun z => spacedField b z.1 z.2.2) '\x7d' rest
    have hskip (r : List Char) : skipSpace (w ++ (spacedField b z.1 z.2.2 ++ r)) =
        spacedField b z.1 z.2.2 ++ r :=
      skipSpace_append hw (by simp [spacedField, toList_quote, isSpace])
    rw [List.map_cons, htext, readValue?, hskip]
    split
    · next hskip =>
      rw [spacedField, toList_quote, List.cons_append, List.cons_append, List.cons.injEq] at hskip
      exact absurd hskip.1 (by decide)
    · rw [readFields?_tail hw hw' hb hz hfuel [] (by simpa using hnames)]
      simp

/-- What is spelled is read as the value. -/
theorem Spelled.reads (h : Spelled k v cs) {depth : ℕ} (hd : k ≤ depth) :
    Reads depth v.canonical cs := by
  induction h generalizing depth with
  | @atom k v x ha henc =>
    refine ⟨fun fuel rest hfuel hr => ?_, (Spelled.atom (k := k) ha henc).head⟩
    obtain ⟨fuel, rfl⟩ : ∃ f, fuel = f + 1 := by
      have := List.length_pos_iff.2 (Datum.atom_ne_nil ha)
      exact ⟨fuel - 1, by omega⟩
    exact readValue?_atom ha henc hr
  | @text k s =>
    refine ⟨fun fuel rest hfuel _ => ?_, (Spelled.text (k := k) s).head⟩
    obtain ⟨fuel, rfl⟩ : ∃ f, fuel = f + 1 := by
      rw [toList_quote, List.length_cons] at hfuel
      exact ⟨fuel - 1, by omega⟩
    exact readValue?_quote s
  | list w w' hw hw' zs hzs ih =>
    refine ⟨fun fuel rest hfuel _ => ?_, (Spelled.list w w' hw hw' zs hzs).head⟩
    obtain ⟨depth, rfl⟩ : ∃ k, depth = k + 1 := ⟨depth - 1, by omega⟩
    have hparts := partsFuel_le w w' (zs.map Prod.snd)
    rw [List.length_cons, List.length_append, List.length_singleton] at hfuel
    obtain ⟨fuel, rfl⟩ : ∃ f, fuel = f + 1 := ⟨fuel - 1, by omega⟩
    have hsnd : (zs.map fun z => (z.1.canonical, z.2)).map Prod.snd = zs.map Prod.snd := by
      rw [List.map_map]
      rfl
    have hzs' : ∀ z ∈ zs.map fun z => (z.1.canonical, z.2), Reads depth z.1 z.2 := by
      intro z hz
      obtain ⟨y, hy, rfl⟩ := List.mem_map.1 hz
      exact ih y hy (by omega)
    rw [List.cons_append, ← hsnd, readValue?_list hw hw' hzs' (by rw [hsnd]; omega), List.map_map,
      Datum.canonical, Datum.canonicalList_eq_map, List.map_map]
    rfl
  | record w w' b hw hw' hb fs zs hzs hs hnames ih =>
    refine ⟨fun fuel rest hfuel _ => ?_, (Spelled.record w w' b hw hw' hb fs zs hzs hs hnames).head⟩
    obtain ⟨depth, rfl⟩ : ∃ k, depth = k + 1 := ⟨depth - 1, by omega⟩
    have hparts := partsFuel_le w w' (zs.map fun z => spacedField b z.1 z.2.2)
    rw [List.length_cons, List.length_append, List.length_singleton] at hfuel
    obtain ⟨fuel, rfl⟩ : ∃ f, fuel = f + 1 := ⟨fuel - 1, by omega⟩
    have htexts : (zs.map fun z => (z.1, z.2.1.canonical, z.2.2)).map
        (fun z => spacedField b z.1 z.2.2) = zs.map fun z => spacedField b z.1 z.2.2 := by
      rw [List.map_map]
      rfl
    have hfst : (zs.map fun z => (z.1, z.2.1.canonical, z.2.2)).map Prod.fst = zs.map Prod.fst := by
      rw [List.map_map]
      rfl
    have hzs' : ∀ z ∈ zs.map fun z => (z.1, z.2.1.canonical, z.2.2), Reads depth z.2.1 z.2.2 := by
      intro z hz
      obtain ⟨y, hy, rfl⟩ := List.mem_map.1 hz
      exact ih y hy (by omega)
    rw [List.cons_append, ← htexts,
      readValue?_record hw hw' hb hzs' (by rw [htexts]; omega) (hfst ▸ hnames), List.map_map,
      Datum.canonical, Datum.canonicalFields_eq_map, sortFields_map Datum.canonical, hs, List.map_map]
    rfl

/-- A document that was written is read back. -/
theorem parse?_write (h : write style 0 v = .ok x) (hv : v.Distinct) : parse? x = some v.canonical := by
  have hs := spelled_of_write (Nat.zero_le _) h hv
  have hread := hs.reads (show maxDepth + 1 - 0 ≤ maxReadDepth by decide)
  obtain ⟨c, ds, hds, hc, -⟩ := hread.head
  have hskip : skipSpace x.toList = x.toList := by
    rw [hds]
    exact skipSpace_append (w := []) (by simp) (by simpa using hc)
  have hvalue := hread.read (2 * x.toList.length + 2) [] (by omega) (by simp [Stops])
  rw [List.append_nil] at hvalue
  simp only [parse?, hskip, hvalue, Option.bind_eq_bind, Option.bind_some]
  rfl

theorem parseBytes?_write (h : write style 0 v = .ok x) (hv : v.Distinct) :
    parseBytes? x.toUTF8 = some v.canonical := by
  have hbytes : String.fromUTF8? x.toUTF8 = some x := dif_pos x.isValidUTF8
  rw [parseBytes?, hbytes]
  exact parse?_write h hv

end Json

end TypeAtlas
