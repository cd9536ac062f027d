import Mathlib.Data.Prod.Lex
import Mathlib.Data.String.Basic
import TypeAtlas.Diagnostic.Report
import TypeAtlas.Proofs.Cache.Entry
import TypeAtlas.Proofs.Graph.Sorted
import TypeAtlas.Proofs.Json.Nesting

/-! # Reports of diagnostics

A report does not depend on the order in which the diagnostics arose: they are sorted by a key that
tells any two of them apart. A report in JSON lists exactly the records of the diagnostics. There is a
report, in both modes, unless the line or the column of a diagnostic is too large for the records.
-/

namespace TypeAtlas

/-! ## Records -/

attribute [ext] Place Context Diagnostic

/-- Line and column fit 64 bits, where they are known. -/
structure Place.Encodable (p : Place) : Prop where
  line : ∀ n ∈ p.line, (Number.int n).Encodable
  column : ∀ n ∈ p.column, (Number.int n).Encodable

/-- The record of a diagnostic can be written. -/
def Diagnostic.Encodable (d : Diagnostic) : Prop := ∀ p ∈ d.location, p.Encodable

namespace Datum

variable {α : Type} {f : α → Datum} {x y : Option α} {k : ℕ} {fs gs : List (String × Datum)}

theorem writes_fieldIf {name : String} (h : ∀ a ∈ x, (f a).Writes k) :
    ∀ g ∈ fieldIf name f x, g.2.Writes k := by
  cases x with
  | none => simp [fieldIf]
  | some a => simpa [fieldIf] using h a rfl

theorem mem_fieldIf {name : String} {a : α} (h : a ∈ x) : (name, f a) ∈ fieldIf name f x := by
  obtain rfl := h
  exact List.mem_singleton_self _

theorem eq_of_field? (hf : (record fs).Distinct) (hg : (record gs).Distinct)
    (h : (record fs).canonical = (record gs).canonical)
    (hinj : ∀ a b, (f a).canonical = (f b).canonical → a = b) {n : String}
    (hx : field? fs n = x.map f) (hy : field? gs n = y.map f) : x = y := by
  have hfield : (field? fs n).map canonical = (field? gs n).map canonical := by
    cases hf with
    | record hfs =>
      cases hg with
      | record hgs =>
        rw [canonical, canonical, record.injEq] at h
        rw [← field?_sortFields_canonicalFields hfs, h, field?_sortFields_canonicalFields hgs]
  rw [hx, hy, Option.map_map, Option.map_map] at hfield
  exact Option.map_injective hinj hfield

theorem text_canonical_inj (s t : String) (h : (text s).canonical = (text t).canonical) : s = t :=
  text.inj h

theorem int_canonical_inj (m n : ℤ) (h : (int m).canonical = (int n).canonical) : m = n :=
  Number.int.inj (number.inj h)

end Datum

namespace Place

variable {p q : Place} {k : ℕ}

theorem Encodable.writes (h : p.Encodable) : (Datum.record p.toFields).Writes (k + 1) := by
  apply Datum.writes_record
  intro f hf
  simp only [toFields, List.mem_append] at hf
  rcases hf with ((hf | hf) | hf) | hf
  · exact Datum.writes_fieldIf (fun s _ => Datum.writes_text s) f hf
  · exact Datum.writes_fieldIf (fun n hn => Datum.writes_number (h.line n hn)) f hf
  · exact Datum.writes_fieldIf (fun n hn => Datum.writes_number (h.column n hn)) f hf
  · exact Datum.writes_fieldIf (fun s _ => Datum.writes_text s) f hf

theorem encodable_of_write {style : Json.Style} {level : ℕ}
    (h : ∃ x, Json.write style level (.record p.toFields) = .ok x) : p.Encodable := by
  obtain ⟨x, hx⟩ := h
  have hfields := Json.write_record_eq_ok hx
  have hint {name : String} {n : ℤ} (hmem : (name, Datum.int n) ∈ p.toFields) :
      (Number.int n).Encodable := by
    obtain ⟨y, hy⟩ := hfields _ hmem
    rw [Json.write] at hy
    split at hy
    · next hn => exact hn
    · cases hy
  constructor
  · intro n hn
    apply hint
    simp only [toFields, List.mem_append]
    exact .inl (.inl (.inr (Datum.mem_fieldIf hn)))
  · intro n hn
    apply hint
    simp only [toFields, List.mem_append]
    exact .inl (.inr (Datum.mem_fieldIf hn))

theorem field?_toFields (p : Place) :
    Datum.field? p.toFields "filePath" = p.filePath.map .text ∧
      Datum.field? p.toFields "line" = p.line.map .int ∧
      Datum.field? p.toFields "column" = p.column.map .int ∧
      Datum.field? p.toFields "symbol" = p.symbol.map .text := by
  obtain ⟨_ | _, _ | _, _ | _, _ | _⟩ := p <;> exact ⟨rfl, rfl, rfl, rfl⟩

theorem eq_of_canonical_eq (p q : Place)
    (h : (Datum.record p.toFields).canonical = (Datum.record q.toFields).canonical) : p = q := by
  have hfield {α : Type} {f : α → Datum} {x y : Option α} {n : String} :=
    Datum.eq_of_field? (f := f) (x := x) (y := y) (n := n) p.distinct_toFields q.distinct_toFields h
  obtain ⟨hfile, hline, hcolumn, hsymbol⟩ := p.field?_toFields
  obtain ⟨hfile', hline', hcolumn', hsymbol'⟩ := q.field?_toFields
  ext1
  · exact hfield Datum.text_canonical_inj hfile hfile'
  · exact hfield Datum.int_canonical_inj hline hline'
  · exact hfield Datum.int_canonical_inj hcolumn hcolumn'
  · exact hfield Datum.text_canonical_inj hsymbol hsymbol'

end Place

namespace Context

variable {c e : Context} {k : ℕ}

theorem writes (c : Context) : (Datum.record c.toFields).Writes (k + 1) := by
  apply Datum.writes_record
  intro f hf
  simp only [toFields, List.mem_append] at hf
  rcases hf with (hf | hf) | hf <;> exact Datum.writes_fieldIf (fun s _ => Datum.writes_text s) f hf

theorem field?_toFields (c : Context) :
    Datum.field? c.toFields "entity" = c.entity.map .text ∧
      Datum.field? c.toFields "field" = c.field.map .text ∧
      Datum.field? c.toFields "hint" = c.hint.map .text := by
  obtain ⟨_ | _, _ | _, _ | _⟩ := c <;> exact ⟨rfl, rfl, rfl⟩

theorem eq_of_canonical_eq (c e : Context)
    (h : (Datum.record c.toFields).canonical = (Datum.record e.toFields).canonical) : c = e := by
  have hfield {x y : Option String} {n : String} := Datum.eq_of_field? (x := x) (y := y) (n := n)
    c.distinct_toFields e.distinct_toFields h Datum.text_canonical_inj
  obtain ⟨hentity, hname, hhint⟩ := c.field?_toFields
  obtain ⟨hentity', hname', hhint'⟩ := e.field?_toFields
  ext1
  · exact hfield hentity hentity'
  · exact hfield hname hname'
  · exact hfield hhint hhint'

end Context

theorem Category.eq_of_name_eq {c e : Category} (hrank : c.rank = e.rank) (hname : c.name = e.name) :
    c = e := by
  cases c <;> cases e <;> simp_all [rank, name]

namespace Diagnostic

variable {d e : Diagnostic} {k : ℕ}

theorem Encodable.writes (h : d.Encodable) : d.toDatum.Writes (k + 2) := by
  apply Datum.writes_record
  intro f hf
  simp only [toFields, List.mem_append, List.mem_cons, List.not_mem_nil, or_false] at hf
  rcases hf with (((rfl | rfl | rfl) | hf) | hf) | hf
  · exact Datum.writes_text _
  · exact Datum.writes_text _
  · exact Datum.writes_text _
  · exact Datum.writes_fieldIf (fun s _ => Datum.writes_text s) f hf
  · exact Datum.writes_fieldIf (fun p hp => (h p hp).writes) f hf
  · exact Datum.writes_fieldIf (fun c _ => c.writes) f hf

/-- A diagnostic has a record exactly if its line and column fit. -/
theorem exists_compact_iff : (∃ x, Json.compact d.toDatum = .ok x) ↔ d.Encodable := by
  constructor
  · rintro ⟨x, hx⟩ p hp
    have hmem : ("location", Datum.record p.toFields) ∈ d.toFields := by
      simp only [toFields, List.mem_append]
      exact .inl (.inr (Datum.mem_fieldIf hp))
    exact Place.encodable_of_write (Json.write_record_eq_ok hx _ hmem)
  · intro h
    exact h.writes (k := 0) .compact 0 (by decide)

theorem field?_toFields (d : Diagnostic) :
    Datum.field? d.toFields "code" = some (.text d.code) ∧
      Datum.field? d.toFields "category" = some (.text d.category.name) ∧
      Datum.field? d.toFields "message" = some (.text d.message) ∧
      Datum.field? d.toFields "helpUrl" = d.helpUrl.map .text ∧
      Datum.field? d.toFields "location" = d.location.map (fun p => .record p.toFields) ∧
      Datum.field? d.toFields "context" = d.context.map (fun c => .record c.toFields) := by
  obtain ⟨code, category, message, _ | _, _ | _, _ | _⟩ := d <;>
    exact ⟨rfl, rfl, rfl, rfl, rfl, rfl⟩

theorem eq_of_canonical_eq (hrank : d.category.rank = e.category.rank)
    (h : d.toDatum.canonical = e.toDatum.canonical) : d = e := by
  have hfield {α : Type} {f : α → Datum} {x y : Option α} {n : String} :=
    Datum.eq_of_field? (f := f) (x := x) (y := y) (n := n) d.distinct_toFields e.distinct_toFields h
  obtain ⟨hcode, hcategory, hmessage, hurl, hplace, hcontext⟩ := d.field?_toFields
  obtain ⟨hcode', hcategory', hmessage', hurl', hplace', hcontext'⟩ := e.field?_toFields
  ext1
  · exact Option.some.inj (hfield Datum.text_canonical_inj hcode hcode')
  · exact Category.eq_of_name_eq hrank
      (Option.some.inj (hfield Datum.text_canonical_inj hcategory hcategory'))
  · exact Option.some.inj (hfield Datum.text_canonical_inj hmessage hmessage')
  · exact hfield Datum.text_canonical_inj hurl hurl'
  · exact hfield Place.eq_of_canonical_eq hplace hplace'
  · exact hfield Context.eq_of_canonical_eq hcontext hcontext'

end Diagnostic

/-! ## Keys -/

namespace Report

variable {a b : Key} {d e : Diagnostic} {ds ds' : List Diagnostic}

def severity (d : Diagnostic) : ℕ ×ₗ String ×ₗ String :=
  toLex (d.category.rank, toLex (d.code, d.message))

def Key.standing (a : Key) : (ℕ ×ₗ String ×ₗ String) ×ₗ String :=
  toLex (toLex (a.rank, toLex (a.code, a.message)), a.record)

theorem Key.isLE_compare : (a.compare b).isLE ↔ a.standing ≤ b.standing := by
  simp only [compare, standing, Prod.Lex.toLex_le_toLex, Prod.Lex.toLex_lt_toLex,
    Ordering.isLE_then_iff_or, compare_lt_iff_lt, compare_eq_iff_eq, Std.LawfulBCmp.isLE_iff_le,
    EmbeddingLike.apply_eq_iff_eq, Prod.mk.injEq]
  tauto

/-- The key of a diagnostic that has a record. -/
def keyOf (d : Diagnostic) : Key :=
  ⟨d.category.rank, d.code, d.message, (Json.compact d.toDatum).toOption.getD ""⟩

theorem key_of_encodable (h : d.Encodable) : key d = .ok (keyOf d) := by
  obtain ⟨x, hx⟩ := Diagnostic.exists_compact_iff.2 h
  rw [key, keyOf, hx]
  rfl

theorem encodable_of_key {k : Key} (h : key d = .ok k) : d.Encodable := by
  obtain ⟨x, hx, -⟩ := bind_eq_ok.1 h
  exact Diagnostic.exists_compact_iff.1 ⟨x, hx⟩

/-- Keys tell diagnostics apart. -/
theorem eq_of_standing_eq (hd : d.Encodable) (he : e.Encodable)
    (h : (keyOf d).standing = (keyOf e).standing) : d = e := by
  obtain ⟨x, hx⟩ := Diagnostic.exists_compact_iff.2 hd
  obtain ⟨y, hy⟩ := Diagnostic.exists_compact_iff.2 he
  simp only [Key.standing, keyOf, hx, hy, EmbeddingLike.apply_eq_iff_eq, Prod.mk.injEq] at h
  obtain ⟨⟨hrank, -, -⟩, hrecord⟩ := h
  obtain rfl : x = y := hrecord
  exact Diagnostic.eq_of_canonical_eq hrank (Json.canonical_eq_of_compact_eq hx hy)

/-! ## Sorting -/

/-- The diagnostics in the order of a report. -/
def ordered (ds : List Diagnostic) : List Diagnostic :=
  ds.mergeSort fun d e => decide ((keyOf d).standing ≤ (keyOf e).standing)

theorem perm_ordered (ds : List Diagnostic) : (ordered ds).Perm ds := List.mergeSort_perm _ _

theorem ordered_eq_of_perm (hds : ∀ d ∈ ds, d.Encodable) (h : ds'.Perm ds) :
    ordered ds' = ordered ds := by
  apply mergeSort_eq_of_perm (fun d => (keyOf d).standing) h
  intro d hd e he
  exact eq_of_standing_eq (hds d (h.mem_iff.1 hd)) (hds e (h.mem_iff.1 he))

theorem pairwise_ordered (ds : List Diagnostic) :
    (ordered ds).Pairwise fun d e => severity d ≤ severity e := by
  have hle := @List.pairwise_mergeSort _ (fun d e => decide ((keyOf d).standing ≤ (keyOf e).standing))
    (fun _ _ _ => by simpa using le_trans) (fun _ _ => by simpa using le_total _ _) ds
  refine List.Pairwise.imp ?_ hle
  intro d e h
  exact Prod.Lex.monotone_fst _ _ (decide_eq_true_iff.1 h)

theorem sort_eq_ok (h : ∀ d ∈ ds, d.Encodable) : sort ds = .ok (ordered ds) := by
  have hkeyed : (ds.mapM fun d => do return (← key d, d)) =
      Except.ok (ds.map fun d => (keyOf d, d)) := by
    apply mapM_eq_ok_map
    intro d hd
    rw [key_of_encodable (h d hd)]
    rfl
  have hsorted : ((ds.map fun d => (keyOf d, d)).mergeSort fun a b => (a.1.compare b.1).isLE).map
      Prod.snd = ordered ds := by
    have hmap : (ds.map fun d => (keyOf d, d)).map Prod.snd = ds := by
      rw [List.map_map]
      exact List.map_id ds
    rw [List.map_mergeSort (s := fun d e => decide ((keyOf d).standing ≤ (keyOf e).standing)), hmap,
      ordered]
    intro a ha b hb
    obtain ⟨d, -, rfl⟩ := List.mem_map.1 ha
    obtain ⟨e, -, rfl⟩ := List.mem_map.1 hb
    rw [Bool.eq_iff_iff, Key.isLE_compare, decide_eq_true_iff]
  rw [sort, hkeyed, ← hsorted]
  rfl

theorem encodable_of_sort {sorted : List Diagnostic} (h : sort ds = .ok sorted) :
    ∀ d ∈ ds, d.Encodable := by
  obtain ⟨keyed, hkeyed, -⟩ := bind_eq_ok.1 h
  intro d hd
  obtain ⟨p, hp⟩ := exists_of_mapM_eq_ok hkeyed d hd
  obtain ⟨k, hk, -⟩ := bind_eq_ok.1 hp
  exact encodable_of_key hk

/-! ## Reports -/

theorem exists_indented (h : ∀ d ∈ ds, d.Encodable) :
    ∃ text, Json.indented (.list (ds.map Diagnostic.toDatum)) = .ok text := by
  have hwrites : (Datum.list (ds.map Diagnostic.toDatum)).Writes 3 := by
    apply Datum.writes_list
    intro v hv
    obtain ⟨d, hd, rfl⟩ := List.mem_map.1 hv
    exact (h d hd).writes
  exact hwrites .indented 0 (by decide)

theorem exists_format_iff {mode : ReportMode} :
    (∃ text, format mode ds = .ok text) ↔ ∀ d ∈ ds, d.Encodable := by
  constructor
  · rintro ⟨text, h⟩
    obtain ⟨sorted, hsort, -⟩ := bind_eq_ok.1 h
    exact encodable_of_sort hsort
  · intro h
    rw [format, sort_eq_ok h]
    cases mode with
    | pretty => exact ⟨_, rfl⟩
    | json => exact exists_indented fun d hd => h d ((perm_ordered ds).mem_iff.1 hd)

theorem distinct_records (ds : List Diagnostic) :
    (Datum.list (ds.map Diagnostic.toDatum)).Distinct := by
  constructor
  intro v hv
  obtain ⟨d, -, rfl⟩ := List.mem_map.1 hv
  exact d.distinct_toFields

/-- Diagnostics are reported alike in every order. There is a report, in either mode, unless the line
or the column of one of them is too large for its record. It goes through the diagnostics by severity, code
and message: in JSON it lists their records, and else their texts, with an empty line between two. -/
theorem format_of_perm (h : ds'.Perm ds) :
    (∀ mode, (format mode ds').toOption = (format mode ds).toOption) ∧
      (∀ mode, (∃ text, format mode ds = .ok text) ↔ ∀ d ∈ ds, d.Encodable) ∧
      ∃ listed : List Diagnostic, listed.Perm ds ∧
        listed.Pairwise (fun d e => severity d ≤ severity e) ∧
        (∀ text, format .json ds = .ok text →
          Json.parse? text = some (.list (listed.map fun d => d.toDatum.canonical))) ∧
        ∀ text, format .pretty ds = .ok text → text = Text.join "\n\n" (listed.map block) := by
  refine ⟨?_, fun mode => exists_format_iff, ordered ds, perm_ordered ds, pairwise_ordered ds, ?_, ?_⟩
  · intro mode
    by_cases hds : ∀ d ∈ ds, d.Encodable
    · have hds' : ∀ d ∈ ds', d.Encodable := fun d hd => hds d (h.mem_iff.1 hd)
      rw [format, format, sort_eq_ok hds, sort_eq_ok hds', ordered_eq_of_perm hds h]
    · have hnone {es : List Diagnostic} (hes : ¬ ∀ d ∈ es, d.Encodable) :
          (format mode es).toOption = none := by
        cases hformat : format mode es with
        | error e => rfl
        | ok text => exact absurd (exists_format_iff.1 ⟨text, hformat⟩) hes
      rw [hnone hds, hnone fun hds' => hds fun d hd => hds' d (h.mem_iff.2 hd)]
  · intro text htext
    have hsort := sort_eq_ok (exists_format_iff.1 ⟨text, htext⟩)
    rw [format, hsort] at htext
    rw [Json.parse?_write htext (distinct_records _), Datum.canonical, Datum.canonicalList_eq_map,
      List.map_map]
    rfl
  · intro text htext
    have hsort := sort_eq_ok (exists_format_iff.1 ⟨text, htext⟩)
    rw [format, hsort] at htext
    exact (Except.ok.inj htext).symm

/-- Two diagnostics of which one has no location and the other one of which nothing is known. -/
theorem format_of_perm_placeless :
    ∃ d e : Diagnostic, d.location = none ∧ e = { d with location := some {} } ∧ [e, d].Perm [d, e] ∧
      (∀ mode, (format mode [e, d]).toOption = (format mode [d, e]).toOption) ∧
      ∀ mode, ∃ text, format mode [d, e] = .ok text := by
  let d : Diagnostic := { code := "ADTK-IR-1003", category := .error, message := "I/O failure" }
  have h : [{ d with location := some {} }, d].Perm [d, { d with location := some {} }] := .swap _ _ _
  have hd : d.Encodable := by
    rintro p ⟨⟩
  have he : Diagnostic.Encodable { d with location := some {} } := by
    rintro p ⟨⟩
    constructor <;> rintro n ⟨⟩
  obtain ⟨hsame, htext, -⟩ := format_of_perm h
  exact ⟨d, _, rfl, rfl, h, hsame, fun mode => (htext mode).2 (by simp [hd, he])⟩

end Report

end TypeAtlas
