import TypeAtlas.Proofs.Declaration.Consulted
import TypeAtlas.Proofs.Description.Referring

/-! # Imported names

A description refers to what its syntax names, under the name that the imports of the file give it. So
where imports keep the names, and no declaration of the file hides one, a name that is mentioned stands for
the same in the file itself as in the file that it is imported from.
-/

namespace TypeAtlas

/-! ## Syntax -/

namespace TypeScript

/-- The name and the file that a name in the syntax of a file is described by. -/
def Imported.Describes (imported : Imported) (name : String) (file : Option String) : Prop :=
  ∃ written, (imported written = none ∧ name = written ∧ file = none) ∨
    ∃ target, imported written = some (target, name) ∧ file = some target

variable {imported : Imported}

abbrev Refers (imported : Imported) (d : Datum) : Prop := d.Referring imported.Describes

theorem refers_text (s : String) : Refers imported (.text s) := .scalar (by simp) (by simp)

theorem refers_bool (b : Bool) : Refers imported (.bool b) := .scalar (by simp) (by simp)

theorem refers_record {fs : List (String × Datum)} (hlabel : ∀ f ∈ fs, f.1 ≠ "$def")
    (hkind : Datum.field? fs "kind" ≠ some (.text "ref")) (h : ∀ f ∈ fs, Refers imported f.2) :
    Refers imported (.record fs) :=
  .record hlabel (fun href => absurd href hkind) h

theorem refers_optional_text (s : Option String) : Refers imported (Datum.optional .text s) := by
  cases s <;> exact .scalar (by simp [Datum.optional]) (by simp [Datum.optional])

theorem refers_optional_number (n : Option Number) : Refers imported (Datum.optional .number n) := by
  cases n <;> exact .scalar (by simp [Datum.optional]) (by simp [Datum.optional])

theorem refers_location (p : Piece) : Refers imported p.location := by
  refine refers_record (by simp) (by simp [Datum.field?]) ?_
  rintro f hf
  simp only [List.mem_cons, List.not_mem_nil, or_false] at hf
  rcases hf with rfl | rfl <;> exact .scalar (by simp [Datum.int]) (by simp [Datum.int])

theorem refers_piece {p : Piece} {kind : String} {fs : List (String × Datum)} (hkind : kind ≠ "ref")
    (hnames : ∀ f ∈ fs, f.1 ≠ "$def" ∧ f.1 ≠ "kind") (h : ∀ f ∈ fs, Refers imported f.2) :
    Refers imported (p.describe kind fs) := by
  refine refers_record ?_ ?_ ?_
  · intro f hf
    simp only [List.mem_append, List.mem_singleton] at hf
    rcases hf with (rfl | hf) | rfl
    · simp
    · exact (hnames f hf).1
    · simp
  · have hnone : fs.reverse.find? (fun f => f.1 == "kind") = none := by
      simpa using fun a b hf => (hnames (a, b) hf).2
    simp [Datum.field?, hnone, hkind]
  · intro f hf
    simp only [List.mem_append, List.mem_singleton] at hf
    rcases hf with (rfl | hf) | rfl
    · exact refers_text kind
    · exact h f hf
    · exact refers_location p

theorem refers_unsupported (p : Piece) (construct : String) : Refers imported (p.unsupported construct) := by
  refine refers_piece (by decide) (by simp) ?_
  simp [refers_text]

theorem refers_numeric (p : Piece) : Refers imported (describeNumeric p) := by
  unfold describeNumeric
  split
  · refine refers_piece (by decide) (by simp) ?_
    simp [refers_text]
  · split
    · refine refers_piece (by decide) (by simp) ?_
      simpa using .scalar (by simp) (by simp)
    · exact refers_unsupported p _

theorem refers_builtIn (p : Piece) : Refers imported (describeBuiltIn p) := by
  unfold describeBuiltIn
  split
  · refine refers_piece (by decide) (by simp) ?_
    simp [refers_text]
  · split
    · next hkind =>
      refine refers_piece ?_ (by simp) (by simp [refers_text])
      rintro href
      rw [href] at hkind
      exact absurd hkind (by decide)
    · exact refers_unsupported p _

theorem refers_reference (p : Piece) (name : String) (arguments : Option (List String)) :
    Refers imported (describeReference imported p name arguments) := by
  have htexts (ss : List String) : Refers imported (.texts ss) := by
    refine .list fun d hd => ?_
    obtain ⟨s, -, rfl⟩ := List.mem_map.1 hd
    exact refers_text s
  have hlocation : Refers imported p.location := refers_location p
  unfold describeReference
  cases himported : imported name with
  | none =>
    refine .record (by cases arguments <;> simp) (fun _ => ⟨name, none, ⟨name, .inl ⟨himported, rfl, rfl⟩⟩, ?_⟩) ?_
    · cases arguments <;> simp [Datum.field?]
    · cases arguments <;> simp [refers_text, htexts, hlocation]
  | some found =>
    obtain ⟨target, exported⟩ := found
    refine .record (by cases arguments <;> simp)
      (fun _ => ⟨exported, some target, ⟨name, .inr ⟨target, himported, rfl⟩⟩, ?_⟩) ?_
    · cases arguments <;> simp [Datum.field?]
    · cases arguments <;> simp [refers_text, htexts, hlocation]

theorem refers_list_piece {p : Piece} {kind name : String} {ds : List Datum} (hkind : kind ≠ "ref")
    (hname : name ≠ "$def" ∧ name ≠ "kind") (h : ∀ d ∈ ds, Refers imported d) :
    Refers imported (p.describe kind [(name, .list ds)]) := by
  refine refers_piece hkind (by simpa using hname) ?_
  simpa using Datum.Referring.list h

mutual

theorem TypeSyntax.refers_describe : ∀ t : TypeSyntax, Refers imported (t.describe imported)
  | .builtIn p => by
    rw [TypeSyntax.describe]
    exact refers_builtIn p
  | .literal p kind => by
    cases kind with
    | numeric =>
      rw [TypeSyntax.describe]
      exact refers_numeric p
    | truth b =>
      rw [TypeSyntax.describe]
      exact refers_piece (by decide) (by simp) (by simp [refers_bool])
    | _ =>
      rw [TypeSyntax.describe]
      exact refers_piece (by decide) (by simp) (by simp [refers_text])
  | .reference p => by
    rw [TypeSyntax.describe]
    exact refers_reference p _ _
  | .generic p name [element] => by
    have helement : Refers imported (p.describe "array" [("element", element.describe imported)]) :=
      refers_piece (by decide) (by simp) (by simpa using element.refers_describe)
    unfold TypeSyntax.describe
    split
    · next heq =>
      obtain rfl := List.singleton_inj.1 heq
      exact helement
    · next heq =>
      obtain rfl := List.singleton_inj.1 heq
      exact helement
    · exact refers_reference p _ _
  | .generic p name [] => by
    rw [TypeSyntax.describe]
    · exact refers_reference p _ _
    all_goals simp
  | .generic p name (_ :: _ :: _) => by
    rw [TypeSyntax.describe]
    · exact refers_reference p _ _
    all_goals simp
  | .array p element => by
    rw [TypeSyntax.describe]
    exact refers_piece (by decide) (by simp) (by simpa using element.refers_describe)
  | .tuple p elements => by
    rw [TypeSyntax.describe]
    exact refers_list_piece (by decide) (by decide) (refers_describeAll elements)
  | .wrapped _ inner => by
    rw [TypeSyntax.describe]
    exact inner.refers_describe
  | .union p members => by
    rw [TypeSyntax.describe]
    exact refers_list_piece (by decide) (by decide) (refers_describeAll members)
  | .intersection p members => by
    rw [TypeSyntax.describe]
    exact refers_list_piece (by decide) (by decide) (refers_describeAll members)
  | .object p members => by
    rw [TypeSyntax.describe]
    split
    · next fields hfields =>
      exact refers_list_piece (by decide) (by decide) (refers_describeMembers members fields hfields)
    · exact refers_unsupported p _
  | .template p => by
    rw [TypeSyntax.describe]
    exact refers_piece (by decide) (by simp) (by simp)
  | .other p construct => by
    rw [TypeSyntax.describe]
    exact refers_unsupported p construct

theorem refers_describeAll : ∀ ts : List TypeSyntax, ∀ d ∈ describeAll imported ts, Refers imported d
  | [] => by
    rw [describeAll]
    simp
  | t :: ts => by
    rw [describeAll]
    exact List.forall_mem_cons.2 ⟨t.refers_describe, refers_describeAll ts⟩

theorem refers_describeMembers : ∀ (ms : List MemberSyntax) (fields : List Datum),
    describeMembers imported ms = some fields → ∀ d ∈ fields, Refers imported d
  | [], fields, h => by
    rw [describeMembers] at h
    obtain rfl := Option.some.inj h
    simp
  | m :: ms, fields, h => by
    rw [describeMembers] at h
    split at h
    · next field rest hfield hrest =>
      obtain rfl := Option.some.inj h
      exact List.forall_mem_cons.2 ⟨m.refers_describe field hfield, refers_describeMembers ms rest hrest⟩
    · cases h

theorem MemberSyntax.refers_describe : ∀ (m : MemberSyntax) (d : Datum),
    m.describe imported = some d → Refers imported d
  | .property p comment name none optional readonly, d, h => by
    rw [MemberSyntax.describe] at h
    obtain rfl := Option.some.inj h
    have htype : Refers imported (.record [("kind", .text "unsupported"), ("construct", .text "implicit any"),
        ("text", .text name)]) :=
      refers_record (by simp) (by simp [Datum.field?]) (by simp [refers_text])
    refine refers_record (by simp) (by simp [Datum.field?]) ?_
    simp [refers_text, refers_bool, refers_optional_text, refers_location, htype]
  | .property p comment name (some t) optional readonly, d, h => by
    rw [MemberSyntax.describe] at h
    obtain rfl := Option.some.inj h
    have htype := t.refers_describe
    refine refers_record (by simp) (by simp [Datum.field?]) ?_
    simp [refers_text, refers_bool, refers_optional_text, refers_location, htype]
  | .method p comment name optional readonly, d, h => by
    rw [MemberSyntax.describe] at h
    obtain rfl := Option.some.inj h
    refine refers_record (by simp) (by simp [Datum.field?]) ?_
    simp [refers_text, refers_bool, refers_optional_text, refers_location, refers_unsupported]
  | .signature p comment construct name, d, h => by
    rw [MemberSyntax.describe] at h
    obtain rfl := Option.some.inj h
    refine refers_record (by simp) (by simp [Datum.field?]) ?_
    simp [refers_text, refers_optional_text, refers_location, refers_unsupported]
  | .mapped p, d, h => by
    rw [MemberSyntax.describe] at h
    cases h

end

theorem refers_enumMembers (next : Option Number) (ms : List EnumMemberSyntax) :
    ∀ d ∈ describeEnumMembers next ms, Refers imported d := by
  induction ms generalizing next with
  | nil => exact fun d hd => absurd hd List.not_mem_nil
  | cons m ms ih =>
    have hvalue : Refers imported (m.initial.value next) := by
      unfold InitialSyntax.value
      split
      · exact refers_optional_number next
      · exact refers_text _
      · exact refers_optional_number _
      · exact .scalar (by simp) (by simp)
    rw [describeEnumMembers]
    refine List.forall_mem_cons.2 ⟨refers_record (by simp) (by simp [Datum.field?]) ?_, ih _⟩
    simpa [refers_text] using hvalue

theorem DeclarationSyntax.refers_describe (d : DeclarationSyntax) : Refers imported (d.describe imported) := by
  unfold DeclarationSyntax.describe
  dsimp only
  split
  · exact refers_piece (by decide) (by simp) (by simp [refers_text])
  · split
    · exact refers_list_piece (by decide) (by decide) (refers_enumMembers _ _)
    · exact TypeSyntax.refers_describe _
    · next bases body _ _ =>
      refine refers_list_piece (by decide) (by decide) ?_
      simpa [or_imp, forall_and] using ⟨refers_describeAll bases, body.refers_describe⟩
    · exact TypeSyntax.refers_describe _

/-- Imports keep the names of what they import, and there are no declarations of these names besides. -/
def ModuleSyntax.KeepsNames (m : ModuleSyntax) : Prop :=
  ∀ i ∈ m.imports, i.exportedName = i.localName ∧ m.declaration? i.localName = none

theorem ModuleSyntax.KeepsNames.of_import? {m : ModuleSyntax} {name : String} {i : ImportSyntax}
    (h : m.KeepsNames) (hi : m.import? name = some i) : i.exportedName = name ∧ m.declaration? name = none := by
  have hname : i.localName = name := by simpa using List.find?_some hi
  have hmem : i ∈ m.imports := List.mem_reverse.1 (List.mem_of_find?_eq_some hi)
  simpa [hname] using h i hmem

end TypeScript

/-! ## Files -/

namespace SourceTree

open TypeScript

variable {t : SourceTree} {m : ModuleSyntax} {d : DeclarationSyntax} {file name : String}
  {hint : Option String} {E : RecordDeclaration}

/-- A name that a declaration mentions with a file is imported from this file. -/
theorem exists_import_of_mentions {i : DescriptionId} {target : String}
    (h : (t.record m file d).alone.types.Mentions i name (some target)) :
    ∃ written, t.importOf? m ⟨file, written⟩ = some ⟨target, name⟩ := by
  obtain ⟨described, ⟨written, ⟨-, -, rfl⟩ | ⟨target', himported, rfl⟩⟩, hhint⟩ :=
    Description.exists_of_mentions d.refers_describe h
  · cases hhint
  · simp only [Option.bind_eq_bind, Option.bind_eq_some_iff, Option.pure_def, Option.some.injEq,
      Prod.mk.injEq] at himported
    obtain ⟨i, hi, target'', hresolved, rfl, rfl⟩ := himported
    obtain rfl := Option.some.inj (Option.filter_eq_some_iff.1 hhint.symm).1
    exact ⟨written, importOf?_eq_some.2 ⟨i, _, hi, hresolved, rfl⟩⟩

/-- An imported name stands for what it stands for in the file that it is imported from. -/
theorem stands_iff_of_import {written : String} {next : DeclarationKey} (hm : t.module file = .ok (some m))
    (hd : m.declaration? written = none) (hnext : t.importOf? m ⟨file, written⟩ = some next) :
    t.Stands ⟨file, written⟩ E ↔ t.Stands next E := by
  obtain ⟨i, target, hi, htarget, rfl⟩ := importOf?_eq_some.1 hnext
  constructor
  · intro h
    cases h with
    | declared hm' hd' =>
      obtain rfl := Option.some.inj (Except.ok.inj (hm.symm.trans hm'))
      cases hd.symm.trans hd'
    | imported hm' _ hi' htarget' h =>
      obtain rfl := Option.some.inj (Except.ok.inj (hm.symm.trans hm'))
      obtain rfl := Option.some.inj (hi.symm.trans hi')
      obtain rfl := Option.some.inj (htarget.symm.trans htarget')
      exact h
  · exact .imported hm hd hi htarget

/-- Where imports keep the names, a name that a declaration mentions stands in its file for what it is
resolved to. -/
theorem lookup_iff_of_mentions {i : DescriptionId} (ht : t.Patient) (hm : t.module file = .ok (some m))
    (hkeeps : m.KeepsNames) (h : (t.record m file d).alone.types.Mentions i name hint) :
    t.lookup ⟨file, name⟩ = .ok (some E) ↔ t.lookup ⟨hint.getD file, name⟩ = .ok (some E) := by
  cases hint with
  | none => rfl
  | some target =>
    obtain ⟨written, hnext⟩ := exists_import_of_mentions h
    obtain ⟨i, target', hi, -, hkey⟩ := importOf?_eq_some.1 hnext
    obtain ⟨hname, hd⟩ := hkeeps.of_import? hi
    obtain ⟨rfl, rfl⟩ := DeclarationKey.mk.inj hkey
    rw [hname, ht.lookup_iff, ht.lookup_iff]
    rw [hname] at hnext
    exact stands_iff_of_import hm hd hnext

end SourceTree

end TypeAtlas
