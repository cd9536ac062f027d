import TypeAtlas.Cache.Fingerprint
import TypeAtlas.Proofs.Digest.Legible
import TypeAtlas.Proofs.Json.Encodable
import TypeAtlas.Proofs.Tag.Signature

/-! # What fingerprints commit to

When no two of the digested inputs collide, runs with the same fingerprint read the same bytes with
the same algorithm, and their vocabularies have the same signature. If the extra names can be told
apart there, every comment has the same tags under both.
-/

namespace TypeAtlas

/-- Different inputs of the given ones have different digests, also under different algorithms. -/
def Digester.Separates (d : Digester) (inputs : Set (Algorithm × ByteArray)) : Prop :=
  ∀ i ∈ inputs, ∀ j ∈ inputs, d.bytes i.1 i.2 = d.bytes j.1 j.2 → i.2 = j.2

variable {d : Digester} {a b : Algorithm} {v w : Vocabulary} {x y : ByteArray}

/-- What is digested for a fingerprint: the content of the file and the text that names its digest. -/
def fingerprintInputs (d : Digester) (a : Algorithm) (v : Vocabulary) (content : ByteArray) :
    Set (Algorithm × ByteArray) :=
  {i | i = (a, content) ∨
    ∃ text, Json.compact (Fingerprint.of d a v content).toDatum = .ok text ∧ i = (a, text.toUTF8)}

theorem Fingerprint.exists_compact (f : Fingerprint) : ∃ text, Json.compact f.toDatum = .ok text := by
  have h : f.toDatum.Writes 1 := by
    apply Datum.writes_record
    simp only [List.forall_mem_cons]
    exact ⟨Datum.writes_number (n := .int Cache.schemaVersion) (by unfold Number.Encodable; decide), Datum.writes_text _,
      Datum.writes_text _, Datum.writes_text _, Datum.writes_text _, by simp⟩
  exact h .compact 0 (by decide)

theorem exists_fingerprintKey (d : Digester) (a : Algorithm) (v : Vocabulary) (content : ByteArray) :
    ∃ key, fingerprintKey d a v content = .ok key := by
  obtain ⟨text, htext⟩ := (Fingerprint.of d a v content).exists_compact
  exact ⟨_, Digester.value_eq_ok.2 ⟨text, htext, rfl⟩⟩

theorem Fingerprint.eq_of_canonical {f g : Fingerprint}
    (h : f.toDatum.canonical = g.toDatum.canonical) : f = g := by
  have h : Datum.FieldsAlike _ _ := h
  obtain ⟨_, hcontent, hc⟩ := h.exists_mem (k := "content") (v := .text f.content) (by simp)
  obtain ⟨_, halgorithm, ha⟩ := h.exists_mem (k := "algo") (v := .text f.algorithm) (by simp)
  obtain ⟨_, hvocabulary, hv⟩ := h.exists_mem (k := "tags") (v := .text f.vocabulary) (by simp)
  cases f
  cases g
  simp_all

/-- A fingerprint commits to what it is taken of. -/
theorem Fingerprint.eq_of_key_eq {text : String}
    (hd : d.Separates (fingerprintInputs d a v x ∪ fingerprintInputs d b w y))
    (hx : fingerprintKey d a v x = .ok text) (hy : fingerprintKey d b w y = .ok text) :
    Fingerprint.of d a v x = Fingerprint.of d b w y := by
  rw [fingerprintKey, Fingerprint.key] at hx hy
  obtain ⟨s, hs, hsd⟩ := Digester.value_eq_ok.1 hx
  obtain ⟨t, ht, htd⟩ := Digester.value_eq_ok.1 hy
  have hst : s.toUTF8 = t.toUTF8 :=
    hd (a, s.toUTF8) (.inl (.inr ⟨s, hs, rfl⟩)) (b, t.toUTF8) (.inr (.inr ⟨t, ht, rfl⟩))
      (hsd.trans htd.symm)
  obtain rfl : s = t := String.toByteArray_inj.1 hst
  exact Fingerprint.eq_of_canonical (Json.canonical_eq_of_compact_eq hs ht)

/-- Files with the same fingerprint are the same and are read alike: with the same algorithm, and with
vocabularies that find the same tags in every comment. -/
theorem fingerprintKey_interchangeable (hv : v.Separable) (hw : w.Separable)
    (hd : d.Separates (fingerprintInputs d a v x ∪ fingerprintInputs d b w y))
    (h : fingerprintKey d a v x = fingerprintKey d b w y) :
    x = y ∧ a = b ∧ ∀ comment entity field location,
      readTags comment v entity field location = readTags comment w entity field location := by
  obtain ⟨key, hkey⟩ := exists_fingerprintKey d a v x
  have hof := Fingerprint.eq_of_key_eq hd hkey (h ▸ hkey)
  have hcontent : d.bytes a x = d.bytes b y := congrArg Fingerprint.content hof
  have hname : a.name = b.name := congrArg Fingerprint.algorithm hof
  have hsignature : v.signature = w.signature := congrArg Fingerprint.vocabulary hof
  constructor
  · exact hd (a, x) (.inl (.inl rfl)) (b, y) (.inr (.inl rfl)) hcontent
  constructor
  · have hb := Algorithm.ofName?_name b
    rw [← hname, Algorithm.ofName?_name a] at hb
    exact Option.some.inj hb
  · exact readTags_congr (hv.get?_eq hw hsignature)

/-- Naming a core tag once more among the extra ones makes another vocabulary, but the same runs. -/
theorem fingerprintKey_interchangeable_repeated :
    ∃ v w, Vocabulary.make none ["column"] = .ok v ∧ Vocabulary.make none ["pk", "column"] = .ok w ∧
      v ≠ w ∧ fingerprintKey .legible .sha256 v "type Id = string".toUTF8 =
        fingerprintKey .legible .sha256 w "type Id = string".toUTF8 ∧
      ∀ comment entity field location,
        readTags comment v entity field location = readTags comment w entity field location := by
  have hv : Vocabulary.Separable ⟨CoreTag.all, ["column"]⟩ :=
    ⟨by decide, fun t => by cases t <;> decide⟩
  have hw : Vocabulary.Separable ⟨CoreTag.all, ["pk", "column"]⟩ :=
    ⟨by decide, fun t => by cases t <;> decide⟩
  have hnames : Vocabulary.names ⟨CoreTag.all, ["column"]⟩ =
      Vocabulary.names ⟨CoreTag.all, ["pk", "column"]⟩ :=
    congrArg (List.mergeSort · fun a b => decide (a ≤ b)) (by decide)
  have hget : Vocabulary.get? ⟨CoreTag.all, ["column"]⟩ =
      Vocabulary.get? ⟨CoreTag.all, ["pk", "column"]⟩ := by
    funext name
    unfold Vocabulary.get?
    cases hcore : CoreTag.all.find? fun t => t.name == name with
    | some t => rfl
    | none =>
      have hpk : name ≠ "pk" := by
        rintro rfl
        revert hcore
        decide
      simp [hpk]
  have hkey (content : ByteArray) : fingerprintKey .legible .sha256 ⟨CoreTag.all, ["column"]⟩ content =
      fingerprintKey .legible .sha256 ⟨CoreTag.all, ["pk", "column"]⟩ content := by
    simp only [fingerprintKey, Fingerprint.of, Vocabulary.signature, hnames, hget]
  have hd : Digester.legible.Separates Set.univ := fun _ _ _ _ h => Digester.legible_bytes_inj h
  refine ⟨_, _, rfl, rfl, by decide, hkey _, ?_⟩
  exact (fingerprintKey_interchangeable hv hw
    (fun i _ j _ => hd i trivial j trivial) (hkey "type Id = string".toUTF8)).2.2

end TypeAtlas
