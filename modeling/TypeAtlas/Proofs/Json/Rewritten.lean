import TypeAtlas.Proofs.Json.Unambiguous
import TypeAtlas.Proofs.Json.Encodable
import TypeAtlas.Proofs.Run

/-! # Documents written again

A value that was read back from a document is written as the value before, so it has the same digest
as well.
-/

namespace TypeAtlas

namespace Json

variable {style : Style} {level : ℕ} {v : Datum} {x : String} {fs : List (String × Datum)}
  {ps : List (String × String)}

theorem sortFields_sortFields {α : Type} (fs : List (String × α)) :
    sortFields (sortFields fs) = sortFields fs :=
  sortFields_of_pairwise (pairwise_sortFields fs)

theorem writeFields_eq_ok_iff : writeFields style level fs = .ok ps ↔
    ∃ zs : List (String × Datum × String), fs = zs.map (fun z => (z.1, z.2.1)) ∧
      ps = zs.map (fun z => (z.1, z.2.2)) ∧ ∀ z ∈ zs, write style level z.2.1 = .ok z.2.2 := by
  constructor
  · intro h
    induction fs generalizing ps with
    | nil =>
      cases h
      exact ⟨[], rfl, rfl, by simp⟩
    | cons f fs ih =>
      obtain ⟨p, hp, h⟩ := bind_eq_ok.1 h
      obtain ⟨qs, hqs, h⟩ := bind_eq_ok.1 h
      cases h
      obtain ⟨zs, rfl, rfl, hzs⟩ := ih hqs
      exact ⟨(f.1, f.2, p) :: zs, rfl, rfl, List.forall_mem_cons.2 ⟨hp, hzs⟩⟩
  · rintro ⟨zs, rfl, rfl, hzs⟩
    induction zs with
    | nil => rfl
    | cons z zs ih =>
      obtain ⟨hz, hzs⟩ := List.forall_mem_cons.1 hzs
      rw [List.map_cons, writeFields, hz, ih hzs]
      rfl

theorem writeFields_sortFields (h : writeFields style level fs = .ok ps) :
    writeFields style level (sortFields fs) = .ok (sortFields ps) := by
  obtain ⟨zs, rfl, rfl, hzs⟩ := writeFields_eq_ok_iff.1 h
  exact writeFields_eq_ok_iff.2 ⟨sortFields zs, sortFields_map Prod.fst zs, sortFields_map Prod.snd zs,
    fun z hz => hzs z (mem_sortFields.1 hz)⟩

theorem write_record (hl : level < maxDepth) (hfs : fs ≠ [])
    (h : writeFields style (level + 1) fs = .ok ps) :
    write style level (.record fs) = .ok (style.enclose level "\x7b" "\x7d"
      ((sortFields ps).map fun f => quote f.1 ++ style.colon ++ f.2)) := by
  cases fs with
  | nil => exact absurd rfl hfs
  | cons f fs =>
    rw [write, if_neg (by omega), h]
    rfl

mutual

/-- What is read back is written as before. -/
theorem write_canonical :
    (v : Datum) → ∀ {level : ℕ} {x : String}, write style level v = .ok x →
      write style level v.canonical = .ok x
  | .null, _, _, h | .bool _, _, _, h | .text _, _, _, h | .moment _, _, _, h
  | .number (.int _), _, _, h => h
  | .number (.float y), level, x, h => by
    rw [Datum.canonical]
    split
    · exact h
    · next hy =>
      have hnull : FloatLayout.document.write y = "null" :=
        (Number.document_eq_null (n := .float y)).2 (Bool.not_eq_true _ ▸ hy)
      rw [write, hnull] at h
      exact h
  | .list [], _, _, h => h
  | .list (v :: vs), level, x, h => by
    rw [write] at h
    split at h
    · cases h
    · next hl =>
      obtain ⟨ps, hps, h⟩ := bind_eq_ok.1 h
      rw [Datum.canonical, Datum.canonicalList, write, if_neg hl, ← Datum.canonicalList,
        writeList_canonical (v :: vs) hps]
      exact h
  | .record [], _, _, h => by
    rw [Datum.canonical, Datum.canonicalFields, sortFields, List.foldr_nil]
    exact h
  | .record (f :: fs), level, x, h => by
    rw [write] at h
    split at h
    · cases h
    · next hl =>
      obtain ⟨ps, hps, h⟩ := bind_eq_ok.1 h
      have hsorted := writeFields_sortFields (writeFields_canonical (f :: fs) hps)
      have hne : sortFields (Datum.canonicalFields (f :: fs)) ≠ [] := by
        rw [Ne, ← List.length_eq_zero_iff, length_sortFields,
          Datum.canonicalFields_eq_map, List.length_map]
        exact Nat.succ_ne_zero _
      rw [Datum.canonical, write_record (by omega) hne hsorted, sortFields_sortFields]
      exact h

theorem writeList_canonical :
    (vs : List Datum) → ∀ {level : ℕ} {ps : List String}, writeList style level vs = .ok ps →
      writeList style level (Datum.canonicalList vs) = .ok ps
  | [], _, _, h => h
  | v :: vs, level, ps, h => by
    obtain ⟨p, hp, h⟩ := bind_eq_ok.1 h
    obtain ⟨qs, hqs, h⟩ := bind_eq_ok.1 h
    rw [Datum.canonicalList, writeList, write_canonical v hp, writeList_canonical vs hqs]
    exact h

theorem writeFields_canonical :
    (fs : List (String × Datum)) → ∀ {level : ℕ} {ps : List (String × String)},
      writeFields style level fs = .ok ps →
        writeFields style level (Datum.canonicalFields fs) = .ok ps
  | [], _, _, h => h
  | (k, v) :: fs, level, ps, h => by
    obtain ⟨p, hp, h⟩ := bind_eq_ok.1 h
    obtain ⟨qs, hqs, h⟩ := bind_eq_ok.1 h
    rw [Datum.canonicalFields, writeFields, write_canonical v hp, writeFields_canonical fs hqs]
    exact h

end

mutual

theorem exists_write_of_canonical :
    (v : Datum) → ∀ {level : ℕ}, (∃ x, write style level v.canonical = .ok x) →
      ∃ x, write style level v = .ok x
  | .null, _, h | .bool _, _, h | .text _, _, h | .moment _, _, h | .number (.int _), _, h => h
  | .number (.float _), _, _ => ⟨_, by rw [write]⟩
  | .list [], _, h => h
  | .list (v :: vs), level, h => by
    obtain ⟨x, hx⟩ := h
    have hparts := write_list_eq_ok hx
    by_cases hl : level < maxDepth
    · exact exists_write_list hl (exists_write_of_canonicalList (v :: vs) fun w hw =>
        hparts _ (Datum.canonicalList_eq_map _ ▸ List.mem_map_of_mem hw))
    · rw [Datum.canonical, Datum.canonicalList, write, if_pos (by omega)] at hx
      cases hx
  | .record [], _, _ => ⟨_, by rw [write]⟩
  | .record (f :: fs), level, h => by
    obtain ⟨x, hx⟩ := h
    have hparts := write_record_eq_ok hx
    by_cases hl : level < maxDepth
    · refine exists_write_record hl (exists_write_of_canonicalFields (f :: fs) fun g hg => ?_)
      refine hparts (g.1, g.2.canonical) (mem_sortFields.2 ?_)
      exact Datum.canonicalFields_eq_map _ ▸ List.mem_map_of_mem hg
    · rw [Datum.canonical] at hx
      cases hs : sortFields (Datum.canonicalFields (f :: fs)) with
      | nil =>
        rw [← List.length_eq_zero_iff, length_sortFields,
          Datum.canonicalFields_eq_map, List.length_map] at hs
        cases hs
      | cons g gs =>
        rw [hs, write, if_pos (by omega)] at hx
        cases hx

theorem exists_write_of_canonicalList :
    (vs : List Datum) → ∀ {level : ℕ}, (∀ v ∈ vs, ∃ x, write style level v.canonical = .ok x) →
      ∀ v ∈ vs, ∃ x, write style level v = .ok x
  | [], _, _ => by simp
  | v :: vs, level, h => by
    obtain ⟨hv, hvs⟩ := List.forall_mem_cons.1 h
    exact List.forall_mem_cons.2 ⟨exists_write_of_canonical v hv, exists_write_of_canonicalList vs hvs⟩

theorem exists_write_of_canonicalFields :
    (fs : List (String × Datum)) → ∀ {level : ℕ},
      (∀ f ∈ fs, ∃ x, write style level f.2.canonical = .ok x) →
        ∀ f ∈ fs, ∃ x, write style level f.2 = .ok x
  | [], _, _ => by simp
  | (k, v) :: fs, level, h => by
    obtain ⟨hv, hvs⟩ := List.forall_mem_cons.1 h
    exact List.forall_mem_cons.2 ⟨exists_write_of_canonical v hv,
      exists_write_of_canonicalFields fs hvs⟩

end

/-- Values that are the same up to the order of fields and numbers that are not finite are written
alike. -/
theorem write_congr {w : Datum} (hvw : v.canonical = w.canonical) (h : write style level v = .ok x) :
    write style level w = .ok x := by
  have hv := write_canonical v h
  rw [hvw] at hv
  obtain ⟨y, hy⟩ := exists_write_of_canonical w ⟨x, hv⟩
  obtain rfl := Except.ok.inj ((write_canonical w hy).symm.trans hv)
  exact hy

end Json

namespace Datum

mutual

theorem canonical_canonical : (v : Datum) → v.canonical.canonical = v.canonical
  | .null | .bool _ | .text _ | .moment _ => rfl
  | .number n => by
    rw [canonical]
    split
    · next hn => rw [canonical, if_pos hn]
    · rfl
  | .list xs => by rw [canonical, canonical, canonicalList_canonicalList xs]
  | .record fs => by
    rw [canonical, canonical, canonicalFields_eq_map (Json.sortFields _),
      ← Json.sortFields_map canonical, ← canonicalFields_eq_map, canonicalFields_canonicalFields fs,
      Json.sortFields_sortFields]

theorem canonicalList_canonicalList :
    (xs : List Datum) → canonicalList (canonicalList xs) = canonicalList xs
  | [] => rfl
  | x :: xs => by
    rw [canonicalList, canonicalList, canonical_canonical x, canonicalList_canonicalList xs]

theorem canonicalFields_canonicalFields :
    (fs : List (String × Datum)) → canonicalFields (canonicalFields fs) = canonicalFields fs
  | [] => rfl
  | (k, x) :: fs => by
    rw [canonicalFields, canonicalFields, canonical_canonical x, canonicalFields_canonicalFields fs]

end

end Datum

namespace Digester

variable {d : Digester} {a : Algorithm} {v : Datum} {x : String}

theorem value_congr {w : Datum} (hvw : v.canonical = w.canonical) (h : d.value a v = .ok x) :
    d.value a w = .ok x := by
  obtain ⟨text, htext, rfl⟩ := map_eq_ok.1 h
  exact map_eq_ok.2 ⟨text, Json.write_congr hvw htext, rfl⟩

theorem value_canonical (h : d.value a v = .ok x) : d.value a v.canonical = .ok x :=
  value_congr (Datum.canonical_canonical v).symm h

/-- The digest of a node depends on what is covered of its content alone. -/
theorem node_congr {kind : String} {fs gs : List (String × Datum)} {cs : List String}
    (hfs : Datum.canonicalFields fs = Datum.canonicalFields gs) (h : d.node a kind fs cs = .ok x) :
    d.node a kind gs cs = .ok x := by
  refine value_congr ?_ h
  simp only [nodeValue, Datum.canonical, Datum.canonicalList, hfs]

end Digester

end TypeAtlas
