import Mathlib.Logic.Equiv.Basic
import TypeAtlas.Proofs.Extraction.Complete
import TypeAtlas.Proofs.Graph.Covered
import TypeAtlas.Proofs.Renaming.Walked
import TypeAtlas.Proofs.Renaming.Term

/-! # Extractions under other names

What declarations and files are called reaches no digest. If an extraction reports no error, neither
does that of the renamed symbol from the renamed declarations, and both have the same hash and the same
names of nodes.
-/

namespace TypeAtlas

variable {ρ : Renaming} {exact : Prop} {d : Digester} {a : Algorithm} {g g' : Graph}
  {deadline deadline' : Option Deadline}

namespace Renaming

theorem unnoticed_field (ρ : Renaming) : Field.Unnoticed ρ.field :=
  ⟨fun _ => rfl, fun _ => rfl, fun _ => rfl⟩

theorem covered_node (ρ : Renaming) (A : Arena) (n : Node) : n.Covered A False (ρ.node n) where
  id := rfl
  tags b h := canonicalFields_sharedPayload_congr n.tags b h
  shape := by
    rw [node]
    cases n.shape with
    | object fs => exact .object ρ.unnoticed_field
    | reference target symbol => exact .reference
    | recursiveRef target symbol => exact .recursiveRef False.elim (.inl rfl)
    | _ => exact .refl

end Renaming

namespace Graph.Beside

theorem covered (h : g.Beside ρ exact g') : g.Covered False g' where
  root := h.root
  size := h.size
  binders id _ := by rw [h.binders]
  place := False.elim
  node id := by
    rw [h.node?]
    cases g.node? id with
    | none => exact .none
    | some n => exact .some (ρ.covered_node g.nodes n)

theorem setting (h : g.Beside ρ exact g') :
    Folding.Setting.Beside ρ exact (g.setting d a) (g'.setting d a) :=
  ⟨rfl, rfl, h, h.binders⟩

/-- The normal form of a renamed graph is the renamed normal form. -/
theorem normalize {normal : Normalized} (h : g.Beside ρ exact g')
    (hd : deadline' = none ∨ deadline' = deadline) (hn : g.normalize d a deadline = .ok normal) :
    ∃ normal' c c', g'.normalize d a deadline' = .ok normal' ∧ normal.outcome.value = some c ∧
      normal'.outcome.value = some c' ∧ c'.root = c.root ∧ c'.nodes = ρ.arena c.nodes ∧
      normal'.outcome.ok = normal.outcome.ok := by
  obtain ⟨timed, htimed⟩ : ∃ timed : Bool, deadline' = if timed then deadline else none := by
    rcases hd with rfl | rfl
    · exact ⟨false, rfl⟩
    · exact ⟨true, rfl⟩
  obtain ⟨t, st, root, nodes, hfold, hemit, rfl⟩ := normalize_eq_ok hn
  have hinitial : Folding.State.Beside ρ exact timed { deadline } { deadline := deadline' } := by
    refine ⟨fun _ => rfl, rfl, by simp [Sink.toList], ?_, rfl, htimed⟩
    exact Std.ExtTreeMap.ext_getElem? fun k => by simp
  obtain ⟨_, st', hfold', rfl, hst⟩ := (Folding.mirrors_root h.setting).ends hinitial hfold
  have hempty : (∅ : Arena) = ρ.arena ∅ := Std.ExtTreeMap.ext_getElem? fun k => by
    rw [ρ.getElem?_arena]
    simp
  obtain ⟨_, _, hemit', rfl, rfl⟩ := (Emission.mirrors_emit (ρ := ρ) t []).ends hempty hemit
  refine ⟨⟨st'.sink.outcome (some { g' with root, nodes := ρ.arena nodes, algorithm := a.name }),
    st'.dead, st'.deadline⟩, _, _, ?_, rfl, rfl, rfl, rfl, ?_⟩
  · have hfold' : (Folding.root (g'.setting d a)).run { deadline := deadline' } =
        .ok (ρ.term t, st') := hfold'
    have hemit' : (Emission.emit d a (ρ.term t) []).run ∅ = .ok (root, ρ.arena nodes) := hemit'
    simp only [Graph.normalize, normalizeFrom, hfold', hemit', bind, Except.bind, pure, Except.pure]
  · rw [Sink.ok_outcome, Sink.ok_outcome, hst.hasErrors]

end Graph.Beside

namespace Renaming

/-- The request for the symbol under its new name. -/
def request (ρ : Renaming) (r : ExtractionRequest) : ExtractionRequest :=
  { r with file := ρ.file r.file, symbol := ρ.name r.symbol }

theorem beside_table (ρ : Renaming) (t : DeclarationTable) (vocabulary : Vocabulary) (maxNodes : Int)
    (symbol : String) (sharing : Bool) :
    Resolution.Setting.Beside ρ ⟨t.source, vocabulary, maxNodes, symbol, sharing⟩
      ⟨(ρ.table t).source, vocabulary, maxNodes, ρ.name symbol, sharing⟩ where
  lookup k d hd := by
    obtain rfl := Except.ok.inj hd
    exact congrArg Except.ok (ρ.lookup_table t k)
  shared := rfl
  depth := ρ.depth_table t
  vocabulary := rfl
  maxNodes := le_rfl
  symbol := rfl
  sharing := rfl

end Renaming

namespace ExtractionRequest

open Resolution

variable {r : ExtractionRequest} {t : DeclarationTable} {o : Outcome Extraction}

theorem resolution_renamed (ρ : Renaming) {resolved : Outcome Graph}
    (h : r.resolution t.source = .ok resolved) (hok : resolved.ok) :
    ∃ resolved' g g', (ρ.request r).resolution (ρ.table t).source = .ok resolved' ∧ resolved'.ok ∧
      resolved.value = some g ∧ resolved'.value = some g' ∧ g.Beside ρ False g' ∧
      ((ρ.request r).remaining (ρ.table t).source = none ∨
        (ρ.request r).remaining (ρ.table t).source = r.remaining t.source) := by
  obtain ⟨root, st, hdone, rfl⟩ := exists_done_of_resolve h
  have hclean : ¬ st.sink.hasErrors := by simpa using hok
  have hs := ρ.beside_table t r.vocabulary r.maxNodes r.symbol true
  rcases (mirrors_root hs False.elim r.file).along _ _ _ _ (State.beside_initial (.inr rfl)) hdone with
    hlost | ⟨st', hdone', hst⟩
  · rcases hlost with hlimit | ⟨-, herrors⟩
    · exact absurd (((secures_root r.file _ candid_initial).1 root st hdone).limit hlimit) hclean
    · exact absurd herrors hclean
  · obtain ⟨hresolved', hdeadline'⟩ := resolve_of_done hdone'
    have hdeadline : r.remaining t.source = st.deadline := (resolve_of_done hdone).2
    refine ⟨_, _, _, hresolved', ?_, rfl, rfl, hst.graph hs False.elim root r.file, ?_⟩
    · rw [Sink.ok_outcome, hst.hasErrors, ← Sink.ok_outcome]
      exact hok
    · have hdeadline' : (ρ.request r).remaining (ρ.table t).source = st'.deadline := hdeadline'
      rw [hdeadline, hdeadline']
      exact hst.deadline

/-- Extraction without an error does not depend on what declarations and files are called. -/
theorem extract_renamed (ρ : Renaming) (h : r.extract d t.source = .ok o) (hok : o.ok) :
    ∃ o' x x', (ρ.request r).extract d (ρ.table t).source = .ok o' ∧ o'.ok ∧
      o.value = some x ∧ o'.value = some x' ∧ x'.fingerprint = x.fingerprint ∧
      ∀ id, id ∈ x'.graph.nodes ↔ id ∈ x.graph.nodes := by
  obtain ⟨p, hp, rfl⟩ := exists_pass_of_extract h hok
  obtain ⟨resolved, hresolved, hp⟩ := exists_stages hp
  obtain ⟨a, normal, hash, hfin⟩ := exists_finished hp
  have hparts : resolved.ok ∧ normal.outcome.ok ∧ hash.ok := by
    simpa [Outcome.ok, hfin.diagnostics, and_assoc] using hok
  obtain ⟨resolved', g, g', hresolved', hok', hg, hg', hbeside, hdeadline⟩ :=
    resolution_renamed ρ hresolved hparts.1
  have hn : g.normalize d a (r.remaining t.source) = .ok normal := by
    have := hfin.normalized
    rwa [hfin.raw, hg] at this
  obtain ⟨normal', c, c', hn', hc, hc', hroot, hnodes, hnok⟩ := hbeside.normalize hdeadline hn
  have hh : c.toGraph.hash d a = .ok hash := by
    have := hfin.hashed
    rwa [hfin.graph, hc] at this
  have hcbeside : Graph.Beside ρ False c.toGraph c'.toGraph := ⟨hroot, hnodes, False.elim⟩
  obtain ⟨hash', hh', hhok, hvalue, -⟩ := hcbeside.covered.hash hh
  have hp' : ((ρ.request r).finish d resolved' _).1 = .ok _ :=
    finish_eq_ok hfin.named (by rw [hg']; exact hn') (by rw [hc']; exact hh')
  have hextract := extract_of_resolved (d := d) hresolved'
  rw [hp'] at hextract
  refine ⟨_, _, _, hextract, ?_, rfl, rfl, ?_, fun id => ?_⟩
  · simp only [outcome, Outcome.ok, List.any_append, Bool.not_or, Bool.and_eq_true]
    exact ⟨⟨hok', hnok.trans hparts.2.1⟩, hhok.trans hparts.2.2⟩
  · exact hvalue.trans hfin.fingerprint.symm
  · rw [hc', hfin.graph, hc]
    exact hnodes ▸ ρ.mem_arena c.nodes id

/-- Boxes and crates change places, and so do their files. -/
def crates : Renaming where
  name := Equiv.swap "Box" "Crate"
  file := Equiv.swap "box.ts" "crate.ts"
  name_injective := Equiv.injective _
  file_injective := Equiv.injective _
  name_empty := by decide
  file_empty := by decide

/-- A crate of crates hashes as a box of boxes. -/
theorem extract_renamed_boxes :
    let r : ExtractionRequest := { file := "box.ts", symbol := "Box" }
    ∃ o o' x x', r.extract .legible boxes.source = .ok o ∧ o.ok ∧
      (crates.request r).extract .legible (crates.table boxes).source = .ok o' ∧ o'.ok ∧
      o.value = some x ∧ o'.value = some x' ∧ x'.fingerprint = x.fingerprint ∧
      ∀ id, id ∈ x'.graph.nodes ↔ id ∈ x.graph.nodes := by
  intro r
  have hrun : (r.extract .legible boxes.source).toOption.any Outcome.ok = true := by decide +kernel
  obtain ⟨o, ho, hok⟩ : ∃ o, r.extract .legible boxes.source = .ok o ∧ o.ok := by
    cases h : r.extract .legible boxes.source with
    | error e => simp [h, Except.toOption] at hrun
    | ok o => exact ⟨o, rfl, by simpa [h, Except.toOption] using hrun⟩
  obtain ⟨o', x, x', ho', hok', hx, hx', hsame⟩ := extract_renamed crates ho hok
  exact ⟨o, o', x, x', ho, hok, ho', hok', hx, hx', hsame⟩

end ExtractionRequest

end TypeAtlas
