import TypeAtlas.Extraction.Pass
import TypeAtlas.Proofs.Normal.Enclosed
import TypeAtlas.Proofs.Normal.Known
import TypeAtlas.Proofs.Normal.Upright
import TypeAtlas.Proofs.Renaming.Folded
import TypeAtlas.Proofs.Resolution.Sourced
import TypeAtlas.Proofs.Run

/-! # Complete extractions

A pass that is complete has gone through all of its stages, and an extraction without an error comes
from such a pass. It leaves nothing out: every type in its graph is known, every recursive reference stands
below the node that it names, and there is a hash. If the raw graph is settled, the hash is the name of the
root.
-/

namespace TypeAtlas.ExtractionRequest

variable {d : Digester} {source : DeclarationSource} {r : ExtractionRequest} {p : ExtractionPass}
  {resolved : Outcome Graph} {deadline : Option Deadline} {o : Outcome Extraction}

abbrev resolution (r : ExtractionRequest) (source : DeclarationSource) : Attempt (Outcome Graph) :=
  (resolve source r.vocabulary r.maxNodes r.file r.symbol
    (r.timeout.map fun seconds => Deadline.start seconds r.clock)).1

/-- The deadline that is left after the resolution. -/
abbrev remaining (r : ExtractionRequest) (source : DeclarationSource) : Option Deadline :=
  (resolve source r.vocabulary r.maxNodes r.file r.symbol
    (r.timeout.map fun seconds => Deadline.start seconds r.clock)).2.deadline

/-- The stages of a pass, from the raw graph on. -/
structure Finished (d : Digester) (r : ExtractionRequest) (resolved : Outcome Graph)
    (deadline : Option Deadline) (p : ExtractionPass) (a : Algorithm) (normal : Normalized)
    (hash : Outcome String) : Prop where
  named : Algorithm.named r.algorithm = .ok a
  normalized : p.raw.normalize d a deadline = .ok normal
  hashed : p.extraction.graph.toGraph.hash d a = .ok hash
  raw : p.raw = resolved.value.getD default
  graph : p.extraction.graph = normal.outcome.value.getD default
  fingerprint : p.extraction.fingerprint = hash.value
  diagnostics : p.diagnostics = resolved.diagnostics ++ normal.outcome.diagnostics ++ hash.diagnostics

theorem exists_finished (h : (r.finish d resolved deadline).1 = .ok p) :
    ∃ a normal hash, Finished d r resolved deadline p a normal hash := by
  simp only [finish] at h
  cases ha : Algorithm.named r.algorithm with
  | error e =>
    rw [ha] at h
    cases h
  | ok a =>
    simp only [ha] at h
    cases hn : (resolved.value.getD default).normalize d a deadline with
    | error e =>
      rw [hn] at h
      cases h
    | ok n =>
      simp only [hn] at h
      cases hh : (n.outcome.value.getD default).toGraph.hash d a with
      | error e =>
        rw [hh] at h
        cases h
      | ok hash =>
        rw [hh] at h
        obtain rfl := Except.ok.inj h
        exact ⟨a, n, hash, ha, hn, hh, rfl, rfl, rfl, rfl⟩

theorem finish_eq_ok {a : Algorithm} {normal : Normalized} {hash : Outcome String}
    (ha : Algorithm.named r.algorithm = .ok a)
    (hn : (resolved.value.getD default).normalize d a deadline = .ok normal)
    (hh : (normal.outcome.value.getD default).toGraph.hash d a = .ok hash) :
    (r.finish d resolved deadline).1 = .ok {
      raw := resolved.value.getD default
      extraction := { filePath := r.file, symbol := r.symbol
                      graph := normal.outcome.value.getD default, fingerprint := hash.value }
      diagnostics := resolved.diagnostics ++ normal.outcome.diagnostics ++ hash.diagnostics } := by
  simp only [finish, ha, hn, hh]

theorem ending_eq_complete {x : Attempt ExtractionPass} :
    r.ending x = .ok (.complete p) ↔ x = .ok p := by
  rcases x with f | q
  · cases f <;> simp [ending]
  · simp [ending]

theorem exists_of_ending_eq_timedOut {x : Attempt ExtractionPass} {report : Diagnostic}
    (h : r.ending x = .ok (.timedOut report)) : ∃ seconds, report = r.timeoutReport seconds := by
  rcases x with f | q
  · cases f with
    | deadlineExpired seconds =>
      simp only [ending, Except.ok.injEq, PassEnd.timedOut.injEq] at h
      exact ⟨seconds, h.symm⟩
    | _ => cases h
  · cases h

theorem exists_of_pass_eq_timedOut {report : Diagnostic}
    (h : (r.pass d source).1 = .ok (.timedOut report)) : ∃ seconds, report = r.timeoutReport seconds := by
  obtain ⟨x, hx⟩ : ∃ x, r.ending x = .ok (.timedOut report) := by
    simp only [pass] at h
    cases hr : r.resolution source with
    | error e =>
      rw [resolution] at hr
      exact ⟨_, by simpa only [hr] using h⟩
    | ok resolved =>
      rw [resolution] at hr
      exact ⟨_, by simpa only [hr] using h⟩
  exact exists_of_ending_eq_timedOut hx

theorem isError_of_pass_eq_timedOut {report : Diagnostic}
    (h : (r.pass d source).1 = .ok (.timedOut report)) : report.isError := by
  obtain ⟨seconds, rfl⟩ := exists_of_pass_eq_timedOut h
  rfl

/-- The outcome of a pass that has come to an end. -/
def outcome : PassEnd → Outcome Extraction
  | .complete p => ⟨some p.extraction, p.diagnostics⟩
  | .timedOut report => ⟨none, [report]⟩

theorem extract_of_fault {f : Fault} (h : r.resolution source = .error f) :
    r.extract d source = (r.ending (.error f)).map outcome := by
  rw [resolution] at h
  simp only [extract, pass, h]
  rfl

theorem extract_of_resolved (h : r.resolution source = .ok resolved) :
    r.extract d source = (r.ending (r.finish d resolved (r.remaining source)).1).map outcome := by
  rw [resolution] at h
  simp only [extract, pass, h, remaining]
  rfl

theorem exists_stages (h : (r.pass d source).1 = .ok (.complete p)) :
    ∃ resolved, r.resolution source = .ok resolved ∧
      (r.finish d resolved (r.remaining source)).1 = .ok p := by
  simp only [pass] at h
  cases hr : r.resolution source with
  | error e =>
    rw [resolution] at hr
    simp only [hr, ending_eq_complete] at h
    cases h
  | ok resolved =>
    rw [resolution] at hr
    simp only [hr, ending_eq_complete] at h
    exact ⟨resolved, rfl, h⟩

theorem exists_resolution (h : (r.pass d source).1 = .ok (.complete p)) :
    ∃ resolved deadline, r.resolution source = .ok resolved ∧
      (r.finish d resolved deadline).1 = .ok p := by
  obtain ⟨resolved, hresolved, hp⟩ := exists_stages h
  exact ⟨resolved, _, hresolved, hp⟩

theorem exists_pass_of_extract (h : r.extract d source = .ok o) (hok : o.ok) :
    ∃ p, (r.pass d source).1 = .ok (.complete p) ∧ o = ⟨some p.extraction, p.diagnostics⟩ := by
  unfold extract at h
  cases hp : (r.pass d source).1 with
  | error e =>
    rw [hp] at h
    cases h
  | ok e =>
    rw [hp] at h
    cases e with
    | complete p => exact ⟨p, rfl, (Except.ok.inj h).symm⟩
    | timedOut report =>
      obtain rfl := Except.ok.inj h
      simp [Outcome.ok, isError_of_pass_eq_timedOut hp] at hok

theorem exists_ok_of_any {α : Type} {x : Attempt (Outcome α)} (h : x.toOption.any Outcome.ok = true) :
    ∃ o, x = .ok o ∧ o.ok := by
  cases x with
  | error e => cases h
  | ok o => exact ⟨o, rfl, h⟩

end TypeAtlas.ExtractionRequest

/-! ## Graphs -/

namespace TypeAtlas

open Term

variable {d : Digester} {a : Algorithm} {g : Graph} {t u : Term} {τ : List NodeId} {id root : NodeId}
  {A : Arena} {n : Node}

namespace Term

theorem isUnknown_outline (shape : TermShape) (ids : List NodeId) (target : NodeId) :
    (outline shape ids target).isUnknown = shape.isUnknown := by
  cases shape with
  | recursiveRef symbol raw link => cases link <;> rfl
  | _ => rfl

theorem Known.node (ht : t.Known) (h : Ends (Emission.emit d a t []) ∅ root A)
    (hn : A[id]? = some n) : n.shape.isUnknown = false := by
  have hfiled := (filed_of_emit h (fun _ _ _ h => h) fun _ hn => by simp at hn).1
  obtain ⟨e, he⟩ := hfiled id (mem_iff_exists_getElem?.2 ⟨n, hn⟩)
  obtain ⟨B, hask, -⟩ := he.asked
  obtain rfl := Option.some.inj (he.node.symm.trans hn)
  rw [Entry.node, isUnknown_outline]
  exact ht _ hask.sub

/-- A name in the arena of a term is the digest of a node. -/
theorem exists_digest_of_named (hu : u.Formed d a) (hn : u.Named d a τ id) :
    ∃ kind payload cs, d.node a kind payload cs = .ok id := by
  cases hn with
  | closed _ hd =>
    obtain rfl := hd
    exact ⟨_, _, _, hu.digested⟩
  | opened _ _ h => exact ⟨_, _, _, h⟩

end Term

/-- No digest of a node is one of the names that are given out in a resolution. -/
def Digester.Unnumbered (d : Digester) (a : Algorithm) : Prop :=
  ∀ kind payload cs k, d.node a kind payload cs ≠ .ok (Resolution.numbered k)

namespace Digester

theorem r_mem_numbered (k : ℕ) : 'r' ∈ (Resolution.numbered k).toList := by
  rw [Resolution.numbered, String.toList_append]
  exact List.mem_append_left _ (List.mem_singleton.2 rfl)

theorem not_mem_hex (bs : List UInt8) : 'r' ∉ (Hash.hex bs).toList := by
  have hdigits : ∀ m < 256, Nat.digitChar m ≠ 'r' := by decide +kernel
  have hdigit (n : UInt8) : Hash.hexChar n ≠ 'r' := hdigits n.toNat n.toNat_lt
  intro h
  rw [Hash.hex, String.toList_ofList, List.mem_flatMap] at h
  obtain ⟨b, -, h⟩ := h
  rcases List.mem_pair.1 h with h | h
  · exact hdigit _ h.symm
  · exact hdigit _ h.symm

theorem standard_unnumbered (a : Algorithm) : standard.Unnumbered a := by
  intro kind payload cs k h
  obtain ⟨text, -, h⟩ := value_eq_ok.1 h
  have hr := r_mem_numbered k
  rw [← h] at hr
  cases a with
  | sha256 => exact not_mem_hex _ hr
  | sha512 => exact not_mem_hex _ hr
  | blake2b => exact not_mem_hex _ hr
  | sha3 => exact not_mem_hex _ hr

/-- A node's text begins with a bracket. -/
theorem legible_unnumbered (a : Algorithm) : legible.Unnumbered a := by
  intro kind payload cs k h
  obtain ⟨text, htext, h⟩ := value_eq_ok.1 h
  obtain ⟨cs, hcs⟩ : ∃ cs, text.toList = '[' :: cs := by
    have hwritten := Json.written_of_write htext
    generalize text.toList = cs at hwritten
    rw [nodeValue] at hwritten
    generalize hv : Datum.list _ = v at hwritten
    cases hwritten with
    | atom ha =>
      subst hv
      cases ha
    | text s => cases hv
    | list zs hzs => exact ⟨_, rfl⟩
    | record fs zs hzs hs => cases hv
  have htext : text = "[" ++ String.ofList cs := by
    rw [← String.ofList_toList (s := text), hcs, String.ofList_cons]
    rfl
  have hhead : (legible.text a text).toList.head? = some '[' := by
    have hbytes : text.toUTF8.data = "[".toUTF8.data ++ (String.ofList cs).toUTF8.data := by
      rw [htext]
      exact (congrArg ByteArray.data String.toByteArray_append).trans ByteArray.data_append
    have hbracket : "[".toUTF8.data.toList = [91] := by decide +kernel
    simp only [Digester.text, legible, String.toList_ofList, hbytes, Array.toList_append, hbracket]
    rfl
  rw [h, Resolution.numbered, String.toList_append] at hhead
  cases hhead

end Digester

namespace Graph

/-- Without a report, a sturdy graph of known types folds into a known term. -/
theorem known_of_ends_root {st : Folding.State} (hs : Folding.Sturdy (g.setting d a))
    (hgraph : ∀ id n, g.node? id = some n → n.shape.isUnknown = false)
    (h : Ends (Folding.root (g.setting d a)) {} t st) (hst : ¬ st.sink.hasErrors) : t.Known := by
  have hleaves := Folding.leaves_of_build hgraph hs h (.inr fun _ _ ht => by simp at ht) .root
    (by simp) rfl
  exact hleaves.result.resolve_left hst

theorem Folds.recursive (h : g.Folds d a t) (hu : u.Sub t) {symbol : String} {raw : NodeId}
    {link : Option (ℕ × ℕ)} (hshape : u.shape = .recursiveRef symbol raw link) :
    ∃ id n, g.node? id = some n ∧ n.shape.recursionTarget? = some raw := by
  have hall := h.derives.throughout
    (P := fun shape _ => ∀ symbol raw link, shape = .recursiveRef symbol raw link →
      ∃ id n, g.node? id = some n ∧ n.shape.recursionTarget? = some raw)
    (fun id u hu symbol raw link hs => ?_) fun id n ts shape hn _ hshape symbol raw link hs => ?_
  · exact hall u hu symbol raw link hshape
  · obtain ⟨reason, cause, -, hu⟩ := hu
    obtain ⟨digest, -, rfl⟩ := make_eq_ok hu
    cases hs
  · subst hs
    refine ⟨id, n, hn, ?_⟩
    rw [show n.shape = .recursiveRef raw symbol from hshape]
    rfl

/-- When digests are not names of raw nodes, no name of a raw node is that of a node of the arena. -/
theorem Folds.numbered_not_mem (h : g.Folds d a t) (hd : d.Unnumbered a)
    (hemit : Ends (Emission.emit d a t []) ∅ root A) (k : ℕ) : Resolution.numbered k ∉ A := by
  intro hk
  have hfiled := (filed_of_emit hemit (fun _ _ _ h => h) fun _ hn => by simp at hn).1
  obtain ⟨e, he⟩ := hfiled _ hk
  obtain ⟨B, hask, -⟩ := he.asked
  have hformed := (h.derives.sits.formed.sub hask.sub).here
  obtain ⟨kind, payload, cs, hname⟩ := exists_digest_of_named hformed he.named
  exact hd kind payload cs k hname

theorem Folds.detached (h : g.Folds d a t) (hd : d.Unnumbered a)
    (hg : ∀ id n, g.node? id = some n → ∀ x, n.shape.recursionTarget? = some x →
      ∃ k, x = Resolution.numbered k)
    (hemit : Ends (Emission.emit d a t []) ∅ root A) : t.Detached A := by
  intro u hu symbol raw hshape
  obtain ⟨id, n, hn, htarget⟩ := h.recursive hu hshape
  obtain ⟨k, rfl⟩ := hg id n hn raw htarget
  exact h.numbered_not_mem hd hemit k

/-- When a graph without errors is normalized and hashed without a report, nothing is missing. -/
theorem complete_of_hash {deadline : Option Deadline} {normal : Normalized} {c : CanonicalGraph}
    {hash : Outcome String} (hs : Folding.Sturdy (g.setting d a))
    (hgraph : ∀ id n, g.node? id = some n → n.shape.isUnknown = false)
    (hn : g.normalize d a deadline = .ok normal) (hnok : normal.outcome.ok)
    (hc : normal.outcome.value = some c) (hh : c.toGraph.hash d a = .ok hash) (hok : hash.ok) :
    (∀ id n, c.node? id = some n → n.shape.isUnknown = false) ∧ c.nodes.Scoped ∅ c.root ∧
      ∃ x, hash.value = some x ∧ (d.CollisionFree a (g.texts d a) → g.Settled d a →
        (∀ t, g.Folds d a t → Ends (Emission.emit d a t []) ∅ c.root c.nodes →
          t.Detached c.nodes) → x = c.root) := by
  obtain ⟨t, st, root, nodes, hfold, hemit, rfl⟩ := normalize_eq_ok hn
  obtain rfl := Option.some.inj hc
  have hfold := Folding.ends_root_untimed hfold
  have hclean : ¬ st.sink.hasErrors := by simpa using hnok
  have hknown := known_of_ends_root hs hgraph hfold hclean
  obtain ⟨p, st', hp, -, hvalue⟩ := exists_digest_of_hash hh hok
  refine ⟨fun id n hn => hknown.node hemit hn, scoped_of_hash hh hok, p.1, hvalue,
    fun hfree hset hdet => ?_⟩
  have hf : g.Folds d a t := ⟨_, hfold⟩
  have hlaid := hf.laid hemit hfree subset_rfl hset
  obtain ⟨q, st'', hq, hroot⟩ := Hasher.exists_digest_of_laid hlaid (hdet t hf hemit)
  have hpq := Prod.mk.inj (Except.ok.inj (hp.symm.trans hq))
  exact (congrArg Prod.fst hpq.1).trans hroot

end Graph

/-! ## Extractions -/

/-- Nothing is missing from an extraction. -/
structure Extraction.Complete (x : Extraction) : Prop where
  known : ∀ id n, x.graph.node? id = some n → n.shape.isUnknown = false
  below : ∀ trail id n, x.graph.toGraph.Route trail id → x.graph.node? id = some n →
    ∀ t, n.shape.recursionTarget? = some t → t ∈ id :: trail
  hashed : x.fingerprint.isSome

namespace ExtractionRequest

variable {source : DeclarationSource} {r : ExtractionRequest} {o : Outcome Extraction}

/-- The request is resolved to a raw graph. -/
def Resolves (r : ExtractionRequest) (source : DeclarationSource) (g : Graph) : Prop :=
  ∃ o, r.resolution source = .ok o ∧ o.value = some g

theorem Resolves.numbered (h : r.Resolves source g) (hn : g.node? id = some n) {x : NodeId}
    (hx : n.shape.recursionTarget? = some x) : ∃ k, x = Resolution.numbered k := by
  obtain ⟨o, ho, hg⟩ := h
  obtain ⟨st, hsane, hchain, hnodes, -⟩ := exists_sane_of_resolve ho hg
  rw [Graph.node?, hnodes] at hn
  obtain ⟨k, -, hk⟩ := hsane.numbered x (hsane.target_mem hchain hn hx)
  exact ⟨k, hk⟩

theorem Resolves.grown (h : r.Resolves source g) : g.nodes.Grown ∧ g.root ∈ g.nodes := by
  obtain ⟨o, ho, hg⟩ := h
  obtain ⟨st, hsane, -, hnodes, hroot⟩ := exists_sane_of_resolve ho hg
  exact ⟨hnodes ▸ hsane.grown, hroot.mem⟩

theorem Resolves.sturdy (h : r.Resolves source g) : Folding.Sturdy (g.setting d a) :=
  Folding.sturdy_of_grown h.grown.1 h.grown.2

theorem exists_raw_of_extract (h : r.extract d source = .ok o) (hok : o.ok) :
    ∃ x a g, o.value = some x ∧ Algorithm.named r.algorithm = .ok a ∧ r.Resolves source g ∧
      (∀ id n, x.graph.node? id = some n → n.shape.isUnknown = false) ∧
      x.graph.nodes.Scoped ∅ x.graph.root ∧
      ∃ y, x.fingerprint = some y ∧ (d.CollisionFree a (g.texts d a) → g.Settled d a →
        (∀ t, g.Folds d a t → Ends (Emission.emit d a t []) ∅ x.graph.root x.graph.nodes →
          t.Detached x.graph.nodes) → y = x.graph.root) := by
  obtain ⟨p, hp, rfl⟩ := exists_pass_of_extract h hok
  obtain ⟨resolved, deadline, hresolved, hp⟩ := exists_resolution hp
  obtain ⟨a, normal, hash, hfin⟩ := exists_finished hp
  have hparts : resolved.ok ∧ normal.outcome.ok ∧ hash.ok := by
    simpa [Outcome.ok, hfin.diagnostics, and_assoc] using hok
  obtain ⟨g, hg⟩ : ∃ g, resolved.value = some g := by
    obtain ⟨root, st, -, rfl⟩ := Resolution.exists_done_of_resolve hresolved
    exact ⟨_, rfl⟩
  obtain ⟨c, hc⟩ : ∃ c, normal.outcome.value = some c := by
    obtain ⟨t, st, root, nodes, -, -, rfl⟩ := Graph.normalize_eq_ok hfin.normalized
    exact ⟨_, rfl⟩
  have hraw : p.raw = g := by rw [hfin.raw, hg]; rfl
  have hgraph : p.extraction.graph = c := by rw [hfin.graph, hc]; rfl
  have hresolves : r.Resolves source g := ⟨resolved, hresolved, hg⟩
  refine ⟨p.extraction, a, g, rfl, hfin.named, hresolves, ?_⟩
  rw [hgraph, hfin.fingerprint]
  exact Graph.complete_of_hash hresolves.sturdy (fun _ _ => resolve_known hresolved hg hparts.1)
    (hraw ▸ hfin.normalized) hparts.2.1 hc (hgraph ▸ hfin.hashed) hparts.2.2

theorem Resolves.unique {g' : Graph} (h : r.Resolves source g) (h' : r.Resolves source g') : g = g' := by
  obtain ⟨o, ho, hg⟩ := h
  obtain ⟨o', ho', hg'⟩ := h'
  obtain rfl := Except.ok.inj (ho.symm.trans ho')
  exact Option.some.inj (hg.symm.trans hg')

/-- An extraction without an error is complete: its types are known, and a recursive reference
stands below the node that it names or is that node. If the raw graph is settled and no texts
collide, the hash is the name of the root. -/
theorem extract_complete (h : r.extract d source = .ok o) (hok : o.ok) :
    ∃ x, o.value = some x ∧ x.Complete ∧ ∀ a g, Algorithm.named r.algorithm = .ok a →
      r.Resolves source g → g.Settled d a → d.CollisionFree a (g.texts d a) → d.Unnumbered a →
        x.fingerprint = some x.graph.root := by
  obtain ⟨x, a, g, hx, ha, hg, hknown, hscoped, y, hy, hroot⟩ := exists_raw_of_extract h hok
  refine ⟨x, hx, ⟨hknown, fun trail id n hroute hn t ht => ?_, by simp [hy]⟩, ?_⟩
  · cases Graph.scoped_of_route hscoped hroute with
    | mk hm htarget _ =>
      obtain rfl := Option.some.inj (hm.symm.trans hn)
      simpa using htarget t ht
  · intro a' g' ha' hg' hset hfree hd
    obtain rfl := Except.ok.inj (ha.symm.trans ha')
    obtain rfl := hg.unique hg'
    rw [hy, hroot hfree hset fun t ht hemit => ?_]
    exact ht.detached hd (fun id n hn x hx => hg.numbered hn hx) hemit

def boxes : DeclarationTable :=
  let types : Descriptions := #[.ok { shape := .array 1 }, .ok { shape := .reference "Box" none }]
  [{ name := "Box", filePath := "box.ts", types, type := 0 }]

/-- Nothing is missing from a box of boxes. -/
theorem extract_complete_boxes :
    let r : ExtractionRequest := { file := "box.ts", symbol := "Box" }
    ∃ o x, r.extract .legible boxes.source = .ok o ∧ o.ok ∧ o.value = some x ∧ x.Complete ∧
      x.fingerprint = some x.graph.root := by
  intro r
  have hrun : (r.extract .legible boxes.source).toOption.any Outcome.ok = true := by
    decide +kernel
  have hupright : ((r.resolution boxes.source).toOption.bind Outcome.value).any
      (Graph.upright .legible .sha256) = true := by decide +kernel
  obtain ⟨o, ho, hok⟩ : ∃ o, r.extract .legible boxes.source = .ok o ∧ o.ok := by
    cases h : r.extract .legible boxes.source with
    | error e => simp [h, Except.toOption] at hrun
    | ok o => exact ⟨o, rfl, by simpa [h, Except.toOption] using hrun⟩
  obtain ⟨x, hx, hcomplete, hroot⟩ := extract_complete ho hok
  obtain ⟨resolved, g, hresolved, hg, hg'⟩ := Resolution.exists_graph_of_any hupright
  exact ⟨o, x, ho, hok, hx, hcomplete, hroot .sha256 g rfl ⟨resolved, hresolved, hg⟩
    (Graph.settled_of_upright hg') (Digester.legible_collisionFree .sha256 _)
    (Digester.legible_unnumbered .sha256)⟩

end ExtractionRequest

end TypeAtlas
