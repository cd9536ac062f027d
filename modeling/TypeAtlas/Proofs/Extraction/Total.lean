import TypeAtlas.Proofs.Extraction.Complete
import TypeAtlas.Proofs.Normal.Emitted
import TypeAtlas.Proofs.Resolution.Recorded
import TypeAtlas.Proofs.Tag.Read

/-! # Extractions that do not fail

If the descriptions of a source are formed as they should be and their integers fit 64 bits, an
extraction without a time limit comes to a graph. What the graph cannot hold is left out with a
diagnostic, and is no reason to stop.
-/

namespace TypeAtlas

variable {source : DeclarationSource} {vocabulary : Vocabulary} {n : Node} {tag : Tag}
  {d : Digester} {a : Algorithm} {g : Graph}

/-- The numbers in descriptions can be written, and those in the tags of comments can be read and
written. -/
structure DeclarationSource.Encodable (source : DeclarationSource) (vocabulary : Vocabulary) :
    Prop where
  brief : source.Brief
  literal : ∀ d, Describes source d → ∀ k n, d.shape = .literal k (.number n) → n.Encodable
  enum : ∀ d, Describes source d → ∀ ms, d.shape = .enum ms → ∀ name n,
    .ok (.constant ⟨name, .number n⟩) ∈ ms → n.Encodable
  tag : ∀ t, Annotates source vocabulary t → ∀ fields, t.parsed = some fields →
    ∀ label n, (label, Datum.number n) ∈ fields → n.Encodable

/-! ## Tags -/

theorem Annotates.encodable (h : Annotates source vocabulary tag)
    (hs : source.Encodable vocabulary) : tag.Encodable 1 := by
  intro fields hfields f hf
  have hplain : f.2.Plain := by
    obtain ⟨text, -, entity, field, location, o, ho, hmem⟩ := h
    exact plain_of_mem_readTags ho hmem hfields f hf
  obtain ⟨label, v⟩ := f
  rcases hplain with ⟨s, rfl⟩ | ⟨b, rfl⟩ | ⟨n, rfl⟩ | ⟨ss, rfl⟩
  · exact Datum.writes_text s
  · exact Datum.writes_bool b
  · exact Datum.writes_number (hs.tag tag h fields hfields label n hf)
  · exact Datum.writes_texts ss

theorem Annotates.readable (h : Annotates source vocabulary tag) (hp : tag.parsed.isSome)
    (hname : tag.name = "index") : Folding.Readable tag := by
  obtain ⟨fields, hfields⟩ := Option.isSome_iff_exists.1 hp
  obtain ⟨text, -, entity, field, location, o, ho, hmem⟩ := h
  have hindex := index_of_mem_readTags ho hmem hfields hname
  unfold Folding.Readable Folding.indexFields
  rw [hfields, Option.getD_some]
  rcases hindex with hnone | ⟨ss, hss⟩
  · rw [hnone]
    exact ⟨[], {}, {}, ends_pure.2 ⟨rfl, rfl⟩, by simp⟩
  · rw [hss]
    refine ⟨_, {}, {}, ends_pure.2 ⟨rfl, rfl⟩, fun name hname fs => ?_⟩
    obtain ⟨s, -, rfl⟩ := List.mem_map.1 hname
    exact ⟨{}, _, {}, ends_pure.2 ⟨rfl, rfl⟩⟩

theorem Sourced.readable (h : Sourced source vocabulary n) (t : Term) :
    Folding.TagsReadable n.tags t :=
  fun tag htag hp hname _ => (h.tags tag htag).readable hp hname

/-! ## Nodes -/

theorem mem_of_enumMembers {parts : List (Attempt MemberDescription)} {ms : List EnumMember}
    (h : Resolution.enumMembers parts = .ok (.ok ms)) : ∀ m ∈ ms, .ok (.constant m) ∈ parts := by
  induction parts generalizing ms with
  | nil =>
    obtain rfl := Except.ok.inj (Except.ok.inj h)
    simp
  | cons p parts ih =>
    obtain ⟨part, rfl, hpart⟩ := bind_eq_ok.1 h
    cases part with
    | unsupported detail => cases Except.ok.inj hpart
    | constant m =>
      obtain ⟨rest, hrest, hrests⟩ := bind_eq_ok.1 hpart
      obtain ⟨ms', rfl, rfl⟩ := map_eq_ok.1 (Except.ok.inj hrests)
      intro m' hm'
      rcases List.mem_cons.1 hm' with rfl | hm'
      · exact List.mem_cons_self
      · exact List.mem_cons_of_mem _ (ih hrest m' hm')

theorem Sourced.encodable (h : Sourced source vocabulary n) (hs : source.Encodable vocabulary) :
    n.Encodable where
  tags t ht := ((h.tags t ht).encodable hs).mono (by decide)
  fields fs hfs f hf t ht := ((h.fields fs hfs f hf t ht).encodable hs).mono (by decide)
  literal k x hx := by
    rintro m rfl
    obtain ⟨d, hd, hshape⟩ := h.literal k _ hx
    exact hs.literal d hd k m hshape
  enum ms hms m hm := by
    intro x hx
    obtain ⟨d, parts, hd, hshape, hparts⟩ := h.enum ms hms
    refine hs.enum d hd parts hshape m.name x ?_
    rw [← hx]
    exact mem_of_enumMembers hparts m hm

/-! ## Graphs -/

namespace Graph

section Finish

variable (hgraph : ∀ id n, g.node? id = some n → n.Encodable)
  (hread : ∀ id n, g.node? id = some n → ∀ t, Folding.TagsReadable n.tags t)
  (hsize : g.nodes.size < 0x10000000000000000)
  (hcsize : ∀ c, g.canonical? d a = some c → c.nodes.size < 0x10000000000000000)

include hgraph hread hsize hcsize

/-- A graph can be normalized and hashed, if what it says can be written and it is not too large to
count, unless a recursive reference in a shared term is written out where it has no target. -/
theorem finish_or_astray :
    g.normalize d a = .error .noEnclosingTarget ∨
    ∃ normal c hash, g.normalize d a = .ok normal ∧ normal.outcome.value = some c ∧
      c.toGraph.hash d a = .ok hash := by
  obtain ⟨t, st, -, henc, ⟨root, nodes, hemit, hnormal⟩ | ⟨hastray, -⟩⟩ :=
    normalize_cases (d := d) (a := a) hgraph hread hsize
  · have hc := canonical?_eq_some.2 ⟨_, hnormal, rfl⟩
    obtain ⟨hash, hhash⟩ := exists_hash (d := d) (a := a)
      (g := { g with root, nodes }) (fun id n hn => henc.node hemit hn) (hcsize _ hc)
    exact .inr ⟨_, _, hash, hnormal, rfl, hhash⟩
  · exact .inl hastray

/-- If the graph is settled, every recursive reference has its target. -/
theorem exists_finish (hset : g.Settled d a) :
    ∃ normal c hash, g.normalize d a = .ok normal ∧ normal.outcome.value = some c ∧
      c.toGraph.hash d a = .ok hash := by
  refine (finish_or_astray hgraph hread hsize hcsize).resolve_left fun hastray => ?_
  obtain ⟨t, st, -, -, ⟨root, nodes, -, hnormal⟩ | ⟨-, hunsettled⟩⟩ :=
    normalize_cases (d := d) (a := a) hgraph hread hsize
  · cases hastray.symm.trans hnormal
  · exact hunsettled hset

end Finish

end Graph

/-! ## Extractions -/

namespace ExtractionRequest

variable {r : ExtractionRequest}

theorem extract_eq_of_stages {resolved : Outcome Graph} {normal : Normalized} {hash : Outcome String}
    (ha : Algorithm.named r.algorithm = .ok a) (hr : r.resolution source = .ok resolved)
    (htime : (resolve source r.vocabulary r.maxNodes r.file r.symbol
      (r.timeout.map fun seconds => Deadline.start seconds r.clock)).2.deadline = none)
    (hn : (resolved.value.getD default).normalize d a = .ok normal)
    (hh : (normal.outcome.value.getD default).toGraph.hash d a = .ok hash) :
    ∃ x diagnostics, r.extract d source = .ok ⟨some x, diagnostics⟩ := by
  have hremaining : r.remaining source = none := htime
  rw [extract_of_resolved hr, hremaining, finish_eq_ok ha hn hh]
  exact ⟨_, _, rfl⟩

/-- What is described as it should be, with integers that fit 64 bits, is extracted without a
fault, and a type that is not known is reported as an error. Counts of nodes are taken to fit 64 bits
as well. -/
theorem exists_extract {ds : List RecordDeclaration} (ha : Algorithm.named r.algorithm = .ok a)
    (htime : r.timeout = none) (hwell : WellDescribed (DeclarationTable.ofRecords ds).source)
    (henc : (DeclarationTable.ofRecords ds).source.Encodable r.vocabulary)
    (hgraph : ∀ g, r.Resolves (DeclarationTable.ofRecords ds).source g → g.Settled d a ∧
      g.nodes.size < 0x10000000000000000 ∧
      ∀ c, g.canonical? d a = some c → c.nodes.size < 0x10000000000000000) :
    ∃ o x, r.extract d (DeclarationTable.ofRecords ds).source = .ok o ∧ o.value = some x ∧
      ∀ id n, x.graph.node? id = some n → n.shape.isUnknown → o.ok = false := by
  set source := (DeclarationTable.ofRecords ds).source
  have hfinite := DeclarationTable.finite_source (t := .ofRecords ds) fun _ =>
    DeclarationTable.legible_ofRecords
  obtain ⟨resolved, hresolved, hdead⟩ : ∃ o,
      (resolve source r.vocabulary r.maxNodes r.file r.symbol).1 = .ok o ∧
        (resolve source r.vocabulary r.maxNodes r.file r.symbol).2.deadline = none :=
    exists_resolve hwell henc.brief hfinite (.inl rfl) (DeclarationTable.bound_lt_depth _ _)
  have hresolution : r.resolution source = .ok resolved := by
    rw [resolution, htime]
    exact hresolved
  obtain ⟨g, hg⟩ : ∃ g, resolved.value = some g := by
    obtain ⟨root, st, -, rfl⟩ := Resolution.exists_done_of_resolve hresolved
    exact ⟨_, rfl⟩
  obtain ⟨hset, hsize, hcsize⟩ := hgraph g ⟨resolved, hresolution, hg⟩
  obtain ⟨normal, c, hash, hnormal, hc, hhash⟩ := Graph.exists_finish
    (fun _ _ hn => (resolve_sourced hresolved hg hn).encodable henc)
    (fun _ _ hn => (resolve_sourced hresolved hg hn).readable) hsize hcsize hset
  obtain ⟨x, diagnostics, hx⟩ := extract_eq_of_stages ha hresolution (by rw [htime]; exact hdead)
    (by rw [hg]; exact hnormal) (by rw [hc]; exact hhash)
  refine ⟨_, x, hx, rfl, fun id n hn hu => ?_⟩
  by_contra hok
  obtain ⟨y, -, -, hy, -, -, hknown, -⟩ := exists_raw_of_extract hx (by simpa using hok)
  obtain rfl := Option.some.inj hy
  simp [hknown id n hn] at hu

def box : RecordDeclaration where
  file := "box.ts"
  name := "Box"
  type := .record [("kind", .text "array"),
    ("element", .record [("kind", .text "ref"), ("name", .text "Box")])]

theorem ofRecords_box : DeclarationTable.ofRecords [box] = [{
    name := "Box", filePath := "box.ts", type := 1, types := #[.error .notARecord,
      .ok { shape := .array 2 }, .ok { shape := .reference "Box" none, label := "Box" }] }] := by
  with_unfolding_all rfl

theorem sound_box : ∀ d ∈ DeclarationTable.ofRecords [box],
    d.type ∈ [1, 2] ∧ d.types.sound [1, 2] := by
  rw [ofRecords_box]
  simp only [List.forall_mem_singleton]
  decide

theorem encodable_box (vocabulary : Vocabulary) :
    (DeclarationTable.ofRecords [box]).source.Encodable vocabulary := by
  have hshape {d} (hd : Describes (DeclarationTable.ofRecords [box]).source d) :
      d.shape = .array 2 ∨ d.shape = .reference "Box" none := by
    obtain ⟨types, i, ho, hd⟩ := hd
    obtain ⟨hi, d', hmem, rfl⟩ := DeclarationTable.exists_sound_of_occurs sound_box ho
    rw [ofRecords_box, List.mem_singleton] at hmem
    subst hmem
    rcases List.mem_pair.1 hi with rfl | rfl
    · obtain rfl := Except.ok.inj hd
      exact .inl rfl
    · obtain rfl := Except.ok.inj hd
      exact .inr rfl
  have hcomment {text} : ¬ Comments (DeclarationTable.ofRecords [box]).source text := by
    rintro (⟨hd, ht⟩ | ⟨hd, hs, _, _⟩)
    · have hmem := List.mem_of_find?_eq_some (Except.ok.inj hd)
      rw [ofRecords_box, List.mem_singleton] at hmem
      subst hmem
      cases ht
    · rcases hshape hd with h | h <;> cases h.symm.trans hs
  refine ⟨fun text htext => absurd htext hcomment, fun d hd k n hs => ?_, fun d hd ms hs => ?_,
    fun tag ⟨text, htext, _⟩ => absurd htext hcomment⟩
  · rcases hshape hd with h | h <;> cases h.symm.trans hs
  · rcases hshape hd with h | h <;> cases h.symm.trans hs

/-- The box of boxes is extracted. -/
theorem exists_extract_box :
    let r : ExtractionRequest := { file := "box.ts", symbol := "Box" }
    ∃ o x, r.extract .legible (DeclarationTable.ofRecords [box]).source = .ok o ∧
      o.value = some x ∧ ∀ id n, x.graph.node? id = some n → n.shape.isUnknown → o.ok = false := by
  intro r
  have hbox : ((r.resolution (DeclarationTable.ofRecords [box]).source).toOption.bind
      Outcome.value).any (fun g => g.upright .legible .sha256 &&
        decide (g.nodes.size < 0x10000000000000000) && (g.canonical? .legible .sha256).all
          fun c => c.nodes.size < 0x10000000000000000) = true := by
    rw [ofRecords_box]
    decide +kernel
  obtain ⟨o, g, ho, hg, hbox⟩ := Resolution.exists_graph_of_any hbox
  simp only [Bool.and_eq_true, decide_eq_true_eq, Option.all_eq_true] at hbox
  refine exists_extract (a := .sha256) rfl rfl (DeclarationTable.wellDescribed_of_sound sound_box)
    (encodable_box _) fun g' hg' => ?_
  obtain rfl := Resolves.unique ⟨o, ho, hg⟩ hg'
  exact ⟨Graph.settled_of_upright hbox.1.1, hbox.1.2, hbox.2⟩

end ExtractionRequest

end TypeAtlas
