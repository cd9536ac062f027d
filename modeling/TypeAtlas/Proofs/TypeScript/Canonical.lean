import TypeAtlas.Proofs.Declaration.Consulted
import TypeAtlas.Proofs.Normal.Hashed
import TypeAtlas.Proofs.Resolution.Done
import TypeAtlas.Proofs.TypeScript.Aliased
import TypeAtlas.Proofs.TypeScript.Numeric

/-! # Integer literal types

A literal type with a plain spelling is resolved to the integer that it writes, so that its digest is the same
however the integer is written. With any other spelling it is resolved to something else.
-/

namespace TypeAtlas

/-! ## Digests -/

section Single

open Hasher

variable {s : Hasher.Setting} {id : NodeId} {node : Node} {k : LiteralKind} {v : Scalar} {fuel : ℕ}

/-- A literal outside of all recursion is covered by its content alone. -/
theorem run_digest_literal (hnode : s.graph.node? id = some node) (hshape : node.shape = .literal k v)
    (htags : node.tags = []) (hbinder : s.binders.contains id = false) :
    (digest s (fuel + 1) id [] ∅).run {} =
      (s.digester.node s.algorithm "literal" (literalPayload k v) []).map fun d =>
        ((d, ∅), { closed := (∅ : Std.ExtTreeMap NodeId String).insert id d }) := by
  unfold digest parts nodeDigest
  simp [hnode, hshape, htags, hbinder, Shape.kind, sharedPayload]
  rfl

/-- A graph of one literal has the digest of that literal. -/
theorem Graph.hash_of_literal {g : Graph} {l : Option SourceLocation} (d : Digester) (a : Algorithm)
    (hnodes : g.nodes = (∅ : Arena).insert g.root ⟨g.root, .literal k v, [], l⟩) :
    g.hash d a = (d.node a "literal" (literalPayload k v) []).map Outcome.success := by
  have hnode : g.node? g.root = some ⟨g.root, .literal k v, [], l⟩ := by
    rw [Graph.node?, hnodes, Std.ExtTreeMap.getElem?_insert_self]
  have hbinder : g.binders.contains g.root = false := by
    by_contra h
    obtain ⟨y, m, hm, htarget⟩ := Graph.mem_binders.1 (Std.ExtTreeSet.contains_iff_mem.1 (by simpa using h))
    rw [hnodes, Std.ExtTreeMap.getElem?_insert] at hm
    split_ifs at hm
    · obtain rfl := Option.some.inj hm
      cases htarget
    · simp at hm
  unfold Graph.hash
  dsimp only
  rw [run_digest_literal (s := ⟨d, a, g, g.binders⟩) hnode rfl rfl hbinder]
  cases d.node a "literal" (literalPayload k v) [] with
  | error e => rfl
  | ok x =>
    have hquiet : ({} : Sink).hasErrors = false := by simp [Sink.hasErrors]
    simp [Except.map, bind, Except.bind, pure, Except.pure, hquiet, Sink.outcome, Sink.toList, Outcome.success]

end Single

/-! ## Files -/

namespace SourceTree

open TypeScript

variable {w : IntegerLiteral} {root : Path} {v : Volume} {file name rest : String}

theorem module_of_text {text : String} (hfile : v.read (root / Path.ofString file) = .ok text.toUTF8) :
    (ofVolume root v).module file = .ok (some (parseModule text)) := by
  have hnow : (ofVolume root v).module file = readingAt v (root / Path.ofString file) := current_ofVolume ∅
  have hutf8 : String.fromUTF8? text.toUTF8 = some text := dif_pos text.isValidUTF8
  rw [hnow, readingAt, hfile]
  simp only [readModule, hutf8]

/-- The name of an alias for an integer literal stands for the literal. -/
theorem exists_lookup_alias (hname : IsIdentifier name.toList)
    (hfile : v.read (root / Path.ofString file) = .ok (aliasSource name w.text rest).toUTF8) :
    ∃ D : Declaration, (ofVolume root v).source.lookup ⟨file, name⟩ = .ok (some D) ∧ D.comment = none ∧
      ∃ p : Piece, p.text = w.text ∧ ∀ x, ReadsAs (describeNumeric p) x → D.types.get D.type = .ok x := by
  obtain ⟨d, hd, hcomment, halias⟩ := exists_declaration w hname rest
  obtain ⟨p, hp, hbody⟩ := halias.body
  have hmodule := module_of_text hfile
  generalize parseModule (aliasSource name w.text rest) = m at hd hmodule
  obtain ⟨fuel, hfuel⟩ : ∃ fuel, (ofVolume root v).patience = fuel + 1 :=
    ⟨_, (patience_ofVolume root v).trans (Nat.add_comm _ _)⟩
  have hlookup : (ofVolume root v).lookup ⟨file, name⟩ = .ok (some ((ofVolume root v).record m file d)) := by
    rw [lookup_eq_some, SourceTree.follow, hfuel]
    exact ⟨_, trail_of_declared rfl hmodule hd, rfl⟩
  refine ⟨((ofVolume root v).record m file d).alone, ?_, hcomment, p, hp, ?_⟩
  · simp only [source, hlookup]
    rfl
  · intro x hx
    have htype : ((ofVolume root v).record m file d).type = describeNumeric p := by
      simp only [record, DeclarationSyntax.describe, halias.generic, hbody, TypeSyntax.describe,
        Bool.false_eq_true, if_false]
    rw [RecordDeclaration.alone, htype]
    exact hx

/-- The digest of a literal type that holds an integer. -/
def integerDigest (d : Digester) (a : Algorithm) (big : Bool) (n : ℤ) :
    Except Json.WriteError (Outcome String) :=
  (d.node a "literal" (literalPayload (integerKind big) (integerScalar big n)) []).map Outcome.success

/-- An alias for an integer literal is resolved to a literal type that holds the integer, in decimal digits for
a big integer, exactly if its spelling is plain. Then its digest does not depend on the spelling. -/
theorem resolve_integer (vocabulary : Vocabulary) {maxNodes : ℤ} (sharing : Bool)
    (hname : IsIdentifier name.toList)
    (hfile : v.read (root / Path.ofString file) = .ok (aliasSource name w.text rest).toUTF8)
    (hbudget : 0 < maxNodes) :
    ∃ o g node, (resolve (ofVolume root v).source vocabulary maxNodes file name none sharing).1 = .ok o ∧
      o.value = some g ∧ g.node? g.root = some node ∧
        (node.shape = .literal (integerKind w.big) (integerScalar w.big w.value) ↔ w.Plain) ∧
          (w.Plain → ∀ d a, g.hash d a = integerDigest d a w.big w.value) := by
  obtain ⟨D, hlookup, hcomment, p, hp, htype⟩ := exists_lookup_alias hname hfile
  have hdepth : (ofVolume root v).source.depth ≠ 0 := Nat.succ_ne_zero _
  have hresolve {x : Description} {shape : Shape} (hx : ReadsAs (describeNumeric p) x)
      (hshape : x.shape.single? = some shape) :=
    exists_resolve_single vocabulary sharing hlookup hcomment (htype x hx) hshape hdepth hbudget
  have hnode {g : Graph} {n : Node} (hg : g.nodes = (∅ : Arena).insert g.root n) : g.node? g.root = some n := by
    rw [Graph.node?, hg, Std.ExtTreeMap.getElem?_insert_self]
  by_cases hplain : w.Plain
  · obtain ⟨o, g, l, ho, hg, hnodes⟩ := hresolve (IntegerLiteral.readsAs_of_plain hp hplain) rfl
    exact ⟨o, g, _, ho, hg, hnode hnodes, iff_of_true rfl hplain,
      fun _ d a => Graph.hash_of_literal d a hnodes⟩
  · rcases IntegerLiteral.exists_readsAs_of_not_plain hp hplain with
      ⟨text, hx, hbig, htext⟩ | ⟨detail, hx⟩
    · obtain ⟨o, g, l, ho, hg, hnodes⟩ := hresolve hx rfl
      refine ⟨o, g, _, ho, hg, hnode hnodes, iff_of_false ?_ hplain, fun h => absurd h hplain⟩
      simpa [integerKind, integerScalar, hbig] using htext
    · obtain ⟨o, g, l, ho, hg, hnodes⟩ := hresolve hx rfl
      refine ⟨o, g, _, ho, hg, hnode hnodes, iff_of_false ?_ hplain, fun h => absurd h hplain⟩
      rintro ⟨⟩

/-- The spelling of minus thirty-one as - 0X1_f. -/
def minusThirtyOne : IntegerLiteral where
  minus := some [' ']
  base := .hexadecimal
  upper := true
  groups := [['1'], ['f']]
  big := false
  isGap_of_mem := by
    rintro gap ⟨⟩
    exact List.all_iff_forall_prop.1 (by decide)
  groups_ne_nil := by decide
  group_ne_nil := List.all_iff_forall_prop.1 (by decide)
  digit_lt := List.all_iff_forall_prop.1 (by decide)
  leading := by decide

theorem plain_minusThirtyOne : minusThirtyOne.Plain where
  spaced := by
    rintro gap ⟨⟩
    exact List.all_iff_forall_prop.1 (by decide)
  short := by decide
  decimal := by decide
  joined := by decide
  nonzero := by decide

/-- A volume with one source file, which declares the literal. -/
def coldVolume : Volume where
  entries := (∅ : Std.ExtTreeMap Location FileEntry).insert ["cold.ts"]
    (.file (aliasSource "Cold" minusThirtyOne.text "\n").toUTF8)

theorem read_coldVolume : coldVolume.read (⟨.root, []⟩ / Path.ofString "cold.ts") =
    .ok (aliasSource "Cold" minusThirtyOne.text "\n").toUTF8 := by
  have hat : coldVolume.at? ([] ++ ["cold.ts"]) =
      some (.file (aliasSource "Cold" minusThirtyOne.text "\n").toUTF8) := by simp [coldVolume, Volume.at?]
  have hpath : (⟨.root, []⟩ / Path.ofString "cold.ts" : Path) = Path.child ⟨.root, []⟩ "cold.ts" := by decide
  rw [hpath]
  exact Volume.read_eq_ok.2 ⟨_, Volume.find_child (Volume.find_start rfl rfl) (by decide) hat (by simp), rfl⟩

/-- A literal in hexadecimal digits is resolved to its integer. -/
theorem resolve_integer_hexadecimal : ∃ o g node,
    (resolve (ofVolume ⟨.root, []⟩ coldVolume).source default 10 "cold.ts" "Cold" none true).1 = .ok o ∧
      o.value = some g ∧ g.node? g.root = some node ∧
        node.shape = .literal .number (.number (.int (-31))) := by
  obtain ⟨o, g, node, ho, hg, hnode, hshape, -⟩ := resolve_integer (w := minusThirtyOne) default true
    ⟨'C', ['o', 'l', 'd'], by decide, by decide, List.all_iff_forall_prop.1 (by decide)⟩ read_coldVolume
    (by decide : (0 : ℤ) < 10)
  exact ⟨o, g, node, ho, hg, hnode, hshape.2 plain_minusThirtyOne⟩

end SourceTree

end TypeAtlas
