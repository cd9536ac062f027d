import TypeAtlas.Proofs.Graph.Covered
import TypeAtlas.Proofs.Graph.NormalForm
import TypeAtlas.Proofs.Normal.Emitted
import TypeAtlas.Proofs.Normal.Enclosed
import TypeAtlas.Proofs.Normal.Upright

/-! # When a graph is refused

A graph is refused a hash exactly if, on the way down from its root, a node is missing, a node is built
from itself, a recursion is unresolved, or a recursive reference is met outside the node that it names.
-/

namespace TypeAtlas

open Relation

/-- Something met on the way down from the root keeps the hash of a graph from being stable. -/
inductive Graph.Unstable (g : Graph) : Prop
  | missing {id : NodeId} (h : ReflTransGen g.nodes.HasChild g.root id) (hid : id ∉ g.nodes)
  | cycle {id : NodeId} (h : ReflTransGen g.nodes.HasChild g.root id)
      (hcycle : TransGen g.nodes.HasChild id id)
  | unresolved {id : NodeId} {n : Node} (h : ReflTransGen g.nodes.HasChild g.root id)
      (hn : g.node? id = some n) (hs : n.shape.isUnresolved)
  | dangling {trail : List NodeId} {id t : NodeId} {n : Node} (h : g.Route trail id)
      (hn : g.node? id = some n) (ht : n.shape.recursionTarget? = some t) (hout : t ∉ id :: trail)

/-- Where everything is determined, nothing is unstable. -/
theorem Graph.not_unstable {g : Graph} (h : g.nodes.Determined ∅ g.root) : ¬ g.Unstable := by
  have hscoped {id : NodeId} (hreach : ReflTransGen g.nodes.HasChild g.root id) :
      ∃ E, g.nodes.Scoped E id := by
    obtain ⟨trail, hroute⟩ := exists_route hreach
    exact ⟨_, scoped_of_route h.enclosed hroute⟩
  rintro (⟨hreach, hid⟩ | ⟨hreach, hcycle⟩ | ⟨hreach, hn, hs⟩ | ⟨hroute, hn, ht, hout⟩)
  · obtain ⟨E, hE⟩ := hscoped hreach
    exact hid hE.mem
  · obtain ⟨E, hE⟩ := hscoped hreach
    exact hE.grounded.acyclic hcycle
  · exact Bool.false_ne_true ((h.resolved _ _ hreach hn).symm.trans hs)
  · cases scoped_of_route h.enclosed hroute with
    | mk hm hscoped _ =>
      obtain rfl := Option.some.inj (hm.symm.trans hn)
      exact hout (by simpa using hscoped _ ht)

namespace Hasher

variable {d : Digester} {a : Algorithm} {g : Graph} {trail stack : List NodeId} {id : NodeId}
  {path : Std.ExtTreeSet NodeId} {fuel : ℕ} {st st' : State} {q : String × Heights}

/-- What is reported on a way down from the root makes the graph unstable: what the stack leaves out
of the way down is named by no recursive reference. -/
theorem unstable_of_digest (hroute : g.Route trail id) (hpath : ∀ x, path.contains x ↔ x ∈ trail)
    (hstack : ∀ x ∈ trail, g.binders.contains x → x ∈ stack)
    (h : Ends (digest ⟨d, a, g, g.binders⟩ fuel id stack path) st q st') (hst : Faulty st → g.Unstable)
    (hst' : Faulty st') : g.Unstable := by
  induction fuel generalizing id stack path trail st q st' with
  | zero =>
    obtain rfl := ends_of_brokenDigest h
    exact hst hst'
  | succ fuel ih =>
    rcases digest_cases h with ⟨y, -, -, rfl⟩ | ⟨hmissing | hin, -⟩ |
      ⟨n, p, st₁, inner, free, hn, hout, hinner, -, hparts, -, rfl⟩
    · exact hst hst'
    · exact .missing hroute.reaches hmissing
    · exact .cycle hroute.reaches (hroute.transGen ((hpath id).1 hin))
    · have hkept : ∀ x ∈ id :: trail, g.binders.contains x → x ∈ inner := by
        intro x hx hbinder
        rw [hinner]
        rcases List.mem_cons.1 hx with rfl | hx
        · rw [if_pos hbinder]
          exact List.mem_cons_self
        · split
          · exact List.mem_cons_of_mem _ (hstack x hx hbinder)
          · exact hstack x hx hbinder
      have hfaulty : Faulty st₁ := by
        split at hst'
        · exact hst'
        · exact hst'
      rcases parts_cases hparts with ⟨-, hunresolved | ⟨t, ht, hnot⟩⟩ | ⟨-, -, cs, qs, hchain, hcs, -⟩
      · exact .unresolved hroute.reaches hn hunresolved
      · refine .dangling hroute hn ht fun hmem => hnot (hkept t hmem ?_)
        exact Std.ExtTreeSet.contains_iff_mem.2 (Graph.mem_binders.2 ⟨id, n, hn, ht⟩)
      · refine hchain.preserves (I := fun st => Faulty st → g.Unstable) (fun c hc st q st' hq hst => ?_) hst hfaulty
        exact ih (hroute.step ⟨n, hn, (hcs c).1 hc⟩) (contains_insert_iff hpath) hkept hq hst

end Hasher

/-- A graph of which everything can be written is hashed or refused. It is refused exactly if something on
the way down from its root makes it unstable, with diagnostics that say so, and else there are none. -/
theorem Graph.refused_iff_unstable {d : Digester} {a : Algorithm} {g : Graph}
    (hgraph : ∀ id n, g.node? id = some n → n.Digestible) (hsize : g.nodes.size < 0x10000000000000000) :
    ∃ o, g.hash d a = .ok o ∧ (o.value = none ↔ g.Unstable) ∧ (o.value = none ↔ o.diagnostics ≠ []) ∧
      ∀ x ∈ o.diagnostics, x.code = DiagnosticKey.hashUnstableInput.code := by
  obtain ⟨o, ho⟩ := exists_hash hgraph hsize
  have herrors := errors_of_hash ho
  have hsteady (hunstable : ¬ o.ok) : g.Unstable := by
    obtain ⟨⟨p, st⟩, hrun, h⟩ := bind_eq_ok.1 ho
    obtain rfl := Except.ok.inj h
    refine Hasher.unstable_of_digest .root (by simp) (by simp) hrun (by simp [Sink.hasErrors]) ?_
    simpa using hunstable
  have hvalue : o.value = none ↔ ¬ o.ok := by
    by_cases hok : o.ok
    · obtain ⟨p, st, -, -, hvalue⟩ := exists_digest_of_hash ho hok
      simp [hvalue, hok]
    · obtain ⟨⟨p, st⟩, hrun, h⟩ := bind_eq_ok.1 ho
      obtain rfl := Except.ok.inj h
      refine iff_of_true (if_pos ?_) hok
      simpa using hok
  have hclean : o.ok ↔ o.diagnostics = [] := by
    constructor
    · intro hok
      refine List.eq_nil_iff_forall_not_mem.2 fun x hx => ?_
      simp only [Outcome.ok, Bool.not_eq_true', List.any_eq_false] at hok
      exact hok x hx (herrors x hx).2
    · intro hnil
      simp [Outcome.ok, hnil]
  refine ⟨o, ho, hvalue.trans ⟨hsteady, fun hunstable hok => ?_⟩, hvalue.trans hclean.not,
    fun x hx => (herrors x hx).1⟩
  exact not_unstable (determined_of_hash ho hok) hunstable

namespace Graph

/-- Lists of texts and of such lists, and beside them what is inside of them. The recursive reference is
met where it belongs first, and then outside. -/
def astray : Graph := ofNodes "Pair" [
  ⟨"Pair", .tuple ["X", "U"], [], none⟩, ⟨"X", .array "U", [], none⟩,
  ⟨"U", .union ["S", "R"] none, [], none⟩, ⟨"S", .primitive .string, [], none⟩,
  ⟨"R", .recursiveRef "X" "Nested", [], none⟩]

theorem digestible_astray {id : NodeId} {n : Node} (h : astray.node? id = some n) : n.Digestible := by
  have hmem := mem_of_node?_ofNodes h
  simp only [List.mem_cons, List.not_mem_nil, or_false] at hmem
  rcases hmem with rfl | rfl | rfl | rfl | rfl <;>
    exact ⟨⟨by simp, by simp, by simp, by simp⟩, by simp⟩

/-- The graph is refused, for its recursive reference is met astray. -/
theorem astray_refused : ∃ o, astray.hash .legible .sha256 = .ok o ∧ (o.value = none ↔ astray.Unstable) ∧
    (o.value = none ↔ o.diagnostics ≠ []) ∧
    ∀ x ∈ o.diagnostics, x.code = DiagnosticKey.hashUnstableInput.code :=
  refused_iff_unstable (fun _ _ h => digestible_astray h) (by decide +kernel)

end Graph

end TypeAtlas
