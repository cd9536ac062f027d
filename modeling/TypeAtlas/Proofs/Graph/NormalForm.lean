import TypeAtlas.Graph.Hash
import TypeAtlas.Normal.Term
import TypeAtlas.Proofs.Graph.WellFormed

/-! # Normal forms of graphs

A graph in normal form holds nothing but what its root is built from. Fields and members are sorted
strictly, composites are flat and merged, and no composite stands for its only member, except where
tags or recursive references need it. Nothing below a grounded node, from which every way down comes to
an end, is built from itself.
-/

namespace TypeAtlas

/-! ## Ways down a graph -/

open Relation

variable {A : Arena} {E : Set NodeId} {g : Graph} {trail : List NodeId} {id x y : NodeId}

/-- Every way down from a node comes to an end. -/
inductive Arena.Grounded (A : Arena) : NodeId → Prop
  | mk {id : NodeId} (h : ∀ c, A.HasChild id c → Grounded A c) : Grounded A id

namespace Arena.Grounded

theorem child (h : A.Grounded id) (hc : A.HasChild id x) : A.Grounded x := by
  cases h with
  | mk h => exact h x hc

theorem of_reaches (h : A.Grounded id) (hx : ReflTransGen A.HasChild id x) : A.Grounded x := by
  induction hx with
  | refl => exact h
  | tail _ hc ih => exact ih.child hc

theorem acyclic (h : A.Grounded id) : ¬ TransGen A.HasChild id id := by
  induction h with
  | @mk id _ ih =>
    intro hcycle
    obtain ⟨c, hc, hback⟩ := TransGen.head'_iff.1 hcycle
    exact ih c hc (.tail' hback hc)

end Arena.Grounded

/-- Where everything is in scope, every way down comes to an end. -/
theorem Arena.Scoped.grounded (h : A.Scoped E id) : A.Grounded id := by
  induction h with
  | mk hn _ _ ih =>
    refine .mk fun c hc => ?_
    obtain ⟨m, hm, hmem⟩ := hc
    obtain rfl := Option.some.inj (hm.symm.trans hn)
    exact ih c hmem

namespace Graph

theorem Route.reaches (h : g.Route trail id) : ReflTransGen g.nodes.HasChild g.root id := by
  induction h with
  | root => exact .refl
  | step _ hc ih => exact ih.tail hc

theorem Route.transGen (h : g.Route trail id) (hx : x ∈ trail) : TransGen g.nodes.HasChild x id := by
  induction h with
  | root => cases hx
  | step _ hc ih =>
    rcases List.mem_cons.1 hx with rfl | hx
    · exact .single hc
    · exact (ih hx).tail hc

theorem Route.mem (h : g.Route trail id) (hx : x ∈ trail) : x ∈ g.nodes := by
  induction h with
  | root => cases hx
  | step _ hc ih =>
    rcases List.mem_cons.1 hx with rfl | hx
    · obtain ⟨n, hn, -⟩ := hc
      exact mem_iff_exists_getElem?.2 ⟨n, hn⟩
    · exact ih hx

/-- Where every way down comes to an end, no node is met twice. -/
theorem Route.nodup (h : g.Route trail id) (hroot : g.nodes.Grounded g.root) : (id :: trail).Nodup := by
  have hnot {trail : List NodeId} {y : NodeId} (h : g.Route trail y) : y ∉ trail := fun hmem =>
    (hroot.of_reaches h.reaches).acyclic (h.transGen hmem)
  induction h with
  | root => simp
  | step h hc ih => exact List.nodup_cons.2 ⟨hnot (h.step hc), ih⟩

theorem exists_route (h : ReflTransGen g.nodes.HasChild g.root id) : ∃ trail, g.Route trail id := by
  induction h with
  | refl => exact ⟨[], .root⟩
  | tail _ hc ih =>
    obtain ⟨trail, hroute⟩ := ih
    exact ⟨_, hroute.step hc⟩

end Graph

/-! ## Normal forms -/

/-- The members of a union or an intersection. -/
def Shape.members? : Shape → Option (List NodeId)
  | .union ms _ => some ms
  | .intersection ms => some ms
  | _ => none

/-- The family of a shape that has one by itself. -/
def Shape.family? : Shape → Option Family
  | .primitive p => some (if p.isNeutral then .neutral else .value)
  | .literal .. | .enum _ | .array _ | .tuple _ => some .value
  | .object _ | .intersection _ => some .object
  | .recursiveRef .. | .unknown .. => some .neutral
  | .reference .. | .union .. => none

namespace Graph

def targets (g : Graph) (trail : List NodeId) : List NodeId := trail.filter g.binders.contains

/-- The digest of a node below the given recursion targets, the innermost first. -/
def digest? (d : Digester) (a : Algorithm) (g : Graph) (targets : List NodeId) (id : NodeId) :
    Option String :=
  match (Hasher.digest ⟨d, a, g, g.binders⟩ (g.nodes.size + 1) id targets ∅).run {} with
  | .ok (p, _) => some p.1
  | .error _ => none

/-- The family of a node. References are of the family of their targets, and unions of that of their
members. -/
inductive OfFamily (g : Graph) : NodeId → Family → Prop
  | own {id : NodeId} {n : Node} {f : Family} (hn : g.node? id = some n)
      (hf : n.shape.family? = some f) : OfFamily g id f
  | reference {id target : NodeId} {n : Node} {symbol : String} {f : Family}
      (hn : g.node? id = some n) (hs : n.shape = .reference target symbol)
      (h : OfFamily g target f) : OfFamily g id f
  | union {id m : NodeId} {n : Node} {ms : List NodeId} {δ : Option Discriminant} {f : Family}
      (hn : g.node? id = some n) (hs : n.shape = .union ms δ) (hm : m ∈ ms) (h : OfFamily g m f)
      (hf : f ≠ .neutral) : OfFamily g id f
  | neutral {id : NodeId} {n : Node} {ms : List NodeId} {δ : Option Discriminant}
      (hn : g.node? id = some n) (hs : n.shape = .union ms δ)
      (h : ∀ m ∈ ms, OfFamily g m .neutral) : OfFamily g id .neutral

/-- An object that is no recursion target, or a reference to one that is none either. -/
inductive ObjectBody (g : Graph) : NodeId → Prop
  | object {id : NodeId} {n : Node} {fs : List Field} (hn : g.node? id = some n)
      (hs : n.shape = .object fs) (hb : id ∉ g.binders) : ObjectBody g id
  | reference {id target : NodeId} {n : Node} {symbol : String} (hn : g.node? id = some n)
      (hs : n.shape = .reference target symbol) (hb : id ∉ g.binders) (h : ObjectBody g target) :
      ObjectBody g id

/-- A node that has a place of its own: it is tagged, or a recursive reference names it. -/
def Anchored (g : Graph) (id : NodeId) (n : Node) : Prop := n.tags ≠ [] ∨ id ∈ g.binders

structure NormalForm (d : Digester) (a : Algorithm) (g : Graph) : Prop where
  wellFormed : g.WellFormed
  reached : ∀ id ∈ g.nodes, Relation.ReflTransGen g.nodes.HasChild g.root id
  fields : ∀ id n fs, g.node? id = some n → n.shape = .object fs →
    fs.Pairwise fun f f' => f.name < f'.name
  members : ∀ trail id n ms, g.Route trail id → g.node? id = some n → n.shape.members? = some ms →
    ∃ xs : List String, ms.map (g.digest? d a (g.targets (id :: trail))) = xs.map some ∧
      xs.Pairwise fun x y => x < y
  flat : ∀ id n ms, g.node? id = some n → n.shape.members? = some ms → ∀ c ∈ ms, ∀ m,
    g.node? c = some m → m.shape.kind = n.shape.kind → g.Anchored c m
  single : ∀ id n c, g.node? id = some n → n.shape.members? = some [c] → g.Anchored id n
  family : ∀ id ∈ g.nodes, ∃ f, g.OfFamily id f
  kin : ∀ id n ms δ, g.node? id = some n → n.shape = .union ms δ → ∀ c ∈ ms, ∀ c' ∈ ms, ∀ f f',
    g.OfFamily c f → g.OfFamily c' f' → f ≠ .neutral → f' ≠ .neutral → f = f'
  unmerged : ∀ id n ms, g.node? id = some n → n.shape = .intersection ms → ms ≠ [] →
    ∃ c ∈ ms, ¬ g.ObjectBody c

end Graph

end TypeAtlas
