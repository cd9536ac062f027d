import Mathlib.Data.List.Perm.Subperm
import Mathlib.Data.Set.Insert
import Mathlib.Logic.Relation
import TypeAtlas.Graph.Basic
import TypeAtlas.Graph.Render
import TypeAtlas.Proofs.Run

/-! # Well-formed graphs

In a well-formed graph every name that occurs is that of a node, no node is built from itself, and a
recursive reference is met only inside the node that it names. An arena that grows bottom-up is
acyclic, and whatever is scoped in it stays so. The rendering of a node quotes literals and the values of
enum members, and fails only where one of these cannot be written.
-/

namespace TypeAtlas

variable {A B C : Arena} {E F : Set NodeId} {id x y : NodeId} {n : Node}

theorem mem_iff_exists_getElem? : id ∈ A ↔ ∃ n, A[id]? = some n := by
  rw [← Std.ExtTreeMap.isSome_getElem?_iff_mem, Option.isSome_iff_exists]

/-! ## Extensions -/

/-- Nothing that is filed is lost or changed. -/
def Extends (A B : Arena) : Prop := ∀ (id : NodeId) (n : Node), A[id]? = some n → B[id]? = some n

theorem Extends.refl (A : Arena) : Extends A A := fun _ _ h => h

theorem Extends.trans (h : Extends A B) (h' : Extends B C) : Extends A C :=
  fun id n hn => h' id n (h id n hn)

theorem Extends.mem (h : Extends A B) (hm : id ∈ A) : id ∈ B := by
  obtain ⟨n, hn⟩ := mem_iff_exists_getElem?.1 hm
  exact mem_iff_exists_getElem?.2 ⟨n, h id n hn⟩

theorem Extends.size_le (h : Extends A B) : A.size ≤ B.size := by
  rw [← Std.ExtTreeMap.length_keys, ← Std.ExtTreeMap.length_keys]
  refine (List.subperm_of_subset Std.ExtTreeMap.nodup_keys fun x hx => ?_).length_le
  exact Std.ExtTreeMap.mem_keys.2 (h.mem (Std.ExtTreeMap.mem_keys.1 hx))

theorem extends_insert (h : id ∉ A) (n : Node) : Extends A (A.insert id n) := by
  intro x m hm
  have hne : id ≠ x := by
    rintro rfl
    exact h (mem_iff_exists_getElem?.2 ⟨m, hm⟩)
  simpa [Std.ExtTreeMap.getElem?_insert, hne] using hm

/-! ## Arenas that grow -/

/-- The first node is built from the second. -/
def Arena.HasChild (A : Arena) (x y : NodeId) : Prop :=
  ∃ n : Node, A[x]? = some n ∧ y ∈ n.shape.children

/-- An arena that is filled bottom-up, each node under its own name. -/
inductive Arena.Grown : Arena → Prop
  | empty : Grown ∅
  | add {A : Arena} {n : Node} (h : Grown A) (hid : n.id ∉ A) (hc : ∀ c ∈ n.shape.children, c ∈ A) :
    Grown (A.insert n.id n)

namespace Arena.Grown

theorem keyed (h : A.Grown) (hn : A[id]? = some n) : n.id = id := by
  induction h with
  | empty => simp at hn
  | @add A m h hid hc ih =>
    rw [Std.ExtTreeMap.getElem?_insert] at hn
    split at hn
    · next he =>
      obtain rfl := Option.some.inj hn
      simpa using he
    · exact ih hn

theorem child_mem (h : A.Grown) (hn : A[id]? = some n) {c : NodeId} (hm : c ∈ n.shape.children) :
    c ∈ A := by
  induction h with
  | empty => simp at hn
  | @add A m h hid hc ih =>
    refine (extends_insert hid m).mem ?_
    rw [Std.ExtTreeMap.getElem?_insert] at hn
    split at hn
    · obtain rfl := Option.some.inj hn
      exact hc c hm
    · exact ih hn

/-- Nodes come after those that they are built from. -/
theorem exists_rank (h : A.Grown) :
    ∃ (rank : NodeId → ℕ) (top : ℕ), (∀ x ∈ A, rank x < top) ∧
      ∀ x y, A.HasChild x y → rank y < rank x := by
  induction h with
  | empty => exact ⟨fun _ => 0, 0, by simp, by rintro x y ⟨n, hn, -⟩; simp at hn⟩
  | @add A m h hid hc ih =>
    obtain ⟨rank, top, htop, hrank⟩ := ih
    have hold (x : NodeId) (hx : x ∈ A) : Function.update rank m.id top x = rank x := by
      rw [Function.update_of_ne]
      rintro rfl
      exact hid hx
    refine ⟨Function.update rank m.id top, top + 1, fun x hx => ?_, ?_⟩
    · by_cases he : x = m.id
      · simp [he]
      · have hx : x ∈ A := by simpa [Ne.symm he] using hx
        rw [hold x hx]
        exact Nat.lt_succ_of_lt (htop x hx)
    · rintro x y ⟨n, hn, hy⟩
      rw [Std.ExtTreeMap.getElem?_insert] at hn
      split at hn
      · next he =>
        obtain rfl := Option.some.inj hn
        obtain rfl : m.id = x := by simpa using he
        rw [hold y (hc y hy), Function.update_self]
        exact htop y (hc y hy)
      · have hx := mem_iff_exists_getElem?.2 ⟨n, hn⟩
        rw [hold x hx, hold y (h.child_mem hn hy)]
        exact hrank x y ⟨n, hn, hy⟩

theorem acyclic (h : A.Grown) (id : NodeId) : ¬ Relation.TransGen A.HasChild id id := by
  obtain ⟨rank, -, -, hrank⟩ := h.exists_rank
  have hlt {x y : NodeId} (hxy : Relation.TransGen A.HasChild x y) : rank y < rank x := by
    induction hxy with
    | single h => exact hrank _ _ h
    | tail _ h ih => exact (hrank _ _ h).trans ih
  exact fun hc => lt_irrefl _ (hlt hc)

end Arena.Grown

/-! ## Scopes -/

/-- Below a node, every recursive reference is met inside the node that it names, or names one of the
given nodes. -/
inductive Arena.Scoped (A : Arena) : Set NodeId → NodeId → Prop
  | mk {E : Set NodeId} {id : NodeId} {n : Node} (hn : A[id]? = some n)
      (ht : ∀ t, n.shape.recursionTarget? = some t → t ∈ insert id E)
      (hc : ∀ c ∈ n.shape.children, Scoped A (insert id E) c) : Scoped A E id

namespace Arena.Scoped

theorem mem (h : A.Scoped E id) : id ∈ A := by
  cases h with
  | mk hn _ _ => exact mem_iff_exists_getElem?.2 ⟨_, hn⟩

theorem mono (h : A.Scoped E id) (hA : Extends A B) (hE : E ⊆ F) : B.Scoped F id := by
  induction h generalizing F with
  | @mk E x n hn ht _ ih =>
    have hins : insert x E ⊆ insert x F := Set.insert_subset_insert hE
    exact .mk (hA _ _ hn) (fun t h => hins (ht t h)) fun c hc => ih c hc hins

theorem of_insert (h : A.Scoped (insert id E) id) : A.Scoped E id := by
  cases h with
  | mk hn ht hc =>
    rw [Set.insert_idem] at ht hc
    exact .mk hn ht hc

end Arena.Scoped

/-! ## Graphs -/

def Shape.isUnknown : Shape → Bool
  | .unknown .. => true
  | _ => false

namespace Graph

/-- A way down a graph from its root, with the nodes above, the last ones first. -/
inductive Route (g : Graph) : List NodeId → NodeId → Prop
  | root : Route g [] g.root
  | step {trail : List NodeId} {x y : NodeId} (h : Route g trail x) (hc : g.nodes.HasChild x y) :
    Route g (x :: trail) y

/-- A recursive reference is met only below the node that it names. The body of a declaration that
is just another name for itself is taken to be below itself. -/
structure WellFormed (g : Graph) : Prop where
  keyed : ∀ id n, g.node? id = some n → n.id = id
  root : g.root ∈ g.nodes
  child : ∀ id n, g.node? id = some n → ∀ c ∈ n.shape.children, c ∈ g.nodes
  target : ∀ id n, g.node? id = some n → ∀ t, n.shape.recursionTarget? = some t → t ∈ g.nodes
  acyclic : ∀ id, ¬ Relation.TransGen g.nodes.HasChild id id
  below : ∀ trail id n, g.Route trail id → g.node? id = some n →
    ∀ t, n.shape.recursionTarget? = some t → t ∈ id :: trail

theorem scoped_of_route {g : Graph} {trail : List NodeId} (hroot : g.nodes.Scoped ∅ g.root)
    (h : g.Route trail id) : g.nodes.Scoped {x | x ∈ trail} id := by
  induction h with
  | root => simpa using hroot
  | @step trail x y _ hc ih =>
    obtain ⟨n, hn, hy⟩ := hc
    cases ih with
    | mk hm _ hscoped =>
      obtain rfl := Option.some.inj (hm.symm.trans hn)
      have hins : insert x {z | z ∈ trail} = {z | z ∈ x :: trail} := by
        ext z
        simp
      exact hins ▸ hscoped y hy

theorem wellFormed_of_scoped {g : Graph} (hg : g.nodes.Grown) (hroot : g.nodes.Scoped ∅ g.root)
    (ht : ∀ id n, g.node? id = some n → ∀ t, n.shape.recursionTarget? = some t → t ∈ g.nodes) :
    g.WellFormed where
  keyed _ _ hn := hg.keyed hn
  root := hroot.mem
  child _ _ hn _ hc := hg.child_mem hn hc
  target := ht
  acyclic := hg.acyclic
  below trail id n hp hn t hnt := by
    cases scoped_of_route hroot hp with
    | mk hm hscoped _ =>
      obtain rfl := Option.some.inj (hm.symm.trans hn)
      simpa using hscoped t hnt

end Graph

/-! ## Rendering -/

/-- The values that a node holds can be written. -/
structure Node.Writable (n : Node) : Prop where
  literal : ∀ k x, n.shape = .literal k x → ∃ text, Json.compact x.toDatum = .ok text
  enum : ∀ ms, n.shape = .enum ms → ∀ m ∈ ms, ∃ text, Json.compact m.value.toDatum = .ok text

namespace Graph

variable {g : Graph}

theorem exists_renderLiteral {k : LiteralKind} {x : Scalar}
    (h : ∃ text, Json.compact x.toDatum = .ok text) : ∃ text, renderLiteral k x = .ok text := by
  cases k with
  | string => exact h
  | _ => exact ⟨_, rfl⟩

/-- The values in the nodes below a node can be written. -/
def Legible (g : Graph) (id : NodeId) : Prop :=
  ∀ x, Relation.ReflTransGen g.nodes.HasChild id x → ∀ n, g.node? x = some n → n.Writable

theorem Legible.child {n : Node} {id c : NodeId} (h : g.Legible id) (hn : g.node? id = some n)
    (hc : c ∈ n.shape.children) : g.Legible c :=
  fun x hx => h x (.head ⟨n, hn, hc⟩ hx)

theorem Legible.exists_renderWithin {id : NodeId} (h : g.Legible id) (levels : ℕ) :
    ∃ text, g.renderWithin levels id = .ok text := by
  induction levels generalizing id with
  | zero => exact ⟨_, rfl⟩
  | succ levels ih =>
    rw [renderWithin]
    cases hn : g.node? id with
    | none => exact ⟨_, rfl⟩
    | some n =>
      have hw := h id .refl n hn
      have hone {c : NodeId} (hc : c ∈ n.shape.children) := ih (h.child hn hc)
      have hall {ids : List NodeId} (hids : ∀ c ∈ ids, c ∈ n.shape.children) :
          ∃ texts, ids.mapM (g.renderWithin levels) = .ok texts :=
        exists_mapM fun c hc => hone (hids c hc)
      dsimp only
      cases hs : n.shape with
      | literal k x => exact exists_renderLiteral (hw.literal k x hs)
      | array e => exact exists_bind (hone (hs ▸ List.mem_cons_self)) fun _ _ => ⟨_, rfl⟩
      | tuple es => exact exists_bind (hall fun c hc => hs ▸ hc) fun _ _ => ⟨_, rfl⟩
      | union ms δ => exact exists_bind (hall fun c hc => hs ▸ hc) fun _ _ => ⟨_, rfl⟩
      | intersection ms => exact exists_bind (hall fun c hc => hs ▸ hc) fun _ _ => ⟨_, rfl⟩
      | object fs =>
        cases fs with
        | nil => exact ⟨_, rfl⟩
        | cons f fs =>
          refine exists_bind (exists_mapM fun f hf => ?_) fun _ _ => ⟨_, rfl⟩
          exact exists_bind (hone (hs ▸ List.mem_map_of_mem hf)) fun _ _ => ⟨_, rfl⟩
      | enum ms =>
        exact exists_bind
          (exists_mapM fun m hm => exists_bind (hw.enum ms hs m hm) fun _ _ => ⟨_, rfl⟩)
          fun _ _ => ⟨_, rfl⟩
      | _ => exact ⟨_, rfl⟩

/-- Every node of a graph that can be written can be rendered. -/
theorem exists_render (h : ∀ (id : NodeId) (n : Node), g.nodes[id]? = some n → n.Writable)
    (id : NodeId) : ∃ text, g.render id = .ok text :=
  Legible.exists_renderWithin (fun x _ n hn => h x n hn) _

end Graph

end TypeAtlas
