import TypeAtlas.Proofs.Digest.Legible
import TypeAtlas.Proofs.Normal.Settled

/-! # Normalized graphs and upright terms

Normalizing a graph folds it into a term and writes that out. A term is upright when every recursive
reference in it has a target, at the distance and the height of the place where the reference stands. No
closed term of an upright term is written out at another height than its own, so upright terms are settled,
and the arena of a graph that folds into one reads as the term does.
-/

namespace TypeAtlas

open Emission Folding Term

variable {d : Digester} {a : Algorithm} {S : Set String} {g : Graph} {t : Term} {r : Normalized}
  {c : CanonicalGraph} {st : State}

namespace Graph

/-- What a fold of the graph needs to know. -/
abbrev setting (d : Digester) (a : Algorithm) (g : Graph) : Setting := ⟨d, a, g, g.binders⟩

/-- A fold of the graph ends in a term. -/
def Folds (d : Digester) (a : Algorithm) (g : Graph) (t : Term) : Prop :=
  ∃ st, Ends (Folding.root (g.setting d a)) {} t st

/-- The texts that can be digested while a graph is normalized: those for the terms at which the fold
can arrive, and those for the names of terms that are written out. -/
def texts (d : Digester) (a : Algorithm) (g : Graph) : Set String :=
  {x | (∃ trail stack id t, Visited (g.setting d a) trail stack id ∧
      Derives (g.setting d a) True stack id t ∧ x ∈ t.encodings) ∨
    ∃ t u τ A, g.Folds d a t ∧ Asks d a t [] ∅ u τ A ∧ x ∈ u.nameTexts τ}

/-- The closed terms of the graph are written out at places of their own height. -/
def Settled (d : Digester) (a : Algorithm) (g : Graph) : Prop :=
  ∀ t, g.Folds d a t → t.Settled d a

theorem sound_nil {s : Setting} {loose : Prop} : Sound s loose {} := by
  intro id t h
  simp at h

theorem derives_of_ends_root {loose : Prop} (h : Ends (Folding.root (g.setting d a)) {} t st)
    (hl : loose ∨ Whole st ∧ Sturdy (g.setting d a)) :
    Derives (g.setting d a) loose [] g.root t :=
  (build_derives h sound_nil .root (by simp) rfl hl).1

theorem Folds.derives (h : g.Folds d a t) : Derives (g.setting d a) True [] g.root t :=
  let ⟨_, hst⟩ := h
  derives_of_ends_root hst (.inl trivial)

theorem Folds.unique {u : Term} (h : g.Folds d a t) (h' : g.Folds d a u) : t = u := by
  obtain ⟨st, hst⟩ := h
  obtain ⟨st', hst'⟩ := h'
  have := Except.ok.inj (Eq.trans (Eq.symm hst) hst')
  exact congrArg Prod.fst this

/-- A graph is normalized by folding it and writing out the term. -/
theorem normalize_eq_ok {deadline : Option Deadline} (h : g.normalize d a deadline = .ok r) :
    ∃ t st root nodes, Ends (Folding.root (g.setting d a)) { deadline } t st ∧
      Ends (Emission.emit d a t []) ∅ root nodes ∧
      r = ⟨st.sink.outcome (some { g with root, nodes, algorithm := a.name }), st.dead,
        st.deadline⟩ := by
  simp only [normalize, normalizeFrom] at h
  cases hf : (Folding.root (g.setting d a)).run { deadline } with
  | error e => simp [hf, bind, Except.bind] at h
  | ok p =>
    obtain ⟨t, st⟩ := p
    cases he : (Emission.emit d a t []).run ∅ with
    | error e => simp [hf, he, bind, Except.bind] at h
    | ok q =>
      simp only [hf, he, bind, Except.bind, pure, Except.pure, Except.ok.injEq] at h
      exact ⟨t, st, q.1, q.2, hf, he, h.symm⟩

def canonical? (d : Digester) (a : Algorithm) (g : Graph) : Option CanonicalGraph :=
  match g.normalize d a with
  | .ok n => n.outcome.value
  | .error _ => none

theorem canonical?_eq_some :
    g.canonical? d a = some c ↔ ∃ n, g.normalize d a = .ok n ∧ n.outcome.value = some c := by
  unfold canonical?
  cases g.normalize d a <;> simp

theorem Folds.spelled {root : NodeId} {A : Arena} (h : g.Folds d a t)
    (hemit : Ends (Emission.emit d a t []) ∅ root A) (hS : d.CollisionFree a S)
    (hsub : g.texts d a ⊆ S) : Spelled d a S t root A where
  formed := h.derives.sits.formed
  run := hemit
  free := hS
  encodings := fun _ hx => hsub (.inl ⟨[], [], g.root, t, .root, h.derives, hx⟩)
  names := fun u τ B hu _ hx => hsub (.inr ⟨t, u, τ, B, h, hu, hx⟩)

/-- Writing out the term of a settled graph gives an arena that reads as the term does. -/
theorem Folds.laid {root : NodeId} {A : Arena} (h : g.Folds d a t)
    (hemit : Ends (Emission.emit d a t []) ∅ root A) (hS : d.CollisionFree a S)
    (hsub : g.texts d a ⊆ S) (hset : g.Settled d a) : Laid d a S t root A where
  toSpelled := h.spelled hemit hS hsub
  level := h.derives.sits.level
  settled := hset t h

/-- The arena of a normalized graph is that of the term into which it folds. -/
theorem exists_laid (hc : g.canonical? d a = some c)
    (hS : d.CollisionFree a S) (hsub : g.texts d a ⊆ S) (hset : g.Settled d a) :
    ∃ t, g.Folds d a t ∧ Laid d a S t c.root c.nodes := by
  obtain ⟨n, hn, hc⟩ := canonical?_eq_some.1 hc
  obtain ⟨t, st, root, nodes, hfold, hemit, rfl⟩ := normalize_eq_ok hn
  obtain rfl := Option.some.inj hc
  have hf : g.Folds d a t := ⟨st, hfold⟩
  exact ⟨t, hf, hf.laid hemit hS hsub hset⟩

end Graph

/-! ## Upright terms -/

namespace Term

variable {u c : Term} {τ σ : List NodeId} {A B : Arena} {n : ℕ}

/-- A recursive reference below `n` targets fits its place; other shapes fit anywhere. -/
def fits (n : ℕ) : TermShape → Bool
  | .recursiveRef _ _ link => link.any fun p => p.1 + p.2 + 1 == n
  | _ => true

mutual

/-- Every recursive reference of a term that stands below `n` targets fits its place. -/
def upright (n : ℕ) : Term → Bool
  | mk h cs => fits (n + h.binder.toNat) h.shape && uprightAll (n + h.binder.toNat) cs

def uprightAll (n : ℕ) : List Term → Bool
  | [] => true
  | t :: ts => upright n t && uprightAll n ts

end

theorem uprightAll_eq (n : ℕ) (ts : List Term) : uprightAll n ts = ts.all (upright n) := by
  induction ts with
  | nil => rfl
  | cons t ts ih => rw [uprightAll, ih, List.all_cons]

theorem upright_iff : t.upright n ↔
    fits (n + t.depth) t.shape ∧ ∀ c ∈ t.children, c.upright (n + t.depth) := by
  cases t with
  | mk h cs =>
    have hd : h.binder.toNat = (mk h cs).depth := by cases hb : h.binder <;> simp [depth, hb]
    rw [upright, uprightAll_eq, hd, Bool.and_eq_true, List.all_eq_true, shape_mk, children_mk]

theorem fits_ownLinks {shape : TermShape} (h : fits n shape) {p : ℕ × ℕ} (hp : p ∈ ownLinks shape) :
    p.1 + p.2 + 1 = n := by
  cases shape with
  | recursiveRef _ _ link =>
    cases link with
    | none => cases hp
    | some q =>
      obtain rfl := List.mem_singleton.1 hp
      simpa [fits] using h
  | _ => cases hp

theorem placed_of_upright (h : t.upright n) : t.Placed n := by
  induction t generalizing n with
  | mk head cs ih =>
    obtain ⟨hown, hcs⟩ := upright_iff.1 h
    intro p hp
    rcases mem_inward.1 hp with hp | ⟨c, hc, hp⟩
    · exact fits_ownLinks hown hp
    · exact (ih c hc (hcs c hc)).level p hp

theorem Asks.upright (h : Asks d a t τ A u σ B) (ht : t.upright τ.length) :
    u.upright σ.length := by
  induction h with
  | here => exact ht
  | deeper _ _ hc _ _ ih =>
    refine ih ?_
    rw [length_inner]
    exact (upright_iff.1 ht).2 _ (by simp [hc])

theorem settled_of_upright (h : t.upright 0) : t.Settled d a :=
  fun _ _ _ hask _ _ => placed_of_upright (hask.upright h)

/-- No recursive reference of a term has lost its target. -/
def Linked (t : Term) : Prop :=
  t.Throughout fun u => ∀ symbol raw, u.shape ≠ .recursiveRef symbol raw none

theorem linked_of_upright (h : t.upright n) : t.Linked := by
  induction t generalizing n with
  | mk head cs ih =>
    obtain ⟨hown, hcs⟩ := upright_iff.1 h
    refine .of_children (fun symbol raw hs => ?_) fun c hc => ih c hc (hcs c hc)
    simp [hs, fits] at hown

theorem Linked.detached (h : t.Linked) : t.Detached A :=
  fun u hu symbol raw hs => absurd hs (h u hu symbol raw)

end Term

namespace Graph

/-- If a graph folds, it does so into an upright term. -/
def upright (d : Digester) (a : Algorithm) (g : Graph) : Bool :=
  match (Folding.root (g.setting d a)).run {} with
  | .ok (t, _) => t.upright 0
  | .error _ => true

theorem Folds.upright (h : g.Folds d a t) (hg : g.upright d a) : t.upright 0 := by
  obtain ⟨st, hst⟩ := h
  have hrun : (Folding.root (g.setting d a)).run {} = .ok (t, st) := hst
  rwa [Graph.upright, hrun] at hg

theorem settled_of_upright (h : g.upright d a) : g.Settled d a :=
  fun _ ht => Term.settled_of_upright (ht.upright h)

theorem linked_of_upright (h : g.upright d a) : ∀ t, g.Folds d a t → t.Linked :=
  fun _ ht => Term.linked_of_upright (ht.upright h)

/-! ## Samples -/

def ofNodes (root : NodeId) (nodes : List Node) : Graph :=
  { root, nodes := .ofList (nodes.map fun n => (n.id, n)), symbol := "Type", filePath := "type.ts" }

theorem mem_of_node?_ofNodes {root id : NodeId} {nodes : List Node} {n : Node}
    (h : (ofNodes root nodes).node? id = some n) : n ∈ nodes := by
  change (ofNodes root nodes).nodes[id]? = some n at h
  rw [ofNodes, Std.ExtTreeMap.ofList_eq_insertMany_empty, Std.ExtTreeMap.getElem?_insertMany_list,
    Std.ExtTreeMap.getElem?_empty, Option.or_none, List.findSomeRev?_eq_findSome?_reverse] at h
  obtain ⟨p, hp, hn⟩ := List.exists_of_findSome?_eq_some h
  obtain ⟨m, hm, rfl⟩ := List.mem_map.1 (List.mem_reverse.1 hp)
  obtain ⟨-, hn⟩ := Option.ite_none_right_eq_some.1 hn
  exact Option.some.inj hn ▸ hm

def nested : Graph := ofNodes "X" [
  ⟨"X", .array "U", [], none⟩, ⟨"U", .union ["S", "R"] none, [], none⟩,
  ⟨"S", .primitive .string, [], none⟩, ⟨"R", .recursiveRef "X" "Nested", [], none⟩]

def endless : Graph := ofNodes "X" [
  ⟨"X", .array "R", [], none⟩, ⟨"R", .recursiveRef "X" "Endless", [], none⟩]

def repeated : Graph := ofNodes "Either" [
  ⟨"Either", .union ["One", "Other"] none, [], none⟩, ⟨"One", .array "A", [], none⟩,
  ⟨"Other", .array "B", [], some { file := "other.ts" }⟩, ⟨"A", .recursiveRef "One" "One", [], none⟩,
  ⟨"B", .recursiveRef "Other" "Other", [], none⟩]

theorem nested_upright : nested.upright .legible .sha256 := by decide +kernel

theorem endless_upright : endless.upright .legible .sha256 := by decide +kernel

theorem repeated_upright : repeated.upright .legible .sha256 := by decide +kernel

end Graph

end TypeAtlas
