import Mathlib.Logic.Relation
import TypeAtlas.Proofs.Normal.Filed

/-! # Settled terms

The children of every node in a term's arena are filed, wherever the closed terms in it were folded. Terms
with the same name say the same, so the nodes below a node are those of lower terms, and the node of a
name that was new is that of the term for which it was asked: the arena is acyclic, and all of it is
reached from the root.

A closed term can stand below any number of targets, yet the heights in it are those of the place
where it was folded. A term is settled when each of its closed terms is written out at a place of
that height. The arena of a settled term reads as the term does: nodes are recursion targets exactly
if the terms are, and recursive references lead to the targets at their distances.
-/

namespace TypeAtlas.Term

open Emission

section Spelling

variable {d : Digester} {a : Algorithm} {S : Set String} {t u v c : Term} {ts cs : List Term}
  {τ σ ρ ids : List NodeId} {id root x y : NodeId} {n : Node} {A B C : Arena} {e : Entry}

/-! ## Asking -/

theorem Asks.trans (h : Asks d a t τ A u σ B) (h' : Asks d a u σ B v ids C) :
    Asks d a t τ A v ids C := by
  induction h with
  | here => exact h'
  | deeper hn hnew hc hb _ ih => exact .deeper hn hnew hc hb (ih h')

theorem Asks.child {before after : List Term} (h : Asks d a t τ A u σ B) (hn : u.Named d a σ id)
    (hnew : id ∉ B) (hc : u.children = before ++ c :: after)
    (hb : Ends (emitAll d a before (u.inner σ id)) B ids C) :
    Asks d a t τ A c (u.inner σ id) C :=
  h.trans (.deeper hn hnew hc hb .here)

theorem extends_of_ends_emitAll
    (ih : ∀ c ∈ ts, ∀ A i B, Ends (emit d a c τ) A i B → Extends A B ∧ i ∈ B)
    (h : Ends (emitAll d a ts τ) A ids B) : Extends A B := by
  induction ts generalizing A ids with
  | nil =>
    obtain ⟨-, rfl⟩ := ends_emitAll_nil.1 h
    exact .refl _
  | cons t ts ihts =>
    obtain ⟨i, C, rest, hi, hrest, -⟩ := ends_emitAll_cons.1 h
    exact (ih t List.mem_cons_self _ _ _ hi).1.trans
      (ihts (fun c hc => ih c (List.mem_cons_of_mem _ hc)) hrest)

theorem extends_of_ends_emit (h : Ends (emit d a t τ) A id B) : Extends A B ∧ id ∈ B := by
  induction t generalizing τ A id B with
  | mk head cs ih =>
    obtain ⟨-, ⟨hmem, rfl⟩ | ⟨-, ids, C, target, hall, -, rfl⟩⟩ := ends_emit h
    · exact ⟨.refl _, hmem⟩
    · exact ⟨(extends_of_ends_emitAll (fun c hc A i B h => ih c hc h) hall).trans
        (extends_insertIfNew _), mem_insertIfNew _⟩

/-- What is asked for while a term is written out is written out itself. -/
theorem Asks.ends (h : Asks d a t τ A u σ C) (hr : Ends (emit d a t τ) A id B) :
    ∃ x D, Ends (emit d a u σ) C x D ∧ Extends D B := by
  induction h generalizing id B with
  | here => exact ⟨id, B, hr, .refl _⟩
  | @deeper t c u τ σ ids A C _ i before after hn hnew hc hb _ ih =>
    have hext {ts τ A ids B} (h : Ends (emitAll d a ts τ) A ids B) : Extends A B :=
      extends_of_ends_emitAll (fun _ _ _ _ _ => extends_of_ends_emit) h
    obtain ⟨hname, ⟨hmem, -⟩ | ⟨-, ids', D, target, hall, -, rfl⟩⟩ := ends_emit hr
    · exact absurd (hn.unique hname ▸ hmem) hnew
    · obtain rfl := hn.unique hname
      rw [hc] at hall
      obtain ⟨ids₁, E, ids₂, h₁, h₂, -⟩ := ends_emitAll_append.1 hall
      obtain ⟨-, rfl⟩ : ids = ids₁ ∧ C = E := by
        simpa using Except.ok.inj (Eq.trans (Eq.symm hb) h₁)
      obtain ⟨j, F, rest, hj, hrest, -⟩ := ends_emitAll_cons.1 h₂
      obtain ⟨x, G, hx, hG⟩ := ih hj
      exact ⟨x, G, hx, hG.trans ((hext hrest).trans (extends_insertIfNew _))⟩

theorem forall₂_named_of_ends_emitAll (h : Ends (emitAll d a ts τ) A ids B) :
    List.Forall₂ (fun c i => c.Named d a τ i) ts ids := by
  induction ts generalizing A ids with
  | nil =>
    obtain ⟨rfl, -⟩ := ends_emitAll_nil.1 h
    exact .nil
  | cons t ts ih =>
    obtain ⟨i, C, rest, hi, hrest, rfl⟩ := ends_emitAll_cons.1 h
    exact .cons (ends_emit hi).1 (ih hrest)

theorem named_of_ends_emitAll {D : Arena} {ids₀ : List NodeId} {done : List Term}
    (ih : ∀ c ∈ t.children, ∀ τ A i B, Ends (emit d a c τ) A i B → x ∈ B →
      x ∈ A ∨ ∃ u σ C, Asks d a c τ A u σ C ∧ u.Named d a σ x)
    (hn : t.Named d a τ id) (hnew : id ∉ D) (hc : t.children = done ++ cs)
    (hdone : Ends (emitAll d a done (t.inner τ id)) D ids₀ A)
    (h : Ends (emitAll d a cs (t.inner τ id)) A ids B) (hx : x ∈ B) :
    x ∈ A ∨ ∃ u σ C, Asks d a t τ D u σ C ∧ u.Named d a σ x ∧ u.height < t.height := by
  induction cs generalizing A ids ids₀ done with
  | nil =>
    obtain ⟨-, rfl⟩ := ends_emitAll_nil.1 h
    exact .inl hx
  | cons c cs ihcs =>
    obtain ⟨i, C, rest, hi, hrest, rfl⟩ := ends_emitAll_cons.1 h
    have hmem : c ∈ t.children := by simp [hc]
    have hdone' : Ends (emitAll d a (done ++ [c]) (t.inner τ id)) D (ids₀ ++ [i]) C :=
      ends_emitAll_append.2 ⟨ids₀, A, [i], hdone,
        ends_emitAll_cons.2 ⟨i, C, [], hi, ends_emitAll_nil.2 ⟨rfl, rfl⟩, rfl⟩, rfl⟩
    rcases ihcs (by simp [hc]) hdone' hrest with hC | hlower
    · rcases ih c hmem _ _ _ _ hi hC with hA | ⟨u, σ, E, hu, hname⟩
      · exact .inl hA
      · exact .inr ⟨u, σ, E, .deeper hn hnew hc hdone hu, hname,
          hu.sub.height_le.trans_lt (height_lt_of_mem_children hmem)⟩
    · exact .inr hlower

theorem named_of_ends_emit (h : Ends (emit d a t τ) A id B) (hx : x ∈ B) :
    x ∈ A ∨ ∃ u σ C, Asks d a t τ A u σ C ∧ u.Named d a σ x := by
  induction t generalizing τ A id B with
  | mk head cs ih =>
    obtain ⟨hn, ⟨-, rfl⟩ | ⟨hnew, ids, C, target, hall, -, rfl⟩⟩ := ends_emit h
    · exact .inl hx
    · rcases Std.ExtTreeMap.mem_insertIfNew.1 hx with he | hx
      · obtain rfl : id = x := by simpa using he
        exact .inr ⟨_, _, _, .here, hn⟩
      · refine (named_of_ends_emitAll (t := .mk head cs) (fun c hc τ A i B h hx => ih c hc h hx) hn hnew
          (List.nil_append _).symm (ends_emitAll_nil.2 ⟨rfl, rfl⟩) hall hx).imp_right ?_
        rintro ⟨u, σ, E, hu, hname, -⟩
        exact ⟨u, σ, E, hu, hname⟩

/-! ## Arenas -/

/-- A node is built from the other, at some depth. -/
def Reaches (A : Arena) : NodeId → NodeId → Prop := Relation.ReflTransGen A.HasChild

/-- A term is written out on its own. None of the texts that are digested collide. -/
structure Spelled (d : Digester) (a : Algorithm) (S : Set String) (t : Term) (root : NodeId)
    (A : Arena) : Prop where
  formed : t.Throughout (Formed d a)
  run : Ends (emit d a t []) ∅ root A
  free : d.CollisionFree a S
  encodings : t.encodings ⊆ S
  names : ∀ u τ B, Asks d a t [] ∅ u τ B → u.nameTexts τ ⊆ S

theorem Written.node_eq (he : Written d a t A id e) (hn : A[id]? = some n) : n = e.node id :=
  Option.some.inj (hn.symm.trans he.node)

namespace Spelled

theorem formed_of_asks (h : Spelled d a S t root A) (hu : Asks d a t [] ∅ u τ B) :
    u.Throughout (Formed d a) := h.formed.sub hu.sub

theorem filed (h : Spelled d a S t root A) : Filed d a t A :=
  (filed_of_emit h.run (fun _ _ _ h => h) fun _ hn => by simp at hn).1

theorem named (h : Spelled d a S t root A) : t.Named d a [] root := (ends_emit h.run).1

theorem formed_of_written (h : Spelled d a S t root A) (he : Written d a t A id e) :
    e.term.Throughout (Formed d a) := h.formed_of_asks he.asked.choose_spec.1

/-- Terms with the same name say the same. -/
theorem twin (h : Spelled d a S t root A) (hu : Asks d a t [] ∅ u τ B) (hv : Asks d a t [] ∅ v σ C)
    (hun : u.Named d a τ id) (hvn : v.Named d a σ id) : Twin u v ∧ u.digest = v.digest := by
  have hus := hu.sub.encodings_subset.trans h.encodings
  have hvs := hv.sub.encodings_subset.trans h.encodings
  have huf := h.formed_of_asks hu
  have hvf := h.formed_of_asks hv
  obtain ⟨hd, -⟩ := hun.same h.free huf.here hvf.here hus hvs (h.names _ _ _ hu) (h.names _ _ _ hv) hvn
  exact ⟨twin_of_digest h.free huf hvf hus hvs hd, hd⟩

/-! ### Nodes -/

theorem children_node (h : Spelled d a S t root A) (he : Written d a t A id e) :
    (e.node id).shape.children = e.names :=
  outline_children _ (h.formed_of_written he).here.covers he.children.length_eq.symm

theorem exists_written (h : Spelled d a S t root A) (hn : A[id]? = some n) :
    ∃ e, Written d a t A id e ∧ n = e.node id := by
  obtain ⟨e, he⟩ := h.filed id (mem_iff_exists_getElem?.2 ⟨n, hn⟩)
  exact ⟨e, he, he.node_eq hn⟩

theorem exists_written_child (h : Spelled d a S t root A) (he : Written d a t A id e)
    (hx : x ∈ e.names) :
    ∃ f, Written d a t A x f ∧ ∃ c ∈ e.term.children, Twin c f.term ∧ c.digest = f.term.digest := by
  obtain ⟨i, hi, rfl⟩ := List.getElem_of_mem hx
  have hj : i < e.term.children.length := he.children.length_eq ▸ hi
  obtain ⟨hname, hmem, B, hask⟩ := he.children.get hj hi
  obtain ⟨f, hf⟩ := h.filed _ hmem
  obtain ⟨C, haskf, -⟩ := hf.asked
  exact ⟨f, hf, _, List.getElem_mem hj, h.twin hask haskf hname hf.named⟩

theorem exists_written_below (h : Spelled d a S t root A) (he : Written d a t A x e)
    (hxy : A.HasChild x y) : ∃ f, Written d a t A y f ∧ f.term.height < e.term.height := by
  obtain ⟨n, hn, hy⟩ := hxy
  rw [he.node_eq hn, h.children_node he] at hy
  obtain ⟨f, hf, c, hc, htwin, -⟩ := h.exists_written_child he hy
  exact ⟨f, hf, htwin.height ▸ height_lt_of_mem_children hc⟩

theorem child_mem (h : Spelled d a S t root A) (hxy : A.HasChild x y) : y ∈ A := by
  obtain ⟨n, hn, -⟩ := id hxy
  obtain ⟨e, he, -⟩ := h.exists_written hn
  obtain ⟨f, hf, -⟩ := h.exists_written_below he hxy
  exact mem_iff_exists_getElem?.2 ⟨_, hf.node⟩

/-- Terms get lower on the way down. -/
theorem acyclic (h : Spelled d a S t root A) (id : NodeId) :
    ¬ Relation.TransGen A.HasChild id id := by
  have hlower {x y : NodeId} (hxy : Relation.TransGen A.HasChild x y) :
      ∀ e, Written d a t A x e → ∃ f, Written d a t A y f ∧ f.term.height < e.term.height := by
    induction hxy with
    | single hxy => exact fun e he => h.exists_written_below he hxy
    | tail _ hyz ih =>
      intro e he
      obtain ⟨f, hf, hlt⟩ := ih e he
      obtain ⟨f', hf', hlt'⟩ := h.exists_written_below hf hyz
      exact ⟨f', hf', hlt'.trans hlt⟩
  intro hcycle
  obtain ⟨n, hn, -⟩ := (Relation.TransGen.head'_iff.1 hcycle).choose_spec.1
  obtain ⟨e, he, -⟩ := h.exists_written hn
  obtain ⟨f, hf, hlt⟩ := hlower hcycle e he
  obtain ⟨B, haske, -⟩ := he.asked
  obtain ⟨C, haskf, -⟩ := hf.asked
  exact hlt.ne (h.twin haskf haske hf.named he.named).1.height

/-! ### Reaching -/

/-- The node of a name that was new is that of the term for which it was asked: no lower term has the
name. -/
theorem node_of_asks (h : Spelled d a S t root A) (hv : Asks d a t [] ∅ v σ B)
    (hy : v.Named d a σ y) (hnew : y ∉ B) :
    ∃ n, A[y]? = some n ∧
      List.Forall₂ (fun c i => c.Named d a (v.inner σ y) i) v.children n.shape.children := by
  obtain ⟨x, D, hx, hext⟩ := hv.ends h.run
  obtain ⟨hname, ⟨hmem, -⟩ | ⟨-, ids, C, target, hall, -, rfl⟩⟩ := ends_emit hx
  · exact absurd (hy.unique hname ▸ hmem) hnew
  · obtain rfl := hy.unique hname
    have hout : y ∉ C := fun hmem => by
      obtain hB | ⟨u, ρ, E, hu, hun, hlt⟩ := named_of_ends_emitAll
        (fun c _ τ A i B h hx => named_of_ends_emit h hx) hy hnew (List.nil_append _).symm
        (ends_emitAll_nil.2 ⟨rfl, rfl⟩) hall hmem
      · exact hnew hB
      · exact hlt.ne (h.twin (hv.trans hu) hv hun hy).1.height
    refine ⟨_, hext y _ (getElem?_insertIfNew.trans (if_pos ⟨rfl, hout⟩)), ?_⟩
    have hnamed := forall₂_named_of_ends_emitAll hall
    rw [outline_children target (h.formed_of_asks hv).here.covers hnamed.length_eq.symm]
    exact hnamed

theorem reaches_of_asks (h : Spelled d a S t root A) (hv : Asks d a t [] ∅ v σ B)
    (hy : v.Named d a σ y) (hu : Asks d a v σ B u ρ C) (hx : u.Named d a ρ x) : Reaches A y x := by
  induction hu generalizing y with
  | here => exact hy.unique hx ▸ .refl
  | @deeper v c u σ ρ ids B D C i before after hn hnew hc hb hu ih =>
    obtain rfl := hy.unique hn
    obtain ⟨n, hnode, hnames⟩ := h.node_of_asks hv hy hnew
    rw [hc] at hnames
    have hlen : before.length < n.shape.children.length := by simp [← hnames.length_eq]
    have hname : c.Named d a (v.inner σ y) n.shape.children[before.length] := by
      simpa using hnames.get (i := before.length) (by simp) hlen
    exact .head ⟨n, hnode, List.getElem_mem hlen⟩ (ih (hv.child hy hnew hc hb) hname hx)

/-- Every node of the arena of a term is reached from its root. -/
theorem reaches (h : Spelled d a S t root A) (hid : id ∈ A) : Reaches A root id := by
  obtain ⟨e, he⟩ := h.filed id hid
  obtain ⟨B, hask, -⟩ := he.asked
  exact h.reaches_of_asks .here h.named hask he.named

end Spelled

end Spelling

variable {d : Digester} {a : Algorithm} {S : Set String} {t u v c : Term} {ts cs : List Term}
  {τ σ ids : List NodeId} {id x : NodeId} {A B C : Arena} {k l n : ℕ}

/-! ## Targets that were asked for -/

theorem Asks.target (h : Asks d a t τ A u σ C) (hx : x ∈ σ) :
    x ∈ τ ∨ ∃ b ρ D, Asks d a t τ A b ρ D ∧ b.Named d a ρ x ∧ b.binder := by
  induction h with
  | here => exact .inl hx
  | @deeper t c u τ σ ids A C _ i before after hn hnew hc hb _ ih =>
    rcases ih hx with hin | ⟨b, ρ, D, hask, hname, hbind⟩
    · unfold inner at hin
      split at hin
      · next ht =>
        rcases List.mem_append.1 hin with hin | hin
        · exact .inl hin
        · obtain rfl := List.mem_singleton.1 hin
          exact .inr ⟨t, τ, A, .here, hn, ht⟩
      · exact .inl hin
    · exact .inr ⟨b, ρ, D, .deeper hn hnew hc hb hask, hname, hbind⟩

/-! ## Levels -/

/-- Whenever a closed term is written out anew, it stands right below as many targets as enclose
it. -/
def Settled (d : Digester) (a : Algorithm) (t : Term) : Prop :=
  ∀ u τ A, Asks d a t [] ∅ u τ A → u.free.isEmpty → u.digest ∉ A → u.Placed τ.length

theorem length_inner : (t.inner τ id).length = τ.length + t.depth := by
  unfold inner depth
  split <;> simp

/-- The targets that enclose what is below a term, the innermost first. -/
def push (t : Term) (id : NodeId) (stack : List NodeId) : List NodeId :=
  if t.binder then id :: stack else stack

theorem reverse_inner : (t.inner τ id).reverse = t.push id τ.reverse := by
  unfold inner push
  split <;> simp

theorem getElem?_push_add_depth {stack : List NodeId} :
    (t.push id stack)[k + t.depth]? = stack[k]? := by
  unfold push depth
  split <;> simp

theorem length_push {stack : List NodeId} : (t.push id stack).length = stack.length + t.depth := by
  unfold push depth
  split <;> simp

/-- Targets that agree on what a term refers to from outside agree on what it refers to from
inside. -/
theorem Agree.push {stack stack' : List NodeId} (h : ∀ k ∈ t.reach, stack[k]? = stack'[k]?)
    (hk : (k, l) ∈ t.inward) : (t.push id stack)[k]? = (t.push id stack')[k]? := by
  by_cases hlt : k < t.depth
  · have hb : t.binder = true := by
      by_contra hb
      simp [depth, hb] at hlt
    obtain rfl : k = 0 := by simpa [depth, hb] using hlt
    simp [Term.push, hb]
  · obtain ⟨j, rfl⟩ := Nat.exists_eq_add_of_le' (Nat.le_of_not_lt hlt)
    rw [getElem?_push_add_depth, getElem?_push_add_depth]
    exact h j (mem_reach.2 ⟨l, mem_links.2 hk⟩)

/-- An open term stands right below as many targets as it refers to them from. -/
theorem Level.placed (h : t.Level n) (hf : t.Formed d a) (hc : t.free.isEmpty → t.Placed n) :
    t.Placed n := by
  by_cases hl : t.links = []
  · exact hc (hf.links_eq_nil.1 hl)
  · obtain ⟨m, hm⟩ := hf.placed
    obtain ⟨p, hp⟩ := List.exists_mem_of_ne_nil _ hl
    obtain rfl : m = n := (hm.level p hp).symm.trans (h p hp)
    exact hm

theorem Asks.level (h : Asks d a t τ A u σ C) (hf : t.Throughout (Formed d a))
    (hs : ∀ v ρ D, Asks d a t τ A v ρ D → v.free.isEmpty → v.digest ∉ D → v.Placed ρ.length)
    (ht : t.Level τ.length) : u.Level σ.length := by
  induction h with
  | here => exact ht
  | @deeper t c u τ σ ids A C _ i before after hn hnew hc hb _ ih =>
    have hmem : c ∈ t.children := by simp [hc]
    refine ih (hf.child hmem) (fun v ρ D hv => hs v ρ D (.deeper hn hnew hc hb hv)) ?_
    rw [length_inner]
    refine (ht.placed hf.here fun hempty => hs _ _ _ .here hempty ?_).child hmem
    cases hn with
    | closed _ hd => exact hd ▸ hnew
    | opened ho _ _ => simp [hempty] at ho

/-! ## Arenas of settled terms -/

/-- A term is written out on its own. None of the texts that are digested collide, and the term is
settled. -/
structure Laid (d : Digester) (a : Algorithm) (S : Set String) (t : Term) (root : NodeId)
    (A : Arena) : Prop extends Spelled d a S t root A where
  level : t.Level 0
  settled : t.Settled d a

/-- No recursive reference that has lost its target names a node of the arena. -/
def Detached (t : Term) (A : Arena) : Prop :=
  ∀ u : Term, u.Sub t → ∀ symbol raw, u.shape = .recursiveRef symbol raw none → raw ∉ A

namespace Laid

variable {t' : Term} {root root' : NodeId} {A' B' : Arena} {e e' : Entry}

theorem level_of_asks (h : Laid d a S t root A) (hu : Asks d a t [] ∅ u τ B) : u.Level τ.length :=
  hu.level h.formed h.settled h.level

theorem agree (h : Laid d a S t root A) (h' : Laid d a S t' root' A')
    (hu : Asks d a t [] ∅ u τ B) (hv : Asks d a t' [] ∅ v σ B') (hun : u.Named d a τ id)
    (hvn : v.Named d a σ id) : Twin u v ∧ u.digest = v.digest ∧ u.Agree τ σ :=
  hun.agree h.free (h.formed_of_asks hu) (h'.formed_of_asks hv)
    (hu.sub.encodings_subset.trans h.encodings) (hv.sub.encodings_subset.trans h'.encodings)
    (h.names _ _ _ hu) (h'.names _ _ _ hv) (h.level_of_asks hu) (h'.level_of_asks hv) hvn

theorem level_of_written (h : Laid d a S t root A) (he : Written d a t A id e) :
    e.term.Level e.under.length := h.level_of_asks he.asked.choose_spec.1

theorem agree_of_written (h : Laid d a S t root A) (h' : Laid d a S t' root' A')
    (he : Written d a t A id e) (he' : Written d a t' A' id e') :
    Twin e.term e'.term ∧ e.term.digest = e'.term.digest ∧ e.term.Agree e.under e'.under := by
  obtain ⟨B, hask, -⟩ := he.asked
  obtain ⟨C, hask', -⟩ := he'.asked
  exact h.agree h' hask hask' he.named he'.named

theorem placed_of_asks (h : Laid d a S t root A) (hu : Asks d a t [] ∅ u τ B)
    (hn : u.Named d a τ id) (hnew : id ∉ B) : u.Placed τ.length := by
  refine (h.level_of_asks hu).placed (h.formed_of_asks hu).here fun hc => h.settled u τ B hu hc ?_
  cases hn with
  | closed _ hd => exact hd ▸ hnew
  | opened ho _ _ => simp [hc] at ho

theorem placed (h : Laid d a S t root A) (he : Written d a t A id e) :
    e.term.Placed e.under.length := by
  obtain ⟨B, hask, hnew⟩ := he.asked
  exact h.placed_of_asks hask he.named hnew

/-- The terms below a term have the names that are in the node, also when the node was written for
another term of that name. -/
theorem children_named (h : Laid d a S t root A) (h' : Laid d a S t' root' A')
    (he : Written d a t A id e) (hv : Asks d a t' [] ∅ v σ B') (hn : v.Named d a σ id)
    (hp : v.Placed σ.length) :
    List.Forall₂ (fun c i => c.Named d a (v.inner σ id) i) v.children e.names := by
  obtain ⟨B, hask, -⟩ := he.asked
  obtain ⟨htwin, -, hag⟩ := h.agree h' hask hv he.named hn
  refine List.forall₂_iff_get.2 ⟨htwin.length.symm.trans he.children.length_eq, fun i hi hj => ?_⟩
  have hi' : i < e.term.children.length := htwin.length ▸ hi
  have hc := List.getElem_mem hi'
  have hc' := List.getElem_mem hi
  have hd := List.getElem_of_eq htwin.alike.children (i := i) (by simpa using hi')
  refine (he.children.get hi' hj).1.of_agree ((h.formed_of_asks hask).child hc).here
    ((h'.formed_of_asks hv).child hc').here ?_ ?_ (htwin.child hi' hi) (by simpa using hd)
    fun k hk => ?_
  · rw [Entry.inner, length_inner]
    exact (h.placed he).child hc
  · rw [length_inner]
    exact hp.child hc'
  · obtain ⟨l, hl⟩ := mem_reach.1 hk
    rw [Entry.inner, reverse_inner, reverse_inner, push, push, ← htwin.binder, ← push, ← push]
    exact Agree.push hag (mem_inward_of_child hc hl)

theorem child (h : Laid d a S t root A) (he : Written d a t A id e) {i : ℕ}
    (hi : i < e.term.children.length) (hj : i < e.names.length) :
    ∃ f, Written d a t A e.names[i] f ∧ Twin e.term.children[i] f.term ∧
      e.term.children[i].digest = f.term.digest ∧
      e.term.children[i].Agree (e.inner id) f.under := by
  obtain ⟨hname, hmem, B, hask⟩ := he.children.get hi hj
  obtain ⟨f, hf⟩ := h.filed _ hmem
  obtain ⟨C, haskf, -⟩ := hf.asked
  exact ⟨f, hf, h.agree h hask haskf hname hf.named⟩

/-- The node of a recursive reference names the target at the reference's distance. -/
theorem link (h : Laid d a S t root A) (he : Written d a t A id e)
    (hk : (k, l) ∈ ownLinks e.term.shape) : (e.inner id).reverse[k]? = some e.target := by
  have hp := h.placed he _ (mem_inward.2 (.inl hk))
  have hl := he.link _ hk
  simp only at hp hl
  rw [← hl, List.getElem?_reverse (by rw [Entry.inner, length_inner]; omega), Entry.inner,
    length_inner]
  congr 1
  omega

theorem follow (h : Laid d a S t root A) (he : Written d a t A id e)
    (hk : (k, l) ∈ e.term.inward) :
    ∃ (y : NodeId) (m : Node), A[y]? = some m ∧
      m.shape.recursionTarget? = (e.inner id).reverse[k]? := by
  induction hn : e.term.height using Nat.strong_induction_on generalizing e id k l with
  | _ n ih =>
    rcases mem_inward.1 hk with ho | ⟨c, hc, hcl⟩
    · refine ⟨id, _, he.node, ?_⟩
      rw [h.link he ho, Entry.node]
      cases hs : e.term.shape with
      | recursiveRef symbol raw link =>
        cases link with
        | none => simp [hs, ownLinks] at ho
        | some p => rfl
      | _ => simp [hs, ownLinks] at ho
    · obtain ⟨i, hi, rfl⟩ := List.getElem_of_mem hc
      obtain ⟨f, hf, htwin, -, hag⟩ := h.child he hi (he.children.length_eq ▸ hi)
      obtain ⟨j, hj⟩ := htwin.exists_mem_inward (mem_links.1 hcl)
      have hlt : f.term.height < n := htwin.height ▸ hn ▸ height_lt_of_mem_children hc
      obtain ⟨y, m, hy, hyt⟩ := ih _ hlt hf hj rfl
      refine ⟨y, m, hy, hyt.trans ?_⟩
      rw [hag k (mem_reach.2 ⟨l, hcl⟩), Entry.inner, reverse_inner, htwin.depth,
        getElem?_push_add_depth]

/-- A node is named by a recursive reference exactly if its term is a recursion target. -/
theorem binder_iff (h : Laid d a S t root A) (hdet : t.Detached A) (he : Written d a t A id e) :
    (∃ (y : NodeId) (m : Node), A[y]? = some m ∧ m.shape.recursionTarget? = some id) ↔
      e.term.binder = true := by
  obtain ⟨B, hask, -⟩ := he.asked
  have htwin {b ρ D} (hb : Asks d a t [] ∅ b ρ D) (hn : b.Named d a ρ id) :
      e.term.binder = b.binder := (h.agree h hask hb he.named hn).1.binder
  constructor
  · rintro ⟨y, m, hy, hyt⟩
    obtain ⟨f, hf⟩ := h.filed y (mem_iff_exists_getElem?.2 ⟨m, hy⟩)
    obtain ⟨C, haskf, -⟩ := hf.asked
    obtain rfl : m = f.node y := Option.some.inj (hy.symm.trans hf.node)
    cases hs : f.term.shape with
    | recursiveRef symbol raw link =>
      cases link with
      | none =>
        obtain rfl : raw = id := by
          simpa [Entry.node, hs, outline, Shape.recursionTarget?] using hyt
        exact absurd (mem_iff_exists_getElem?.2 ⟨_, he.node⟩) (hdet _ haskf.sub symbol raw hs)
      | some p =>
        have htarget : f.target = id := by
          simpa [Entry.node, hs, outline, Shape.recursionTarget?] using hyt
        have hmem := List.mem_of_getElem? (hf.link p (by simp [hs, ownLinks]))
        have hcases : id ∈ f.under ∨ f.term.binder = true ∧ id = y := by
          rw [htarget, Entry.inner, inner] at hmem
          split at hmem
          · next hb => exact (List.mem_append.1 hmem).imp_right fun hx => ⟨hb, by simpa using hx⟩
          · exact .inl hmem
        rcases hcases with hin | ⟨hb, rfl⟩
        · obtain ⟨b, ρ, D, hb, hn, hbind⟩ := (haskf.target hin).resolve_left (by simp)
          rw [htwin hb hn, hbind]
        · rw [htwin haskf hf.named, hb]
    | _ => simp [Entry.node, hs, outline, Shape.recursionTarget?] at hyt
  · intro hb
    obtain ⟨l, hl⟩ := (h.formed_of_written he).here.live hb
    obtain ⟨y, m, hy, hyt⟩ := h.follow he hl
    exact ⟨y, m, hy, by simp [hyt, Entry.inner, reverse_inner, push, hb]⟩

end Laid

end TypeAtlas.Term
