import TypeAtlas.Proofs.Graph.WellFormed

/-! # Unfolding graphs

Followed from its root, a graph unfolds into a tree in which names no longer occur. Shared nodes are
written out wherever they are used, and a recursive reference says how many steps up its target is.
-/

namespace TypeAtlas

def Shape.blank : Shape → Shape
  | .array _ => .array ""
  | .tuple es => .tuple (es.map fun _ => "")
  | .object fs => .object (fs.map fun f => { f with type := "" })
  | .union ms d => .union (ms.map fun _ => "") d
  | .intersection ms => .intersection (ms.map fun _ => "")
  | .reference _ symbol => .reference "" symbol
  | .recursiveRef _ symbol => .recursiveRef "" symbol
  | shape => shape

/-- What a node says, names apart. -/
structure Label where
  shape : Shape
  tags : List Tag := []
  location : Option SourceLocation := none
  /-- How far up the target of a recursive reference is. -/
  target : Option ℕ := none
deriving DecidableEq, Inhabited

inductive Tree where
  | node (label : Label) (children : List Tree)
deriving Inhabited

/-- Induction over a tree and the trees directly below it. -/
@[elab_as_elim, induction_eliminator]
theorem Tree.induct {motive : Tree → Prop}
    (node : ∀ label ts, (∀ t ∈ ts, motive t) → motive (.node label ts)) (t : Tree) : motive t :=
  @Tree.rec motive (fun ts => ∀ t ∈ ts, motive t) node (by simp)
    (fun _ _ hd tl => List.forall_mem_cons.2 ⟨hd, tl⟩) t

/-- What a node says below others, itself the first of them. -/
def Node.label (n : Node) (trail : List NodeId) : Label where
  shape := n.shape.blank
  tags := n.tags
  location := n.location
  target := n.shape.recursionTarget?.bind trail.idxOf?

/-- Below the given nodes, a node unfolds into a tree. -/
inductive Arena.Unfolds (A : Arena) : List NodeId → NodeId → Tree → Prop
  | mk {trail : List NodeId} {id : NodeId} {n : Node} {ts : List Tree} (hn : A[id]? = some n)
      (ht : ∀ t, n.shape.recursionTarget? = some t → t ∈ id :: trail)
      (hlen : n.shape.children.length = ts.length)
      (hc : ∀ p ∈ n.shape.children.zip ts, Unfolds A (id :: trail) p.1 p.2) :
      Unfolds A trail id (.node (n.label (id :: trail)) ts)

def Graph.Unfolds (g : Graph) (t : Tree) : Prop := g.nodes.Unfolds [] g.root t

/-- Recursive references in a tree name nodes of the tree, or one of so many nodes above it. -/
inductive Tree.Within : ℕ → Tree → Prop
  | mk {n : ℕ} {label : Label} {ts : List Tree} (ht : ∀ k, label.target = some k → k ≤ n)
      (hc : ∀ t ∈ ts, Within (n + 1) t) : Within n (.node label ts)

theorem getElem_mem_zip {α β : Type} {l : List α} {m : List β} (h : l.length = m.length) {i : ℕ}
    (hi : i < m.length) : (l.get ⟨i, h ▸ hi⟩, m[i]) ∈ l.zip m := by
  rw [List.mem_iff_getElem]
  exact ⟨i, by simp [h, hi], by simp⟩

section Distance

variable {α : Type} [BEq α] [LawfulBEq α] {a : α} {l m m' : List α} {k : ℕ}

theorem idxOf?_append_of_mem (h : a ∈ l) : (l ++ m).idxOf? a = l.idxOf? a := by
  obtain ⟨k, hk⟩ := Option.isSome_iff_exists.1 (List.isSome_idxOf?.2 h)
  rw [hk]
  unfold List.idxOf? at hk ⊢
  rw [List.findIdx?_append, hk]
  rfl

theorem mem_of_idxOf?_append (h : (l ++ m).idxOf? a = some k) (hk : k < l.length) : a ∈ l := by
  obtain ⟨hlt, he, -⟩ := List.idxOf?_eq_some_iff.1 h
  rw [List.getElem_append_left hk] at he
  exact he ▸ List.getElem_mem hk

theorem lt_length_of_idxOf?_append (h : (l ++ m).idxOf? a = some k) (ha : a ∈ l) :
    k < l.length := by
  rw [idxOf?_append_of_mem ha] at h
  exact (List.idxOf?_eq_some_iff.1 h).1

end Distance

variable {A B : Arena} {trail trail' : List NodeId} {id : NodeId} {t t' : Tree}

namespace Arena.Unfolds

theorem unique (h : A.Unfolds trail id t) (h' : A.Unfolds trail id t') : t = t' := by
  induction h generalizing t' with
  | @mk trail id n ts hn _ hlen _ ih =>
    cases h' with
    | @mk _ _ n' ts' hn' _ hlen' hc' =>
      obtain rfl := Option.some.inj (hn.symm.trans hn')
      congr 1
      refine List.ext_getElem (hlen.symm.trans hlen') fun i hi hi' => ?_
      exact ih _ (getElem_mem_zip hlen hi) (hc' _ (getElem_mem_zip hlen' hi'))

theorem extend (h : A.Unfolds trail id t) (hA : Extends A B) : B.Unfolds trail id t := by
  induction h with
  | mk hn ht hlen _ ih => exact .mk (hA _ _ hn) ht hlen ih

theorem within (inner : List NodeId) (h : A.Unfolds (inner ++ trail) id t) (hs : A.Scoped {x | x ∈ inner} id) :
    t.Within inner.length := by
  generalize htrail : inner ++ trail = whole at h
  induction h generalizing inner with
  | @mk whole id n ts hn ht hlen _ ih =>
    cases hs with
    | mk hm hscoped hchild =>
      obtain rfl := Option.some.inj (hn.symm.trans hm)
      subst htrail
      refine .mk (fun k hk => ?_) fun u hu => ?_
      · obtain ⟨x, hx, hk⟩ := Option.bind_eq_some_iff.1 hk
        have hmem : x ∈ id :: inner := by simpa using hscoped x hx
        exact Nat.le_of_lt_succ (lt_length_of_idxOf?_append (l := id :: inner) hk hmem)
      · obtain ⟨i, hi, rfl⟩ := List.getElem_of_mem hu
        refine ih _ (getElem_mem_zip hlen hi) (id :: inner) ?_ rfl
        have hins : insert id {x | x ∈ inner} = {x | x ∈ id :: inner} := by
          ext x
          simp
        exact hins ▸ hchild _ (List.getElem_mem _)

theorem of_within (inner : List NodeId) (h : A.Unfolds (inner ++ trail) id t)
    (ht : t.Within inner.length) :
    A.Unfolds (inner ++ trail') id t := by
  generalize htrail : inner ++ trail = whole at h
  induction h generalizing inner with
  | @mk whole id n ts hn htarget hlen _ ih =>
    cases ht with
    | mk hk hc =>
      subst htrail
      have hmem : ∀ x, n.shape.recursionTarget? = some x → x ∈ id :: inner := by
        intro x hx
        obtain ⟨k, hidx⟩ := Option.isSome_iff_exists.1 (List.isSome_idxOf?.2 (htarget x hx))
        refine mem_of_idxOf?_append (m := trail) hidx (Nat.lt_succ_of_le (hk k ?_))
        rw [Node.label, hx]
        exact hidx
      have hlabel : n.label (id :: (inner ++ trail)) = n.label (id :: (inner ++ trail')) := by
        rw [Node.label, Node.label]
        cases hx : n.shape.recursionTarget? with
        | none => rfl
        | some x =>
          have hinner := hmem x hx
          congr 1
          exact (idxOf?_append_of_mem (m := trail) hinner).trans
            (idxOf?_append_of_mem (m := trail') hinner).symm
      rw [hlabel]
      refine .mk hn (fun x hx => ?_) hlen fun p hp => ?_
      · change x ∈ (id :: inner) ++ trail'
        exact List.mem_append_left _ (hmem x hx)
      · refine ih p hp (id :: inner) ?_ rfl
        exact hc p.2 (List.of_mem_zip hp).2

end Arena.Unfolds

theorem Arena.scoped_of_unfolds (h : A.Unfolds trail id t) : A.Scoped {x | x ∈ trail} id := by
  induction h with
  | @mk trail id n ts hn ht hlen _ ih =>
    have hins : insert id {x | x ∈ trail} = {x | x ∈ id :: trail} := by
      ext x
      simp
    refine .mk hn (fun x hx => hins ▸ ht x hx) fun c hc => ?_
    obtain ⟨i, hi, rfl⟩ := List.getElem_of_mem hc
    exact hins ▸ ih _ (getElem_mem_zip hlen (hlen ▸ hi))

theorem Arena.Scoped.exists_unfolds {E : Set NodeId} (h : A.Scoped E id) (hE : ∀ x ∈ E, x ∈ trail) :
    ∃ t, A.Unfolds trail id t := by
  induction h generalizing trail with
  | @mk E id n hn ht _ ih =>
    have hmem : ∀ x ∈ insert id E, x ∈ id :: trail := by
      rintro x (rfl | hx)
      · exact List.mem_cons_self
      · exact List.mem_cons_of_mem _ (hE x hx)
    have htrees : ∀ c, ∃ t, c ∈ n.shape.children → A.Unfolds (id :: trail) c t := fun c => by
      by_cases hc : c ∈ n.shape.children
      · obtain ⟨t, ht⟩ := ih c hc hmem
        exact ⟨t, fun _ => ht⟩
      · exact ⟨default, fun hmem => absurd hmem hc⟩
    choose f hf using htrees
    refine ⟨.node _ (n.shape.children.map f), .mk hn (fun x hx => hmem x (ht x hx)) (by simp) fun p hp => ?_⟩
    rw [← List.map_prod_left_eq_zip] at hp
    obtain ⟨c, hc, rfl⟩ := List.mem_map.1 hp
    exact hf c hc

/-- A graph unfolds if nothing is missing below its root, no node there is built from itself, and
recursive references are met below what they name. -/
theorem Graph.exists_unfolds_iff {g : Graph} : (∃ t, g.Unfolds t) ↔ g.nodes.Scoped ∅ g.root := by
  constructor
  · rintro ⟨t, ht⟩
    simpa using Arena.scoped_of_unfolds ht
  · intro h
    exact h.exists_unfolds (by simp)

/-! ## Deciding whether a node unfolds into a tree -/

namespace Arena

mutual

/-- A node unfolds into the given tree. -/
def unfoldsTo (A : Arena) (trail : List NodeId) (id : NodeId) : Tree → Bool
  | .node label ts =>
    match A[id]? with
    | none => false
    | some n => label == n.label (id :: trail) && n.shape.recursionTarget?.all ((id :: trail).contains ·) &&
        unfoldAllTo A (id :: trail) n.shape.children ts

def unfoldAllTo (A : Arena) (trail : List NodeId) : List NodeId → List Tree → Bool
  | [], [] => true
  | c :: cs, t :: ts => unfoldsTo A trail c t && unfoldAllTo A trail cs ts
  | _, _ => false

end

theorem unfoldAllTo_iff {cs : List NodeId} {ts : List Tree} :
    A.unfoldAllTo trail cs ts ↔ cs.length = ts.length ∧ ∀ p ∈ cs.zip ts, A.unfoldsTo trail p.1 p.2 := by
  induction cs generalizing ts with
  | nil => cases ts <;> simp [unfoldAllTo]
  | cons c cs ih =>
    cases ts with
    | nil => simp [unfoldAllTo]
    | cons t ts => simp [unfoldAllTo, ih, and_left_comm]

theorem unfoldsTo_iff : A.unfoldsTo trail id t ↔ A.Unfolds trail id t := by
  constructor
  · intro h
    induction t generalizing trail id with
    | node label ts ih =>
      rw [unfoldsTo] at h
      split at h
      · cases h
      · next n hn =>
        simp only [Bool.and_eq_true, beq_iff_eq, unfoldAllTo_iff] at h
        obtain ⟨⟨rfl, ht⟩, hlen, hc⟩ := h
        refine .mk hn (fun x hx => ?_) hlen fun p hp => ih p.2 (List.of_mem_zip hp).2 (hc p hp)
        simpa [hx] using ht
  · intro h
    induction h with
    | @mk trail id n ts hn ht hlen _ ih =>
      simp only [unfoldsTo, hn, Bool.and_eq_true, beq_self_eq_true, true_and, unfoldAllTo_iff]
      refine ⟨?_, hlen, ih⟩
      cases hx : n.shape.recursionTarget? with
      | none => rfl
      | some x => simpa using ht x hx

instance : Decidable (A.Unfolds trail id t) := decidable_of_iff _ unfoldsTo_iff

end Arena

end TypeAtlas
