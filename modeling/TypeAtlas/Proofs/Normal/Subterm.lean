import Mathlib.Data.Set.Function
import TypeAtlas.Normal.Term

/-! # Terms and the terms below them

Induction over terms, properties that hold throughout a term, and the distances at which a term
refers to enclosing recursion targets.
-/

namespace TypeAtlas

namespace Term

/-- Induction over a term and the terms directly below it. -/
@[elab_as_elim, induction_eliminator]
theorem induct {motive : Term → Prop}
    (mk : ∀ h cs, (∀ c ∈ cs, motive c) → motive (.mk h cs)) (t : Term) : motive t :=
  @Term.rec motive (fun cs => ∀ c ∈ cs, motive c) mk (by simp)
    (fun _ _ hd tl => List.forall_mem_cons.2 ⟨hd, tl⟩) t

@[simp] theorem head_mk (h : TermHead) (cs : List Term) : (mk h cs).head = h := rfl

@[simp] theorem children_mk (h : TermHead) (cs : List Term) : (mk h cs).children = cs := rfl

@[simp] theorem shape_mk (h : TermHead) (cs : List Term) : (mk h cs).shape = h.shape := rfl

@[simp] theorem digest_mk (h : TermHead) (cs : List Term) : (mk h cs).digest = h.digest := rfl

@[simp] theorem free_mk (h : TermHead) (cs : List Term) : (mk h cs).free = h.free := rfl

@[simp] theorem binder_mk (h : TermHead) (cs : List Term) : (mk h cs).binder = h.binder := rfl

@[simp] theorem family_mk (h : TermHead) (cs : List Term) : (mk h cs).family = h.family := rfl

/-- A term is the other or stands somewhere below it. -/
inductive Sub (u : Term) : Term → Prop
  | refl : Sub u u
  | step {c t : Term} (hc : c ∈ t.children) (h : Sub u c) : Sub u t

theorem Sub.trans {u v t : Term} (huv : u.Sub v) (hvt : v.Sub t) : u.Sub t := by
  induction hvt with
  | refl => exact huv
  | step hc _ ih => exact .step hc ih

theorem Sub.child {c t : Term} (hc : c ∈ t.children) : c.Sub t := .step hc .refl

/-- A property holds of a term and of every term below it. -/
def Throughout (P : Term → Prop) (t : Term) : Prop := ∀ u : Term, u.Sub t → P u

namespace Throughout

variable {P Q : Term → Prop} {t c : Term}

theorem here (h : t.Throughout P) : P t := h t .refl

theorem child (h : t.Throughout P) (hc : c ∈ t.children) : c.Throughout P :=
  fun u hu => h u (.step hc hu)

theorem sub {u : Term} (h : t.Throughout P) (hu : u.Sub t) : u.Throughout P :=
  fun v hv => h v (hv.trans hu)

theorem of_children (h : P t) (hc : ∀ c ∈ t.children, c.Throughout P) : t.Throughout P := by
  intro u hu
  cases hu with
  | refl => exact h
  | step hm hu => exact hc _ hm u hu

theorem mono (h : t.Throughout P) (hpq : ∀ u, P u → Q u) : t.Throughout Q :=
  fun u hu => hpq u (h u hu)

end Throughout

/-! ## Height -/

mutual

/-- The number of terms on the longest way down. -/
def height : Term → Nat
  | mk _ cs => heightAll cs + 1

def heightAll : List Term → Nat
  | [] => 0
  | t :: ts => max t.height (heightAll ts)

end

theorem height_le_heightAll {c : Term} {cs : List Term} (h : c ∈ cs) : c.height ≤ heightAll cs := by
  induction cs with
  | nil => cases h
  | cons d ds ih =>
    rw [heightAll]
    rcases List.mem_cons.1 h with rfl | h
    · exact le_max_left _ _
    · exact (ih h).trans (le_max_right _ _)

theorem heightAll_eq (ts : List Term) : heightAll ts = (ts.map height).foldr max 0 := by
  induction ts with
  | nil => rfl
  | cons t ts ih => rw [heightAll, ih, List.map_cons, List.foldr_cons]

theorem height_lt_of_mem_children {c t : Term} (h : c ∈ t.children) : c.height < t.height := by
  cases t with
  | mk head cs =>
    rw [height]
    exact Nat.lt_succ_of_le (height_le_heightAll h)

theorem Sub.height_le {u t : Term} (h : u.Sub t) : u.height ≤ t.height := by
  induction h with
  | refl => exact le_rfl
  | step hc _ ih => exact ih.trans (height_lt_of_mem_children hc).le

/-! ## Links -/

/-- The link that a recursive reference is itself, unless its target is not enclosing. -/
def ownLinks : TermShape → List (ℕ × ℕ)
  | .recursiveRef _ _ (some link) => [link]
  | _ => []

/-- Links as they are seen from outside a recursion target: the target itself is no longer among
the enclosing ones. -/
def shed (links : List (ℕ × ℕ)) : List (ℕ × ℕ) :=
  links.filterMap fun
    | (0, _) => none
    | (k + 1, l) => some (k, l)

mutual

/-- The links of a term to enclosing targets, by distance and height. -/
def links : Term → List (ℕ × ℕ)
  | mk h cs =>
    if h.binder then shed (ownLinks h.shape ++ linksAll cs) else ownLinks h.shape ++ linksAll cs

def linksAll : List Term → List (ℕ × ℕ)
  | [] => []
  | t :: ts => links t ++ linksAll ts

end

/-- The links inside a term, to itself included. -/
def inward (t : Term) : List (ℕ × ℕ) := ownLinks t.shape ++ t.children.flatMap links

variable {t c : Term} {k l n : ℕ}

theorem linksAll_eq_flatMap (ts : List Term) : linksAll ts = ts.flatMap links := by
  induction ts with
  | nil => rfl
  | cons t ts ih => rw [linksAll, ih, List.flatMap_cons]

theorem links_of_plain (hb : t.binder = false) : t.links = t.inward := by
  cases t with
  | mk h cs => simp_all [links, inward, linksAll_eq_flatMap, binder, head, shape, children]

theorem links_of_target (hb : t.binder = true) : t.links = shed t.inward := by
  cases t with
  | mk h cs => simp_all [links, inward, linksAll_eq_flatMap, binder, head, shape, children]

@[simp] theorem mem_shed {ps : List (ℕ × ℕ)} : (k, l) ∈ shed ps ↔ (k + 1, l) ∈ ps := by
  simp only [shed, List.mem_filterMap]
  constructor
  · rintro ⟨⟨_ | j, m⟩, hp, h⟩
    · cases h
    · simp only [Option.some.injEq, Prod.mk.injEq] at h
      obtain ⟨rfl, rfl⟩ := h
      exact hp
  · exact fun h => ⟨_, h, rfl⟩

theorem mem_inward {p : ℕ × ℕ} :
    p ∈ t.inward ↔ p ∈ ownLinks t.shape ∨ ∃ c ∈ t.children, p ∈ c.links := by
  simp [inward]

theorem mem_inward_of_child (hc : c ∈ t.children) {p : ℕ × ℕ} (h : p ∈ c.links) : p ∈ t.inward :=
  mem_inward.2 (.inr ⟨c, hc, h⟩)

/-- The number of targets between the inside of a term and its outside. -/
def depth (t : Term) : ℕ := if t.binder then 1 else 0

theorem depth_of_plain (hb : t.binder = false) : t.depth = 0 := by simp [depth, hb]

theorem depth_of_target (hb : t.binder = true) : t.depth = 1 := by simp [depth, hb]

theorem mem_links : (k, l) ∈ t.links ↔ (k + t.depth, l) ∈ t.inward := by
  cases hb : t.binder
  · rw [links_of_plain hb, depth_of_plain hb, Nat.add_zero]
  · rw [links_of_target hb, depth_of_target hb, mem_shed]

/-- Seen from outside, a term refers to targets as from below `n` of them. -/
def Level (t : Term) (n : ℕ) : Prop := ∀ p ∈ t.links, p.1 + p.2 + 1 = n

/-- A term stands right below `n` targets: all links inside it have the heights that go with their
distances. -/
def Placed (t : Term) (n : ℕ) : Prop := ∀ p ∈ t.inward, p.1 + p.2 + 1 = n + t.depth

theorem Placed.level (h : t.Placed n) : t.Level n := by
  rintro ⟨k, l⟩ hp
  have := h _ (mem_links.1 hp)
  simp only at this ⊢
  omega

theorem Placed.child (h : t.Placed n) (hc : c ∈ t.children) : c.Level (n + t.depth) :=
  fun p hp => h p (mem_inward_of_child hc hp)

theorem Level.of_links_eq_nil (h : t.links = []) : t.Level n := by
  simp [Level, h]

/-- The distances of the enclosing targets that a term refers to. -/
def reach (t : Term) : List ℕ := t.links.map Prod.fst

theorem mem_reach : k ∈ t.reach ↔ ∃ l, (k, l) ∈ t.links := by
  simp [reach]

theorem reach_eq_nil : t.reach = [] ↔ t.links = [] := List.map_eq_nil_iff

end Term

end TypeAtlas
