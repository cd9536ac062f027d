import TypeAtlas.Proofs.Graph.Remembered
import TypeAtlas.Proofs.Graph.Sorted
import TypeAtlas.Proofs.Normal.Upright

/-! # Graphs that unfold alike

Graphs have the same hash if they unfold into the same tree, up to what declarations are called, where
they are, and the order of fields, members and values. How nodes are named and shared does not matter.
-/

namespace TypeAtlas

/-! ## Attempts of which only the result matters -/

section Attempts

variable {ε α β : Type}

theorem toOption_bind (e : Except ε α) (f : α → Except ε β) :
    (e >>= f).toOption = e.toOption.bind fun x => (f x).toOption := by
  cases e <;> rfl

theorem toOption_map (e : Except ε α) (f : α → β) : (e.map f).toOption = e.toOption.map f := by
  cases e <;> rfl

theorem toOption_mapM (f : α → Except ε β) (xs : List α) :
    (xs.mapM f).toOption = xs.mapM fun x => (f x).toOption := by
  induction xs with
  | nil => rfl
  | cons x xs ih =>
    rw [List.mapM_cons, List.mapM_cons, toOption_bind]
    congr 1
    funext y
    rw [toOption_bind, ih]
    rfl

theorem map_mapM_eq_of_perm {xs ys : List (Option α)} {f : List α → β}
    (hf : ∀ l m : List α, l.Perm m → f l = f m) (h : xs.Perm ys) :
    f <$> (xs.mapM fun x => x) = f <$> ys.mapM fun y => y := by
  induction h generalizing f with
  | nil => rfl
  | @cons x l m _ ih =>
    rw [List.mapM_cons, List.mapM_cons]
    cases x with
    | none => rfl
    | some x =>
      have hrest := ih (f := fun l => f (x :: l)) fun l m h => hf _ _ (h.cons x)
      generalize (l.mapM fun x => x) = us at hrest ⊢
      generalize (m.mapM fun x => x) = vs at hrest ⊢
      cases us <;> cases vs <;> simp_all
  | swap x y xs =>
    simp only [List.mapM_cons]
    cases x <;> cases y <;> cases xs.mapM fun x => x
    case some.some.some => exact congrArg some (hf _ _ (.swap ..))
    all_goals rfl
  | trans _ _ ih ih' => exact (ih hf).trans (ih' hf)

end Attempts

/-! ## Trees that are alike -/

def Shape.bare : Shape → Shape
  | .object fs => .object (fs.map fun f => { f with location := none })
  | .reference target _ => .reference target ""
  | .recursiveRef target _ => .recursiveRef target ""
  | shape => shape

/-- Discriminants by the same field, with the same values in whatever order. -/
def Discriminant.Alike (δ δ' : Discriminant) : Prop :=
  δ.property = δ'.property ∧ δ.values.Perm δ'.values

/-- Shapes with what is below them, which differ in the order of fields, members and values at most. -/
inductive Shape.Rearranged : Shape → List Tree → Shape → List Tree → Prop
  | refl {shape : Shape} {ts : List Tree} : Rearranged shape ts shape ts
  | object {ps qs : List (Field × Tree)} (h : ps.Perm qs) (hnames : (ps.map fun p => p.1.name).Nodup) :
      Rearranged (.object (ps.map Prod.fst)) (ps.map Prod.snd) (.object (qs.map Prod.fst)) (qs.map Prod.snd)
  | union {ms ms' : List NodeId} {δ δ' : Option Discriminant} {ts us : List Tree} (h : ts.Perm us)
      (hδ : Option.Rel Discriminant.Alike δ δ') : Rearranged (.union ms δ) ts (.union ms' δ') us
  | intersection {ms ms' : List NodeId} {ts us : List Tree} (h : ts.Perm us) :
      Rearranged (.intersection ms) ts (.intersection ms') us
  | enum {ms ms' : List EnumMember} {ts : List Tree} (h : ms.Perm ms')
      (hnames : (ms.map EnumMember.name).Nodup) : Rearranged (.enum ms) ts (.enum ms') ts

/-- Trees that differ in symbols, in positions, and in the order of fields, members and values at most. -/
inductive Tree.Alike : Tree → Tree → Prop
  | node {l l' : Label} {ts us vs : List Tree} (htags : l.tags = l'.tags) (htarget : l.target = l'.target)
      (hshape : l.shape.bare.Rearranged ts l'.shape.bare us) (hlen : us.length = vs.length)
      (hc : ∀ p ∈ us.zip vs, Alike p.1 p.2) : Alike (.node l ts) (.node l' vs)

/-! ## Labels -/

/-- The values of a discriminant are told apart by their order. -/
def Shape.isSeparated : Shape → Bool
  | .union _ (some δ) => δ.isSeparated
  | _ => true

namespace Label

variable {m : Type → Type} [Monad m] [LawfulMonad m] {l l' : Label} {flags : List Bool} {ts us : List Tree}

def bare (l : Label) : Label := { l with shape := l.shape.bare }

theorem payload_bare (l : Label) : l.bare.payload flags = l.payload flags := by
  obtain ⟨shape, tags, location, target⟩ := l
  cases shape with
  | object fs =>
    simp only [payload, bare, Shape.bare,
      Hasher.sortFields_map (φ := fun f => { f with location := none }) fun _ => rfl,
      List.map_map, Function.comp_def]
  | _ => rfl

theorem arrange_bare (l : Label) (ds : List (m String)) : l.bare.arrange ds = l.arrange ds := by
  obtain ⟨shape, tags, location, target⟩ := l
  cases shape with
  | object fs =>
    have hzip : (fs.map fun f => { f with location := none }).zip ds =
        (fs.zip ds).map (Prod.map (fun f => { f with location := none }) fun d => d) := List.zip_map_left
    simp only [arrange, bare, Shape.bare, hzip,
      byName_map (φ := fun f => { f with location := none }) fun _ => rfl, List.mapM_map]
    rfl
  | _ => rfl

theorem toOption_arrange {ε : Type} (l : Label) (ds : List (Except ε String)) :
    (l.arrange ds).toOption = l.arrange (ds.map Except.toOption) := by
  have hplain : (ds.mapM fun x => x).toOption = (ds.map Except.toOption).mapM fun x => x := by
    rw [toOption_mapM, List.mapM_map]
    rfl
  obtain ⟨shape, tags, location, target⟩ := l
  cases shape with
  | object fs =>
    have hzip : fs.zip (ds.map Except.toOption) = (fs.zip ds).map (Prod.map (fun f => f) Except.toOption) :=
      List.zip_map_right
    simp only [arrange, hzip, byName_map fun _ => rfl, toOption_mapM, List.mapM_map]
    rfl
  | union => exact (toOption_map _ _).trans (congrArg _ hplain)
  | intersection => exact (toOption_map _ _).trans (congrArg _ hplain)
  | _ => exact hplain

theorem byName_eq_of_perm {α : Type} {ps qs : List (Field × α)} (h : ps.Perm qs)
    (hnames : (ps.map fun p => p.1.name).Nodup) : byName ps = byName qs :=
  mergeSort_eq_of_perm (fun p : Field × α => p.1.name) h fun _ hp _ hq =>
    List.inj_on_of_nodup_map hnames hp hq

theorem payload_of_rearranged (h : l.shape.Rearranged ts l'.shape us) (htarget : l.target = l'.target)
    (hsep : l.shape.isSeparated) : l.payload flags = l'.payload flags := by
  obtain ⟨shape, tags, location, target⟩ := l
  obtain ⟨shape', tags', location', target'⟩ := l'
  obtain rfl : target = target' := htarget
  cases h with
  | refl => rfl
  | object h hnames =>
    simp only [payload, ← map_fst_byName, byName_eq_of_perm h hnames]
  | union h hδ =>
    cases hδ with
    | none => rfl
    | some hδ => exact unionPayload_eq_of_perm hδ.1 hδ.2 hsep
  | intersection => rfl
  | enum h hnames => exact enumPayload_eq_of_perm h hnames

theorem arrange_of_rearranged (h : l.shape.Rearranged ts l'.shape us) (f : Tree → Option String) :
    l.arrange (ts.map f) = l'.arrange (us.map f) := by
  obtain ⟨shape, tags, location, target⟩ := l
  obtain ⟨shape', tags', location', target'⟩ := l'
  have hmembers {ts us : List Tree} (h : ts.Perm us) : Hasher.sortDigests <$> (ts.map f).mapM (fun x => x) =
      Hasher.sortDigests <$> (us.map f).mapM fun x => x :=
    map_mapM_eq_of_perm (fun _ _ => Hasher.sortDigests_eq_of_perm) (h.map f)
  cases h with
  | refl => rfl
  | @object ps qs h hnames =>
    have hzip (ps : List (Field × Tree)) : (ps.map Prod.fst).zip ((ps.map Prod.snd).map f) =
        ps.map (Prod.map (fun f => f) f) := by
      rw [List.map_map, List.zip_map']
      rfl
    simp only [arrange, hzip, byName_map fun _ => rfl, byName_eq_of_perm h hnames]
  | union h => exact hmembers h
  | intersection h => exact hmembers h
  | enum => rfl

end Label

namespace Shape.Rearranged

variable {shape shape' : Shape} {ts us : List Tree}

theorem perm (h : shape.Rearranged ts shape' us) : ts.Perm us := by
  cases h with
  | refl => exact .refl _
  | object h => exact h.map _
  | union h => exact h
  | intersection h => exact h
  | enum => exact .refl _

theorem kind (h : shape.Rearranged ts shape' us) : shape.kind = shape'.kind := by
  cases h <;> rfl

theorem isUnresolved (h : shape.Rearranged ts shape' us) : shape.isUnresolved = shape'.isUnresolved := by
  cases h <;> rfl

end Shape.Rearranged

theorem Shape.kind_bare (shape : Shape) : shape.bare.kind = shape.kind := by
  cases shape <;> rfl

theorem Shape.isUnresolved_bare (shape : Shape) : shape.bare.isUnresolved = shape.isUnresolved := by
  cases shape <;> rfl

theorem Shape.isSeparated_bare (shape : Shape) : shape.bare.isSeparated = shape.isSeparated := by
  cases shape <;> rfl

/-! ## Digests of trees that are alike -/

namespace Tree

variable {d : Digester} {a : Algorithm} {l : Label} {t u : Tree} {ts : List Tree} {k : ℕ}

/-- The values of every discriminant are told apart by their order. -/
def isSeparated (t : Tree) : Bool := !t.any fun l => !l.shape.isSeparated

theorem isSeparated_node : (node l ts).isSeparated ↔ l.shape.isSeparated ∧ ∀ t ∈ ts, t.isSeparated := by
  simp [isSeparated, any_node]

theorem map_eq_of_zip {α β γ : Type} {xs : List α} {ys : List β} {f : α → γ} {g : β → γ}
    (hlen : xs.length = ys.length) (h : ∀ p ∈ xs.zip ys, f p.1 = g p.2) : xs.map f = ys.map g := by
  rw [← List.map_fst_zip hlen.le, List.map_map]
  conv_rhs => rw [← List.map_snd_zip hlen.ge, List.map_map]
  exact List.map_congr_left h

namespace Alike

/-- What rearranging does not change is found in both trees or in neither. -/
theorem anyAt_eq {p : ℕ → Label → Bool} (hp : ∀ k l l' ts us, l.target = l'.target →
      l.shape.bare.Rearranged ts l'.shape.bare us → p k l = p k l') (h : t.Alike u) :
    t.anyAt p k = u.anyAt p k := by
  induction h generalizing k with
  | @node l l' ts us vs _ htarget hshape hlen _ ih =>
    have hbelow : us.map (anyAt p (k + 1)) = vs.map (anyAt p (k + 1)) :=
      map_eq_of_zip hlen fun q hq => ih q hq
    have hany : us.any (anyAt p (k + 1)) = vs.any (anyAt p (k + 1)) := by
      have h := congrArg (fun bs => bs.any fun b => b) hbelow
      simp only [List.any_map] at h
      exact h
    rw [anyAt_node, anyAt_node, hp k _ _ _ _ htarget hshape, hshape.perm.any_eq, hany]

theorem names (h : t.Alike u) : t.names k = u.names k :=
  h.anyAt_eq fun k l l' _ _ htarget _ => by rw [htarget]

theorem unresolved (h : t.Alike u) : t.unresolved = u.unresolved :=
  h.anyAt_eq fun _ l l' _ _ _ hshape => by
    rw [← l.shape.isUnresolved_bare, hshape.isUnresolved, l'.shape.isUnresolved_bare]

/-- Trees that are alike have the same digest, or neither has one. -/
theorem digest (h : t.Alike u) (hsep : t.isSeparated) (flags : List Bool) :
    (t.digest d a flags).toOption = (u.digest d a flags).toOption := by
  have hnames := h.names (k := 0)
  induction h generalizing flags with
  | @node l l' ts us vs htags htarget hshape hlen hc ih =>
    obtain ⟨hown, hchildren⟩ := isSeparated_node.1 hsep
    have hkind : l.shape.kind = l'.shape.kind := by
      rw [← l.shape.kind_bare, hshape.kind, l'.shape.kind_bare]
    have hpayload (flags : List Bool) : l.payload flags = l'.payload flags := by
      rw [← l.payload_bare, ← l'.payload_bare]
      exact Label.payload_of_rearranged hshape htarget (l.shape.isSeparated_bare.trans hown)
    have hbelow (flags : List Bool) : us.map (fun t => (t.digest d a flags).toOption) =
        vs.map fun t => (t.digest d a flags).toOption :=
      map_eq_of_zip hlen fun p hp => ih p hp
        (hchildren _ (hshape.perm.mem_iff.2 (List.of_mem_zip hp).1)) flags (hc p hp).names
    have harrange (flags : List Bool) : (l.arrange (ts.map (Tree.digest d a flags))).toOption =
        (l'.arrange (vs.map (Tree.digest d a flags))).toOption := by
      rw [Label.toOption_arrange, Label.toOption_arrange, List.map_map, List.map_map, ← l.arrange_bare,
        ← l'.arrange_bare]
      exact (Label.arrange_of_rearranged hshape _).trans (congrArg _ (hbelow flags))
    rw [digest_node, digest_node, toOption_bind, toOption_bind, hnames, harrange, hkind, hpayload, htags]

theorem hash (h : t.Alike u) (hsep : t.isSeparated) : (t.hash d a).toOption = (u.hash d a).toOption := by
  rw [Tree.hash, Tree.hash, toOption_map, toOption_map, h.digest hsep, h.unresolved]

end Alike

end Tree

namespace Graph

variable {d : Digester} {a : Algorithm} {g g' : Graph} {t t' : Tree}

/-- The hash of a graph is that of the tree into which it unfolds: what has been remembered of shared nodes
makes no difference. Graphs that unfold into trees that are alike have the same hash, or both are refused. -/
theorem hash_eq_of_alike (hg : g.RefersUp) (hg' : g'.RefersUp) (ht : g.Unfolds t) (ht' : g'.Unfolds t')
    (halike : t.Alike t') (hsep : t.isSeparated) :
    (g.hash d a).map Outcome.value = t.hash d a ∧ (g'.hash d a).map Outcome.value = t'.hash d a ∧
      (g.hash d a).toOption.map Outcome.value = (g'.hash d a).toOption.map Outcome.value := by
  have hvalue := hg.hash_eq (d := d) (a := a) ht
  have hvalue' := hg'.hash_eq (d := d) (a := a) ht'
  refine ⟨hvalue, hvalue', ?_⟩
  rw [← toOption_map, ← toOption_map, hvalue, hvalue', halike.hash hsep]

/-! ## Samples -/

instance (A : Arena) (x y : NodeId) : Decidable (A.HasChild x y) :=
  decidable_of_iff (∃ n ∈ A[x]?, y ∈ n.shape.children) (by simp [Arena.HasChild])

/-- Two fields of nested lists, which are written out once. -/
def doubled : Graph := ofNodes "Pair" [
  ⟨"Pair", .object [{ name := "left", type := "X" }, { name := "right", type := "X" }], [], none⟩,
  ⟨"X", .array "U", [], none⟩, ⟨"U", .union ["S", "R"] none, [], none⟩,
  ⟨"S", .primitive .string, [], none⟩, ⟨"R", .recursiveRef "X" "Nested", [], none⟩]

/-- The fields in the other order, with lists of their own. -/
def copied : Graph := ofNodes "Pair" [
  ⟨"Pair", .object [{ name := "right", type := "Y" }, { name := "left", type := "X" }], [], none⟩,
  ⟨"X", .array "U", [], none⟩, ⟨"U", .union ["R", "S"] none, [], none⟩,
  ⟨"S", .primitive .string, [], none⟩, ⟨"R", .recursiveRef "X" "Nested", [], none⟩,
  ⟨"Y", .array "V", [], none⟩, ⟨"V", .union ["S", "Q"] none, [], none⟩,
  ⟨"Q", .recursiveRef "Y" "Lists", [], none⟩]

def textTree : Tree := .node { shape := .primitive .string } []

def againTree (symbol : String) : Tree := .node { shape := .recursiveRef "" symbol, target := some 2 } []

def listTree (members : List Tree) : Tree :=
  .node { shape := .array "" } [.node { shape := .union ["", ""] none } members]

def pairTree (first second : String) (types : List Tree) : Tree :=
  .node { shape := .object [{ name := first, type := "" }, { name := second, type := "" }] } types

def doubledTree : Tree := pairTree "left" "right"
  [listTree [textTree, againTree "Nested"], listTree [textTree, againTree "Nested"]]

def copiedTree : Tree := pairTree "right" "left"
  [listTree [textTree, againTree "Lists"], listTree [againTree "Nested", textTree]]

theorem doubled_unfolds : doubled.Unfolds doubledTree := by
  unfold Graph.Unfolds
  decide +kernel

theorem copied_unfolds : copied.Unfolds copiedTree := by
  unfold Graph.Unfolds
  decide +kernel

theorem doubled_refersUp : doubled.RefersUp := by
  intro id n x hn hx _
  have hall : ∀ p ∈ doubled.nodes.toList, p.2.shape.recursionTarget? = none ∨
      p.1 = "R" ∧ p.2.shape.recursionTarget? = some "X" := by decide +kernel
  rcases hall (id, n) (Std.ExtTreeMap.mem_toList_iff_getElem?_eq_some.2 hn) with h | ⟨rfl, h⟩
  · cases h.symm.trans hx
  · obtain rfl := Option.some.inj (h.symm.trans hx)
    exact .tail (.single (by decide +kernel : doubled.nodes.HasChild "X" "U")) (by decide +kernel)

theorem copied_refersUp : copied.RefersUp := by
  intro id n x hn hx _
  have hall : ∀ p ∈ copied.nodes.toList, p.2.shape.recursionTarget? = none ∨
      p.1 = "R" ∧ p.2.shape.recursionTarget? = some "X" ∨
      p.1 = "Q" ∧ p.2.shape.recursionTarget? = some "Y" := by decide +kernel
  rcases hall (id, n) (Std.ExtTreeMap.mem_toList_iff_getElem?_eq_some.2 hn) with h | ⟨rfl, h⟩ | ⟨rfl, h⟩
  · cases h.symm.trans hx
  · obtain rfl := Option.some.inj (h.symm.trans hx)
    exact .tail (.single (by decide +kernel : copied.nodes.HasChild "X" "U")) (by decide +kernel)
  · obtain rfl := Option.some.inj (h.symm.trans hx)
    exact .tail (.single (by decide +kernel : copied.nodes.HasChild "Y" "V")) (by decide +kernel)

theorem againTree_alike (symbol symbol' : String) : (againTree symbol).Alike (againTree symbol') :=
  .node rfl rfl .refl rfl (by simp)

theorem textTree_alike : textTree.Alike textTree := .node rfl rfl .refl rfl (by simp)

theorem listTree_alike {ts us vs : List Tree} (h : ts.Perm us) (hlen : us.length = vs.length)
    (hc : ∀ p ∈ us.zip vs, Tree.Alike p.1 p.2) : (listTree ts).Alike (listTree vs) := by
  refine .node rfl rfl .refl rfl fun p hp => ?_
  obtain rfl := List.mem_singleton.1 hp
  exact .node rfl rfl (.union h .none) hlen hc

theorem pairTree_alike {t u t' u' : Tree} {first second : String} (hne : first ≠ second) (ht : t.Alike t')
    (hu : u.Alike u') : (pairTree first second [t, u]).Alike (pairTree second first [u', t']) := by
  have hobject := Shape.Rearranged.object
    (.swap ({ name := second, type := "" }, u) ({ name := first, type := "" }, t) []) (by simpa using hne)
  refine .node rfl rfl hobject rfl fun p hp => ?_
  rcases List.mem_cons.1 hp with rfl | hp
  · exact hu
  · obtain rfl := List.mem_singleton.1 hp
    exact ht

theorem doubledTree_alike : doubledTree.Alike copiedTree :=
  pairTree_alike (by decide) (listTree_alike (.swap ..) rfl (by simp [againTree_alike, textTree_alike]))
    (listTree_alike .rfl rfl (by simp [againTree_alike, textTree_alike]))

/-- Both pairs have the same hash. -/
theorem doubled_hash_eq_copied :
    (doubled.hash .standard .sha256).map Outcome.value = doubledTree.hash .standard .sha256 ∧
      (copied.hash .standard .sha256).map Outcome.value = copiedTree.hash .standard .sha256 ∧
      (doubled.hash .standard .sha256).toOption.map Outcome.value =
        (copied.hash .standard .sha256).toOption.map Outcome.value :=
  hash_eq_of_alike doubled_refersUp copied_refersUp doubled_unfolds copied_unfolds doubledTree_alike
    (by decide +kernel)

end Graph

end TypeAtlas
