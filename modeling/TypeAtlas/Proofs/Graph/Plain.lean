import TypeAtlas.Proofs.Graph.Unfolding
import TypeAtlas.Proofs.Normal.Enclosed

/-! # Hashes of trees

The hash of a tree by plain recursion, every subtree on its own. Whether a node is named by a recursive
reference is read off the tree below it, and a recursive reference is covered by the number of named
nodes that it leaves behind on the way up to its target.
-/

namespace TypeAtlas

namespace Tree

variable {p q : ℕ → Label → Bool} {l : Label} {t : Tree} {ts : List Tree} {k n : ℕ}

/-! ## Searching trees -/

mutual

/-- Some label of a tree is found; the root stands at the given depth. -/
def anyAt (p : ℕ → Label → Bool) (k : ℕ) : Tree → Bool
  | node l ts => p k l || anyAtAll p (k + 1) ts

def anyAtAll (p : ℕ → Label → Bool) (k : ℕ) : List Tree → Bool
  | [] => false
  | t :: ts => anyAt p k t || anyAtAll p k ts

end

theorem anyAtAll_eq : anyAtAll p k ts = ts.any (anyAt p k) := by
  induction ts with
  | nil => rfl
  | cons t ts ih => rw [anyAtAll, ih, List.any_cons]

theorem anyAt_node : (node l ts).anyAt p k = (p k l || ts.any (anyAt p (k + 1))) := by
  rw [anyAt, anyAtAll_eq]

/-- Some label of a tree is found, at whatever depth. -/
def any (p : Label → Bool) (t : Tree) : Bool := t.anyAt (fun _ => p) 0

theorem any_node {p : Label → Bool} : (node l ts).any p = (p l || ts.any (any p)) := by
  have hdepth (t : Tree) (i j : ℕ) : t.anyAt (fun _ => p) i = t.anyAt (fun _ => p) j := by
    induction t generalizing i j with
    | node l ts ih =>
      rw [Bool.eq_iff_iff]
      simp only [anyAt_node, Bool.or_eq_true, List.any_eq_true]
      exact or_congr_right (exists_congr fun t => and_congr_right fun ht => by rw [ih t ht])
  rw [any, anyAt_node]
  exact congrArg _ (List.any_congr rfl fun t => hdepth t _ _)

/-- A recursive reference names the root, or the node so many steps above it. -/
def names (k : ℕ) (t : Tree) : Bool := t.anyAt (fun i l => l.target == some i) k

theorem names_node : (node l ts).names k ↔ l.target = some k ∨ ∃ t ∈ ts, t.names (k + 1) := by
  simp [names, anyAt_node]

/-- A recursion of a tree is unresolved. -/
def unresolved (t : Tree) : Bool := t.any fun l => l.shape.isUnresolved

theorem unresolved_node : (node l ts).unresolved = (l.shape.isUnresolved || ts.any unresolved) := any_node

theorem within_iff : t.Within n ↔ ∀ k, t.names k → k ≤ n := by
  induction t generalizing n with
  | node l ts ih =>
    constructor
    · rintro ⟨htarget, hc⟩ k hk
      rcases names_node.1 hk with hk | ⟨t, ht, hk⟩
      · exact htarget k hk
      · have := (ih t ht).1 (hc t ht) (k + 1) hk
        omega
    · intro h
      refine .mk (fun k hk => h k (names_node.2 (.inl hk))) fun t ht => (ih t ht).2 fun k hk => ?_
      cases k with
      | zero => omega
      | succ k =>
        have := h k (names_node.2 (.inr ⟨t, ht, hk⟩))
        omega

end Tree

/-! ## What is covered of a label -/

theorem Shape.kind_blank (shape : Shape) : shape.blank.kind = shape.kind := by
  cases shape <;> rfl

namespace Label

variable {α β : Type} {l : Label} {flags flags' : List Bool} {ps : List (Field × α)}

/-- Fields in the order in which they are covered, each with what belongs to it. -/
def byName (ps : List (Field × α)) : List (Field × α) :=
  ps.mergeSort fun p q => decide (p.1.name ≤ q.1.name)

theorem byName_perm (ps : List (Field × α)) : (byName ps).Perm ps := List.mergeSort_perm _ _

theorem map_fst_byName : (byName ps).map Prod.fst = Hasher.sortFields (ps.map Prod.fst) :=
  List.map_mergeSort fun _ _ _ _ => rfl

theorem byName_map {φ : Field → Field} (hφ : ∀ f, (φ f).name = f.name) (g : α → β) :
    byName (ps.map (Prod.map φ g)) = (byName ps).map (Prod.map φ g) :=
  (List.map_mergeSort fun p _ q _ => by simp [hφ]).symm

/-- What a digest covers of a label. The flags tell which nodes are named, from the node itself upwards. -/
def payload (l : Label) (flags : List Bool) : List (String × Datum) :=
  match l.shape with
  | .recursiveRef .. => recursionPayload (l.target.map fun k => (flags.take k).count true)
  | .object fs =>
    [("fields", .list ((Hasher.sortFields fs).map fun f =>
      fieldPayload f.name f.optional f.readonly f.tags))]
  | .union _ δ => unionPayload δ
  | .primitive p => primitivePayload p
  | .literal k v => literalPayload k v
  | .enum ms => enumPayload ms
  | .unknown reason cause => unknownPayload reason cause
  | .array _ | .tuple _ | .intersection _ | .reference .. => []

/-- The digests below a label in the order in which they are covered. -/
def arrange {m : Type → Type} [Monad m] (l : Label) (ds : List (m String)) : m (List String) :=
  match l.shape with
  | .object fs => (byName (fs.zip ds)).mapM Prod.snd
  | .union .. | .intersection _ => Hasher.sortDigests <$> ds.mapM fun x => x
  | _ => ds.mapM fun x => x

theorem payload_congr (h : ∀ k, l.target = some k → flags.take k = flags'.take k) :
    l.payload flags = l.payload flags' := by
  unfold payload
  split
  · cases ht : l.target with
    | none => rfl
    | some k => rw [Option.map_some, Option.map_some, h k ht]
  all_goals rfl

end Label

/-! ## Hashes -/

namespace Tree

variable {d : Digester} {a : Algorithm} {l : Label} {t : Tree} {ts : List Tree}
  {flags flags' : List Bool}

mutual

/-- The digest of a tree. The flags tell which of the nodes above it are named. -/
def digest (d : Digester) (a : Algorithm) (flags : List Bool) : Tree → Except Json.WriteError String
  | node l ts => do
    let named := names 0 (node l ts)
    let ds ← l.arrange (digestAll d a (named :: flags) ts)
    d.node a l.shape.kind (sharedPayload (l.payload (named :: flags)) l.tags named) ds

def digestAll (d : Digester) (a : Algorithm) (flags : List Bool) :
    List Tree → List (Except Json.WriteError String)
  | [] => []
  | t :: ts => digest d a flags t :: digestAll d a flags ts

end

/-- The hash of a tree, unless a recursion is unresolved. -/
def hash (d : Digester) (a : Algorithm) (t : Tree) : Except Json.WriteError (Option String) :=
  (t.digest d a []).map fun x => if t.unresolved then none else some x

theorem digestAll_eq : digestAll d a flags ts = ts.map (digest d a flags) := by
  induction ts with
  | nil => rfl
  | cons t ts ih => rw [digestAll, ih, List.map_cons]

theorem digest_node : (node l ts).digest d a flags = (do
    let ds ← l.arrange (ts.map (digest d a ((node l ts).names 0 :: flags)))
    d.node a l.shape.kind
      (sharedPayload (l.payload ((node l ts).names 0 :: flags)) l.tags ((node l ts).names 0)) ds) := by
  rw [digest, digestAll_eq]

/-- The nodes above those that a tree refers to do not matter for its digest. -/
theorem digest_append_congr (inner : List Bool) (h : t.Within inner.length) :
    t.digest d a (inner ++ flags) = t.digest d a (inner ++ flags') := by
  induction t generalizing inner with
  | node l ts ih =>
    cases h with
    | mk htarget hc =>
      rw [digest_node, digest_node]
      generalize (node l ts).names 0 = named
      have hbelow : ts.map (digest d a (named :: (inner ++ flags))) =
          ts.map (digest d a (named :: (inner ++ flags'))) :=
        List.map_congr_left fun t ht => ih t ht (named :: inner) (hc t ht)
      have hpayload : l.payload (named :: (inner ++ flags)) = l.payload (named :: (inner ++ flags')) := by
        refine Label.payload_congr fun k hk => ?_
        have hle : k ≤ (named :: inner).length := (htarget k hk).trans (Nat.le_succ _)
        rw [← List.cons_append, ← List.cons_append, List.take_append_of_le_length hle,
          List.take_append_of_le_length hle]
      rw [hbelow, hpayload]

end Tree

end TypeAtlas
