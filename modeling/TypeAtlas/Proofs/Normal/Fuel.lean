import TypeAtlas.Proofs.Graph.WellFormed
import TypeAtlas.Proofs.Normal.Unfailing

/-! # The fuel of a fold

The fuel bounds how deep a fold goes, and how deep composites are nested. All nodes on the way down are
different, and so are the composites whose members have been spliced: there are no more of them than
nodes, so the fuel never runs out.
-/

namespace TypeAtlas.Folding

variable {s : Setting} {members? : Shape → Option (List NodeId)} {ids : List NodeId}
  {path seen : Std.ExtTreeSet NodeId} {id x : NodeId} {fuel more : ℕ} {A : Arena}

theorem toList_subperm {xs : List NodeId} (h : ∀ x ∈ path, x ∈ xs) : path.toList.Subperm xs := by
  have hnodup : path.toList.Nodup :=
    Std.ExtTreeSet.distinct_toList.imp fun hab he => hab (by simp [he])
  exact hnodup.subperm fun x hx => h x (Std.ExtTreeSet.mem_toList.1 hx)

theorem size_le_size (h : ∀ x ∈ path, x ∈ seen) : path.size ≤ seen.size := by
  rw [← Std.ExtTreeSet.length_toList, ← Std.ExtTreeSet.length_toList]
  exact (toList_subperm fun x hx => Std.ExtTreeSet.mem_toList.2 (h x hx)).length_le

theorem toList_subperm_keys (h : ∀ x ∈ path, x ∈ A) : path.toList.Subperm A.keys :=
  toList_subperm fun x hx => Std.ExtTreeMap.mem_keys.2 (h x hx)

theorem size_le_of_subset (h : ∀ x ∈ path, x ∈ A) : path.size ≤ A.size := by
  rw [← Std.ExtTreeSet.length_toList, ← Std.ExtTreeMap.length_keys]
  exact (toList_subperm_keys h).length_le

theorem mem_of_size_le (h : ∀ x ∈ path, x ∈ A) (hsize : A.size ≤ path.size) (hx : x ∈ A) :
    x ∈ path := by
  have hperm : path.toList.Perm A.keys := (toList_subperm_keys h).perm_of_length_le (by
    rwa [Std.ExtTreeSet.length_toList, Std.ExtTreeMap.length_keys])
  exact Std.ExtTreeSet.mem_toList.1 (hperm.mem_iff.2 (Std.ExtTreeMap.mem_keys.2 hx))

theorem size_insert_of_not_mem (h : x ∉ path) : (path.insert x).size = path.size + 1 := by
  rw [Std.ExtTreeSet.size_insert, if_neg]
  exact h

theorem forall_mem_insert {P : NodeId → Prop} (hx : P x) (h : ∀ y ∈ path, P y) :
    ∀ y ∈ path.insert x, P y := by
  intro y hy
  rcases Std.ExtTreeSet.mem_insert.1 hy with he | hy
  · obtain rfl : x = y := by simpa using he
    exact hx
  · exact h y hy

/-! ## Nested composites -/

theorem exists_of_spliceable {inner : List NodeId} (h : spliceable? s members? id = some inner) :
    ∃ n, s.graph.node? id = some n ∧ members? n.shape = some inner := by
  unfold spliceable? at h
  split at h
  · next n hn =>
    split at h
    · exact ⟨n, hn, h⟩
    · cases h
  · cases h

theorem plain_of_spliceable {inner : List NodeId} (h : spliceable? s members? id = some inner) : s.binders.contains id = false := by
  unfold spliceable? at h
  split at h
  · split at h
    · next hplain => simpa using (Bool.and_eq_true_iff.1 hplain).2
    · cases h
  · cases h

theorem mem_of_spliceable {inner : List NodeId} (h : spliceable? s members? id = some inner) :
    id ∈ s.graph.nodes := by
  obtain ⟨n, hn, -⟩ := exists_of_spliceable h
  exact mem_iff_exists_getElem?.2 ⟨n, hn⟩

theorem seen_of_flatten (members? : Shape → Option (List NodeId)) (fuel : ℕ) (ids : List NodeId)
    (h : ∀ x ∈ seen, x ∈ s.graph.nodes) :
    (∀ x ∈ (flatten s members? fuel ids seen).2, x ∈ s.graph.nodes) ∧
      ∀ x ∈ seen, x ∈ (flatten s members? fuel ids seen).2 := by
  induction fuel generalizing ids seen with
  | zero => exact ⟨h, fun _ hx => hx⟩
  | succ fuel ih =>
    rw [flatten]
    refine List.foldlRecOn (motive := fun acc : List NodeId × Std.ExtTreeSet NodeId =>
      (∀ x ∈ acc.2, x ∈ s.graph.nodes) ∧ ∀ x ∈ seen, x ∈ acc.2) ids _ ?_ ?_
    · exact ⟨h, fun _ hx => hx⟩
    intro acc hacc id _
    split
    · next inner hinner =>
      split
      · exact hacc
      · obtain ⟨hnodes, hseen⟩ := ih inner
          (forall_mem_insert (mem_of_spliceable hinner) hacc.1)
        exact ⟨hnodes, fun x hx =>
          hseen x (Std.ExtTreeSet.mem_insert.2 (.inr (hacc.2 x hx)))⟩
    · exact hacc

theorem foldl_eq_of_inv {α β : Type} {I : β → Prop} {f g : β → α → β} {xs : List α} {b : β}
    (hb : I b) (h : ∀ b x, I b → f b x = g b x ∧ I (f b x)) : xs.foldl f b = xs.foldl g b := by
  induction xs generalizing b with
  | nil => rfl
  | cons x xs ih =>
    obtain ⟨he, hI⟩ := h b x hb
    rw [List.foldl_cons, List.foldl_cons, ih hI, he]

/-- With fuel for every composite that has not been spliced, more of it changes nothing. -/
theorem flatten_eq_of_le (hseen : ∀ x ∈ seen, x ∈ s.graph.nodes)
    (hfuel : s.graph.nodes.size ≤ fuel + seen.size) (hle : fuel ≤ more) :
    flatten s members? fuel ids seen = flatten s members? more ids seen := by
  induction fuel generalizing more ids seen with
  | zero =>
    refine (flatten_of_seen (fun id _ inner hinner => ?_) more).symm
    exact mem_of_size_le hseen (by omega) (mem_of_spliceable hinner)
  | succ fuel ih =>
    obtain ⟨k, rfl⟩ : ∃ k, more = k + 1 := ⟨more - 1, by omega⟩
    rw [flatten, flatten]
    refine foldl_eq_of_inv (I := fun acc : List NodeId × Std.ExtTreeSet NodeId =>
      (∀ x ∈ acc.2, x ∈ s.graph.nodes) ∧ s.graph.nodes.size ≤ fuel + 1 + acc.2.size)
      (b := ([], seen)) ⟨hseen, hfuel⟩ ?_
    rintro acc id ⟨hacc, hsize⟩
    cases hinner : spliceable? s members? id with
    | none => exact ⟨rfl, hacc, hsize⟩
    | some inner =>
      dsimp only
      split
      · exact ⟨rfl, hacc, hsize⟩
      · next hnew =>
        have hins := forall_mem_insert (mem_of_spliceable hinner) hacc
        have hgrown : (acc.2.insert id).size = acc.2.size + 1 := size_insert_of_not_mem hnew
        obtain ⟨hnodes, hkept⟩ := seen_of_flatten members? fuel inner hins
        have hlarger := size_le_size hkept
        rw [← ih hins (by omega) (by omega : fuel ≤ k)]
        exact ⟨rfl, hnodes, by dsimp only; omega⟩

/-! ## Nodes -/

/-- With fuel for every node that is not on the path, more of it changes nothing. -/
theorem build_eq_of_le (s : Setting) (path : Std.ExtTreeSet NodeId) (hpath : ∀ x ∈ path, x ∈ s.graph.nodes)
    (hfuel : s.graph.nodes.size < fuel + path.size) (hle : fuel ≤ more) :
    build s fuel path = build s more path := by
  induction fuel generalizing more path with
  | zero =>
    have := size_le_of_subset hpath
    omega
  | succ fuel ih =>
    obtain ⟨k, rfl⟩ : ∃ k, more = k + 1 := ⟨more - 1, by omega⟩
    funext stack field id
    rw [build, build]
    refine bind_congr fun _ => bind_congr fun st => ?_
    split
    · rfl
    · split
      · rfl
      · next n hn =>
        split
        · rfl
        · next hnew =>
          have hid : id ∈ s.graph.nodes := mem_iff_exists_getElem?.2 ⟨n, hn⟩
          have hgrown : (path.insert id).size = path.size + 1 := size_insert_of_not_mem hnew
          rw [ih _ (forall_mem_insert hid hpath) (by omega) (by omega : fuel ≤ k)]

/-- The fuel suffices: with more of it a fold does the same. -/
structure Ample (s : Setting) : Prop where
  flatten (members? : Shape → Option (List NodeId)) (ids : List NodeId) (fuel : ℕ)
    (h : s.graph.nodes.size ≤ fuel) :
    flatten s members? fuel ids ∅ = flatten s members? s.graph.nodes.size ids ∅
  build (fuel : ℕ) (h : s.graph.nodes.size < fuel) : build s fuel ∅ [] none s.graph.root = root s

theorem ample (s : Setting) : Ample s where
  flatten members? ids fuel h := (flatten_eq_of_le (by simp) (by simp) h).symm
  build fuel h := by
    rw [root, ← build_eq_of_le s ∅ (by simp) (by simp) h]

end TypeAtlas.Folding
