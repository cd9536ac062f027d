import Mathlib.Data.List.Sort
import Mathlib.Data.String.Basic
import TypeAtlas.Proofs.Reference.Components
import TypeAtlas.Proofs.Run

/-! # The search finds the components

Wherever the search stands, the symbols whose component is complete form a part of the graph that no
reference leaves. The symbols on the stack each lead back to one that is still being visited, and those
being visited lead to all that lies above them. So a visit that gets back to nothing further down has a
component on top of the stack.
-/

namespace TypeAtlas.ReferenceGraph

open Relation

variable {g : ReferenceGraph} {st st' st'' : Search} {opened : List String} {a b node root : String}
  {low fuel : ℕ}

/-! ## Positions -/

namespace Search

def rank (st : Search) (a : String) : ℕ := st.indices.getD a 0

/-- The component of a symbol is complete. -/
def Complete (st : Search) (a : String) : Prop := a ∈ st.indices ∧ a ∉ st.stack

/-- A later state of a search keeps the positions, and gives higher ones to what is new. -/
structure Extends (st st' : Search) : Prop where
  index : st.index ≤ st'.index
  kept : ∀ a ∈ st.indices, a ∈ st'.indices ∧ st'.rank a = st.rank a
  later : ∀ a ∈ st'.indices, a ∉ st.indices → st.index ≤ st'.rank a

theorem Extends.refl (st : Search) : st.Extends st :=
  ⟨le_rfl, fun _ ha => ⟨ha, rfl⟩, fun _ ha hnew => absurd ha hnew⟩

theorem Extends.trans (h : st.Extends st') (h' : st'.Extends st'') : st.Extends st'' where
  index := h.index.trans h'.index
  kept a ha := by
    obtain ⟨hmem, hrank⟩ := h.kept a ha
    obtain ⟨hmem', hrank'⟩ := h'.kept a hmem
    exact ⟨hmem', hrank'.trans hrank⟩
  later a ha hnew := by
    by_cases hmem : a ∈ st'.indices
    · rw [(h'.kept a hmem).2]
      exact h.later a hmem hnew
    · exact h.index.trans (h'.later a ha hmem)

theorem rank_of_getElem? {i : ℕ} (h : st.indices[a]? = some i) : st.rank a = i := by
  rw [rank, Std.ExtTreeMap.getD_eq_getD_getElem?, h, Option.getD_some]

theorem mem_enter : a ∈ (st.enter node).indices ↔ a = node ∨ a ∈ st.indices := by
  rw [enter, Std.ExtTreeMap.mem_insert, Std.LawfulEqCmp.compare_eq_iff_eq, eq_comm]

theorem rank_enter : (st.enter node).rank a = if a = node then st.index else st.rank a := by
  simp only [rank, enter, Std.ExtTreeMap.getD_insert, Std.LawfulEqCmp.compare_eq_iff_eq,
    @eq_comm _ node a]

theorem extends_enter (hnode : node ∉ st.indices) : st.Extends (st.enter node) where
  index := Nat.le_succ _
  kept a ha := by
    have hne : a ≠ node := fun h => hnode (h ▸ ha)
    exact ⟨mem_enter.2 (.inr ha), by rw [rank_enter, if_neg hne]⟩
  later a ha hnew := by
    obtain rfl := (mem_enter.1 ha).resolve_right hnew
    rw [rank_enter, if_pos rfl]

end Search

/-! ## The invariant -/

/-- What holds of a search while some symbols are being visited. -/
structure Sound (g : ReferenceGraph) (opened : List String) (st : Search) : Prop where
  below : ∀ a ∈ st.indices, st.rank a < st.index
  indexed : ∀ a ∈ st.stack, a ∈ st.indices
  ordered : st.stack.Pairwise fun a b => st.rank b < st.rank a
  standing : ∀ p ∈ opened, p ∈ st.stack
  closed : ∀ a b, st.Complete a → g.Refers a b → st.Complete b
  followed : ∀ a ∈ st.stack, a ∉ opened → ∀ b, g.Refers a b → b ∈ st.indices
  returns : ∀ a ∈ st.stack, ∃ p ∈ opened, st.rank p ≤ st.rank a ∧ ReflTransGen g.Refers a p
  leads : ∀ p ∈ opened, ∀ a ∈ st.stack, st.rank p ≤ st.rank a → ReflTransGen g.Refers p a
  groups : ∀ group, group ∈ st.groups ↔ IsComponent g.Refers group ∧ ∀ a ∈ group, st.Complete a
  nodup : st.groups.Nodup

theorem sound_empty (g : ReferenceGraph) : Sound g [] {} where
  below a ha := absurd ha Std.ExtTreeMap.not_mem_empty
  indexed a ha := absurd ha List.not_mem_nil
  ordered := .nil
  standing p hp := absurd hp List.not_mem_nil
  closed a b ha := absurd ha.1 Std.ExtTreeMap.not_mem_empty
  followed a ha := absurd ha List.not_mem_nil
  returns a ha := absurd ha List.not_mem_nil
  leads p hp := absurd hp List.not_mem_nil
  groups group := by
    constructor
    · intro h
      cases h
    · rintro ⟨h, hall⟩
      obtain ⟨a, ha, -⟩ := h.joined
      exact absurd (hall a ha).1 Std.ExtTreeMap.not_mem_empty
  nodup := .nil

theorem Sound.complete_of_reaches (h : Sound g opened st) (ha : st.Complete a)
    (hab : ReflTransGen g.Refers a b) : st.Complete b := by
  induction hab with
  | refl => exact ha
  | tail _ hrefers ih => exact h.closed _ _ ih hrefers

theorem Sound.enter (h : Sound g opened st) (hnode : node ∉ st.indices)
    (hreach : ∀ p ∈ opened, ReflTransGen g.Refers p node) : Sound g (node :: opened) (st.enter node) := by
  have hkept := st.extends_enter hnode
  have hrank : (st.enter node).rank node = st.index := by rw [Search.rank_enter, if_pos rfl]
  have hkeep {a : String} (ha : a ∈ st.stack) : (st.enter node).rank a = st.rank a :=
    (hkept.kept a (h.indexed a ha)).2
  have hcomplete (a : String) : (st.enter node).Complete a ↔ st.Complete a := by
    constructor
    · rintro ⟨hmem, hstack⟩
      have hne := List.ne_of_not_mem_cons hstack
      exact ⟨(Search.mem_enter.1 hmem).resolve_left hne, List.not_mem_of_not_mem_cons hstack⟩
    · rintro ⟨hmem, hstack⟩
      have hne : a ≠ node := fun he => hnode (he ▸ hmem)
      exact ⟨Search.mem_enter.2 (.inr hmem), List.not_mem_cons_of_ne_of_not_mem hne hstack⟩
  constructor
  case below =>
    intro a ha
    rw [Search.rank_enter]
    split
    · exact Nat.lt_succ_self _
    · next hne => exact Nat.lt_succ_of_lt (h.below a ((Search.mem_enter.1 ha).resolve_left hne))
  case indexed =>
    intro a ha
    exact Search.mem_enter.2 ((List.mem_cons.1 ha).imp_right (h.indexed a))
  case ordered =>
    refine List.pairwise_cons.2 ⟨fun a ha => ?_, h.ordered.imp_of_mem fun ha hb hab => ?_⟩
    · rw [hkeep ha, hrank]
      exact h.below a (h.indexed a ha)
    · rw [hkeep ha, hkeep hb]
      exact hab
  case standing =>
    intro p hp
    exact List.mem_cons.2 ((List.mem_cons.1 hp).imp_right (h.standing p))
  case closed =>
    intro a b ha hrefers
    exact (hcomplete b).2 (h.closed a b ((hcomplete a).1 ha) hrefers)
  case followed =>
    intro a ha hopened b hrefers
    have ha := (List.mem_cons.1 ha).resolve_left (List.ne_of_not_mem_cons hopened)
    exact Search.mem_enter.2 (.inr (h.followed a ha (List.not_mem_of_not_mem_cons hopened) b hrefers))
  case returns =>
    intro a ha
    rcases List.mem_cons.1 ha with rfl | ha
    · exact ⟨a, List.mem_cons_self, le_rfl, .refl⟩
    · obtain ⟨p, hp, hle, hreaches⟩ := h.returns a ha
      exact ⟨p, List.mem_cons_of_mem _ hp, by rwa [hkeep (h.standing p hp), hkeep ha], hreaches⟩
  case leads =>
    intro p hp a ha hle
    rcases List.mem_cons.1 ha with rfl | hbelow
    · rcases List.mem_cons.1 hp with rfl | hp
      · exact .refl
      · exact hreach p hp
    · rcases List.mem_cons.1 hp with rfl | hp
      · rw [hrank, hkeep hbelow] at hle
        exact absurd (h.below a (h.indexed a hbelow)) (not_lt.2 hle)
      · rw [hkeep (h.standing p hp), hkeep hbelow] at hle
        exact h.leads p hp a hbelow hle
  case groups =>
    intro group
    simp only [hcomplete]
    exact h.groups group
  case nodup => exact h.nodup

/-! ## Visits -/

/-- What a visit of a symbol leaves: new symbols on the stack only if it got back to one further down,
and no reference from them to below the position that it reports. -/
structure Visited (g : ReferenceGraph) (opened : List String) (st : Search) (node : String) (low : ℕ)
    (st' : Search) : Prop where
  sound : Sound g opened st'
  kept : st.Extends st'
  entered : node ∈ st'.indices
  stack : ∃ added, st'.stack = added ++ st.stack ∧ (∀ a ∈ added, a ∉ st.indices) ∧
    (∀ a ∈ added, ∀ b ∈ st.stack, g.Refers a b → low ≤ st.rank b) ∧
    (low = st.index ∧ added = [] ∨ ∃ b ∈ st.stack, st.rank b = low ∧ ReflTransGen g.Refers node b)

/-- The same within a visit, after some references of the symbol were followed. -/
structure Visiting (g : ReferenceGraph) (opened : List String) (st : Search) (node : String)
    (seen : List String) (low : ℕ) (st' : Search) : Prop where
  sound : Sound g (node :: opened) st'
  kept : (st.enter node).Extends st'
  seen : ∀ b ∈ seen, b ∈ st'.indices ∧ (b ∈ st.stack → low ≤ st.rank b)
  stack : ∃ added, st'.stack = added ++ node :: st.stack ∧
    (∀ a ∈ added, a ≠ node ∧ a ∉ st.indices) ∧
    ∀ a ∈ added, ∀ b ∈ st.stack, g.Refers a b → low ≤ st.rank b
  low : low = st.index ∨ ∃ b ∈ st.stack, st.rank b = low ∧ ReflTransGen g.Refers node b

namespace Visiting

variable {seen : List String}

theorem rank_eq (h : Visiting g opened st node seen low st') (hs : Sound g opened st)
    (hnode : node ∉ st.indices) :
    st'.rank node = st.index ∧ ∀ b ∈ st.stack, st'.rank b = st.rank b := by
  constructor
  · rw [(h.kept.kept node (Search.mem_enter.2 (.inl rfl))).2, Search.rank_enter, if_pos rfl]
  · intro b hb
    exact (((st.extends_enter hnode).trans h.kept).kept b (hs.indexed b hb)).2

theorem low_le (h : Visiting g opened st node seen low st') (hs : Sound g opened st) : low ≤ st.index := by
  rcases h.low with rfl | ⟨b, hb, rfl, -⟩
  · exact le_rfl
  · exact (hs.below b (hs.indexed b hb)).le

/-- What lies on the stack above the symbols below has a position at least as high as the symbol's. -/
theorem index_le (h : Visiting g opened st node seen low st') (hs : Sound g opened st)
    (hnode : node ∉ st.indices) (hb : b ∈ st'.stack) (hnew : b ∉ st.stack) : st.index ≤ st'.rank b := by
  obtain ⟨added, hstack, hadded, -⟩ := h.stack
  rw [hstack] at hb
  rcases List.mem_append.1 hb with hmem | hmem
  · refine ((st.extends_enter hnode).trans h.kept).later b ?_ (hadded b hmem).2
    exact h.sound.indexed b (hstack ▸ List.mem_append_left _ hmem)
  · rcases List.mem_cons.1 hmem with rfl | hmem
    · exact (h.rank_eq hs hnode).1.ge
    · exact absurd hmem hnew

end Visiting

theorem visiting_enter (hs : Sound g opened st) (hnode : node ∉ st.indices)
    (hreach : ∀ p ∈ opened, ReflTransGen g.Refers p node) :
    Visiting g opened st node [] st.index (st.enter node) where
  sound := hs.enter hnode hreach
  kept := .refl _
  seen _ hb := absurd hb List.not_mem_nil
  stack := ⟨[], rfl, by simp, by simp⟩
  low := .inl rfl

section Follow

variable {visit : String → Search → Except SearchFault (ℕ × Search)}

theorem follow_of_new {reached : ℕ} (hb : b ∉ st.indices) (hvisit : visit b st = .ok (reached, st')) :
    follow visit (low, st) b = .ok (min low reached, st') := by
  rw [follow, Std.ExtTreeMap.getElem?_eq_none hb]
  simp only [hvisit]
  rfl

theorem follow_of_mem (hb : b ∈ st.indices) :
    follow visit (low, st) b = .ok (if b ∈ st.stack then min low (st.rank b) else low, st) := by
  rw [follow, Std.ExtTreeMap.getElem?_eq_some_getElem hb,
    Search.rank_of_getElem? (Std.ExtTreeMap.getElem?_eq_some_getElem hb)]
  rfl

/-- A reference to a symbol that was visited is followed by visiting it, and to another one by looking
at its position. -/
theorem visiting_follow {seen : List String} (hs : Sound g opened st)
    (hnode : node ∉ st.indices) (h : Visiting g opened st node seen low st') (hrefers : g.Refers node b)
    (hvisit : b ∉ st'.indices → ∃ reached st'', visit b st' = .ok (reached, st'') ∧
      Visited g (node :: opened) st' b reached st'') :
    ∃ low' st'', follow visit (low, st') b = .ok (low', st'') ∧
      Visiting g opened st node (b :: seen) low' st'' := by
  obtain ⟨hrankNode, hrank⟩ := h.rank_eq hs hnode
  obtain ⟨added, hstack, hadded, hedges⟩ := h.stack
  have hbelow {c : String} (hc : c ∈ st.stack) : c ∈ st'.stack :=
    hstack ▸ List.mem_append_right _ (List.mem_cons_of_mem _ hc)
  -- A position on the stack that is reached counts only if it lies below the symbol.
  have hlow {i : ℕ} (hi : ∃ c ∈ st'.stack, st'.rank c = i ∧ ReflTransGen g.Refers b c) :
      min low i = st.index ∨ ∃ c ∈ st.stack, st.rank c = min low i ∧ ReflTransGen g.Refers node c := by
    obtain ⟨c, hc, rfl, hreaches⟩ := hi
    rcases le_total low (st'.rank c) with hle | hle
    · rw [min_eq_left hle]
      exact h.low
    · rw [min_eq_right hle]
      by_cases hmem : c ∈ st.stack
      · exact .inr ⟨c, hmem, (hrank c hmem).symm, .head hrefers hreaches⟩
      · have hge := h.index_le hs hnode hc hmem
        exact .inl (le_antisymm (hle.trans (h.low_le hs)) hge)
  by_cases hmem : b ∈ st'.indices
  case neg =>
    obtain ⟨reached, st'', hvisited, hv⟩ := hvisit hmem
    obtain ⟨more, hstack', hmore, hedges', hreached⟩ := hv.stack
    refine ⟨min low reached, st'', follow_of_new hmem hvisited, hv.sound, h.kept.trans hv.kept, ?_,
      ⟨more ++ added, by rw [hstack', hstack, List.append_assoc], ?_, ?_⟩, ?_⟩
    · intro c hc
      rcases List.mem_cons.1 hc with rfl | hc
      · exact ⟨hv.entered, fun hon => absurd (h.sound.indexed c (hbelow hon)) hmem⟩
      · exact ⟨(hv.kept.kept c (h.seen c hc).1).1, fun hmem => (min_le_left _ _).trans ((h.seen c hc).2 hmem)⟩
    · intro a ha
      rcases List.mem_append.1 ha with ha | ha
      · constructor
        · rintro rfl
          exact hmore a ha (h.kept.kept a (Search.mem_enter.2 (.inl rfl))).1
        · exact fun hmem => hmore a ha (h.kept.kept a (Search.mem_enter.2 (.inr hmem))).1
      · exact hadded a ha
    · intro a ha c hc hac
      rcases List.mem_append.1 ha with ha | ha
      · have hle := hedges' a ha c (hbelow hc) hac
        rw [hrank c hc] at hle
        exact (min_le_right _ _).trans hle
      · exact (min_le_left _ _).trans (hedges a ha c hc hac)
    · rcases hreached with ⟨rfl, -⟩ | hreached
      · have hle : st.index ≤ st'.index := (Nat.le_succ _).trans h.kept.index
        rw [min_eq_left ((h.low_le hs).trans hle)]
        exact h.low
      · exact hlow hreached
  case pos =>
    by_cases hon : b ∈ st'.stack
    · refine ⟨min low (st'.rank b), st', by rw [follow_of_mem hmem, if_pos hon], h.sound, h.kept, ?_,
        ⟨added, hstack, hadded, fun a ha c hc hac => (min_le_left _ _).trans (hedges a ha c hc hac)⟩,
        hlow ⟨b, hon, rfl, .refl⟩⟩
      intro c hc
      rcases List.mem_cons.1 hc with rfl | hc
      · exact ⟨hmem, fun hbelow => hrank c hbelow ▸ min_le_right _ _⟩
      · exact ⟨(h.seen c hc).1, fun hbelow => (min_le_left _ _).trans ((h.seen c hc).2 hbelow)⟩
    · refine ⟨low, st', by rw [follow_of_mem hmem, if_neg hon], h.sound, h.kept, ?_, h.stack, h.low⟩
      intro c hc
      rcases List.mem_cons.1 hc with rfl | hc
      · exact ⟨hmem, fun hmem => absurd (hbelow hmem) hon⟩
      · exact h.seen c hc

end Follow

/-! ## Components -/

theorem popComponent_append {added stack : List String} (hadded : ∀ a ∈ added, a ≠ root) :
    popComponent root (added ++ root :: stack) = .ok (added ++ [root], stack) := by
  induction added with
  | nil =>
    rw [List.nil_append, popComponent, if_pos rfl]
    rfl
  | cons member added ih =>
    obtain ⟨hmember, hadded⟩ := List.forall_mem_cons.1 hadded
    rw [List.cons_append, popComponent, if_neg hmember, ih hadded]
    rfl

theorem pairwise_lt_mergeSort {α : Type} [LinearOrder α] {le : α → α → Bool}
    (hle : ∀ a b, le a b ↔ ¬ b < a) {l : List α} (hl : l.Nodup) :
    (l.mergeSort le).Pairwise (· < ·) := by
  have hsorted : (l.mergeSort le).Pairwise fun a b => le a b := by
    apply List.pairwise_mergeSort
    · simp only [hle, not_lt]
      exact fun a b c => le_trans
    · simp only [Bool.or_eq_true, hle, not_lt]
      exact le_total
  have hne : (l.mergeSort le).Nodup := (List.mergeSort_perm l le).nodup_iff.2 hl
  refine (hsorted.and hne).imp fun ⟨hab, hne⟩ => ?_
  exact lt_of_le_of_ne (not_lt.1 ((hle _ _).1 hab)) hne

/-- The symbols that are joined with one, sorted, are a component as far as they are several or the
symbol refers to itself. -/
theorem isComponent_mergeSort {component : List String} (hnodup : component.Nodup)
    (hjoined : ∀ b, b ∈ component ↔ Joined g.Refers node b) :
    IsComponent g.Refers (component.mergeSort fun a b => decide (a ≤ b)) ↔
      (1 < component.length || (g.successors node).contains node) = true := by
  have hnode : node ∈ component := (hjoined node).2 ⟨.refl, .refl⟩
  rw [Bool.or_eq_true, decide_eq_true_eq, List.contains_iff_mem]
  constructor
  · intro h
    rcases h.recursive with hlength | ⟨a, ha, hself⟩
    · exact .inl (by rwa [List.length_mergeSort] at hlength)
    · by_cases hlength : 1 < component.length
      · exact .inl hlength
      · -- The only member is the symbol itself.
        obtain ⟨b, rfl⟩ := List.length_eq_one_iff.1
          (le_antisymm (not_lt.1 hlength) (List.length_pos_of_mem hnode))
        obtain rfl := List.mem_singleton.1 hnode
        obtain rfl := List.mem_singleton.1 (List.mem_mergeSort.1 ha)
        exact .inr hself
  · intro h
    constructor
    case sorted => exact pairwise_lt_mergeSort (fun _ _ => decide_eq_true_iff.trans not_lt.symm) hnodup
    case joined => exact ⟨node, List.mem_mergeSort.2 hnode, fun b => by rw [List.mem_mergeSort, hjoined]⟩
    case recursive =>
      rw [List.length_mergeSort]
      exact h.imp_right fun hself => ⟨node, List.mem_mergeSort.2 hnode, hself⟩

theorem IsComponent.eq_mergeSort {component group : List String} (hnodup : component.Nodup)
    (hjoined : ∀ b, b ∈ component ↔ Joined g.Refers node b) (h : IsComponent g.Refers group) (ha : a ∈ group)
    (hmem : a ∈ component) : group = component.mergeSort fun a b => decide (a ≤ b) := by
  refine List.Pairwise.eq_of_mem_iff h.sorted (pairwise_lt_mergeSort (fun _ _ => decide_eq_true_iff.trans not_lt.symm) hnodup) fun b => ?_
  have hnode := (hjoined a).1 hmem
  rw [List.mem_mergeSort, hjoined, h.mem_iff ha]
  exact ⟨hnode.trans, hnode.symm.trans⟩

section Completing

variable {component below : List String}

theorem complete_complete_iff {refersToItself : Bool} (h : Sound g opened st) (hsplit : st.stack = component ++ below)
    (hdisjoint : ∀ a ∈ component, a ∉ below) :
    (st.complete refersToItself component below).Complete a ↔ a ∈ component ∨ st.Complete a := by
  constructor
  · rintro ⟨hmem, hoff⟩
    by_cases ha : a ∈ component
    · exact .inl ha
    · refine .inr ⟨hmem, fun hin => ?_⟩
      rcases List.mem_append.1 (hsplit ▸ hin) with hin | hin
      · exact ha hin
      · exact hoff hin
  · rintro (ha | ha)
    · exact ⟨h.indexed a (hsplit ▸ List.mem_append_left _ ha), hdisjoint a ha⟩
    · exact ⟨ha.1, fun hin => ha.2 (hsplit ▸ List.mem_append_right _ hin)⟩

theorem mem_groups_complete {group : List String} (hnodup : component.Nodup)
    (hjoined : ∀ b, b ∈ component ↔ Joined g.Refers node b) :
    group ∈ (st.complete ((g.successors node).contains node) component below).groups ↔ group ∈ st.groups ∨
      IsComponent g.Refers group ∧ group = component.mergeSort fun a b => decide (a ≤ b) := by
  have hiff := isComponent_mergeSort hnodup hjoined
  rw [Search.complete]
  split
  · next hrecursive =>
    rw [List.mem_append, List.mem_singleton]
    exact or_congr_right ⟨fun he => ⟨he ▸ hiff.2 hrecursive, he⟩, And.right⟩
  · next hplain =>
    refine ⟨.inl, fun hcases => hcases.resolve_right ?_⟩
    rintro ⟨hcomponent, rfl⟩
    exact hplain (hiff.1 hcomponent)

/-- The component of the symbol visited last is on top of the stack, and is taken from it. -/
theorem Sound.complete (h : Sound g (node :: opened) st) (hsplit : st.stack = component ++ below)
    (hself : node ∈ component) (hstanding : ∀ p ∈ opened, p ∈ below)
    (hjoined : ∀ b, b ∈ component ↔ Joined g.Refers node b)
    (hleaves : ∀ a b, a ∈ component → g.Refers a b → b ∈ component ∨ st.Complete b) :
    Sound g opened (st.complete ((g.successors node).contains node) component below) := by
  obtain ⟨habove, hbelow, hlt⟩ := List.pairwise_append.1 (hsplit ▸ h.ordered)
  have hnodup : component.Nodup := habove.imp fun hlt he => absurd (he ▸ hlt) (lt_irrefl _)
  have hdisjoint (a : String) (ha : a ∈ component) : a ∉ below := fun hmem =>
    absurd (hlt a ha a hmem) (lt_irrefl _)
  have hon {a : String} (ha : a ∈ below) : a ∈ st.stack := hsplit ▸ List.mem_append_right _ ha
  have htop : node ∈ st.stack := hsplit ▸ List.mem_append_left _ hself
  constructor
  case below => exact h.below
  case indexed => exact fun a ha => h.indexed a (hon ha)
  case ordered => exact hbelow
  case standing => exact hstanding
  case closed =>
    intro a b ha hrefers
    rw [complete_complete_iff h hsplit hdisjoint] at ha ⊢
    rcases ha with ha | ha
    · exact hleaves a b ha hrefers
    · exact .inr (h.closed a b ha hrefers)
  case followed =>
    intro a ha hopened b hrefers
    refine h.followed a (hon ha) (List.not_mem_cons_of_ne_of_not_mem ?_ hopened) b hrefers
    rintro rfl
    exact hdisjoint a hself ha
  case returns =>
    intro a ha
    obtain ⟨p, hp, hle, hto⟩ := h.returns a (hon ha)
    rcases List.mem_cons.1 hp with rfl | hp
    · exact absurd (hlt p hself a ha) (not_lt.2 hle)
    · exact ⟨p, hp, hle, hto⟩
  case leads => exact fun p hp a ha => h.leads p (List.mem_cons_of_mem _ hp) a (hon ha)
  case groups =>
    intro group
    simp only [mem_groups_complete hnodup hjoined, h.groups, complete_complete_iff h hsplit hdisjoint]
    constructor
    · rintro (⟨hgroup, hall⟩ | ⟨hgroup, rfl⟩)
      · exact ⟨hgroup, fun a ha => .inr (hall a ha)⟩
      · exact ⟨hgroup, fun a ha => .inl (List.mem_mergeSort.1 ha)⟩
    · rintro ⟨hgroup, hall⟩
      by_cases hmeets : ∃ a ∈ group, a ∈ component
      · obtain ⟨a, ha, hmem⟩ := hmeets
        exact .inr ⟨hgroup, IsComponent.eq_mergeSort hnodup hjoined hgroup ha hmem⟩
      · exact .inl ⟨hgroup, fun a ha => (hall a ha).resolve_left fun hmem => hmeets ⟨a, ha, hmem⟩⟩
  case nodup =>
    rw [Search.complete]
    split
    · refine List.nodup_append.2 ⟨h.nodup, List.nodup_singleton _, ?_⟩
      rintro group hgroup _ hnew rfl
      obtain rfl := List.mem_singleton.1 hnew
      exact (((h.groups _).1 hgroup).2 node (List.mem_mergeSort.2 hself)).2 htop
    · exact h.nodup

end Completing

namespace Visiting

variable {seen : List String}

/-- A visit that got back to nothing further down has the component of the symbol on top of the stack,
and no reference leads from it to what is further down. -/
theorem exists_component (h : Visiting g opened st node seen st.index st') (hs : Sound g opened st)
    (hnode : node ∉ st.indices) (hall : ∀ b, g.Refers node b → b ∈ seen) :
    ∃ added, st'.stack = added ++ node :: st.stack ∧ (∀ a ∈ added, a ≠ node ∧ a ∉ st.indices) ∧
      (∀ b, b ∈ added ++ [node] ↔ Joined g.Refers node b) ∧
      ∀ a b, a ∈ added ++ [node] → g.Refers a b → b ∈ added ++ [node] ∨ st'.Complete b := by
  obtain ⟨added, hstack, hadded, hedges⟩ := h.stack
  have hrank := h.rank_eq hs hnode
  have hsplit (b : String) : b ∈ st'.stack ↔ b ∈ added ++ [node] ∨ b ∈ st.stack := by
    simp [hstack, or_assoc]
  have habove {b : String} (hb : b ∈ added ++ [node]) : b ∈ st'.stack := (hsplit b).2 (.inl hb)
  have hnew {b : String} (hb : b ∈ added ++ [node]) : b ∉ st.stack := by
    intro hmem
    rcases List.mem_append.1 hb with hb | hb
    · exact (hadded b hb).2 (hs.indexed b hmem)
    · exact hnode (List.mem_singleton.1 hb ▸ hs.indexed b hmem)
  have hstep {a b : String} (ha : a ∈ added ++ [node]) (hrefers : g.Refers a b) :
      b ∈ added ++ [node] ∨ st'.Complete b := by
    have hentered : b ∈ st'.indices := by
      by_cases hanode : a = node
      · exact (h.seen b (hall b (hanode ▸ hrefers))).1
      · refine h.sound.followed a (habove ha) ?_ b hrefers
        rw [List.mem_cons, not_or]
        exact ⟨hanode, fun hopened => hnew ha (hs.standing a hopened)⟩
    by_cases hon : b ∈ st'.stack
    · refine .inl (((hsplit b).1 hon).resolve_right fun hmem => ?_)
      have hbound := hs.below b (hs.indexed b hmem)
      rcases List.mem_append.1 ha with ha | ha
      · exact absurd (hedges a ha b hmem hrefers) (not_le.2 hbound)
      · obtain rfl := List.mem_singleton.1 ha
        exact absurd ((h.seen b (hall b hrefers)).2 hmem) (not_le.2 hbound)
    · exact .inr ⟨hentered, hon⟩
  have hreach {a b : String} (ha : a ∈ added ++ [node]) (hab : ReflTransGen g.Refers a b) :
      b ∈ added ++ [node] ∨ st'.Complete b := by
    induction hab with
    | refl => exact .inl ha
    | tail _ hrefers ih =>
      rcases ih with hmem | hcomplete
      · exact hstep hmem hrefers
      · exact .inr (h.sound.closed _ _ hcomplete hrefers)
  have hself : node ∈ added ++ [node] := List.mem_append_right _ (List.mem_singleton_self node)
  refine ⟨added, hstack, hadded, fun b => ⟨fun hb => ⟨?_, ?_⟩, ?_⟩, fun a b => hstep⟩
  · refine h.sound.leads node List.mem_cons_self b (habove hb) ?_
    rw [hrank.1]
    exact h.index_le hs hnode (habove hb) (hnew hb)
  · obtain ⟨p, hp, -, hreaches⟩ := h.sound.returns b (habove hb)
    rcases List.mem_cons.1 hp with rfl | hp
    · exact hreaches
    · -- What is being visited further down is neither in the component nor complete.
      have hmem := hs.standing p hp
      rcases hreach hb hreaches with hin | hcomplete
      · exact absurd hmem (hnew hin)
      · exact absurd ((hsplit p).2 (.inr hmem)) hcomplete.2
  · rintro ⟨hto, hback⟩
    refine (hreach hself hto).resolve_right fun hcomplete => ?_
    exact (h.sound.complete_of_reaches hcomplete hback).2 (habove hself)

theorem visited (h : Visiting g opened st node seen low st') (hs : Sound g opened st) (hnode : node ∉ st.indices)
    (hall : ∀ b, g.Refers node b → b ∈ seen) (hlow : low ≠ st.index) : Visited g opened st node low st' := by
  obtain ⟨hrankNode, hrank⟩ := h.rank_eq hs hnode
  obtain ⟨added, hstack, hadded, hedges⟩ := h.stack
  obtain ⟨z, hz, hzlow, hreaches⟩ := h.low.resolve_left hlow
  have hbelow := hs.below z (hs.indexed z hz)
  have hon {c : String} (hc : c ∈ st.stack) : c ∈ st'.stack :=
    hstack ▸ List.mem_append_right _ (List.mem_cons_of_mem _ hc)
  have hmem : node ∈ st'.stack := hstack ▸ List.mem_append_right _ List.mem_cons_self
  constructor
  case sound =>
    refine { h.sound with standing := ?_, followed := ?_, returns := ?_, leads := ?_ }
    · exact fun p hp => hon (hs.standing p hp)
    · intro a ha hopened b hrefers
      by_cases hanode : a = node
      · exact (h.seen b (hall b (hanode ▸ hrefers))).1
      · exact h.sound.followed a ha (List.not_mem_cons_of_ne_of_not_mem hanode hopened) b hrefers
    · intro a ha
      obtain ⟨p, hp, hle, hto⟩ := h.sound.returns a ha
      rcases List.mem_cons.1 hp with rfl | hp
      · -- From the symbol the way goes on to where the visit got back to.
        obtain ⟨q, hq, hqle, hqto⟩ := hs.returns z hz
        refine ⟨q, hq, ?_, hto.trans (hreaches.trans hqto)⟩
        rw [hrank q (hs.standing q hq)]
        rw [hrankNode] at hle
        omega
      · exact ⟨p, hp, hle, hto⟩
    · exact fun p hp => h.sound.leads p (List.mem_cons_of_mem _ hp)
  case kept => exact (st.extends_enter hnode).trans h.kept
  case entered => exact h.sound.indexed node hmem
  case stack =>
    refine ⟨added ++ [node], by rw [hstack, List.append_assoc, List.singleton_append], ?_, ?_,
      .inr ⟨z, hz, hzlow, hreaches⟩⟩
    · intro a ha
      rcases List.mem_append.1 ha with ha | ha
      · exact (hadded a ha).2
      · exact List.mem_singleton.1 ha ▸ hnode
    · intro a ha b hb hrefers
      rcases List.mem_append.1 ha with ha | ha
      · exact hedges a ha b hb hrefers
      · obtain rfl := List.mem_singleton.1 ha
        exact (h.seen b (hall b hrefers)).2 hb

/-- A visit that got back to nothing further down takes the component of its symbol from the stack. -/
theorem exists_popped (h : Visiting g opened st node seen st.index st') (hs : Sound g opened st)
    (hnode : node ∉ st.indices) (hall : ∀ b, g.Refers node b → b ∈ seen) :
    ∃ component, popComponent node st'.stack = .ok (component, st.stack) ∧
      Visited g opened st node st.index
        (st'.complete ((g.successors node).contains node) component st.stack) := by
  obtain ⟨added, hstack, hadded, hjoined, hleaves⟩ := h.exists_component hs hnode hall
  have hself : node ∈ added ++ [node] := List.mem_append_right _ (List.mem_singleton_self node)
  have hsplit : st'.stack = (added ++ [node]) ++ st.stack := by
    rw [hstack, List.append_assoc, List.singleton_append]
  refine ⟨added ++ [node], ?_, h.sound.complete hsplit hself hs.standing hjoined hleaves,
    (st.extends_enter hnode).trans ⟨h.kept.index, h.kept.kept, h.kept.later⟩,
    h.sound.indexed node (hsplit ▸ List.mem_append_left _ hself),
    [], rfl, by simp, by simp, .inl ⟨rfl, rfl⟩⟩
  rw [hstack]
  exact popComponent_append fun a ha => (hadded a ha).1

end Visiting

/-! ## Whole searches -/

/-- How many symbols of a graph a search has not come to, counted as often as they are listed. -/
def unvisited (g : ReferenceGraph) (st : Search) : ℕ := g.symbols.countP fun a => decide (a ∉ st.indices)

theorem unvisited_le (h : st.Extends st') : g.unvisited st' ≤ g.unvisited st := by
  refine List.countP_mono_left fun a _ ha => ?_
  rw [decide_eq_true_eq] at ha ⊢
  exact fun hmem => ha (h.kept a hmem).1

theorem unvisited_enter_lt (hnode : node ∉ st.indices) (hmem : node ∈ g.symbols) :
    g.unvisited (st.enter node) < g.unvisited st := by
  obtain ⟨before, after, hsymbols⟩ := List.append_of_mem hmem
  have hle (l : List String) : l.countP (fun a => decide (a ∉ (st.enter node).indices)) ≤
      l.countP fun a => decide (a ∉ st.indices) := by
    refine List.countP_mono_left fun a _ ha => ?_
    rw [decide_eq_true_eq] at ha ⊢
    exact fun hin => ha (Search.mem_enter.2 (.inr hin))
  have hself : node ∈ (st.enter node).indices := Search.mem_enter.2 (.inl rfl)
  have hbefore := hle before
  have hafter := hle after
  rw [unvisited, unvisited, hsymbols, List.countP_append, List.countP_append,
    List.countP_cons_of_neg (by simpa using hself), List.countP_cons_of_pos (by simpa using hnode)]
  omega

theorem mem_symbols_of_refers (h : g.Refers a b) : b ∈ g.symbols := by
  have ha : a ∈ g.keys := by
    rw [Std.ExtTreeMap.mem_keys]
    exact mem_of_reaches (.single h)
  exact List.mem_append_right _ (List.mem_flatMap.2 ⟨a, ha, h⟩)

theorem visiting_foldlM (visit : String → Search → Except SearchFault (ℕ × Search)) {seen : List String}
    (targets : List String) (hs : Sound g opened st) (hnode : node ∉ st.indices) (hrefers : ∀ b ∈ targets, g.Refers node b)
    (hvisit : ∀ st' b, (st.enter node).Extends st' → Sound g (node :: opened) st' → b ∉ st'.indices →
      g.Refers node b → (∀ p ∈ node :: opened, ReflTransGen g.Refers p b) →
      ∃ reached st'', visit b st' = .ok (reached, st'') ∧ Visited g (node :: opened) st' b reached st'')
    (hreach : ∀ p ∈ opened, ReflTransGen g.Refers p node) (h : Visiting g opened st node seen low st') :
    ∃ low' st'', targets.foldlM (follow visit) (low, st') = .ok (low', st'') ∧
      Visiting g opened st node (targets.reverse ++ seen) low' st'' := by
  induction targets generalizing seen low st' with
  | nil => exact ⟨low, st', rfl, h⟩
  | cons b targets ih =>
    obtain ⟨hb, hrefers⟩ := List.forall_mem_cons.1 hrefers
    have hto (p : String) (hp : p ∈ node :: opened) : ReflTransGen g.Refers p b := by
      rcases List.mem_cons.1 hp with rfl | hp
      · exact .single hb
      · exact (hreach p hp).tail hb
    obtain ⟨low₁, st₁, hfollow, h₁⟩ := visiting_follow hs hnode h hb fun hnew =>
      hvisit st' b h.kept h.sound hnew hb hto
    obtain ⟨low₂, st₂, hfold, h₂⟩ := ih hrefers h₁
    refine ⟨low₂, st₂, ?_, ?_⟩
    · rw [List.foldlM_cons, hfollow]
      exact hfold
    · rw [List.reverse_cons, List.append_assoc]
      exact h₂

/-- A visit comes to its end as long as it may go as deep as there are symbols left. -/
theorem exists_visit (fuel : ℕ) (hs : Sound g opened st) (hnode : node ∉ st.indices) (hmem : node ∈ g.symbols)
    (hreach : ∀ p ∈ opened, ReflTransGen g.Refers p node) (hfuel : g.unvisited st ≤ fuel) :
    ∃ low st', g.visit fuel node st = .ok (low, st') ∧ Visited g opened st node low st' := by
  induction fuel generalizing opened st node with
  | zero => exact absurd (unvisited_enter_lt hnode hmem) (not_lt.2 (hfuel.trans (Nat.zero_le _)))
  | succ fuel ih =>
    have hless := unvisited_enter_lt hnode hmem
    obtain ⟨low, after, hfold, h⟩ := visiting_foldlM (g.visit fuel) (g.successors node) hs hnode
      (fun b hb => hb) (fun st' b hkept hs' hnew hb hto => ih hs' hnew (mem_symbols_of_refers hb) hto
        ((unvisited_le hkept).trans (by omega))) hreach (visiting_enter hs hnode hreach)
    have hall (b : String) (hb : g.Refers node b) : b ∈ (g.successors node).reverse ++ [] :=
      List.mem_append_left _ (List.mem_reverse.2 hb)
    by_cases hlow : low = st.index
    · subst hlow
      obtain ⟨component, hpop, hvisited⟩ := h.exists_popped hs hnode hall
      refine ⟨_, _, bind_eq_ok.2 ⟨_, hfold, ?_⟩, hvisited⟩
      dsimp only
      rw [if_pos rfl]
      exact bind_eq_ok.2 ⟨_, hpop, rfl⟩
    · refine ⟨low, after, bind_eq_ok.2 ⟨_, hfold, ?_⟩, h.visited hs hnode hall hlow⟩
      dsimp only
      rw [if_neg hlow]
      rfl

theorem exists_foldlM (nodes : List String) (hnodes : ∀ a ∈ nodes, a ∈ g.symbols) (hs : Sound g [] st) :
    ∃ st', nodes.foldlM (fun (st : Search) node =>
        if node ∈ st.indices then pure st else Prod.snd <$> visit g g.symbols.length node st) st = .ok st' ∧
      Sound g [] st' ∧ st.Extends st' ∧ ∀ a ∈ nodes, a ∈ st'.indices := by
  induction nodes generalizing st with
  | nil => exact ⟨st, rfl, hs, .refl st, fun a ha => absurd ha List.not_mem_nil⟩
  | cons node nodes ih =>
    obtain ⟨hmem, hnodes⟩ := List.forall_mem_cons.1 hnodes
    obtain ⟨st₁, hone, hs₁, hkept₁, hentered⟩ : ∃ st₁,
        (if node ∈ st.indices then pure st else Prod.snd <$> visit g g.symbols.length node st) = .ok st₁ ∧
          Sound g [] st₁ ∧ st.Extends st₁ ∧ node ∈ st₁.indices := by
      by_cases hnode : node ∈ st.indices
      · exact ⟨st, if_pos hnode, hs, .refl st, hnode⟩
      · obtain ⟨low, st₁, hvisit, h⟩ := exists_visit g.symbols.length hs hnode hmem
          (fun p hp => absurd hp List.not_mem_nil) List.countP_le_length
        refine ⟨st₁, ?_, h.sound, h.kept, h.entered⟩
        rw [if_neg hnode, hvisit]
        rfl
    obtain ⟨st', hrest, hs', hkept, hall⟩ := ih hnodes hs₁
    refine ⟨st', ?_, hs', hkept₁.trans hkept, ?_⟩
    · rw [List.foldlM_cons]
      exact bind_eq_ok.2 ⟨st₁, hone, hrest⟩
    · intro a ha
      rcases List.mem_cons.1 ha with rfl | ha
      · exact (hkept.kept a hentered).1
      · exact hall a ha

/-- The whole search succeeds, and its groups are the components, in order. -/
theorem exists_search (g : ReferenceGraph) : ∃ groups, g.search = .ok groups ∧ groups.Pairwise (· < ·) ∧
    ∀ group, group ∈ groups ↔ IsComponent g.Refers group := by
  obtain ⟨st, hfold, hs, -, hall⟩ := exists_foldlM g.keys
    (fun a ha => List.mem_append_left _ ha) (sound_empty g)
  refine ⟨_, bind_eq_ok.2 ⟨st, hfold, rfl⟩, pairwise_lt_mergeSort (by simp) hs.nodup, fun group => ?_⟩
  rw [List.mem_mergeSort, hs.groups]
  refine ⟨And.left, fun h => ⟨h, fun a ha => ⟨hall a ?_, fun hon => ?_⟩⟩⟩
  · rw [Std.ExtTreeMap.mem_keys]
    exact mem_of_reaches (h.reaches ha)
  · obtain ⟨p, hp, -⟩ := hs.returns a hon
    exact absurd hp List.not_mem_nil

theorem search_eq (g : ReferenceGraph) : g.search = .ok g.recursiveGroups := by
  obtain ⟨groups, hsearch, -⟩ := g.exists_search
  rw [recursiveGroups, hsearch]

/-- The groups of a graph are its components with several members or a self-reference. -/
theorem mem_recursiveGroups_iff {group : List String} :
    group ∈ g.recursiveGroups ↔ IsComponent g.Refers group := by
  obtain ⟨groups, hsearch, -, hmem⟩ := g.exists_search
  rw [recursiveGroups, hsearch]
  exact hmem group

theorem pairwise_recursiveGroups (g : ReferenceGraph) : g.recursiveGroups.Pairwise (· < ·) := by
  obtain ⟨groups, hsearch, hsorted, -⟩ := g.exists_search
  rw [recursiveGroups, hsearch]
  exact hsorted

theorem recursiveGroups_congr {h : ReferenceGraph} (hrefers : ∀ a b, h.Refers a b ↔ g.Refers a b) :
    h.recursiveGroups = g.recursiveGroups := by
  have hsame : h.Refers = g.Refers := by
    ext a b
    exact hrefers a b
  have : Std.Asymm fun a b : List String => a < b := ⟨fun _ _ => lt_asymm⟩
  refine List.Pairwise.eq_of_mem_iff h.pairwise_recursiveGroups g.pairwise_recursiveGroups fun group => ?_
  rw [mem_recursiveGroups_iff, mem_recursiveGroups_iff, hsame]

/-- The search never fails, whatever the graph. It gives the strongly connected components that have
several members or refer to themselves, sorted and each once, and depends on nothing but the references. -/
theorem search_components (g : ReferenceGraph) : g.search = .ok g.recursiveGroups ∧
    g.recursiveGroups.Pairwise (· < ·) ∧
    (∀ group, group ∈ g.recursiveGroups ↔ IsComponent g.Refers group) ∧
    ∀ h : ReferenceGraph, (∀ a b, h.Refers a b ↔ g.Refers a b) → h.search = g.search := by
  refine ⟨g.search_eq, g.pairwise_recursiveGroups, fun group => mem_recursiveGroups_iff, fun h hrefers => ?_⟩
  rw [search_eq, search_eq, recursiveGroups_congr hrefers]

end TypeAtlas.ReferenceGraph
