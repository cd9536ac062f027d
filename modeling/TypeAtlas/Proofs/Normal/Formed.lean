import TypeAtlas.Proofs.Normal.Merged
import TypeAtlas.Proofs.Normal.Sealed

/-! # Well-formed terms

What holds of every term of a fold and of the terms below it: digests and heights are those of the
content, members and fields are sorted, composites are flat, and a recursion target is one because
something below refers to it.
-/

namespace TypeAtlas

open Folding

/-- No member is an untagged composite of the same kind that is no recursion target. -/
def Flat (kind : String) (cs : List Term) : Prop :=
  ∀ c ∈ cs, ¬ (c.shape.kind = kind ∧ c.head.tags = [] ∧ c.binder = false)

/-- All members that are not neutral are of one family. -/
def Kin (cs : List Term) : Prop :=
  ∀ c ∈ cs, ∀ c' ∈ cs, c.family ≠ .neutral → c'.family ≠ .neutral → c.family = c'.family

/-- The terms below a term of a given shape. -/
def TermShape.Covers (shape : TermShape) (cs : List Term) : Prop :=
  match shape with
  | .array | .reference _ => cs.length = 1
  | .tuple => True
  | .object fs => fs.length = cs.length ∧ Rising FieldHead.name fs
  | .union δ => δ = discriminant? cs ∧ Rising Term.digest cs ∧ Flat "union" cs ∧ Kin cs
  | .intersection => Rising Term.digest cs ∧ Flat "intersection" cs
  | .enum ms => ms = sortMembers ms ∧ cs = []
  | _ => cs = []

def TermShape.isComposite : TermShape → Bool
  | .union _ | .intersection => true
  | _ => false

namespace Term

/-- What a term and the terms right below it have to do with each other. -/
structure Formed (d : Digester) (a : Algorithm) (t : Term) : Prop where
  digested : t.Digested d a
  free : ∀ l, l ∈ t.free ↔ ∃ k, (k, l) ∈ t.links
  placed : ∃ n, t.Placed n
  live : t.binder → ∃ l, (0, l) ∈ t.inward
  covers : t.shape.Covers t.children
  single : t.shape.isComposite → t.children.length = 1 → t.head.tags ≠ [] ∨ t.binder
  family : t.family = familyOf t.shape (t.children.map Term.family)
  tags : TagsReadable t.head.tags t

/-- A term that can stand below `n` recursion targets. -/
structure Sits (d : Digester) (a : Algorithm) (n : ℕ) (t : Term) : Prop where
  formed : t.Throughout (Formed d a)
  level : t.Level n

variable {d : Digester} {a : Algorithm} {n : ℕ} {t c : Term}

theorem Formed.links_eq_nil (h : t.Formed d a) : t.links = [] ↔ t.free.isEmpty := by
  rw [Std.ExtTreeSet.isEmpty_iff, Std.ExtTreeSet.eq_empty_iff_forall_not_mem]
  simp only [h.free, not_exists]
  rw [List.eq_nil_iff_forall_not_mem]
  exact ⟨fun hn l k => hn _, fun hn p => hn _ _⟩

theorem Sits.child (h : t.Sits d a n) (hb : t.binder = false) (hc : c ∈ t.children) :
    c.Sits d a n :=
  ⟨h.formed.child hc, fun p hp =>
    h.level p (links_of_plain hb ▸ mem_inward_of_child hc hp)⟩

theorem Sits.of_closed (h : t.Throughout (Formed d a)) (hc : t.free.isEmpty) : t.Sits d a n :=
  ⟨h, .of_links_eq_nil (h.here.links_eq_nil.2 hc)⟩

/-! ## Making terms -/

theorem mem_freeOf {ts : List Term} {l : ℕ} : l ∈ freeOf ts ↔ ∃ t ∈ ts, l ∈ t.free := by
  have hacc (ts : List Term) (hs : Heights) :
      l ∈ ts.foldl (fun hs t => hs ∪ t.free) hs ↔ l ∈ hs ∨ ∃ t ∈ ts, l ∈ t.free := by
    induction ts generalizing hs with
    | nil => simp
    | cons t ts ih => simp [ih, or_assoc]
  rw [freeOf, hacc]
  simp

/-- The heights that a term refers to, by its shape and the terms below it. -/
def freeFor (shape : TermShape) (cs : List Term) : Heights :=
  match shape with
  | .recursiveRef _ _ (some (_, height)) => Std.ExtTreeSet.ofList [height]
  | _ => freeOf cs

/-- The heights that a term refers to are those of the links inside it. -/
theorem mem_freeFor (hcov : t.shape.Covers t.children)
    (hcs : ∀ c ∈ t.children, ∀ l, l ∈ c.free ↔ ∃ k, (k, l) ∈ c.links) (l : ℕ) :
    l ∈ freeFor t.shape t.children ↔ ∃ k, (k, l) ∈ t.inward := by
  have hchild : l ∈ freeOf t.children ↔ ∃ k, ∃ c ∈ t.children, (k, l) ∈ c.links := by
    rw [mem_freeOf]
    constructor
    · rintro ⟨c, hc, hl⟩
      obtain ⟨k, hk⟩ := (hcs c hc l).1 hl
      exact ⟨k, c, hc, hk⟩
    · rintro ⟨k, c, hc, hk⟩
      exact ⟨c, hc, (hcs c hc l).2 ⟨k, hk⟩⟩
  simp only [mem_inward]
  cases hs : t.shape with
  | recursiveRef symbol target link =>
    have hnil : t.children = [] := by simpa [hs, TermShape.Covers] using hcov
    cases link with
    | none => simp [freeFor, ownLinks, hnil, freeOf]
    | some p =>
      obtain ⟨k, m⟩ := p
      have hsymm : m = l ↔ l = m := eq_comm
      simp [freeFor, ownLinks, hnil, hsymm]
  | _ => simp only [freeFor, ownLinks, List.not_mem_nil, false_or, hchild]

theorem make_eq_ok {shape : TermShape} {id : NodeId} {cs : List Term} {tags : List Tag}
    {location : Option SourceLocation} (h : Term.make d a shape id cs tags location = .ok t) :
    ∃ digest, d.node a shape.kind (sharedPayload shape.payload tags false) (cs.map Term.digest) =
        .ok digest ∧
      t = mk ⟨shape, digest, id, tags, location, freeFor shape cs, false,
        familyOf shape (cs.map Term.family)⟩ cs := by
  simp only [Term.make] at h
  cases hd : d.node a shape.kind (sharedPayload shape.payload tags false) (cs.map Term.digest) with
  | error e => simp [hd, bind, Except.bind] at h
  | ok digest =>
    simp only [hd, bind, Except.bind, pure, Except.pure, Except.ok.injEq] at h
    refine ⟨digest, rfl, h.symm.trans ?_⟩
    unfold freeFor
    rfl

theorem Sits.make_eq (h : t.Sits d a n) (hb : t.binder = false) :
    Term.make d a t.shape t.head.rawId t.children t.head.tags t.head.location = .ok t := by
  have hf := h.formed.here
  have hfree : freeFor t.shape t.children = t.free := by
    refine Std.ExtTreeSet.ext_mem fun l => ?_
    rw [mem_freeFor hf.covers (fun c hc => (h.child hb hc).formed.here.free), hf.free, links_of_plain hb]
  have hdigest : d.node a t.shape.kind (sharedPayload t.shape.payload t.head.tags false)
      (t.children.map digest) = .ok t.digest := by
    have := hf.digested
    rwa [Digested, value, hb] at this
  have hfamily := hf.family
  cases t with
  | mk head cs =>
    obtain ⟨shape, digest, rawId, tags, location, free, binder, family⟩ := head
    obtain rfl : binder = false := hb
    obtain rfl : freeFor shape cs = free := hfree
    obtain rfl : family = familyOf shape (cs.map Term.family) := hfamily
    change d.node a shape.kind (sharedPayload shape.payload tags false) (cs.map Term.digest) =
      .ok digest at hdigest
    change Term.make d a shape rawId cs tags location = _
    simp only [Term.make, hdigest, bind, Except.bind, pure, Except.pure]
    unfold freeFor
    rfl

theorem asTarget_eq_ok {u : Term} {height : ℕ} (h : u.asTarget d a height = .ok t) :
    ∃ digest, d.node a u.shape.kind (sharedPayload u.shape.payload u.head.tags true)
        (u.children.map Term.digest) = .ok digest ∧
      t = mk ⟨u.shape, digest, u.head.rawId, u.head.tags, u.head.location, u.free.erase height,
        true, u.family⟩ u.children := by
  simp only [Term.asTarget] at h
  cases hd : d.node a u.shape.kind (sharedPayload u.shape.payload u.head.tags true)
      (u.children.map Term.digest) with
  | error e => simp [hd, bind, Except.bind] at h
  | ok digest =>
    simp only [hd, bind, Except.bind, pure, Except.pure, Except.ok.injEq] at h
    exact ⟨digest, rfl, h.symm⟩

/-- A term that is made sits below as many targets as the terms it is made of. -/
structure Fresh (d : Digester) (a : Algorithm) (n : ℕ) (binder : Bool) (t : Term) : Prop where
  digested : t.Digested d a
  plain : t.binder = false
  free : t.free = freeFor t.shape t.children
  own : ∀ p ∈ ownLinks t.shape, p.1 + p.2 + 1 = n
  below : ∀ c ∈ t.children, c.Sits d a n
  covers : t.shape.Covers t.children
  single : t.shape.isComposite → t.children.length = 1 → t.head.tags ≠ [] ∨ binder
  family : t.family = familyOf t.shape (t.children.map Term.family)

namespace Fresh

variable {binder : Bool}

theorem inward (h : Fresh d a n binder t) : ∀ p ∈ t.inward, p.1 + p.2 + 1 = n := by
  intro p hp
  rcases mem_inward.1 hp with ho | ⟨c, hc, hl⟩
  · exact h.own p ho
  · exact (h.below c hc).level p hl

theorem mem_free (h : Fresh d a n binder t) (l : ℕ) : l ∈ t.free ↔ ∃ k, (k, l) ∈ t.inward := by
  rw [h.free]
  exact mem_freeFor h.covers (fun c hc => (h.below c hc).formed.here.free) l

theorem sits (h : Fresh d a n false t) (htags : TagsReadable t.head.tags t) : t.Sits d a n := by
  have hin := h.inward
  have hlevel : t.Level n := fun p hp => hin p (links_of_plain h.plain ▸ hp)
  refine ⟨.of_children ?_ fun c hc => (h.below c hc).formed, hlevel⟩
  exact {
    digested := h.digested
    free := fun l => by rw [links_of_plain h.plain]; exact h.mem_free l
    placed := ⟨n, fun p hp => by rw [depth_of_plain h.plain]; exact hin p hp⟩
    live := fun hb => by simp [h.plain] at hb
    covers := h.covers
    single := fun hc hl => (h.single hc hl).imp_right fun hb => by cases hb
    family := h.family
    tags := htags }

/-- What is made below a target that it refers to can take the place of the target. -/
theorem sits_asTarget {u : Term} (h : Fresh d a (n + 1) true u) (hlive : u.free.contains n)
    (ht : u.asTarget d a n = .ok t) (htags : TagsReadable t.head.tags t) : t.Sits d a n := by
  obtain ⟨digest, hd, rfl⟩ := asTarget_eq_ok ht
  have hin := h.inward
  have hlive : n ∈ u.free := Std.ExtTreeSet.contains_iff_mem.1 hlive
  have hinward : (Term.mk ⟨u.shape, digest, u.head.rawId, u.head.tags, u.head.location, u.free.erase n,
      true, u.family⟩ u.children).inward = u.inward := rfl
  have hplaced : (Term.mk ⟨u.shape, digest, u.head.rawId, u.head.tags, u.head.location, u.free.erase n,
      true, u.family⟩ u.children).Placed n := fun p hp => hin p (hinward ▸ hp)
  refine ⟨.of_children ?_ fun c hc => (h.below c hc).formed, hplaced.level⟩
  exact {
    digested := hd
    free := fun l => by
      rw [links_of_target rfl, hinward]
      simp only [mem_shed, free_mk, Std.ExtTreeSet.mem_erase, h.mem_free]
      constructor
      · rintro ⟨hne, k, hk⟩
        have hkl := hin _ hk
        have hne : n ≠ l := fun he => hne (by simp [he])
        obtain ⟨j, rfl⟩ : ∃ j, k = j + 1 := Nat.exists_eq_succ_of_ne_zero (by omega)
        exact ⟨j, hk⟩
      · rintro ⟨k, hk⟩
        have hkl := hin _ hk
        exact ⟨fun he => by have : n = l := by simpa using he
                            omega, k + 1, hk⟩
    placed := ⟨n, hplaced⟩
    live := fun _ => by
      obtain ⟨k, hk⟩ := (h.mem_free n).1 hlive
      have hkl := hin _ hk
      obtain rfl : k = 0 := by omega
      exact ⟨n, hk⟩
    covers := h.covers
    single := fun _ _ => .inr rfl
    family := h.family
    tags := htags }

end Fresh

/-! ## Bodies -/

theorem dereferenceFree_cases (t : Term) :
    t.dereferenceFree = t ∨ t.binder = false ∧
      ∃ symbol c rest, t.shape = .reference symbol ∧ t.children = c :: rest ∧
        t.dereferenceFree = c.dereferenceFree := by
  cases t with
  | mk h cs =>
    by_cases hr : h.binder = false ∧ ∃ symbol c rest, h.shape = .reference symbol ∧ cs = c :: rest
    · obtain ⟨hb, symbol, c, rest, hs, rfl⟩ := hr
      exact .inr ⟨hb, symbol, c, rest, hs, rfl, by rw [dereferenceFree] <;> assumption⟩
    · refine .inl ?_
      rw [dereferenceFree]
      exact fun symbol c rest hs hb hc => hr ⟨hb, symbol, c, rest, hs, hc⟩

theorem Sits.dereferenceFree (h : t.Sits d a n) : t.dereferenceFree.Sits d a n := by
  induction t with
  | mk head cs ih =>
    rcases dereferenceFree_cases (.mk head cs) with he | ⟨hb, symbol, c, rest, -, hc, he⟩
    · rwa [he]
    · rw [he]
      have hm : c ∈ (Term.mk head cs).children := hc ▸ List.mem_cons_self
      exact ih c hm (h.child hb hm)

theorem Sits.objectBody {fs : List FieldTerm} (h : t.Sits d a n) (hb : t.objectBody? = some fs) :
    ∀ f ∈ fs, f.2.Sits d a n := by
  intro f hf
  simp only [objectBody?] at hb
  split at hb
  · cases hb
  · next hplain =>
    have hplain : t.dereferenceFree.binder = false := Bool.eq_false_iff.2 hplain
    unfold fields? at hb
    split at hb
    · obtain rfl := Option.some.inj hb
      exact h.dereferenceFree.child hplain (List.of_mem_zip hf).2
    · cases hb

end Term

/-! ## Members -/

section Members

variable {s : Setting} {n : Node} {ts kept : List Term} {t : Term} {ms : List Member} {k : ℕ}
  {kind : String} {ids : List NodeId} {loose : Prop}

theorem TermShape.eq_union_of_kind {shape : TermShape} (h : shape.kind = "union") :
    ∃ δ, shape = .union δ := by
  cases shape <;> simp_all [TermShape.kind]

theorem TermShape.eq_intersection_of_kind {shape : TermShape} (h : shape.kind = "intersection") :
    shape = .intersection := by
  cases shape <;> simp_all [TermShape.kind]

/-- What splicing leaves is no composite that could be spliced. -/
theorem sits_of_mem_spliced (hkind : kind = "union" ∨ kind = "intersection")
    (hts : ∀ t ∈ ts, t.Sits s.digester s.algorithm k) {m : Member}
    (hm : m ∈ spliced kind ids ts) :
    m.2.Sits s.digester s.algorithm k ∧
      ¬ (m.2.shape.kind = kind ∧ m.2.head.tags = [] ∧ m.2.binder = false) := by
  obtain ⟨⟨id, t⟩, hp, hm⟩ := List.mem_flatMap.1 hm
  have ht := hts t (List.of_mem_zip hp).2
  simp only [splice, Bool.and_eq_true, decide_eq_true_eq, List.isEmpty_iff,
    Bool.not_eq_true'] at hm
  split at hm
  · next hc =>
    obtain ⟨c, hcm, rfl⟩ := List.mem_map.1 hm
    refine ⟨ht.child hc.2 hcm, ?_⟩
    have hcov := ht.formed.here.covers
    rcases hkind with rfl | rfl
    · obtain ⟨δ, hs⟩ := TermShape.eq_union_of_kind hc.1.1
      rw [hs] at hcov
      exact hcov.2.2.1 c hcm
    · rw [TermShape.eq_intersection_of_kind hc.1.1] at hcov
      exact hcov.2 c hcm
  · next hc =>
    obtain rfl := List.mem_singleton.1 hm
    exact ⟨ht, fun h => hc ⟨⟨h.1, h.2.1⟩, h.2.2⟩⟩

theorem sorting_spec (ms : List Member) :
    let sorting := ms.foldl Sorting.add {}
    ∀ t ∈ sorting.kept, (∃ m ∈ ms, m.2 = t) ∧
      (t.family = .neutral ∨ sorting.expected = some t.family) := by
  induction ms using List.reverseRecOn with
  | nil => simp
  | append_singleton ms m ih =>
    simp only [List.foldl_append, List.foldl_cons, List.foldl_nil] at ih ⊢
    generalize ms.foldl Sorting.add {} = acc at ih ⊢
    have hold : ∀ t ∈ acc.kept, ∃ x ∈ ms ++ [m], x.2 = t := fun t ht =>
      let ⟨x, hx, he⟩ := (ih t ht).1
      ⟨x, List.mem_append_left _ hx, he⟩
    have hnew : ∃ x ∈ ms ++ [m], x.2 = m.2 := ⟨m, by simp, rfl⟩
    simp only [Sorting.add]
    split
    · next hneutral =>
      intro t ht
      rcases List.mem_append.1 ht with ht | ht
      · exact ⟨hold t ht, (ih t ht).2⟩
      · obtain rfl := List.mem_singleton.1 ht
        exact ⟨hnew, .inl hneutral⟩
    · have hexp : ∀ t ∈ acc.kept, t.family = .neutral ∨
          some (acc.expected.getD m.2.family) = some t.family := fun t ht =>
        (ih t ht).2.imp_right fun he => by rw [he]; rfl
      split
      · next hsame =>
        intro t ht
        rcases List.mem_append.1 ht with ht | ht
        · exact ⟨hold t ht, hexp t ht⟩
        · obtain rfl := List.mem_singleton.1 ht
          exact ⟨hnew, .inr (congrArg some hsame.symm)⟩
      · exact fun t ht => ⟨hold t ht, hexp t ht⟩

theorem kin_kept (ms : List Member) : Kin (ms.foldl Sorting.add {}).kept := by
  intro c hc c' hc' hn hn'
  have h := ((sorting_spec ms c hc).2.resolve_left hn).symm.trans
    ((sorting_spec ms c' hc').2.resolve_left hn')
  exact Option.some.inj h

theorem sits_of_unmade {id : NodeId} (h : Unmade s id t) :
    t.Sits s.digester s.algorithm k ∧ t.family = .neutral ∧ t.shape.kind = "unknown" := by
  obtain ⟨reason, cause, -, ht⟩ := h
  obtain ⟨digest, hd, rfl⟩ := Term.make_eq_ok ht
  have hf : Term.Fresh s.digester s.algorithm k false (.mk ⟨.unknown reason cause, digest, id, [],
      none, Term.freeFor (.unknown reason cause) [], false, .neutral⟩ []) :=
    ⟨hd, rfl, rfl, by simp [Term.ownLinks], by simp, rfl, by simp [TermShape.isComposite], rfl⟩
  exact ⟨hf.sits (by simp [TagsReadable]), rfl, rfl⟩

theorem kept_spec (hms : ∀ m ∈ ms, m.2.Sits s.digester s.algorithm k ∧
      ¬ (m.2.shape.kind = "union" ∧ m.2.head.tags = [] ∧ m.2.binder = false))
    (h : Kept s loose n ms kept) :
    (∀ t ∈ kept, t.Sits s.digester s.algorithm k) ∧ Flat "union" kept ∧ Kin kept := by
  have hkept : ∀ t ∈ (ms.foldl Sorting.add {}).kept, t.Sits s.digester s.algorithm k ∧
      ¬ (t.shape.kind = "union" ∧ t.head.tags = [] ∧ t.binder = false) := by
    intro t ht
    obtain ⟨m, hm, rfl⟩ := (sorting_spec ms t ht).1
    exact hms m hm
  simp only [Kept] at h
  split at h
  · subst h
    exact ⟨fun t ht => (hkept t ht).1, fun t ht => (hkept t ht).2, kin_kept ms⟩
  · obtain ⟨-, rest, hrest, rfl⟩ := h
    obtain ⟨hsits, hneutral, hkind⟩ := sits_of_unmade (k := k) hrest
    refine ⟨fun t ht => ?_, fun t ht => ?_, fun c hc c' hc' hn hn' => ?_⟩
    · rcases List.mem_append.1 ht with ht | ht
      · exact (hkept t ht).1
      · exact List.mem_singleton.1 ht ▸ hsits
    · rcases List.mem_append.1 ht with ht | ht
      · exact (hkept t ht).2
      · rw [List.mem_singleton.1 ht, hkind]
        exact fun h => absurd h.1 (by decide)
    · rcases List.mem_append.1 hc with hc | hc
      · rcases List.mem_append.1 hc' with hc' | hc'
        · exact kin_kept ms c hc c' hc' hn hn'
        · exact absurd (List.mem_singleton.1 hc' ▸ hneutral) hn'
      · exact absurd (List.mem_singleton.1 hc ▸ hneutral) hn

end Members

/-! ## Folding -/

namespace Folding

variable {s : Setting} {n : Node} {ts cs : List Term} {t u : Term} {k : ℕ} {stack : List NodeId}
  {loose : Prop} {binder : Bool} {shape : TermShape}

theorem Made.fresh (h : Made s n shape cs t) (hown : ∀ p ∈ Term.ownLinks shape, p.1 + p.2 + 1 = k)
    (hcs : ∀ c ∈ cs, c.Sits s.digester s.algorithm k) (hcov : shape.Covers cs)
    (hsingle : shape.isComposite → cs.length = 1 → n.tags ≠ [] ∨ binder) :
    Term.Fresh s.digester s.algorithm k binder t ∧ t.head.tags = n.tags := by
  obtain ⟨digest, hd, rfl⟩ := Term.make_eq_ok h
  exact ⟨⟨hd, rfl, rfl, hown, hcs, hcov, hsingle, rfl⟩, rfl⟩

theorem Composed.fresh_or_mem (h : Composed s n shape cs binder t)
    (hown : Term.ownLinks shape = []) (hcs : ∀ c ∈ cs, c.Sits s.digester s.algorithm k)
    (hcov : shape.Covers cs) :
    (Term.Fresh s.digester s.algorithm k binder t ∧ t.head.tags = n.tags) ∨
      binder = false ∧ t ∈ cs := by
  have hown' : ∀ p ∈ Term.ownLinks shape, p.1 + p.2 + 1 = k := by simp [hown]
  simp only [Composed, Bool.and_eq_true, List.isEmpty_iff, Bool.not_eq_true'] at h
  split at h
  · split at h
    · next hc => exact .inr ⟨hc.2, by simp [h]⟩
    · next hc =>
      refine .inl (h.fresh hown' hcs hcov fun _ _ => ?_)
      by_contra hno
      rw [not_or, not_not, Bool.not_eq_true] at hno
      exact hc hno
  · next hne =>
    refine .inl (h.fresh hown' hcs hcov fun _ hl => ?_)
    obtain ⟨c, hc⟩ := List.length_eq_one_iff.1 hl
    exact absurd hc (hne c)

theorem sits_of_mergedFields {fs : List FieldTerm}
    (hfs : ∀ f ∈ fs, f.2.Sits s.digester s.algorithm k) :
    ∀ c ∈ (mergedFields fs).map Prod.snd, c.Sits s.digester s.algorithm k := by
  intro c hc
  obtain ⟨f, hf, rfl⟩ := List.mem_map.1 hc
  obtain ⟨g, hg, he, -⟩ := exists_of_mem_mergedFields hf
  exact he ▸ hfs g hg

theorem MadeObject.fresh {fs : List FieldTerm} (h : MadeObject s n (mergedFields fs) t)
    (hfs : ∀ f ∈ fs, f.2.Sits s.digester s.algorithm k) :
    Term.Fresh s.digester s.algorithm k binder t ∧ t.head.tags = n.tags := by
  refine Made.fresh h (by simp [Term.ownLinks]) (sits_of_mergedFields hfs) ⟨by simp, ?_⟩
    (by simp [TermShape.isComposite])
  exact List.pairwise_map.2 (rising_mergedFields fs)

theorem covers_enum (ms : List EnumMember) :
    (TermShape.enum (sortMembers ms)).Covers [] := by
  refine ⟨(List.mergeSort_of_pairwise ?_).symm, rfl⟩
  refine List.pairwise_mergeSort (fun a b c => ?_) (fun a b => ?_) ms
  · simpa using String.le_trans
  · simpa using String.le_total a.name b.name

theorem linkTo_eq {target : NodeId} {p : ℕ × ℕ} (h : linkTo stack target = some p) :
    p.1 + p.2 + 1 = stack.length := by
  obtain ⟨i, hi, rfl⟩ := Option.map_eq_some_iff.1 h
  have := (List.idxOf?_eq_some_iff.1 hi).1
  omega

/-- What is made of a node's sources is made afresh, or is one of their terms. -/
theorem Assembled.fresh_or_sits (h : Assembled s loose n stack binder ts t)
    (hlen : ts.length = (sourceIds s n).length)
    (hts : ∀ u ∈ ts, u.Sits s.digester s.algorithm stack.length) :
    (Term.Fresh s.digester s.algorithm stack.length binder t ∧ t.head.tags = n.tags) ∨
      binder = false ∧ t.Sits s.digester s.algorithm stack.length := by
  unfold Assembled at h
  unfold sourceIds sources at hlen
  split at h
  case h_5 target symbol hs =>
    refine .inl (h.fresh (fun p hp => ?_) (by simp) rfl (by simp [TermShape.isComposite]))
    cases hl : linkTo stack target with
    | none => simp [Term.ownLinks, hl] at hp
    | some q =>
      simp only [Term.ownLinks, hl, List.mem_singleton] at hp
      exact hp ▸ linkTo_eq hl
  case h_3 ms hs =>
    exact .inl (h.fresh (by simp [Term.ownLinks]) (by simp) (covers_enum ms)
      (by simp [TermShape.isComposite]))
  case h_6 e hs =>
    exact .inl (h.fresh (by simp [Term.ownLinks]) hts (by simpa [hs, Shape.children, TermShape.Covers] using hlen)
      (by simp [TermShape.isComposite]))
  case h_7 es hs =>
    exact .inl (h.fresh (by simp [Term.ownLinks]) hts trivial (by simp [TermShape.isComposite]))
  case h_8 target symbol hs =>
    exact .inl (h.fresh (by simp [Term.ownLinks]) hts (by simpa [hs, Shape.children, TermShape.Covers] using hlen)
      (by simp [TermShape.isComposite]))
  case h_9 fs hs =>
    exact .inl (h.fresh fun f hf => hts f.2 (List.of_mem_zip hf).2)
  case h_10 ms δ hs =>
    obtain ⟨kept, hk, hc⟩ := h
    obtain ⟨hsits, hflat, hkin⟩ := kept_spec
      (fun m hm => sits_of_mem_spliced (.inl rfl) hts hm) hk
    have hsits' : ∀ c ∈ sortedUnique kept, c.Sits s.digester s.algorithm stack.length :=
      fun c hc => hsits c (mem_of_mem_sortedUnique hc)
    rcases hc.fresh_or_mem rfl hsits' ⟨rfl, rising_sortedUnique kept,
        fun c hc => hflat c (mem_of_mem_sortedUnique hc),
        fun c hc c' hc' => hkin c (mem_of_mem_sortedUnique hc) c' (mem_of_mem_sortedUnique hc')⟩
      with hf | ⟨hb, ht⟩
    · exact .inl hf
    · exact .inr ⟨hb, hsits' t ht⟩
  case h_11 ms hs =>
    have hms : ∀ u ∈ (spliced "intersection" (flat s intersectionMembers? ms) ts).map Prod.snd,
        u.Sits s.digester s.algorithm stack.length ∧
          ¬ (u.shape.kind = "intersection" ∧ u.head.tags = [] ∧ u.binder = false) := by
      intro u hu
      obtain ⟨m, hm, rfl⟩ := List.mem_map.1 hu
      exact sits_of_mem_spliced (.inr rfl) hts hm
    unfold Intersected at h
    split at h
    · next u us bodies hb =>
      refine .inl (MadeObject.fresh h fun f hf => ?_)
      obtain ⟨body, hbody, hf⟩ := List.mem_flatten.1 hf
      obtain ⟨v, hv, hbv⟩ := exists_of_mem_mapM hb hbody
      exact (hms v hv).1.objectBody hbv f hf
    · have hsits' : ∀ c ∈ sortedUnique ((spliced "intersection" (flat s intersectionMembers? ms)
          ts).map Prod.snd), c.Sits s.digester s.algorithm stack.length :=
        fun c hc => (hms c (mem_of_mem_sortedUnique hc)).1
      rcases h.fresh_or_mem rfl hsits' ⟨rising_sortedUnique _, fun c hc =>
        (hms c (mem_of_mem_sortedUnique hc)).2⟩ with hf | ⟨hb, ht⟩
      · exact .inl hf
      · exact .inr ⟨hb, hsits' t ht⟩
  all_goals
    exact .inl (h.fresh (by simp [Term.ownLinks]) (by simp) rfl (by simp [TermShape.isComposite]))

/-- Every term at which a fold arrives is well-formed and sits below the targets on the stack. -/
theorem Derives.sits {id : NodeId} (h : Derives s loose stack id t) :
    t.Sits s.digester s.algorithm stack.length := by
  induction h with
  | recalled _ _ hc ih => exact .of_closed ih.formed hc
  | abandoned _ hu => exact (sits_of_unmade hu).1
  | plain hn _ hlen _ ht htags ih =>
    have hall := List.forall_mem_iff_forall_getElem.2 ih
    rcases ht.fresh_or_sits hlen hall with ⟨hf, he⟩ | ⟨-, hs⟩
    · exact hf.sits (he ▸ htags)
    · exact hs
  | target hn _ hlen _ hu hlive ht htags ih =>
    have hall := List.forall_mem_iff_forall_getElem.2 ih
    rcases hu.fresh_or_sits hlen hall with ⟨hf, he⟩ | ⟨hb, -⟩
    · refine hf.sits_asTarget hlive ht ?_
      obtain ⟨digest, -, rfl⟩ := Term.asTarget_eq_ok ht
      exact he ▸ htags
    · cases hb

end Folding

end TypeAtlas
