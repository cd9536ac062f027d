import TypeAtlas.Proofs.Graph.WellFormed
import TypeAtlas.Proofs.Normal.Formed
import TypeAtlas.Proofs.Run

/-! # Filing terms

A closed term is named by its digest, an open one by its digest together with the names of the
targets that it refers to. Terms with the same name therefore say the same, and whatever enclosing
target one of them refers to, the other refers to at the same distance.

Writing a term out asks for the names of terms below it and files the nodes of those whose names are
new. Every node in the arena is that of a term which was asked for, under the targets that enclosed
it then, and its children are filed as well.
-/

namespace TypeAtlas.Term

section Naming

variable {d : Digester} {a : Algorithm} {S : Set String} {t u v : Term} {m n : ℕ}
  {τ σ : List NodeId} {id : NodeId}

/-- The value that is digested for the name of an open term. -/
def openValue (t : Term) (ids : List NodeId) : Datum :=
  Digester.nodeValue "open" [("binders", .texts ids)] [t.digest]

/-- The targets that a term refers to have the given names; the outermost target comes first. -/
def Targets (t : Term) (τ ids : List NodeId) : Prop :=
  t.free.toList.map (fun height => τ[height]?) = ids.map some

/-- The name of a term under its enclosing targets. -/
inductive Named (d : Digester) (a : Algorithm) (t : Term) (τ : List NodeId) (id : NodeId) : Prop
  | closed (hc : t.free.isEmpty) (h : t.digest = id)
  | opened {ids : List NodeId} (ho : t.free.isEmpty = false) (hids : t.Targets τ ids)
      (h : d.value a (t.openValue ids) = .ok id)

/-- The texts that are digested for the name of a term. -/
def nameTexts (t : Term) (τ : List NodeId) : Set String :=
  {x | t.free.isEmpty = false ∧ ∃ ids, t.Targets τ ids ∧ Json.compact (t.openValue ids) = .ok x}

/-! ## Distances -/

/-- The distances of the targets that a term below `n` of them refers to, the greatest first. -/
def distances (t : Term) (n : ℕ) : List ℕ := t.free.toList.map fun l => n - 1 - l

theorem mem_free_toList (h : t.Formed d a) {l : ℕ} :
    l ∈ t.free.toList ↔ ∃ k, (k, l) ∈ t.links := by
  rw [Std.ExtTreeSet.mem_toList, h.free]

theorem mem_distances (h : t.Formed d a) (hl : t.Level n) {k : ℕ} :
    k ∈ t.distances n ↔ k ∈ t.reach := by
  simp only [distances, List.mem_map, mem_free_toList h, mem_reach]
  constructor
  · rintro ⟨l, ⟨j, hj⟩, rfl⟩
    have := hl _ hj
    simp only at this
    obtain rfl : j = n - 1 - l := by omega
    exact ⟨l, hj⟩
  · rintro ⟨l, hk⟩
    have := hl _ hk
    simp only at this
    exact ⟨l, ⟨k, hk⟩, by omega⟩

theorem distances_pairwise (h : t.Formed d a) (hl : t.Level n) :
    (t.distances n).Pairwise (· > ·) := by
  rw [distances, List.pairwise_map]
  refine (Std.ExtTreeSet.ordered_toList (t := t.free)).imp_of_mem fun {a b} ha hb hab => ?_
  obtain ⟨j, hj⟩ := (mem_free_toList h).1 ha
  obtain ⟨k, hk⟩ := (mem_free_toList h).1 hb
  have hab : a < b := Nat.compare_eq_lt.1 hab
  have := hl _ hj
  have := hl _ hk
  simp only at *
  omega

theorem Twin.distances_eq (h : Twin u v) (hu : u.Formed d a) (hv : v.Formed d a) (hum : u.Level m)
    (hvn : v.Level n) : u.distances m = v.distances n :=
  List.Pairwise.eq_of_mem_iff (distances_pairwise hu hum) (distances_pairwise hv hvn) fun k => by
    rw [mem_distances hu hum, mem_distances hv hvn, h.mem_reach_iff]

theorem targets_iff (h : t.Formed d a) (hl : t.Level τ.length) {ids : List NodeId} :
    t.Targets τ ids ↔ (t.distances τ.length).map (fun k => τ.reverse[k]?) = ids.map some := by
  have heq : t.free.toList.map (fun height => τ[height]?) =
      (t.distances τ.length).map (fun k => τ.reverse[k]?) := by
    rw [distances, List.map_map]
    refine List.map_congr_left fun l hm => ?_
    obtain ⟨k, hk⟩ := (mem_free_toList h).1 hm
    have hkl := hl _ hk
    simp only at hkl
    rw [Function.comp_apply, List.getElem?_reverse (by omega)]
    congr 1
    omega
  rw [Targets, heq]

/-! ## Agreement -/

/-- Two lists of enclosing targets agree on what a term refers to. -/
def Agree (t : Term) (τ σ : List NodeId) : Prop := ∀ k ∈ t.reach, τ.reverse[k]? = σ.reverse[k]?

theorem Level.lt_of_mem_reach (hl : t.Level n) {k : ℕ} (hk : k ∈ t.reach) : k < n := by
  obtain ⟨l, hl'⟩ := mem_reach.1 hk
  have := hl _ hl'
  simp only at this
  omega

/-- Terms that say the same, under targets that agree, have the same name. -/
theorem Named.of_agree (hu : u.Formed d a) (hv : v.Formed d a) (hul : u.Level τ.length)
    (hvl : v.Level σ.length) (htwin : Twin u v) (hd : u.digest = v.digest) (hag : u.Agree τ σ)
    (h : u.Named d a τ id) : v.Named d a σ id := by
  have hempty : u.free.isEmpty = v.free.isEmpty := by
    rw [Bool.eq_iff_iff, ← hu.links_eq_nil, ← hv.links_eq_nil, htwin.links_eq_nil_iff]
  cases h with
  | closed hc h => exact .closed (hempty ▸ hc) (hd ▸ h)
  | @opened ids ho hids h =>
    have hname : d.value a (v.openValue ids) = .ok id := by rwa [openValue, ← hd]
    refine .opened (hempty ▸ ho) ?_ hname
    rw [targets_iff hu hul] at hids
    rw [targets_iff hv hvl, ← htwin.distances_eq hu hv hul hvl, ← hids]
    refine List.map_congr_left fun k hk => (hag k ?_).symm
    exact (mem_distances hu hul).1 hk

/-- Terms with the same name have the same digest, and refer to targets with the same names. -/
theorem Named.same (hS : d.CollisionFree a S) (hu : u.Formed d a) (hv : v.Formed d a)
    (hus : u.encodings ⊆ S) (hvs : v.encodings ⊆ S) (hun : u.nameTexts τ ⊆ S)
    (hvn : v.nameTexts σ ⊆ S) (h : u.Named d a τ id) (h' : v.Named d a σ id) :
    u.digest = v.digest ∧ (u.free.isEmpty ∨ ∃ ids, u.Targets τ ids ∧ v.Targets σ ids) := by
  -- the digest of a term is never the name of an open one
  have hmixed {t t' : Term} {ids ρ : List NodeId} (ht : t.Formed d a) (hts : t.encodings ⊆ S)
      (hts' : t'.nameTexts ρ ⊆ S) (ho : t'.free.isEmpty = false) (hids : t'.Targets ρ ids)
      (hd : t.digest = id) (h : d.value a (t'.openValue ids) = .ok id) : False := by
    have hcan := Digester.canonical_eq_of_value_eq hS (hd ▸ ht.digested) h
      (fun x hx => hts ⟨t, .refl, hx⟩) fun x hx => hts' ⟨ho, ids, hids, hx⟩
    exact t.shape.kind_ne_open (Digester.nodeValue_canonical_inj hcan).1
  cases h with
  | closed hc hd =>
    cases h' with
    | closed hc' hd' => exact ⟨hd.trans hd'.symm, .inl hc⟩
    | opened ho hids h' => exact (hmixed hu hus hvn ho hids hd h').elim
  | @opened ids ho hids h =>
    cases h' with
    | closed hc' hd' => exact (hmixed hv hvs hun ho hids hd' h).elim
    | @opened ids' ho' hids' h' =>
      have hcan := Digester.canonical_eq_of_value_eq hS h h' (fun x hx => hun ⟨ho, ids, hids, hx⟩)
        fun x hx => hvn ⟨ho', ids', hids', hx⟩
      obtain ⟨-, hf, hd⟩ := Digester.nodeValue_canonical_inj hcan
      obtain ⟨w, hw, hwc⟩ := hf.exists_mem (k := "binders") (v := .texts ids) (by simp)
      obtain rfl : ids' = ids := by
        have hw : w = .texts ids' := by simpa using hw
        rw [hw, Datum.canonical_texts, Datum.canonical_texts] at hwc
        exact Datum.texts_inj hwc
      exact ⟨by simpa using hd, .inr ⟨ids', hids, hids'⟩⟩

/-- Terms with the same digest say the same, wherever they stand. -/
theorem twin_of_digest (hS : d.CollisionFree a S) (hu : u.Throughout (Formed d a))
    (hv : v.Throughout (Formed d a)) (hus : u.encodings ⊆ S) (hvs : v.encodings ⊆ S)
    (h : u.digest = v.digest) : Twin u v :=
  twin_of_digest_eq hS (hu.mono fun _ h => h.digested) (hv.mono fun _ h => h.digested) hus hvs h

theorem Named.agree (hS : d.CollisionFree a S) (hu : u.Throughout (Formed d a))
    (hv : v.Throughout (Formed d a)) (hus : u.encodings ⊆ S) (hvs : v.encodings ⊆ S)
    (hun : u.nameTexts τ ⊆ S) (hvn : v.nameTexts σ ⊆ S) (hul : u.Level τ.length)
    (hvl : v.Level σ.length) (h : u.Named d a τ id) (h' : v.Named d a σ id) :
    Twin u v ∧ u.digest = v.digest ∧ u.Agree τ σ := by
  obtain ⟨hd, htargets⟩ := h.same hS hu.here hv.here hus hvs hun hvn h'
  have htwin := twin_of_digest hS hu hv hus hvs hd
  refine ⟨htwin, hd, fun k hk => ?_⟩
  rcases htargets with hc | ⟨ids, hids, hids'⟩
  · rw [reach_eq_nil.2 (hu.here.links_eq_nil.2 hc)] at hk
    cases hk
  · rw [targets_iff hu.here hul] at hids
    rw [targets_iff hv.here hvl, ← htwin.distances_eq hu.here hv.here hul hvl] at hids'
    exact List.map_inj_left.1 (hids.trans hids'.symm) k ((mem_distances hu.here hul).2 hk)

end Naming

open Emission

variable {d : Digester} {a : Algorithm} {t u c root : Term} {ts cs : List Term}
  {τ σ ids : List NodeId} {id : NodeId} {A B C : Arena}

/-- The targets that enclose what is below a term of the given name. -/
def inner (t : Term) (τ : List NodeId) (id : NodeId) : List NodeId :=
  if t.binder then τ ++ [id] else τ

/-- While a term is written out, the name of a term below it is asked for: the term, the targets
that enclose it and the arena at that time. -/
inductive Asks (d : Digester) (a : Algorithm) :
    Term → List NodeId → Arena → Term → List NodeId → Arena → Prop
  | here {t : Term} {τ : List NodeId} {A : Arena} : Asks d a t τ A t τ A
  | deeper {t c u : Term} {τ σ ids : List NodeId} {A B C : Arena} {id : NodeId}
      {before after : List Term} (hn : t.Named d a τ id) (hnew : id ∉ A)
      (hc : t.children = before ++ c :: after)
      (hb : Ends (emitAll d a before (t.inner τ id)) A ids B)
      (h : Asks d a c (t.inner τ id) B u σ C) : Asks d a t τ A u σ C

theorem Asks.sub (h : Asks d a t τ A u σ C) : u.Sub t := by
  induction h with
  | here => exact .refl
  | deeper _ _ hc _ _ ih => exact .step (hc ▸ by simp) ih

/-! ## Names that are asked for -/

theorem ends_targetAt {height : ℕ} (h : Ends (targetAt τ height) A id B) :
    τ[height]? = some id ∧ B = A := by
  unfold targetAt at h
  split at h
  · next x hx =>
    obtain ⟨rfl, rfl⟩ := ends_pure.1 h
    exact ⟨hx, rfl⟩
  · exact absurd h not_ends_throw

theorem chain_targetAt {heights : List ℕ} (h : Chain (targetAt τ) heights A ids B) :
    heights.map (fun height => τ[height]?) = ids.map some ∧ B = A := by
  induction h with
  | nil => exact ⟨rfl, rfl⟩
  | cons hx _ ih =>
    obtain ⟨htarget, rfl⟩ := ends_targetAt hx
    obtain ⟨htargets, rfl⟩ := ih
    exact ⟨by rw [List.map_cons, List.map_cons, htarget, htargets], rfl⟩

theorem ends_name (h : Ends (name d a t.head τ) A id B) : t.Named d a τ id ∧ B = A := by
  unfold name at h
  split at h
  · next hc =>
    obtain ⟨rfl, rfl⟩ := ends_pure.1 h
    exact ⟨.closed hc rfl, rfl⟩
  · next ho =>
    rw [ends_bind] at h
    obtain ⟨ids, A', hids, h⟩ := h
    obtain ⟨htargets, rfl⟩ := chain_targetAt (ends_mapM.1 hids)
    obtain ⟨hname, rfl⟩ := ends_lift.1 h
    refine ⟨.opened (Bool.eq_false_iff.2 ho) htargets ?_, rfl⟩
    unfold Attempt.ofWrite at hname
    split at hname
    · next x hx => exact Except.ok.inj hname ▸ hx
    · cases hname

theorem Named.unique {id' : NodeId} (h : t.Named d a τ id) (h' : t.Named d a τ id') : id = id' := by
  cases h with
  | closed hc hd =>
    cases h' with
    | closed hc' hd' => exact hd.symm.trans hd'
    | opened ho _ _ => simp [hc] at ho
  | @opened ids ho hids hv =>
    cases h' with
    | closed hc _ => simp [hc] at ho
    | @opened ids' ho' hids' hv' =>
      have heq := hids.symm.trans hids'
      obtain rfl : ids = ids' := List.map_injective_iff.2 (Option.some_injective _) heq
      exact Except.ok.inj (hv.symm.trans hv')

/-! ## Nodes -/

/-- The shape of the node for a term: the names of its children, and of the target to which it is a
link, are filled in. -/
def outline (shape : TermShape) (ids : List NodeId) (target : NodeId) : Shape :=
  match shape with
  | .primitive p => .primitive p
  | .literal k v => .literal k v
  | .array => .array (ids.headD "")
  | .tuple => .tuple ids
  | .object heads => .object ((heads.zip ids).map fun f =>
      { name := f.1.name, type := f.2, optional := f.1.optional, readonly := f.1.readonly,
        tags := f.1.tags, location := f.1.location })
  | .union δ => .union ids δ
  | .intersection => .intersection ids
  | .enum ms => .enum ms
  | .reference symbol => .reference (ids.headD "") symbol
  | .recursiveRef symbol _ (some _) => .recursiveRef target symbol
  | .recursiveRef symbol raw none => .recursiveRef raw symbol
  | .unknown r c => .unknown r c

def fieldOf (f : FieldHead × NodeId) : Field :=
  { name := f.1.name, type := f.2, optional := f.1.optional, readonly := f.1.readonly,
    tags := f.1.tags, location := f.1.location }

theorem outline_object (heads : List FieldHead) (ids : List NodeId) (target : NodeId) :
    outline (.object heads) ids target = .object ((heads.zip ids).map fieldOf) := rfl

theorem literal_of_outline {shape : TermShape} {ids : List NodeId} {target : NodeId} {k : LiteralKind}
    {x : Scalar} (h : outline shape ids target = .literal k x) : shape = .literal k x := by
  cases shape with
  | literal k' x' => simpa [outline] using h
  | recursiveRef symbol raw link => cases link <;> simp [outline] at h
  | _ => simp [outline] at h

theorem map_type_fieldOf {heads : List FieldHead} {ids : List NodeId}
    (h : heads.length = ids.length) : ((heads.zip ids).map fieldOf).map Field.type = ids := by
  rw [List.map_map]
  exact List.map_snd_zip h.ge

theorem outline_kind (shape : TermShape) (ids : List NodeId) (target : NodeId) :
    (outline shape ids target).kind = shape.kind := by
  cases shape with
  | recursiveRef symbol raw link => cases link <;> rfl
  | _ => rfl

theorem outline_children {shape : TermShape} (target : NodeId) (h : shape.Covers cs)
    (hlen : ids.length = cs.length) : (outline shape ids target).children = ids := by
  have hsingle (h : cs.length = 1) : [ids.headD ""] = ids := by
    obtain ⟨x, rfl⟩ := List.length_eq_one_iff.1 (hlen.trans h)
    rfl
  have hleaf (h : cs = []) : [] = ids := (List.length_eq_zero_iff.1 (by rw [hlen, h]; rfl)).symm
  cases shape with
  | array => exact hsingle h
  | reference symbol => exact hsingle h
  | tuple => rfl
  | union δ => rfl
  | intersection => rfl
  | object heads => exact map_type_fieldOf (h.1.trans hlen.symm)
  | enum ms => exact hleaf h.2
  | recursiveRef symbol raw link =>
    cases link with
    | none => exact hleaf h
    | some p => exact hleaf h
  | primitive p => exact hleaf h
  | literal kind v => exact hleaf h
  | unknown reason cause => exact hleaf h

theorem ends_shapeOf {shape : TermShape} {out : Shape} (h : Ends (shapeOf shape τ ids) A out B) :
    B = A ∧ ∃ target, out = outline shape ids target ∧
      ∀ p ∈ ownLinks shape, τ[p.2]? = some target := by
  cases shape with
  | recursiveRef symbol raw link =>
    cases link with
    | none =>
      obtain ⟨rfl, rfl⟩ := ends_pure.1 h
      exact ⟨rfl, "", rfl, by simp [ownLinks]⟩
    | some p =>
      simp only [shapeOf, ends_bind] at h
      obtain ⟨target, A', ht, h⟩ := h
      obtain ⟨htarget, rfl⟩ := ends_targetAt ht
      obtain ⟨rfl, rfl⟩ := ends_pure.1 h
      exact ⟨rfl, target, rfl, by simpa [ownLinks] using htarget⟩
  | _ =>
    obtain ⟨rfl, rfl⟩ := ends_pure.1 h
    exact ⟨rfl, "", rfl, by simp [ownLinks]⟩

/-- A term is written out by asking for its name and, if that is new, writing out the terms below
and filing a node. -/
theorem ends_emit (h : Ends (emit d a t τ) A id B) :
    t.Named d a τ id ∧ (id ∈ A ∧ B = A ∨
      id ∉ A ∧ ∃ ids C target, Ends (emitAll d a t.children (t.inner τ id)) A ids C ∧
        (∀ p ∈ ownLinks t.shape, (t.inner τ id)[p.2]? = some target) ∧
        B = C.insertIfNew id ⟨id, outline t.shape ids target, t.head.tags, t.head.location⟩) := by
  cases t with
  | mk head cs =>
    simp only [emit, ends_bind] at h
    obtain ⟨x, A₁, hx, _, _, hg, h⟩ := h
    obtain ⟨hname, rfl⟩ := ends_name (t := .mk head cs) hx
    obtain ⟨rfl, rfl⟩ := ends_get.1 hg
    split at h
    · next hc =>
      obtain ⟨rfl, rfl⟩ := ends_pure.1 h
      exact ⟨hname, .inl ⟨Std.ExtTreeMap.contains_iff_mem.1 hc, rfl⟩⟩
    · next hc =>
      simp only [ends_bind] at h
      obtain ⟨ids, C, hall, shape, C', hshape, _, C'', hm, h⟩ := h
      obtain ⟨rfl, rfl⟩ := ends_pure.1 h
      obtain rfl := ends_modify.1 hm
      obtain ⟨rfl, target, rfl, htarget⟩ := ends_shapeOf hshape
      exact ⟨hname, .inr ⟨fun hmem => hc (Std.ExtTreeMap.contains_iff_mem.2 hmem), ids, _, target,
        hall, htarget, rfl⟩⟩

theorem ends_emitAll_nil : Ends (emitAll d a [] τ) A ids B ↔ ids = [] ∧ B = A := by
  rw [emitAll, ends_pure]
  exact ⟨fun h => ⟨h.1.symm, h.2.symm⟩, fun h => ⟨h.1.symm, h.2.symm⟩⟩

theorem ends_emitAll_cons :
    Ends (emitAll d a (t :: ts) τ) A ids B ↔ ∃ id C rest, Ends (emit d a t τ) A id C ∧
      Ends (emitAll d a ts τ) C rest B ∧ ids = id :: rest := by
  simp only [emitAll, ends_bind, ends_pure]
  constructor
  · rintro ⟨id, C, h, rest, _, hs, rfl, rfl⟩
    exact ⟨id, C, rest, h, hs, rfl⟩
  · rintro ⟨id, C, rest, h, hs, rfl⟩
    exact ⟨id, C, h, rest, _, hs, rfl, rfl⟩

theorem ends_emitAll_append {us : List Term} :
    Ends (emitAll d a (ts ++ us) τ) A ids B ↔ ∃ ids₁ C ids₂, Ends (emitAll d a ts τ) A ids₁ C ∧
      Ends (emitAll d a us τ) C ids₂ B ∧ ids = ids₁ ++ ids₂ := by
  induction ts generalizing A ids with
  | nil =>
    simp only [List.nil_append, ends_emitAll_nil]
    constructor
    · exact fun h => ⟨[], A, ids, ⟨rfl, rfl⟩, h, rfl⟩
    · rintro ⟨_, _, ids₂, ⟨rfl, rfl⟩, h, rfl⟩
      exact h
  | cons t ts ih =>
    simp only [List.cons_append, ends_emitAll_cons, ih]
    constructor
    · rintro ⟨id, C, _, h, ⟨ids₁, C', ids₂, h₁, h₂, rfl⟩, rfl⟩
      exact ⟨id :: ids₁, C', ids₂, ⟨id, C, ids₁, h, h₁, rfl⟩, h₂, rfl⟩
    · rintro ⟨_, C', ids₂, ⟨id, C, ids₁, h, h₁, rfl⟩, h₂, rfl⟩
      exact ⟨id, C, ids₁ ++ ids₂, h, ⟨ids₁, C', ids₂, h₁, h₂, rfl⟩, rfl⟩

/-! ## Arenas -/

theorem getElem?_insertIfNew {x : NodeId} {n : Node} :
    (A.insertIfNew id n)[x]? = if id = x ∧ id ∉ A then some n else A[x]? := by
  rw [Std.ExtTreeMap.getElem?_insertIfNew]
  simp

theorem mem_insertIfNew (n : Node) : id ∈ A.insertIfNew id n := by simp

theorem extends_insertIfNew (n : Node) : Extends A (A.insertIfNew id n) := by
  intro x m hm
  rw [getElem?_insertIfNew, if_neg]
  · exact hm
  · rintro ⟨rfl, hn⟩
    exact hn (mem_iff_exists_getElem?.2 ⟨m, hm⟩)

/-- What a node is written for: a term, the targets that enclose it, the names of the terms below,
and the target to which it is a link. -/
structure Entry where
  term : Term
  under : List NodeId
  names : List NodeId
  target : NodeId

namespace Entry

/-- The targets that enclose what is below. -/
def inner (e : Entry) (id : NodeId) : List NodeId := e.term.inner e.under id

def node (e : Entry) (id : NodeId) : Node :=
  ⟨id, outline e.term.shape e.names e.target, e.term.head.tags, e.term.head.location⟩

end Entry

/-- The node of a name is that of a term which was asked for when the name was new. -/
structure Written (d : Digester) (a : Algorithm) (root : Term) (A : Arena) (id : NodeId)
    (e : Entry) : Prop where
  asked : ∃ B, Asks d a root [] ∅ e.term e.under B ∧ id ∉ B
  named : e.term.Named d a e.under id
  children : List.Forall₂ (fun c i => c.Named d a (e.inner id) i ∧ i ∈ A ∧
    ∃ B, Asks d a root [] ∅ c (e.inner id) B) e.term.children e.names
  link : ∀ p ∈ ownLinks e.term.shape, (e.inner id)[p.2]? = some e.target
  node : A[id]? = some (e.node id)

/-- Every name that is filed was asked for. -/
def Filed (d : Digester) (a : Algorithm) (root : Term) (A : Arena) : Prop :=
  ∀ id ∈ A, ∃ e, Written d a root A id e

theorem Written.extend {e : Entry} (h : Written d a root A id e) (hAB : Extends A B) :
    Written d a root B id e :=
  { h with
    children := h.children.imp fun _ _ hc => ⟨hc.1, hAB.mem hc.2.1, hc.2.2⟩
    node := hAB _ _ h.node }

theorem filed_of_emitAll {D : Arena} {ids₀ : List NodeId} {done : List Term}
    (hn : t.Named d a τ id) (hnew : id ∉ D)
    (hctx : ∀ u σ C, Asks d a t τ D u σ C → Asks d a root [] ∅ u σ C)
    (ih : ∀ c ∈ t.children, ∀ τ A i B, Ends (emit d a c τ) A i B →
      (∀ u σ C, Asks d a c τ A u σ C → Asks d a root [] ∅ u σ C) → Filed d a root A →
        Filed d a root B ∧ Extends A B ∧ i ∈ B)
    (hc : t.children = done ++ cs) (hdone : Ends (emitAll d a done (t.inner τ id)) D ids₀ A)
    (h : Ends (emitAll d a cs (t.inner τ id)) A ids B) (hA : Filed d a root A) :
    Filed d a root B ∧ Extends A B ∧ List.Forall₂ (fun c i => c.Named d a (t.inner τ id) i ∧
      i ∈ B ∧ ∃ B, Asks d a root [] ∅ c (t.inner τ id) B) cs ids := by
  induction cs generalizing A ids ids₀ done with
  | nil =>
    obtain ⟨rfl, rfl⟩ := ends_emitAll_nil.1 h
    exact ⟨hA, .refl _, .nil⟩
  | cons c cs ihcs =>
    obtain ⟨i, C, rest, hi, hrest, rfl⟩ := ends_emitAll_cons.1 h
    have hasks : ∀ u σ E, Asks d a c (t.inner τ id) A u σ E → Asks d a root [] ∅ u σ E :=
      fun u σ E hu => hctx u σ E (.deeper hn hnew hc hdone hu)
    obtain ⟨hC, hAC, hiC⟩ := ih c (hc ▸ by simp) _ _ _ _ hi hasks hA
    have hdone' : Ends (emitAll d a (done ++ [c]) (t.inner τ id)) D (ids₀ ++ [i]) C :=
      ends_emitAll_append.2 ⟨ids₀, A, [i], hdone,
        ends_emitAll_cons.2 ⟨i, C, [], hi, ends_emitAll_nil.2 ⟨rfl, rfl⟩, rfl⟩, rfl⟩
    obtain ⟨hB, hCB, hall⟩ := ihcs (by simp [hc]) hdone' hrest hC
    exact ⟨hB, hAC.trans hCB, .cons ⟨(ends_emit hi).1, hCB.mem hiC, A, hasks _ _ _ .here⟩ hall⟩

/-- Writing out a term files it and what is below it. -/
theorem filed_of_emit (h : Ends (emit d a t τ) A id B)
    (hctx : ∀ u σ C, Asks d a t τ A u σ C → Asks d a root [] ∅ u σ C) (hA : Filed d a root A) :
    Filed d a root B ∧ Extends A B ∧ id ∈ B := by
  induction t generalizing τ A id B with
  | mk head cs ih =>
    obtain ⟨hn, ⟨hmem, rfl⟩ | ⟨hnew, ids, C, target, hall, htarget, rfl⟩⟩ := ends_emit h
    · exact ⟨hA, .refl _, hmem⟩
    · obtain ⟨hC, hAC, hchildren⟩ := filed_of_emitAll hn hnew hctx
        (fun c hc τ A i B h hctx hA => ih c hc h hctx hA) (List.nil_append _).symm
        (ends_emitAll_nil.2 ⟨rfl, rfl⟩) hall hA
      let e : Entry := ⟨.mk head cs, τ, ids, target⟩
      have hext : Extends C (C.insertIfNew id (e.node id)) := extends_insertIfNew _
      refine ⟨fun x hx => ?_, hAC.trans hext, mem_insertIfNew _⟩
      by_cases hid : id = x ∧ id ∉ C
      · obtain ⟨rfl, hnode⟩ := hid
        exact ⟨e, ⟨A, hctx _ _ _ .here, hnew⟩, hn,
          hchildren.imp fun _ _ hc => ⟨hc.1, hext.mem hc.2.1, hc.2.2⟩, htarget,
          getElem?_insertIfNew.trans (if_pos ⟨rfl, hnode⟩)⟩
      · obtain ⟨n, hn⟩ := mem_iff_exists_getElem?.1 hx
        rw [getElem?_insertIfNew, if_neg hid] at hn
        obtain ⟨e', he'⟩ := hC x (mem_iff_exists_getElem?.2 ⟨n, hn⟩)
        exact ⟨e', he'.extend hext⟩

end TypeAtlas.Term
