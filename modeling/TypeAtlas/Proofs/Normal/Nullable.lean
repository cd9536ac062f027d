import TypeAtlas.Proofs.Normal.Kinds
import TypeAtlas.Proofs.Normal.Refolded
import TypeAtlas.Proofs.Normal.Unmerged

/-! # Types that may be null

A union that is made of some members is of their kinds, if they are of one family, and cannot be classified
otherwise. Null is of any family, so with null among its members a union is of the same kinds as without.
Which tags are rejected for a field depends on the kinds of its type alone.
-/

namespace TypeAtlas

open Term Relation

namespace Folding

variable {s : Setting} {n : Node} {t u : Term} {ts kept cs ds : List Term} {ms : List Member} {binder : Bool}
  {δ : Option Discriminant} {S : Set String} {id x v : NodeId} {xs ys : List NodeId}

/-! ## Unions -/

theorem kept_of_offending (h : (ms.foldl Sorting.add {}).offending = none) :
    (ms.foldl Sorting.add {}).kept = ms.map Prod.snd := by
  induction ms using List.reverseRecOn with
  | nil => rfl
  | append_singleton ms m ih =>
    simp only [List.foldl_append, List.foldl_cons, List.foldl_nil] at ih h ⊢
    generalize ms.foldl Sorting.add {} = acc at ih h ⊢
    simp only [Sorting.add] at h ⊢
    split at h
    · rw [if_pos ‹_›, ih h, List.map_append, List.map_singleton]
    · split at h
      · rw [if_neg ‹_›, if_pos ‹_›, ih h, List.map_append, List.map_singleton]
      · cases hoffending : acc.offending <;> simp [hoffending] at h

theorem kin_append_neutral (hds : ∀ d ∈ ds, d.family = .neutral) : Kin (cs ++ ds) ↔ Kin cs := by
  constructor
  · exact fun h c hc c' hc' => h c (List.mem_append_left _ hc) c' (List.mem_append_left _ hc')
  · intro h c hc c' hc' hne hne'
    have hleft {c : Term} (hc : c ∈ cs ++ ds) (hne : c.family ≠ .neutral) : c ∈ cs :=
      (List.mem_append.1 hc).resolve_right fun hd => hne (hds c hd)
    exact h c (hleft hc hne) c' (hleft hc' hne') hne hne'

/-- A union over some members is of their kinds, be it one that gave way to its only member. -/
theorem Composed.amounts (h : Composed s n (.union δ) ts binder t) : Amounts t ts := by
  have hmade (h : Made s n (.union δ) ts t) : Amounts t ts := by
    obtain ⟨digest, -, rfl⟩ := make_eq_ok h
    exact amounts_children (δ := δ) rfl
  simp only [Composed] at h
  split at h
  · split at h
    · exact h ▸ amounts_self t
    · exact hmade h
  · exact hmade h

theorem Unmade.not_classified (h : Unmade s id t) : ¬ t.Classified := by
  obtain ⟨reason, cause, -, ht⟩ := h
  obtain ⟨digest, -, rfl⟩ := make_eq_ok ht
  simp [Classified, kinds?]

/-- What two terms with the same digest must meet to say the same. -/
def Legitimate (s : Setting) (S : Set String) (t : Term) : Prop :=
  t.Sealed s.digester s.algorithm ∧ t.encodings ⊆ S

/-- It does not matter for the kinds of a union which of the members with the same digest has stayed. -/
theorem amounts_sortedUnique (hS : s.digester.CollisionFree s.algorithm S)
    (hts : ∀ c ∈ ts, Legitimate s S c) (h : Amounts t (sortedUnique ts)) : Amounts t ts := by
  refine h.congr (fun c hc => ⟨c, mem_of_mem_sortedUnique hc, .of_eq rfl⟩) fun d hd => ?_
  obtain ⟨c, hc, hdigest⟩ := exists_mem_sortedUnique hd
  obtain ⟨hcs, hce⟩ := hts c (mem_of_mem_sortedUnique hc)
  obtain ⟨hds, hde⟩ := hts d hd
  exact ⟨c, hc, (twin_of_digest_eq hS hcs hds hce hde hdigest).sameKinds⟩

/-- A union that is made of some members: it is of their kinds if they are of one family, and cannot be
classified otherwise. -/
structure Unites (t : Term) (cs : List Term) : Prop where
  kin : Kin cs → Amounts t cs
  mixed : ¬ Kin cs → ¬ t.Classified

/-- What is made of the members of a union unites them. -/
theorem unites_of_kept (hS : s.digester.CollisionFree s.algorithm S) (hk : Kept s True n ms kept)
    (hc : Composed s n (.union δ) (sortedUnique kept) binder t)
    (hms : ∀ c ∈ ms.map Prod.snd, Legitimate s S c) (hrest : ∀ u, Unmade s n.id u → Legitimate s S u) :
    Unites t (ms.map Prod.snd) := by
  have hamounts : Amounts t kept := by
    refine amounts_sortedUnique hS (fun c hc => ?_) hc.amounts
    rcases mem_kept hk hc with ⟨m, hm, rfl⟩ | hc
    · exact hms m.2 (List.mem_map_of_mem hm)
    · exact hrest c hc
  constructor
  · intro hkin
    obtain ⟨hoffending, hall⟩ := sorting_of_kin ms hkin
    simp only [Kept, hoffending] at hk
    rwa [hk, hall] at hamounts
  · intro hkin hclassified
    simp only [Kept] at hk
    split at hk
    · next hoffending =>
      exact hkin (kept_of_offending hoffending ▸ kin_kept ms)
    · obtain ⟨-, rest, hunmade, rfl⟩ := hk
      exact hunmade.not_classified (hamounts.classified.1 hclassified rest (by simp))

/-- A type unites what takes its place among the members of a union. -/
theorem unites_splice (ht : t.Formed s.digester s.algorithm) (id : NodeId) :
    Unites t ((splice "union" (id, t)).map Prod.snd) := by
  by_cases hspliced : t.shape.kind = "union" ∧ t.head.tags = [] ∧ t.binder = false
  · obtain ⟨δ, hδ⟩ := TermShape.eq_union_of_kind hspliced.1
    have hcov := ht.covers
    rw [hδ] at hcov
    have hsnd : (splice "union" (id, t)).map Prod.snd = t.children := by
      simp only [splice, hspliced, List.isEmpty_nil, decide_true, Bool.and_self, Bool.not_false, if_true,
        List.map_map]
      exact List.map_id _
    rw [hsnd]
    exact ⟨fun _ => amounts_children hδ, fun h => absurd hcov.2.2.2 h⟩
  · rw [splice_eq_self hspliced, List.map_singleton]
    exact ⟨fun _ => amounts_self t, fun h => absurd (by simp [Kin]) h⟩

/-! ## Null -/

/-- A type that has no value but null. -/
structure Nullary (t : Term) : Prop where
  classified : t.Classified
  kinds : t.kinds = {"null"}
  family : t.family = .neutral
  whole (id : NodeId) : splice "union" (id, t) = [(id, t)]

theorem Made.nullary {p : Primitive} (h : Made s n (.primitive p) [] t) (hp : p.isNeutral) : Nullary t := by
  obtain ⟨digest, -, rfl⟩ := make_eq_ok h
  have hkinds : kinds? (mk ⟨.primitive p, digest, n.id, n.tags, n.location, freeFor (.primitive p) [], false,
      familyOf (.primitive p) []⟩ []) = some ["null"] := by
    rw [kinds?]
    simp only [hp, if_true]
  refine ⟨Option.isSome_iff_exists.2 ⟨_, hkinds⟩, ?_, if_pos hp, fun id => splice_eq_self ?_⟩
  · rw [List.map_nil, kinds_of_eq_some hkinds]
    simp
  · rintro ⟨hkind, -⟩
    have hkind : "primitive" = "union" := hkind
    exact absurd hkind (by decide)

theorem spliced_nullary {ids : List NodeId} (hds : ∀ d ∈ ds, Nullary d) :
    spliced "union" ids ds = ids.zip ds := by
  rw [spliced, List.flatMap_congr (g := fun m => [m]) fun m hm => (hds m.2 (List.of_mem_zip hm).2).whole m.1]
  exact List.flatMap_singleton' _

theorem map_snd_spliced_append (hts : ts.length = xs.length) (hds : ds.length = ys.length)
    (hnull : ∀ d ∈ ds, Nullary d) :
    (spliced "union" (xs ++ ys) (ts ++ ds)).map Prod.snd = (spliced "union" xs ts).map Prod.snd ++ ds := by
  rw [spliced, List.zip_append hts.symm, List.flatMap_append, List.map_append]
  change _ ++ (spliced "union" ys ds).map Prod.snd = _
  rw [spliced_nullary hnull, List.map_snd_zip hds.le]
  rfl

/-- A union that null is added to is of the same kinds, unless the other members have no values. -/
theorem Unites.sameKinds (ht : Unites t cs) (hu : Unites u (cs ++ ds)) (hds : ∀ d ∈ ds, Nullary d)
    (hsome : t.kinds? ≠ some []) : SameKinds t u := by
  have hkin : Kin (cs ++ ds) ↔ Kin cs := kin_append_neutral fun d hd => (hds d hd).family
  by_cases h : Kin cs
  · exact .of_append_null (ht.kin h) (hu.kin (hkin.2 h))
      (fun d hd => ⟨(hds d hd).classified, (hds d hd).kinds⟩) hsome
  · have ht' := ht.mixed h
    have hu' := hu.mixed fun h' => h (hkin.1 h')
    exact ⟨iff_of_false ht' hu', (kinds_of_not_classified ht').trans (kinds_of_not_classified hu').symm⟩

/-! ## Tags -/

/-- Whether the tag is rejected for a field of the type. -/
def clashes (t : Term) (tag : Tag) : Bool :=
  tag.parsed.isSome && tag.name != "index" && t.kinds?.any fun ks => !tagFits tag.name ks

/-- The state after the tags were reported as incompatible with the type of a field. -/
def reject (s : Setting) (owner : NodeId) (field type : String) (tags : List Tag) (st : State) : State :=
  { st with sink := tags.foldl (fun sink tag => sink.emit (Diagnostic.make .tagIncompatibleType
      [.text ("@" ++ tag.name), .text type] (some (s.graph.place owner))
      (some { entity := some s.graph.symbol, field := some field }))) st.sink }

theorem tagFits_congr {ks ls : List String} (name : String) (h : ∀ k, k ∈ ks ↔ k ∈ ls) :
    tagFits name ks = tagFits name ls := by
  unfold tagFits
  split
  · rfl
  · rw [Bool.eq_iff_iff, List.all_eq_true, List.all_eq_true]
    simp only [h]

theorem clashes_eq (h : SameKinds t u) : clashes t = clashes u := by
  funext tag
  have hany : (t.kinds?.any fun ks => !tagFits tag.name ks) = u.kinds?.any fun ks => !tagFits tag.name ks := by
    have hclassified : t.kinds?.isSome ↔ u.kinds?.isSome := h.classified
    cases ht : t.kinds? with
    | none =>
      cases hu : u.kinds? with
      | none => rfl
      | some ls => simp [ht, hu] at hclassified
    | some ks =>
      cases hu : u.kinds? with
      | none => simp [ht, hu] at hclassified
      | some ls =>
        have hkinds := h.kinds
        rw [kinds_of_eq_some ht, kinds_of_eq_some hu] at hkinds
        simp only [Option.any_some]
        rw [tagFits_congr tag.name fun k => Set.ext_iff.1 hkinds k]
  rw [clashes, clashes, hany]

theorem reject_of_checkTags {tags : List Tag} {owner : NodeId} {field type : String} {st st' : State} {v : Unit}
    (htype : ∀ x, s.graph.render t.head.rawId = .ok x → x = type)
    (h : Ends (checkTags s tags t owner (some field) false) st v st') :
    st' = reject s owner field type (tags.filter (clashes t)) st := by
  rw [checkTags, ends_bind] at h
  obtain ⟨_, st₁, hloop, h⟩ := h
  obtain ⟨-, rfl⟩ := ends_pure.1 h
  induction tags generalizing st with
  | nil =>
    rw [List.forIn_nil] at hloop
    obtain ⟨-, rfl⟩ := ends_pure.1 hloop
    rfl
  | cons tag tags ih =>
    rw [List.forIn_cons, ends_bind] at hloop
    obtain ⟨r, st₂, hstep, hrest⟩ := hloop
    have hpass (hclash : clashes t tag = false) (h : .yield ⟨⟩ = r ∧ st = st₂) :
        st₁ = reject s owner field type ((tag :: tags).filter (clashes t)) st := by
      obtain ⟨rfl, rfl⟩ := h
      rw [List.filter_cons_of_neg (by simp [hclash]), ih hrest]
    split at hstep
    · next hparsed =>
      split at hstep
      · next hindex =>
        rw [if_neg Bool.false_ne_true] at hstep
        exact hpass (by simp [clashes, hindex]) (ends_pure.1 hstep)
      · next hindex =>
        split at hstep
        · next kinds hkinds =>
          split at hstep
          · next hfits =>
            have hclash : clashes t tag = true := by
              simp only [clashes, hparsed, hkinds, Option.any_some, hfits, Bool.true_and, Bool.and_true]
              simpa using hindex
            simp only [reportIncompatible, ends_bind] at hstep
            obtain ⟨_, st₃, ⟨x, st₄, hx, hreport⟩, hyield⟩ := hstep
            obtain ⟨hok, rfl⟩ := ends_written.1 hx
            obtain rfl := htype x hok
            obtain rfl := ends_modify.1 hreport
            obtain ⟨rfl, rfl⟩ := ends_pure.1 hyield
            rw [List.filter_cons_of_pos hclash, ih hrest]
            rfl
          · next hfits =>
            exact hpass (by simp [clashes, hkinds, hfits]) (ends_pure.1 hstep)
        · next hkinds => exact hpass (by simp [clashes, hkinds]) (ends_pure.1 hstep)
    · next hparsed => exact hpass (by simp [clashes, hparsed]) (ends_pure.1 hstep)

/-- Fields of types of the same kinds have the same tags rejected. -/
theorem exists_reject {tags : List Tag} {owner : NodeId} {field : String} {st st' : State} {v : Unit}
    (h : Ends (checkTags s tags t owner (some field) false) st v st') :
    ∃ type, st' = reject s owner field type (tags.filter (clashes t)) st := by
  cases hrender : s.graph.render t.head.rawId with
  | ok type => exact ⟨type, reject_of_checkTags (fun x hx => Except.ok.inj (hx.symm.trans hrender)) h⟩
  | error e => exact ⟨"", reject_of_checkTags (fun x hx => by cases hx.symm.trans hrender) h⟩

end Folding

end TypeAtlas
