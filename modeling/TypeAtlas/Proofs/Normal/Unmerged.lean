import TypeAtlas.Proofs.Normal.Twins

/-! # Intersections that stay

An intersection of objects is merged into one object. What is left of the others still is no
intersection of objects: dropping a member leaves one with the same digest, which is an object
exactly if the dropped one is.
-/

namespace TypeAtlas

open Folding

namespace Term

/-- An intersection is not one of objects. -/
def Unmerged (t : Term) : Prop :=
  t.shape = .intersection → t.children = [] ∨ t.children.mapM objectBody? = none

end Term

namespace Folding

open Term

variable {s : Setting} {n : Node} {ts cs : List Term} {t u : Term} {stack : List NodeId}
  {loose : Prop} {binder : Bool} {shape : TermShape} {S : Set String}

theorem mapM_sortedUnique_eq_none (hS : s.digester.CollisionFree s.algorithm S)
    (hts : ∀ t ∈ ts, t.Sealed s.digester s.algorithm ∧ t.encodings ⊆ S)
    (h : ts.mapM objectBody? = none) : (sortedUnique ts).mapM objectBody? = none := by
  obtain ⟨t, ht, hnone⟩ := mapM_eq_none.1 h
  obtain ⟨u, hu, hd⟩ := exists_mem_sortedUnique ht
  obtain ⟨hsealed, henc⟩ := hts t ht
  obtain ⟨hsealed', henc'⟩ := hts u (mem_of_mem_sortedUnique hu)
  have htwin := twin_of_digest_eq hS hsealed hsealed' henc henc' hd.symm
  refine mapM_eq_none.2 ⟨u, hu, Option.isNone_iff_eq_none.1 ?_⟩
  rw [← Option.not_isSome, ← htwin.isSome_objectBody?, hnone]
  rfl

theorem Made.throughout {P : Term → Prop} (h : Made s n shape cs t) (hcs : ∀ c ∈ cs, c.Throughout P)
    (hP : ∀ head, head.shape = shape → P (.mk head cs)) : t.Throughout P := by
  obtain ⟨digest, -, rfl⟩ := make_eq_ok h
  exact .of_children (hP _ rfl) hcs

theorem Composed.throughout {P : Term → Prop} (h : Composed s n shape cs binder t)
    (hcs : ∀ c ∈ cs, c.Throughout P) (hP : ∀ head, head.shape = shape → P (.mk head cs)) :
    t.Throughout P := by
  simp only [Composed] at h
  split at h
  · split at h
    · exact hcs t (by simp [h])
    · exact Made.throughout h hcs hP
  · exact Made.throughout h hcs hP

theorem sub_of_mem_spliced {kind : String} {ids : List NodeId} {m : Member}
    (h : m ∈ spliced kind ids ts) : ∃ t ∈ ts, m.2.Sub t := by
  obtain ⟨⟨id, t⟩, hp, hm⟩ := List.mem_flatMap.1 h
  refine ⟨t, (List.of_mem_zip hp).2, ?_⟩
  simp only [splice] at hm
  split at hm
  · obtain ⟨c, hc, rfl⟩ := List.mem_map.1 hm
    exact .child hc
  · rw [List.mem_singleton.1 hm]
    exact .refl

theorem Unmade.throughout {P : Term → Prop} {id : NodeId} (h : Unmade s id t)
    (hP : ∀ head reason cause, head.shape = .unknown reason cause → P (.mk head [])) :
    t.Throughout P := by
  obtain ⟨reason, cause, -, ht⟩ := h
  obtain ⟨digest, -, rfl⟩ := make_eq_ok ht
  exact .of_children (hP _ reason cause rfl) (by simp)

theorem mem_kept {ms : List Member} {kept : List Term} (h : Kept s loose n ms kept) (ht : t ∈ kept) :
    (∃ m ∈ ms, m.2 = t) ∨ Unmade s n.id t := by
  simp only [Kept] at h
  split at h
  · subst h
    exact .inl (sorting_spec ms t ht).1
  · obtain ⟨-, rest, hrest, rfl⟩ := h
    rcases List.mem_append.1 ht with ht | ht
    · exact .inl (sorting_spec ms t ht).1
    · exact .inr (List.mem_singleton.1 ht ▸ hrest)

theorem Assembled.unmerged (hS : s.digester.CollisionFree s.algorithm S)
    (h : Assembled s loose n stack binder ts t)
    (hts : ∀ u ∈ ts, u.Throughout Unmerged ∧ u.Sealed s.digester s.algorithm ∧ u.encodings ⊆ S) :
    t.Throughout Unmerged := by
  have hsub {c u : Term} (hu : u ∈ ts) (hc : c.Sub u) : c.Throughout Unmerged := (hts u hu).1.sub hc
  have hmade {shape : TermShape} {cs : List Term} (h : Made s n shape cs t)
      (hshape : shape ≠ .intersection) (hcs : ∀ c ∈ cs, c.Throughout Unmerged) :
      t.Throughout Unmerged :=
    h.throughout hcs fun head hs hi => absurd (hs.symm.trans hi) hshape
  have hobject {fs : List FieldTerm} (h : MadeObject s n (mergedFields fs) t)
      (hfs : ∀ f ∈ fs, f.2.Throughout Unmerged) : t.Throughout Unmerged := by
    refine hmade h (by simp) fun c hc => ?_
    obtain ⟨f, hf, rfl⟩ := List.mem_map.1 hc
    obtain ⟨g, hg, he, -⟩ := exists_of_mem_mergedFields hf
    exact he ▸ hfs g hg
  unfold Assembled at h
  split at h
  case h_6 e hs => exact hmade h (by simp) fun c hc => (hts c hc).1
  case h_7 es hs => exact hmade h (by simp) fun c hc => (hts c hc).1
  case h_8 target symbol hs => exact hmade h (by simp) fun c hc => (hts c hc).1
  case h_9 fs hs => exact hobject h fun f hf => (hts f.2 (List.of_mem_zip hf).2).1
  case h_10 ms δ hs =>
    obtain ⟨kept, hk, hc⟩ := h
    refine hc.throughout (fun c hc => ?_) fun head hs hi => by simp [hs] at hi
    rcases mem_kept hk (mem_of_mem_sortedUnique hc) with ⟨m, hm, rfl⟩ | hrest
    · obtain ⟨u, hu, hmu⟩ := sub_of_mem_spliced hm
      exact hsub hu hmu
    · exact hrest.throughout fun head reason cause hs hi => by simp [hs] at hi
  case h_11 ms hs =>
    unfold Intersected at h
    have hmembers : ∀ c ∈ (spliced "intersection" (flat s intersectionMembers? ms) ts).map Prod.snd,
        ∃ u ∈ ts, c.Sub u := by
      intro c hc
      obtain ⟨m, hm, rfl⟩ := List.mem_map.1 hc
      exact sub_of_mem_spliced hm
    generalize (spliced "intersection" (flat s intersectionMembers? ms) ts).map Prod.snd = cs at *
    split at h
    · next c cs bodies hb =>
      refine hobject h fun f hf => ?_
      obtain ⟨body, hbody, hf⟩ := List.mem_flatten.1 hf
      obtain ⟨v, hv, hbv⟩ := exists_of_mem_mapM hb hbody
      obtain ⟨u, hu, hvu⟩ := hmembers v hv
      exact hsub hu ((objectBody?_sub hbv hf).trans hvu)
    · next cs _ _ hno =>
      have hnone : cs = [] ∨ cs.mapM objectBody? = none := by
        cases cs with
        | nil => exact .inl rfl
        | cons c cs =>
          cases hb : (c :: cs).mapM objectBody? with
          | none => exact .inr rfl
          | some bodies => exact (hno c cs bodies rfl hb).elim
      refine h.throughout (fun c hc => ?_) fun head _ _ => ?_
      · obtain ⟨u, hu, hcu⟩ := hmembers c (mem_of_mem_sortedUnique hc)
        exact hsub hu hcu
      · refine hnone.imp (fun hnil => by simp [hnil, sortedUnique]) fun hnone => ?_
        refine mapM_sortedUnique_eq_none hS (fun c hc => ?_) hnone
        obtain ⟨u, hu, hcu⟩ := hmembers c hc
        obtain ⟨-, hsealed, henc⟩ := hts u hu
        exact ⟨hsealed.sub hcu, hcu.encodings_subset.trans henc⟩
  all_goals exact hmade h (by simp) (by simp)

/-- A term at which a fold arrives has no intersections of objects. -/
theorem Derives.unmerged {trail : List NodeId} {id : NodeId}
    (hS : s.digester.CollisionFree s.algorithm S)
    (henc : ∀ trail stack id t, Visited s trail stack id → Derives s loose stack id t →
      t.encodings ⊆ S) (h : Derives s loose stack id t) (hv : Visited s trail stack id) :
    t.Throughout Unmerged := by
  have hsealed {stack id t} (h : Derives s loose stack id t) : t.Sealed s.digester s.algorithm :=
    h.sits.formed.mono fun _ h => h.digested
  induction h generalizing trail with
  | recalled hv' _ _ ih => exact ih hv'
  | abandoned _ hu => exact hu.throughout fun head reason cause hs hi => by simp [hs] at hi
  | @plain stack id n ts t hn _ hlen hts ht _ ih =>
    refine ht.unmerged hS fun u hu => ?_
    obtain ⟨i, hi, rfl⟩ := List.getElem_of_mem hu
    have hvis : Visited s (id :: trail) stack ((sourceIds s n)[i]) :=
      .plain hv hn (List.getElem_mem _)
    exact ⟨ih i hi hvis, hsealed (hts i hi), henc _ _ _ _ hvis (hts i hi)⟩
  | @target stack id n ts u t hn hb hlen hts hu _ ht _ ih =>
    have hthrough : u.Throughout Unmerged := by
      refine hu.unmerged hS fun u hu => ?_
      obtain ⟨i, hi, rfl⟩ := List.getElem_of_mem hu
      have hvis : Visited s (id :: trail) (id :: stack) ((sourceIds s n)[i]) :=
        .target hv hn hb (List.getElem_mem _)
      exact ⟨ih i hi hvis, hsealed (hts i hi), henc _ _ _ _ hvis (hts i hi)⟩
    obtain ⟨digest, -, rfl⟩ := asTarget_eq_ok ht
    exact .of_children hthrough.here fun c hc => hthrough.child hc

end Folding

end TypeAtlas
