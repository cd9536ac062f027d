import TypeAtlas.Proofs.Normal.Twins

/-! # Literals and discriminants

Twins with finite literals hold the same literals, so unions of twins have the same discriminant.
-/

namespace TypeAtlas

open Folding Term

/-- A truth value, a text or a number that is finite. -/
def Scalar.isFinite : Scalar → Bool
  | .number n => n.isFinite
  | _ => true

namespace Scalar

variable {x y : Scalar}

theorem canonical_toDatum (h : x.isFinite) : x.toDatum.canonical = x.toDatum := by
  cases x with
  | number n => exact if_pos h
  | _ => rfl

theorem toDatum_inj (h : x.toDatum = y.toDatum) : x = y := by
  cases x <;> cases y <;> simp_all [toDatum]

theorem isFinite_iff : x.isFinite ↔ x.toDatum.canonical ≠ .null := by
  cases x with
  | number n =>
    have hcan : (Scalar.number n).toDatum.canonical = if n.isFinite then .number n else .null := rfl
    rw [hcan]
    cases hn : n.isFinite <;> simp [isFinite, hn]
  | _ => simp [isFinite, toDatum]

theorem eq_of_canonical_eq (h : x.isFinite) (he : x.toDatum.canonical = y.toDatum.canonical) :
    x = y := by
  have hy : y.isFinite := isFinite_iff.2 (he ▸ isFinite_iff.1 h)
  rw [canonical_toDatum h, canonical_toDatum hy] at he
  exact toDatum_inj he

theorem compare?_self {n : Number} (h : n.isFinite) : n.compare? n = some .eq := by
  have hf : ∃ q, n.fraction? = some q := by
    cases n with
    | int n => exact ⟨_, rfl⟩
    | float x =>
      simp only [Number.isFinite, Binary64.isFinite] at h
      simp only [Number.fraction?, Binary64.fraction?]
      split at h
      · split <;> exact ⟨_, rfl⟩
      · cases h
  obtain ⟨q, hq⟩ := hf
  simp [Number.compare?, hq, Binary64.Fraction.compare]

theorem same_self (h : x.isFinite) : x.same x := by
  cases x with
  | text s => simp [same]
  | bool b => cases b <;> rfl
  | number n => simp [same, toNumber?, Number.same, compare?_self h]

end Scalar

namespace Term

variable {t u v : Term} {fs gs : List FieldTerm} {f g : FieldTerm}

/-- All literals of a term are finite. -/
abbrev Finite (t : Term) : Prop :=
  t.Throughout fun u => ∀ k x, u.shape = .literal k x → x.isFinite

theorem Twin.finite (h : Twin u v) (hv : v.Finite) : u.Finite := by
  induction h with
  | @intro u v hal hc ih =>
    refine .of_children (fun k x hx => ?_) fun c hm => ?_
    · have hshape := hal.shape
      rw [hx] at hshape
      generalize hs : v.shape = s at hshape
      cases hshape with
      | literal he => exact Scalar.isFinite_iff.2 (he ▸ Scalar.isFinite_iff.1 (hv.here _ _ hs))
    · obtain ⟨i, hi, rfl⟩ := List.getElem_of_mem hm
      have hj : i < v.children.length := hal.length ▸ hi
      exact ih i hi hj (hv.child (List.getElem_mem hj))

/-- Literals that are the same, finite value, wherever they stand. -/
def LiteralsAlike (l m : Literal) : Prop := l.kind = m.kind ∧ l.value = m.value ∧ l.value.isFinite

theorem Twin.requiredLiteral? (ho : f.1.optional = g.1.optional) (h : Twin f.2 g.2)
    (hf : f.2.Finite) : Option.Rel LiteralsAlike (requiredLiteral? f) (requiredLiteral? g) := by
  have hfree := h.dereferenceFree
  have hshape := hfree.shape
  have hfin := (hf.sub f.2.dereferenceFree_sub).here
  unfold Term.requiredLiteral?
  rw [ho]
  dsimp only
  generalize hs : f.2.dereferenceFree.shape = s at hshape hfin
  generalize hs' : g.2.dereferenceFree.shape = s' at hshape
  cases hshape
  case literal k x y he =>
    have hx := hfin k x rfl
    cases g.1.optional
    · exact .some ⟨rfl, Scalar.eq_of_canonical_eq hx he, hx⟩
    · exact .none
  all_goals cases g.1.optional <;> exact .none

end Term

namespace Folding

variable {us vs : List Term}

theorem sameLiteral_of_finite {l m : Literal} (h : l.value.isFinite) :
    sameLiteral l m = (l.kind == m.kind && l.value.same m.value) := by
  unfold sameLiteral
  by_cases he : l.value = m.value
  · rw [← he, Scalar.same_self h, Bool.true_or]
  · rw [beq_eq_false_iff_ne.2 he, Bool.and_false, Bool.or_false]

theorem sameLiteral_congr {l m l' m' : Literal} (h : LiteralsAlike l l') (h' : LiteralsAlike m m') :
    sameLiteral l m = sameLiteral l' m' := by
  obtain ⟨hk, hv, hfin⟩ := h
  obtain ⟨hk', hv', -⟩ := h'
  rw [sameLiteral_of_finite hfin, sameLiteral_of_finite (hv ▸ hfin), hk, hv, hk', hv']

theorem distinctLiterals_iff {ls : List Literal} :
    distinctLiterals ls ↔ ls.Pairwise fun l m => sameLiteral l m = false := by
  induction ls with
  | nil => simp [distinctLiterals]
  | cons l ls ih => simp [distinctLiterals, ih]

theorem distinctLiterals_congr {ls ms : List Literal} (h : List.Forall₂ LiteralsAlike ls ms) :
    distinctLiterals ls = distinctLiterals ms := by
  induction h with
  | nil => rfl
  | @cons l m ls ms hl hls ih =>
    have hany : ls.any (sameLiteral l) = ms.any (sameLiteral m) := by
      clear ih
      induction hls with
      | nil => rfl
      | cons hx _ ih => rw [List.any_cons, List.any_cons, sameLiteral_congr hl hx, ih]
    rw [distinctLiterals, distinctLiterals, hany, ih]

/-- Bodies of twins, the first of which hold only finite literals. -/
def BodiesTwin (fs gs : List FieldTerm) : Prop := FieldsTwin fs gs ∧ ∀ f ∈ fs, f.2.Finite

theorem fieldNamed?_congr {fs gs : List FieldTerm} (h : BodiesTwin fs gs) (name : String) :
    Option.Rel (fun f g : FieldTerm => f.1.Alike g.1 ∧ Twin f.2 g.2 ∧ f.2.Finite)
      (fieldNamed? fs name) (fieldNamed? gs name) := by
  obtain ⟨htwin, hfin⟩ := h
  unfold fieldNamed?
  induction htwin with
  | nil => exact .none
  | @cons f g fs gs hf _ ih =>
    rw [List.find?_cons, List.find?_cons, hf.1.name]
    split
    · exact .some ⟨hf.1, hf.2, hfin f List.mem_cons_self⟩
    · exact ih fun f hf => hfin f (List.mem_cons_of_mem _ hf)

theorem discriminantAt?_congr {bs cs : List (List FieldTerm)} (h : List.Forall₂ BodiesTwin bs cs)
    (name : String) : discriminantAt? bs name = discriminantAt? cs name := by
  unfold discriminantAt?
  simp only [Option.bind_eq_bind]
  have hfields := rel_mapM h fun _ _ h => fieldNamed?_congr h name
  generalize bs.mapM (fun b => fieldNamed? b name) = fs at hfields
  generalize cs.mapM (fun b => fieldNamed? b name) = gs at hfields
  cases hfields with
  | none => rfl
  | @some fs gs hfs =>
    have hliterals := rel_mapM hfs fun f g h => Twin.requiredLiteral? h.1.optional h.2.1 h.2.2
    simp only [Option.bind_some]
    generalize fs.mapM requiredLiteral? = ls at hliterals
    generalize gs.mapM requiredLiteral? = ms at hliterals
    cases hliterals with
    | none => rfl
    | @some ls ms hls =>
      have hvalues : ls.map Literal.value = ms.map Literal.value := by
        clear hfs
        induction hls with
        | nil => rfl
        | cons hl _ ih => rw [List.map_cons, List.map_cons, hl.2.1, ih]
      simp only [Option.bind_some, distinctLiterals_congr hls, hvalues]

/-- Unions of twins have the same discriminant. -/
theorem discriminant?_congr (h : List.Forall₂ Twin us vs) (hfin : ∀ u ∈ us, u.Finite) :
    discriminant? us = discriminant? vs := by
  have hpairs : List.Forall₂ (fun u v => Twin u v ∧ u.Finite) us vs := by
    induction h with
    | nil => exact .nil
    | cons hu _ ih =>
      exact .cons ⟨hu, hfin _ List.mem_cons_self⟩
        (ih fun u hu => hfin u (List.mem_cons_of_mem _ hu))
  have hbodies := rel_mapM hpairs (f := objectBody?) (g := objectBody?) (Q := BodiesTwin)
    fun u v ⟨htwin, hfin⟩ => by
      have hbody := htwin.objectBody?
      generalize hu : u.objectBody? = x at hbody
      generalize v.objectBody? = y at hbody
      cases hbody with
      | none => exact .none
      | some hfs => exact .some ⟨hfs, fun f hf => hfin.sub (objectBody?_sub hu hf)⟩
  unfold discriminant?
  generalize us.mapM objectBody? = x at hbodies
  generalize vs.mapM objectBody? = y at hbodies
  cases hbodies with
  | none => rfl
  | some hbs =>
    have hall := hbs
    cases hbs with
    | nil => rfl
    | cons hfirst hrest =>
      cases hrest with
      | nil => rfl
      | cons _ _ =>
        have hnames : ∀ {fs gs : List FieldTerm}, FieldsTwin fs gs →
            fs.map (fun f => f.1.name) = gs.map fun f => f.1.name := fun h => by
          induction h with
          | nil => rfl
          | cons hf _ ih => rw [List.map_cons, List.map_cons, hf.1.name, ih]
        simp only [Option.bind_eq_bind, Option.bind_some, hnames hfirst.1]
        congr 1
        exact funext fun name => discriminantAt?_congr hall name

/-! ## What a discriminant says -/

/-- The field of a name is required in every body, and holds these literals, no two of which are the
same. -/
structure Apart (bodies : List (List FieldTerm)) (name : String) (ls : List Literal) : Prop where
  literal : List.Forall₂ (fun b l => ∃ f, fieldNamed? b name = some f ∧ requiredLiteral? f = some l)
    bodies ls
  distinct : distinctLiterals ls

variable {bodies : List (List FieldTerm)} {name : String} {δ : Discriminant}

theorem discriminantAt?_eq_some :
    discriminantAt? bodies name = some δ ↔
      ∃ ls, Apart bodies name ls ∧ δ = ⟨name, ls.map Literal.value⟩ := by
  simp only [discriminantAt?, Option.bind_eq_bind, Option.bind_eq_some_iff, mapM_eq_some,
    Option.ite_none_right_eq_some, Option.some.injEq]
  constructor
  · rintro ⟨fs, hfs, ls, hls, hdist, rfl⟩
    refine ⟨ls, ⟨?_, hdist⟩, rfl⟩
    clear hdist
    induction hfs generalizing ls with
    | nil =>
      cases hls
      exact .nil
    | @cons b f bs fs hb _ ih =>
      cases hls with
      | cons hl hls => exact .cons ⟨f, hb, hl⟩ (ih _ hls)
  · rintro ⟨ls, ⟨hls, hdist⟩, rfl⟩
    have hsplit : ∃ fs, List.Forall₂ (fun b f => fieldNamed? b name = some f) bodies fs ∧
        List.Forall₂ (fun f l => requiredLiteral? f = some l) fs ls := by
      clear hdist
      induction hls with
      | nil => exact ⟨[], .nil, .nil⟩
      | cons hl _ ih =>
        obtain ⟨f, hf, hl⟩ := hl
        obtain ⟨fs, hfs, hls⟩ := ih
        exact ⟨f :: fs, .cons hf hfs, .cons hl hls⟩
    obtain ⟨fs, hfs, hls⟩ := hsplit
    exact ⟨fs, hfs, ls, hls, hdist, rfl⟩

theorem Apart.mem_names {first : List FieldTerm} {rest : List (List FieldTerm)} {ls : List Literal}
    (h : Apart (first :: rest) name ls) : name ∈ first.map fun f => f.1.name := by
  cases h.literal with
  | cons hl _ =>
    obtain ⟨f, hf, -⟩ := hl
    have hname : f.1.name = name := by simpa using List.find?_some hf
    exact List.mem_map.2 ⟨f, List.mem_of_find?_eq_some hf, hname⟩

theorem discriminant?_of_length_lt (h : us.length < 2) : discriminant? us = none := by
  match us, h with
  | [], _ => rfl
  | [t], _ =>
    simp only [discriminant?, List.mapM_cons, List.mapM_nil, Option.bind_eq_bind]
    cases t.objectBody? <;> rfl

/-- The discriminant of two or more objects is that of the least name that tells them apart. -/
theorem discriminant?_of_bodies (hbodies : us.mapM objectBody? = some bodies)
    (htwo : 2 ≤ us.length) (hrise : ∀ b ∈ bodies, Rising (fun f : FieldTerm => f.1.name) b) :
    ((discriminant? us).isSome ↔ ∃ name ls, Apart bodies name ls) ∧
      ∀ δ ∈ discriminant? us, ∃ ls, Apart bodies δ.property ls ∧ δ.values = ls.map Literal.value ∧
        ∀ name ls, Apart bodies name ls → δ.property ≤ name := by
  rw [(mapM_eq_some.1 hbodies).length_eq] at htwo
  obtain ⟨first, second, rest, rfl⟩ : ∃ first second rest, bodies = first :: second :: rest := by
    match bodies, htwo with
    | first :: second :: rest, _ => exact ⟨first, second, rest, rfl⟩
  have hdisc : discriminant? us = (first.map fun f => f.1.name).findSome?
      (discriminantAt? (first :: second :: rest)) := by
    simp only [discriminant?, hbodies, Option.bind_eq_bind, Option.bind_some]
  have hnames : (first.map fun f => f.1.name).Pairwise (· < ·) :=
    List.pairwise_map.2 (hrise first List.mem_cons_self)
  rw [hdisc]
  constructor
  · rw [List.findSome?_isSome_iff]
    constructor
    · rintro ⟨name, -, hsome⟩
      obtain ⟨δ, hδ⟩ := Option.isSome_iff_exists.1 hsome
      obtain ⟨ls, hls, -⟩ := discriminantAt?_eq_some.1 hδ
      exact ⟨name, ls, hls⟩
    · rintro ⟨name, ls, hls⟩
      exact ⟨name, hls.mem_names, Option.isSome_iff_exists.2
        ⟨_, discriminantAt?_eq_some.2 ⟨ls, hls, rfl⟩⟩⟩
  · intro δ hδ
    obtain ⟨before, name, after, hsplit, hname, hbefore⟩ := List.findSome?_eq_some_iff.1 hδ
    obtain ⟨ls, hls, rfl⟩ := discriminantAt?_eq_some.1 hname
    refine ⟨ls, hls, rfl, fun name' ls' hls' => ?_⟩
    -- Nothing before the name tells the members apart, and what comes after it is greater.
    have hmem := hls'.mem_names
    rw [hsplit, List.mem_append, List.mem_cons] at hmem
    rw [hsplit, List.pairwise_append, List.pairwise_cons] at hnames
    rcases hmem with hmem | rfl | hmem
    · exact absurd (hbefore name' hmem) (by simp [discriminantAt?_eq_some.2 ⟨ls', hls', rfl⟩])
    · exact String.le_refl _
    · exact String.not_lt.1 (String.lt_asymm (hnames.2.1.1 name' hmem))

end Folding

end TypeAtlas
