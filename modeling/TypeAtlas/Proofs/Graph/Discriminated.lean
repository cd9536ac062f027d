import TypeAtlas.Proofs.Graph.Unfolding
import TypeAtlas.Proofs.Normal.Canonical
import TypeAtlas.Proofs.Normal.Content
import TypeAtlas.Proofs.Normal.Emitted

/-! # Discriminants of canonical graphs

A union in a canonical graph has a discriminant exactly if each of its two or more members is, or
leads to, an object that is no recursion target, and a required field tells the members apart by the
literals that it holds in the arena. The discriminant then is that of the least such field.
-/

namespace TypeAtlas

open Folding Term

/-- The kind and the value of a literal type. -/
abbrev LiteralType := LiteralKind × Scalar

namespace Graph

variable {g : Graph} {id : NodeId} {fs gs : List Field}

/-- A node has a shape, or is a reference that leads to one. -/
inductive LeadsTo (g : Graph) : NodeId → Shape → Prop
  | own {id : NodeId} {n : Node} (hn : g.node? id = some n) : LeadsTo g id n.shape
  | reference {id target : NodeId} {n : Node} {symbol : String} {shape : Shape}
      (hn : g.node? id = some n) (hs : n.shape = .reference target symbol)
      (h : LeadsTo g target shape) : LeadsTo g id shape

/-- The object to which a node leads requires a field of a name, whose type leads to a literal. -/
def RequiresLiteral (g : Graph) (id : NodeId) (name : String) (p : LiteralType) : Prop :=
  ∃ fs, g.LeadsTo id (.object fs) ∧ ∃ f ∈ fs, f.name = name ∧ f.optional = false ∧
    g.LeadsTo f.type (.literal p.1 p.2)

/-- A required field of all members holds these literals, which differ in kind or value. -/
structure TellsApart (g : Graph) (ms : List NodeId) (name : String) (ps : List LiteralType) :
    Prop where
  literal : List.Forall₂ (fun m p => g.RequiresLiteral m name p) ms ps
  distinct : ps.Pairwise fun p q => ¬ (p.1 = q.1 ∧ p.2.same q.2)

theorem LeadsTo.object_unique (h : g.LeadsTo id (.object fs)) (h' : g.LeadsTo id (.object gs)) :
    fs = gs := by
  generalize hs : Shape.object fs = shape at h
  generalize hs' : Shape.object gs = shape' at h'
  induction h generalizing shape' with
  | own hn =>
    cases h' with
    | own hn' =>
      obtain rfl := Option.some.inj (hn.symm.trans hn')
      exact Shape.object.inj (hs.trans hs'.symm)
    | reference hn' hr _ =>
      obtain rfl := Option.some.inj (hn.symm.trans hn')
      rw [← hs] at hr
      cases hr
  | reference hn hr _ ih =>
    cases h' with
    | own hn' =>
      obtain rfl := Option.some.inj (hn.symm.trans hn')
      rw [hr] at hs'
      cases hs'
    | reference hn' hr' h' =>
      obtain rfl := Option.some.inj (hn.symm.trans hn')
      obtain ⟨rfl, rfl⟩ := Shape.reference.inj (hr.symm.trans hr')
      exact ih hs _ hs' h'

end Graph

/-! ## Terms -/

namespace Term

variable {d : Digester} {a : Algorithm} {t u v : Term} {k : LiteralKind} {x : Scalar}
  {body : List FieldTerm} {name : String}

theorem Twin.literal_iff (h : Twin u v) (hv : v.Finite) :
    u.shape = .literal k x ↔ v.shape = .literal k x := by
  have hshape := h.shape
  have hfin := hv.here
  generalize u.shape = s at hshape
  generalize v.shape = s' at hshape hfin
  cases hshape with
  | literal he => rw [Scalar.eq_of_canonical_eq (hfin _ _ rfl) he.symm]
  | _ => simp

theorem rising_of_objectBody? (ht : t.Throughout (Formed d a)) (hb : t.objectBody? = some body) :
    Rising (fun f : FieldTerm => f.1.name) body := by
  simp only [objectBody?] at hb
  split at hb
  · cases hb
  · have hcov := (ht.sub t.dereferenceFree_sub).here.covers
    unfold fields? at hb
    split at hb
    · next heads hs =>
      obtain rfl := Option.some.inj hb
      rw [hs] at hcov
      have hheads : (heads.zip t.dereferenceFree.children).map (fun f => f.1.name) =
          heads.map FieldHead.name := by
        conv_rhs => rw [← List.map_fst_zip hcov.1.le, List.map_map]
        rfl
      exact hcov.2.of_map_eq hheads
    · cases hb

theorem fieldNamed?_eq_some (hb : Rising (fun f : FieldTerm => f.1.name) body) {f : FieldTerm} :
    fieldNamed? body name = some f ↔ f ∈ body ∧ f.1.name = name := by
  constructor
  · intro h
    exact ⟨List.mem_of_find?_eq_some h, by simpa using List.find?_some h⟩
  · rintro ⟨hf, rfl⟩
    cases h : fieldNamed? body f.1.name with
    | none => exact absurd (List.find?_eq_none.1 h f hf) (by simp)
    | some f' =>
      have hname : f'.1.name = f.1.name := by simpa using List.find?_some h
      rw [hb.eq_of_key_eq (List.mem_of_find?_eq_some h) hf hname]

/-- The kind and the value of a literal. -/
def Literal.type (l : Literal) : LiteralType := (l.kind, l.value)

theorem exists_requiredLiteral? {f : FieldTerm} {p : LiteralType} :
    (∃ l, requiredLiteral? f = some l ∧ l.type = p) ↔
      f.1.optional = false ∧ f.2.dereferenceFree.shape = .literal p.1 p.2 := by
  simp only [requiredLiteral?]
  cases f.1.optional
  · cases f.2.dereferenceFree.shape <;> simp [Literal.type, Prod.ext_iff]
  · simp

theorem distinctLiterals_iff_of_finite {ls : List Literal} (h : ∀ l ∈ ls, l.value.isFinite) :
    distinctLiterals ls ↔
      (ls.map Literal.type).Pairwise fun p q => ¬ (p.1 = q.1 ∧ p.2.same q.2) := by
  rw [distinctLiterals_iff, List.pairwise_map]
  refine List.Pairwise.iff_of_mem fun {l m} hl _ => ?_
  simp [sameLiteral_of_finite (h l hl), Literal.type]

end Term

/-! ## Arenas -/

namespace Term.Laid

variable {d : Digester} {a : Algorithm} {S : Set String} {t : Term} {root id : NodeId} {g : Graph}
  {e : Entry} {k : LiteralKind} {x : Scalar} {body : List FieldTerm} {name : String} {p : LiteralType}

/-- A reference that leads to a literal is no target: nothing below it refers to anything. -/
theorem dereferenceFree_of_leadsTo (h : Laid d a S t root g.nodes) (hfin : Arena.Finite g.nodes)
    (he : Written d a t g.nodes id e) (hl : g.LeadsTo id (.literal k x)) :
    e.term.dereferenceFree.shape = .literal k x ∧ e.term.inward = [] := by
  generalize hs : Shape.literal k x = shape at hl
  induction hl generalizing e with
  | own hn =>
    obtain rfl := he.node_eq hn
    have hshape := literal_of_outline hs.symm
    have hcov := (h.formed_of_written he).here.covers
    rw [hshape] at hcov
    constructor
    · rcases dereferenceFree_cases e.term with hself | ⟨-, symbol, c, rest, hr, -⟩
      · rw [hself, hshape]
      · simp [hshape] at hr
    · rw [inward, hshape, show e.term.children = [] from hcov]
      rfl
  | reference hn hr _ ih =>
    obtain rfl := he.node_eq hn
    obtain ⟨hshape, -⟩ := reference_of_outline hr
    obtain ⟨y, c, f, hy, hc, hf, htwin⟩ := h.exists_written_target he hshape
    obtain ⟨rfl, -⟩ := Shape.reference.inj (hr.symm.trans hy)
    obtain ⟨hlit, hclosed⟩ := ih hf hs
    have hbelow : c.links = [] := htwin.links_eq_nil_iff.2 (by
      cases hb : f.term.binder with
      | false => rw [links_of_plain hb, hclosed]
      | true => rw [links_of_target hb, hclosed]; rfl)
    have hinward : e.term.inward = [] := by simp [inward, hshape, ownLinks, hc, hbelow]
    have hb : e.term.binder = false := Bool.eq_false_iff.2 fun hb => by
      obtain ⟨l, hl⟩ := (h.formed_of_written he).here.live hb
      simp [hinward] at hl
    rw [dereferenceFree_of_reference hshape hc hb]
    exact ⟨(htwin.dereferenceFree.literal_iff
      ((h.finite_of_written hfin hf).sub f.term.dereferenceFree_sub)).2 hlit, hinward⟩

theorem leadsTo_literal_iff (h : Laid d a S t root g.nodes) (hfin : Arena.Finite g.nodes)
    (he : Written d a t g.nodes id e) :
    g.LeadsTo id (.literal k x) ↔ e.term.dereferenceFree.shape = .literal k x := by
  constructor
  · exact fun hl => (h.dereferenceFree_of_leadsTo hfin he hl).1
  · intro hs
    induction hheight : e.term.height using Nat.strong_induction_on generalizing id e with
    | _ n ih =>
      rcases dereferenceFree_cases e.term with hself | ⟨-, symbol, c, rest, hr, hc, hd⟩
      · rw [hself] at hs
        have hown : g.LeadsTo id (e.node id).shape := .own he.node
        rwa [Entry.node, hs] at hown
      · obtain ⟨y, c', f, hy, hc', hf, htwin⟩ := h.exists_written_target he hr
        obtain ⟨rfl, -⟩ := List.cons.inj (hc.symm.trans hc')
        have hlt : f.term.height < n := htwin.height ▸ hheight ▸
          height_lt_of_mem_children (hc' ▸ List.mem_cons_self)
        refine .reference he.node hy (ih _ hlt hf ?_ rfl)
        exact (htwin.dereferenceFree.literal_iff
          ((h.finite_of_written hfin hf).sub f.term.dereferenceFree_sub)).1 (hd ▸ hs)

/-! ### Bodies -/

/-- A field of the arena is that of a term, or has a twin of it for its type. -/
def FieldFiled (d : Digester) (a : Algorithm) (t : Term) (A : Arena) (f : FieldTerm) (x : Field) :
    Prop :=
  x.name = f.1.name ∧ x.optional = f.1.optional ∧
    ∃ e, Written d a t A x.type e ∧ Twin f.2 e.term

theorem FieldFiled.of_twin {A : Arena} {f f' : FieldTerm} {x : Field}
    (hx : FieldFiled d a t A f x) (hhead : f'.1.Alike f.1) (htype : Twin f'.2 f.2) :
    FieldFiled d a t A f' x := by
  obtain ⟨hname, hopt, e, he, htwin⟩ := hx
  exact ⟨hname.trans hhead.name.symm, hopt.trans hhead.optional.symm, e, he, htype.trans htwin⟩

/-- A node whose term amounts to an object leads to an object with its fields. -/
theorem exists_object (h : Laid d a S t root g.nodes) (hdet : t.Detached g.nodes)
    (he : Written d a t g.nodes id e) (hb : e.term.objectBody? = some body) :
    g.ObjectBody id ∧ ∃ fs, g.LeadsTo id (.object fs) ∧
      List.Forall₂ (FieldFiled d a t g.nodes) body fs := by
  have hplain {id e} (he : Written d a t g.nodes id e) (hb : e.term.binder = false) :
      id ∉ g.binders := by
    rw [← Std.ExtTreeSet.contains_iff_mem, Hasher.contains_binders h hdet he, hb]
    exact Bool.false_ne_true
  induction hheight : e.term.height using Nat.strong_induction_on generalizing id e body with
  | _ n ih =>
    rcases dereferenceFree_cases e.term with hself | ⟨hbind, symbol, c, rest, hr, hc, hd⟩
    · simp only [objectBody?, hself] at hb
      split at hb
      · cases hb
      · next hbind =>
        have hbind : e.term.binder = false := Bool.eq_false_iff.2 hbind
        unfold fields? at hb
        split at hb
        · next heads hs =>
          obtain rfl := Option.some.inj hb
          have hshape : (e.node id).shape = .object ((heads.zip e.names).map fieldOf) := by
            simp [Entry.node, hs, outline_object]
          have hcov := (h.formed_of_written he).here.covers
          rw [hs] at hcov
          have hown : g.LeadsTo id (e.node id).shape := .own he.node
          rw [hshape] at hown
          refine ⟨.object he.node hshape (hplain he hbind), _, hown, ?_⟩
          rw [List.forall₂_map_right_iff, List.forall₂_iff_get]
          have hlen := he.children.length_eq
          refine ⟨by simp [hlen], fun i hi hj => ?_⟩
          simp only [List.length_zip, lt_min_iff] at hi hj
          obtain ⟨f, hf, htwin, -⟩ := h.child he hi.2 hj.2
          exact ⟨by simp [fieldOf], by simp [fieldOf], f, by simpa [fieldOf] using hf,
            by simpa using htwin⟩
        · cases hb
    · obtain ⟨y, c', f, hy, hc', hf, htwin⟩ := h.exists_written_target he hr
      obtain ⟨rfl, -⟩ := List.cons.inj (hc.symm.trans hc')
      rw [objectBody?_of_reference hr hc hbind] at hb
      have hlt : f.term.height < n := htwin.height ▸ hheight ▸
        height_lt_of_mem_children (hc' ▸ List.mem_cons_self)
      have hrel := htwin.objectBody?
      rw [hb] at hrel
      generalize hbf : f.term.objectBody? = other at hrel
      cases hrel with
      | some hfields =>
        obtain ⟨hobj, fs, hleads, hfs⟩ := ih _ hlt hf hbf rfl
        refine ⟨.reference he.node hy (hplain he hbind) hobj, fs,
          .reference he.node hy hleads, ?_⟩
        clear hleads hbf hb
        induction hfields generalizing fs with
        | nil =>
          cases hfs
          exact .nil
        | cons hfield _ ihfields =>
          cases hfs with
          | cons hx hfs => exact .cons (hx.of_twin hfield.1 hfield.2) (ihfields _ hfs)

theorem requiresLiteral_iff (h : Laid d a S t root g.nodes) (hdet : t.Detached g.nodes)
    (hfin : Arena.Finite g.nodes) (he : Written d a t g.nodes id e)
    (hb : e.term.objectBody? = some body) :
    g.RequiresLiteral id name p ↔
      ∃ l, (∃ f, fieldNamed? body name = some f ∧ requiredLiteral? f = some l) ∧ l.type = p := by
  obtain ⟨-, fs, hleads, hfs⟩ := h.exists_object hdet he hb
  have hrise := rising_of_objectBody? (h.formed_of_written he) hb
  have hfield {f : FieldTerm} {y : Field} (hy : FieldFiled d a t g.nodes f y) :
      (y.optional = false ∧ g.LeadsTo y.type (.literal p.1 p.2)) ↔
        ∃ l, requiredLiteral? f = some l ∧ l.type = p := by
    obtain ⟨-, hopt, e', he', htwin⟩ := hy
    rw [exists_requiredLiteral?, hopt, h.leadsTo_literal_iff hfin he', htwin.dereferenceFree.literal_iff
      ((h.finite_of_written hfin he').sub e'.term.dereferenceFree_sub)]
  constructor
  · rintro ⟨fs', hleads', y, hy, rfl, hlit⟩
    obtain rfl := hleads.object_unique hleads'
    obtain ⟨i, hi, rfl⟩ := List.getElem_of_mem hy
    have hj : i < body.length := hfs.length_eq ▸ hi
    have hfiled := hfs.get hj hi
    obtain ⟨l, hl, hp⟩ := (hfield hfiled).1 hlit
    have hnamed := (fieldNamed?_eq_some hrise).2 ⟨List.getElem_mem hj, hfiled.1.symm⟩
    exact ⟨l, ⟨_, hnamed, hl⟩, hp⟩
  · rintro ⟨l, ⟨f, hf, hl⟩, hp⟩
    obtain ⟨hmem, rfl⟩ := (fieldNamed?_eq_some hrise).1 hf
    obtain ⟨i, hi, rfl⟩ := List.getElem_of_mem hmem
    have hj : i < fs.length := hfs.length_eq ▸ hi
    have hfiled := hfs.get hi hj
    obtain ⟨hopt, hlit⟩ := (hfield hfiled).2 ⟨l, hl, hp⟩
    exact ⟨fs, hleads, _, List.getElem_mem hj, hfiled.1, hopt, hlit⟩

/-! ### Members -/

variable {ms : List NodeId} {es : List Entry} {bodies : List (List FieldTerm)}

theorem isFinite_of_requiredLiteral? (h : Laid d a S t root g.nodes) (hfin : Arena.Finite g.nodes)
    (he : Written d a t g.nodes id e) (hb : e.term.objectBody? = some body) {f : FieldTerm}
    (hf : f ∈ body) {l : Literal} (hl : requiredLiteral? f = some l) : l.value.isFinite := by
  obtain ⟨-, hshape⟩ := exists_requiredLiteral?.1 ⟨l, hl, rfl⟩
  have hfinite := ((h.finite_of_written hfin he).sub (objectBody?_sub hb hf)).sub
    f.2.dereferenceFree_sub
  exact hfinite.here _ _ hshape

theorem forall₂_requiresLiteral_iff (h : Laid d a S t root g.nodes) (hdet : t.Detached g.nodes)
    (hfin : Arena.Finite g.nodes)
    (hes : List.Forall₂ (fun m e => Written d a t g.nodes m e) ms es)
    (hbodies : List.Forall₂ (fun e b => e.term.objectBody? = some b) es bodies)
    {ps : List LiteralType} :
    List.Forall₂ (fun m p => g.RequiresLiteral m name p) ms ps ↔ ∃ ls,
      List.Forall₂ (fun b l => ∃ f, fieldNamed? b name = some f ∧ requiredLiteral? f = some l)
        bodies ls ∧ ls.map Literal.type = ps ∧ ∀ l ∈ ls, l.value.isFinite := by
  induction hes generalizing bodies ps with
  | nil =>
    cases hbodies
    constructor
    · intro hps
      cases hps
      exact ⟨[], .nil, rfl, by simp⟩
    · rintro ⟨ls, hls, rfl, -⟩
      cases hls
      exact .nil
  | cons he _ ih =>
    cases hbodies with
    | cons hb hbodies =>
      constructor
      · intro hps
        cases hps with
        | cons hp hps =>
          obtain ⟨l, ⟨f, hf, hl⟩, rfl⟩ := (h.requiresLiteral_iff hdet hfin he hb).1 hp
          obtain ⟨ls, hls, rfl, hfinite⟩ := (ih hbodies).1 hps
          have hvalue := h.isFinite_of_requiredLiteral? hfin he hb (List.mem_of_find?_eq_some hf) hl
          exact ⟨l :: ls, .cons ⟨f, hf, hl⟩ hls, rfl, List.forall_mem_cons.2 ⟨hvalue, hfinite⟩⟩
      · rintro ⟨ls, hls, rfl, hfinite⟩
        cases hls with
        | cons hl hls =>
          exact .cons ((h.requiresLiteral_iff hdet hfin he hb).2 ⟨_, hl, rfl⟩)
            ((ih hbodies).2 ⟨_, hls, rfl, (List.forall_mem_cons.1 hfinite).2⟩)

/-- What tells the terms of members apart tells the members apart. -/
theorem tellsApart_iff (h : Laid d a S t root g.nodes) (hdet : t.Detached g.nodes)
    (hfin : Arena.Finite g.nodes)
    (hes : List.Forall₂ (fun m e => Written d a t g.nodes m e) ms es)
    (hbodies : List.Forall₂ (fun e b => e.term.objectBody? = some b) es bodies)
    {ps : List LiteralType} :
    g.TellsApart ms name ps ↔ ∃ ls, Apart bodies name ls ∧ ls.map Literal.type = ps := by
  constructor
  · rintro ⟨hlit, hdist⟩
    obtain ⟨ls, hls, rfl, hfinite⟩ := (h.forall₂_requiresLiteral_iff hdet hfin hes hbodies).1 hlit
    exact ⟨ls, ⟨hls, (distinctLiterals_iff_of_finite hfinite).2 hdist⟩, rfl⟩
  · rintro ⟨ls, ⟨hls, hdist⟩, rfl⟩
    have hfinite : ∀ l ∈ ls, l.value.isFinite := by
      intro l hl
      obtain ⟨i, hi, rfl⟩ := List.getElem_of_mem hl
      have hj : i < bodies.length := hls.length_eq ▸ hi
      have hk : i < es.length := hbodies.length_eq ▸ hj
      obtain ⟨f, hf, hl⟩ := hls.get hj hi
      exact h.isFinite_of_requiredLiteral? hfin (hes.get (hes.length_eq ▸ hk) hk)
        (hbodies.get hk hj) (List.mem_of_find?_eq_some hf) hl
    exact ⟨(h.forall₂_requiresLiteral_iff hdet hfin hes hbodies).2 ⟨ls, hls, rfl, hfinite⟩,
      (distinctLiterals_iff_of_finite hfinite).1 hdist⟩

theorem exists_entries (h : Laid d a S t root g.nodes) (he : Written d a t g.nodes id e) :
    ∃ es : List Entry, List.Forall₂ (fun m f => Written d a t g.nodes m f) e.names es ∧
      List.Forall₂ Twin e.term.children (es.map Entry.term) := by
  have hall : List.Forall₂ (fun c m => ∃ f, Written d a t g.nodes m f ∧ Twin c f.term)
      e.term.children e.names := by
    refine List.forall₂_iff_get.2 ⟨he.children.length_eq, fun i hi hj => ?_⟩
    obtain ⟨f, hf, htwin, -⟩ := h.child he hi hj
    exact ⟨f, hf, htwin⟩
  generalize e.term.children = cs at hall
  generalize e.names = names at hall
  induction hall with
  | nil => exact ⟨[], .nil, .nil⟩
  | cons hx _ ih =>
    obtain ⟨f, hf, htwin⟩ := hx
    obtain ⟨es, hes, htwins⟩ := ih
    exact ⟨f :: es, .cons hf hes, .cons htwin htwins⟩

theorem forall_objectBody_iff (h : Laid d a S t root g.nodes) (hdet : t.Detached g.nodes)
    (hes : List.Forall₂ (fun m e => Written d a t g.nodes m e) ms es) :
    (∀ m ∈ ms, g.ObjectBody m) ↔
      ∃ bodies, List.Forall₂ (fun e b => e.term.objectBody? = some b) es bodies := by
  induction hes with
  | nil => exact ⟨fun _ => ⟨[], .nil⟩, fun _ => by simp⟩
  | cons he _ ih =>
    rw [List.forall_mem_cons, ih]
    constructor
    · rintro ⟨hm, bodies, hbodies⟩
      obtain ⟨b, hb⟩ := Option.isSome_iff_exists.1 (h.isSome_objectBody? hdet hm he)
      exact ⟨b :: bodies, .cons hb hbodies⟩
    · rintro ⟨_, hbodies⟩
      cases hbodies with
      | cons hb hbodies => exact ⟨(h.exists_object hdet he hb).1, _, hbodies⟩

theorem rising_of_bodies (h : Laid d a S t root g.nodes)
    (hes : List.Forall₂ (fun m e => Written d a t g.nodes m e) ms es)
    (hbodies : List.Forall₂ (fun e b => e.term.objectBody? = some b) es bodies) :
    ∀ b ∈ bodies, Rising (fun f : FieldTerm => f.1.name) b := by
  intro b hb
  obtain ⟨i, hi, rfl⟩ := List.getElem_of_mem hb
  have hj : i < es.length := hbodies.length_eq ▸ hi
  have he := hes.get (hes.length_eq ▸ hj) hj
  exact rising_of_objectBody? (h.formed_of_written he) (hbodies.get hj hi)

end Term.Laid

namespace Graph

variable {d : Digester} {a : Algorithm} {S : Set String} {g : Graph} {c : CanonicalGraph} {t : Term}
  {root id : NodeId} {n : Node} {ms : List NodeId} {es : List Entry} {δ : Option Discriminant}

/-- The discriminant that the specification of unions calls for: it is there if the members are two
or more bodies and a name tells them apart, and then says the least such name. -/
structure Discriminates (g : Graph) (ms : List NodeId) (δ : Option Discriminant) : Prop where
  isSome_iff : δ.isSome ↔ 2 ≤ ms.length ∧ (∀ m ∈ ms, g.ObjectBody m) ∧ ∃ name ps, g.TellsApart ms name ps
  least : ∀ ε ∈ δ, ∃ ps, g.TellsApart ms ε.property ps ∧ ε.values = ps.map Prod.snd ∧
    ∀ name qs, g.TellsApart ms name qs → ε.property ≤ name

theorem discriminates_none (h : ms.length < 2 ∨ ¬ ∀ m ∈ ms, g.ObjectBody m) :
    g.Discriminates ms none := by
  refine ⟨?_, by simp⟩
  simp only [Option.isSome_none, Bool.false_eq_true, false_iff]
  rintro ⟨htwo, hall, -⟩
  rcases h with h | h
  · omega
  · exact h hall

/-- The discriminant of the terms of members discriminates the members. -/
theorem discriminates_of_written (h : Laid d a S t root g.nodes) (hdet : t.Detached g.nodes)
    (hfin : Arena.Finite g.nodes)
    (hes : List.Forall₂ (fun m e => Written d a t g.nodes m e) ms es) :
    g.Discriminates ms (discriminant? (es.map Entry.term)) := by
  by_cases hall : ∀ m ∈ ms, g.ObjectBody m
  · obtain ⟨bodies, hbodies⟩ := (h.forall_objectBody_iff hdet hes).1 hall
    have hterms : (es.map Entry.term).mapM objectBody? = some bodies :=
      mapM_eq_some.2 (List.forall₂_map_left_iff.2 hbodies)
    have htells {name ps} : g.TellsApart ms name ps ↔
        ∃ ls, Apart bodies name ls ∧ ls.map Literal.type = ps :=
      h.tellsApart_iff hdet hfin hes hbodies
    have hlen : (es.map Entry.term).length = ms.length := by rw [List.length_map, hes.length_eq]
    by_cases htwo : 2 ≤ ms.length
    · obtain ⟨hsome, hleast⟩ :=
        discriminant?_of_bodies hterms (hlen ▸ htwo) (h.rising_of_bodies hes hbodies)
      constructor
      · rw [hsome]
        constructor
        · rintro ⟨name, ls, hls⟩
          exact ⟨htwo, hall, name, _, htells.2 ⟨ls, hls, rfl⟩⟩
        · rintro ⟨-, -, name, ps, hps⟩
          obtain ⟨ls, hls, -⟩ := htells.1 hps
          exact ⟨name, ls, hls⟩
      · intro ε hε
        obtain ⟨ls, hls, hvalues, hmin⟩ := hleast ε hε
        refine ⟨ls.map Literal.type, htells.2 ⟨ls, hls, rfl⟩, ?_, fun name qs hqs => ?_⟩
        · rw [hvalues, List.map_map]
          rfl
        · obtain ⟨ls', hls', -⟩ := htells.1 hqs
          exact hmin name ls' hls'
    · rw [discriminant?_of_length_lt (by omega)]
      exact discriminates_none (.inl (by omega))
  · have hnone : (es.map Entry.term).mapM objectBody? = none := by
      rw [Option.eq_none_iff_forall_ne_some]
      intro bodies hbodies
      exact hall ((h.forall_objectBody_iff hdet hes).2
        ⟨bodies, List.forall₂_map_left_iff.1 (mapM_eq_some.1 hbodies)⟩)
    rw [show discriminant? (es.map Entry.term) = none by simp [discriminant?, hnone]]
    exact discriminates_none (.inr hall)

/-- A union of a canonical graph has a discriminant exactly if it has at least two members, all of
them are objects that are no recursion targets, and a required field tells them apart by its
literals. The discriminant is the least such field, with the literals in the order of the members. -/
theorem discriminates_of_canonical? (hc : g.canonical? d a = some c)
    (hfree : d.CollisionFree a (g.texts d a)) (hset : g.Settled d a)
    (hdet : ∀ t, g.Folds d a t → t.Detached c.nodes) (hfin : Arena.Finite c.nodes)
    (hn : c.toGraph.node? id = some n) (hs : n.shape = .union ms δ) :
    c.toGraph.Discriminates ms δ := by
  obtain ⟨t, hfold, hlaid⟩ := exists_laid hc hfree subset_rfl hset
  obtain ⟨e, he, rfl⟩ := hlaid.exists_written hn
  obtain ⟨hshape, rfl⟩ := union_of_outline hs
  obtain ⟨es, hes, htwins⟩ := hlaid.exists_entries he
  have hδ : δ = discriminant? (es.map Entry.term) := by
    have hcov := (hlaid.formed_of_written he).here.covers
    rw [hshape] at hcov
    rw [hcov.1]
    exact discriminant?_congr htwins fun c hc => (hlaid.finite_of_written hfin he).child hc
  rw [hδ]
  exact discriminates_of_written hlaid (hdet t hfold) hfin hes

/-! ### The root of a canonical graph -/

/-- The term into which a graph folds. -/
def folded? (d : Digester) (a : Algorithm) (g : Graph) : Option Term :=
  ((Folding.root (g.setting d a)).run {}).toOption.map Prod.fst

theorem folds_of_folded? (h : g.folded? d a = some t) : g.Folds d a t := by
  obtain ⟨⟨t, st⟩, hrun, rfl⟩ := Option.map_eq_some_iff.1 h
  cases hr : (Folding.root (g.setting d a)).run {} with
  | error e => simp [hr, Except.toOption] at hrun
  | ok p =>
    rw [hr] at hrun
    obtain rfl := Option.some.inj hrun
    exact ⟨st, hr⟩

theorem Folds.exists_canonical? (h : g.Folds d a t) (hset : g.Settled d a) :
    ∃ c, g.canonical? d a = some c := by
  obtain ⟨root, A, hends⟩ := h.exists_ends_emit hset
  obtain ⟨st, hfold⟩ := h
  have hfold : (Folding.root (g.setting d a)).run {} = .ok (t, st) := hfold
  have hemit : (Emission.emit d a t []).run ∅ = .ok (root, A) := hends
  have hrun : g.normalize d a = .ok
      ⟨st.sink.outcome (some { g with root, nodes := A, algorithm := a.name }), st.dead, st.deadline⟩ := by
    simp only [normalize, normalizeFrom, hfold, hemit, bind, Except.bind, pure, Except.pure]
  exact ⟨_, canonical?_eq_some.2 ⟨_, hrun, rfl⟩⟩

/-- The root of the canonical graph of a union is that union. -/
theorem exists_root_union {δ : Option Discriminant} (hc : g.canonical? d a = some c)
    (hfree : d.CollisionFree a (g.texts d a)) (hset : g.Settled d a) (hfin : Arena.Finite c.nodes)
    (hfold : g.Folds d a t) (hs : t.shape = .union δ) :
    ∃ n ms, c.toGraph.node? c.root = some n ∧ n.shape = .union ms δ ∧
      ms.length = t.children.length := by
  obtain ⟨u, hu, h⟩ := exists_laid hc hfree subset_rfl hset
  obtain rfl := hu.unique hfold
  have hroot : c.root ∈ c.nodes := (filed_of_emit h.run (fun _ _ _ h => h) fun _ hn => by simp at hn).2.2
  obtain ⟨e, he⟩ := h.filed c.root hroot
  have htwin := (h.twin he.asked.choose_spec.1 .here he.named h.named).1
  obtain ⟨δ', hs'⟩ : ∃ δ', e.term.shape = .union δ' := by
    have halike := hs ▸ htwin.alike.shape
    generalize e.term.shape = shape at halike
    cases halike
    exact ⟨_, rfl⟩
  have hcov := h.formed.here.covers
  have hcov' := (h.formed_of_written he).here.covers
  rw [hs] at hcov
  rw [hs'] at hcov'
  have hδ : δ' = δ := by
    rw [hcov.1, hcov'.1]
    exact discriminant?_congr htwin.forall₂_children fun v hv => (h.finite_of_written hfin he).child hv
  refine ⟨_, e.names, he.node, by simp [Entry.node, hs', hδ, outline], ?_⟩
  rw [← he.children.length_eq, htwin.alike.length]

def result : Graph := ofNodes "Result" [⟨"Result", .union ["Success", "Failure"] none, [], none⟩,
  ⟨"Success", .object [{ name := "ok", type := "True" }], [], none⟩,
  ⟨"Failure", .object [{ name := "ok", type := "False" }], [], none⟩,
  ⟨"True", .literal .boolean (.bool true), [], none⟩,
  ⟨"False", .literal .boolean (.bool false), [], none⟩]

theorem result_folded : (result.folded? .legible .sha256).any fun t => t.upright 0 && t.children.length == 2 &&
    match t.shape with
    | .union δ => δ == some ⟨"ok", [.bool false, .bool true]⟩
    | _ => false := by
  decide +kernel

/-- The field of a result tells success and failure apart. -/
theorem discriminates_result :
    ∃ c id n ms δ, result.canonical? .legible .sha256 = some c ∧
      Digester.legible.CollisionFree .sha256 (result.texts .legible .sha256) ∧
      result.Settled .legible .sha256 ∧
      (∀ t, result.Folds .legible .sha256 t → t.Detached c.nodes) ∧ Arena.Finite c.nodes ∧
      c.toGraph.node? id = some n ∧ n.shape = .union ms (some δ) ∧ ms.length = 2 ∧
      δ = ⟨"ok", [.bool false, .bool true]⟩ ∧ c.toGraph.Discriminates ms (some δ) := by
  obtain ⟨t, hfolded, hresult⟩ := (Option.any_eq_true _ _).1 result_folded
  simp only [Bool.and_eq_true, beq_iff_eq] at hresult
  obtain ⟨⟨hup, htwo⟩, hshape⟩ := hresult
  have hs : t.shape = .union (some ⟨"ok", [.bool false, .bool true]⟩) := by
    generalize t.shape = shape at hshape
    cases shape with
    | union δ => exact congrArg TermShape.union (eq_of_beq hshape)
    | _ => cases hshape
  have hfold := folds_of_folded? hfolded
  have hset : result.Settled .legible .sha256 := fun u hu => hu.unique hfold ▸ Term.settled_of_upright hup
  obtain ⟨c, hc⟩ := hfold.exists_canonical? hset
  have hfree := Digester.legible_collisionFree .sha256 (result.texts .legible .sha256)
  have hdet : ∀ u, result.Folds .legible .sha256 u → u.Detached c.nodes :=
    fun u hu => hu.unique hfold ▸ (Term.linked_of_upright hup).detached
  have hfin := finite_of_canonical? hc (finite_ofNodes rfl)
  obtain ⟨n, ms, hn, hms, hlength⟩ := exists_root_union hc hfree hset hfin hfold hs
  exact ⟨c, c.root, n, ms, _, hc, hfree, hset, hdet, hfin, hn, hms, hlength.trans htwo, rfl,
    discriminates_of_canonical? hc hfree hset hdet hfin hn hms⟩

end Graph

end TypeAtlas
