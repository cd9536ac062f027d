import TypeAtlas.Proofs.Json.Encodable
import TypeAtlas.Proofs.Normal.Content
import TypeAtlas.Proofs.Normal.Hashed
import TypeAtlas.Proofs.Normal.Unfailing
import TypeAtlas.Proofs.Normal.Unmerged

/-! # Folding an arena again

Folding the arena of a settled term gives back the term, with links at the heights of the new fold.
Its parts are sorted, flat and merged already, so no step drops, splices, merges or collapses
anything, and no step fails.
-/

namespace TypeAtlas

open Folding Term

variable {d : Digester} {a : Algorithm} {S : Set String} {t u v w c : Term} {r id : NodeId}
  {A : Arena} {e : Entry} {n : ℕ} {cs ws : List Term} {shape : TermShape}

namespace Term

theorem Twin.dereference (h : Twin u v) : Twin u.dereference v.dereference := by
  induction u generalizing v with
  | mk head cs ih =>
    have hshape := h.shape
    have hchildren := h.forall₂_children
    cases v with
    | mk head' cs' =>
      simp only [shape_mk, children_mk] at hshape hchildren
      unfold Term.dereference
      generalize hs : head.shape = s at hshape
      generalize hs' : head'.shape = s' at hshape
      cases hshape
      case reference =>
        cases hchildren with
        | nil => simpa using h
        | cons hc _ => simpa using ih _ List.mem_cons_self hc
      all_goals simpa using h

/-- A term is like another, and stands below `n` targets. -/
structure Resembles (d : Digester) (a : Algorithm) (n : ℕ) (c w : Term) : Prop where
  twin : Twin w c
  digest : w.digest = c.digest
  sits : w.Sits d a n

theorem Resembles.of_twin (h : Resembles d a n v w) (htwin : Twin u v) (hd : u.digest = v.digest) :
    Resembles d a n u w :=
  ⟨h.twin.trans htwin.symm, h.digest.trans hd.symm, h.sits⟩

/-- A shape for a node's term over other terms: the same, but for the heights of links and the nodes
from which the terms were folded. -/
structure Reshaped (e : Entry) (n : ℕ) (shape : TermShape) (ws : List Term) : Prop where
  kind : shape.kind = e.term.shape.kind
  payload : shape.payload = e.term.shape.payload
  outline : ∀ ids target, outline shape ids target = outline e.term.shape ids target
  covers : shape.Covers ws
  own : ∀ p ∈ ownLinks shape, p.1 + p.2 + 1 = n
  composite : shape.isComposite = e.term.shape.isComposite

theorem Reshaped.refl (hcov : e.term.shape.Covers ws) (hown : ownLinks e.term.shape = []) :
    Reshaped e n e.term.shape ws :=
  ⟨rfl, rfl, fun _ _ => rfl, hcov, by simp [hown], rfl⟩

theorem Reshaped.exists_made {s : Setting} (h : Reshaped e n shape ws)
    (hf : e.term.Formed s.digester s.algorithm)
    (hws : ws.map Term.digest = e.term.children.map Term.digest) :
    ∃ w, Made s (e.node id) shape ws w := by
  have hd : s.digester.node s.algorithm shape.kind
      (sharedPayload shape.payload e.term.head.tags e.term.binder) (ws.map Term.digest) =
        .ok e.term.digest := by
    rw [h.kind, h.payload, hws]
    exact hf.digested
  have hsub : sharedPayload shape.payload e.term.head.tags false ⊆
      sharedPayload shape.payload e.term.head.tags e.term.binder := by
    intro f hf
    simp only [sharedPayload, List.mem_append, Bool.false_eq_true, if_false, List.not_mem_nil,
      or_false] at hf ⊢
    exact .inl hf
  exact exists_bind (Digester.exists_node_of_subset hd hsub) fun _ _ => ⟨_, rfl⟩

end Term

/-! ## Values -/

theorem enum_of_outline {ids : List NodeId} {target : NodeId} {ms : List EnumMember}
    (h : outline shape ids target = .enum ms) : shape = .enum ms := by
  cases shape with
  | enum ms' => simpa [outline] using h
  | recursiveRef symbol raw link => cases link <;> simp [outline] at h
  | _ => simp [outline] at h

theorem Term.Laid.writable {g : Graph} (h : Laid d a S t r g.nodes) : Writable (g.setting d a) := by
  intro id n hn
  obtain ⟨e, he⟩ := h.filed id (mem_iff_exists_getElem?.2 ⟨n, hn⟩)
  obtain rfl := Option.some.inj (hn.symm.trans he.node)
  have hdigested := Digester.exists_write_of_node (h.formed_of_written he).here.digested
  have hpayload {f : String × Datum} (hf : f ∈ e.term.shape.payload) :
      ∃ y, Json.write .compact 2 f.2 = .ok y :=
    hdigested f (List.mem_append_left _ (List.mem_append_left _ hf))
  constructor
  · intro k x hs
    have hs := literal_of_outline hs
    obtain ⟨y, hy⟩ := hpayload (f := ("value", x.toDatum))
      (by simp [hs, TermShape.payload, literalPayload])
    rw [Json.write_scalar (by cases x <;> simp [Scalar.toDatum])
      (by cases x <;> simp [Scalar.toDatum])] at hy
    exact ⟨y, hy⟩
  · intro ms hs m hm
    have hs := enum_of_outline hs
    obtain ⟨y, hy⟩ := hpayload (f := ("members", .list ((sortMembers ms).map fun m =>
      .list [.text m.name, m.value.toDatum]))) (by simp [hs, TermShape.payload, enumPayload])
    obtain ⟨y, hy⟩ := Json.write_list_eq_ok hy (.list [.text m.name, m.value.toDatum])
      (List.mem_map.2 ⟨m, List.mem_mergeSort.2 hm, rfl⟩)
    obtain ⟨y, hy⟩ := Json.write_list_eq_ok hy m.value.toDatum (by simp)
    rw [Json.write_scalar (by cases m.value <;> simp [EnumValue.toDatum])
      (by cases m.value <;> simp [EnumValue.toDatum])] at hy
    exact ⟨y, hy⟩

/-! ## Nodes -/

namespace Folding

variable {s : Setting} {st st' : State} {stack : List NodeId} {build : Option String → NodeId → M Term}
  {I : State → Prop} {Q : NodeId → State → Term → State → Prop} {field : Option String}

theorem digests_of_resembles (h : List.Forall₂ (Resembles d a n) cs ws) :
    ws.map Term.digest = cs.map Term.digest := by
  induction h with
  | nil => rfl
  | cons hx _ ih => rw [List.map_cons, List.map_cons, hx.digest, ih]

theorem twins_of_resembles (h : List.Forall₂ (Resembles d a n) cs ws) : List.Forall₂ Twin ws cs := by
  induction h with
  | nil => exact .nil
  | cons hx _ ih => exact .cons hx.twin ih

theorem Flat.of_twins {kind : String} (h : List.Forall₂ Twin ws cs) (hflat : Flat kind cs) :
    Flat kind ws := by
  intro w hw ⟨hkind, htags, hplain⟩
  obtain ⟨i, hi, rfl⟩ := List.getElem_of_mem hw
  have htwin := h.get hi (h.length_eq ▸ hi)
  refine hflat _ (List.getElem_mem (h.length_eq ▸ hi)) ⟨htwin.alike.kind ▸ hkind, ?_,
    htwin.binder ▸ hplain⟩
  have hempty := htwin.alike.tags.isEmpty
  simp only [List.get_eq_getElem, htags, List.isEmpty_nil] at hempty
  exact List.isEmpty_iff.1 hempty.symm

theorem Kin.of_resembles (h : List.Forall₂ (Resembles d a n) cs ws)
    (hcs : ∀ c ∈ cs, c.Throughout (Formed d a)) (hkin : Kin cs) : Kin ws := by
  have hfamily {w : Term} (hw : w ∈ ws) : ∃ c ∈ cs, w.family = c.family := by
    obtain ⟨i, hi, rfl⟩ := List.getElem_of_mem hw
    have hj : i < cs.length := h.length_eq ▸ hi
    have hx := h.get hj hi
    exact ⟨_, List.getElem_mem hj, hx.twin.family hx.sits.formed (hcs _ (List.getElem_mem hj))⟩
  intro w hw w' hw' hn hn'
  obtain ⟨c, hc, he⟩ := hfamily hw
  obtain ⟨c', hc', he'⟩ := hfamily hw'
  rw [he] at hn ⊢
  rw [he'] at hn' ⊢
  exact hkin c hc c' hc' hn hn'

theorem composite_eq_term {kind : String} {m : Node} {binder : Bool}
    (h : ws.length = 1 → m.tags ≠ [] ∨ binder) :
    composite s kind shape m ws binder field = term s shape m.id ws m.tags m.location := by
  unfold composite
  split
  · next only =>
    rw [if_neg]
    rw [Bool.and_eq_true, List.isEmpty_iff, Bool.not_eq_true', not_and]
    intro htags hb
    rcases h rfl with h | h
    · exact h htags
    · simp [hb] at h
  · rfl

theorem splice_eq_self {kind : String} {m : Member}
    (h : ¬ (m.2.shape.kind = kind ∧ m.2.head.tags = [] ∧ m.2.binder = false)) :
    splice kind m = [m] := by
  simp only [splice]
  rw [if_neg]
  simpa [Bool.and_eq_true, List.isEmpty_iff, and_assoc] using h

theorem flatMap_splice_eq_self {kind : String} {ms : List Member}
    (h : Flat kind (ms.map Prod.snd)) : ms.flatMap (splice kind) = ms := by
  induction ms with
  | nil => rfl
  | cons m ms ih =>
    rw [List.flatMap_cons, splice_eq_self (h m.2 (by simp)),
      ih fun c hc => h c (List.mem_cons_of_mem _ hc)]
    rfl

/-- A node is made into a term of what its children were folded into one after the other. -/
def Remakes (s : Setting) (Q : NodeId → State → Term → State → Prop) (e : Entry) (id : NodeId)
    (n : ℕ) (st : State) (w : Term) (st' : State) : Prop :=
  ∃ ws st₁ shape, Steps Q e.names st ws st₁ ∧ Calm st₁ st' ∧
    List.Forall₂ (Resembles s.digester s.algorithm n) e.term.children ws ∧
    Reshaped e n shape ws ∧ Made s (e.node id) shape ws w

/-- A head apart from the node from which the type was folded. -/
def bare (f : FieldHead) : FieldHead := { f with rawType := "" }

theorem map_fieldOf_zip_bare (fs : List FieldHead) (ids : List NodeId) :
    ((fs.map bare).zip ids).map fieldOf = (fs.zip ids).map fieldOf := by
  rw [List.zip_map_left, List.map_map]
  rfl

/-- Folding a node again ends, and makes a term of what the children were folded into. -/
def Remade (s : Setting) (build : Option String → NodeId → M Term) (I : State → Prop)
    (Q : NodeId → State → Term → State → Prop) (e : Entry) (id : NodeId) (stack : List NodeId)
    (field : Option String) (st : State) : Prop :=
  ∃ w st', Ends (nodeTerm s build (e.node id) stack field e.term.binder) st w st' ∧ I st' ∧
    Remakes s Q e id stack.length st w st'

/-- The terms below that of a node have been written out, and a step folds their nodes again, in a
state that is fit for it. -/
structure Visits (d : Digester) (a : Algorithm) (S : Set String) (t : Term) (r : NodeId) (A : Arena)
    (id : NodeId) (e : Entry) (n : ℕ) (build : Option String → NodeId → M Term) (I : State → Prop)
    (Q : NodeId → State → Term → State → Prop) : Prop where
  laid : Laid d a S t r A
  detached : t.Detached A
  written : Written d a t A id e
  ends : ∀ field, ∀ x ∈ e.names, ∀ st, I st →
    ∃ w st', Ends (build field x) st w st' ∧ I st' ∧ Q x st w st'
  resembles : ∀ x st w st', Q x st w st' →
    ∃ f, Written d a t A x f ∧ Resembles d a n f.term w
  calm : ∀ st st', Calm st st' → I st → I st'

namespace Visits

variable {g : Graph} {st₁ st₂ : State} {heads : List FieldHead} {δ : Option Discriminant}

section

variable (hv : Visits d a S t r g.nodes id e n build I Q)
include hv

theorem formed : e.term.Formed d a := (hv.laid.formed_of_written hv.written).here

theorem length_names : e.names.length = e.term.children.length := hv.written.children.length_eq.symm

theorem forall₂_resembles (hsteps : Steps Q e.names st ws st₁) :
    List.Forall₂ (Resembles d a n) e.term.children ws :=
  hv.laid.forall₂_children hv.written (hsteps.forall₂ hv.resembles)
    fun _ _ _ htwin hd hr => hr.of_twin htwin hd

theorem exists_remakes (hsteps : Steps Q e.names st ws st₁) (hcalm : Calm st₁ st₂)
    (hr : Reshaped e n shape ws) (hst : I st₁) :
    ∃ w, Ends (term (g.setting d a) shape id ws e.term.head.tags e.term.head.location) st₂ w st₂ ∧
      I st₂ ∧ Remakes (g.setting d a) Q e id n st w st₂ := by
  have hws := hv.forall₂_resembles hsteps
  obtain ⟨w, hw⟩ := hr.exists_made (s := g.setting d a) hv.formed
    (digests_of_resembles hws)
  exact ⟨w, ends_written.2 ⟨hw, rfl⟩, hv.calm _ _ hcalm hst, ws, st₁, shape, hsteps, hcalm, hws, hr,
    hw⟩

theorem exists_remakes_leaf (hst : I st) (hnil : e.term.children = [])
    (hr : Reshaped e n shape []) :
    ∃ w, Ends (term (g.setting d a) shape id [] e.term.head.tags e.term.head.location) st w st ∧
      I st ∧ Remakes (g.setting d a) Q e id n st w st := by
  have hnames : e.names = [] := List.length_eq_zero_iff.1 (by rw [hv.length_names, hnil]; rfl)
  exact hv.exists_remakes (hnames ▸ .nil) (.refl st) hr hst

theorem exists_chain {α : Type} {xs : List α} {type : α → NodeId} (field : α → Option String)
    (hxs : xs.map type = e.names) (hst : I st) :
    ∃ ws st₁, Chain (fun x => build (field x) (type x)) xs st ws st₁ ∧ I st₁ ∧
      Steps Q e.names st ws st₁ := by
  obtain ⟨ws, st₁, hchain, hst₁, hsteps⟩ := TypeAtlas.exists_chain (Q := fun x => Q (type x))
    (fun x hx st hst => hv.ends (field x) (type x) (hxs ▸ List.mem_map_of_mem hx) st hst) hst
  exact ⟨ws, st₁, hchain, hst₁, hxs ▸ hsteps.map⟩

end

theorem remade_leaf (hv : Visits d a S t r g.nodes id e stack.length build I Q) (hst : I st)
    (hnil : e.term.children = []) (hr : Reshaped e stack.length shape [])
    (heq : nodeTerm (g.setting d a) build (e.node id) stack field e.term.binder =
      term (g.setting d a) shape id [] e.term.head.tags e.term.head.location) :
    Remade (g.setting d a) build I Q e id stack field st := by
  obtain ⟨w, hw, hst', hm⟩ := hv.exists_remakes_leaf hst hnil hr
  exact ⟨w, st, heq ▸ hw, hst', hm⟩

theorem remade_recursion (hv : Visits d a S t r g.nodes id e stack.length build I Q) (hst : I st)
    {symbol : String} {raw : NodeId} {link : Option (ℕ × ℕ)}
    (hs : e.term.shape = .recursiveRef symbol raw link)
    (hlink : ∀ k l, (k, l) ∈ ownLinks e.term.shape → stack.idxOf? e.target = some k)
    (hlost : link = none → raw ∉ stack) :
    Remade (g.setting d a) build I Q e id stack field st := by
  have hcov := hv.formed.covers
  rw [hs] at hcov hlink
  have hnil : e.term.children = [] := hcov
  cases link with
  | none =>
    have hr : Reshaped e stack.length (.recursiveRef symbol raw none) [] :=
      hs ▸ .refl (hs ▸ rfl) (by simp [hs, ownLinks])
    refine hv.remade_leaf hst hnil hr ?_
    have hidx : stack.idxOf? raw = none := List.idxOf?_eq_none_iff.2 (hlost rfl)
    simp [nodeTerm, recursiveTerm, Entry.node, hs, outline, hidx]
  | some p =>
    obtain ⟨k, l⟩ := p
    have hidx := hlink k l (by simp [ownLinks])
    have hlt : k < stack.length := (List.idxOf?_eq_some_iff.1 hidx).1
    have hr : Reshaped e stack.length
        (.recursiveRef symbol e.target (some (k, stack.length - 1 - k))) [] :=
      ⟨by rw [hs]; rfl, by rw [hs]; rfl, fun _ _ => by rw [hs]; rfl, rfl, by
        simp only [ownLinks, List.mem_singleton, forall_eq]
        omega, by rw [hs]; rfl⟩
    refine hv.remade_leaf hst hnil hr ?_
    simp [nodeTerm, recursiveTerm, Entry.node, hs, outline, hidx]

theorem remade_object (hv : Visits d a S t r g.nodes id e stack.length build I Q) (hst : I st)
    (hs : e.term.shape = .object heads) :
    Remade (g.setting d a) build I Q e id stack field st := by
  have hcov := hv.formed.covers
  rw [hs] at hcov
  have hlen : heads.length = e.names.length := hcov.1.trans hv.length_names.symm
  have hshape : (e.node id).shape = .object ((heads.zip e.names).map fieldOf) := by
    rw [Entry.node, hs, outline_object]
  generalize hfs : (heads.zip e.names).map fieldOf = fs at hshape
  obtain ⟨ws, st₁, hws, hst₁, hsteps⟩ := hv.exists_chain (fun f : Field => some f.name)
    (hfs ▸ map_type_fieldOf hlen) hst
  have hbare : (fs.map headOf).map bare = heads.map bare := by
    conv_rhs => rw [← List.map_fst_zip hlen.le]
    simp [← hfs, Function.comp_def, headOf, fieldOf, bare]
  have hlen' : (fs.map headOf).length = ws.length := by
    rw [List.length_map, hws.length]
  have hname {hs : List FieldHead} : hs.map FieldHead.name = (hs.map bare).map FieldHead.name := by
    simp [bare, Function.comp_def]
  have hheads : Rising FieldHead.name (fs.map headOf) :=
    hcov.2.of_map_eq (by rw [hname, hbare, ← hname])
  have hrising : Rising (fun f : FieldTerm => f.1.name) ((fs.map headOf).zip ws) := by
    refine hheads.of_map_eq ?_
    conv_rhs => rw [← List.map_fst_zip hlen'.le, List.map_map]
    rfl
  have hr : Reshaped e stack.length (.object (fs.map headOf)) ws := by
    refine ⟨by rw [hs]; rfl, ?_, fun ids target => ?_, ⟨hlen', hheads⟩, by simp [ownLinks],
      by rw [hs]; rfl⟩
    · have hpayload (hs : List FieldHead) : (TermShape.object hs).payload =
          (TermShape.object (hs.map bare)).payload := by
        simp [TermShape.payload, bare, Function.comp_def]
      rw [hs, hpayload, hbare, ← hpayload]
    · rw [hs, outline_object, outline_object, ← map_fieldOf_zip_bare, hbare, map_fieldOf_zip_bare]
  obtain ⟨st₂, hloop, hcalm⟩ :=
    calmlyEnds_checkFields hv.laid.writable id ((fs.map headOf).zip ws) st₁
  obtain ⟨w, hw, hst₂, hm⟩ := hv.exists_remakes hsteps hcalm hr hst₁
  refine ⟨w, st₂, ?_, hst₂, hm⟩
  simp only [nodeTerm, hshape, ends_bind]
  refine ⟨(fs.map headOf).zip ws, st₁, ends_mapM.2 (hws.zip (g := headOf)), _, st₁,
    ends_mergeFields_of_rising _ hrising, _, st₂, hloop, ?_⟩
  rw [objectTerm, List.map_fst_zip hlen'.le, List.map_snd_zip hlen'.ge]
  exact hw

theorem spliceable?_eq_none (hv : Visits d a S t r g.nodes id e n build I Q) {kind : String}
    {members? : Shape → Option (List NodeId)}
    (hkind : ∀ shape ms, members? shape = some ms → shape.kind = kind)
    (hflat : Flat kind e.term.children) {x : NodeId} (hx : x ∈ e.names) :
    spliceable? (g.setting d a) members? x = none := by
  obtain ⟨i, hi, rfl⟩ := List.getElem_of_mem hx
  have hj : i < e.term.children.length := hv.length_names ▸ hi
  obtain ⟨f, hf, htwin, -⟩ := hv.laid.child hv.written hj hi
  have hn : g.node? e.names[i] = some (f.node e.names[i]) := hf.node
  simp only [spliceable?, hn]
  split
  · next hplain =>
    rw [Hasher.contains_binders hv.laid hv.detached hf, Bool.and_eq_true, Bool.not_eq_true',
      List.isEmpty_iff] at hplain
    by_contra hsome
    obtain ⟨ms, hms⟩ := Option.ne_none_iff_exists'.1 hsome
    refine hflat _ (List.getElem_mem hj) ⟨?_, ?_, htwin.binder.trans hplain.2⟩
    · rw [htwin.alike.kind, ← hkind _ ms hms, Entry.node, outline_kind]
    · have hempty := htwin.alike.tags.isEmpty
      rw [show f.term.head.tags = [] from hplain.1] at hempty
      exact List.isEmpty_iff.1 hempty
  · rfl

/-- The members of a flat composite are folded one after the other, and stay what they are. -/
theorem exists_members (hv : Visits d a S t r g.nodes id e n build I Q) (hst : I st)
    {kind : String} {members? : Shape → Option (List NodeId)}
    (hkind : ∀ shape ms, members? shape = some ms → shape.kind = kind)
    (hflat : Flat kind e.term.children) (field : Option String) :
    ∃ ws st₁, Ends (members (g.setting d a) (build field) kind members? e.names) st
        (e.names.zip ws) st₁ ∧ (e.names.zip ws).map Prod.snd = ws ∧ I st₁ ∧
      Steps Q e.names st ws st₁ := by
  obtain ⟨ws, st₁, hws, hst₁, hsteps⟩ := hv.exists_chain (fun _ => field) (List.map_id' e.names) hst
  have hsnd : (e.names.zip ws).map Prod.snd = ws := List.map_snd_zip hws.length.le
  refine ⟨ws, st₁, ?_, hsnd, hst₁, hsteps⟩
  have hzip := hws.zip (g := fun x => x)
  rw [List.map_id'] at hzip
  simp only [members, ends_bind]
  rw [flatten_of_seen fun x hx _ hinner => by cases (hv.spliceable?_eq_none hkind hflat hx).symm.trans hinner]
  refine ⟨_, st₁, ends_mapM.2 hzip, ends_pure.2 ⟨flatMap_splice_eq_self ?_, rfl⟩⟩
  rw [hsnd]
  exact Flat.of_twins (twins_of_resembles (hv.forall₂_resembles hsteps)) hflat

theorem remakes_composite (hv : Visits d a S t r g.nodes id e stack.length build I Q)
    (hsteps : Steps Q e.names st ws st₁) (hst : I st₁) (hcomp : e.term.shape.isComposite)
    (hcov : e.term.shape.Covers ws) (hown : ownLinks e.term.shape = []) (kind : String) :
    ∃ w st', Ends (composite (g.setting d a) kind e.term.shape (e.node id) (sortedUnique ws)
        e.term.binder field) st₁ w st' ∧ I st' ∧
      Remakes (g.setting d a) Q e id stack.length st w st' := by
  have hrising : Rising Term.digest ws := by
    cases hs : e.term.shape with
    | union δ => exact (hs ▸ hcov : (TermShape.union δ).Covers ws).2.1
    | intersection => exact (hs ▸ hcov : TermShape.intersection.Covers ws).1
    | _ => simp [hs, TermShape.isComposite] at hcomp
  obtain ⟨w, hw, hst', hm⟩ := hv.exists_remakes hsteps (.refl st₁) (.refl hcov hown) hst
  refine ⟨w, st₁, ?_, hst', hm⟩
  have hlen := (hv.forall₂_resembles hsteps).length_eq
  rw [sortedUnique_of_rising hrising, composite_eq_term fun h1 =>
    hv.formed.single hcomp (hlen.trans h1)]
  exact hw

theorem remade_union (hv : Visits d a S t r g.nodes id e stack.length build I Q) (hst : I st)
    (hs : e.term.shape = .union δ) (hfin : e.term.Finite) :
    Remade (g.setting d a) build I Q e id stack field st := by
  have hcov := hv.formed.covers
  rw [hs] at hcov
  obtain ⟨hδ, hrising, hflat, hkin⟩ := hcov
  have hshape : (e.node id).shape = .union e.names δ := by simp [Entry.node, hs, outline]
  have hkind : ∀ shape ms, unionMembers? shape = some ms → shape.kind = "union" := by
    intro shape ms h
    cases shape <;> simp_all [unionMembers?, Shape.kind]
  obtain ⟨ws, st₁, hws, hsnd, hst₁, hsteps⟩ := hv.exists_members hst hkind hflat field
  have hres := hv.forall₂_resembles hsteps
  have htwins := twins_of_resembles hres
  have hformed : ∀ c ∈ e.term.children, c.Throughout (Formed d a) :=
    fun c hc => (hv.laid.formed_of_written hv.written).child hc
  have hkin' : Kin ws := Kin.of_resembles hres hformed hkin
  have hrising' : Rising Term.digest ws := hrising.of_map_eq (digests_of_resembles hres)
  have hδ' : δ = discriminant? ws := by
    rw [hδ, discriminant?_congr htwins fun w hw => ?_]
    obtain ⟨i, hi, rfl⟩ := List.getElem_of_mem hw
    have hj : i < e.term.children.length := htwins.length_eq ▸ hi
    exact (htwins.get hi hj).finite (hfin.child (List.getElem_mem hj))
  have hcov : e.term.shape.Covers ws := by
    rw [hs]
    exact ⟨hδ', hrising', Flat.of_twins htwins hflat, hkin'⟩
  obtain ⟨w, st', hw, hst', hm⟩ := hv.remakes_composite hsteps hst₁ (by rw [hs]; rfl) hcov
    (by simp [hs, ownLinks]) "union"
  refine ⟨w, st', ?_, hst', hm⟩
  simp only [nodeTerm, hshape, ends_bind]
  refine ⟨_, st₁, hws, ?_⟩
  have hunion : TermShape.union (discriminant? (sortedUnique ws)) = e.term.shape := by
    rw [sortedUnique_of_rising hrising', ← hδ', hs]
  rw [unionTerm_of_kin (hsnd.symm ▸ hkin'), hsnd, hunion]
  exact hw

theorem remade_intersection (hv : Visits d a S t r g.nodes id e stack.length build I Q) (hst : I st)
    (hs : e.term.shape = .intersection) (hunm : e.term.Unmerged) :
    Remade (g.setting d a) build I Q e id stack field st := by
  have hcov := hv.formed.covers
  rw [hs] at hcov
  obtain ⟨hrising, hflat⟩ := hcov
  have hshape : (e.node id).shape = .intersection e.names := by simp [Entry.node, hs, outline]
  have hkind : ∀ shape ms, intersectionMembers? shape = some ms → shape.kind = "intersection" := by
    intro shape ms h
    cases shape <;> simp_all [intersectionMembers?, Shape.kind]
  obtain ⟨ws, st₁, hws, hsnd, hst₁, hsteps⟩ := hv.exists_members hst hkind hflat field
  have hres := hv.forall₂_resembles hsteps
  have htwins := twins_of_resembles hres
  have hcov : e.term.shape.Covers ws := by
    rw [hs]
    exact ⟨hrising.of_map_eq (digests_of_resembles hres), Flat.of_twins htwins hflat⟩
  obtain ⟨w, st', hw, hst', hm⟩ := hv.remakes_composite hsteps hst₁ (by rw [hs]; rfl) hcov
    (by simp [hs, ownLinks]) "intersection"
  refine ⟨w, st', ?_, hst', hm⟩
  have hnone : ws = [] ∨ ws.mapM objectBody? = none := by
    refine (hunm hs).imp (fun hnil => ?_) fun hnone => ?_
    · exact List.length_eq_zero_iff.1 (by rw [htwins.length_eq, hnil]; rfl)
    · obtain ⟨c, hc, hbody⟩ := mapM_eq_none.1 hnone
      obtain ⟨i, hi, rfl⟩ := List.getElem_of_mem hc
      have hj : i < ws.length := htwins.length_eq ▸ hi
      have htwin : Twin ws[i] e.term.children[i] := htwins.get hj hi
      refine mapM_eq_none.2 ⟨ws[i], List.getElem_mem hj, Option.isNone_iff_eq_none.1 ?_⟩
      rw [← Option.not_isSome, htwin.isSome_objectBody?, hbody]
      rfl
  simp only [nodeTerm, hshape, ends_bind]
  refine ⟨_, st₁, hws, ?_⟩
  simp only [intersectionTerm, hsnd]
  rw [hs] at hw
  split
  · next w' ws' bodies hb =>
    rcases hnone with hnil | hnone
    · cases hnil
    · simp [hnone] at hb
  · exact hw

theorem remade_single (hv : Visits d a S t r g.nodes id e stack.length build I Q) (hst : I st)
    (hlen : e.term.children.length = 1)
    (hcov : ∀ w : Term, e.term.shape.Covers [w]) (hown : ownLinks e.term.shape = [])
    (heq : nodeTerm (g.setting d a) build (e.node id) stack field e.term.binder = do
      term (g.setting d a) e.term.shape id [← build field (e.names.headD "")] e.term.head.tags
        e.term.head.location) :
    Remade (g.setting d a) build I Q e id stack field st := by
  obtain ⟨x, hx⟩ := List.length_eq_one_iff.1 (hv.length_names.trans hlen)
  obtain ⟨w₁, st₁, hw₁, hst₁, hQ⟩ := hv.ends field x (hx ▸ List.mem_singleton_self x) st hst
  have hsteps : Steps Q e.names st [w₁] st₁ := hx ▸ .cons hQ .nil
  obtain ⟨w, hw, hst', hm⟩ := hv.exists_remakes hsteps (.refl st₁) (.refl (hcov w₁) hown) hst₁
  refine ⟨w, st₁, ?_, hst', hm⟩
  rw [heq, hx, ends_bind]
  exact ⟨w₁, st₁, hw₁, hw⟩

/-- Folding the node of a term makes a term of what the nodes below were folded into. -/
theorem remade (field : Option String) (hv : Visits d a S t r g.nodes id e stack.length build I Q) (hst : I st)
    (hfin : e.term.Finite) (hunm : e.term.Unmerged)
    (hlink : ∀ k l, (k, l) ∈ ownLinks e.term.shape → stack.idxOf? e.target = some k)
    (hlost : ∀ symbol raw, e.term.shape = .recursiveRef symbol raw none → raw ∉ stack) :
    Remade (g.setting d a) build I Q e id stack field st := by
  have hcov := hv.formed.covers
  have hself (hnil : e.term.children = []) (hown : ownLinks e.term.shape = []) :
      Reshaped e stack.length e.term.shape [] := .refl (hnil ▸ hcov) hown
  cases hs : e.term.shape with
  | primitive p =>
    rw [hs] at hcov hself
    exact hv.remade_leaf hst hcov (hself hcov rfl) (by simp [nodeTerm, Entry.node, hs, outline])
  | literal k x =>
    rw [hs] at hcov hself
    exact hv.remade_leaf hst hcov (hself hcov rfl) (by simp [nodeTerm, Entry.node, hs, outline])
  | unknown reason cause =>
    rw [hs] at hcov hself
    exact hv.remade_leaf hst hcov (hself hcov rfl) (by simp [nodeTerm, Entry.node, hs, outline])
  | enum ms =>
    rw [hs] at hcov hself
    exact hv.remade_leaf hst hcov.2 (hself hcov.2 rfl)
      (by simp [nodeTerm, Entry.node, hs, outline, ← hcov.1])
  | recursiveRef symbol raw link =>
    exact hv.remade_recursion hst hs hlink fun hnone => hlost symbol raw (hnone ▸ hs)
  | array =>
    rw [hs] at hcov
    exact hv.remade_single hst hcov (by simp [hs, TermShape.Covers]) (by simp [hs, ownLinks])
      (by simp [nodeTerm, Entry.node, hs, outline])
  | reference symbol =>
    rw [hs] at hcov
    exact hv.remade_single hst hcov (by simp [hs, TermShape.Covers]) (by simp [hs, ownLinks])
      (by simp [nodeTerm, Entry.node, hs, outline])
  | tuple =>
    obtain ⟨ws, st₁, hws, hst₁, hsteps⟩ :=
      hv.exists_chain (fun _ => field) (List.map_id' e.names) hst
    have hr : Reshaped e stack.length .tuple ws := hs ▸ .refl (by rw [hs]; trivial)
      (by simp [hs, ownLinks])
    obtain ⟨w, hw, hst', hm⟩ := hv.exists_remakes hsteps (.refl st₁) hr hst₁
    refine ⟨w, st₁, ?_, hst', hm⟩
    have hshape : (e.node id).shape = .tuple e.names := by simp [Entry.node, hs, outline]
    simp only [nodeTerm, hshape, ends_bind]
    exact ⟨ws, st₁, ends_mapM.2 hws, hw⟩
  | object heads => exact hv.remade_object hst hs
  | union δ => exact hv.remade_union hst hs hfin
  | intersection => exact hv.remade_intersection hst hs hunm

end Visits

end Folding

end TypeAtlas
