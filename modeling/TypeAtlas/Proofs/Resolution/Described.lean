import TypeAtlas.Proofs.Graph.Unfolding
import TypeAtlas.Proofs.Resolution.Done
import TypeAtlas.Proofs.Run

/-! # Described trees

The tree that a description stands for, read off without walking: a name stands for the description
of its declaration, unless it is met inside that declaration, where it refers back.

What stands for a declaration does not depend on the place where its name is used, as long as it
neither refers back to a declaration around it nor holds one of these.
-/

namespace TypeAtlas

/-- The descriptions that one is built from. -/
def DescriptionShape.children : DescriptionShape → List DescriptionId
  | .array e => [e]
  | .tuple es => es
  | .object fs => fs.filterMap fun f => f.toOption.bind FieldDescription.type
  | .union ms => ms
  | .intersection ms => ms
  | _ => []

namespace Resolution

inductive Goal where
  | description (id : DescriptionId)
  | leaf (label : Label)

/-- A place in a described tree. -/
structure Context where
  /-- The nodes above, the last ones first, those that stand for declarations by name. -/
  above : List (Option DeclarationKey) := []
  /-- The declaration that the node stands for. -/
  body : Option DeclarationKey := none
  /-- The declaration around the node, or the one that it stands for. -/
  here : DeclarationKey
  types : Descriptions
  goal : Goal
  tags : List Tag := []
  field : Option String := none

namespace Context

variable (s : Setting) (c : Context)

def trail : List (Option DeclarationKey) := c.body :: c.above

def label (shape : Shape) (position : Option Position) : Label where
  shape
  tags := c.tags
  location := locationAt (some c.here) position

def unknown (reason : String) (cause : UnknownCause) (position : Option Position) : Label where
  shape := .unknown reason cause
  location := locationAt (some c.here) position

def child (id : DescriptionId) : Context :=
  { c with above := c.trail, body := none, goal := .description id, tags := [] }

def fieldOf (f : FieldDescription) : Field where
  name := f.name
  type := ""
  optional := f.optional
  readonly := f.readonly
  tags := tagsAt s (some c.here) f.comment (some f.name) f.position
  location := locationAt (some c.here) f.position

def fieldType (f : FieldDescription) : Context :=
  { c with
    above := c.trail, body := none, tags := [], field := some f.name
    goal := match f.type with
      | none => .leaf (c.unknown (Construct.describe "missing field type" none) .unsupported f.position)
      | some id => .description id }

def ofDeclaration (above : List (Option DeclarationKey)) (d : Declaration) : Context where
  above
  body := some d.key
  here := d.key
  types := d.types
  goal := .description d.type
  tags := tagsAt s (some d.key) d.comment none
    (d.line.map fun line => { line := some line, column := d.column })

/-- A name stands for its declaration, or refers back to it. -/
def reference (name : String) (file : Option String) (position : Option Position) :
    Option (Label × List Context) :=
  let key : DeclarationKey := ⟨file.getD c.here.file, name⟩
  match c.trail.idxOf? (some key) with
  | some k => some ({ c.label (.recursiveRef "" name) position with target := some k }, [])
  | none =>
    match s.source.lookup key with
    | .error _ => none
    | .ok none => some (c.unknown ("unresolved " ++ name) .unresolved position, [])
    | .ok (some d) => some (c.label (.reference "" name) position, [ofDeclaration s c.trail d])

/-- The label of a description, and what is below it. -/
def parts (d : Description) : Option (Label × List Context) :=
  match d.shape with
  | .primitive p => some (c.label (.primitive p) d.position, [])
  | .literal k v => some (c.label (.literal k v) d.position, [])
  | .array e => some (c.label (.array "") d.position, [c.child e])
  | .tuple es => some (c.label (.tuple (es.map fun _ => "")) d.position, es.map c.child)
  | .object fs => (fs.mapM Except.toOption).map fun fs =>
      (c.label (.object (fs.map (c.fieldOf s))) d.position, fs.map c.fieldType)
  | .union ms => some (c.label (.union (ms.map fun _ => "") none) d.position, ms.map c.child)
  | .intersection ms => some (c.label (.intersection (ms.map fun _ => "")) d.position, ms.map c.child)
  | .enum ms => (enumMembers ms).toOption.map fun
    | .ok ms => (c.label (.enum ms) d.position, [])
    | .error detail =>
      (c.unknown (Construct.describe "enum" (some detail)) .unsupported d.position, [])
  | .reference name file => c.reference s name file d.position
  | .unsupported construct detail =>
    some (c.unknown (Construct.describe construct detail) .unsupported d.position, [])

def expand : Option (Label × List Context) :=
  match c.goal with
  | .leaf label => some (label, [])
  | .description id => (c.types.get id).toOption.bind (c.parts s)

variable {s c} in
theorem expand_eq_parts {id : DescriptionId} {d : Description} (hid : c.goal = .description id)
    (hd : c.types.get id = .ok d) : c.expand s = c.parts s d := by
  simp only [expand, hid, hd, Except.toOption, Option.bind_some]

variable {s c} in
theorem exists_get_of_expand {id : DescriptionId} {out : Label × List Context}
    (hid : c.goal = .description id) (h : c.expand s = some out) :
    ∃ d, c.types.get id = .ok d ∧ c.parts s d = some out := by
  simp only [expand, hid] at h
  obtain ⟨d, hd, hparts⟩ := Option.bind_eq_some_iff.1 h
  refine ⟨d, ?_, hparts⟩
  cases hget : c.types.get id with
  | error e =>
    rw [hget] at hd
    cases hd
  | ok d' =>
    rw [hget] at hd
    exact congrArg Except.ok (Option.some.inj hd)

end Context

section Steps

variable (step : Context → Option (Label × List Context))

/-- A place stands for a tree in which only the given declarations are written out. -/
inductive Denotes (N : Set DeclarationKey) : Context → Tree → Prop
  | mk {c : Context} {label : Label} {cs : List Context} {ts : List Tree}
      (h : step c = some (label, cs)) (hN : ∀ c' ∈ cs, ∀ k, c'.body = some k → k ∈ N)
      (hlen : cs.length = ts.length) (hc : ∀ p ∈ cs.zip ts, Denotes N p.1 p.2) :
      Denotes N c (.node label ts)

/-- A place inside another one, with the descriptions between them, the last ones first. -/
inductive Reached (start : Context) : List DescriptionId → Context → Prop
  | start : Reached start [] start
  | inside {active : List DescriptionId} {c c' : Context} {id : DescriptionId} {label : Label}
      {cs : List Context} (h : Reached start active c) (hid : c.goal = .description id)
      (hs : step c = some (label, cs)) (hc : c' ∈ cs) : Reached start (id :: active) c'

def Unwound (start : Context) : Prop :=
  ∀ active c id, Reached step start active c → c.goal = .description id → id ∉ active

end Steps

variable {s : Setting} {step : Context → Option (Label × List Context)} {N N' : Set DeclarationKey}
  {c : Context} {t t' : Tree}

namespace Denotes

theorem mono (h : Denotes step N c t) (hN : N ⊆ N') : Denotes step N' c t := by
  induction h with
  | mk hs hbody hlen _ ih => exact .mk hs (fun c' hc k hk => hN (hbody c' hc k hk)) hlen ih

theorem unique (h : Denotes step N c t) (h' : Denotes step N' c t') : t = t' := by
  induction h generalizing t' with
  | mk hs _ hlen _ ih =>
    cases h' with
    | mk hs' _ hlen' hc' =>
      obtain ⟨rfl, rfl⟩ := Prod.ext_iff.1 (Option.some.inj (hs.symm.trans hs'))
      congr 1
      refine List.ext_getElem (hlen.symm.trans hlen') fun i hi hi' => ?_
      exact ih _ (getElem_mem_zip hlen hi) (hc' _ (getElem_mem_zip hlen' hi'))

end Denotes

/-! ## Moving a place -/

namespace Context

variable {x : Context} {label : Label} {cs : List Context} {d : Description}
  {above : List (Option DeclarationKey)}

def moveTo (c : Context) (above : List (Option DeclarationKey)) : Context := { c with above }

theorem above_of_parts (h : c.parts s d = some (label, cs)) (hx : x ∈ cs) : x.above = c.trail := by
  unfold parts at h
  split at h
  case h_5 fs =>
    obtain ⟨fs', -, he⟩ := Option.map_eq_some_iff.1 h
    cases he
    obtain ⟨f, -, rfl⟩ := List.mem_map.1 hx
    rfl
  case h_8 ms =>
    obtain ⟨out, -, he⟩ := Option.map_eq_some_iff.1 h
    cases out <;> cases he <;> cases hx
  case h_9 name file =>
    unfold reference at h
    dsimp only at h
    split at h
    · cases h
      cases hx
    · split at h
      · cases h
      · cases h
        cases hx
      · cases h
        obtain rfl := List.mem_singleton.1 hx
        rfl
  all_goals
    cases h
    first
    | exact absurd hx List.not_mem_nil
    | obtain rfl := List.mem_singleton.1 hx
      rfl
    | obtain ⟨e, -, rfl⟩ := List.mem_map.1 hx
      rfl

theorem above_of_expand (h : c.expand s = some (label, cs)) (hx : x ∈ cs) : x.above = c.trail := by
  unfold expand at h
  split at h
  · cases h
    cases hx
  · obtain ⟨d, -, hd⟩ := Option.bind_eq_some_iff.1 h
    exact above_of_parts hd hx

/-- What a name stands for is the same in another place if it refers back as far, or not at all. -/
theorem reference_moveTo {name : String} {file : Option String} {position : Option Position}
    (hlook : (c.moveTo above).trail.idxOf? (some ⟨file.getD c.here.file, name⟩) =
      c.trail.idxOf? (some ⟨file.getD c.here.file, name⟩)) :
    (c.moveTo above).reference s name file position =
      (c.reference s name file position).map fun p =>
        (p.1, p.2.map fun x => x.moveTo (c.moveTo above).trail) := by
  have hhere : (c.moveTo above).here = c.here := rfl
  simp only [reference, hhere, hlook]
  cases c.trail.idxOf? (some ⟨file.getD c.here.file, name⟩) with
  | some k => rfl
  | none => rcases s.source.lookup ⟨file.getD c.here.file, name⟩ with e | _ | d <;> rfl

theorem parts_moveTo (hlook : ∀ name file, d.shape = .reference name file →
      (c.moveTo above).trail.idxOf? (some ⟨file.getD c.here.file, name⟩) =
        c.trail.idxOf? (some ⟨file.getD c.here.file, name⟩)) :
    (c.moveTo above).parts s d =
      (c.parts s d).map fun p => (p.1, p.2.map fun x => x.moveTo (c.moveTo above).trail) := by
  unfold parts
  cases hs : d.shape with
  | primitive p => rfl
  | literal k v => rfl
  | array e => rfl
  | tuple es => simp [child, moveTo, label, trail, Function.comp_def]
  | object fs =>
    dsimp only
    cases fs.mapM Except.toOption with
    | none => rfl
    | some fs => simp [fieldType, moveTo, label, trail, fieldOf, unknown, Function.comp_def]
  | union ms => simp [child, moveTo, label, trail, Function.comp_def]
  | intersection ms => simp [child, moveTo, label, trail, Function.comp_def]
  | enum ms =>
    dsimp only
    rcases enumMembers ms with e | _ | ms <;> rfl
  | reference name file => exact reference_moveTo (hlook name file hs)
  | unsupported construct detail => rfl

def asked? (c : Context) : Option DeclarationKey :=
  match c.goal with
  | .leaf _ => none
  | .description id =>
    match c.types.get id with
    | .error _ => none
    | .ok d =>
      match d.shape with
      | .reference name file => some ⟨file.getD c.here.file, name⟩
      | _ => none

theorem expand_moveTo (hlook : ∀ key, c.asked? = some key →
      (c.moveTo above).trail.idxOf? (some key) = c.trail.idxOf? (some key)) :
    (c.moveTo above).expand s =
      (c.expand s).map fun p => (p.1, p.2.map fun x => x.moveTo (c.moveTo above).trail) := by
  have hgoal : (c.moveTo above).goal = c.goal := rfl
  have htypes : (c.moveTo above).types = c.types := rfl
  simp only [expand, hgoal, htypes]
  cases hc : c.goal with
  | leaf label => rfl
  | description id =>
    dsimp only
    cases hd : c.types.get id with
    | error e => rfl
    | ok d =>
      refine parts_moveTo fun name file hs => hlook _ ?_
      simp [asked?, hc, hd, hs]

/-- A name refers back to a declaration above, or it is not declared, or it stands for its
declaration. -/
theorem expand_of_asked {key : DeclarationKey} (h : c.expand s = some (label, cs))
    (ha : c.asked? = some key) :
    (c.trail.idxOf? (some key) = label.target ∧ label.target ≠ none) ∨
      c.trail.idxOf? (some key) = none ∧ (s.source.lookup key = .ok none ∨
        ∃ d, s.source.lookup key = .ok (some d) ∧ cs = [ofDeclaration s c.trail d]) := by
  obtain ⟨d, name, file, hd, hs, rfl⟩ : ∃ d name file, c.expand s = c.parts s d ∧
      d.shape = .reference name file ∧ key = ⟨file.getD c.here.file, name⟩ := by
    unfold asked? at ha
    split at ha
    · cases ha
    · next id hid =>
      split at ha
      · cases ha
      · next d hd =>
        split at ha
        · next name file hs =>
          exact ⟨d, name, file, expand_eq_parts hid hd, hs, (Option.some.inj ha).symm⟩
        · cases ha
  rw [hd] at h
  simp only [parts, hs, reference] at h
  cases hk : c.trail.idxOf? (some ⟨file.getD c.here.file, name⟩) with
  | some k =>
    rw [hk] at h
    cases h
    exact .inl ⟨rfl, Option.some_ne_none _⟩
  | none =>
    rw [hk] at h
    rcases hl : s.source.lookup ⟨file.getD c.here.file, name⟩ with e | _ | d'
    · rw [hl] at h
      cases h
    · exact .inr ⟨rfl, .inl rfl⟩
    · rw [hl] at h
      cases h
      exact .inr ⟨rfl, .inr ⟨d', rfl, rfl⟩⟩

end Context

/-- A place that refers to nothing above the given nodes stands for the same elsewhere, where the
declarations that it holds are not met. -/
theorem Denotes.moveTo (inner : List (Option DeclarationKey))
    {above above' : List (Option DeclarationKey)} (hsource : Faithful s.source)
    (h : Denotes (Context.expand s) N c t)
    (hc : c.above = inner ++ above) (ht : t.Within inner.length)
    (hN : ∀ k ∈ N, some k ∉ above') (hdeclared : ∀ k, some k ∈ above' → s.source.lookup k ≠ .ok none) :
    Denotes (Context.expand s) N (c.moveTo (inner ++ above')) t := by
  induction h generalizing inner with
  | @mk c label cs ts hs hbody hlen _ ih =>
    obtain ⟨htarget, hparts⟩ : (∀ k, label.target = some k → k ≤ inner.length) ∧
        ∀ t ∈ ts, t.Within (inner.length + 1) := by
      cases ht with
      | mk ht hparts => exact ⟨ht, hparts⟩
    have htrail : c.trail = (c.body :: inner) ++ above := by rw [Context.trail, hc, List.cons_append]
    have hmoved : (c.moveTo (inner ++ above')).trail = (c.body :: inner) ++ above' := rfl
    have hlook : ∀ key, c.asked? = some key →
        (c.moveTo (inner ++ above')).trail.idxOf? (some key) = c.trail.idxOf? (some key) := by
      intro key hkey
      rw [hmoved, htrail]
      rcases Context.expand_of_asked hs hkey with ⟨hk, hsome⟩ | ⟨hnone, hlookup⟩
      · obtain ⟨k, htk⟩ := Option.ne_none_iff_exists'.1 hsome
        rw [htk, htrail] at hk
        have hmem := mem_of_idxOf?_append hk (Nat.lt_succ_of_le (htarget k htk))
        rw [idxOf?_append_of_mem hmem, idxOf?_append_of_mem hmem]
      · rw [htrail] at hnone
        rw [hnone, List.idxOf?_eq_none_iff]
        have hnot := List.idxOf?_eq_none_iff.1 hnone
        intro hmem
        rcases List.mem_append.1 hmem with hmem | hmem
        · exact hnot (List.mem_append_left _ hmem)
        · rcases hlookup with hlookup | ⟨d, hlookup, rfl⟩
          · exact hdeclared key hmem hlookup
          · have hd : d.key ∈ N := hbody _ (List.mem_singleton_self _) _ rfl
            rw [hsource _ _ hlookup] at hd
            exact hN key hd hmem
    have hexpand : Context.expand s (c.moveTo (inner ++ above')) =
        some (label, cs.map fun x => x.moveTo ((c.body :: inner) ++ above')) := by
      rw [Context.expand_moveTo hlook, hs]
      rfl
    refine .mk hexpand ?_ ?_ ?_
    · intro x hx k hk
      obtain ⟨y, hy, rfl⟩ := List.mem_map.1 hx
      exact hbody y hy k hk
    · rw [List.length_map, hlen]
    · intro p hp
      rw [List.zip_map_left] at hp
      obtain ⟨q, hq, rfl⟩ := List.mem_map.1 hp
      refine ih q hq (c.body :: inner) ?_ (hparts _ (List.of_mem_zip hq).2)
      rw [Context.above_of_expand hs (List.of_mem_zip hq).1, htrail]

/-! ## Trees of descriptions -/

/-- The descriptions of each declaration are built from descriptions of a lower rank that belong to
the same declaration. -/
structure Ranked (source : DeclarationSource) (owner : DescriptionId → DeclarationKey)
    (rank : DescriptionId → ℕ) : Prop where
  root : ∀ k d, source.lookup k = .ok (some d) → owner d.type = d.key
  child : ∀ k d, source.lookup k = .ok (some d) → ∀ i desc, d.types.get i = .ok desc →
    ∀ j ∈ desc.shape.children, owner j = owner i ∧ rank j < rank i

namespace Context

variable {x : Context} {label : Label} {cs : List Context} {id : DescriptionId}

theorem expand_cases (hsource : Faithful s.source) (h : c.expand s = some (label, cs))
    (hid : c.goal = .description id) (hx : x ∈ cs) :
    (x.types = c.types ∧ x.here = c.here ∧ x.trail = none :: c.trail ∧
      ∀ e, x.goal = .description e → ∃ d, c.types.get id = .ok d ∧ e ∈ d.shape.children) ∨
    ∃ k d, s.source.lookup k = .ok (some d) ∧ some d.key ∉ c.trail ∧
      x = ofDeclaration s c.trail d := by
  obtain ⟨d, hd, hparts⟩ := exists_get_of_expand hid h
  have hchild {e : DescriptionId} (he : e ∈ d.shape.children) (hx : x = c.child e) :
      x.types = c.types ∧ x.here = c.here ∧ x.trail = none :: c.trail ∧
        ∀ e, x.goal = .description e → ∃ d, c.types.get id = .ok d ∧ e ∈ d.shape.children := by
    subst hx
    refine ⟨rfl, rfl, rfl, fun e' he' => ⟨d, hd, ?_⟩⟩
    cases he'
    exact he
  unfold parts at hparts
  split at hparts
  case h_5 fs hs =>
    obtain ⟨fds, hfds, he⟩ := Option.map_eq_some_iff.1 hparts
    cases he
    obtain ⟨fd, hfd, rfl⟩ := List.mem_map.1 hx
    refine .inl ⟨rfl, rfl, rfl, fun e he => ⟨d, hd, ?_⟩⟩
    obtain ⟨f, hf, hfd⟩ := exists_of_mem_mapM hfds hfd
    rw [hs, DescriptionShape.children, List.mem_filterMap]
    refine ⟨f, hf, ?_⟩
    rw [hfd]
    simp only [fieldType] at he
    cases hft : fd.type with
    | none =>
      rw [hft] at he
      cases he
    | some e' =>
      rw [hft] at he
      cases he
      exact hft
  case h_8 ms hs =>
    obtain ⟨out, -, he⟩ := Option.map_eq_some_iff.1 hparts
    cases out <;> cases he <;> cases hx
  case h_9 name file hs =>
    simp only [reference] at hparts
    cases hk : c.trail.idxOf? (some ⟨file.getD c.here.file, name⟩) with
    | some k =>
      rw [hk] at hparts
      cases hparts
      cases hx
    | none =>
      rw [hk] at hparts
      rcases hl : s.source.lookup ⟨file.getD c.here.file, name⟩ with e | _ | d'
      · rw [hl] at hparts
        cases hparts
      · rw [hl] at hparts
        cases hparts
        cases hx
      · rw [hl] at hparts
        cases hparts
        refine .inr ⟨_, d', hl, ?_, List.mem_singleton.1 hx⟩
        rw [hsource _ _ hl]
        exact List.idxOf?_eq_none_iff.1 hk
  case h_3 e hs =>
    cases hparts
    exact .inl (hchild (by simp [hs, DescriptionShape.children]) (List.mem_singleton.1 hx))
  case h_4 es hs =>
    cases hparts
    obtain ⟨e, he, rfl⟩ := List.mem_map.1 hx
    exact .inl (hchild (by rwa [hs]) rfl)
  case h_6 ms hs =>
    cases hparts
    obtain ⟨e, he, rfl⟩ := List.mem_map.1 hx
    exact .inl (hchild (by rwa [hs]) rfl)
  case h_7 ms hs =>
    cases hparts
    obtain ⟨e, he, rfl⟩ := List.mem_map.1 hx
    exact .inl (hchild (by rwa [hs]) rfl)
  all_goals
    cases hparts
    cases hx

end Context

/-- Where the descriptions of each declaration form a tree, none is met inside itself: a part has a
lower rank, and a declaration is not written out inside itself. -/
theorem unwound_of_ranked {owner : DescriptionId → DeclarationKey} {rank : DescriptionId → ℕ}
    (h : Ranked s.source owner rank) (hsource : Faithful s.source)
    {d : Declaration} (hd : s.source.lookup d.key = .ok (some d)) :
    Unwound (Context.expand s) (Context.ofDeclaration s [] d) := by
  have hinv : ∀ active c, Reached (Context.expand s) (Context.ofDeclaration s [] d) active c →
      (∃ k d, s.source.lookup k = .ok (some d) ∧ c.types = d.types) ∧ some c.here ∈ c.trail ∧
        ∀ id, c.goal = .description id → owner id = c.here ∧
          ∀ j ∈ active, some (owner j) ∈ c.trail ∧ (owner j = c.here → rank id < rank j) := by
    intro active c hreached
    induction hreached with
    | start =>
      refine ⟨⟨_, d, hd, rfl⟩, List.mem_cons_self, fun id hid => ?_⟩
      cases hid
      exact ⟨h.root _ _ hd, by simp⟩
    | @inside active c x id label cs _ hid hs hx ih =>
      obtain ⟨⟨k, d', hd', htypes⟩, hhere, hgoal⟩ := ih
      obtain ⟨howner, hall⟩ := hgoal id hid
      have hmem : ∀ j ∈ id :: active, some (owner j) ∈ c.trail ∧
          (owner j = c.here → rank id ≤ rank j) := by
        refine List.forall_mem_cons.2 ⟨⟨howner ▸ hhere, fun _ => le_rfl⟩, fun j hj => ?_⟩
        exact ⟨(hall j hj).1, fun he => ((hall j hj).2 he).le⟩
      rcases Context.expand_cases hsource hs hid hx with
        ⟨htypes', hhere', htrail', hchild⟩ | ⟨k', d'', hd'', hnew, rfl⟩
      · refine ⟨⟨k, d', hd', htypes'.trans htypes⟩, ?_, fun e he => ?_⟩
        · rw [hhere', htrail']
          exact List.mem_cons_of_mem _ hhere
        · obtain ⟨desc, hget, hdesc⟩ := hchild e he
          obtain ⟨howner', hrank⟩ := h.child k d' hd' id desc (htypes ▸ hget) e hdesc
          rw [hhere', htrail']
          refine ⟨howner'.trans howner, fun j hj => ?_⟩
          exact ⟨List.mem_cons_of_mem _ (hmem j hj).1, fun he => hrank.trans_le ((hmem j hj).2 he)⟩
      · refine ⟨⟨k', d'', hd'', rfl⟩, List.mem_cons_self, fun e he => ?_⟩
        cases he
        refine ⟨h.root _ _ hd'', fun j hj => ⟨List.mem_cons_of_mem _ (hmem j hj).1, fun he => ?_⟩⟩
        exact absurd (hmem j hj).1 (he ▸ hnew)
  intro active c id hreached hid hmem
  obtain ⟨-, -, hgoal⟩ := hinv active c hreached
  obtain ⟨howner, hall⟩ := hgoal id hid
  exact absurd ((hall id hmem).2 howner) (lt_irrefl _)

end Resolution

end TypeAtlas
