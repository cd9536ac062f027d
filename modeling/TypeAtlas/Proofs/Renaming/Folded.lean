import TypeAtlas.Proofs.Relabeling.Folded
import TypeAtlas.Proofs.Renaming.Term

/-! # Folds side by side

A fold of a renamed graph goes along with that of the graph: both come to the same terms, but for
names. The second fold may also go without the deadline of the first one. Then they end alike unless
the first one is out of time: a deadline decides whether a fold ends, and nothing else.
-/

namespace TypeAtlas

namespace Graph.Beside

variable {ρ : Renaming} {exact : Prop} {g g' : Graph}

theorem renderWithin (h : g.Beside ρ exact g') (levels : ℕ) (id : NodeId) :
    Parallel Never (fun _ _ => True) (g.renderWithin levels id) (g'.renderWithin levels id) := by
  induction levels generalizing id with
  | zero => exact .ok trivial
  | succ levels ih =>
    have hall := Parallel.mapM_same ih
    rw [Graph.renderWithin, Graph.renderWithin, h.node?]
    cases g.node? id with
    | none => exact .ok trivial
    | some n =>
      obtain ⟨_, shape, _, _⟩ := n
      cases shape with
      | primitive p => exact .ok trivial
      | literal k v => exact .refl (fun _ => trivial) _
      | array e => exact (ih e).bind fun _ _ _ => .ok trivial
      | tuple es => exact (hall es).bind fun _ _ _ => .ok trivial
      | union ms δ => exact (hall ms).bind fun _ _ _ => .ok trivial
      | intersection ms => exact (hall ms).bind fun _ _ _ => .ok trivial
      | object fs =>
        cases fs with
        | nil => exact .ok trivial
        | cons f fs =>
          refine (Parallel.mapM (g := ρ.field) (Q := fun _ _ => True) fun f _ => ?_).bind
            fun _ _ _ => .ok trivial
          exact (ih f.type).bind fun _ _ _ => .ok trivial
      | enum ms => exact .refl (fun _ => trivial) _
      | reference target symbol => exact .ok trivial
      | recursiveRef target symbol => exact .ok trivial
      | unknown reason cause => exact .ok trivial

end Graph.Beside

namespace Folding

variable {ρ : Renaming} {exact : Prop} {timed : Bool} {s s' : Setting} {st st' : State} {α β : Type}

/-- The setting with a renamed graph. -/
structure Setting.Beside (ρ : Renaming) (exact : Prop) (s s' : Setting) : Prop where
  digester : s'.digester = s.digester
  algorithm : s'.algorithm = s.algorithm
  graph : s.graph.Beside ρ exact s'.graph
  binders : s'.binders = s.binders

/-- Both folds have come to the same place, but for names. No fold reports the limit of a walk. -/
structure State.Beside (ρ : Renaming) (exact : Prop) (timed : Bool) (st st' : State) : Prop where
  sink : exact → st'.sink = st.sink
  hasErrors : st'.sink.hasErrors = st.sink.hasErrors
  unlimited : ∀ d ∈ st.sink.toList, d.code ≠ DiagnosticKey.resolutionLimit.code
  closed : st'.closed = st.closed.map fun _ t => ρ.term t
  dead : st'.dead = st.dead
  deadline : st'.deadline = if timed then st.deadline else none

/-- Whatever the first fold does, the second one does alike, unless the first is out of time. -/
abbrev Mirrors (ρ : Renaming) (exact : Prop) (timed : Bool) (R : α → β → Prop) (m : M α) (m' : M β) :
    Prop :=
  Along Late (State.Beside ρ exact timed) R m m'

/-- Results that are the same but for names. -/
abbrev Renamed (ρ : Renaming) : Term → Term → Prop := fun t u => u = ρ.term t

/-- The limit of a walk is not what was reported. -/
def Unlimiting (d : Diagnostic) : Prop := d.code ≠ DiagnosticKey.resolutionLimit.code

theorem unlimiting_of_reportable : ∀ key ∈ reportable, ∀ args place context,
    Unlimiting (Diagnostic.make key args place context) := by
  have hcodes : ∀ key ∈ reportable, key.code ≠ DiagnosticKey.resolutionLimit.code := by decide
  exact fun key hkey _ _ _ => hcodes key hkey

theorem Setting.Beside.relabeled {P : Diagnostic → Prop} (hs : s.Beside ρ exact s')
    (hreports : ∀ key ∈ reportable, ∀ args place context, P (Diagnostic.make key args place context)) :
    s.Relabeled ρ.relabeling (fun _ => True) P exact s' where
  digester := hs.digester
  algorithm := hs.algorithm
  node id _ := by
    rw [funext ρ.relabeling_graphNode]
    exact hs.graph.node? id
  size := hs.graph.size.ge
  child _ _ _ _ := trivial
  binders id _ := by
    rw [hs.binders]
    rfl
  target _ _ _ := rfl
  missing _ _ _ := rfl
  cyclic _ _ _ _ := rfl
  symbol h := by rw [hs.graph.same h]
  place h id := by
    rw [hs.graph.same h]
    rfl
  render id := by
    by_cases h : exact
    · rw [hs.graph.same h]
      exact .refl (fun _ _ => rfl) _
    · exact (hs.graph.renderWithin _ id).imp fun _ _ _ he => absurd he h
  reports := hreports

theorem State.beside_iff :
    State.Beside ρ exact timed st st' ↔
      State.Relabeled ρ.relabeling (fun _ => True) Unlimiting exact timed st st' := by
  constructor
  · intro h
    refine { h with reported := h.unlimited, closed := fun id _ => ?_, dead := fun id _ => ?_ }
    · rw [h.closed, Std.ExtTreeMap.getElem?_map, funext ρ.relabeling_term]
      rfl
    · rw [h.dead]
      rfl
  · intro h
    refine { h with
      unlimited := h.reported
      closed := Std.ExtTreeMap.ext_getElem? fun id => ?_
      dead := Std.ExtTreeSet.ext_mem fun id => h.dead id trivial }
    rw [Std.ExtTreeMap.getElem?_map, ← funext ρ.relabeling_term]
    exact h.closed id trivial

/-- The folds of a graph and of a renamed one go along with each other. -/
theorem mirrors_root (hs : s.Beside ρ exact s') : Mirrors ρ exact timed (Renamed ρ) (root s) (root s') := by
  intro st st' hst
  rw [root, root, hs.graph.size, hs.graph.root]
  have hpath : SamePath ρ.relabeling (fun _ => True) s ∅ ∅ s.graph.root := ⟨by simp, by simp⟩
  have hbuild : Along Late (State.Relabeled ρ.relabeling (fun _ => True) Unlimiting exact timed)
      (Relabels ρ.relabeling) _ _ :=
    accompanies_build (hs.relabeled unlimiting_of_reportable) (s.graph.nodes.size + 1) ∅ ∅ [] none trivial hpath
  refine (hbuild st st' (State.beside_iff.1 hst)).imp fun p q hpq => ⟨?_, State.beside_iff.2 hpq.2⟩
  rw [Renamed, ← ρ.relabeling_term]
  exact hpq.1

end Folding

/-! ## Folds under a deadline -/

namespace Folding

variable {s : Setting} {st : State} {t : Term} {deadline : Option Deadline}

def State.untimed (st : State) : State := { st with deadline := none }

theorem Setting.beside_refl (s : Setting) : s.Beside .refl True s where
  digester := rfl
  algorithm := rfl
  graph := ⟨rfl, (Renaming.arena_refl _).symm, fun _ => rfl⟩
  binders := rfl

theorem map_term_refl (closed : Std.ExtTreeMap NodeId Term) :
    closed.map (fun _ t => Renaming.refl.term t) = closed := by
  refine Std.ExtTreeMap.ext_getElem? fun k => ?_
  rw [Std.ExtTreeMap.getElem?_map]
  cases closed[k]? with
  | none => rfl
  | some t => exact congrArg some (Renaming.term_refl t)

theorem State.beside_initial (deadline : Option Deadline) :
    State.Beside .refl True false { deadline } {} where
  sink _ := rfl
  hasErrors := rfl
  unlimited := by simp [Sink.toList]
  closed := (map_term_refl _).symm
  dead := rfl
  deadline := rfl

theorem State.Beside.eq_untimed {st' : State} (h : st.Beside .refl True false st') :
    st' = st.untimed := by
  obtain ⟨sink, closed, dead, deadline⟩ := st'
  obtain rfl := h.sink trivial
  obtain rfl : closed = st.closed := h.closed.trans (map_term_refl _)
  obtain rfl := h.dead
  obtain rfl : deadline = none := h.deadline
  rfl

theorem mirrors_root_untimed (s : Setting) :
    Mirrors .refl True false (Renamed .refl) (root s) (root s) :=
  mirrors_root s.beside_refl

theorem ends_root_untimed (h : Ends (root s) { deadline } t st) : Ends (root s) {} t st.untimed := by
  obtain ⟨u, st', hu, rfl, hst⟩ := (mirrors_root_untimed s).ends (State.beside_initial deadline) h
  rw [Renaming.term_refl, hst.eq_untimed] at hu
  exact hu

/-- What is true of whatever can be reported is true of what a fold reports. -/
theorem reported_of_ends_root {P : Diagnostic → Prop}
    (hreports : ∀ key ∈ reportable, ∀ args place context, P (Diagnostic.make key args place context))
    (h : Ends (root s) { deadline } t st) : ∀ d ∈ st.sink.toList, P d := by
  have hpath : SamePath Renaming.refl.relabeling (fun _ => True) s ∅ ∅ s.graph.root := ⟨by simp, by simp⟩
  have halong : Accompanies Renaming.refl.relabeling (fun _ => True) P True false (Relabels _)
      (root s) (root s) :=
    accompanies_build (s.beside_refl.relabeled hreports) (s.graph.nodes.size + 1) ∅ ∅ [] none trivial hpath
  obtain ⟨_, _, -, -, hst⟩ := halong.ends (State.relabeled_initial rfl) h
  exact hst.reported

theorem code_ne_of_ends_root (h : Ends (root s) { deadline } t st) :
    ∀ d ∈ st.sink.toList, d.code ≠ DiagnosticKey.resolutionLimit.code :=
  reported_of_ends_root unlimiting_of_reportable h

/-- The report that a composite gave way to its only member, which is no error. -/
def Collapses (d : Diagnostic) : Prop :=
  d.code = DiagnosticKey.compositeCollapsed.code ∧ d.category = .info

theorem collapses_of_ends_root (h : Ends (root s) { deadline } t st) (hst : ¬ st.sink.hasErrors) :
    ∀ d ∈ st.sink.toList, Collapses d := by
  have hkeys : ∀ key ∈ reportable, key.entry.category = .error ∨
      key.code = DiagnosticKey.compositeCollapsed.code ∧ key.entry.category = .info := by decide
  have hreported := reported_of_ends_root (P := fun d => d.category = .error ∨ Collapses d)
    (fun key hkey _ _ _ => hkeys key hkey) h
  refine fun d hd => (hreported d hd).resolve_left fun herror => hst ?_
  rw [Sink.hasErrors, ← Array.any_toList, List.any_eq_true]
  exact ⟨d, hd, beq_iff_eq.2 herror⟩

/-- A fold that does not end is out of time, or does not end either when there is no deadline. -/
theorem late_of_root {e : Fault} (h : (root s).run { deadline } = .error e) :
    Late e ∨ (root s).run {} = .error e :=
  (mirrors_root_untimed s).fails (State.beside_initial deadline) h

end Folding

end TypeAtlas
