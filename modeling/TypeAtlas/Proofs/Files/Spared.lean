import Mathlib.Data.List.Induction
import Mathlib.Order.RelClasses
import TypeAtlas.Proofs.Files.Placed

/-! # What changes spare

In a volume without links every segment of a path is a name on the way to what the path leads to. Actions
on the files of one directory spare what all other paths lead to, whether they end well or fail half-way.
-/

namespace TypeAtlas

/-! ## Runs within a relation -/

section Within

variable {ε σ α β γ : Type} {R : σ → σ → Prop} {m : ExceptT ε (StateM σ) α}
  {f : α → ExceptT ε (StateM σ) β}

/-- Whatever comes of a run, the state at its end is in a relation to that at its start. -/
def Within (R : σ → σ → Prop) (m : ExceptT ε (StateM σ) α) : Prop := ∀ s r s', Runs m s r s' → R s s'

theorem Within.mono {Q : σ → σ → Prop} (hm : Within R m) (h : ∀ s s', R s s' → Q s s') : Within Q m :=
  fun s r s' hr => h s s' (hm s r s' hr)

/-- A run that leaves a view of the state alone is within what holds of states that look the same. -/
theorem Keeps.within {view : σ → γ} (hm : Keeps view m) (h : ∀ s s', view s' = view s → R s s') :
    Within R m := fun s r s' hr => h s s' (hm s r s' hr)

variable [IsPreorder σ R]

theorem within_pure (x : α) : Within R (pure x : ExceptT ε (StateM σ) α) := by
  intro s r s' h
  rw [(runs_pure.1 h).2]
  exact refl_of R s

theorem within_get : Within R (get : ExceptT ε (StateM σ) σ) := by
  intro s r s' h
  rw [(runs_get.1 h).2]
  exact refl_of R s

theorem Within.bind (hm : Within R m) (hf : ∀ x, Within R (f x)) : Within R (m >>= f) := by
  intro s r s' h
  rcases runs_bind.1 h with ⟨x, s₁, hx, hrest⟩ | ⟨e, he, -⟩
  · exact trans_of R (hm _ _ _ hx) (hf x _ _ _ hrest)
  · exact hm _ _ _ he

theorem within_forM {g : β → ExceptT ε (StateM σ) PUnit} {xs : List β} (h : ∀ x ∈ xs, Within R (g x)) :
    Within R (xs.forM g) := by
  induction xs with
  | nil => exact within_pure _
  | cons x xs ih =>
    obtain ⟨hx, hxs⟩ := List.forall_mem_cons.1 h
    exact hx.bind fun _ => ih hxs

theorem within_foldlM {g : γ → β → ExceptT ε (StateM σ) γ} (h : ∀ c x, Within R (g c x)) (xs : List β)
    (c : γ) : Within R (xs.foldlM g c) := by
  induction xs generalizing c with
  | nil => exact within_pure c
  | cons x xs ih =>
    rw [List.foldlM_cons]
    exact (h c x).bind ih

end Within

namespace Volume

variable {v v' v'' : Volume} {l m base region at_ : Location} {e : FileEntry} {links : ℕ}
  {segments : List String} {throughLast : Bool} {name : String} {p q : Path}

/-! ## Names that lead to their places -/

/-- A volume in which a path leads to what it spells: there are no links, and nothing has the name by
which the directory above is meant. -/
structure Literal (v : Volume) : Prop where
  linkless : ∀ l target, v.at? l ≠ some (.link target)
  upless : ∀ l, v.at? l ≠ none → ".." ∉ l
  working : ".." ∉ v.workingDirectory

theorem Literal.not_mem_start (h : v.Literal) (p : Path) : ".." ∉ v.start p := by
  unfold Volume.start
  split
  · exact List.not_mem_nil
  · exact h.working

theorem not_mem_walk (hat : ".." ∉ at_) (h : v.walk throughLast links at_ segments = .ok l) : ".." ∉ l := by
  have hnext {at_ : Location} {segment : String} (hat : ".." ∉ at_) (hup : ¬ segment = "..") :
      ".." ∉ at_ ++ [segment] := by
    simpa [hat] using fun h => hup h.symm
  fun_induction walk v throughLast links at_ segments with
  | case1 => exact Except.ok.inj h ▸ hat
  | case2 links at_ rest ih => exact ih (fun hmem => hat (List.dropLast_subset _ hmem)) h
  | case3 links at_ segment rest hup next _ ih => exact ih (hnext hat hup) h
  | case4 links at_ segment rest hup => exact Except.ok.inj h ▸ hnext hat hup
  | case5 => cases h
  | case6 at_ segment rest hup next target _ _ links ih =>
    apply ih ?_ h
    rcases linkStart_eq_or target at_ with he | he <;> rw [he]
    · exact List.not_mem_nil
    · exact hat
  | case7 links at_ segment rest hup => exact Except.ok.inj h ▸ hnext hat hup
  | case8 => cases h
  | case9 links at_ segment rest hup => exact Except.ok.inj h ▸ hnext hat hup
  | case10 => cases h

theorem WellFormed.at?_of_append (hv : v.WellFormed) (hm : m ≠ []) (h : v.at? (l ++ m) ≠ none) :
    v.at? l = some .directory := by
  induction m using List.reverseRecOn with
  | nil => exact absurd rfl hm
  | append_singleton m s ih =>
    have hparent := hv.parents _ h
    rw [← List.append_assoc, List.dropLast_concat] at hparent
    by_cases hnil : m = []
    · rwa [hnil, List.append_nil] at hparent
    · exact ih hnil (by simp [hparent])

theorem WellFormed.walk_entry (hv : v.WellFormed) (hl : v.Literal) (h : v.at? (at_ ++ segments) ≠ none) :
    v.walk throughLast links at_ segments = .ok (at_ ++ segments) := by
  induction segments generalizing at_ with
  | nil => rw [walk, List.append_nil]
  | cons segment rest ih =>
    have hsplit : at_ ++ segment :: rest = (at_ ++ [segment]) ++ rest := by simp
    have hup : ¬ segment = ".." := by
      rintro rfl
      exact hl.upless _ h (by simp)
    rw [hsplit] at h ⊢
    by_cases hrest : rest = []
    · subst hrest
      rw [List.append_nil] at h ⊢
      obtain ⟨e, he⟩ := Option.ne_none_iff_exists'.1 h
      cases e with
      | directory => simp [walk, hup, he]
      | file content => simp [walk, hup, he]
      | link target => exact absurd he (hl.linkless _ target)
    · simp only [walk, if_neg hup, hv.at?_of_append hrest h]
      exact ih h

theorem settle_up (v : Volume) (links : ℕ) (at_ : Location) (rest : List String) :
    v.settle links at_ (".." :: rest) = v.settle links at_.dropLast rest := by
  rw [settle.eq_def]
  exact if_pos rfl

theorem settle_of_walk (h : v.walk true links at_ segments = .ok l) : v.settle links at_ segments = l := by
  fun_induction walk v true links at_ segments with
  | case1 =>
    rw [settle]
    exact Except.ok.inj h
  | case2 links at_ rest ih =>
    rw [settle_up]
    exact ih h
  | case3 links at_ segment rest hup next hnext ih =>
    have hnext : v.at? (at_ ++ [segment]) = some .directory := hnext
    rw [settle.eq_def]
    simp only [if_neg hup, hnext]
    exact ih h
  | case4 links at_ segment rest hup next target hnext hthrough => simp at hthrough
  | case5 => cases h
  | case6 at_ segment rest hup next target hnext hthrough links ih =>
    have hnext : v.at? (at_ ++ [segment]) = some (.link target) := hnext
    rw [settle.eq_def]
    simp only [if_neg hup, hnext]
    exact ih h
  | case7 links at_ segment rest hup next content hnext hrest =>
    have hnext : v.at? (at_ ++ [segment]) = some (.file content) := hnext
    rw [List.isEmpty_iff.1 hrest, settle.eq_def]
    simp only [if_neg hup, hnext, settle]
    exact Except.ok.inj h
  | case8 => cases h
  | case9 links at_ segment rest hup next hnext hrest =>
    have hnext : v.at? (at_ ++ [segment]) = none := hnext
    rw [List.isEmpty_iff.1 hrest, settle.eq_def]
    simp only [if_neg hup, hnext, settle]
    exact Except.ok.inj h
  | case10 => cases h

theorem segments_resolve (h : v.find p = .ok (l, e)) : (v.resolve p).segments = l :=
  settle_of_walk (find_eq_ok.1 h).1

theorem Literal.settle_cons (hv : v.Literal) (hname : name ≠ "..") (links : ℕ) (at_ : Location)
    (rest : List String) : v.settle links at_ (name :: rest) = v.settle links (at_ ++ [name]) rest := by
  rw [settle.eq_def]
  simp only [if_neg hname]
  split
  · next target _ hlink => exact absurd hlink (hv.linkless _ target)
  · rfl

/-- Without links the volume does not matter for where a path settles. -/
theorem Literal.settle_eq (hv : v.Literal) (hv' : v'.Literal) :
    v'.settle links at_ segments = v.settle links at_ segments := by
  induction segments generalizing at_ with
  | nil => rw [settle, settle]
  | cons segment rest ih =>
    by_cases hup : segment = ".."
    · rw [hup, settle_up, settle_up, ih]
    · rw [hv.settle_cons hup, hv'.settle_cons hup, ih]

/-! ## Changes below a directory -/

/-- A change below a directory at most, where directories stay and names still lead to their places. -/
structure Spares (base : Location) (v v' : Volume) : Prop where
  start : v'.workingDirectory = v.workingDirectory
  outside : ∀ m, ¬ base <+: m → v'.at? m = v.at? m
  directories : ∀ m, v.at? m = some .directory → v'.at? m = some .directory
  literal : v.Literal → v'.Literal
  refusal : v'.refusal = v.refusal

namespace Spares

theorem refl (base : Location) (v : Volume) : Spares base v v :=
  ⟨rfl, fun _ _ => rfl, fun _ h => h, id, rfl⟩

theorem trans (h : Spares base v v') (h' : Spares base v' v'') : Spares base v v'' where
  start := h'.start.trans h.start
  outside m hm := (h'.outside m hm).trans (h.outside m hm)
  directories m hm := h'.directories m (h.directories m hm)
  literal hv := h'.literal (h.literal hv)
  refusal := h'.refusal.trans h.refusal

theorem widen (h : Spares region v v') (hregion : base <+: region) : Spares base v v' where
  start := h.start
  outside m hm := h.outside m fun hprefix => hm (hregion.trans hprefix)
  directories := h.directories
  literal := h.literal
  refusal := h.refusal

theorem put (hl : base <+: l) (hup : v.Literal → ".." ∉ l) (hold : v.at? l ≠ some .directory)
    (he : ∀ target, e ≠ .link target) : Spares base v (v.put l e) := by
  have hnil : l ≠ [] := by
    rintro rfl
    exact hold rfl
  refine ⟨rfl, fun m hm => at?_put_of_ne (by rintro rfl; exact hm hl), fun m hm => ?_, fun hv => ?_, rfl⟩
  · rw [at?_put_of_ne (by rintro rfl; exact hold hm), hm]
  · refine ⟨fun m target hm => ?_, fun m hm => ?_, hv.working⟩
    · by_cases hml : m = l
      · rw [hml, at?_put_self hnil] at hm
        exact he target (Option.some.inj hm)
      · rw [at?_put_of_ne hml] at hm
        exact hv.linkless m target hm
    · by_cases hml : m = l
      · exact hml ▸ hup hv
      · rw [at?_put_of_ne hml] at hm
        exact hv.upless m hm

theorem drop (hl : base <+: l) (hold : v.at? l ≠ some .directory) : Spares base v (v.drop l) := by
  have hnil : l ≠ [] := by
    rintro rfl
    exact hold rfl
  refine ⟨rfl, fun m hm => at?_drop_of_ne (by rintro rfl; exact hm hl), fun m hm => ?_, fun hv => ?_, rfl⟩
  · rw [at?_drop_of_ne (by rintro rfl; exact hold hm), hm]
  · refine ⟨fun m target hm => ?_, fun m hm => ?_, hv.working⟩
    · by_cases hml : m = l
      · rw [hml, at?_drop_self hnil] at hm
        cases hm
      · rw [at?_drop_of_ne hml] at hm
        exact hv.linkless m target hm
    · by_cases hml : m = l
      · rw [hml, at?_drop_self hnil] at hm
        exact absurd rfl hm
      · rw [at?_drop_of_ne hml] at hm
        exact hv.upless m hm

theorem walk (h : Spares base v v') (hv : v.Literal) (hwalk : v.walk true links at_ segments = .ok l)
    (he : v.at? l = some e) (he' : v'.at? l = some e) : v'.walk true links at_ segments = .ok l := by
  fun_induction Volume.walk v true links at_ segments with
  | case1 =>
    rw [Volume.walk]
    exact hwalk
  | case2 links at_ rest ih =>
    rw [Volume.walk, if_pos rfl]
    exact ih hwalk
  | case3 links at_ segment rest hup next hnext ih =>
    have hnext : v'.at? (at_ ++ [segment]) = some .directory := h.directories _ hnext
    simp only [Volume.walk, if_neg hup, hnext]
    exact ih hwalk
  | case4 links at_ segment rest hup next target hnext => exact absurd hnext (hv.linkless _ target)
  | case5 at_ segment rest hup next target hnext => exact absurd hnext (hv.linkless _ target)
  | case6 at_ segment rest hup next target hnext => exact absurd hnext (hv.linkless _ target)
  | case7 links at_ segment rest hup next content hnext hrest =>
    obtain rfl := Except.ok.inj hwalk
    obtain rfl := Option.some.inj (he.symm.trans hnext)
    have hnext : v'.at? (at_ ++ [segment]) = some (.file content) := he'
    simp only [Volume.walk, if_neg hup, hnext, hrest]
    rfl
  | case8 => cases hwalk
  | case9 links at_ segment rest hup next hnext =>
    obtain rfl := Except.ok.inj hwalk
    cases he.symm.trans hnext
  | case10 => cases hwalk

/-- A directory, or what is not in the directory of the change, is found where it was. -/
theorem find (h : Spares base v v') (hv : v.Literal) (hfind : v.find p = .ok (l, e))
    (hl : e = .directory ∨ ¬ base <+: l) : v'.find p = .ok (l, e) := by
  obtain ⟨hwalk, he⟩ := find_eq_ok.1 hfind
  have he' : v'.at? l = some e := by
    rcases hl with rfl | hl
    · exact h.directories l he
    · rw [h.outside l hl, he]
  rw [find_eq_ok, locate, Volume.start, h.start]
  exact ⟨h.walk hv hwalk he he', he'⟩

theorem resolve (h : Spares base v v') (hv : v.Literal) (p : Path) : v'.resolve p = v.resolve p := by
  rw [Volume.resolve, Volume.resolve, Volume.start, h.start]
  exact congrArg (Path.mk .root) (hv.settle_eq (h.literal hv))

end Spares

/-- A change that is only below the directory of a path, if that is where it was found. -/
def ChangesBelow (q : Path) (base : Location) (v v' : Volume) : Prop :=
  v.Literal → v.find q = .ok (base, .directory) → Spares base v v'

theorem Literal.walk_child (hv : v.Literal) (hq : v.find q = .ok (base, .directory)) (hname : name ≠ "..")
    (throughLast : Bool) :
    v.walk throughLast maxLinks (v.start (q.child name)) (q.child name).segments = .ok (base ++ [name]) :=
  Volume.walk_child hq hname (fun target => hv.linkless _ target) throughLast

end Volume

namespace FileAction

open Volume

variable {v v' : Volume} {l base : Location} {p q : Path} {name tmp : String} {content c : ByteArray}
  {r : Except FileError Unit}

/-! ## Making directories -/

theorem spares_ensureDirectory (hv : v.Literal) (h : Runs (ensureDirectory p) v r v') : Spares [] v v' := by
  rcases runs_ensureDirectory h with ⟨_, -, rfl⟩ | ⟨-, -, rfl⟩ | ⟨l, -, hl, habsent, rfl⟩
  · exact .refl [] v'
  · exact .refl [] v'
  · apply Spares.put List.nil_prefix
    · exact fun _ => not_mem_walk (hv.not_mem_start p) hl
    · simp [habsent]
    · simp

/-- Making directories leaves directories where they are, and names lead to their places. -/
theorem spares_ensureDirectories (hv : v.Literal) (h : Runs (ensureDirectories p) v (.ok ⟨⟩) v') :
    Spares [] v v' := by
  induction hn : p.segments.length generalizing p v' with
  | zero =>
    rcases runs_ensureDirectories_ok h with hone | ⟨hne, -⟩
    · exact spares_ensureDirectory hv hone
    · exact absurd (List.length_eq_zero_iff.1 hn) hne
  | succ n ih =>
    rcases runs_ensureDirectories_ok h with hone | ⟨-, v₁, hparent, hone⟩
    · exact spares_ensureDirectory hv hone
    · have hmade := ih hparent (by simp [Path.parent, hn])
      exact hmade.trans (spares_ensureDirectory (hmade.literal hv) hone)

theorem find_of_ensureDirectory (hw : v.WellFormed) (hv : v.Literal) (hname : name ≠ "..")
    (h : Runs (ensureDirectory (q.child name)) v (.ok ⟨⟩) v') :
    ∃ b, v'.find q = .ok (b, .directory) ∧ v'.find (q.child name) = .ok (b ++ [name], .directory) := by
  have hspared := spares_ensureDirectory hv h
  have hfound {b : Location} (hb : v.find q = .ok (b, .directory))
      (hthere : v'.at? (b ++ [name]) = some .directory) :
      v'.find q = .ok (b, .directory) ∧ v'.find (q.child name) = .ok (b ++ [name], .directory) := by
    have hb' := hspared.find hv hb (.inl rfl)
    exact ⟨hb', find_child hb' hname hthere (by simp)⟩
  rcases runs_ensureDirectory h with ⟨_, he, -⟩ | ⟨-, hdirectory, rfl⟩ | ⟨l, -, hl, habsent, rfl⟩
  · cases he
  · unfold isDirectory at hdirectory
    split at hdirectory
    · next l hfind =>
      obtain ⟨hlocate, hl⟩ := find_eq_ok.1 hfind
      obtain ⟨b, hb⟩ := hw.find_of_child hname hlocate
      obtain rfl := Except.ok.inj ((hv.walk_child hb hname true).symm.trans hlocate)
      exact ⟨b, hfound hb hl⟩
    · cases hdirectory
  · obtain ⟨b, hb⟩ := hw.find_of_child hname hl
    obtain rfl := Except.ok.inj ((hv.walk_child hb hname false).symm.trans hl)
    exact ⟨b, hfound hb (at?_put_self (ne_nil_of_absent habsent))⟩

theorem find_of_ensureDirectories (hw : v.WellFormed) (hv : v.Literal) (hq : ∀ s ∈ q.segments, IsName s)
    (hname : name ≠ "..") (h : Runs (ensureDirectories (q.child name)) v (.ok ⟨⟩) v') :
    ∃ b, v'.find q = .ok (b, .directory) ∧ v'.find (q.child name) = .ok (b ++ [name], .directory) := by
  rcases runs_ensureDirectories_ok h with hone | ⟨-, v₁, hparent, hone⟩
  · exact find_of_ensureDirectory hw hv hname hone
  · rw [parent_child] at hparent
    exact find_of_ensureDirectory (wellFormed_ensureDirectories hw hq hparent)
      ((spares_ensureDirectories hv hparent).literal hv) hname hone

/-! ## Changing the files of a directory -/

theorem within_caught {α : Type} {R : Volume → Volume → Prop} {a : FileAction α} (h : Within R a) :
    Within R (caught a) := by
  intro v q v' hruns
  rcases runs_caught.1 hruns with ⟨x, hx, -⟩ | ⟨e, he, -⟩
  · exact h _ _ _ hx
  · exact h _ _ _ he

theorem within_discard (hname : name ≠ "..") : Within (ChangesBelow q base) (discard (q.child name)) := by
  intro v r v' h hv hq
  rcases runs_discard_or h with rfl | ⟨l, hl, hold, rfl⟩
  · exact .refl base v'
  · obtain rfl := Except.ok.inj ((hv.walk_child hq hname false).symm.trans hl)
    exact .drop (List.prefix_append _ _) hold

/-- Replacing a file changes at most the directory that it is in, where the file has its new content at the
end unless there was an error. -/
theorem runs_replace_within {r : Except FileError (Except FileError Unit)} (hv : v.Literal)
    (hq : v.find q = .ok (base, .directory)) (hname : name ≠ "..")
    (h : Runs (replace (q.child name) content) v r v') :
    Spares base v v' ∧ (r = .ok (.ok ⟨⟩) → v'.at? (base ++ [name]) = some (.file content)) := by
  have hnew {w : Volume} {n : String} {l : Location} {c : ByteArray} (hw : w.Literal)
      (hq : w.find q = .ok (base, .directory)) (hn : n ≠ "..") (hl : w.placed (q.child n) = .ok l)
      (hold : w.at? l ≠ some .directory) : l = base ++ [n] ∧ Spares base w (w.put l (.file c)) := by
    obtain ⟨-, hl⟩ := placed_eq_ok.1 hl
    obtain rfl := Except.ok.inj ((hw.walk_child hq hn false).symm.trans hl)
    exact ⟨rfl, .put (List.prefix_append _ _) (fun _ => not_mem_walk (hw.not_mem_start _) hl) hold (by simp)⟩
  obtain ⟨s, u, hmade, hreplaced⟩ := runs_replace_made h
  rw [parent_child] at hmade
  obtain rfl := eq_of_ensureDirectories_found hq hmade
  cases hreplaced with
  | done hl hold =>
    obtain ⟨rfl, hspared⟩ := hnew hv hq hname hl hold
    exact ⟨hspared, fun _ => at?_put_self (by simp)⟩
  | failed => exact ⟨.refl base v', by simp⟩
  | misnamed => exact ⟨.refl base v', by simp⟩
  | stranded hplace habsent he =>
    rw [temporary, parent_child] at hplace
    exact ⟨(hnew hv hq (temporaryName_ne _ _) hplace (by simp [habsent])).2, by simp⟩

theorem within_replace (hname : name ≠ "..") :
    Within (ChangesBelow q base) (replace (q.child name) content) :=
  fun _ _ _ h hv hq => (runs_replace_within hv hq hname h).1

end FileAction

end TypeAtlas
