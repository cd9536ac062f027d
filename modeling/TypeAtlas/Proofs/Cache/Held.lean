import Mathlib.Logic.Function.Basic
import TypeAtlas.Cache.Document
import TypeAtlas.Proofs.Files.Granted

/-! # The documents of a cache

A cache in a directory that was empty holds nothing but its own directories and the documents of
entries. Its layout can be made and a document replaced at any time, and a document is read exactly if
it was written.
-/

namespace TypeAtlas

theorem CacheKind.name_ne (kind : CacheKind) : kind.name ≠ ".." := by cases kind <;> decide

theorem CacheKind.not_null_mem_name (kind : CacheKind) : '\x00' ∉ kind.name.toList := by
  cases kind <;> decide

namespace Cache

open Volume FileAction

variable {v₀ v v' : Volume} {root : Path} {base : Location} {contents : String → Option ByteArray}
  {name : String} {content : ByteArray}

/-- A directory of a volume in which nothing is, and which a path leads to. What is put into it can be
read. -/
structure Empty (v : Volume) (root : Path) (base : Location) : Prop where
  found : v.find root = .ok (base, .directory)
  nothing : ∀ l, l ≠ [] → v.at? (base ++ l) = none
  named : root.hasNull = false
  legible : ∀ l, v.refusal .readFile (base ++ l) = none

namespace Empty

theorem hasNull_directory (h : Empty v root base) (kind : CacheKind) :
    (directory root kind).hasNull = false := by
  simp [directory, h.named, kind.not_null_mem_name]

theorem hasNull_document (h : Empty v root base) (kind : CacheKind) (hname : '\x00' ∉ name.toList) :
    ((directory root kind).child name).hasNull = false := by
  simp [h.hasNull_directory kind, hname]

end Empty

/-- The volume of a cache whose entries have these documents, in a directory that was empty. -/
structure Holding (v₀ : Volume) (base : Location) (contents : String → Option ByteArray)
    (v : Volume) : Prop where
  grown : v₀.Grown v
  granted : v.Granted
  directories : ∀ kind : CacheKind, v.at? (base ++ [kind.name]) = none ∨
    v.at? (base ++ [kind.name]) = some .directory
  documents : ∀ name, v.at? (base ++ [CacheKind.ir.name] ++ [name]) = (contents name).map .file
  filed : ∀ name, contents name ≠ none → v.at? (base ++ [CacheKind.ir.name]) = some .directory

namespace Holding

theorem initial (h : Empty v₀ root base) (hv : v₀.Granted) : Holding v₀ base (fun _ => none) v₀ where
  grown := .refl v₀
  granted := hv
  directories _ := .inl (h.nothing _ (by simp))
  documents name := by
    rw [List.append_assoc]
    exact h.nothing _ (by simp)
  filed _ hne := absurd rfl hne

theorem found (h : Holding v₀ base contents v) (h₀ : Empty v₀ root base) :
    v.find root = .ok (base, .directory) :=
  find_of_grown h.grown h₀.found

/-- What appears below the directory leaves the rest as it was. -/
theorem grown_updated (h : Holding v₀ base contents v) (h₀ : Empty v₀ root base) {l : Location}
    {e : FileEntry} (hl : l ≠ []) (hv : Updated v (base ++ l) e v') : v₀.Grown v' := by
  refine ⟨fun m hm => ?_, hv.start.trans h.grown.start, hv.refusal.trans h.grown.refusal⟩
  rw [hv.others m, h.grown.kept m hm]
  rintro rfl
  exact hm (h₀.nothing l hl)

/-! ## Reading -/

theorem find_directory (h : Holding v₀ base contents v) (h₀ : Empty v₀ root base) {kind : CacheKind}
    (hk : v.at? (base ++ [kind.name]) = some .directory) :
    v.find (directory root kind) = .ok (base ++ [kind.name], .directory) :=
  find_child (h.found h₀) kind.name_ne hk (by simp)

theorem find_document (h : Holding v₀ base contents v) (h₀ : Empty v₀ root base)
    (hname : name ≠ "..") (hc : contents name = some content) :
    v.find ((directory root .ir).child name) =
      .ok (base ++ [CacheKind.ir.name] ++ [name], .file content) := by
  have hdirectory := h.find_directory h₀ (h.filed name (by simp [hc]))
  exact find_child hdirectory hname (by rw [h.documents, hc, Option.map_some]) (by simp)

theorem read (h : Holding v₀ base contents v) (h₀ : Empty v₀ root base) (hname : name ≠ "..") :
    v.read ((directory root .ir).child name) =
      match contents name with
      | some content => .ok content
      | none => .error .notFound := by
  cases hc : contents name with
  | some content =>
    refine read_eq_ok.2 ⟨_, h.find_document h₀ hname hc, ?_⟩
    rw [h.grown.refusal, List.append_assoc]
    exact h₀.legible _
  | none =>
    have hnone : v.find ((directory root .ir).child name) = .error .notFound := by
      rcases h.directories .ir with habsent | hdirectory
      · exact find_below_absent (h.found h₀) CacheKind.ir.name_ne habsent
      · exact find_absent (h.find_directory h₀ hdirectory) hname (by rw [h.documents, hc]; rfl)
    rw [Volume.read, hnone]
    rfl

/-! ## Writing -/

theorem make (h : Holding v₀ base contents v) (h₀ : Empty v₀ root base) {kind : CacheKind}
    (hv : Updated v (base ++ [kind.name]) .directory v') : Holding v₀ base contents v' where
  grown := h.grown_updated h₀ (by simp) hv
  granted := h.granted.updated hv
  directories kind' := by
    by_cases hk : base ++ [kind'.name] = base ++ [kind.name]
    · rw [hk, hv.here]
      exact .inr rfl
    · rw [hv.others _ hk]
      exact h.directories kind'
  documents name := by
    rw [hv.others _ (fun he => by simpa using congrArg List.length he), h.documents]
  filed name hne := by
    by_cases hk : base ++ [CacheKind.ir.name] = base ++ [kind.name]
    · rw [hk, hv.here]
    · rw [hv.others _ hk, h.filed name hne]

theorem runs_ensureDirectories (h : Holding v₀ base contents v) (h₀ : Empty v₀ root base)
    (kind : CacheKind) :
    ∃ v', Runs (ensureDirectories (directory root kind)) v (.ok ⟨⟩) v' ∧
      Holding v₀ base contents v' ∧ v'.at? (base ++ [kind.name]) = some .directory ∧
        ∀ l, v.at? l = some .directory → v'.at? l = some .directory := by
  have hplace (hfree : ∀ target, v.at? (base ++ [kind.name]) ≠ some (.link target)) :
      v.placed (directory root kind) = .ok (base ++ [kind.name]) :=
    placed_child (h.found h₀) kind.name_ne (h₀.hasNull_directory kind) hfree
  rcases h.directories kind with habsent | hdirectory
  · have hput := updated_put (v := v) (e := .directory) (ne_nil_of_absent habsent)
    refine ⟨_, FileAction.runs_ensureDirectories (runs_ensureDirectory_absent h.granted
      (hplace (by simp [habsent])) habsent), h.make h₀ hput, hput.here, fun l hl => ?_⟩
    rw [hput.others l (by rintro rfl; simp [habsent] at hl), hl]
  · have hfound := h.find_directory h₀ hdirectory
    refine ⟨v, FileAction.runs_ensureDirectories (runs_ensureDirectory_present
      (hplace (by simp [hdirectory])) (by simp [hdirectory]) (by simp [isDirectory, hfound])), h,
      hdirectory, fun _ hl => hl⟩

theorem runs_layout (h : Holding v₀ base contents v) (h₀ : Empty v₀ root base)
    (kinds : List CacheKind) :
    ∃ v', Runs (kinds.forM fun kind => ensureDirectories (directory root kind)) v (.ok ⟨⟩) v' ∧
      Holding v₀ base contents v' ∧ (∀ l, v.at? l = some .directory → v'.at? l = some .directory) ∧
        ∀ kind ∈ kinds, v'.at? (base ++ [kind.name]) = some .directory := by
  induction kinds generalizing v with
  | nil => exact ⟨v, runs_pure.2 ⟨rfl, rfl⟩, h, fun _ hl => hl, by simp⟩
  | cons kind kinds ih =>
    obtain ⟨v₁, hmade, h₁, hkind, hkept⟩ := h.runs_ensureDirectories h₀ kind
    obtain ⟨v₂, hrest, h₂, hkept', hkinds⟩ := ih h₁
    refine ⟨v₂, runs_bind.2 (.inl ⟨⟨⟩, v₁, hmade, hrest⟩), h₂, fun l hl => hkept' l (hkept l hl), ?_⟩
    exact List.forall_mem_cons.2 ⟨hkept' _ hkind, hkinds⟩

theorem runs_replace (content : ByteArray) (h : Holding v₀ base contents v) (h₀ : Empty v₀ root base)
    (hname : name ≠ "..") (hnull : '\x00' ∉ name.toList)
    (hir : v.at? (base ++ [CacheKind.ir.name]) = some .directory) :
    ∃ v', Runs (replace ((directory root .ir).child name) content) v (.ok (.ok ⟨⟩)) v' ∧
      Holding v₀ base (Function.update contents name (some content)) v' := by
  have hfound := h.find_directory h₀ hir
  have hself : v.locateItself (directory root .ir) = .ok (base ++ [CacheKind.ir.name]) :=
    walk_child (h.found h₀) CacheKind.ir.name_ne (by simp [hir]) false
  have hfile : ∀ e, v.at? (base ++ [CacheKind.ir.name] ++ [name]) = some e → ∃ c, e = .file c := by
    intro e he
    rw [h.documents] at he
    obtain ⟨c, -, rfl⟩ := Option.map_eq_some_iff.1 he
    exact ⟨c, rfl⟩
  obtain ⟨v', hruns, hv⟩ := runs_replace_granted content h.granted hfound hself hname
    (h₀.hasNull_document .ir hnull) hfile
  have hshort (kind : CacheKind) : v'.at? (base ++ [kind.name]) = v.at? (base ++ [kind.name]) :=
    hv.others _ fun he => by simpa using congrArg List.length he
  have hgrown : v₀.Grown v' := by
    rw [List.append_assoc] at hv
    exact h.grown_updated h₀ (by simp) hv
  refine ⟨v', hruns, hgrown, h.granted.updated hv, fun kind => ?_, fun name' => ?_, fun _ _ => ?_⟩
  · rw [hshort]
    exact h.directories kind
  · by_cases hn : name' = name
    · rw [hn, hv.here, Function.update_self, Option.map_some]
    · rw [hv.others _ (by simpa using hn), h.documents, Function.update_of_ne hn]
  · rw [hshort, hir]

end Holding

end Cache

end TypeAtlas
