import TypeAtlas.Proofs.Cache.Stored
import TypeAtlas.Proofs.Files.Placed

/-! # Writing all or nothing

A file of a cache is written completely or not at all. Whatever comes of it, the volume differs by
directories on the way to the file, and on success by the file itself. A temporary file is left only where
nothing can be removed.
-/

namespace TypeAtlas

/-! ## Directories on the way -/

namespace Volume

variable {v v' v'' : Volume} {p q : Path} {l : Location}

/-- A volume with more directories, to each of which a beginning of the path leads. -/
structure Paved (p : Path) (v v' : Volume) : Prop where
  kept : ∀ l, v.at? l ≠ none → v'.at? l = v.at? l
  made : ∀ l, v.at? l = none → v'.at? l ≠ none →
    ∃ q : Path, q.anchor = p.anchor ∧ q.segments <+: p.segments ∧ v'.find q = .ok (l, .directory)
  start : v'.workingDirectory = v.workingDirectory
  refusal : v'.refusal = v.refusal

namespace Paved

theorem refl (p : Path) (v : Volume) : Paved p v v :=
  ⟨fun _ _ => rfl, fun _ h h' => absurd h h', rfl, rfl⟩

theorem grown (h : Paved p v v') : Grown v v' := ⟨h.kept, h.start, h.refusal⟩

theorem trans (h : Paved p v v') (h' : Paved p v' v'') : Paved p v v'' where
  kept l hl := by
    have hsome := h.kept l hl
    rw [h'.kept l (by rwa [hsome]), hsome]
  made l hl hl' := by
    by_cases hmade : v'.at? l = none
    · exact h'.made l hmade hl'
    · obtain ⟨q, hanchor, hsegments, hq⟩ := h.made l hl hmade
      exact ⟨q, hanchor, hsegments, find_of_grown h'.grown hq⟩
  start := h'.start.trans h.start
  refusal := h'.refusal.trans h.refusal

theorem of_parent (h : Paved p.parent v v') : Paved p v v' where
  kept := h.kept
  made l hl hl' := by
    obtain ⟨q, hanchor, hsegments, hq⟩ := h.made l hl hl'
    exact ⟨q, hanchor, hsegments.trans (List.dropLast_prefix _), hq⟩
  start := h.start
  refusal := h.refusal

theorem of_put (hp : v.locateItself p = .ok l) (hl : v.at? l = none) : Paved p v (v.put l .directory) where
  kept m hm := at?_put_of_ne (by rintro rfl; exact hm hl)
  made m hm hm' := by
    obtain rfl : m = l := by
      by_contra hne
      exact hm' ((at?_put_of_ne hne).trans hm)
    refine ⟨p, rfl, List.prefix_rfl, find_eq_ok.2 ⟨?_, at?_put_self (ne_nil_of_absent hl)⟩⟩
    exact walk_put hp (by simp [hl]) (by simp) true
  start := rfl
  refusal := rfl

end Paved

theorem read_put {content : ByteArray} (hp : v.locateItself p = .ok l) (hold : v.at? l ≠ some .directory)
    (hlink : ∀ target, v.at? l ≠ some (.link target)) (hread : v.refusal .readFile l = none) :
    (v.put l (.file content)).read p = .ok content := by
  have hfile : ∀ f, v.at? l = some f → ∃ c, f = .file c := by
    rintro (_ | c | target) hf
    · exact absurd hf hold
    · exact ⟨c, rfl⟩
    · exact absurd hf (hlink target)
  have hfind : (v.put l (.file content)).find p = .ok (l, .file content) := by
    apply find_eq_ok.2
    constructor
    · exact walk_put hp hfile (by simp) true
    · exact at?_put_self (ne_nil_of_not_directory hold)
  exact read_eq_ok.2 ⟨l, hfind, hread⟩

end Volume

namespace FileAction

open Volume

variable {v v' : Volume} {p : Path} {content : ByteArray} {r : Except FileError Unit}

theorem paved_ensureDirectory (h : Runs (ensureDirectory p) v r v') : Paved p v v' := by
  rcases runs_ensureDirectory h with ⟨e, -, rfl⟩ | ⟨-, -, rfl⟩ | ⟨l, -, hl, habsent, rfl⟩
  · exact .refl p v'
  · exact .refl p v'
  · exact .of_put hl habsent

/-- Making directories, all or some of them, paves the way to the last one. -/
theorem paved_ensureDirectories (h : Runs (ensureDirectories p) v r v') : Paved p v v' := by
  fun_induction ensureDirectories p generalizing v r v' with
  | case1 p ih =>
    rcases runs_tryCatch.1 h with ⟨_, hmade, -⟩ | ⟨e, v₁, hmade, hmore⟩
    · exact paved_ensureDirectory hmade
    · apply (paved_ensureDirectory hmade).trans
      split at hmore
      · next hparent =>
        rcases runs_bind.1 hmore with ⟨_, v₂, hparents, hlast⟩ | ⟨_, hparents, -⟩
        · exact (ih e hparent hparents).of_parent.trans (paved_ensureDirectory hlast)
        · exact (ih e hparent hparents).of_parent
      · rw [(runs_throw.1 hmore).2]
        exact .refl p v₁

end FileAction

/-! ## Documents -/

namespace Cache

open Volume FileAction

/-- Writing a file always comes to an end. It reports nothing and the file is where its path leads, with
the content, or it reports one failure of the system and there is no such change; it is a fault if the path
has a null character, or if the temporary file cannot be removed, which stays then. Nothing else has changed
but directories that were made on the way. -/
theorem writeBytes_atomic (path : Path) (content : ByteArray) (w : Workspace) :
    ∃ q v' u, Runs (writeBytes path content) w q { w with volume := v' } ∧
      Paved path.parent w.volume u ∧
      ((∃ l, q = .ok {} ∧ u.locateItself path = .ok l ∧ Updated u l (.file content) v' ∧
          ((∀ target, u.at? l ≠ some (.link target)) → u.refusal .readFile l = none →
            v'.read path = .ok content)) ∨
        (∃ e, e.isSystem ∧ q = .ok ⟨none, [Diagnostic.ofFileError path.toString e]⟩ ∧ v' = u) ∨
        (path.hasNull ∧ q = .error (.file .nullCharacter) ∧ v' = u) ∨
        ∃ l c e, u.placed (temporary u path) = .ok l ∧ u.at? l = none ∧
          w.volume.refusal .removeFile l = some e ∧ q = .error (.file e.val) ∧
          v' = u.put l (.file c)) := by
  obtain ⟨x, v', hreplaced⟩ : ∃ x v', Runs (replace path content) w.volume x v' := ⟨_, _, rfl⟩
  obtain ⟨s, u, hmade, hcases⟩ := runs_replace_made hreplaced
  have hpaved := paved_ensureDirectories hmade
  have hacted := Work.runs_mustAct_of hreplaced
  cases hcases with
  | @done l hl hold =>
    refine ⟨_, _, u, (runs_ok_bind hacted).2 (runs_pure.2 ⟨rfl, rfl⟩), hpaved, .inl ⟨l, rfl, ?_, ?_, ?_⟩⟩
    · exact (placed_eq_ok.1 hl).2
    · exact updated_put (ne_nil_of_not_directory hold)
    · exact read_put (placed_eq_ok.1 hl).2 hold
  | failed he =>
    exact ⟨_, _, v', (runs_ok_bind hacted).2 (runs_pure.2 ⟨rfl, rfl⟩), hpaved, .inr (.inl ⟨_, he, rfl, rfl⟩)⟩
  | misnamed hp =>
    exact ⟨_, _, v', runs_bind.2 (.inr ⟨_, hacted, rfl⟩), hpaved, .inr (.inr (.inl ⟨hp, rfl, rfl⟩))⟩
  | stranded hplace hl he =>
    rw [hpaved.refusal] at he
    exact ⟨_, _, u, runs_bind.2 (.inr ⟨_, hacted, rfl⟩), hpaved,
      .inr (.inr (.inr ⟨_, _, _, hplace, hl, he, rfl, rfl⟩))⟩

end Cache

end TypeAtlas
