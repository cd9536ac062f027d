import TypeAtlas.Diagnostic.Code

/-! # Outcomes

A pass does not stop at a bad declaration: it returns the best value it has together with every
diagnostic, and has failed when one of these is an error.
-/

namespace TypeAtlas

/-- A value, which may be missing, and the diagnostics in the order in which they arose. -/
structure Outcome (α : Type) where
  value : Option α := none
  diagnostics : List Diagnostic := []
deriving Inhabited

namespace Outcome

variable {α β : Type}

def ok (r : Outcome α) : Bool := !r.diagnostics.any Diagnostic.isError

def errors (r : Outcome α) : List Diagnostic := r.diagnostics.filter Diagnostic.isError

def warnings (r : Outcome α) : List Diagnostic :=
  r.diagnostics.filter fun d => d.category == .warning

def codes (r : Outcome α) : List String := r.diagnostics.map Diagnostic.code

def withValue (r : Outcome α) (value : Option β) : Outcome β := ⟨value, r.diagnostics⟩

def prepend (r : Outcome α) (before : List Diagnostic) : Outcome α :=
  ⟨r.value, before ++ r.diagnostics⟩

def success (value : α) : Outcome α := ⟨some value, []⟩

/-- A failure, which must have a diagnostic. -/
def failure? (diagnostics : List Diagnostic) (value : Option α := none) : Option (Outcome α) :=
  if diagnostics.isEmpty then none else some ⟨value, diagnostics⟩

end Outcome

structure Sink where
  items : Array Diagnostic := #[]
deriving Inhabited

namespace Sink

variable {α : Type}

def size (s : Sink) : Nat := s.items.size

def emit (s : Sink) (d : Diagnostic) : Sink := ⟨s.items.push d⟩

def extend (s : Sink) (ds : List Diagnostic) : Sink := ⟨s.items.appendList ds⟩

def absorb (s : Sink) (r : Outcome α) : Sink := s.extend r.diagnostics

/-- Forgets everything after the first `mark` diagnostics. -/
def rollback (s : Sink) (mark : Nat) : Sink := ⟨s.items.take mark⟩

def hasErrors (s : Sink) : Bool := s.items.any Diagnostic.isError

def toList (s : Sink) : List Diagnostic := s.items.toList

def outcome (s : Sink) (value : Option α) : Outcome α := ⟨value, s.toList⟩

@[simp] theorem ok_outcome (s : Sink) (value : Option α) :
    (s.outcome value).ok = !s.hasErrors := by
  simp [Outcome.ok, outcome, hasErrors, toList]

theorem toList_emit (s : Sink) (d : Diagnostic) : (s.emit d).toList = s.toList ++ [d] :=
  Array.toList_push

theorem hasErrors_emit (s : Sink) (d : Diagnostic) :
    (s.emit d).hasErrors = (s.hasErrors || d.isError) := by
  simp [emit, hasErrors]

theorem extend_nil (s : Sink) : s.extend [] = s := by simp [extend]

theorem extend_cons (s : Sink) (d : Diagnostic) (ds : List Diagnostic) :
    s.extend (d :: ds) = (s.emit d).extend ds := by
  simp [extend, emit]

theorem hasErrors_absorb (s : Sink) (r : Outcome α) :
    (s.absorb r).hasErrors = (s.hasErrors || !r.ok) := by
  simp [absorb, extend, hasErrors, Outcome.ok, ← Array.any_toList]

end Sink

end TypeAtlas
