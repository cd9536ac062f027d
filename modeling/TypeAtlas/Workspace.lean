import TypeAtlas.Diagnostic.Outcome
import TypeAtlas.Diagnostic.Code
import TypeAtlas.Fault
import TypeAtlas.Files.Action
import TypeAtlas.Logging
import TypeAtlas.TypeScript.Syntax

/-! # Workspaces

What the operations on a repository act on: a volume, the source files that were read from it, and
the log of the run. Whatever was done before a fault stays done.
-/

namespace TypeAtlas

/-- What a source file holds, or nothing if it cannot be read. -/
abbrev ModuleReading := Attempt (Option TypeScript.ModuleSyntax)

structure Workspace where
  volume : Volume
  /-- The source files that were read, under the paths by which they were named. They count as they
  were then. -/
  pinned : Std.ExtTreeMap String ModuleReading := ∅
  log : Array LogLine := #[]

abbrev Work := ExceptT Fault (StateM Workspace)

namespace Work

variable {α : Type}

def look (f : Volume → α) : Work α := return f (← get).volume

/-- Acts on the volume; a failure is a fault. -/
def mustAct (a : FileAction α) : Work α := do
  let (result, volume) := (a.run.run (← get).volume)
  modify fun w => { w with volume }
  match result with
  | .ok x => return x
  | .error e => throw (.file e)

/-- Acts on the volume; an error of the system is given back. -/
def act (a : FileAction α) : Work (Except FileError α) := mustAct (FileAction.caught a)

def log (lines : List LogLine) : Work Unit :=
  modify fun w => { w with log := w.log.appendList lines }

def say (level : LogLevel) (origin message : String) : Work Unit := log [⟨level, origin, message⟩]

/-- Works with source files read afresh; what was read before counts again afterwards. -/
def withFreshSources (x : Work α) : Work α := do
  let pinned := (← get).pinned
  modify fun w => { w with pinned := ∅ }
  try
    let a ← x
    modify fun w => { w with pinned }
    return a
  catch f =>
    modify fun w => { w with pinned }
    throw f

end Work

def Diagnostic.ofFileError (path : String) (e : FileError) : Diagnostic :=
  Diagnostic.make .ioFailure [.text path, .text e.reason] (some { filePath := some path })

def Outcome.ofFileResult {α : Type} (path : Path) : Except FileError α → Outcome α
  | .ok a => .success a
  | .error e => ⟨none, [Diagnostic.ofFileError path.toString e]⟩

def Volume.readOutcome (v : Volume) (path : Path) : Outcome ByteArray :=
  Outcome.ofFileResult path (v.read path)

end TypeAtlas
