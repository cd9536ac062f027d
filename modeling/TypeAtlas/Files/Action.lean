import TypeAtlas.Files.Volume

/-! # File actions

Changes of a volume. An action that fails half-way leaves what it has done so far. A file is replaced
either completely or not at all, but what has been made to this end is left where it cannot be
removed.
-/

namespace TypeAtlas

/-- An action on a volume that may fail; its changes so far are kept. -/
abbrev FileAction := ExceptT FileError (StateM Volume)

namespace FileAction

def look {α : Type} (f : Volume → α) : FileAction α := return f (← get)

def ask {α : Type} (f : Volume → Except FileError α) : FileAction α := do
  match f (← get) with
  | .ok a => return a
  | .error e => throw e

/-- Fails if the volume refuses a step. -/
def permit (step : FileStep) (l : Location) : FileAction Unit := do
  match (← get).refusal step l with
  | some e => throw e.val
  | none => return

/-- Fails if nothing can have the path. -/
def checkName (p : Path) : FileAction Unit := do
  if p.hasNull then throw .nullCharacter

/-- The location of a path itself, at which something is to be changed. -/
def place (p : Path) : FileAction Location := do
  checkName p
  ask (·.locateItself p)

/-- Gives back an error of the system; any other one is not caught. -/
def caught {α : Type} (a : FileAction α) : FileAction (Except FileError α) := do
  try Except.ok <$> a
  catch e => if e.isSystem then pure (.error e) else throw e

def put (l : Location) (e : FileEntry) : FileAction Unit :=
  modify fun v => { v with entries := v.entries.insert l e }

def drop (l : Location) : FileAction Unit :=
  modify fun v => { v with entries := v.entries.erase l }

def makeDirectory (p : Path) : FileAction Unit := do
  let l ← place p
  if ((← get).at? l).isSome then throw .exists_
  permit .makeDirectory l
  put l .directory

def ensureDirectory (p : Path) : FileAction Unit := do
  try makeDirectory p
  catch e =>
    if e.isSystem && e != .notFound && (← look (·.isDirectory p)) then return
    else throw e

/-- Makes a directory and all that it is in, unless they are there. -/
def ensureDirectories (p : Path) : FileAction Unit := do
  try ensureDirectory p
  catch e =>
    if _more : e = .notFound ∧ p.segments ≠ [] then
      ensureDirectories p.parent
      ensureDirectory p
    else throw e
termination_by p.segments.length
decreasing_by
  simp only [Path.parent, List.length_dropLast]
  have := List.length_pos_iff.2 _more.2
  omega

/-- Writes a file in a directory that is there. -/
def write (p : Path) (content : ByteArray) : FileAction Unit := do
  checkName p
  let l ← ask (·.locate p)
  match (← get).at? l with
  | some .directory => throw .isDirectory
  | some _ => permit .writeFile l
  | none => permit .createFile l
  put l (.file content)

def remove (p : Path) : FileAction Unit := do
  let l ← place p
  match (← get).at? l with
  | some .directory => throw .isDirectory
  | some _ =>
    permit .removeFile l
    drop l
  | none => throw .notFound

/-- Removes a file or a link, if it is there. -/
def discard (p : Path) : FileAction Unit := do
  try remove p
  catch e => if e = .notFound then pure ⟨⟩ else throw e

def removeTree (p : Path) : FileAction Unit := do
  let l ← place p
  if ((← get).at? l).isNone then throw .notFound
  modify fun v =>
    { v with entries := v.entries.filter fun k _ => (Volume.below? l k).isNone }

/-- Gives a file another name; a file of that name is replaced. -/
def rename (p q : Path) : FileAction Unit := do
  let old ← place p
  let new ← place q
  match (← get).at? old, (← get).at? new with
  | none, _ => throw .notFound
  | _, some .directory => throw .isDirectory
  | some e, _ =>
    permit .rename new
    drop old
    put new e

def makeLink (p target : Path) : FileAction Unit := do
  let l ← place p
  if ((← get).at? l).isSome then throw .exists_
  put l (.link target)

/-! ## Replacing a file -/

/-- The name of a temporary file for another one, longer than every name that is taken. -/
def temporaryName (name : String) (taken : List String) : String :=
  let length := (taken.map String.length).foldl max 0
  "." ++ name ++ "." ++ String.ofList (List.replicate length 'x') ++ ".tmp"

def create (p : Path) : FileAction Unit := do
  let l ← place p
  if ((← get).at? l).isSome then throw .exists_
  permit .createFile l
  put l (.file ByteArray.empty)

/-- Creates a temporary file beside another one, with the directories that both are in. -/
def createBeside (p : Path) : FileAction Path := do
  ensureDirectories p.parent
  let temporary := p.parent.child (temporaryName p.name (← look (·.list p.parent)))
  create temporary
  return temporary

def complete (temporary p : Path) (content : ByteArray) : FileAction Unit := do
  write temporary content
  rename temporary p

/-- Writes a file by way of a temporary one beside it, which is renamed when it is complete. An error
of the system is given back after the temporary file was removed; a failure to remove it is not
caught. -/
def replace (p : Path) (content : ByteArray) : FileAction (Except FileError Unit) := do
  match ← caught (createBeside p) with
  | .error e => return .error e
  | .ok temporary =>
    match ← caught (complete temporary p content) with
    | .ok _ => return .ok ⟨⟩
    | .error e =>
      discard temporary
      return .error e

end FileAction

end TypeAtlas
