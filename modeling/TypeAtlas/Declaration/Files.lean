import TypeAtlas.Declaration.Memory
import TypeAtlas.Resolution.Walk
import TypeAtlas.TypeScript.Describe
import TypeAtlas.Workspace

/-! # Declarations in files

The declarations of the source files under a root. A name that a file imports stands for the
declaration of another file. A file is read when a name is first looked up in it, and counts from
then on as it was, or as missing.
-/

namespace TypeAtlas

open TypeScript

structure SourceTree where
  root : Path
  volume : Volume
  /-- The files that were read before, under the paths by which they were named. -/
  pinned : Std.ExtTreeMap String ModuleReading := ∅
  /-- What the files of the volume hold. -/
  modules : Std.ExtTreeMap Location (Thunk ModuleReading) := ∅
  /-- More than the number of imports in all files. -/
  patience : Nat := 0

namespace SourceTree

def endings : List String := [".ts", ".tsx"]

def isSourceName (s : String) : Bool := endings.any fun e => s.endsWith e

/-- What can follow the name of a module in the path of its file. -/
def moduleEndings : List String := ["", ".ts", ".d.ts", ".tsx", "/index.ts", "/index.d.ts"]

def readModule (content : ByteArray) : ModuleReading :=
  match String.fromUTF8? content with
  | some s => .ok (some (parseModule s))
  | none => .error .notUtf8

/-- The files of a volume below a root, none of them read. -/
def ofVolume (root : Path) (volume : Volume) : SourceTree where
  root
  volume
  modules := Std.ExtTreeMap.ofList (volume.entries.toList.filterMap fun (l, e) => match e with
    | .file content => some (l, Thunk.mk fun _ => readModule content)
    | _ => none)
  patience := volume.entries.toList.foldl (fun n (_, e) => match e with
    | .file content => n + content.size
    | _ => n) 1

def path (t : SourceTree) (file : String) : Path := t.root / Path.ofString file

def current (t : SourceTree) (file : String) : ModuleReading :=
  match t.volume.find (t.path file) with
  | .ok (l, .file content) =>
    if (t.volume.refusal .readFile l).isSome then .ok none
    else match t.modules[l]? with
      | some reading => reading.get
      | none => readModule content
  | _ => .ok none

def module (t : SourceTree) (file : String) : ModuleReading :=
  (t.pinned[file]?).getD (t.current file)

/-- The file of a module that is named from another file. -/
def resolveModule (t : SourceTree) (file specifier : String) : Option String :=
  let base := (Path.directoryOf (Text.swap '\\' '/' file) / Path.ofString specifier).fold.toString
  (moduleEndings.map (base ++ ·)).find? fun candidate =>
    isSourceName candidate && t.volume.isFile (t.path candidate)

def names (t : SourceTree) (file : String) : Attempt (List String) := do
  match ← t.module file with
  | none => return []
  | some m =>
    return (m.declarations.map DeclarationSyntax.name).eraseDups.mergeSort fun a b => decide (a ≤ b)

def record (t : SourceTree) (m : ModuleSyntax) (file : String) (d : DeclarationSyntax) :
    RecordDeclaration where
  file
  name := d.name
  type := d.describe fun name => do
    let i ← m.import? name
    let target ← t.resolveModule file i.module
    return (target, i.exportedName)
  comment := d.comment
  line := some d.line
  column := some d.column
  kind := match d.body with
    | .interface .. => .interface
    | .typeAlias _ => .typeAlias
    | .enum _ => .enum

/-- The way from a name through imports to its declaration. -/
structure Trail where
  /-- The files that were consulted, in order. -/
  files : List String := []
  declaration : Option RecordDeclaration := none
  /-- A name that came up twice. -/
  cycle : Option DeclarationKey := none

/-- Follows a name, given those already followed. -/
def trail (t : SourceTree) : Nat → List DeclarationKey → DeclarationKey → Attempt Trail
  | 0, _, key => .ok { cycle := some key }
  | fuel + 1, seen, key =>
    if seen.contains key then .ok { cycle := some key }
    else do
      let here : Trail := { files := [key.file] }
      match ← t.module key.file with
      | none => return here
      | some m =>
        match m.declaration? key.name with
        | some d => return { here with declaration := some (t.record m key.file d) }
        | none =>
          let next? : Option DeclarationKey := do
            let i ← m.import? key.name
            let target ← t.resolveModule key.file i.module
            return ⟨target, i.exportedName⟩
          match next? with
          | none => return here
          | some next =>
            let further ← trail t fuel (key :: seen) next
            return { further with files := key.file :: further.files }

def follow (t : SourceTree) (key : DeclarationKey) : Attempt Trail := t.trail t.patience [] key

def lookup (t : SourceTree) (key : DeclarationKey) : Attempt (Option RecordDeclaration) := do
  return (← t.follow key).declaration

/-- How deeply the descriptions of files may be nested. -/
def maxDepth : Nat := 1000

def source (t : SourceTree) : DeclarationSource where
  lookup key := do return (← t.lookup key).map RecordDeclaration.alone
  shared := false
  depth := maxDepth

/-! ## Reading -/

/-- The file counts from now on as it is. -/
def pin (t : SourceTree) (file : String) : SourceTree :=
  if t.pinned.contains file then t else { t with pinned := t.pinned.insert file (t.current file) }

def origin : String := "oracle.treesitter"

def readingLines (t : SourceTree) (file : String) : List LogLine :=
  if t.pinned.contains file then []
  else
    match t.volume.read (t.path file) with
    | .ok _ => []
    | .error e =>
      let path := (t.path file).toString
      [⟨.debug, origin, "Cannot read " ++ path ++ ": " ++ e.describe path⟩]

def pinAll : SourceTree → List String → SourceTree × List LogLine
  | t, [] => (t, [])
  | t, file :: files =>
    let lines := t.readingLines file
    let (t, more) := pinAll (t.pin file) files
    (t, lines ++ more)

/-- The tree after a name was looked up, and what is logged. -/
def visit (t : SourceTree) (key : DeclarationKey) : SourceTree × List LogLine :=
  match t.follow key with
  | .error _ => (t.pin key.file, [])
  | .ok trail =>
    let (t, lines) := t.pinAll trail.files
    match trail.cycle with
    | none => (t, lines)
    | some k =>
      (t, lines ++ [⟨.debug, origin,
        "Import cycle while looking up " ++ k.name ++ " in " ++ k.file⟩])

/-- The tree after a walk has looked up names, and what is logged about them. -/
def visitAll : SourceTree → List Resolution.Event → SourceTree × List LogLine
  | t, [] => (t, [])
  | t, .asked key :: events =>
    let (t, lines) := t.visit key
    let (t, more) := visitAll t events
    (t, lines ++ more)
  | t, .entered name by_ :: events =>
    let (t, more) := visitAll t events
    (t, ⟨.debug, "resolve.resolver", "Resolving " ++ name ++ " referenced from " ++ by_⟩ :: more)

end SourceTree

def Workspace.sources (w : Workspace) (root : Path) : SourceTree :=
  { SourceTree.ofVolume root w.volume with pinned := w.pinned }

namespace Work

def observe (t : SourceTree) (events : List Resolution.Event) : Work Unit := do
  let (t, lines) := t.visitAll events
  modify fun w => { w with pinned := t.pinned }
  log lines

def lookup (root : Path) (key : DeclarationKey) : Work (Option RecordDeclaration) := do
  let t := (← get).sources root
  observe t [.asked key]
  t.lookup key

def declaredNames (root : Path) (file : String) : Work (List String) := do
  let (t, lines) := ((← get).sources root).pinAll [file]
  modify fun w => { w with pinned := t.pinned }
  log lines
  t.names file

end Work

end TypeAtlas
