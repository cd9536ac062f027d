import TypeAtlas.Command.Invocation
import TypeAtlas.Repository.Validation
import TypeAtlas.Repository.Verification

/-! # Running an invocation

An invocation acts on a workspace and leaves an exit status, an output and messages. The messages
are the log, as far as it is shown, and then the report.
-/

namespace TypeAtlas

structure Surroundings where
  digester : Digester
  /-- The directory that `~` stands for. -/
  home : Path
  /-- The readings of the clock that a deadline takes. -/
  clock : Clock := .still
  /-- The time and the run that log lines show. -/
  time : String
  run : String

structure CommandResult where
  exit : Nat
  output : String := ""
  messages : String := ""
deriving DecidableEq, Inhabited, Repr

namespace CommandResult

def success : Nat := 0

/-- Something is wrong with a declaration or a cache. -/
def failure : Nat := 1

/-- The operation could not be started. -/
def unusable : Nat := 2

def status (ok : Bool) : Nat := if ok then success else failure

def refuse (reason : String) : CommandResult := ⟨unusable, "", "error: " ++ reason ++ "\n"⟩

end CommandResult

namespace Command

def lines (ss : List String) : String := ss.foldl (fun acc s => acc ++ s ++ "\n") ""

/-- The absolute path without links that an argument names. A leading `~` is the home directory. -/
def path (e : Surroundings) (v : Volume) (s : String) : Path :=
  let p := Path.ofString s
  match p.anchor, p.segments with
  | .relative, "~" :: rest => v.resolve { e.home with segments := e.home.segments ++ rest }
  | _, _ => v.resolve p

/-- The cache directory: the one that the command line names, wherever that is, or the configured
one. -/
def cacheDirectory (e : Surroundings) (root : Path) (config : Config) (named : Option String) :
    Work Path := do
  let v := (← get).volume
  match named with
  | some s => return path e v s
  | none => Config.resolveCacheDir v root config.cacheDir

/-- The report of an outcome; nothing if there is nothing to report. -/
def report (mode : ReportMode) (ds : List Diagnostic) : Attempt String :=
  if ds.isEmpty then .ok ""
  else (Attempt.ofWrite (Report.format mode ds)).map (· ++ "\n")

def request (e : Surroundings) (config : Config) (file symbol : String)
    (timeout : Option Binary64) : ExtractionRequest where
  file := (Path.ofString file).toString
  symbol
  vocabulary := config.vocabulary
  algorithm := config.hashAlgorithm
  maxNodes := config.maxNodes
  timeout := match timeout with
    | some x =>
      if (Number.float x).same (.int 0) then config.timeoutSeconds.map .float else some (.float x)
    | none => config.timeoutSeconds.map .float
  clock := e.clock

def extract (e : Surroundings) (mode : ReportMode) (root : Path) (config : Config)
    (file symbol : String) (useCache : Bool) (timeout : Option Binary64) : Work CommandResult := do
  let cache ← if useCache then do
      let directory ← cacheDirectory e root config none
      pure (some ⟨directory, ← Algorithm.named config.hashAlgorithm⟩)
    else pure none
  let r ← Work.withFreshSources
    ((request e config file symbol timeout).extractSource e.digester root cache)
  let messages ← liftM (report mode r.diagnostics)
  let output ← match r.value with
    | none => pure ""
    | some x => liftM ((Attempt.ofWrite (Json.indented x.toDatum)).map (· ++ "\n"))
  return ⟨CommandResult.status r.ok, output, messages⟩

def index (e : Surroundings) (mode : ReportMode) (root : Path) (config : Config)
    (cacheDir : Option String) : Work CommandResult := do
  let out ← cacheDirectory e root config cacheDir
  let r ← indexRepository e.digester root out config e.clock
  let messages ← liftM (report mode r.diagnostics)
  let output := match r.value with
    | none => ""
    | some m => lines [writeInt m.symbolCount ++ " symbols in " ++ writeInt m.fileCount ++
        " files, " ++ toString m.failedSymbols.length ++ " failed"]
  return ⟨CommandResult.status r.ok, output, messages⟩

/-- Validates the cache: one line for every warning and every error. -/
def validate (e : Surroundings) (root : Path) (config : Config) (cacheDir : Option String) :
    Work CommandResult := do
  let directory ← cacheDirectory e root config cacheDir
  let r ← liftM (validateCache e.digester (← get).volume directory)
  return ⟨CommandResult.status r.ok, "", lines
    (r.warnings.map (fun n => "warning: " ++ n.render) ++ r.errors.map ValidationNote.render)⟩

/-- One line for every file that differs. -/
def differences (c : CacheComparison) : String :=
  lines (c.missing.map ("missing: " ++ ·) ++ c.extra.map ("extra: " ++ ·) ++
    c.mismatches.map ("mismatches: " ++ ·))

def verify (e : Surroundings) (root : Path) (config : Config) (cacheDir : Option String) :
    Work CommandResult := do
  let directory ← cacheDirectory e root config cacheDir
  let refusal (f : Fault) : CommandResult :=
    let r := CommandResult.refuse (f.message.getD "")
    { r with messages := "cache-dir: " ++ directory.toString ++ "\n" ++ r.messages }
  try
    let c ← verifyDeterminism e.digester root directory (some config) e.clock
    return ⟨CommandResult.status c.ok, "", differences c⟩
  catch
    | .noCache d => return refusal (.noCache d)
    | .cacheNotDirectory p => return refusal (.cacheNotDirectory p)
    | f => throw f

def runOperation (e : Surroundings) (mode : ReportMode) (root : Path) (config : Config) :
    Operation → Work CommandResult
  | .extract file symbol useCache timeout =>
    extract e mode root config file symbol useCache timeout
  | .index cacheDir => index e mode root config cacheDir
  | .validate cacheDir => validate e root config cacheDir
  | .verify cacheDir => verify e root config cacheDir

def shownLog (e : Surroundings) (level : LogLevel) (log : List LogLine) : String :=
  lines ((log.filter (·.shownAt level.weight)).map fun l => l.render e.time e.run)

/-- What is wrong with a configuration is reported; any other fault stands. -/
def orRefuse (x : Work CommandResult) : Work CommandResult := do
  try x
  catch
    | .config c => return CommandResult.refuse c.message
    | f => throw f

end Command

open Command in
def Invocation.run (e : Surroundings) (i : Invocation) : Work CommandResult :=
  orRefuse do
    let v := (← get).volume
    let root := path e v i.root
    let config ← liftM (Config.load v root)
    modify fun w => { w with log := #[] }
    let r ← runOperation e i.report root config i.operation
    let log := shownLog e (i.logLevel.getD config.logLevel) (← get).log.toList
    return { r with messages := log ++ r.messages }

end TypeAtlas
