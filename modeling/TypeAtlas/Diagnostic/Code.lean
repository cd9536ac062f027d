import TypeAtlas.Diagnostic.Basic

/-! # Diagnostic codes

The closed catalogue of codes. Their thousands group them by stage: resolution, structure,
annotation and determinism.
-/

namespace TypeAtlas

inductive DiagnosticKey where
  | typeUnsupported
  | typeUnresolved
  | ioFailure
  | resolutionTimeout
  | resolutionLimit
  | unionHeterogeneous
  | intersectionConflict
  | recursionCycle
  | compositeCollapsed
  | tagUnknown
  | tagMalformed
  | tagDuplicate
  | tagIncompatibleType
  | tagFieldNotFound
  | hashUnstableInput
  | cacheCorrupted
deriving DecidableEq, Inhabited, Repr

structure CodeEntry where
  name : String
  number : Nat
  category : Category
  /-- The message, with `%s` where an argument goes. -/
  template : String

namespace DiagnosticKey

def all : List DiagnosticKey := [
  typeUnsupported, typeUnresolved, ioFailure, resolutionTimeout, resolutionLimit,
  unionHeterogeneous, intersectionConflict, recursionCycle, compositeCollapsed,
  tagUnknown, tagMalformed, tagDuplicate, tagIncompatibleType, tagFieldNotFound,
  hashUnstableInput, cacheCorrupted]

def entry : DiagnosticKey → CodeEntry
  | typeUnsupported =>
    ⟨"TYPE_UNSUPPORTED", 1001, .error, "Unsupported TypeScript construct: %s"⟩
  | typeUnresolved => ⟨"TYPE_UNRESOLVED", 1002, .error, "Unable to resolve type: %s"⟩
  | ioFailure => ⟨"IO_FAILURE", 1003, .error, "I/O failure for %s: %s"⟩
  | resolutionTimeout =>
    ⟨"RESOLUTION_TIMEOUT", 1004, .error, "Extraction timed out after %s seconds: %s"⟩
  | resolutionLimit =>
    ⟨"RESOLUTION_LIMIT", 1005, .error, "Type graph exceeds node budget of %s: %s"⟩
  | unionHeterogeneous =>
    ⟨"UNION_HETEROGENEOUS", 2001, .error, "Union must be homogeneous; offending member: %s"⟩
  | intersectionConflict =>
    ⟨"INTERSECTION_CONFLICT", 2002, .error, "Conflicting property in intersection: %s"⟩
  | recursionCycle =>
    ⟨"RECURSION_CYCLE", 2003, .error, "Recursive type detected without resolvable $ref at: %s"⟩
  | compositeCollapsed =>
    ⟨"COMPOSITE_COLLAPSED", 2004, .info, "Single-member %s collapsed to its member: %s"⟩
  | tagUnknown => ⟨"TAG_UNKNOWN", 3001, .warning, "Unknown JSDoc tag: %s"⟩
  | tagMalformed => ⟨"TAG_MALFORMED", 3002, .error, "Malformed or invalid JSDoc tag: %s"⟩
  | tagDuplicate => ⟨"TAG_DUPLICATE", 3003, .warning, "Duplicate JSDoc tag ignored: %s"⟩
  | tagIncompatibleType =>
    ⟨"TAG_INCOMPATIBLE_TYPE", 3005, .error, "JSDoc tag %s cannot be applied to type %s"⟩
  | tagFieldNotFound =>
    ⟨"TAG_FIELD_NOT_FOUND", 3006, .error, "Field %s named by %s does not exist"⟩
  | hashUnstableInput =>
    ⟨"HASH_UNSTABLE_INPUT", 4001, .error, "Non-deterministic input detected during hashing: %s"⟩
  | cacheCorrupted =>
    ⟨"CACHE_CORRUPTED", 4002, .warning, "Cache entry is corrupted and was ignored: %s"⟩

def name (k : DiagnosticKey) : String := k.entry.name

def ofName? (s : String) : Option DiagnosticKey := all.find? fun k => k.name == s

def code (k : DiagnosticKey) : String :=
  "ADTK-IR-" ++ String.ofList (padded 4 k.entry.number)

def documentation : String := "https://afterdark.dev/errors"

/-- A base address without the slashes at its end. -/
def trimSlashes (base : String) : String :=
  String.ofList (base.toList.reverse.dropWhile (· == '/')).reverse

def urlUnder (k : DiagnosticKey) (base : String) : String := trimSlashes base ++ "/" ++ k.code

def helpUrl (k : DiagnosticKey) : String := k.urlUnder documentation

end DiagnosticKey

/-- The stage that a code belongs to, by the first digit of its number. -/
def stageOf (code : String) : String :=
  match Text.afterLast '-' code.toList with
  | '1' :: _ => "resolution"
  | '2' :: _ => "structure"
  | '3' :: _ => "annotation"
  | '4' :: _ => "determinism"
  | _ => "unknown"

/-- A template with its places filled in order. An argument that is missing or null leaves a
mark. -/
def fillTemplate : List Char → List Datum → List Char
  | '%' :: 's' :: rest, args =>
    match args with
    | [] => "<missing>".toList ++ fillTemplate rest []
    | .null :: args => "<missing>".toList ++ fillTemplate rest args
    | d :: args => d.display.toList ++ fillTemplate rest args
  | c :: rest, args => c :: fillTemplate rest args
  | [], _ => []

def formatMessage (template : String) (args : List Datum) : String :=
  String.ofList (fillTemplate template.toList args)

def Diagnostic.make (key : DiagnosticKey) (args : List Datum) (location : Option Place := none)
    (context : Option Context := none) : Diagnostic where
  code := key.code
  category := key.entry.category
  message := formatMessage key.entry.template args
  helpUrl := some key.helpUrl
  location := location
  context := context

end TypeAtlas
