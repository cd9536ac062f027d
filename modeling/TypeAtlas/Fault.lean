import TypeAtlas.Files.Volume
import TypeAtlas.Json.Writer
import TypeAtlas.Schema.Basic

/-! # Faults

Why an operation gives no answer at all. Most of what can be wrong with a declaration is not a
fault but a diagnostic.
-/

namespace TypeAtlas

inductive ConfigError where
  | malformed (file : String)
  | invalid (file : String) (issues : List Issue)
  | emptyCacheDir
  | absoluteCacheDir
  | rootCacheDir
  | escapingCacheDir (dir : String)
  | unresolvedCacheDir (dir : String)
deriving Inhabited, Repr

inductive Fault where
  | unsupportedAlgorithm (name : String)
  | unknownKey (name : String)
  | unknownReportMode (name : String)
  | unknownCoreTags (names : List String)
  /-- A failure without a diagnostic. -/
  | noDiagnostics
  | deadlineExpired (seconds : Number)
  /-- A record that lacks a field. -/
  | missingField (name : String)
  /-- A value that cannot be written, or one of the wrong type. -/
  | unwritable (e : Json.WriteError)
  | wrongType
  /-- A value that has no fields where fields are looked up. -/
  | notARecord
  /-- A recursive reference past the enclosing targets. -/
  | noEnclosingTarget
  | nestingTooDeep
  | invalid (issues : List Issue)
  | config (e : ConfigError)
  /-- A pattern of an ignore file of which nothing is left. -/
  | emptyIgnoreRule
  | file (e : FileError)
  /-- A cache that is to be looked at does not exist, or is not a directory. -/
  | noCache (directory : String)
  | cacheNotDirectory (path : String)
  | notUtf8
  /-- An integer of more digits than are read or shown, with their number where it is read. -/
  | tooManyDigits (digits : Option Nat)
deriving Inhabited, Repr

namespace ConfigError

def message : ConfigError → String
  | malformed file => "Invalid TOML in " ++ file
  | invalid file _ => "Invalid config in " ++ file
  | emptyCacheDir => "cache_dir must be a non-empty relative path"
  | absoluteCacheDir => "cache_dir must be a relative path within the repo root"
  | rootCacheDir => "cache_dir must not be the repository root itself"
  | escapingCacheDir dir => "cache_dir '" ++ dir ++ "' escapes the repository root"
  | unresolvedCacheDir dir => "Failed to resolve cache_dir '" ++ dir ++ "'"

end ConfigError

namespace Fault

def message : Fault → Option String
  | unsupportedAlgorithm name => some ("Unsupported hash algorithm: " ++ Text.quote name)
  | unknownKey name => some ("Unknown diagnostic key: " ++ Text.quote name)
  | unknownReportMode name => some ("Unknown report mode: " ++ Text.quote name)
  | unknownCoreTags names => some ("Unknown core tags enabled: " ++ Text.join ", " names)
  | noDiagnostics => some "err() requires at least one diagnostic"
  | deadlineExpired seconds => some ("deadline of " ++ seconds.text ++ " seconds expired")
  | missingField name => some (Text.quote name)
  | noEnclosingTarget => some "tuple index out of range"
  | emptyIgnoreRule => some "string index out of range"
  | noCache directory => some ("Cache directory does not exist: " ++ directory)
  | cacheNotDirectory path => some ("Cache path is not a directory: " ++ path)
  | config e => some e.message
  | file .nullCharacter => some FileError.nullCharacter.reason
  | tooManyDigits digits => some ("Exceeds the limit (" ++ toString maxDecimalDigits ++
      " digits) for integer string conversion" ++
      (match digits with
        | some n => ": value has " ++ toString n ++ " digits"
        | none => "") ++ "; use sys.set_int_max_str_digits() to increase the limit")
  | _ => none

end Fault

/-- The result of a step that may be at fault. -/
abbrev Attempt (α : Type) := Except Fault α

/-- A text that could be written, or the fault that it could not. -/
def Attempt.ofWrite {α : Type} : Except Json.WriteError α → Attempt α
  | .ok a => .ok a
  | .error e => .error (.unwritable e)

end TypeAtlas
