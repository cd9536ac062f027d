import TypeAtlas.Fault
import TypeAtlas.Text.Lines
import TypeAtlas.Text.Wildcard

/-! # Ignore files

The rules by which the files of a repository are left out. Every line of an ignore file is a rule
for paths from its directory: a pattern, which an exclamation mark at the start turns into an
exception. Where there are exceptions the last rule that applies decides.
-/

namespace TypeAtlas

open Text

structure IgnoreRule where
  negated : Bool
  /-- Whether the pattern starts where the path starts, and not after any slash of it. -/
  anchored : Bool
  /-- Whether the pattern is that of a directory. -/
  directory : Bool
  pattern : Wildcard
deriving DecidableEq, Inhabited, Repr

namespace IgnoreRule

/-- What can follow a pattern in a path. -/
def ends (r : IgnoreRule) (rest : List Char) : Bool :=
  if !r.directory then rest.isEmpty
  else if r.negated then rest == ['/']
  else rest.isEmpty || rest.head? == some '/'

def appliesTo (r : IgnoreRule) (path : String) : Bool :=
  let cs := path.toList
  let starts := if r.anchored then [cs] else cs :: Wildcard.afterSlashes cs
  starts.any fun s => Wildcard.accepts r.ends r.pattern s

/-- Two or more stars in a row mean directories only between slashes or at the ends; elsewhere they
are one star. The fuel bounds the length. -/
def foldStars : Nat → Option Char → List Char → List Char
  | 0, _, _ => []
  | fuel + 1, before, cs =>
    match cs with
    | [] => []
    | '*' :: '*' :: rest =>
      let rest := rest.dropWhile (· == '*')
      let bounded := before.all (· == '/') && rest.head?.all (· == '/')
      (if bounded then ['*', '*'] else ['*']) ++ foldStars fuel (some '*') rest
    | c :: rest => c :: foldStars fuel (some c) rest

/-- Drops the blanks at the end, from a position down to the third character. A blank after a
backslash stays, without the backslash, and so do the ones before it. -/
def dropBlanks : Nat → Bool → List Char → List Char
  | i + 2, dropping, cs =>
    if cs[i + 2]? = some ' ' then
      if cs[i + 1]? = some '\\' then dropBlanks i false (cs.eraseIdx (i + 1))
      else dropBlanks (i + 1) dropping (if dropping then cs.take (i + 2) else cs)
    else cs
  | _, _, cs => cs

/-- Reads a pattern whose stars keep to one segment; the fuel bounds its length. A class that lists
nothing but slashes has no meaning. -/
def readPattern : Nat → List Char → Option Wildcard
  | 0, _ => some []
  | fuel + 1, cs =>
    match cs with
    | [] => some []
    | '*' :: '*' :: '/' :: rest => (readPattern fuel rest).map (.directories :: ·)
    | '*' :: '*' :: rest => (readPattern fuel rest).map (.many :: ·)
    | '*' :: rest => (readPattern fuel rest).map (.manyWithin :: ·)
    | '?' :: rest => (readPattern fuel rest).map (.oneWithin :: ·)
    | '[' :: rest =>
      match Wildcard.cutClass rest with
      | some (inside, after) =>
        match inside.filter (· != '/') with
        | [] => none
        | inside => (readPattern fuel after).map (.class_ (CharClass.read inside) :: ·)
      | none => (readPattern fuel rest).map (.char '[' :: ·)
    | c :: rest => (readPattern fuel rest).map (.char c :: ·)

/-- The text after a leading slash, if there is one. -/
def dropSlash : List Char → List Char
  | '/' :: rest => rest
  | cs => cs

/-- A backslash before a leading number sign or exclamation mark is dropped; on its own it has no
meaning. -/
def dropEscape : List Char → Option (List Char)
  | [] | ['\\'] => none
  | '\\' :: c :: rest => some (if c = '#' || c = '!' then c :: rest else '\\' :: c :: rest)
  | cs => some cs

/-- The rule of a pattern with its stars folded. A pattern of which nothing is left has no
meaning. -/
def ofPattern (negated : Bool) (cs : List Char) : Option IgnoreRule := do
  let directory := (← cs.getLast?) == '/'
  let inner := dropSlash cs
  let anywhere := inner.take 2 == ['*', '*']
  let anchored := cs.dropLast.contains '/' && !anywhere
  let body := dropSlash (if anywhere then inner.drop 2 else inner)
  let body ← dropEscape (if (← body.getLast?) == '/' then body.dropLast else body)
  let body := dropBlanks (body.length - 1) true body
  return { negated, anchored, directory, pattern := ← readPattern body.length body }

/-- The rule of a line, if the line is not empty and not a comment. -/
def ofLine (line : List Char) : Attempt (Option IgnoreRule) :=
  if line.all isBlank || line.head? == some '#' then .ok none
  else
    let (negated, cs) := match line with
      | '!' :: rest => (true, rest)
      | cs => (false, cs)
    let cs := foldStars (cs.length + 1) none cs
    if trimEnd cs = ['/'] then .ok none
    else match ofPattern negated cs with
      | some r => .ok (some r)
      | none => .error .emptyIgnoreRule

end IgnoreRule

abbrev IgnoreRules := List IgnoreRule

namespace IgnoreRules

/-- The lines of a text; carriage returns end lines, too. -/
def lines : List Char → List (List Char) → List Char → List (List Char)
  | current, done, [] => (done.reverse ++ [current.reverse])
  | current, done, '\r' :: '\n' :: rest => lines [] (current.reverse :: done) rest
  | current, done, c :: rest =>
    if c = '\n' || c = '\r' then lines [] (current.reverse :: done) rest
    else lines (c :: current) done rest

def read (content : ByteArray) : Attempt IgnoreRules := do
  match String.fromUTF8? content with
  | none => throw .notUtf8
  | some s => return (← (lines [] [] s.toList).mapM IgnoreRule.ofLine).filterMap id

def ignores (rs : IgnoreRules) (path : String) : Bool :=
  if rs.any IgnoreRule.negated then
    match rs.reverse.find? fun r => r.appliesTo path with
    | some r => !r.negated
    | none => false
  else rs.any fun r => r.appliesTo path

end IgnoreRules

end TypeAtlas
