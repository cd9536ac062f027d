import TypeAtlas.Datum
import TypeAtlas.Text.Lines
import TypeAtlas.Text.Word

/-! # Tags and comments

Annotations of declarations and fields. In a comment a tag starts with `@` at the beginning of a line.
Its payload runs until the next tag, with the lines joined by single blanks; text before the first tag
is ignored. A recognised tag carries its structured payload.
-/

namespace TypeAtlas

structure Tag where
  name : String
  /-- The payload as written. -/
  rawArguments : String := ""
  /-- The structured payload; absent when the tag is not recognised. -/
  parsed : Option (List (String × Datum)) := none
deriving DecidableEq, Inhabited

/-- A tag as it stands in a comment. -/
structure RawTag where
  name : String
  payload : String
deriving DecidableEq, Inhabited, Repr

namespace Tag

def toFields (t : Tag) : List (String × Datum) :=
  [("name", .text t.name), ("raw_arguments", .text t.rawArguments),
    ("parsed", Datum.optional .record t.parsed)]

/-- What a digest covers of a tag. -/
def payload (t : Tag) : Datum :=
  .list [.text t.name, .text t.rawArguments, Datum.optional .record t.parsed]

end Tag

def RawTag.render (t : RawTag) : String :=
  if t.payload = "" then "@" ++ t.name else "@" ++ t.name ++ " " ++ t.payload

/-! ## Comments -/

namespace Comment

def dropOpening (cs : List Char) : List Char :=
  match Text.trimStart cs with
  | '/' :: '*' :: '*' :: rest => rest
  | '/' :: '*' :: rest => rest
  | _ => cs

def dropClosing (cs : List Char) : List Char :=
  match (Text.trimEnd cs).reverse with
  | '/' :: '*' :: rest => rest.reverse
  | _ => cs

/-- A line without the star in front of it and one blank after that star. A star that belongs to a
closing is kept. -/
def dropStar (line : List Char) : List Char :=
  match Text.trimStart line with
  | ['*'] => []
  | '*' :: c :: rest =>
    if c = '/' then line else if Text.isBlank c then rest else c :: rest
  | _ => line

def lines (cs : List Char) : List (List Char) :=
  (Text.splitLines (dropClosing (dropOpening cs))).map fun l => Text.trim (dropStar l)

/-- The letters and the low line of ASCII, with which a name starts. -/
def startsName (c : Char) : Bool := c.isAlpha || c == '_'

def continuesName (c : Char) : Bool := Text.isWord c || c == '-'

/-- The name and the first part of the payload of a line that starts a tag. -/
def tagLine? : List Char → Option (List Char × List Char)
  | '@' :: c :: rest =>
    if startsName c then
      let name := c :: rest.takeWhile continuesName
      match rest.dropWhile continuesName with
      | [] => some (name, [])
      | b :: after => if Text.isBlank b then some (name, Text.trimStart after) else none
    else none
  | _ => none

/-- A tag and the parts of its payload, the last one first. -/
structure Draft where
  name : List Char
  parts : List (List Char)

/-- The tag that a draft amounts to. -/
def Draft.finish (d : Draft) : RawTag where
  name := String.ofList d.name
  payload := Text.join " " ((d.parts.reverse.filter (· ≠ [])).map String.ofList)

/-- Adds a line to the drafts, of which the latest stands first. -/
def addLine (drafts : List Draft) (line : List Char) : List Draft :=
  match tagLine? line with
  | some (name, part) => ⟨name, [part]⟩ :: drafts
  | none =>
    match drafts with
    | [] => []
    | d :: ds => if line.isEmpty then d :: ds else ⟨d.name, line :: d.parts⟩ :: ds

def splitTags (comment : String) : List RawTag :=
  (((lines comment.toList).foldl addLine []).map Draft.finish).reverse

end Comment

end TypeAtlas
