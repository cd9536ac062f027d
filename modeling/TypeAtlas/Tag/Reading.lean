import TypeAtlas.Tag.Comment
import TypeAtlas.Tag.Vocabulary
import TypeAtlas.Diagnostic.Outcome

/-! # Reading tags

The tags of a comment under a vocabulary. A tag outside the vocabulary is kept without a payload
and reported; a recognised tag that is malformed, or that repeats an earlier valid one, is dropped
and reported.
-/

namespace TypeAtlas

/-- Whether a payload stands where one may and has the right shape. -/
def Grammar.admits (g : Grammar) (payload : List Char) : Bool :=
  (match g.arity with
    | .required => !payload.isEmpty
    | .forbidden => payload.isEmpty
    | .optional => true) && (payload.isEmpty || g.accepts payload)

/-- The tag that a recognised name and payload make, if they fit the grammar. -/
def Grammar.tag? (g : Grammar) (raw : RawTag) : Attempt (Option Tag) :=
  if g.admits raw.payload.toList then
    (g.read raw.payload.toList).map fun read =>
      read.map fun fields => ⟨raw.name, raw.payload, some fields⟩
  else .ok none

namespace TagReading

/-- What has been read so far. -/
structure State where
  tags : List Tag := []
  /-- The recognised names of which a valid tag was read. -/
  seen : List String := []
  diagnostics : List Diagnostic := []

inductive Verdict where
  | unknown
  | duplicate
  | malformed
  | kept (tag : Tag)

/-- The payload of a tag is not read if an earlier one of the name is valid. -/
def verdict (v : Vocabulary) (seen : List String) (raw : RawTag) : Attempt Verdict :=
  match v.get? raw.name with
  | none => .ok .unknown
  | some g =>
    if seen.contains raw.name then .ok .duplicate
    else (g.tag? raw).map fun
      | none => .malformed
      | some tag => .kept tag

/-- Takes in one tag; `report` makes a diagnostic from its key and argument. -/
def take (report : DiagnosticKey → String → Diagnostic) (s : State) (raw : RawTag) :
    Verdict → State
  | .unknown =>
    { s with
      tags := s.tags ++ [⟨raw.name, raw.payload, none⟩]
      diagnostics := s.diagnostics ++ [report .tagUnknown ("@" ++ raw.name)] }
  | .duplicate =>
    { s with diagnostics := s.diagnostics ++ [report .tagDuplicate ("@" ++ raw.name)] }
  | .malformed => { s with diagnostics := s.diagnostics ++ [report .tagMalformed raw.render] }
  | .kept tag => { s with tags := s.tags ++ [tag], seen := raw.name :: s.seen }

def step (v : Vocabulary) (report : DiagnosticKey → String → Diagnostic) (s : State)
    (raw : RawTag) : Attempt State :=
  (verdict v s.seen raw).map (take report s raw)

end TagReading

/-- The tags of one comment, in textual order. A number that is too long is a fault. -/
def readTags (comment : Option String) (v : Vocabulary) (entity field : Option String)
    (location : Option Place) : Attempt (Outcome (List Tag)) :=
  match comment with
  | none => .ok (.success [])
  | some text =>
    let context : Option Context :=
      if entity.isNone && field.isNone then none else some { entity, field }
    let report key arg := Diagnostic.make key [.text arg] location context
    ((Comment.splitTags text).foldlM (TagReading.step v report) {}).map fun s =>
      ⟨some s.tags, s.diagnostics⟩

end TypeAtlas
