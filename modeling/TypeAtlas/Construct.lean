import TypeAtlas.Text.Parts

/-! # Type constructs

Which constructs of a type declaration a graph can hold, fully or in part, and how a construct that
it cannot hold is described.
-/

namespace TypeAtlas

inductive SupportStatus where
  | supported
  | partly
  | unsupported
deriving DecidableEq, Inhabited, Repr

def SupportStatus.name : SupportStatus → String
  | supported => "supported"
  | partly => "partial"
  | unsupported => "unsupported"

structure Support where
  status : SupportStatus
  notes : Option String := none
deriving DecidableEq, Inhabited, Repr

namespace Construct

/-- The constructs that are known by name. -/
def supportTable : List (String × Support) := [
  ("primitive", ⟨.supported, none⟩),
  ("literal", ⟨.supported, none⟩),
  ("enum", ⟨.supported, none⟩),
  ("array", ⟨.supported, none⟩),
  ("tuple", ⟨.supported, none⟩),
  ("object", ⟨.supported, some "Interfaces and type literals"⟩),
  ("union", ⟨.supported, some "Members must share one kind category"⟩),
  ("intersection", ⟨.supported, some "Object members are merged; conflicts are reported"⟩),
  ("recursive", ⟨.supported, some "Via recursive_ref nodes"⟩),
  ("generic", ⟨.partly, some "Only when fully instantiated with concrete types"⟩),
  ("conditional", ⟨.partly, some "Only if already reduced to a concrete form"⟩),
  ("mapped", ⟨.partly, some "Only if already reduced to a concrete object shape"⟩),
  ("template_literal", ⟨.partly, some "Resolved to string"⟩),
  ("index_signature", ⟨.unsupported, some "No IR variant for index signatures"⟩),
  ("function", ⟨.unsupported, none⟩),
  ("call_signature", ⟨.unsupported, none⟩),
  ("constructor", ⟨.unsupported, none⟩),
  ("indexed_access", ⟨.unsupported, some "Must be resolved before extraction"⟩),
  ("infer", ⟨.unsupported, none⟩),
  ("this", ⟨.unsupported, none⟩),
  ("symbol", ⟨.unsupported, none⟩),
  ("never", ⟨.unsupported, some "Cannot be represented in a structural schema"⟩),
  ("void", ⟨.unsupported, some "Use undefined instead"⟩),
  ("any", ⟨.unsupported, some "Violates deterministic extraction"⟩),
  ("unknown", ⟨.unsupported, some "Too broad for structural extraction"⟩)]

def support? (construct : String) : Option Support :=
  (supportTable.find? fun e => e.1 == construct).map Prod.snd

def isSupported (construct : String) : Bool :=
  (support? construct).any fun s => s.status == .supported

def describe (construct : String) (detail : Option String := none) : String :=
  let text := match detail with
    | none => construct
    | some d => construct ++ " (" ++ d ++ ")"
  match (support? construct).bind Support.notes with
  | none => text
  | some notes => text ++ "; " ++ notes

end Construct

end TypeAtlas
