import TypeAtlas.Graph.Record
import TypeAtlas.Normal.Normalization
import TypeAtlas.Resolution.Basic

/-! # Extraction passes

One pass from a declaration to its canonical graph and the hash of it: resolve, normalise, hash. A pass
whose time is over has no value and a single diagnostic.
-/

namespace TypeAtlas

structure Extraction where
  filePath : String
  symbol : String
  graph : CanonicalGraph
  /-- The structural hash; absent when the graph cannot be hashed stably. -/
  fingerprint : Option String
  /-- Whether it was taken from a cache. -/
  cached : Bool := false
deriving DecidableEq, Inhabited

namespace Extraction

def toDatum (e : Extraction) : Datum :=
  .record [("file_path", .text e.filePath), ("symbol", .text e.symbol), ("ir", e.graph.toDatum),
    ("fingerprint", Datum.optional .text e.fingerprint), ("cached", .bool e.cached)]

end Extraction

structure ExtractionRequest where
  file : String
  symbol : String
  vocabulary : Vocabulary := .standard
  algorithm : String := "sha256"
  maxNodes : Int := defaultMaxNodes
  timeout : Option Number := none
  clock : Clock := .still

/-- The result of a complete pass. -/
structure ExtractionPass where
  raw : Graph
  extraction : Extraction
  diagnostics : List Diagnostic

/-- What a pass got done after resolving names. -/
inductive PassStage where
  | resolved (nodes : Nat)
  | normalized (raw canonical : Nat)
  | refused
deriving DecidableEq, Inhabited, Repr

structure PassTrace where
  events : List Resolution.Event
  stages : List PassStage := []
deriving Inhabited

inductive PassEnd where
  | complete (pass : ExtractionPass)
  | timedOut (report : Diagnostic)

namespace ExtractionRequest

def timeoutReport (r : ExtractionRequest) (seconds : Number) : Diagnostic :=
  Diagnostic.make .resolutionTimeout [.number seconds, .text (r.file ++ ":" ++ r.symbol)]
    (some { filePath := some r.file, symbol := some r.symbol })

def finish (d : Digester) (r : ExtractionRequest) (resolved : Outcome Graph)
    (deadline : Option Deadline) : Attempt ExtractionPass × List PassStage :=
  let raw := resolved.value.getD default
  match Algorithm.named r.algorithm with
  | .error f => (.error f, [])
  | .ok a =>
    match raw.normalize d a deadline with
    | .error f => (.error f, [])
    | .ok normal =>
      let graph := normal.outcome.value.getD default
      let stages := [.normalized raw.nodes.size graph.nodes.size]
      match graph.toGraph.hash d a with
      | .error e => (.error (.unwritable e), stages)
      | .ok hash =>
        (.ok {
          raw
          extraction := { filePath := r.file, symbol := r.symbol, graph, fingerprint := hash.value }
          diagnostics := resolved.diagnostics ++ normal.outcome.diagnostics ++ hash.diagnostics },
          stages ++ if hash.ok then [] else [.refused])

def ending (r : ExtractionRequest) : Attempt ExtractionPass → Attempt PassEnd
  | .ok p => .ok (.complete p)
  | .error (.deadlineExpired seconds) => .ok (.timedOut (r.timeoutReport seconds))
  | .error f => .error f

def pass (d : Digester) (source : DeclarationSource) (r : ExtractionRequest) :
    Attempt PassEnd × PassTrace :=
  let deadline := r.timeout.map fun seconds => Deadline.start seconds r.clock
  let (resolved, trace) := resolve source r.vocabulary r.maxNodes r.file r.symbol deadline
  match resolved with
  | .error f => (r.ending (.error f), { events := trace.events })
  | .ok outcome =>
    let (done, stages) := finish d r outcome trace.deadline
    (r.ending done, {
      events := trace.events
      stages := .resolved (outcome.value.getD default).nodes.size :: stages })

def extract (d : Digester) (source : DeclarationSource) (r : ExtractionRequest) :
    Attempt (Outcome Extraction) :=
  (r.pass d source).1.map fun
    | .complete p => ⟨some p.extraction, p.diagnostics⟩
    | .timedOut report => ⟨none, [report]⟩

end ExtractionRequest

end TypeAtlas
