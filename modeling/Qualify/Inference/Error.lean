import Qualify.Diagnostic
import Qualify.Encoding.Decode
import Qualify.Generation.Trace
import Qualify.Store.Simplify

namespace Qualify

inductive InferenceError where
  | generation (unit : String) (cause : GenerationError)
  | store (unit : String) (cause : StoreError)
  | contradiction (cause : Contradiction)
  /-- The core lists constraints that cannot hold together, if they are known. -/
  | unsatisfiable (core : List ConstraintId)
  | solver (name : String) (cause : SolverError)
  | encode (cause : EncodeError)
  | decode (cause : DecodeError)
  | cannotWrite (path reason : String)
deriving DecidableEq

namespace InferenceError

def message : InferenceError → String
  | generation unit cause => "unit `" ++ unit ++ "`: " ++ cause.message
  | store unit cause => "unit `" ++ unit ++ "`: " ++ cause.message
  | contradiction cause => cause.message
  | unsatisfiable _ => "constraints are unsatisfiable"
  | solver name cause => "backend `" ++ name ++ "`: " ++ cause.message
  | encode cause => cause.message
  | decode cause => cause.message
  | cannotWrite path reason => "cannot write " ++ path ++ ": " ++ reason

def kind : InferenceError → String
  | generation .. => "Generation"
  | store .. => "Store"
  | contradiction _ => "Contradiction"
  | unsatisfiable _ => "Unsatisfiable"
  | solver .. => "Backend"
  | encode _ => "Encode"
  | decode _ => "Decode"
  | cannotWrite .. => "Io"

def causeKind? : InferenceError → Option String
  | generation _ cause => some cause.kind
  | store _ cause => some cause.kind
  | solver _ cause => some cause.kind
  | decode cause => some cause.kind
  | _ => none

def locations : InferenceError → List String
  | generation unit _ | store unit _ => [unit]
  | contradiction cause => cause.locations
  | _ => []

def constraints : InferenceError → List ConstraintId
  | contradiction cause => cause.related
  | unsatisfiable core => core
  | encode cause => [cause.constraint]
  | decode (.violated c) => [c]
  | _ => []

def diagnostic (e : InferenceError) : Diagnostic :=
  { severity := .error, message := e.message, locations := e.locations,
    constraints := e.constraints }

end InferenceError

structure InferenceFailure where
  error : InferenceError
  diagnostics : List Diagnostic

/-- The error is the last thing to be said. -/
def InferenceFailure.after (diagnostics : List Diagnostic) (error : InferenceError) :
    InferenceFailure :=
  ⟨error, diagnostics ++ [error.diagnostic]⟩

end Qualify
