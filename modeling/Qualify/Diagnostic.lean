import Qualify.Constraint.Basic
import Qualify.Json.Basic

namespace Qualify

inductive Severity where
  | error
  | warning
  | note
deriving DecidableEq

def Severity.text : Severity → String
  | error => "error"
  | warning => "warning"
  | note => "note"

structure Diagnostic where
  severity : Severity
  message : String
  locations : List String := []
  constraints : List ConstraintId := []
deriving DecidableEq

namespace Diagnostic

def isError (d : Diagnostic) : Bool := d.severity == .error

/-- The message, then a line for each place, and one for the constraints if there are any. -/
def text (d : Diagnostic) : String :=
  let places := d.locations.map ("\n  at " ++ ·)
  let related := if d.constraints.isEmpty then ""
    else "\n  constraints: " ++ ", ".intercalate (d.constraints.map ConstraintId.text)
  d.severity.text ++ ": " ++ d.message ++ String.join places ++ related

def toJson (d : Diagnostic) : Json :=
  .object [("severity", .string d.severity.text), ("message", .string d.message),
    ("locations", .ofList .string d.locations),
    ("related_constraints", .ofList (fun (c : ConstraintId) => .ofNat c.index) d.constraints),
    ("display", .string d.text)]

end Diagnostic

end Qualify
