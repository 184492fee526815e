namespace Qualify

/-- What in the program asks for a constraint. -/
inductive Rule where
  | declaration
  | assignment
  | fieldWrite
  | argument
  | receiver
  | typeArgument
  | typeArgumentBound
  | returned
  | cast
  | comparison
  | refinement
  | merge
  | select
  | preference
  | external
deriving DecidableEq

namespace Rule

def all : List Rule :=
  [declaration, assignment, fieldWrite, argument, receiver, typeArgument, typeArgumentBound,
    returned, cast, comparison, refinement, merge, select, preference, external]

def text : Rule → String
  | declaration => "declaration"
  | assignment => "assignment"
  | fieldWrite => "field_write"
  | argument => "argument"
  | receiver => "receiver"
  | typeArgument => "type_argument"
  | typeArgumentBound => "type_argument_bound"
  | returned => "return"
  | cast => "cast"
  | comparison => "comparison"
  | refinement => "refinement"
  | merge => "merge"
  | select => "select"
  | preference => "preference"
  | external => "external"

def ofText? (s : String) : Option Rule := all.find? (·.text == s)

end Rule

structure Provenance where
  unit : String
  position : String
  rule : Rule
deriving DecidableEq

namespace Provenance

/-- For constraints that come from outside of the program. -/
def external (position : String) : Provenance := ⟨"<external>", position, .external⟩

def text (p : Provenance) : String := p.unit ++ ":" ++ p.position

end Provenance

end Qualify
