import Qualify.Generation.Units
import Qualify.Inference.Error

namespace Qualify

/-- The constraints of a program, ready to be solved. -/
structure Generated where
  store : ConstraintStore := {}
  diagnostics : List Diagnostic := []
  /-- Number of units. -/
  units : Nat := 0
  /-- The units that were left out. -/
  skipped : List String := []

/-- What reading a unit gave, or nothing if it was not read any more. -/
abbrev UnitResult := Option (Except GenerationError UnitConstraints)

namespace Generated

def absorbed (g : Generated) (unit : String) :
    Except GenerationError UnitConstraints → Except InferenceError Generated
  | .error e => .error (.generation unit e)
  | .ok c =>
    match g.store.absorb c with
    | .ok (_, store) => .ok { g with store }
    | .error e => .error (.store unit e)

def skip (g : Generated) (unit : String) (e : InferenceError) : Generated :=
  { g with
    diagnostics := g.diagnostics ++
      [{ severity := .warning, message := "skipped: " ++ e.message, locations := [unit] }]
    skipped := g.skipped ++ [unit] }

def add (failFast : Bool) (g : Generated) (unit : String) :
    UnitResult → Except InferenceFailure Generated
  | none => .ok g
  | some result =>
    match g.absorbed unit result with
    | .ok g => .ok g
    | .error e => if failFast then .error (.after g.diagnostics e) else .ok (g.skip unit e)

def addAll (failFast : Bool) :
    Generated → List (String × UnitResult) → Except InferenceFailure Generated
  | g, [] => .ok g
  | g, (unit, result) :: rest => do addAll failFast (← g.add failFast unit result) rest

/-- Reads units one after the other; after a failure no more are read if it is fatal. -/
def readUnits (failFast : Bool) (types : TypeSystem) (p : Program) :
    List CodeUnit → List (String × UnitResult)
  | [] => []
  | u :: us =>
    match generate types p u with
    | .ok c => (u.name, some (.ok c)) :: readUnits failFast types p us
    | .error e =>
      (u.name, some (.error e)) ::
        if failFast then us.map fun u => (u.name, none) else readUnits failFast types p us

/-- The constraints of a program: those of its units, in the order of the units. -/
def ofProgram (failFast : Bool) (types : TypeSystem) (p : Program) :
    Except InferenceFailure Generated :=
  match p.duplicateUnit? with
  | some name => .error (.after [] (.generation name (.duplicateUnit name)))
  | none => addAll failFast { units := p.units.length } (readUnits failFast types p p.units)

end Generated

end Qualify
