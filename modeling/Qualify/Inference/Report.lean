import Qualify.Inference.Run

namespace Qualify

def RunStats.toJson (s : RunStats) : Json :=
  .object [("units", .ofNat s.units), ("skipped_units", .ofNat s.skippedUnits),
    ("slots", .ofNat s.slots), ("variable_slots", .ofNat s.variableSlots),
    ("constraints", .ofNat s.constraints), ("discharged", .ofNat s.discharged),
    ("replaced", .ofNat s.replaced), ("active_constraints", .ofNat s.activeConstraints),
    ("vars", .ofNat s.vars), ("hard_clauses", .ofNat s.hardClauses),
    ("soft_clauses", .ofNat s.softClauses), ("deferred_preferences", .ofNat s.deferredPreferences),
    ("solver_calls", .ofNat s.solverCalls), ("cost", .ofNat s.cost.toNat)]

def ConstraintId.toJson (c : ConstraintId) : Json := .ofNat c.index

def errorMembers (kind message : String) : List (String × Json) :=
  [("error", .string kind), ("message", .string message)]

def Contradiction.members (c : Contradiction) : List (String × Json) :=
  errorMembers "Contradiction" c.message ++ [("constraint", c.constraint.toJson),
    ("related", .ofList ConstraintId.toJson c.related), ("locations", .ofList .string c.locations)]

def Contradiction.toJson (c : Contradiction) : Json := .object c.members

def InferenceError.members (e : InferenceError) : List (String × Json) :=
  match e with
  | .contradiction c => c.members
  | .unsatisfiable core =>
    errorMembers e.kind e.message ++ [("core", .ofList ConstraintId.toJson core)]
  | e => errorMembers e.kind e.message

def InferenceFailure.toJson (f : InferenceFailure) : Json :=
  .object (f.error.members ++
    [("source", .ofOption .string f.error.causeKind?),
      ("diagnostics", .ofList Diagnostic.toJson f.diagnostics)])

def InferenceResult.toJson (l : Lattice) (r : InferenceResult) : Json :=
  let name (i : SlotId) : Json :=
    .ofOption (fun q => .string (l.nameOf q)) (r.solution.value r.store i)
  .object [("annotations", r.solution.toJson r.store l),
    ("written", .ofNat (r.solution.insertions r.store l).length), ("stats", r.stats.toJson),
    ("solved", .ofNat r.solution.size), ("empty", .bool r.solution.isEmpty),
    ("values", .ofList name r.store.slots.ids),
    ("diagnostics", .ofList Diagnostic.toJson r.diagnostics),
    ("text", .string (r.solution.text r.store l)),
    ("dot", .string (r.store.graph l r.solution.get? {}))]

end Qualify
