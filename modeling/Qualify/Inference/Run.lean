import Qualify.Encoding.Conflict
import Qualify.Formula.Dimacs
import Qualify.Inference.Config
import Qualify.Inference.Generated
import Qualify.Solver.Counted
import Qualify.Store.Graph

namespace Qualify

structure RunStats where
  units : Nat := 0
  skippedUnits : Nat := 0
  slots : Nat := 0
  variableSlots : Nat := 0
  constraints : Nat := 0
  discharged : Nat := 0
  replaced : Nat := 0
  activeConstraints : Nat := 0
  vars : Nat := 0
  hardClauses : Nat := 0
  softClauses : Nat := 0
  deferredPreferences : Nat := 0
  /-- All calls of the solver. -/
  solverCalls : Nat := 0
  cost : Weight := 0
deriving DecidableEq

structure InferenceResult where
  solution : Solution
  store : ConstraintStore
  stats : RunStats
  diagnostics : List Diagnostic

structure Dump where
  path : String
  text : String
deriving DecidableEq

/-- What a run leaves: its answer, and the files that it wrote in order. -/
structure Run where
  answer : Except InferenceFailure InferenceResult
  dumps : List Dump

/-- A type system with settings. -/
structure Inference where
  types : TypeSystem
  config : InferenceConfig := {}
  /-- Why a file cannot be written, for paths where this is so. -/
  refusal? : String → Option String := fun _ => none

namespace Inference

variable (r : Inference)

def lattice : Lattice := r.types.lattice

def dump (path : Option String) (text : String) : Except InferenceError (List Dump) :=
  match path with
  | none => .ok []
  | some path =>
    match r.refusal? path with
    | some reason => .error (.cannotWrite path reason)
    | none => .ok [⟨path, text⟩]

def explain (s : ConstraintStore) (core : List ConstraintId) : List Diagnostic :=
  core.filterMap fun id => (s.entry? id).map fun e =>
    { severity := .note, message := id.text ++ ": " ++ s.describe r.lattice e.constraint,
      locations := e.provenance.map Provenance.text, constraints := [id] }

def generate (p : Program) : Except InferenceFailure Generated :=
  Generated.ofProgram r.config.failFast r.types p

section Solve

variable {σ : Type} [Backend σ]

def calling {α : Type} (name : String) (run : Solving σ α) :
    ExceptT InferenceError (StateM σ) α := fun s =>
  let (result, s) := run s
  (result.mapError (.solver name), s)

def search (s : ConstraintStore) (e : Encoding) :
    ExceptT InferenceError (StateM σ) (Solution × Weight) := do
  let name := Backend.name (← get)
  match ← calling name (Backend.solve e.cnf []) with
  | .sat model =>
    let model ← calling name (e.tieBreak r.lattice r.config.tieBreak s model)
    match e.decode r.lattice s model with
    | .ok solution => return (solution, model.cost)
    | .error cause => throw (.decode cause)
  | .unsat none => throw (.unsatisfiable [])
  | .unsat (some core) => throw (.unsatisfiable (← calling name (e.minimize core)))

def initialStats (g : Generated) : RunStats :=
  { units := g.units, skippedUnits := g.skipped.length, slots := g.store.slots.size,
    variableSlots := g.store.variableSlots.length, constraints := g.store.size }

def encodingStats (stats : RunStats) (s : ConstraintStore) (report : SimplifyReport)
    (e : Encoding) : RunStats :=
  { stats with
    discharged := report.discharged, replaced := report.replaced, activeConstraints :=
      s.active.length,
    vars := e.vars.numVars, hardClauses := e.hard.length, softClauses := e.soft.length,
    deferredPreferences := e.deferred.length }

/-- Solves an encoded problem, and says about a conflict what is known. -/
def finish (s : ConstraintStore) (diagnostics : List Diagnostic) (stats : RunStats) (e : Encoding) :
    StateM σ (Except InferenceFailure InferenceResult) := fun solver =>
  let search : ExceptT InferenceError (StateM (Counted σ)) (Solution × Weight) := r.search s e
  let (found, counted) := search ⟨solver, 0⟩
  match found with
  | .ok (solution, cost) =>
    (.ok ⟨solution, s, { stats with solverCalls := counted.calls, cost }, diagnostics⟩,
      counted.solver)
  | .error (.unsatisfiable core) =>
    (.error (.after (diagnostics ++ r.explain s core) (.unsatisfiable core)), counted.solver)
  | .error e => (.error (.after diagnostics e), counted.solver)

/-- Simplifies, encodes and solves constraints. -/
def solve (g : Generated) : StateM σ Run := fun solver =>
  let failed (dumps : List Dump) (e : InferenceError) : Run :=
    ⟨.error (.after g.diagnostics e), dumps⟩
  match g.store.simplify r.lattice with
  | (.error cause, _) => (failed [] (.contradiction cause), solver)
  | (.ok report, s) =>
    match r.dump r.config.dumpDot (s.graph r.lattice (fun _ => none) {}) with
    | .error e => (failed [] e, solver)
    | .ok graphs =>
      let solver := Backend.setTimeBudget r.config.solverTimeBudget solver
      match s.encode r.lattice ((Backend.capabilities solver).weighted &&
        r.config.softConstraints) with
      | .error cause => (failed graphs (.encode cause), solver)
      | .ok e =>
        match r.dump r.config.dumpCnf e.cnf.wcnf with
        | .error cause => (failed graphs cause, solver)
        | .ok problems =>
          let (answer, solver) :=
            r.finish s g.diagnostics (encodingStats (initialStats g) s report e) e solver
          (⟨answer, graphs ++ problems⟩, solver)

/-- Infers the qualifiers of a program. -/
def run (p : Program) : StateM σ Run := fun solver =>
  match r.generate p with
  | .error failure => (⟨.error failure, []⟩, solver)
  | .ok g => r.solve g solver

end Solve

end Inference

end Qualify
