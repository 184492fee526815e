import Qualify.Encoding.Basic
import Qualify.Solver.Backend

namespace Qualify

namespace Encoding

variable (e : Encoding)

/-- The constraints behind a core of hard clauses, in order. A clause that several constraints share
blames them all. -/
def explain (core : List Nat) : List ConstraintId :=
  let blamed := core.filterMap fun i => (e.hard[i]?).map (·.2)
  (e.hard.filterMap fun
    | (.constraint id, clause) => if blamed.contains clause then some id else none
    | (.wellFormed _, _) => none).eraseDups

def clausesBehind (ids : List ConstraintId) : List Clause :=
  e.hard.filterMap fun
    | (.constraint id, clause) => if ids.contains id then some clause else none
    | (.wellFormed _, _) => none

/-- The problem of some constraints alone, with the slots that their clauses mention. -/
def restrictedTo (ids : List ConstraintId) : Cnf :=
  let clauses := e.clausesBehind ids
  let mentioned := clauses.flatMap fun clause => clause.filterMap
    fun x => (e.vars.decode? x.var).map (·.1)
  let wellFormed := e.hard.filterMap fun
    | (.wellFormed i, clause) => if mentioned.contains i then some clause else none
    | (.constraint _, _) => none
  { numVars := e.vars.numVars, hard := (wellFormed ++ clauses).toArray }

section Search

variable {σ : Type} [Backend σ]

def isConflicting (ids : List ConstraintId) : Solving σ Bool := do
  match ← Backend.solve (e.restrictedTo ids) [] with
  | .sat _ => return false
  | .unsat _ => return true

def shrink (kept : List ConstraintId) : List ConstraintId → Solving σ (List ConstraintId)
  | [] => return kept
  | id :: rest => do
    if ← e.isConflicting (kept ++ rest) then shrink kept rest else shrink (kept ++ [id]) rest

/-- The constraints behind a core, down to those that are all needed for the conflict. -/
def minimize (core : List Nat) : Solving σ (List ConstraintId) := do
  let ids := e.explain core
  if ← e.isConflicting ids then e.shrink [] ids else return ids

end Search

end Encoding

end Qualify
