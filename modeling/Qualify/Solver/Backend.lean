import Qualify.Formula.Basic

namespace Qualify

/-- What a solver can do beyond plain satisfiability. -/
structure Capabilities where
  /-- It minimizes the weight of the violated soft clauses. -/
  weighted : Bool
  unsatCores : Bool
  assumptions : Bool

structure Model where
  /-- The value of variable `i + 1` stands at index `i`. -/
  assignment : Array Bool
  /-- Total weight of the violated soft clauses, zero where these are ignored. -/
  cost : Weight
deriving DecidableEq

inductive Outcome where
  | sat (model : Model)
  /-- The core lists indices of hard clauses that no assignment satisfies together. -/
  | unsat (core : Option (List Nat))
deriving DecidableEq

inductive SolverError where
  | timeout (milliseconds : Nat)
  | nodeLimit (nodes : Nat)
  | unsupported (request : String)
  | failed (reason : String)
deriving DecidableEq

namespace SolverError

/-- Milliseconds in the largest fitting unit, without closing zeros after the point. -/
def durationText (ms : Nat) : String :=
  if ms = 0 then "0ns"
  else if ms < 1000 then toString ms ++ "ms"
  else
    let digits := (toString (1000 + ms % 1000)).toList.drop 1
    let shown := (digits.reverse.dropWhile (· == '0')).reverse
    toString (ms / 1000) ++ (if shown.isEmpty then "" else "." ++ String.ofList shown) ++ "s"

def kind : SolverError → String
  | timeout _ => "Timeout"
  | nodeLimit _ => "ResourceLimit"
  | unsupported _ => "Unsupported"
  | failed _ => "Failed"

def message : SolverError → String
  | timeout ms => "solver exceeded its time budget of " ++ durationText ms
  | nodeLimit nodes => "solver exceeded its node limit of " ++ toString nodes
  | unsupported request => "unsupported request: " ++ request
  | failed reason => "solver failed: " ++ reason

end SolverError

/-- A computation on a solver: it changes the solver also where it fails. -/
abbrev Solving (σ : Type) := ExceptT SolverError (StateM σ)

/-- Solvers of weighted propositional problems. -/
class Backend (σ : Type) where
  name : σ → String
  capabilities : σ → Capabilities
  /-- Sets the time for each later call, in milliseconds. -/
  setTimeBudget : Option Nat → σ → σ
  /-- Solves the hard clauses under assumed literals, at least cost if the solver is weighted. -/
  solve : Cnf → List Lit → Solving σ Outcome

end Qualify
