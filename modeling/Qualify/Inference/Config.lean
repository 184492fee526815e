import Qualify.Encoding.TieBreak
import Qualify.Json.Decode

namespace Qualify

structure InferenceConfig where
  /-- The first unit that fails ends the run; otherwise it is left out. -/
  failFast : Bool := true
  tieBreak : TieBreakPolicy := .defaultOrBottom
  /-- Milliseconds for each call of the solver. -/
  solverTimeBudget : Option Nat := none
  /-- Preferences are weighed by the solver, if it can. -/
  softConstraints : Bool := true
  /-- Units may be read at the same time. The answer does not depend on it. -/
  parallel : Bool := true
  /-- A path to which the propositional problem is written. -/
  dumpCnf : Option String := none
  /-- A path to which the graph of the constraints is written. -/
  dumpDot : Option String := none
deriving DecidableEq

namespace InferenceConfig

open Json.Field

def policy? (j : Json) : Option TieBreakPolicy := j.name?.bind TieBreakPolicy.ofText?

def ofJson? (j : Json) : Option InferenceConfig := do
  let [failFast, tieBreak, budget, soft, parallel, dumpCnf, dumpDot] ←
    j.record? ["fail_fast", "tie_break", "solver_time_budget", "soft_constraints", "parallel",
      "dump_cnf", "dump_dot"] | none
  return {
    failFast := ← withDefault true Json.bool? failFast
    tieBreak := ← withDefault .defaultOrBottom policy? tieBreak
    solverTimeBudget := ← optional (Json.natBelow? UInt64.size) budget
    softConstraints := ← withDefault true Json.bool? soft
    parallel := ← withDefault true Json.bool? parallel
    dumpCnf := ← optional Json.string? dumpCnf
    dumpDot := ← optional Json.string? dumpDot }

def toJson (c : InferenceConfig) : Json :=
  .object [("fail_fast", .bool c.failFast), ("tie_break", .string c.tieBreak.text),
    ("solver_time_budget", .ofOption .ofNat c.solverTimeBudget),
    ("soft_constraints", .bool c.softConstraints), ("parallel", .bool c.parallel),
    ("dump_cnf", .ofOption .string c.dumpCnf), ("dump_dot", .ofOption .string c.dumpDot)]

end InferenceConfig

end Qualify
