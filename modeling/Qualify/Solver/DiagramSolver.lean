import Qualify.Diagram.Literals
import Qualify.Diagram.Conditional
import Qualify.Diagram.Restriction
import Qualify.Diagram.Collection
import Qualify.Diagram.Models
import Qualify.Diagram.Optimum
import Qualify.Solver.Backend

namespace Qualify

namespace DiagramSolver

structure Config where
  sizing : Sizing := {}
  nodeLimit : Option Nat := some 16777216
  /-- Milliseconds for a call. -/
  timeBudget : Option Nat := none
  /-- Whether soft clauses count. -/
  weighted : Bool := true
  /-- Garbage is collected above this many nodes, if there are also twice as many as were left the
  last time. -/
  collectAbove : Nat := 65536
  /-- Milliseconds gone by at each check of the limits in a call. This clock stands still. -/
  clock : Nat → Nat := fun _ => 0

/-- A call under way: the diagram, and how often the limits were checked. -/
structure Workspace where
  diagram : Diagram
  checks : Nat := 0

abbrev Work := Solving Workspace

def withDiagram {α : Type} (run : Diagram → Option (α × Diagram)) : Work α := fun w =>
  let ⟨diagram, checks⟩ := w
  match run diagram with
  | some (a, diagram) => (.ok a, ⟨diagram, checks⟩)
  | none => (.error (.failed "the order of variables is broken"), ⟨.blank, checks⟩)

def updateDiagram {α : Type} (run : Diagram → α × Diagram) : Work α :=
  withDiagram fun d => some (run d)

def nodeCount : Work Nat := fun w => (.ok w.diagram.nodeCount, w)

/-- The time is looked at before the number of nodes. -/
def checkLimits (c : Config) : Work Unit := fun w =>
  let late := c.timeBudget.any fun budget => decide (c.clock w.checks ≥ budget)
  let full := c.nodeLimit.any fun limit => decide (w.diagram.nodeCount > limit)
  let result := if late then .error (.timeout (c.timeBudget.getD 0))
    else if full then .error (.nodeLimit (c.nodeLimit.getD 0))
    else .ok ()
  (result, { w with checks := w.checks + 1 })

def needsCollection (c : Config) (live : Nat) : Work Bool := do
  return decide ((← nodeCount) > max (2 * live) c.collectAbove)

def conjoinPairs (c : Config) : List Edge → Work (Option (List Edge))
  | [] => return some []
  | [f] => do
    checkLimits c
    return if f = .zero then none else some [f]
  | f :: g :: rest => do
    let e ← withDiagram (·.and? f g)
    checkLimits c
    if e = .zero then return none
    else
      let es ← conjoinPairs c rest
      return es.map (e :: ·)

/-- Rounds of pairwise conjunction with garbage collection between them. Nothing but the list
survives. -/
def conjoinRounds (c : Config) : Nat → Nat → List Edge → Work Edge
  | _, _, [] => return .one
  | _, _, [f] => return f
  | 0, _, _ => throw (.failed "the list did not get shorter")
  | rounds + 1, live, fs => do
    match ← conjoinPairs c fs with
    | none => return .zero
    | some fs =>
      if ← needsCollection c live then
        let fs ← updateDiagram (·.collect fs)
        conjoinRounds c rounds (← nodeCount) fs
      else conjoinRounds c rounds live fs

def conjoin (c : Config) (fs : List Edge) : Work Edge := do
  conjoinRounds c fs.length (← nodeCount) fs

structure Compiled where
  cnf : Cnf
  /-- Conjunction of the hard clauses. -/
  hard : Edge
  /-- The hard clauses together with the guards of the selectors. -/
  root : Edge
  gains : Array Gain
  /-- Nodes left by the last collection. -/
  live : Nat

def minVar (c : Clause) : Nat :=
  match c with
  | [] => 0
  | l :: ls => ls.foldl (fun m l => min m l.var.number) l.var.number

/-- Clauses over nearby variables come together. -/
def byLocality (a b : Clause) : Bool :=
  decide (minVar a < minVar b) ||
    (minVar a == minVar b && decide (Clause.maxVar a ≤ Clause.maxVar b))

/-- A soft literal is a gain of its variable. Any other soft clause gets a selector: a new variable
that earns the weight, and a guard that lets it be true only if the clause holds. -/
def addSoftClauses (c : Config) : List SoftClause → Edge → Array Gain → Work (Edge × Array Gain)
  | [], root, gains => return (root, gains)
  | ⟨[l], w⟩ :: rest, root, gains =>
    let raise (g : Gain) : Gain :=
      if l.isPositive then { g with ifTrue := Weight.plus g.ifTrue w }
      else { g with ifFalse := Weight.plus g.ifFalse w }
    addSoftClauses c rest root (gains.modify l.var.index raise)
  | ⟨lits, w⟩ :: rest, root, gains => do
    let gains := gains.push ⟨0, w⟩
    let selector : Var := ⟨gains.size, by simp [gains]⟩
    let guard ← updateDiagram (·.mkClause (selector.neg :: lits))
    let root ← withDiagram (·.and? root guard)
    checkLimits c
    addSoftClauses c rest root gains

def compile (c : Config) (cnf : Cnf) : Work Compiled := do
  let clauses ← updateDiagram (·.mkClauses (cnf.hard.toList.mergeSort byLocality))
  let hard ← conjoin c clauses
  let gains := Array.replicate cnf.numVars ⟨0, 0⟩
  let (root, gains) ←
    if c.weighted ∧ hard ≠ .zero then addSoftClauses c cnf.soft.toList hard gains
    else pure (hard, gains)
  match ← updateDiagram (·.collect [hard, root]) with
  | [hard, root] => return ⟨cnf, hard, root, gains, ← nodeCount⟩
  | _ => throw (.failed "the roots are lost")

/-- The diagram of the problem, from the call before if it was the same problem. -/
def prepare (c : Config) (last : Option Compiled) (cnf : Cnf) : Work Compiled :=
  match last with
  | some k => if k.cnf = cnf then return k else fresh
  | none => fresh
where
  fresh : Work Compiled := do
    updateDiagram fun _ => ((), .new c.sizing)
    compile c cnf

def tidy (c : Config) (k : Compiled) : Work Compiled := do
  if ← needsCollection c k.live then
    match ← updateDiagram (·.collect [k.hard, k.root]) with
    | [hard, root] => return { k with hard, root, live := ← nodeCount }
    | _ => return k
  else return k

def isUnsat (c : Config) (clauses : List Edge) : Work Bool := do
  let f ← withDiagram (·.andMany? clauses)
  checkLimits c
  return f = .zero

/-- The smallest number of clauses, above `lo` and up to `hi`, whose first ones are
unsatisfiable. -/
def coreEnd (c : Config) (clauses : Array Edge) : Nat → Nat → Nat → Work Nat
  | 0, _, hi => return hi
  | fuel + 1, lo, hi => do
    if lo + 1 < hi then
      let mid := lo + (hi - lo) / 2
      if ← isUnsat c (clauses.toList.take mid) then coreEnd c clauses fuel lo mid
      else coreEnd c clauses fuel mid hi
    else return hi

/-- The latest start, between `lo` and `hi`, from which the clauses up to `stop` are
unsatisfiable. -/
def coreStart (c : Config) (clauses : Array Edge) (stop : Nat) : Nat → Nat → Nat → Work Nat
  | 0, lo, _ => return lo
  | fuel + 1, lo, hi => do
    if lo < hi then
      let mid := lo + (hi - lo + 1) / 2
      if ← isUnsat c ((clauses.toList.take stop).drop mid) then coreStart c clauses stop fuel mid hi
      else coreStart c clauses stop fuel lo (mid - 1)
    else return lo

def shrinkCore (c : Config) (clauses : Array Edge) (kept : List Nat) : List Nat → Work (List Nat)
  | [] => return kept
  | k :: rest => do
    if ← isUnsat c ((kept ++ rest).map (clauses.getD · .one)) then shrinkCore c clauses kept rest
    else shrinkCore c clauses (kept ++ [k]) rest

/-- A smallest unsatisfiable set of hard clauses, in the sense that each of them is needed. -/
def core (c : Config) (cnf : Cnf) : Work (List Nat) := do
  let clauses := (← updateDiagram (·.mkClauses cnf.hard.toList)).toArray
  let stop ← coreEnd c clauses clauses.size 0 clauses.size
  let start ← coreStart c clauses stop clauses.size 0 (stop - 1)
  shrinkCore c clauses [] (List.range' start (stop - start))

def opposed (lits : List Lit) : Bool := lits.any fun l => lits.contains l.opposite

/-- Assumed values come first, whatever the path says. -/
def imposed (lits : List Lit) (assignment : Array Bool) : Array Bool :=
  lits.foldl (fun a l => a.setIfInBounds l.var.index l.isPositive) assignment

def query (c : Config) (k : Compiled) (assumed : List Lit) : Work Outcome := do
  if k.hard = .zero then
    if assumed.isEmpty then return .unsat (some (← core c k.cnf)) else return .unsat none
  else if opposed assumed then return .unsat none
  else
    let f ← if assumed.isEmpty then pure k.root
      else updateDiagram (·.restrict (Diagram.valuesOf assumed) k.root)
    if f = .zero then return .unsat none
    else
      let n := k.cnf.numVars
      let found ← updateDiagram fun d =>
        (if c.weighted then (d.bestModel? f k.gains).map (·.1)
         else some (imposed ((d.oneModel? f).getD []) (Array.replicate n false)), d)
      match found with
      | none => return .unsat none
      | some assignment =>
        let assignment := imposed assumed (assignment.take n)
        return .sat ⟨assignment, if c.weighted then k.cnf.softCost assignment else 0⟩

end DiagramSolver

/-- A solver that turns the clauses of a problem into a decision diagram and keeps it for the next
call. -/
structure DiagramSolver where
  config : DiagramSolver.Config
  diagram : Diagram
  compiled : Option DiagramSolver.Compiled := none
  /-- Number of calls to solve. -/
  calls : Nat := 0

namespace DiagramSolver

def new (config : Config) : DiagramSolver := { config, diagram := .new config.sizing }

def setTimeBudget (budget : Option Nat) (s : DiagramSolver) : DiagramSolver :=
  { s with config := { s.config with timeBudget := budget } }

def solve (cnf : Cnf) (assumed : List Lit) : Solving DiagramSolver Outcome := fun s =>
  let ⟨c, diagram, compiled, calls⟩ := s
  match prepare c compiled cnf ⟨diagram, 0⟩ with
  | (.error e, w) => (.error e, ⟨c, w.diagram, none, calls + 1⟩)
  | (.ok k, w) =>
    let (outcome, w) := query c k assumed w
    match tidy c k w with
    | (.ok k, w) => (outcome, ⟨c, w.diagram, some k, calls + 1⟩)
    | (.error e, w) => (.error e, ⟨c, w.diagram, none, calls + 1⟩)

def countModels (cnf : Cnf) : Solving DiagramSolver Nat := fun s =>
  let ⟨c, diagram, compiled, calls⟩ := s
  match prepare c compiled cnf ⟨diagram, 0⟩ with
  | (.error e, w) => (.error e, ⟨c, w.diagram, none, calls⟩)
  | (.ok k, w) => (.ok (w.diagram.countModels cnf.numVars k.hard), ⟨c, w.diagram, some k, calls⟩)

instance : Backend DiagramSolver where
  name s := if s.config.weighted then "bdd" else "bdd-sat"
  capabilities s := { weighted := s.config.weighted, unsatCores := true, assumptions := true }
  setTimeBudget := setTimeBudget
  solve := solve

end DiagramSolver

end Qualify
