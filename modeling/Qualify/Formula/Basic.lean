import Qualify.Literal
import Qualify.Weight

namespace Qualify

abbrev Clause := List Lit

structure SoftClause where
  lits : Clause
  weight : Weight
deriving DecidableEq

/-- Hard clauses and weighted soft clauses over the variables from 1 to `numVars`. -/
structure Cnf where
  numVars : Nat := 0
  hard : Array Clause := #[]
  soft : Array SoftClause := #[]
deriving DecidableEq, Inhabited

namespace Clause

def satisfied (c : Clause) (assignment : Array Bool) : Bool := c.any (·.holds assignment)

def maxVar (c : Clause) : Nat := c.foldl (fun m l => max m l.var.number) 0

end Clause

namespace Cnf

def newVar (f : Cnf) : Var × Cnf :=
  (⟨f.numVars + 1, Nat.succ_pos _⟩, { f with numVars := f.numVars + 1 })

def addHard (f : Cnf) (c : Clause) : Cnf :=
  { f with numVars := max f.numVars (Clause.maxVar c), hard := f.hard.push c }

def addSoft (f : Cnf) (c : Clause) (w : Weight) : Cnf :=
  { f with numVars := max f.numVars (Clause.maxVar c), soft := f.soft.push ⟨c, w⟩ }

def totalSoftWeight (f : Cnf) : Weight := Weight.total (f.soft.toList.map (·.weight))

def evaluate (f : Cnf) (assignment : Array Bool) : Bool :=
  f.hard.all (Clause.satisfied · assignment)

def softCost (f : Cnf) (assignment : Array Bool) : Weight :=
  Weight.total ((f.soft.toList.filter fun s => !Clause.satisfied s.lits assignment).map (·.weight))

end Cnf

end Qualify
