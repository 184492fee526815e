import Qualify.Diagram.Basic

namespace Qualify

namespace Diagram

/-- A path to true that goes high where it can. -/
def pathToOne (d : Diagram) : Nat → Edge → List Lit
  | 0, _ => []
  | fuel + 1, e =>
    if e = .one then []
    else match Var.ofNat? (d.varOf e) with
      | none => []
      | some v =>
        if d.high e ≠ .zero then v.pos :: pathToOne d fuel (d.high e)
        else v.neg :: pathToOne d fuel (d.low e)

def oneModel? (d : Diagram) (e : Edge) : Option (List Lit) :=
  if e = .zero then none else some (d.pathToOne (e.node + 1) e)

/-- The count of an edge from the counts of the nodes, where `all` is the number of assignments. -/
def countOf (all : Nat) (counts : Array Nat) (e : Edge) : Nat :=
  let n := counts.getD e.node 0
  if e.negated then all - n else n

/-- Number of models of every node over `numVars` variables: half of what both edges have. -/
def modelCounts (d : Diagram) (numVars : Nat) : Array Nat :=
  let all := 1 <<< numVars
  (d.table.values.toList.drop 1).foldl
    (fun counts n => counts.push ((countOf all counts n.low + countOf all counts n.high) / 2))
    #[0, all]

def countModels (d : Diagram) (numVars : Nat) (e : Edge) : Nat :=
  countOf (1 <<< numVars) (d.modelCounts numVars) e

end Diagram

end Qualify
