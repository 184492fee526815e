import Qualify.Lattice.Basic
import Qualify.Names

namespace Qualify

inductive Bound where
  | leastUpper
  | greatestLower
deriving DecidableEq

inductive LatticeError where
  | empty (lattice : String)
  | tooMany (count : Nat)
  | duplicate (name : String)
  | unknown (name : String)
  | cycle (a b : String)
  | missingTop
  | missingBottom
  | topNotGreatest (top other : String)
  | bottomNotLeast (bottom other : String)
  | noBound (a b : String) (which : Bound)
deriving DecidableEq

namespace LatticeError

def quoted (s : String) : String := "`" ++ s ++ "`"

def message : LatticeError → String
  | empty lattice => "lattice " ++ quoted lattice ++ " declares no qualifiers"
  | tooMany count => "lattice declares too many qualifiers (" ++ toString count ++ ")"
  | duplicate name => "qualifier " ++ quoted name ++ " is declared more than once"
  | unknown name => "unknown qualifier " ++ quoted name
  | cycle a b => "subtype cycle between " ++ quoted a ++ " and " ++ quoted b
  | missingTop => "lattice has no unique top qualifier"
  | missingBottom => "lattice has no unique bottom qualifier"
  | topNotGreatest top other => "declared top " ++ quoted top ++ " is not above " ++ quoted other
  | bottomNotLeast bottom other =>
    "declared bottom " ++ quoted bottom ++ " is not below " ++ quoted other
  | noBound a b .leastUpper =>
    quoted a ++ " and " ++ quoted b ++ " have no unique least upper bound"
  | noBound a b .greatestLower =>
    quoted a ++ " and " ++ quoted b ++ " have no unique greatest lower bound"

def kind : LatticeError → String
  | empty _ => "Empty"
  | tooMany _ => "TooManyQualifiers"
  | duplicate _ => "DuplicateQualifier"
  | unknown _ => "UnknownQualifier"
  | cycle .. => "Cycle"
  | missingTop => "MissingTop"
  | missingBottom => "MissingBottom"
  | topNotGreatest .. => "TopNotGreatest"
  | bottomNotLeast .. => "BottomNotLeast"
  | noBound .. => "NotALattice"

end LatticeError

namespace LatticeDescription

variable (d : LatticeDescription)

def size : Nat := d.qualifiers.length

def nameAt (i : Nat) : String := d.qualifiers.getD i ""

def maxQualifiers : Nat := 65535

def resolve (name : String) : Except LatticeError Nat :=
  match d.qualifiers.idxOf? name with
  | some i => .ok i
  | none => .error (.unknown name)

/-- One row a qualifier: itself and what an edge puts above it. -/
def edgeRows : Except LatticeError (Array IndexSet) :=
  d.edges.foldlM (fun rows (sub, sup) => do
    let i ← d.resolve sub
    let j ← d.resolve sup
    return rows.modify i (·.insert j))
      ((List.range d.size).map fun i => IndexSet.ofList [i]).toArray

/-- What is above `k` is above everything below `k`. -/
def closeAt (rows : Array IndexSet) (k : Nat) : Array IndexSet :=
  let above := Lattice.row rows k
  rows.map fun row => if row.contains k then row.union above else row

/-- The rows of the transitive closure, one intermediate qualifier after the other. -/
def closure (rows : Array IndexSet) : Array IndexSet := (List.range rows.size).foldl closeAt rows

def cycle? (up : Array IndexSet) : Option (Nat × Nat) :=
  (List.range up.size).findSome? fun a =>
    ((Lattice.row up a).toList.find? fun b => a != b && (Lattice.row up b).contains a).map (a, ·)

def converse (rows : Array IndexSet) : Array IndexSet :=
  ((List.range rows.size).map fun b =>
    IndexSet.ofList ((List.range rows.size).filter
      fun a => (Lattice.row rows a).contains b)).toArray

def findTop (up down : Array IndexSet) : Except LatticeError Nat :=
  match d.top with
  | some name => do
    let t ← d.resolve name
    match (List.range d.size).find? fun a => !(Lattice.row up a).contains t with
    | some other => .error (.topNotGreatest name (d.nameAt other))
    | none => return t
  | none =>
    match (List.range d.size).find? fun t => (Lattice.row down t).size == d.size with
    | some t => .ok t
    | none => .error .missingTop

def findBottom (up down : Array IndexSet) : Except LatticeError Nat :=
  match d.bottom with
  | some name => do
    let t ← d.resolve name
    match (List.range d.size).find? fun a => !(Lattice.row down a).contains t with
    | some other => .error (.bottomNotLeast name (d.nameAt other))
    | none => return t
  | none =>
    match (List.range d.size).find? fun t => (Lattice.row up t).size == d.size with
    | some t => .ok t
    | none => .error .missingBottom

/-- Among the common members of two rows, the one whose own row has them all. -/
def bound? (rows : Array IndexSet) (a b : Nat) : Option Nat :=
  let common := (Lattice.row rows a).inter (Lattice.row rows b)
  common.toList.find? fun c => common.isSubset (Lattice.row rows c)

def bounds (up down : Array IndexSet) (a b : Nat) :
    Except LatticeError (Qualifier × Qualifier) := do
  let some u := bound? up a b | .error (.noBound (d.nameAt a) (d.nameAt b) .leastUpper)
  let some l := bound? down a b | .error (.noBound (d.nameAt a) (d.nameAt b) .greatestLower)
  return (⟨u⟩, ⟨l⟩)

def pairs (n : Nat) : List (Nat × Nat) :=
  (List.range n).flatMap fun a => (List.range n).map fun b => (a, b)

end LatticeDescription

namespace Lattice

/-- Closes the declared edges and checks that a bounded lattice comes out. -/
def load (d : LatticeDescription) : Except LatticeError Lattice := do
  if d.size = 0 then .error (.empty d.name)
  else if d.size > LatticeDescription.maxQualifiers then .error (.tooMany d.size)
  else if let some name := repeated? [] d.qualifiers then .error (.duplicate name)
  else
    let up := LatticeDescription.closure (← d.edgeRows)
    if let some (a, b) := LatticeDescription.cycle? up then
      .error (.cycle (d.nameAt a) (d.nameAt b))
    else
      let down := LatticeDescription.converse up
      let top ← d.findTop up down
      let bottom ← d.findBottom up down
      let bounds ← (LatticeDescription.pairs d.size).mapM fun (a, b) => d.bounds up down a b
      return { name := d.name, names := d.qualifiers.toArray, up, down, top := ⟨top⟩,
               bottom := ⟨bottom⟩, lubs := (bounds.map (·.1)).toArray, glbs :=
                 (bounds.map (·.2)).toArray }

def twoPoint (low high : String) : Except LatticeError Lattice :=
  load { name := low ++ "/" ++ high, qualifiers := [low, high], edges := [(low, high)] }

end Lattice

end Qualify
