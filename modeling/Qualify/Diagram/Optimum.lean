import Qualify.Diagram.Basic
import Qualify.Weight

namespace Qualify

/-- What a variable earns by its value. -/
structure Gain where
  ifFalse : Weight
  ifTrue : Weight
deriving DecidableEq, Inhabited

namespace Gain

def of (g : Gain) (b : Bool) : Weight := if b then g.ifTrue else g.ifFalse

def best (g : Gain) : Weight := max g.ifFalse g.ifTrue

def choice (g : Gain) : Bool := g.ifTrue > g.ifFalse

end Gain

namespace Diagram

/-- Gains of the variables, and the best free gain of the variables up to each one. -/
structure Gains where
  each : Array Gain
  upTo : Array Weight

namespace Gains

def ofArray (each : Array Gain) : Gains :=
  ⟨each, each.foldl (fun sums g => sums.push (Weight.plus (sums.back?.getD 0) g.best)) #[0]⟩

def size (g : Gains) : Nat := g.each.size

def gain (g : Gains) (v : Nat) (b : Bool) : Weight :=
  if v = 0 then 0 else ((g.each[v - 1]?).map (Gain.of · b)).getD 0

def free (g : Gains) (first stop : Nat) : Weight :=
  let hi := min (stop - 1) g.size
  let lo := min (first - 1) g.size
  if hi ≤ lo then 0 else g.upTo.getD hi 0 - g.upTo.getD lo 0

end Gains

/-- The top variable, one past the last for the terminal. -/
def level (d : Diagram) (numVars : Nat) (e : Edge) : Nat :=
  if e.isTerminal then numVars + 1 else d.varOf e

/-- Best gains below a node and below its negation, `none` where nothing satisfies it. -/
structure Best where
  plain : Option Weight
  negated : Option Weight
deriving Inhabited

namespace Best

def of (bests : Array Best) (e : Edge) : Option Weight :=
  let b := bests.getD e.node ⟨none, none⟩
  if e.negated then b.negated else b.plain

def branch (d : Diagram) (g : Gains) (bests : Array Best) (v : Nat) (b : Bool) (e : Edge) :
    Option Weight :=
  (of bests e).map fun below =>
    Weight.plus (Weight.plus below (g.gain v b)) (g.free (v + 1) (d.level g.size e))

def larger : Option Weight → Option Weight → Option Weight
  | some h, some l => some (max h l)
  | some h, none => some h
  | none, l => l

def ofNode (d : Diagram) (g : Gains) (bests : Array Best) (n : Node) : Best :=
  let best (flip : Bool) : Option Weight :=
    larger (branch d g bests n.var true (n.high.negateIf flip))
      (branch d g bests n.var false (n.low.negateIf flip))
  ⟨best false, best true⟩

def table (d : Diagram) (g : Gains) : Array Best :=
  (d.table.values.toList.drop 1).foldl (fun bests n => bests.push (ofNode d g bests n))
    #[⟨none, none⟩, ⟨some 0, none⟩]

end Best

def fill (g : Gains) (assignment : Array Bool) (first stop : Nat) : Array Bool :=
  (List.range' first (min stop (g.size + 1) - first)).foldl
    (fun a v => a.setIfInBounds (v - 1) ((g.each.getD (v - 1) default).choice)) assignment

/-- Follows the better edges, low on a tie, and notes the values taken. -/
def bestPath (d : Diagram) (g : Gains) (bests : Array Best) : Nat → Edge → Array Bool → Array Bool
  | 0, _, assignment => assignment
  | fuel + 1, e, assignment =>
    if e = .one then assignment
    else
      let v := d.varOf e
      let takeHigh := match Best.branch d g bests v true (d.high e),
          Best.branch d g bests v false (d.low e) with
        | some h, some l => decide (h > l)
        | some _, none => true
        | none, _ => false
      let next := if takeHigh then d.high e else d.low e
      let assignment := assignment.setIfInBounds (v - 1) takeHigh
      bestPath d g bests fuel next (fill g assignment (v + 1) (d.level g.size next))

/-- A satisfying assignment of the variables that have gains, with the largest total gain, and this
gain. -/
def bestModel? (d : Diagram) (e : Edge) (gains : Array Gain) : Option (Array Bool × Weight) :=
  let g := Gains.ofArray gains
  let bests := Best.table d g
  (Best.of bests e).map fun below =>
    let top := d.level g.size e
    let start := fill g (Array.replicate g.size false) 1 top
    (bestPath d g bests (e.node + 1) e start, Weight.plus below (g.free 1 top))

end Diagram

end Qualify
