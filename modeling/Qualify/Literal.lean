namespace Qualify

/-- Propositional variables are numbered from one. -/
structure Var where
  number : Nat
  positive : 0 < number
deriving DecidableEq

namespace Var

def ofNat? (n : Nat) : Option Var := if h : 0 < n then some ⟨n, h⟩ else none

def index (v : Var) : Nat := v.number - 1

def text (v : Var) : String := "x" ++ toString v.number

end Var

/-- A variable or its negation, as a signed number. -/
structure Lit where
  signed : Int
  nonzero : signed ≠ 0
deriving DecidableEq

namespace Lit

def ofInt? (n : Int) : Option Lit := if h : n ≠ 0 then some ⟨n, h⟩ else none

def var (l : Lit) : Var := ⟨l.signed.natAbs, Int.natAbs_pos.mpr l.nonzero⟩

def isPositive (l : Lit) : Bool := decide (0 < l.signed)

def isNegated (l : Lit) : Bool := decide (l.signed < 0)

def opposite (l : Lit) : Lit := ⟨-l.signed, Int.neg_ne_zero.mpr l.nonzero⟩

def text (l : Lit) : String := if l.isNegated then "~" ++ l.var.text else l.var.text

/-- Variables past the end of the assignment are false. -/
def holds (l : Lit) (assignment : Array Bool) : Bool :=
  assignment.getD l.var.index false == l.isPositive

end Lit

namespace Var

def pos (v : Var) : Lit := ⟨v.number, Int.natCast_ne_zero.mpr (Nat.pos_iff_ne_zero.mp v.positive)⟩

def neg (v : Var) : Lit := v.pos.opposite

def lit (v : Var) (positive : Bool) : Lit := if positive then v.pos else v.neg

end Var

end Qualify
