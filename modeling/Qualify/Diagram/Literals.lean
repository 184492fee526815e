import Qualify.Diagram.Basic
import Qualify.Formula.Basic

namespace Qualify

namespace Clause

/-- By variable, the positive literal first. -/
def inOrder (a b : Lit) : Bool :=
  decide (a.var.number < b.var.number) ||
    (a.var.number == b.var.number && (!a.isNegated || b.isNegated))

/-- Sorted by variable and without repetition, or `none` if a literal and its opposite both
occur. -/
def normalize? (c : Clause) : Option Clause :=
  let sorted := (c.mergeSort inOrder).eraseReps
  if (sorted.zip sorted.tail).any fun p => p.1.var == p.2.var then none else some sorted

end Clause

namespace Diagram

def mkCube (d : Diagram) (lits : List Lit) : Edge × Diagram :=
  match Clause.normalize? lits with
  | none => (.zero, d)
  | some lits =>
    lits.foldr (fun l s =>
      if l.isNegated then s.2.mkNode l.var.number s.1 .zero
      else s.2.mkNode l.var.number .zero s.1) (.one, d)

def mkClause (d : Diagram) (lits : List Lit) : Edge × Diagram :=
  match Clause.normalize? lits with
  | none => (.one, d)
  | some lits =>
    lits.foldr (fun l s =>
      if l.isNegated then s.2.mkNode l.var.number .one s.1
      else s.2.mkNode l.var.number s.1 .one) (.zero, d)

def mkClauses (d : Diagram) : List Clause → List Edge × Diagram
  | [] => ([], d)
  | c :: cs =>
    let (e, d) := d.mkClause c
    let (es, d) := mkClauses d cs
    (e :: es, d)

end Diagram

end Qualify
