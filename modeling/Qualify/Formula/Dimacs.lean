import Qualify.Formula.Basic

namespace Qualify

namespace Clause

def dimacs (c : Clause) : String := String.join (c.map fun l => toString l.signed ++ " ") ++ "0\n"

end Clause

namespace Cnf

def dimacs (f : Cnf) : String :=
  "p cnf " ++ toString f.numVars ++ " " ++ toString f.hard.size ++ "\n" ++
    String.join (f.hard.toList.map Clause.dimacs)

def hardWeight (f : Cnf) : Weight := Weight.plus f.totalSoftWeight 1

def weightedLine (w : Weight) (c : Clause) : String := toString w.toNat ++ " " ++ Clause.dimacs c

def wcnf (f : Cnf) : String :=
  "p wcnf " ++ toString f.numVars ++ " " ++ toString (f.hard.size + f.soft.size) ++ " " ++
    toString f.hardWeight.toNat ++ "\n" ++
    String.join (f.hard.toList.map (weightedLine f.hardWeight)) ++
    String.join (f.soft.toList.map fun s => weightedLine s.weight s.lits)

end Cnf

end Qualify
