import Qualify.Solver.Backend

namespace Qualify

structure Counted (σ : Type) where
  solver : σ
  calls : Nat := 0

namespace Counted

variable {σ : Type} [Backend σ]

def solve (cnf : Cnf) (assumed : List Lit) : Solving (Counted σ) Outcome := fun c =>
  let (result, solver) := Backend.solve cnf assumed c.solver
  (result, ⟨solver, c.calls + 1⟩)

instance : Backend (Counted σ) where
  name c := Backend.name c.solver
  capabilities c := Backend.capabilities c.solver
  setTimeBudget budget c := { c with solver := Backend.setTimeBudget budget c.solver }
  solve := solve

end Counted

end Qualify
