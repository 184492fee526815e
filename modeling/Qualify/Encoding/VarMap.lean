import Qualify.Formula.Basic
import Qualify.Store.Basic

namespace Qualify

/-- One propositional variable for each inferred slot and each qualifier: the slot has the
qualifier. The variables of a slot stand together, in the order of the qualifiers. -/
structure VarMap where
  /-- Number of qualifiers. -/
  width : Nat
  /-- The inferred slots in order. -/
  slots : List SlotId
deriving DecidableEq

namespace VarMap

def ofStore (width : Nat) (s : ConstraintStore) : VarMap := ⟨width, s.variableSlots⟩

def numVars (m : VarMap) : Nat := m.slots.length * m.width

def variableAt (m : VarMap) (place : Nat) (q : Qualifier) : Var :=
  ⟨place * m.width + q.index + 1, Nat.succ_pos _⟩

def lit? (m : VarMap) (s : SlotId) (q : Qualifier) : Option Lit :=
  if q.index < m.width then (m.slots.idxOf? s).map fun place => (m.variableAt place q).pos else none

def decode? (m : VarMap) (v : Var) : Option (SlotId × Qualifier) :=
  if m.width = 0 then none else (m.slots[v.index / m.width]?).map fun s => (s, ⟨v.index % m.width⟩)

end VarMap

end Qualify
