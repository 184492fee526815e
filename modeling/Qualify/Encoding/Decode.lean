import Qualify.Encoding.Basic
import Qualify.Solution
import Qualify.Solver.Backend

namespace Qualify

inductive DecodeError where
  | modelSize (expected found : Nat)
  | noQualifier (slot : SlotId)
  | severalQualifiers (slot : SlotId) (count : Nat)
  | violated (constraint : ConstraintId)
deriving DecidableEq

def DecodeError.kind : DecodeError → String
  | modelSize .. => "ModelSize"
  | noQualifier _ => "NoQualifier"
  | severalQualifiers .. => "SeveralQualifiers"
  | violated _ => "Violated"

def DecodeError.message : DecodeError → String
  | modelSize expected found =>
    "model assigns " ++ toString found ++ " variables, expected " ++ toString expected
  | noQualifier slot => "model assigns no qualifier to " ++ slot.text
  | severalQualifiers slot count =>
    "model assigns " ++ toString count ++ " qualifiers to " ++ slot.text
  | violated constraint => "decoded assignment violates " ++ constraint.text

namespace Encoding

variable (e : Encoding) (l : Lattice)

def chosen (model : Model) (i : SlotId) : List Qualifier :=
  l.qualifiers.filter fun q => (e.vars.lit? i q).any (·.holds model.assignment)

def decodeSlot (model : Model) (i : SlotId) : Except DecodeError (SlotId × Qualifier) :=
  match e.chosen l model i with
  | [q] => .ok (i, q)
  | [] => .error (.noQualifier i)
  | qs => .error (.severalQualifiers i qs.length)

/-- The first active constraint that does not hold. -/
def violated? (s : ConstraintStore) (solution : Solution) : Option ConstraintId :=
  (s.active.find? fun (_, c) => c.holds l (solution.value s) == some false).map (·.1)

/-- Reads off one qualifier a slot, and checks the constraints. -/
def decode (s : ConstraintStore) (model : Model) : Except DecodeError Solution := do
  if model.assignment.size < e.vars.numVars then
    .error (.modelSize e.vars.numVars model.assignment.size)
  else
    let values ← e.vars.slots.mapM (e.decodeSlot l model)
    match violated? l s ⟨values⟩ with
    | some c => .error (.violated c)
    | none => return ⟨values⟩

end Encoding

end Qualify
