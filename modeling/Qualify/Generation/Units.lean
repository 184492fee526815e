import Qualify.Generation.Fixpoint
import Qualify.Store.Basic

namespace Qualify

namespace CodeUnit

def duplicateInMethod? (m : Method) : Option String :=
  match repeated? [] ((m.params ++ m.locals).map (·.name)) with
  | some name => some (m.name ++ "#" ++ name)
  | none =>
    (repeated? [] (m.typeParams.map (·.name))).map fun name => m.name ++ "#<" ++ name ++ ">"

def duplicateMethod? (seen : List String) : List Method → Option String
  | [] => none
  | m :: ms =>
    if seen.contains m.name then some m.name
    else match duplicateInMethod? m with
      | some name => some name
      | none => duplicateMethod? (m.name :: seen) ms

/-- Fields come before methods, and a method before what it declares. -/
def duplicateMember? (u : CodeUnit) : Option String :=
  match repeated? [] (u.fields.map (·.name)) with
  | some name => some name
  | none => duplicateMethod? [] u.methods

end CodeUnit

namespace Surroundings

variable (g : Surroundings)

def declareEach (declare : Variable → Gen (Shape Location)) :
    FlowStore Location → List Variable → Gen (FlowStore Location)
  | store, [] => return store
  | store, v :: vs => do
    let shape ← declare v
    declareEach declare (store.set v.name shape) vs

def optionalType (declare : TypeUse → Gen (Shape Location)) :
    Option TypeUse → Gen (Option (Shape Location))
  | some t => do return some (← declare t)
  | none => return none

def declare (m : Method) (body : Body) : Gen MethodContext := do
  let receiver ← optionalType (g.receiverType true g.unit m) m.receiver
  let params ← declareEach (g.parameter true g.unit m) {} m.params
  let returns ← optionalType (g.returnType true g.unit m) m.returns
  m.typeParams.forM fun p => discard (g.typeParameter true g.unit m p)
  let declared ← declareEach (g.localVariable m) params m.locals
  return ⟨g, m, body, receiver, returns, declared⟩

def readMethod (m : Method) : Gen Unit :=
  match m.body with
  | some body => do (← g.declare m body).readBody
  | none => discard (g.declare m ⟨0, #[]⟩)

def readUnit (u : CodeUnit) : Gen Unit := do
  match u.duplicateMember? with
  | some name => Gen.fail (.duplicateMember u.name name)
  | none =>
    u.fields.forM fun f => discard (g.typeUse true ⟨g.unit, f.name, .field⟩ f.type)
    u.methods.forM g.readMethod

end Surroundings

namespace Event

def slotTable : SlotTable → List Event → Except SlotConflict SlotTable
  | t, [] => .ok t
  | t, .request l init :: es => do
    let (_, t) ← t.intern l init
    slotTable t es
  | t, .require .. :: es => slotTable t es

def constraints (t : SlotTable) : List Event → List (Constraint SlotId × Provenance)
  | [] => []
  | .request .. :: es => constraints t es
  | .require c p :: es => (c.map fun l => (t.lookup l).getD ⟨0⟩, p) :: constraints t es

end Event

/-- The slots and constraints of a unit. A conflict between requests counts before any later
failure. -/
def generate (types : TypeSystem) (program : Program) (u : CodeUnit) :
    Except GenerationError UnitConstraints :=
  let reading := Surroundings.readUnit ⟨types, program, u.name⟩ u
  match Event.slotTable {} reading.events with
  | .error e => .error (.slot e)
  | .ok slots =>
    match reading.result with
    | .error e => .error e
    | .ok () => .ok ⟨u.name, slots, Event.constraints slots reading.events⟩

end Qualify
