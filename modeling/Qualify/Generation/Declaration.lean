import Qualify.Flow.FlowStore
import Qualify.Generation.Trace
import Qualify.Program.Symbols
import Qualify.TypeSystem.Basic

namespace Qualify

/-- What a unit is read against. -/
structure Surroundings where
  types : TypeSystem
  program : Program
  /-- The name of the unit. -/
  unit : String

namespace Surroundings

variable (g : Surroundings)

def inferred (l : Location) : Gen Location := do
  Gen.emit [.request l (.inferred (g.types.defaultFor l.kind))]
  return l

def qualifier (name : String) (l : Location) : Gen Qualifier :=
  Gen.ofOption (.unknownQualifier l name) (g.types.lattice.qualifier? name)

def require (c : Constraint Location) (position : String) (rule : Rule) : Gen Unit :=
  Gen.emit [.require c ⟨g.unit, position, rule⟩]

def preferences (l : Location) : Gen Unit :=
  Gen.emit ((g.types.preferencesFor l.kind).map fun p =>
    .require (.preference l p.qualifier p.weight) ⟨g.unit, l.position, .preference⟩)

def argument (l : Location) (i : Nat) (kind : SlotKind) : Location :=
  l.child ("<" ++ toString i ++ ">") kind

mutual

/-- The slots of a type where it is used. What is annotated is fixed, and the rest inferred; `own`
says whether the preferences of the type system count. -/
def typeUse (own : Bool) (l : Location) : TypeUse → Gen (Shape Location)
  | .mk (some name) args => do
    Gen.emit [.request l (.fixed (← g.qualifier name l))]
    return .mk l (← typeUses own l 0 args)
  | .mk none args => do
    let l ← g.inferred l
    if own then g.preferences l
    return .mk l (← typeUses own l 0 args)

def typeUses (own : Bool) (l : Location) (i : Nat) : List TypeUse → Gen (List (Shape Location))
  | [] => return []
  | t :: ts => do
    let s ← typeUse own (argument l i .typeArgument) t
    let ss ← typeUses own l (i + 1) ts
    return s :: ss

end

mutual

def equalities : Shape Location → Shape Location → List (Constraint Location)
  | .mk r as, .mk r' as' => .equality r r' :: argumentEqualities as as'

/-- Type arguments do not vary: those of the same place are equal. -/
def argumentEqualities : List (Shape Location) → List (Shape Location) → List (Constraint Location)
  | s :: ss, s' :: ss' => equalities s s' ++ argumentEqualities ss ss'
  | _, _ => []

end

def flowInto (source target : Shape Location) (position : String) (rule : Rule) : Gen Unit :=
  Gen.emit (.require (.subtype source.root target.root) ⟨g.unit, position, rule⟩ ::
    (argumentEqualities source.args target.args).map
      fun c => .require c ⟨g.unit, position, .typeArgument⟩)

def owner (m : MemberRef) : Gen CodeUnit :=
  let name := m.unit.getD g.unit
  Gen.ofOption (.unknownUnit name) (g.program.unit? name)

def field (m : MemberRef) : Gen (Shape Location) := do
  let u ← g.owner m
  let f ← Gen.ofOption (.unknownField u.name m.name) (u.field? m.name)
  g.typeUse false ⟨u.name, f.name, .field⟩ f.type

def callee (m : MemberRef) : Gen (String × Method) := do
  let u ← g.owner m
  let c ← Gen.ofOption (.unknownMethod u.name m.name) (u.method? m.name)
  return (u.name, c)

def receiverType (own : Bool) (owner : String) (m : Method) (t : TypeUse) : Gen (Shape Location) :=
  g.typeUse own ⟨owner, m.name ++ "#this", .receiver⟩ t

def parameter (own : Bool) (owner : String) (m : Method) (p : Variable) : Gen (Shape Location) :=
  g.typeUse own ⟨owner, m.name ++ "#" ++ p.name, .parameter⟩ p.type

def returnType (own : Bool) (owner : String) (m : Method) (t : TypeUse) : Gen (Shape Location) :=
  g.typeUse own ⟨owner, m.name ++ "#return", .result⟩ t

def typeParameter (own : Bool) (owner : String) (m : Method) (p : TypeParameter) :
    Gen (Shape Location) :=
  g.typeUse own ⟨owner, m.name ++ "#<" ++ p.name ++ ">", .typeParameter⟩ p.bound

def localVariable (m : Method) (v : Variable) : Gen (Shape Location) :=
  g.typeUse true ⟨g.unit, m.name ++ "#" ++ v.name, .localVariable⟩ v.type

end Surroundings

end Qualify
