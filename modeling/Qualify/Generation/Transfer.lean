import Qualify.Generation.Declaration

namespace Qualify

structure MethodContext where
  surroundings : Surroundings
  method : Method
  body : Body
  receiver : Option (Shape Location)
  returns : Option (Shape Location)
  /-- Parameters and local variables. -/
  declared : FlowStore Location

/-- A value inside a block. -/
structure Value where
  shape : Shape Location
  /-- The local variable from which it was read. -/
  source : Option String := none
  /-- The comparison that it is the result of. -/
  comparison : Option (CompareOp × Temp × Temp) := none

/-- Values by number; the newest one of a number stands first. -/
abbrev Values := List (Temp × Value)

structure Point where
  store : FlowStore Location
  values : Values

namespace MethodContext

variable (c : MethodContext)

def qualified : String := c.surroundings.unit ++ "." ++ c.method.name

def location (position : String) (kind : SlotKind) : Location :=
  ⟨c.surroundings.unit, position, kind⟩

def blockName (b : BlockId) : String := c.method.name ++ "@" ++ toString b

def position (b : BlockId) (i : Nat) : String := c.blockName b ++ ":" ++ toString i

/-- Where a block starts with one shape of a local variable for several. -/
def mergePosition (b : BlockId) (name : String) : String := c.blockName b ++ "#" ++ name

/-- Where a local variable is known better on the way from one block to another. -/
def refinementPosition (b next : BlockId) (name : String) : String :=
  c.blockName b ++ "->" ++ toString next ++ "#" ++ name

def value (values : Values) (b : BlockId) (t : Temp) : Gen Value :=
  Gen.ofOption (.unknownValue c.qualified b t) (values.lookup t)

def shape (values : Values) (b : BlockId) (t : Temp) : Gen (Shape Location) := do
  return (← c.value values b t).shape

def block (b : BlockId) : Gen Block := Gen.ofOption (.unknownBlock c.qualified b) c.body.blocks[b]?

def current (store : FlowStore Location) (name : String) : Gen (Shape Location) :=
  Gen.ofOption (.unknownLocal c.qualified name) (store.get? name)

def passReceiver (owner : String) (m : Method) (actual : Option (Shape Location))
    (position : String) : Gen Unit :=
  match m.receiver, actual with
  | some t, some actual => do
    let formal ← c.surroundings.receiverType false owner m t
    c.surroundings.flowInto actual formal position .receiver
  | some _, none => Gen.fail (.missingReceiver (owner ++ "." ++ m.name))
  | none, some _ => Gen.fail (.unexpectedReceiver (owner ++ "." ++ m.name))
  | none, none => return ()

def passEach (values : Values) (b : BlockId) (owner : String) (m : Method) (position : String) :
    List Temp → List Variable → Gen Unit
  | t :: ts, p :: ps => do
    let actual ← c.shape values b t
    let formal ← c.surroundings.parameter false owner m p
    c.surroundings.flowInto actual formal position .argument
    passEach values b owner m position ts ps
  | _, _ => return ()

def passArguments (values : Values) (b : BlockId) (owner : String) (m : Method) (args : List Temp)
    (position : String) : Gen Unit :=
  if args.length ≠ m.params.length then
    Gen.fail (.arityMismatch (owner ++ "." ++ m.name) m.params.length args.length)
  else c.passEach values b owner m position args m.params

def passTypes (owner : String) (m : Method) (position : String) (i : Nat) :
    List TypeUse → List TypeParameter → Gen Unit
  | t :: ts, p :: ps => do
    let actual ← c.surroundings.typeUse true
      (Surroundings.argument (c.location position .typeArgument) i .typeArgument) t
    let bound ← c.surroundings.typeParameter false owner m p
    c.surroundings.flowInto actual bound position .typeArgumentBound
    passTypes owner m position (i + 1) ts ps
  | _, _ => return ()

def passTypeArguments (owner : String) (m : Method) (args : List TypeUse) (position : String) :
    Gen Unit :=
  if args.isEmpty then return ()
  else if args.length ≠ m.typeParams.length then
    Gen.fail (.typeArgumentMismatch (owner ++ "." ++ m.name) m.typeParams.length args.length)
  else c.passTypes owner m position 0 args m.typeParams

def instruction (b : BlockId) (position : String) (p : Point) (i : Instruction) : Gen Point := do
  let g := c.surroundings
  let put (t : Temp) (v : Value) : Point := { p with values := (t, v) :: p.values }
  match i with
  | .literal dst kind =>
    let l := c.location position .literal
    Gen.emit [.request l (.fixed (g.types.literal kind))]
    return put dst { shape := .leaf l }
  | .readLocal dst name =>
    let shape ← c.current p.store name
    return put dst { shape, source := some name }
  | .this dst =>
    let shape ← Gen.ofOption (.missingReceiver c.qualified) c.receiver
    return put dst { shape }
  | .readField dst field =>
    let shape ← g.field field
    return put dst { shape }
  | .assign target value =>
    let shape ← c.shape p.values b value
    match target with
    | .localVariable name =>
      let declared ← c.current c.declared name
      g.flowInto shape declared position .assignment
      return { p with store := p.store.set name shape }
    | .field field =>
      let formal ← g.field field
      g.flowInto shape formal position .fieldWrite
      return p
  | .call dst method receiver args typeArgs =>
    let (owner, m) ← g.callee method
    let actual ← match receiver with
      | some t => do pure (some (← c.shape p.values b t))
      | none => pure none
    c.passReceiver owner m actual position
    c.passArguments p.values b owner m args position
    c.passTypeArguments owner m typeArgs position
    match dst with
    | some dst =>
      let t ← Gen.ofOption (.voidResult (owner ++ "." ++ m.name)) m.returns
      let shape ← g.returnType false owner m t
      return put dst { shape }
    | none => return p
  | .new dst type maker args =>
    let shape ← g.typeUse true (c.location position .allocation) type
    match maker with
    | some member =>
      let (owner, m) ← g.callee member
      if m.receiver.isSome then c.passReceiver owner m (some shape) position
      c.passArguments p.values b owner m args position
    | none => if !args.isEmpty then Gen.fail (.arityMismatch ("new@" ++ position) 0 args.length)
    return put dst { shape }
  | .cast dst value type =>
    let actual ← c.shape p.values b value
    let shape ← g.typeUse true (c.location position .cast) type
    g.require (.comparable actual.root shape.root) position .cast
    return put dst { shape }
  | .compare dst op lhs rhs =>
    let x ← c.shape p.values b lhs
    let y ← c.shape p.values b rhs
    g.require (.comparable x.root y.root) position .comparison
    let l ← g.inferred (c.location position .expression)
    return put dst { shape := .leaf l, comparison := some (op, lhs, rhs) }
  | .select dst guard name thenValue elseValue =>
    let l := c.location position .select
    let guard ← c.shape p.values b guard
    let t ← c.shape p.values b thenValue
    let e ← c.shape p.values b elseValue
    let q ← g.qualifier name l
    let l ← g.inferred l
    g.require (.existential guard.root q [.subtype t.root l] [.subtype e.root l]) position .select
    return put dst { shape := .leaf l }

def instructions (b : BlockId) : Nat → Point → List Instruction → Gen Point
  | _, p, [] => return p
  | i, p, x :: xs => do
    let p ← c.instruction b (c.position b i) p x
    instructions b (i + 1) p xs

/-- On the way to `next`, two compared values are equal. If `operand` was read from a local
variable, this variable is below both from there on. -/
def refineOperand (b next : BlockId) (position : String) (values : Values) (operand other : Temp)
    (store : FlowStore Location) : Gen (FlowStore Location) := do
  match (values.lookup operand).bind (·.source) with
  | none => return store
  | some name =>
    let other ← c.shape values b other
    let shape ← c.current store name
    let l ← c.surroundings.inferred (c.location (c.refinementPosition b next name) .refinement)
    c.surroundings.require (.subtype l shape.root) position .refinement
    c.surroundings.require (.subtype l other.root) position .refinement
    return store.set name (shape.withRoot l)

def refine (b next : BlockId) (position : String) (values : Values) (lhs rhs : Temp)
    (store : FlowStore Location) :
    Gen (FlowStore Location) := do
  let store ← c.refineOperand b next position values lhs rhs store
  c.refineOperand b next position values rhs lhs store

def terminator (b : BlockId) (position : String) (p : Point) :
    Terminator → Gen (List (BlockId × FlowStore Location))
  | .goto target => do
    let _ ← c.block target
    return [(target, p.store)]
  | .ret value => do
    match value with
    | some t =>
      let shape ← c.shape p.values b t
      let returns ← Gen.ofOption (.missingReturnType c.qualified) c.returns
      c.surroundings.flowInto shape returns position .returned
      return []
    | none => return []
  | .unreachable => return []
  | .branch condition thenBlock elseBlock => do
    let _ ← c.block thenBlock
    let _ ← c.block elseBlock
    let v ← c.value p.values b condition
    if thenBlock = elseBlock then return [(thenBlock, p.store)]
    else match v.comparison with
      | some (.eq, lhs, rhs) =>
        let store ← c.refine b thenBlock position p.values lhs rhs p.store
        return [(thenBlock, store), (elseBlock, p.store)]
      | some (.ne, lhs, rhs) =>
        let store ← c.refine b elseBlock position p.values lhs rhs p.store
        return [(thenBlock, p.store), (elseBlock, store)]
      | _ => return [(thenBlock, p.store), (elseBlock, p.store)]

def transfer (b : BlockId) (store : FlowStore Location) :
    Gen (List (BlockId × FlowStore Location)) := do
  let block ← c.block b
  let p ← c.instructions b 0 ⟨store, []⟩ block.instructions
  c.terminator b (c.position b block.instructions.length) p block.terminator

end MethodContext

end Qualify
