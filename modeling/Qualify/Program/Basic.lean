import Qualify.Kind

namespace Qualify

/-- A value inside a block, by the number under which it was put. -/
abbrev Temp := Nat

abbrev BlockId := Nat

/-- A use of a type: the qualifier written there, if any, and the type arguments. -/
inductive TypeUse where
  | mk (written : Option String) (args : List TypeUse)

namespace TypeUse

def written : TypeUse → Option String
  | mk a _ => a

def args : TypeUse → List TypeUse
  | mk _ as => as

def plain : TypeUse := mk none []

end TypeUse

inductive CompareOp where
  | eq
  | ne
  | lt
  | le
  | gt
  | ge
deriving DecidableEq

namespace CompareOp

def all : List CompareOp := [eq, ne, lt, le, gt, ge]

def text : CompareOp → String
  | eq => "eq"
  | ne => "ne"
  | lt => "lt"
  | le => "le"
  | gt => "gt"
  | ge => "ge"

def ofText? (s : String) : Option CompareOp := all.find? (·.text == s)

end CompareOp

/-- A member of a unit, of the own unit if none is named. -/
structure MemberRef where
  unit : Option String := none
  name : String
deriving DecidableEq

inductive Target where
  | localVariable (name : String)
  | field (member : MemberRef)

inductive Instruction where
  | literal (dst : Temp) (kind : LiteralKind)
  | readLocal (dst : Temp) (name : String)
  | this (dst : Temp)
  | readField (dst : Temp) (field : MemberRef)
  | assign (target : Target) (value : Temp)
  | call (dst : Option Temp) (method : MemberRef) (receiver : Option Temp) (args : List Temp)
    (typeArgs : List TypeUse)
  | new (dst : Temp) (type : TypeUse) (maker : Option MemberRef) (args : List Temp)
  | cast (dst : Temp) (value : Temp) (type : TypeUse)
  | compare (dst : Temp) (op : CompareOp) (lhs rhs : Temp)
  /-- One of two values, by whether the guard has the qualifier. -/
  | select (dst : Temp) (guard : Temp) (qualifier : String) (thenValue elseValue : Temp)

inductive Terminator where
  | goto (target : BlockId)
  | branch (condition : Temp) (thenBlock elseBlock : BlockId)
  | ret (value : Option Temp)
  | unreachable

def Terminator.successors : Terminator → List BlockId
  | goto target => [target]
  | branch _ t e => [t, e]
  | ret _ | unreachable => []

structure Block where
  instructions : List Instruction
  terminator : Terminator

structure Body where
  entry : BlockId
  blocks : Array Block

def Body.predecessors (b : Body) : Array (List BlockId) :=
  ((List.range b.blocks.size).map fun target =>
    (List.range b.blocks.size).filter fun source =>
      (b.blocks[source]?).any fun block => block.terminator.successors.contains target).toArray

structure Variable where
  name : String
  type : TypeUse

structure TypeParameter where
  name : String
  bound : TypeUse

structure Method where
  name : String
  /-- Missing for static methods. -/
  receiver : Option TypeUse
  params : List Variable
  /-- Missing for methods without a result. -/
  returns : Option TypeUse
  typeParams : List TypeParameter
  locals : List Variable
  /-- Missing for methods that are only declared. -/
  body : Option Body

/-- A unit of compilation. -/
structure CodeUnit where
  name : String
  fields : List Variable
  methods : List Method

structure Program where
  units : List CodeUnit

end Qualify
