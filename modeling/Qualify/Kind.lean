namespace Qualify

/-- What a slot stands for in the program. -/
inductive SlotKind where
  | field
  | parameter
  | receiver
  | result
  | localVariable
  | typeArgument
  | typeParameter
  | allocation
  | cast
  | expression
  | literal
  | merge
  | refinement
  | select
deriving DecidableEq, Repr

namespace SlotKind

def all : List SlotKind :=
  [field, parameter, receiver, result, localVariable, typeArgument, typeParameter, allocation, cast,
    expression, literal, merge, refinement, select]

def text : SlotKind → String
  | field => "field"
  | parameter => "parameter"
  | receiver => "receiver"
  | result => "return"
  | localVariable => "local"
  | typeArgument => "type_argument"
  | typeParameter => "type_parameter"
  | allocation => "allocation"
  | cast => "cast"
  | expression => "expression"
  | literal => "literal"
  | merge => "merge"
  | refinement => "refinement"
  | select => "select"

def ofText? (s : String) : Option SlotKind := all.find? (·.text == s)

def insertable : SlotKind → Bool
  | expression | literal | merge | refinement | select => false
  | _ => true

end SlotKind

inductive LiteralKind where
  | null
  | boolean
  | integer
  | float
  | char
  | string
deriving DecidableEq, Repr

namespace LiteralKind

def all : List LiteralKind := [null, boolean, integer, float, char, string]

def text : LiteralKind → String
  | null => "null"
  | boolean => "boolean"
  | integer => "integer"
  | float => "float"
  | char => "char"
  | string => "string"

def ofText? (s : String) : Option LiteralKind := all.find? (·.text == s)

def title : LiteralKind → String
  | null => "Null"
  | boolean => "Boolean"
  | integer => "Integer"
  | float => "Float"
  | char => "Char"
  | string => "String"

end LiteralKind

end Qualify
