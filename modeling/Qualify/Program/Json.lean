import Qualify.Program.Basic
import Qualify.Json.Reader
import Qualify.Json.Decode

namespace Qualify

namespace Program

open Json.Field

def temp? (j : Json) : Option Temp := j.natBelow? UInt32.size

def block? (j : Json) : Option BlockId := j.natBelow? UInt64.size

/-- Reads a type whose arguments are nested fewer than `depth` deep. -/
def typeWithin? : Nat → Json → Option TypeUse
  | 0, _ => none
  | depth + 1, j => do
    let [written, args] ← j.record? ["annotation", "args"] | none
    return .mk (← optional Json.string? written)
      (← withDefault [] (Json.list? (typeWithin? depth)) args)

def type? (j : Json) : Option TypeUse := typeWithin? (Json.depthLimit + 1) j

def member? (j : Json) : Option MemberRef := do
  let [unit, name] ← j.record? ["unit", "name"] | none
  return { unit := ← optional Json.string? unit, name := ← required Json.string? name }

def target? (j : Json) : Option Target := do
  let (kind, j) ← j.tagged? "target"
  match kind with
  | "local" =>
    let [name] ← j.record? ["name"] | none
    return .localVariable (← required Json.string? name)
  | "field" =>
    let [field] ← j.record? ["field"] | none
    return .field (← required member? field)
  | _ => none

def literalKind? (j : Json) : Option LiteralKind := j.name?.bind LiteralKind.ofText?

def compareOp? (j : Json) : Option CompareOp := j.name?.bind CompareOp.ofText?

def temps? (field : Option Json) : Option (List Temp) := withDefault [] (Json.list? temp?) field

def instruction? (j : Json) : Option Instruction := do
  let (op, j) ← j.tagged? "op"
  match op with
  | "literal" =>
    let [dst, kind] ← j.record? ["dst", "kind"] | none
    return .literal (← required temp? dst) (← required literalKind? kind)
  | "read_local" =>
    let [dst, name] ← j.record? ["dst", "name"] | none
    return .readLocal (← required temp? dst) (← required Json.string? name)
  | "this" =>
    let [dst] ← j.record? ["dst"] | none
    return .this (← required temp? dst)
  | "read_field" =>
    let [dst, field] ← j.record? ["dst", "field"] | none
    return .readField (← required temp? dst) (← required member? field)
  | "assign" =>
    let [target, value] ← j.record? ["target", "value"] | none
    return .assign (← required target? target) (← required temp? value)
  | "call" =>
    let [dst, method, receiver, args, typeArgs] ← j.record?
      ["dst", "method", "receiver", "args", "type_args"] | none
    return .call (← optional temp? dst) (← required member? method) (← optional temp? receiver)
      (← temps? args) (← withDefault [] (Json.list? type?) typeArgs)
  | "new" =>
    let [dst, type, maker, args] ← j.record? ["dst", "ty", "constructor", "args"] | none
    return .new (← required temp? dst) (← required type? type) (← optional member? maker)
      (← temps? args)
  | "cast" =>
    let [dst, value, type] ← j.record? ["dst", "value", "ty"] | none
    return .cast (← required temp? dst) (← required temp? value) (← required type? type)
  | "compare" =>
    let [dst, op, lhs, rhs] ← j.record? ["dst", "relation", "lhs", "rhs"] | none
    return .compare (← required temp? dst) (← required compareOp? op) (← required temp? lhs)
      (← required temp? rhs)
  | "select" =>
    let [dst, guard, qualifier, t, e] ← j.record?
      ["dst", "guard", "qualifier", "then", "otherwise"] | none
    return .select (← required temp? dst) (← required temp? guard)
      (← required Json.string? qualifier) (← required temp? t) (← required temp? e)
  | _ => none

def terminator? (j : Json) : Option Terminator := do
  let (kind, j) ← j.tagged? "kind"
  match kind with
  | "goto" =>
    let [target] ← j.record? ["target"] | none
    return .goto (← required block? target)
  | "branch" =>
    let [condition, t, e] ← j.record? ["condition", "then", "otherwise"] | none
    return .branch (← required temp? condition) (← required block? t) (← required block? e)
  | "return" =>
    let [value] ← j.record? ["value"] | none
    return .ret (← optional temp? value)
  | "unreachable" =>
    let [] ← j.record? [] | none
    return .unreachable
  | _ => none

def basicBlock? (j : Json) : Option Block := do
  let [instructions, terminator] ← j.record? ["nodes", "terminator"] | none
  return { instructions := ← withDefault [] (Json.list? instruction?) instructions
           terminator := ← required terminator? terminator }

def body? (j : Json) : Option Body := do
  let [entry, blocks] ← j.record? ["entry", "blocks"] | none
  return { entry := ← withDefault 0 block? entry,
           blocks := (← required (Json.list? basicBlock?) blocks).toArray }

def declaration? (j : Json) : Option Variable := do
  let [name, type] ← j.record? ["name", "ty"] | none
  return { name := ← required Json.string? name, type := ← required type? type }

def typeParameter? (j : Json) : Option TypeParameter := do
  let [name, bound] ← j.record? ["name", "bound"] | none
  return { name := ← required Json.string? name, bound := ← withDefault .plain type? bound }

def method? (j : Json) : Option Method := do
  let [name, receiver, params, returns, typeParams, locals, body] ←
    j.record? ["name", "receiver", "params", "returns", "type_params", "locals", "body"] | none
  return {
    name := ← required Json.string? name
    receiver := ← optional type? receiver
    params := ← withDefault [] (Json.list? declaration?) params
    returns := ← optional type? returns
    typeParams := ← withDefault [] (Json.list? typeParameter?) typeParams
    locals := ← withDefault [] (Json.list? declaration?) locals
    body := ← optional body? body }

def codeUnit? (j : Json) : Option CodeUnit := do
  let [name, fields, methods] ← j.record? ["name", "fields", "methods"] | none
  return {
    name := ← required Json.string? name
    fields := ← withDefault [] (Json.list? declaration?) fields
    methods := ← withDefault [] (Json.list? method?) methods }

def ofJson? (j : Json) : Option Program := do
  let [units] ← j.record? ["units"] | none
  return { units := ← required (Json.list? codeUnit?) units }

mutual

def typeJson : TypeUse → Json
  | .mk written args =>
    .object [("annotation", .ofOption .string written), ("args", .array (typeJsons args))]

def typeJsons : List TypeUse → List Json
  | [] => []
  | t :: ts => typeJson t :: typeJsons ts

end

def memberJson (m : MemberRef) : Json :=
  .object [("unit", .ofOption .string m.unit), ("name", .string m.name)]

def targetJson : Target → Json
  | .localVariable name => .object [("target", .string "local"), ("name", .string name)]
  | .field member => .object [("target", .string "field"), ("field", memberJson member)]

def instructionJson (i : Instruction) : Json :=
  let op (name : String) (fields : List (String × Json)) : Json :=
    .object (("op", .string name) :: fields)
  match i with
  | .literal dst kind => op "literal" [("dst", .ofNat dst), ("kind", .string kind.text)]
  | .readLocal dst name => op "read_local" [("dst", .ofNat dst), ("name", .string name)]
  | .this dst => op "this" [("dst", .ofNat dst)]
  | .readField dst field => op "read_field" [("dst", .ofNat dst), ("field", memberJson field)]
  | .assign target value => op "assign" [("target", targetJson target), ("value", .ofNat value)]
  | .call dst method receiver args typeArgs =>
    op "call" [("dst", .ofOption .ofNat dst), ("method", memberJson method),
      ("receiver", .ofOption .ofNat receiver), ("args", .ofList .ofNat args),
      ("type_args", .array (typeJsons typeArgs))]
  | .new dst type maker args =>
    op "new" [("dst", .ofNat dst), ("ty", typeJson type),
      ("constructor", .ofOption memberJson maker), ("args", .ofList .ofNat args)]
  | .cast dst value type =>
    op "cast" [("dst", .ofNat dst), ("value", .ofNat value), ("ty", typeJson type)]
  | .compare dst c lhs rhs =>
    op "compare" [("dst", .ofNat dst), ("relation", .string c.text), ("lhs", .ofNat lhs),
      ("rhs", .ofNat rhs)]
  | .select dst guard qualifier t e =>
    op "select" [("dst", .ofNat dst), ("guard", .ofNat guard), ("qualifier", .string qualifier),
      ("then", .ofNat t), ("otherwise", .ofNat e)]

def terminatorJson : Terminator → Json
  | .goto target => .object [("kind", .string "goto"), ("target", .ofNat target)]
  | .branch condition t e =>
    .object [("kind", .string "branch"), ("condition", .ofNat condition), ("then", .ofNat t),
      ("otherwise", .ofNat e)]
  | .ret value => .object [("kind", .string "return"), ("value", .ofOption .ofNat value)]
  | .unreachable => .object [("kind", .string "unreachable")]

def blockJson (b : Block) : Json :=
  .object [("nodes", .ofList instructionJson b.instructions),
    ("terminator", terminatorJson b.terminator)]

def bodyJson (b : Body) : Json :=
  .object [("entry", .ofNat b.entry), ("blocks", .ofList blockJson b.blocks.toList)]

def variableJson (v : Variable) : Json :=
  .object [("name", .string v.name), ("ty", typeJson v.type)]

def typeParameterJson (p : TypeParameter) : Json :=
  .object [("name", .string p.name), ("bound", typeJson p.bound)]

def methodJson (m : Method) : Json :=
  .object [("name", .string m.name), ("receiver", .ofOption typeJson m.receiver),
    ("params", .ofList variableJson m.params), ("returns", .ofOption typeJson m.returns),
    ("type_params", .ofList typeParameterJson m.typeParams),
    ("locals", .ofList variableJson m.locals), ("body", .ofOption bodyJson m.body)]

def codeUnitJson (u : CodeUnit) : Json :=
  .object [("name", .string u.name), ("fields", .ofList variableJson u.fields),
    ("methods", .ofList methodJson u.methods)]

def toJson (p : Program) : Json := .object [("units", .ofList codeUnitJson p.units)]

end Program

end Qualify
