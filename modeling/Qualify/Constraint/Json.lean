import Qualify.Constraint.Basic
import Qualify.Json.Decode

namespace Qualify

namespace Slot

def locationJson (l : Location) : Json :=
  .object [("unit", .string l.unit), ("position", .string l.position),
    ("kind", .string l.kind.text)]

def toJson (i : SlotId) (s : Slot) : Json :=
  let index (q : Qualifier) : Json := .ofNat q.index
  match s.init with
  | .fixed q =>
    .object [("slot", .string "constant"), ("id", .ofNat i.index), ("qualifier", index q),
      ("location", locationJson s.location)]
  | .inferred q =>
    .object [("slot", .string "variable"), ("id", .ofNat i.index), ("default", .ofOption index q),
      ("location", locationJson s.location)]

end Slot

namespace Constraint

mutual

def toJson : Constraint SlotId → Json
  | subtype a b => .object [("subtype", .object [("sub", .ofNat a.index), ("sup", .ofNat b.index)])]
  | equality a b => .object [("equality", .array [.ofNat a.index, .ofNat b.index])]
  | inequality a b => .object [("inequality", .array [.ofNat a.index, .ofNat b.index])]
  | comparable a b => .object [("comparable", .array [.ofNat a.index, .ofNat b.index])]
  | preference s q w =>
    .object [("preference", .object [("slot", .ofNat s.index), ("qualifier", .ofNat q.index),
      ("weight", .ofNat w.toNat)])]
  | existential s q thens otherwise =>
    .object [("existential", .object [("condition", .ofNat s.index), ("qualifier", .ofNat q.index),
      ("then", .array (toJsonList thens)), ("otherwise", .array (toJsonList otherwise))])]

def toJsonList : List (Constraint SlotId) → List Json
  | [] => []
  | c :: cs => toJson c :: toJsonList cs

end

def slotOfJson? (j : Json) : Option SlotId := (j.natBelow? UInt32.size).map SlotId.mk

def qualifierOfJson? (j : Json) : Option Qualifier := (j.natBelow? UInt16.size).map Qualifier.mk

def pairOfJson? (make : SlotId → SlotId → Constraint SlotId) : Json → Option (Constraint SlotId)
  | .array [a, b] => do return make (← slotOfJson? a) (← slotOfJson? b)
  | _ => none

/-- Reads a constraint with conditional ones nested fewer than `depth` deep. -/
def ofJsonWithin? : Nat → Json → Option (Constraint SlotId)
  | 0, _ => none
  | depth + 1, .object [(kind, j)] => do
    match kind with
    | "subtype" =>
      let [sub, sup] ← j.record? ["sub", "sup"] | none
      return subtype (← Json.Field.required slotOfJson? sub) (← Json.Field.required slotOfJson? sup)
    | "equality" => pairOfJson? equality j
    | "inequality" => pairOfJson? inequality j
    | "comparable" => pairOfJson? comparable j
    | "preference" =>
      let [s, q, w] ← j.record? ["slot", "qualifier", "weight"] | none
      return preference (← Json.Field.required slotOfJson? s)
        (← Json.Field.required qualifierOfJson? q) (← Json.Field.required Json.word? w)
    | "existential" =>
      let [s, q, thens, otherwise] ← j.record?
        ["condition", "qualifier", "then", "otherwise"] | none
      return existential (← Json.Field.required slotOfJson? s)
        (← Json.Field.required qualifierOfJson? q)
        (← Json.Field.required (Json.list? (ofJsonWithin? depth)) thens)
        (← Json.Field.required (Json.list? (ofJsonWithin? depth)) otherwise)
    | _ => none
  | _ + 1, _ => none

/-- No document is deep enough to run out of the bound. -/
def ofJson? (j : Json) : Option (Constraint SlotId) := ofJsonWithin? 128 j

end Constraint

end Qualify
