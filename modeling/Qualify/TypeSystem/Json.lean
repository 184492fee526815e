import Qualify.TypeSystem.Basic
import Qualify.Json.Decode

namespace Qualify

namespace LatticeDescription

def edgeOfJson? : Json → Option (String × String)
  | .array [sub, sup] => do return (← sub.string?, ← sup.string?)
  | _ => none

def ofJson? (j : Json) : Option LatticeDescription := do
  let [name, qualifiers, edges, top, bottom] ← j.record?
    ["name", "qualifiers", "subtype", "top", "bottom"] | none
  return {
    name := ← Json.Field.required Json.string? name
    qualifiers := ← Json.Field.required (Json.list? Json.string?) qualifiers
    edges := ← Json.Field.withDefault [] (Json.list? edgeOfJson?) edges
    top := ← Json.Field.optional Json.string? top
    bottom := ← Json.Field.optional Json.string? bottom }

def toJson (d : LatticeDescription) : Json :=
  .object [("name", .string d.name), ("qualifiers", .ofList .string d.qualifiers),
    ("subtype", .ofList (fun (sub, sup) => .array [.string sub, .string sup]) d.edges),
    ("top", .ofOption .string d.top), ("bottom", .ofOption .string d.bottom)]

end LatticeDescription

namespace PreferenceDescription

def kindOfJson? (j : Json) : Option SlotKind := j.name?.bind SlotKind.ofText?

def ofJson? (j : Json) : Option PreferenceDescription := do
  let [kind, qualifier, weight] ← j.record? ["kind", "qualifier", "weight"] | none
  return {
    kind := ← Json.Field.required kindOfJson? kind
    qualifier := ← Json.Field.required Json.string? qualifier
    weight := ← Json.Field.required Json.word? weight }

def toJson (p : PreferenceDescription) : Json :=
  .object [("kind", .string p.kind.text), ("qualifier", .string p.qualifier),
    ("weight", .ofNat p.weight.toNat)]

end PreferenceDescription

namespace TypeSystemDescription

def lastEntries {α β : Type} [BEq α] : List (α × β) → List (α × β)
  | [] => []
  | (a, b) :: rest => if rest.any (·.1 == a) then lastEntries rest else (a, b) :: lastEntries rest

def mapOfJson? {α : Type} [BEq α] (key : String → Option α) (j : Json) :
    Option (List (α × String)) :=
  (Json.entries? key Json.string? j).map lastEntries

def ofJson? (j : Json) : Option TypeSystemDescription := do
  let [lattice, defaults, literals, preferences] ← j.record?
    ["lattice", "defaults", "literals", "preferences"] | none
  return {
    lattice := ← Json.Field.required LatticeDescription.ofJson? lattice
    defaults := ← Json.Field.withDefault [] (mapOfJson? SlotKind.ofText?) defaults
    literals := ← Json.Field.withDefault [] (mapOfJson? LiteralKind.ofText?) literals
    preferences := ← Json.Field.withDefault [] (Json.list? PreferenceDescription.ofJson?)
      preferences }

def toJson (d : TypeSystemDescription) : Json :=
  .object [("lattice", d.lattice.toJson),
    ("defaults", .object (d.defaults.map fun (k, name) => (k.text, .string name))),
    ("literals", .object (d.literals.map fun (k, name) => (k.text, .string name))),
    ("preferences", .ofList PreferenceDescription.toJson d.preferences)]

end TypeSystemDescription

def TypeSystem.toJson (t : TypeSystem) : Json :=
  let l := t.lattice
  let name (q : Qualifier) : Json := .string (l.nameOf q)
  let preference (p : PreferenceRule) : Json := .array [name p.qualifier, .ofNat p.weight.toNat]
  .object [("lattice", .string l.name), ("qualifiers", .ofList name l.qualifiers),
    ("top", name l.top), ("bottom", name l.bottom),
    ("defaults", .object (SlotKind.all.map fun k => (k.text, .ofOption name (t.defaultFor k)))),
    ("literals", .object (LiteralKind.all.map fun k => (k.text, name (t.literal k)))),
    ("preferences",
      .object (SlotKind.all.map fun k => (k.text, .ofList preference (t.preferencesFor k))))]

end Qualify
