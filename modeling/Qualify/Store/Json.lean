import Qualify.Constraint.Json
import Qualify.Store.Basic

namespace Qualify

def Entry.toJson (s : ConstraintStore) (l : Lattice) (i : ConstraintId) (e : Entry) : Json :=
  .object [("id", .string i.text), ("json", e.constraint.toJson),
    ("describe", .string (s.describe l e.constraint)), ("status", .string e.status.text),
    ("provenance", .ofList (fun (p : Provenance) => .array [.string p.text, .string p.rule.text])
      e.provenance)]

def SlotTable.rows (t : SlotTable) : List Json :=
  t.ids.filterMap fun i => (t.get? i).map (Slot.toJson i)

def ConstraintStore.toJson (s : ConstraintStore) (l : Lattice) : Json :=
  .object [("slots", .array s.slots.rows),
    ("variables", .ofList (fun (i : SlotId) => .ofNat i.index) s.variableSlots),
    ("constraints", .ofList (fun (i, e) => Entry.toJson s l i e) s.numbered),
    ("active", .ofList (fun (c : ConstraintId × Constraint SlotId) => .ofNat c.1.index) s.active)]

end Qualify
