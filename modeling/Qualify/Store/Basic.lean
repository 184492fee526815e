import Qualify.Constraint.Canonical
import Qualify.Provenance

namespace Qualify

inductive Status where
  | active
  /-- It holds whatever is inferred. -/
  | discharged
  /-- A conditional constraint whose condition is known; one of its lists stands in its place. -/
  | replaced
deriving DecidableEq

def Status.text : Status → String
  | active => "active"
  | discharged => "discharged"
  | replaced => "replaced"

structure Entry where
  constraint : Constraint SlotId
  provenance : List Provenance
  status : Status := .active
deriving DecidableEq

/-- Slots and constraints of a unit. The numbers of slots are those of its own table. -/
structure UnitConstraints where
  unit : String
  slots : SlotTable
  constraints : List (Constraint SlotId × Provenance)
deriving DecidableEq

inductive StoreError where
  | slotConflict (conflict : SlotConflict)
  | unknownSlot (slot : SlotId) (constraint : Constraint SlotId)
deriving DecidableEq

def StoreError.kind : StoreError → String
  | slotConflict _ => "SlotConflict"
  | unknownSlot .. => "UnknownSlot"

def StoreError.message : StoreError → String
  | slotConflict conflict => conflict.message
  | unknownSlot slot constraint =>
    "constraint `" ++ constraint.text ++ "` refers to unknown slot " ++ slot.text

/-- The constraints of a program. Each one is stored once, in its canonical form, under its place of
entry. -/
structure ConstraintStore where
  slots : SlotTable := {}
  entries : Array Entry := #[]
deriving DecidableEq

namespace ConstraintStore

def size (s : ConstraintStore) : Nat := s.entries.size

def slot? (s : ConstraintStore) (i : SlotId) : Option Slot := s.slots.get? i

def constantOf (s : ConstraintStore) (i : SlotId) : Option Qualifier := s.slots.constantOf i

def variableSlots (s : ConstraintStore) : List SlotId :=
  s.slots.ids.filter fun i => (s.slots.get? i).any Slot.isVariable

def lookup (s : ConstraintStore) (l : Location) : Option SlotId := s.slots.lookup l

def entry? (s : ConstraintStore) (c : ConstraintId) : Option Entry := s.entries[c.index]?

def provenance (s : ConstraintStore) (c : ConstraintId) : List Provenance :=
  ((s.entry? c).map (·.provenance)).getD []

def numbered (s : ConstraintStore) : List (ConstraintId × Entry) :=
  s.entries.toList.zipIdx.map fun (e, i) => (⟨i⟩, e)

def active (s : ConstraintStore) : List (ConstraintId × Constraint SlotId) :=
  (s.numbered.filter (·.2.status == .active)).map fun (i, e) => (i, e.constraint)

def find? (s : ConstraintStore) (c : Constraint SlotId) : Option ConstraintId :=
  (s.entries.findIdx? (·.constraint == c)).map ConstraintId.mk

def lookupConstraint (s : ConstraintStore) (c : Constraint SlotId) : Option ConstraintId :=
  s.find? c.canonical

def constraintsOn (s : ConstraintStore) (i : SlotId) : List ConstraintId :=
  (s.numbered.filter fun (_, e) => e.constraint.slots.contains i).map (·.1)

def internSlot (s : ConstraintStore) (l : Location) (init : SlotInit) :
    Except StoreError (SlotId × ConstraintStore) :=
  match s.slots.intern l init with
  | .ok (i, slots) => .ok (i, { s with slots })
  | .error e => .error (.slotConflict e)

def addProvenance (p : Provenance) (e : Entry) : Entry :=
  if e.provenance.contains p then e else { e with provenance := e.provenance ++ [p] }

/-- Stores a constraint that is in canonical form. A constraint that is there already only gets the
provenance. -/
def insert (s : ConstraintStore) (c : Constraint SlotId) (p : Provenance) :
    ConstraintId × ConstraintStore :=
  match s.find? c with
  | some i => (i, { s with entries := s.entries.modify i.index (addProvenance p) })
  | none => (⟨s.size⟩, { s with entries := s.entries.push { constraint := c, provenance := [p] } })

def unknownSlot? (c : Constraint SlotId) (t : SlotTable) : Option SlotId :=
  c.slots.find? fun i => i.index ≥ t.size

def add (s : ConstraintStore) (c : Constraint SlotId) (p : Provenance) :
    Except StoreError (ConstraintId × ConstraintStore) :=
  match unknownSlot? c s.slots with
  | some i => .error (.unknownSlot i c)
  | none => .ok (s.insert c.canonical p)

/-- The slots in turn. Where one is refused, the table stays with those before it. -/
def internAll (t : SlotTable) : List Slot → Except SlotConflict (List SlotId) × SlotTable
  | [] => (.ok [], t)
  | x :: xs =>
    match t.intern x.location x.init with
    | .error e => (.error e, t)
    | .ok (i, t) =>
      let (names, t) := internAll t xs
      (names.map (i :: ·), t)

/-- Takes over the slots and constraints of a unit, and answers the new numbers of the slots. The
store is changed in place: it is returned as it is when the work ends or an error stops it. -/
def takeOver (s : ConstraintStore) (u : UnitConstraints) :
    Except StoreError (List SlotId) × ConstraintStore :=
  if let some e := u.slots.slots.toList.findSome? s.slots.conflict? then
    (.error (.slotConflict e), s)
  else if let some (i, c) :=
      u.constraints.findSome? fun (c, _) => (unknownSlot? c u.slots).map (·, c) then
    (.error (.unknownSlot i c), s)
  else match internAll s.slots u.slots.slots.toList with
    | (.error e, slots) => (.error (.slotConflict e), { s with slots })
    | (.ok names, slots) =>
      let rename (i : SlotId) : SlotId := names.getD i.index i
      let insertRenamed (s : ConstraintStore) (c : Constraint SlotId × Provenance) :
          ConstraintStore :=
        (s.insert (c.1.map rename).canonical c.2).2
      (.ok names, u.constraints.foldl insertRenamed { s with slots })

def absorb (s : ConstraintStore) (u : UnitConstraints) :
    Except StoreError (List SlotId × ConstraintStore) :=
  match s.takeOver u with
  | (.ok names, s) => .ok (names, s)
  | (.error e, _) => .error e

def describe (s : ConstraintStore) (l : Lattice) (c : Constraint SlotId) : String :=
  let slot (i : SlotId) : String :=
    match s.slots.get? i with
    | some ⟨_, .fixed q⟩ => l.nameOf q
    | some x => x.location.key
    | none => i.text
  c.render slot l.nameOf

end ConstraintStore

end Qualify
