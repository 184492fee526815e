import Qualify.Kind
import Qualify.Lattice.Basic

namespace Qualify

structure SlotId where
  index : Nat
deriving DecidableEq, Inhabited, Repr

def SlotId.text (s : SlotId) : String := "s" ++ toString s.index

/-- Where a slot is in the program. One location has one slot. -/
structure Location where
  unit : String
  position : String
  kind : SlotKind
deriving DecidableEq, Repr

namespace Location

def key (l : Location) : String := l.unit ++ ":" ++ l.position ++ ":" ++ l.kind.text

def child (l : Location) (suffix : String) (kind : SlotKind) : Location :=
  ⟨l.unit, l.position ++ suffix, kind⟩

end Location

/-- A slot has a qualifier of its own or gets one by inference, if possible its default. -/
inductive SlotInit where
  | fixed (q : Qualifier)
  | inferred (default : Option Qualifier)
deriving DecidableEq, Inhabited

namespace SlotInit

def qualifierText (q : Qualifier) : String := "Qualifier(" ++ toString q.index ++ ")"

def text : SlotInit → String
  | fixed q => "Constant(" ++ qualifierText q ++ ")"
  | inferred none => "Variable \x7b default: None \x7d"
  | inferred (some q) => "Variable \x7b default: Some(" ++ qualifierText q ++ ") \x7d"

def constant? : SlotInit → Option Qualifier
  | fixed q => some q
  | inferred _ => none

def default? : SlotInit → Option Qualifier
  | fixed _ => none
  | inferred q => q

end SlotInit

structure Slot where
  location : Location
  init : SlotInit
deriving DecidableEq

namespace Slot

def constant? (s : Slot) : Option Qualifier := s.init.constant?

def default? (s : Slot) : Option Qualifier := s.init.default?

def isConstant (s : Slot) : Bool := s.constant?.isSome

def isVariable (s : Slot) : Bool := !s.isConstant

end Slot

structure SlotConflict where
  location : Location
  existing : SlotInit
  requested : SlotInit
deriving DecidableEq

def SlotConflict.message (c : SlotConflict) : String :=
  "location `" ++ c.location.key ++ "` is requested as " ++ c.requested.text ++
    " but already exists as " ++ c.existing.text

/-- Slots in the order of their first request. -/
structure SlotTable where
  slots : Array Slot := #[]
deriving DecidableEq, Inhabited

namespace SlotTable

def size (t : SlotTable) : Nat := t.slots.size

def isEmpty (t : SlotTable) : Bool := t.size == 0

def get? (t : SlotTable) (s : SlotId) : Option Slot := t.slots[s.index]?

def ids (t : SlotTable) : List SlotId := (List.range t.size).map SlotId.mk

def lookup (t : SlotTable) (l : Location) : Option SlotId :=
  (t.slots.findIdx? (·.location == l)).map SlotId.mk

/-- The slot that the location has already, if it agrees with the request. -/
def check (t : SlotTable) (l : Location) (init : SlotInit) : Except SlotConflict (Option SlotId) :=
  match t.slots.find? (·.location == l) with
  | none => .ok none
  | some s => if s.init = init then .ok (t.lookup l) else .error ⟨l, s.init, init⟩

/-- The slot of the location, which is made at the first request. -/
def intern (t : SlotTable) (l : Location) (init : SlotInit) :
    Except SlotConflict (SlotId × SlotTable) :=
  match t.check l init with
  | .error e => .error e
  | .ok (some s) => .ok (s, t)
  | .ok none => .ok (⟨t.size⟩, ⟨t.slots.push ⟨l, init⟩⟩)

def conflict? (t : SlotTable) (s : Slot) : Option SlotConflict :=
  match t.check s.location s.init with
  | .error e => some e
  | .ok _ => none

def constantOf (t : SlotTable) (s : SlotId) : Option Qualifier := (t.get? s).bind Slot.constant?

end SlotTable

end Qualify
