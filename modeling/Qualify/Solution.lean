import Qualify.Json.Printer
import Qualify.Store.Basic

namespace Qualify

structure Solution where
  values : List (SlotId × Qualifier) := []
deriving DecidableEq

namespace Solution

def size (s : Solution) : Nat := s.values.length

def isEmpty (s : Solution) : Bool := s.values.isEmpty

def get? (s : Solution) (i : SlotId) : Option Qualifier := s.values.lookup i

def value (s : Solution) (store : ConstraintStore) (i : SlotId) : Option Qualifier :=
  match s.get? i with
  | some q => some q
  | none => store.constantOf i

/-- The solved slots at which an annotation can be written, with the qualifier's name. -/
def insertions (s : Solution) (store : ConstraintStore) (l : Lattice) : List (Location × String) :=
  s.values.filterMap fun (i, q) => do
    let slot ← store.slot? i
    if slot.location.kind.insertable then some (slot.location, l.nameOf q) else none

/-- Enters a text in a list that is sorted by key; the same key is overwritten. -/
def enter (key text : String) : List (String × String) → List (String × String)
  | [] => [(key, text)]
  | (k, t) :: rest =>
    if k = key then (key, text) :: rest
    else if key < k then (key, text) :: (k, t) :: rest
    else (k, t) :: enter key text rest

/-- The annotations by the key of their location, in order of keys. -/
def annotations (s : Solution) (store : ConstraintStore) (l : Lattice) : List (String × String) :=
  (s.insertions store l).foldl (fun as (loc, name) => enter loc.key name as) []

def toJson (s : Solution) (store : ConstraintStore) (l : Lattice) : Json :=
  .object ((s.annotations store l).map fun (key, name) => (key, .string name))

def text (s : Solution) (store : ConstraintStore) (l : Lattice) : String :=
  (s.toJson store l).pretty

end Solution

end Qualify
