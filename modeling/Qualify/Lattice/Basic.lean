import Qualify.IndexSet

namespace Qualify

structure Qualifier where
  index : Nat
deriving DecidableEq, Inhabited, Repr

def Qualifier.text (q : Qualifier) : String := "q" ++ toString q.index

/-- What is declared of a qualifier hierarchy. -/
structure LatticeDescription where
  name : String
  qualifiers : List String
  /-- Pairs of a qualifier and one above it. -/
  edges : List (String × String) := []
  /-- The greatest qualifier, looked for if it is left out. -/
  top : Option String := none
  bottom : Option String := none

/-- A bounded lattice of qualifiers. -/
structure Lattice where
  name : String
  names : Array String
  /-- The qualifiers above each one, itself included. -/
  up : Array IndexSet
  down : Array IndexSet
  top : Qualifier
  bottom : Qualifier
  /-- Least upper bounds of all pairs, row by row. -/
  lubs : Array Qualifier
  glbs : Array Qualifier
deriving Inhabited

namespace Lattice

def size (l : Lattice) : Nat := l.names.size

def isEmpty (l : Lattice) : Bool := l.size == 0

def qualifiers (l : Lattice) : List Qualifier := (List.range l.size).map Qualifier.mk

def qualifier? (l : Lattice) (name : String) : Option Qualifier :=
  (l.names.toList.idxOf? name).map Qualifier.mk

def nameOf (l : Lattice) (q : Qualifier) : String := l.names.getD q.index ""

def row (rows : Array IndexSet) (i : Nat) : IndexSet := rows.getD i {}

def isSubtype (l : Lattice) (a b : Qualifier) : Bool := (row l.up a.index).contains b.index

def isComparable (l : Lattice) (a b : Qualifier) : Bool := l.isSubtype a b || l.isSubtype b a

def lub (l : Lattice) (a b : Qualifier) : Qualifier :=
  l.lubs.getD (a.index * l.size + b.index) l.top

def glb (l : Lattice) (a b : Qualifier) : Qualifier :=
  l.glbs.getD (a.index * l.size + b.index) l.bottom

def supertypes (l : Lattice) (q : Qualifier) : List Qualifier :=
  (row l.up q.index).toList.map Qualifier.mk

def subtypes (l : Lattice) (q : Qualifier) : List Qualifier :=
  (row l.down q.index).toList.map Qualifier.mk

def incomparable (l : Lattice) (q : Qualifier) : List Qualifier :=
  l.qualifiers.filter fun b => !l.isComparable q b

end Lattice

end Qualify
