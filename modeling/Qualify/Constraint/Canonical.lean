import Qualify.Constraint.Basic

namespace Qualify

namespace Constraint

def rank : Constraint SlotId → Nat
  | subtype .. => 0
  | equality .. => 1
  | inequality .. => 2
  | comparable .. => 3
  | preference .. => 4
  | existential .. => 5

def compareSlots (a b : SlotId) : Ordering := compare a.index b.index

def comparePairs (a b a' b' : SlotId) : Ordering := (compareSlots a a').then (compareSlots b b')

mutual

def cmp : Constraint SlotId → Constraint SlotId → Ordering
  | subtype a b, subtype a' b' => comparePairs a b a' b'
  | equality a b, equality a' b' => comparePairs a b a' b'
  | inequality a b, inequality a' b' => comparePairs a b a' b'
  | comparable a b, comparable a' b' => comparePairs a b a' b'
  | preference s q w, preference s' q' w' =>
    (compareSlots s s').then ((compare q.index q'.index).then (compare w.toNat w'.toNat))
  | existential s q ts os, existential s' q' ts' os' =>
    (compareSlots s s').then
      ((compare q.index q'.index).then ((cmpList ts ts').then (cmpList os os')))
  | c, c' => compare (rank c) (rank c')

def cmpList : List (Constraint SlotId) → List (Constraint SlotId) → Ordering
  | [], [] => .eq
  | [], _ :: _ => .lt
  | _ :: _, [] => .gt
  | c :: cs, c' :: cs' => (cmp c c').then (cmpList cs cs')

end

def le (a b : Constraint SlotId) : Bool := (cmp a b).isLE

def tidy (cs : List (Constraint SlotId)) : List (Constraint SlotId) := (cs.mergeSort le).eraseReps

def ordered (make : SlotId → SlotId → Constraint SlotId) (a b : SlotId) : Constraint SlotId :=
  if a.index ≤ b.index then make a b else make b a

mutual

/-- The form in which a constraint is stored: the order of operands, where it does not matter, goes
by slot, and conditional constraints are in order and without repetition. -/
def canonical : Constraint SlotId → Constraint SlotId
  | equality a b => ordered equality a b
  | inequality a b => ordered inequality a b
  | comparable a b => ordered comparable a b
  | existential s q thens otherwise =>
    existential s q (tidy (canonicalList thens)) (tidy (canonicalList otherwise))
  | c => c

def canonicalList : List (Constraint SlotId) → List (Constraint SlotId)
  | [] => []
  | c :: cs => canonical c :: canonicalList cs

end

end Constraint

end Qualify
