import Qualify.Store.Basic

namespace Qualify

structure Contradiction where
  constraint : ConstraintId
  /-- The constraints on the same slots, this one included. -/
  related : List ConstraintId
  message : String
  locations : List String
deriving DecidableEq

structure SimplifyReport where
  discharged : Nat := 0
  replaced : Nat := 0
deriving DecidableEq

inductive Verdict where
  | undecided
  | holds
  | violated
  /-- The condition is known, and these constraints count. -/
  | branch (cs : List (Constraint SlotId))

namespace Verdict

def ofBool (b : Bool) : Verdict := if b then holds else violated

end Verdict

namespace ConstraintStore

def compareFixed (s : ConstraintStore) (a b : SlotId) (relation : Qualifier → Qualifier → Bool) :
    Verdict :=
  match s.constantOf a, s.constantOf b with
  | some p, some q => .ofBool (relation p q)
  | _, _ => .undecided

def verdict (s : ConstraintStore) (l : Lattice) : Constraint SlotId → Verdict
  | .subtype a b =>
    if a = b then .holds
    else match s.constantOf a, s.constantOf b with
      | some p, some q => .ofBool (l.isSubtype p q)
      | none, some q => if q = l.top then .holds else .undecided
      | some p, none => if p = l.bottom then .holds else .undecided
      | none, none => .undecided
  | .equality a b => if a = b then .holds else s.compareFixed a b fun p q => p = q
  | .inequality a b => if a = b then .violated else s.compareFixed a b fun p q => p ≠ q
  | .comparable a b => if a = b then .holds else s.compareFixed a b l.isComparable
  | .preference i _ _ => if (s.constantOf i).isSome then .holds else .undecided
  | .existential i q thens otherwise =>
    match s.constantOf i with
    | some p => .branch (if p = q then thens else otherwise)
    | none => .undecided

def slotSet (c : Constraint SlotId) : List SlotId :=
  (c.slots.mergeSort fun a b => decide (a.index ≤ b.index)).eraseReps

def contradiction (s : ConstraintStore) (l : Lattice) (i : ConstraintId) (c : Constraint SlotId) :
    Contradiction :=
  let related := s.numbered.filter fun (j, e) =>
    j == i || (!e.constraint.isExistential && slotSet e.constraint == slotSet c)
  let places := (slotSet c).filterMap fun x => (s.slots.get? x).map (·.location.key)
  let origins := related.flatMap fun (_, e) => e.provenance.map Provenance.text
  { constraint := i
    related := related.map (·.1)
    message := "unsatisfiable by constants: " ++ s.describe l c ++ " (" ++ i.text ++ ")"
    locations := (places ++ origins).eraseDups }

def setStatus (s : ConstraintStore) (i : ConstraintId) (status : Status) : ConstraintStore :=
  { s with entries := s.entries.modify i.index ({ · with status }) }

def insertAll (s : ConstraintStore) (cs : List (Constraint SlotId)) (ps : List Provenance) :
    ConstraintStore :=
  cs.foldl (fun s c => ps.foldl (fun s p => (s.insert c p).2) s) s

/-- Goes through the constraints from number `i` on, those included that are stored on the way. -/
def simplifyFrom (l : Lattice) : Nat → Nat → SimplifyReport → ConstraintStore →
    Except Contradiction SimplifyReport × ConstraintStore
  | 0, _, report, s => (.ok report, s)
  | fuel + 1, i, report, s =>
    match s.entries[i]? with
    | none => (.ok report, s)
    | some e =>
      if e.status ≠ .active then simplifyFrom l fuel (i + 1) report s
      else match s.verdict l e.constraint with
        | .undecided => simplifyFrom l fuel (i + 1) report s
        | .holds =>
          simplifyFrom l fuel (i + 1) { report with discharged := report.discharged + 1 }
            (s.setStatus ⟨i⟩ .discharged)
        | .violated => (.error (s.contradiction l ⟨i⟩ e.constraint), s)
        | .branch cs =>
          simplifyFrom l fuel (i + 1) { report with replaced := report.replaced + 1 }
            ((s.setStatus ⟨i⟩ .replaced).insertAll cs e.provenance)

def weight (s : ConstraintStore) : Nat := Constraint.sizeList (s.entries.toList.map (·.constraint))

/-- Settles all constraints that the fixed slots decide. What was settled before a contradiction
stays so. -/
def simplify (l : Lattice) (s : ConstraintStore) :
    Except Contradiction SimplifyReport × ConstraintStore :=
  simplifyFrom l s.weight 0 {} s

end ConstraintStore

end Qualify
