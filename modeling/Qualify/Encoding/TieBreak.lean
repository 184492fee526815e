import Qualify.Encoding.Decode

namespace Qualify

/-- What decides between models of equal cost. -/
inductive TieBreakPolicy where
  /-- The default of a slot comes first, and then the least qualifier. -/
  | defaultOrBottom
  | bottom
  /-- The first model is taken. -/
  | disabled
deriving DecidableEq

namespace TieBreakPolicy

def all : List TieBreakPolicy := [defaultOrBottom, bottom, disabled]

def text : TieBreakPolicy → String
  | defaultOrBottom => "default_or_bottom"
  | bottom => "bottom"
  | disabled => "disabled"

def ofText? (s : String) : Option TieBreakPolicy := all.find? (·.text == s)

def targets (p : TieBreakPolicy) (l : Lattice) (default : Option Qualifier) : List Qualifier :=
  match p with
  | defaultOrBottom => default.toList ++ [l.bottom]
  | bottom => [l.bottom]
  | disabled => []

end TieBreakPolicy

namespace Encoding

variable (e : Encoding) (l : Lattice)

def heavier (a b : DeferredPreference) : Bool :=
  decide (b.weight < a.weight) ||
    (a.weight == b.weight && decide (a.constraint.index ≤ b.constraint.index))

def preferred (i : SlotId) : List Qualifier :=
  ((e.deferred.filter (·.slot == i)).mergeSort heavier).map (·.qualifier)

/-- The qualifiers to be tried for a slot, best first: its deferred preferences, and then those of
the policy. -/
def targets (p : TieBreakPolicy) (s : ConstraintStore) (i : SlotId) : List Qualifier :=
  (e.preferred i ++ p.targets l ((s.slot? i).bind Slot.default?)).eraseDups

def targetLits (p : TieBreakPolicy) (s : ConstraintStore) (i : SlotId) : List Lit :=
  (e.targets l p s i).filterMap (e.vars.lit? i)

/-- The literal of the qualifier that a model gives a slot, if it gives exactly one. -/
def pin? (model : Model) (i : SlotId) : Option Lit :=
  match e.chosen l model i with
  | [q] => e.vars.lit? i q
  | _ => none

section Search

variable {σ : Type} [Backend σ]

/-- A model that costs no more than the optimum and meets the literals. -/
def attempt (optimum : Weight) (lits : List Lit) : Solving σ (Option Model) := do
  match ← Backend.solve e.cnf lits with
  | .sat m => return if m.cost ≤ optimum then some m else none
  | .unsat _ => return none

def attemptAll (current : Model) (optimum : Weight) (pinned lits : List Lit) :
    Solving σ (Option Model) :=
  if lits.all (·.holds current.assignment) then return some current
  else e.attempt optimum (pinned ++ lits)

def attemptEach (current : Model) (optimum : Weight) (pinned : List Lit) :
    List Lit → Solving σ Model
  | [] => return current
  | x :: xs => do
    match ← e.attemptAll current optimum pinned [x] with
    | some m => return m
    | none => attemptEach current optimum pinned xs

/-- Settles slots in their order. The first choices of `1 <<< k` slots are tried together: if they
can be met, the next number is twice as large, and if not, half as large. A slot on its own tries
its other choices too. -/
def settle (optimum : Weight) (k : Nat) (slots : List (SlotId × List Lit)) (current : Model)
    (pinned : List Lit) :
    Solving σ Model :=
  match slots with
  | [] => return current
  | (i, lits) :: rest => do
    let window := (i, lits) :: rest.take ((1 <<< k) - 1)
    match ← e.attemptAll current optimum pinned (window.filterMap (·.2.head?)) with
    | some m =>
      settle optimum (k + 1) (rest.drop ((1 <<< k) - 1)) m
        (pinned ++ window.filterMap fun w => e.pin? l m w.1)
    | none =>
      match k with
      | k + 1 => settle optimum k ((i, lits) :: rest) current pinned
      | 0 =>
        let m ← e.attemptEach current optimum pinned (lits.drop 1)
        settle optimum 0 rest m (pinned ++ (e.pin? l m i).toList)
termination_by (slots.length, k)

/-- Moves a model of least cost towards the preferred qualifiers, and never to a higher cost. -/
def tieBreak (p : TieBreakPolicy) (s : ConstraintStore) (model : Model) : Solving σ Model := do
  if p = .disabled ∨ !(Backend.capabilities (← get)).assumptions then return model
  else e.settle l model.cost 0 (e.vars.slots.map fun i => (i, e.targetLits l p s i)) model []

end Search

end Encoding

end Qualify
