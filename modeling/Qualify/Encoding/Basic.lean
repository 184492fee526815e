import Qualify.Encoding.VarMap

namespace Qualify

inductive ClauseOrigin where
  /-- The slot has exactly one qualifier. -/
  | wellFormed (slot : SlotId)
  | constraint (id : ConstraintId)
deriving DecidableEq

def ClauseOrigin.text : ClauseOrigin → String
  | wellFormed slot => "well-formed(" ++ slot.text ++ ")"
  | constraint id => id.text

/-- A preference that is left to the choice between models. -/
structure DeferredPreference where
  constraint : ConstraintId
  slot : SlotId
  qualifier : Qualifier
  weight : Weight
deriving DecidableEq

/-- The constraints of a store as a propositional problem. -/
structure Encoding where
  vars : VarMap
  hard : List (ClauseOrigin × Clause)
  soft : List SoftClause
  deferred : List DeferredPreference

def Encoding.cnf (e : Encoding) : Cnf :=
  { numVars := e.vars.numVars, hard := (e.hard.map (·.2)).toArray, soft := e.soft.toArray }

structure EncodeError where
  constraint : ConstraintId
  slot : SlotId
deriving DecidableEq

def EncodeError.message (e : EncodeError) : String :=
  "constraint " ++ e.constraint.text ++ " refers to unknown slot " ++ e.slot.text

/-- A statement that is known already, or a literal. -/
inductive Term where
  | known (value : Bool)
  | lit (l : Lit)
deriving DecidableEq

namespace Term

def negate : Term → Term
  | known b => known !b
  | lit l => lit l.opposite

/-- The clause of some terms after those in `clause`, or none if it is true in any case. -/
def clauseFrom? (clause : Clause) : List Term → Option Clause
  | [] => some clause
  | known true :: _ => none
  | known false :: ts => clauseFrom? clause ts
  | lit l :: ts =>
    if clause.contains l.opposite then none
    else if clause.contains l then clauseFrom? clause ts
    else clauseFrom? (clause ++ [l]) ts

def clause? (ts : List Term) : Option Clause := clauseFrom? [] ts

end Term

namespace ConstraintStore

variable (s : ConstraintStore) (l : Lattice) (m : VarMap)

def hasQualifier (i : SlotId) (q : Qualifier) : Term :=
  match s.constantOf i with
  | some p => .known (p = q)
  | none =>
    match m.lit? i q with
    | some x => .lit x
    | none => .known false

/-- The terms of a clause that rules out two qualifiers. A slot never has two different ones. -/
def excluding (a b : SlotId) (p q : Qualifier) : Option (List Term) :=
  if a ≠ b then some [(s.hasQualifier m a p).negate, (s.hasQualifier m b q).negate]
  else if p = q then some [(s.hasQualifier m a p).negate]
  else none

/-- Clauses against each pair of qualifiers that is not allowed, under a gate: terms of which one
may hold instead. -/
def forbid (gate : List Term) (a b : SlotId) (allowed : Qualifier → Qualifier → Bool) :
    List Clause :=
  l.qualifiers.flatMap fun p => l.qualifiers.filterMap fun q =>
    if allowed p q then none else do Term.clause? (gate ++ (← s.excluding m a b p q))

mutual

/-- The clauses of a constraint. A wish inside of a conditional constraint has none. -/
def clauses (gate : List Term) : Constraint SlotId → List Clause
  | .subtype a b => s.forbid l m gate a b l.isSubtype
  | .equality a b => s.forbid l m gate a b fun p q => p = q
  | .inequality a b => s.forbid l m gate a b fun p q => p ≠ q
  | .comparable a b => s.forbid l m gate a b l.isComparable
  | .preference .. => []
  | .existential i q thens otherwise =>
    clausesOf (gate ++ [(s.hasQualifier m i q).negate]) thens ++
      clausesOf (gate ++ [s.hasQualifier m i q]) otherwise

def clausesOf (gate : List Term) : List (Constraint SlotId) → List Clause
  | [] => []
  | c :: cs => clauses gate c ++ clausesOf gate cs

end

def atMostOne : Clause → List Clause
  | [] => []
  | a :: rest => rest.map (fun b => [a.opposite, b.opposite]) ++ atMostOne rest

def exactlyOne (i : SlotId) : List Clause :=
  let lits := l.qualifiers.filterMap (m.lit? i)
  lits :: atMostOne lits

/-- The part of one constraint in the problem. A preference of a fixed slot has none. -/
def encodeConstraint (weighted : Bool) (e : Encoding) (id : ConstraintId) (c : Constraint SlotId) :
    Encoding :=
  match c with
  | .preference i q w =>
    match e.vars.lit? i q with
    | some x =>
      if weighted then { e with soft := e.soft ++ [⟨[x], w⟩] }
      else { e with deferred := e.deferred ++ [⟨id, i, q, w⟩] }
    | none => e
  | c =>
    { e with
      hard := e.hard ++ (s.clauses l e.vars [] c).map fun clause => (.constraint id, clause) }

def encodeAll (weighted : Bool) :
    Encoding → List (ConstraintId × Constraint SlotId) → Except EncodeError Encoding
  | e, [] => .ok e
  | e, (id, c) :: rest =>
    match unknownSlot? c s.slots with
    | some i => .error ⟨id, i⟩
    | none => encodeAll weighted (s.encodeConstraint l weighted e id c) rest

/-- The problem of the active constraints. Preferences are soft clauses if the solver weighs them,
and deferred if not. -/
def encode (weighted : Bool) : Except EncodeError Encoding :=
  let vars := VarMap.ofStore l.size s
  let wellFormed := vars.slots.flatMap fun i => (exactlyOne l vars i).map
    fun clause => (ClauseOrigin.wellFormed i, clause)
  s.encodeAll l weighted ⟨vars, wellFormed, [], []⟩ s.active

end ConstraintStore

end Qualify
