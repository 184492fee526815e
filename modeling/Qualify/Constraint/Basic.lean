import Qualify.Slot
import Qualify.Weight

namespace Qualify

structure ConstraintId where
  index : Nat
deriving DecidableEq, Inhabited

def ConstraintId.text (c : ConstraintId) : String := "c" ++ toString c.index

/-- A constraint on the qualifiers of slots, whatever names them. -/
inductive Constraint (σ : Type) where
  | subtype (sub sup : σ)
  | equality (a b : σ)
  | inequality (a b : σ)
  /-- One of the two is below the other. -/
  | comparable (a b : σ)
  /-- A wish, which costs its weight where it is not met. -/
  | preference (slot : σ) (qualifier : Qualifier) (weight : Weight)
  /-- One list counts if the condition has the qualifier, the other one if it has not. -/
  | existential (condition : σ) (qualifier : Qualifier) (thens otherwise : List (Constraint σ))
deriving Inhabited

namespace Constraint

variable {σ τ : Type}

section Equality

variable [DecidableEq σ]

mutual

def same : Constraint σ → Constraint σ → Bool
  | subtype a b, subtype a' b' => decide (a = a' ∧ b = b')
  | equality a b, equality a' b' => decide (a = a' ∧ b = b')
  | inequality a b, inequality a' b' => decide (a = a' ∧ b = b')
  | comparable a b, comparable a' b' => decide (a = a' ∧ b = b')
  | preference s q w, preference s' q' w' => decide (s = s' ∧ q = q' ∧ w = w')
  | existential s q thens otherwise, existential s' q' thens' otherwise' =>
    decide (s = s' ∧ q = q') && sameList thens thens' && sameList otherwise otherwise'
  | _, _ => false

def sameList : List (Constraint σ) → List (Constraint σ) → Bool
  | [], [] => true
  | c :: cs, c' :: cs' => same c c' && sameList cs cs'
  | _, _ => false

end

mutual

theorem same_iff : (c c' : Constraint σ) → (same c c' = true ↔ c = c')
  | subtype _ _, c' => by cases c' <;> simp [same]
  | equality _ _, c' => by cases c' <;> simp [same]
  | inequality _ _, c' => by cases c' <;> simp [same]
  | comparable _ _, c' => by cases c' <;> simp [same]
  | preference _ _ _, c' => by cases c' <;> simp [same]
  | existential _ _ thens otherwise, c' => by
    cases c' <;> simp [same, sameList_iff thens, sameList_iff otherwise, and_assoc]

theorem sameList_iff : (cs cs' : List (Constraint σ)) → (sameList cs cs' = true ↔ cs = cs')
  | [], cs' => by cases cs' <;> simp [sameList]
  | c :: cs, cs' => by cases cs' <;> simp [sameList, same_iff c, sameList_iff cs]

end

instance : DecidableEq (Constraint σ) := fun c c' => decidable_of_iff _ (same_iff c c')

end Equality

mutual

def slots : Constraint σ → List σ
  | subtype a b | equality a b | inequality a b | comparable a b => [a, b]
  | preference s _ _ => [s]
  | existential s _ thens otherwise => s :: (slotsOf thens ++ slotsOf otherwise)

def slotsOf : List (Constraint σ) → List σ
  | [] => []
  | c :: cs => slots c ++ slotsOf cs

end

mutual

def map (f : σ → τ) : Constraint σ → Constraint τ
  | subtype a b => subtype (f a) (f b)
  | equality a b => equality (f a) (f b)
  | inequality a b => inequality (f a) (f b)
  | comparable a b => comparable (f a) (f b)
  | preference s q w => preference (f s) q w
  | existential s q thens otherwise => existential (f s) q (mapList f thens) (mapList f otherwise)

def mapList (f : σ → τ) : List (Constraint σ) → List (Constraint τ)
  | [] => []
  | c :: cs => map f c :: mapList f cs

end

mutual

def size : Constraint σ → Nat
  | existential _ _ thens otherwise => 1 + sizeList thens + sizeList otherwise
  | _ => 1

def sizeList : List (Constraint σ) → Nat
  | [] => 0
  | c :: cs => size c + sizeList cs

end

def isSoft : Constraint σ → Bool
  | preference .. => true
  | _ => false

def isExistential : Constraint σ → Bool
  | existential .. => true
  | _ => false

mutual

/-- Whether the constraint holds, `none` where a value is missing that decides it. Preferences
always hold. -/
def holds (l : Lattice) (value : σ → Option Qualifier) : Constraint σ → Option Bool
  | subtype a b => do return l.isSubtype (← value a) (← value b)
  | equality a b => do return decide ((← value a) = (← value b))
  | inequality a b => do return decide ((← value a) ≠ (← value b))
  | comparable a b => do return l.isComparable (← value a) (← value b)
  | preference .. => some true
  | existential s q thens otherwise =>
    match value s with
    | none => none
    | some q' => if q' = q then holdsAll l value thens else holdsAll l value otherwise

def holdsAll (l : Lattice) (value : σ → Option Qualifier) : List (Constraint σ) → Option Bool
  | [] => some true
  | c :: cs =>
    match holds l value c with
    | some true => holdsAll l value cs
    | other => other

end

mutual

def render (slot : σ → String) (qualifier : Qualifier → String) : Constraint σ → String
  | subtype a b => slot a ++ " <: " ++ slot b
  | equality a b => slot a ++ " == " ++ slot b
  | inequality a b => slot a ++ " != " ++ slot b
  | comparable a b => slot a ++ " <> " ++ slot b
  | preference s q w =>
    "prefer " ++ slot s ++ " = " ++ qualifier q ++ " (" ++ toString w.toNat ++ ")"
  | existential s q thens otherwise =>
    "if " ++ slot s ++ " = " ++ qualifier q ++ " then [" ++
      ", ".intercalate (renderList slot qualifier thens) ++
      "] else [" ++ ", ".intercalate (renderList slot qualifier otherwise) ++ "]"

def renderList (slot : σ → String) (qualifier : Qualifier → String) :
    List (Constraint σ) → List String
  | [] => []
  | c :: cs => render slot qualifier c :: renderList slot qualifier cs

end

def text : Constraint SlotId → String := render SlotId.text Qualifier.text

end Constraint

end Qualify
