namespace Qualify

/-- The slots of a value: one for the value itself, and a shape for each type argument. -/
inductive Shape (σ : Type) where
  | mk (root : σ) (args : List (Shape σ))

namespace Shape

variable {σ : Type}

def root : Shape σ → σ
  | mk r _ => r

def args : Shape σ → List (Shape σ)
  | mk _ as => as

def leaf (r : σ) : Shape σ := mk r []

def withRoot (s : Shape σ) (r : σ) : Shape σ := mk r s.args

mutual

def slots : Shape σ → List σ
  | mk r as => r :: slotsOf as

def slotsOf : List (Shape σ) → List σ
  | [] => []
  | s :: ss => slots s ++ slotsOf ss

end

section Equality

variable [DecidableEq σ]

mutual

def same : Shape σ → Shape σ → Bool
  | mk r as, mk r' as' => decide (r = r') && sameList as as'

def sameList : List (Shape σ) → List (Shape σ) → Bool
  | [], [] => true
  | s :: ss, s' :: ss' => same s s' && sameList ss ss'
  | _, _ => false

end

mutual

theorem same_iff : (s s' : Shape σ) → (same s s' = true ↔ s = s')
  | mk _ as, mk _ as' => by simp [same, sameList_iff as as']

theorem sameList_iff : (ss ss' : List (Shape σ)) → (sameList ss ss' = true ↔ ss = ss')
  | [], ss' => by cases ss' <;> simp [sameList]
  | s :: ss, [] => by simp [sameList]
  | s :: ss, s' :: ss' => by simp [sameList, same_iff s s', sameList_iff ss ss']

end

instance : DecidableEq (Shape σ) := fun s s' => decidable_of_iff _ (same_iff s s')

end Equality

end Shape

end Qualify
