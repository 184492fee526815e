import Qualify.Flow.Shape

namespace Qualify

/-- The shape that each local variable has at a point of the program, in order of names. -/
structure FlowStore (σ : Type) where
  locals : List (String × Shape σ) := []
deriving DecidableEq

namespace FlowStore

variable {σ : Type}

def size (s : FlowStore σ) : Nat := s.locals.length

def isEmpty (s : FlowStore σ) : Bool := s.locals.isEmpty

def get? (s : FlowStore σ) (name : String) : Option (Shape σ) := s.locals.lookup name

def names (s : FlowStore σ) : List String := s.locals.map (·.1)

def enter (name : String) (shape : Shape σ) : List (String × Shape σ) → List (String × Shape σ)
  | [] => [(name, shape)]
  | (n, s) :: rest =>
    if n = name then (name, shape) :: rest
    else if name < n then (name, shape) :: (n, s) :: rest
    else (n, s) :: enter name shape rest

def set (s : FlowStore σ) (name : String) (shape : Shape σ) : FlowStore σ :=
  ⟨enter name shape s.locals⟩

def allNames (stores : List (FlowStore σ)) : List String :=
  ((stores.flatMap names).mergeSort fun a b => decide (a ≤ b)).eraseReps

def agreed? [DecidableEq σ] : List (Shape σ) → Option (Shape σ)
  | [] => none
  | s :: ss => if ss.all (· = s) then some s else none

/-- Where paths meet: variables keep a shape on which all stores agree, and `resolve` is asked for
the others. -/
def join {m : Type → Type} [Monad m] [DecidableEq σ] (stores : List (FlowStore σ))
    (resolve : String → List (Shape σ) → m (Shape σ)) : m (FlowStore σ) := do
  let joined ← (allNames stores).mapM fun name => do
    let shapes := stores.filterMap (·.get? name)
    match agreed? shapes with
    | some s => return (name, s)
    | none => return (name, ← resolve name shapes)
  return ⟨joined⟩

end FlowStore

end Qualify
