import Qualify.Json.Basic

namespace Qualify.Json

def string? : Json → Option String
  | string s => some s
  | _ => none

def bool? : Json → Option Bool
  | bool b => some b
  | _ => none

def natBelow? (bound : Nat) : Json → Option Nat
  | number (.integer n) => if 0 ≤ n ∧ n < bound then some n.toNat else none
  | _ => none

def word? (j : Json) : Option UInt64 := (natBelow? UInt64.size j).map Nat.toUInt64

def list? {α : Type} (f : Json → Option α) : Json → Option (List α)
  | array items => items.mapM f
  | _ => none

def nullable? {α : Type} (f : Json → Option α) : Json → Option (Option α)
  | null => some none
  | j => (f j).map some

/-- The entries of a map in order; a later entry of the same key counts. -/
def entries? {α β : Type} (key : String → Option α) (value : Json → Option β) :
    Json → Option (List (α × β))
  | object members => members.mapM fun (k, j) => do return (← key k, ← value j)
  | _ => none

/-- A name on its own, or as the only key over null. -/
def name? : Json → Option String
  | string s => some s
  | object [(k, null)] => some k
  | _ => none

/-- The fields of a record in the order of `keys`: an object, in which no known key stands twice and
unknown ones do not matter, or a list of the first fields. -/
def record? (keys : List String) : Json → Option (List (Option Json))
  | object members => keys.mapM fun k =>
      match members.filter (·.1 == k) with
      | [] => some none
      | [(_, j)] => some (some j)
      | _ => none
  | array items =>
    if items.length ≤ keys.length then
      some (items.map some ++ List.replicate (keys.length - items.length) none) else none
  | _ => none

/-- The name of a variant under the key `tag`, and the record without it. -/
def tagged? (tag : String) : Json → Option (String × Json)
  | object members =>
    match members.filter (·.1 == tag) with
    | [(_, string name)] => some (name, object (members.filter (·.1 != tag)))
    | _ => none
  | array (string name :: items) => some (name, array items)
  | _ => none

namespace Field

def required {α : Type} (f : Json → Option α) (field : Option Json) : Option α := field.bind f

def withDefault {α : Type} (a : α) (f : Json → Option α) : Option Json → Option α
  | none => some a
  | some j => f j

def optional {α : Type} (f : Json → Option α) : Option Json → Option (Option α) :=
  withDefault none (nullable? f)

end Field

end Qualify.Json
