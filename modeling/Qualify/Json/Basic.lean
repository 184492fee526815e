namespace Qualify

/-- A number of a document: an integer, or the text of anything written with a fraction, an exponent
or as minus zero. -/
inductive JsonNumber where
  | integer (n : Int)
  | other (text : String)
deriving DecidableEq

/-- A document. Members keep their order, and a key may occur twice. -/
inductive Json where
  | null
  | bool (b : Bool)
  | number (n : JsonNumber)
  | string (s : String)
  | array (items : List Json)
  | object (members : List (String × Json))
deriving Inhabited

namespace Json

def ofNat (n : Nat) : Json := .number (.integer n)

def ofInt (n : Int) : Json := .number (.integer n)

def ofOption {α : Type} (f : α → Json) : Option α → Json
  | some a => f a
  | none => .null

def ofList {α : Type} (f : α → Json) (as : List α) : Json := .array (as.map f)

end Json

end Qualify
