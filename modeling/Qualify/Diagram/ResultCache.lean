import Qualify.Pairing

namespace Qualify

/-- Remembered results: every key has one line, and a new result replaces the one in its line. -/
structure ResultCache (κ α : Type) where
  lines : Array (Option (κ × α))
  hits : Nat := 0
  misses : Nat := 0
deriving Inhabited

namespace ResultCache

variable {κ α : Type}

def empty (bits : Fin 32) : ResultCache κ α := { lines := Array.replicate (1 <<< bits.val) none }

/-- Forgets all results; the counters go on. -/
def clear (c : ResultCache κ α) : ResultCache κ α :=
  { c with lines := Array.replicate c.lines.size none }

variable [DecidableEq κ] [WordHash κ]

def lineOf (k : κ) (count : Nat) : Nat := (wordHash k % count.toUInt64).toNat

def find? (c : ResultCache κ α) (k : κ) : Option α :=
  match c.lines[lineOf k c.lines.size]? with
  | some (some (k', a)) => if k' = k then some a else none
  | _ => none

def get (c : ResultCache κ α) (k : κ) : Option α × ResultCache κ α :=
  match c.find? k with
  | some a => (some a, { c with hits := c.hits + 1 })
  | none => (none, { c with misses := c.misses + 1 })

def insert (c : ResultCache κ α) (k : κ) (a : α) : ResultCache κ α :=
  { c with lines := c.lines.setIfInBounds (lineOf k c.lines.size) (some (k, a)) }

end ResultCache

end Qualify
