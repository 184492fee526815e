import Qualify.Pairing

namespace Qualify

/-- Values stored once each and named by their index, counted from one. Equal values are found again
through buckets: a bucket holds the index of its newest value, and each value links to the one
before it. -/
structure UniqueTable (α : Type) where
  values : Array α
  /-- The link of the value at the same place: `some j` is the next index of the bucket, zero at its
  end, and `none` stands for a value outside the buckets. -/
  links : Array (Option Nat)
  buckets : Array Nat
deriving Inhabited

namespace UniqueTable

variable {α : Type}

def empty (bits : Fin 32) : UniqueTable α := ⟨#[], #[], Array.replicate (1 <<< bits.val) 0⟩

def size (t : UniqueTable α) : Nat := t.values.size

def isEmpty (t : UniqueTable α) : Bool := t.size == 0

def value? (t : UniqueTable α) (i : Nat) : Option α := if i = 0 then none else t.values[i - 1]?

def link? (t : UniqueTable α) (i : Nat) : Option (Option Nat) :=
  if i = 0 then none else t.links[i - 1]?

/-- Appends a value that is never found by `put`. -/
def addLoose (t : UniqueTable α) (a : α) : Nat × UniqueTable α :=
  (t.size + 1, { t with values := t.values.push a, links := t.links.push none })

variable [DecidableEq α] [WordHash α]

def bucketOf (a : α) (count : Nat) : Nat := (wordHash a % count.toUInt64).toNat

/-- Follows the links from index `i`. A link goes to a smaller index, so that `i` steps are
enough. -/
def search (t : UniqueTable α) (a : α) : Nat → Nat → Option Nat
  | 0, _ => none
  | fuel + 1, i =>
    if t.value? i = some a then some i
    else match t.link? i with
      | some (some j) => if j = 0 then none else search t a fuel j
      | _ => none

def find? (t : UniqueTable α) (a : α) : Option Nat :=
  let i := t.buckets.getD (bucketOf a t.buckets.size) 0
  search t a i i

def relink (values : Array α) (s : Array (Option Nat) × Array Nat) (i : Nat) :
    Array (Option Nat) × Array Nat :=
  match values[i - 1]?, s.1[i - 1]? with
  | some a, some (some _) =>
    let b := bucketOf a s.2.size
    (s.1.setIfInBounds (i - 1) (some (s.2.getD b 0)), s.2.setIfInBounds b i)
  | _, _ => s

/-- Doubles the number of buckets and links all values anew, in order of index. -/
def grow (t : UniqueTable α) : UniqueTable α :=
  let s := (List.range' 1 t.size).foldl (relink t.values)
    (t.links, Array.replicate (2 * t.buckets.size) 0)
  { t with links := s.1, buckets := s.2 }

/-- The index of the value, which is appended if it is new. More than two values a bucket make the
table grow. -/
def put (t : UniqueTable α) (a : α) : Nat × UniqueTable α :=
  match t.find? a with
  | some i => (i, t)
  | none =>
    let i := t.size + 1
    let b := bucketOf a t.buckets.size
    let head := t.buckets.getD b 0
    let t : UniqueTable α :=
      { values := t.values.push a, links := t.links.push (some head),
        buckets := t.buckets.setIfInBounds b i }
    (i, if t.size > 2 * t.buckets.size then t.grow else t)

end UniqueTable

end Qualify
