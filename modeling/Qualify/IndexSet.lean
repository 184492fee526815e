namespace Qualify

/-- A set of indices, one bit an index, 64 to a word. Words past the end count as zero. -/
structure IndexSet where
  words : Array UInt64 := #[]
deriving Inhabited

namespace IndexSet

def wordBits : Nat := 64

def withCapacity (capacity : Nat) : IndexSet :=
  ⟨Array.replicate ((capacity + wordBits - 1) / wordBits) 0⟩

def wordAt (s : IndexSet) (i : Nat) : UInt64 := s.words.getD i 0

def bit (i : Nat) : UInt64 := 1 <<< (i % wordBits).toUInt64

def bitsBelow (w : UInt64) (n : Nat) : List Nat := (List.range n).filter fun i => w &&& bit i != 0

def size (s : IndexSet) : Nat := (s.words.toList.flatMap fun w => bitsBelow w wordBits).length

def isEmpty (s : IndexSet) : Bool := s.words.all (· == 0)

def contains (s : IndexSet) (i : Nat) : Bool := s.wordAt (i / wordBits) &&& bit i != 0

def grow (s : IndexSet) (n : Nat) : IndexSet := ⟨s.words ++ Array.replicate (n - s.words.size) 0⟩

def insert (s : IndexSet) (i : Nat) : IndexSet :=
  let k := i / wordBits
  let s := s.grow (k + 1)
  ⟨s.words.setIfInBounds k (s.wordAt k ||| bit i)⟩

def erase (s : IndexSet) (i : Nat) : IndexSet :=
  let k := i / wordBits
  ⟨s.words.setIfInBounds k (s.wordAt k &&& ~~~bit i)⟩

def insertMany (s : IndexSet) (is : List Nat) : IndexSet := is.foldl insert s

def ofList (is : List Nat) : IndexSet := insertMany {} is

def union (s t : IndexSet) : IndexSet :=
  let s := s.grow t.words.size
  ⟨s.words.mapIdx fun i w => w ||| t.wordAt i⟩

def inter (s t : IndexSet) : IndexSet := ⟨Array.zipWith (· &&& ·) s.words t.words⟩

def isSubset (s t : IndexSet) : Bool :=
  (List.range s.words.size).all fun i => s.wordAt i &&& ~~~t.wordAt i == 0

/-- Insertion that also answers whether the index was new. -/
def add (s : IndexSet) (i : Nat) : Bool × IndexSet := (!s.contains i, s.insert i)

def remove (s : IndexSet) (i : Nat) : Bool × IndexSet := (s.contains i, s.erase i)

def merge (s t : IndexSet) : Bool × IndexSet :=
  ((s.union t).words != (s.grow t.words.size).words, s.union t)

def trailingZeros (w : UInt64) : Nat :=
  ((List.range wordBits).find? fun i => w &&& bit i != 0).getD wordBits

/-- A place in the walk through a set: the word it is at, the bits of it that are still to come, and
the words after it. -/
structure Cursor where
  word : Nat
  left : UInt64
  later : List UInt64

namespace Cursor

/-- The next member, and the place after it. A member is cleared from its word, and words with none
are skipped. -/
def next? (c : Cursor) : Option (Nat × Cursor) :=
  seek c.word c.left c.later
where
  seek (k : Nat) (w : UInt64) (later : List UInt64) : Option (Nat × Cursor) :=
    if w != 0 then some (k * wordBits + trailingZeros w, ⟨k, w &&& (w - 1), later⟩)
    else
      match later with
      | [] => none
      | v :: vs => seek (k + 1) v vs

def take : Nat → Cursor → List Nat
  | 0, _ => []
  | n + 1, c =>
    match c.next? with
    | none => []
    | some (i, c) => i :: take n c

end Cursor

def cursor (s : IndexSet) : Cursor :=
  match s.words.toList with
  | [] => ⟨0, 0, []⟩
  | w :: later => ⟨0, w, later⟩

/-- The members in increasing order. There are no more of them than bits. -/
def toList (s : IndexSet) : List Nat := s.cursor.take (s.words.size * wordBits)

end IndexSet

end Qualify
