namespace Qualify

/-- Szudzik's pairing of two words: the pairs whose larger entry is `m` share the numbers from
`m ^ 2` up to `m ^ 2 + 2 * m`. Sums and products wrap. -/
def pair (a b : UInt64) : UInt64 := if a < b then b * b + a else a * a + a + b

def pair3 (a b c : UInt64) : UInt64 := pair (pair a b) c

/-- A hash into one word. It only chooses a place, so different values may share it. -/
class WordHash (α : Type) where
  wordHash : α → UInt64

export WordHash (wordHash)

instance : WordHash (UInt64 × UInt64) := ⟨fun p => pair p.1 p.2⟩

instance : WordHash (UInt64 × UInt64 × UInt64) := ⟨fun p => pair3 p.1 p.2.1 p.2.2⟩

end Qualify
