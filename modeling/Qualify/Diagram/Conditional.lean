import Qualify.Diagram.Basic

namespace Qualify

namespace Diagram

/-- A conditional `if f then g else h` either has its value at hand or comes down to a standard
triple, whose `f` and `g` are not negated, and whose result is then negated if `negate` is set. -/
inductive Conditional where
  | value (e : Edge)
  | triple (f g h : Edge) (negate : Bool)

namespace Conditional

def atHand? (f g h : Edge) : Option Edge :=
  if f = .one then some g
  else if f = .zero then some h
  else if g = h then some g
  else if g = .one ∧ h = .zero then some f
  else if g = .zero ∧ h = .one then some (-f)
  else none

/-- Inside the branches the value of the condition is known. -/
def substitute (f g h : Edge) : Edge × Edge :=
  (if g = f then .one else if g = -f then .zero else g,
   if h = f then .zero else if h = -f then .one else h)

/-- Two conditions that can trade places do so if this brings the smaller variable in front. -/
def exchange (d : Diagram) (f g h : Edge) : Edge × Edge × Edge :=
  let i := d.varOf f
  let before (k : Nat) : Bool := k != 0 && decide (k < i)
  if g = .one ∧ before (d.varOf h) then (h, .one, f)
  else if h = .zero ∧ before (d.varOf g) then (g, f, .zero)
  else if h = .one ∧ before (d.varOf g) then (-g, -f, .one)
  else if g = .zero ∧ before (d.varOf h) then (-h, .zero, -f)
  else if g = -h ∧ before (d.varOf g) then (g, f, -f)
  else (f, g, h)

def unsign (f g h : Edge) : Conditional :=
  let (f, g, h) := if f.negated then (-f, h, g) else (f, g, h)
  if g.negated then .triple f (-g) (-h) true else .triple f g h false

def standardize (d : Diagram) (f g h : Edge) : Conditional :=
  match atHand? f g h with
  | some e => .value e
  | none =>
    let (g, h) := substitute f g h
    match atHand? f g h with
    | some e => .value e
    | none =>
      let (f, g, h) := exchange d f g h
      unsign f g h

end Conditional

def topVariable (d : Diagram) (f g h : Edge) : Nat :=
  let lower (m v : Nat) : Nat := if v = 0 then m else min m v
  lower (lower (d.varOf f) (d.varOf g)) (d.varOf h)

/-- If-then-else by expansion on the top variable, at most `fuel` variables deep. It has no answer
for a condition that tests no variable and for edges whose order of variables is broken. -/
def iteWithin : Nat → Diagram → Edge → Edge → Edge → Option (Edge × Diagram)
  | 0, _, _, _, _ => none
  | fuel + 1, d, f, g, h =>
    match Conditional.standardize d f g h with
    | .value e => some (e, d)
    | .triple f g h negate =>
      if d.varOf f = 0 then none
      else
        let sizing := d.sizing
        let table := d.table
        let (found, cache) := d.cache.get (f, g, h)
        let d : Diagram := ⟨sizing, table, cache⟩
        match found with
        | some e => some (e.negateIf negate, d)
        | none => do
          let m := d.topVariable f g h
          let (f₀, f₁) ← d.cofactors? f m
          let (g₀, g₁) ← d.cofactors? g m
          let (h₀, h₁) ← d.cofactors? h m
          let (e, d) ← iteWithin fuel d f₀ g₀ h₀
          let (t, d) ← iteWithin fuel d f₁ g₁ h₁
          let (r, d) := d.mkNode m e t
          some (r.negateIf negate, { d with cache := d.cache.insert (f, g, h) r })

/-- If-then-else. Each expansion goes to nodes of smaller index, which bounds its depth. -/
def ite? (d : Diagram) (f g h : Edge) : Option (Edge × Diagram) :=
  iteWithin (f.node + g.node + h.node + 1) d f g h

def and? (d : Diagram) (f g : Edge) : Option (Edge × Diagram) := d.ite? f g .zero

/-- Conjoins neighbours. The answer is `none` inside as soon as one conjunction is false. -/
def andPairs? (d : Diagram) : List Edge → Option (Option (List Edge) × Diagram)
  | [] => some (some [], d)
  | [f] => some (if f = .zero then none else some [f], d)
  | f :: g :: rest => do
    let (e, d) ← d.and? f g
    if e = .zero then some (none, d)
    else
      let (es, d) ← andPairs? d rest
      some (es.map (e :: ·), d)

/-- Each round halves the list, so that its length bounds the rounds. -/
def andRounds? : Nat → Diagram → List Edge → Option (Edge × Diagram)
  | _, d, [] => some (.one, d)
  | _, d, [f] => some (f, d)
  | 0, _, _ => none
  | rounds + 1, d, fs => do
    match ← d.andPairs? fs with
    | (none, d) => some (.zero, d)
    | (some fs, d) => andRounds? rounds d fs

def andMany? (d : Diagram) (fs : List Edge) : Option (Edge × Diagram) := andRounds? fs.length d fs

end Diagram

end Qualify
