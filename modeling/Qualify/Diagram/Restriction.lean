import Qualify.Diagram.Basic

namespace Qualify

namespace Diagram

structure Restriction where
  diagram : Diagram
  done : Array (Option Edge)

namespace Restriction

/-- Restricts node `i`, low edge before high edge. Edges go to smaller indices, so that `i` steps
are enough. -/
def node (values : Nat → Option Bool) : Nat → Restriction → Nat → Edge × Restriction
  | 0, s, i => (⟨i, false⟩, s)
  | fuel + 1, s, i =>
    if i = Edge.terminal then (.one, s)
    else match s.done.getD i none with
      | some e => (e, s)
      | none =>
        let n := s.diagram.node i
        let (e, s) := match values n.var with
          | some b =>
            let next := if b then n.high else n.low
            let (e, s) := node values fuel s next.node
            (e.negateIf next.negated, s)
          | none =>
            let (l, s) := node values fuel s n.low.node
            let (h, s) := node values fuel s n.high.node
            let (e, diagram) := s.diagram.mkNode n.var (l.negateIf n.low.negated)
              (h.negateIf n.high.negated)
            (e, ⟨diagram, s.done⟩)
        (e, ⟨s.diagram, s.done.setIfInBounds i (some e)⟩)

end Restriction

def restrict (d : Diagram) (values : Nat → Option Bool) (f : Edge) : Edge × Diagram :=
  let done := Array.replicate (d.nodeCount + 1) none
  let (e, s) := Restriction.node values (f.node + 1) ⟨d, done⟩ f.node
  (e.negateIf f.negated, s.diagram)

/-- The values that literals give to their variables; the last literal of a variable counts. -/
def valuesOf (lits : List Lit) (v : Nat) : Option Bool :=
  (lits.reverse.find? fun l => l.var.number == v).map (·.isPositive)

end Diagram

end Qualify
