import Qualify.Diagram.Basic

namespace Qualify

namespace Diagram

/-- From index `i` down, the children of every marked node are marked too. Children come before
their parents, so that one pass is enough. -/
def markDown (d : Diagram) : Nat → Array Bool → Array Bool
  | 0, marks => marks
  | i + 1, marks =>
    if i + 1 ≠ Edge.terminal ∧ marks.getD (i + 1) false then
      let n := d.node (i + 1)
      markDown d i ((marks.setIfInBounds n.low.node true).setIfInBounds n.high.node true)
    else markDown d i marks

/-- The indices of all nodes below the given edges, in increasing order. The terminal always
counts. -/
def descendants (d : Diagram) (roots : List Edge) : List Nat :=
  let marks := (Array.replicate (d.nodeCount + 1) false).setIfInBounds Edge.terminal true
  let marks := d.markDown d.nodeCount (roots.foldl (fun m e => m.setIfInBounds e.node true) marks)
  (List.range (d.nodeCount + 1)).filter (marks.getD · false)

def rename (names : Array Nat) (e : Edge) : Edge := ⟨names.getD e.node 0, e.negated⟩

def copyNode (d : Diagram) (s : UniqueTable Node × Array Nat) (i : Nat) :
    UniqueTable Node × Array Nat :=
  if i = Edge.terminal then s
  else
    let n := d.node i
    let (j, table) := s.1.put ⟨n.var, rename s.2 n.low, rename s.2 n.high⟩
    (table, s.2.setIfInBounds i j)

/-- Keeps the nodes below the roots and renumbers them in order. The roots are answered under their
new names; every other edge is void afterwards. -/
def collect (d : Diagram) (roots : List Edge) : List Edge × Diagram :=
  let names := (Array.replicate (d.nodeCount + 1) 0).setIfInBounds Edge.terminal Edge.terminal
  let (table, names) := (d.descendants roots).foldl d.copyNode
    (terminalTable d.sizing.storageBits, names)
  (roots.map (rename names), ⟨d.sizing, table, d.cache.clear⟩)

end Diagram

end Qualify
