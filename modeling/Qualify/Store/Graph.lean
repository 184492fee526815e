import Qualify.Solution

namespace Qualify

structure GraphStyle where
  variableShape : String := "ellipse"
  constantShape : String := "box"
  subtypeLine : String := "solid"
  equalityLine : String := "bold"
  inequalityLine : String := "dashed"
  comparableLine : String := "dotted"
  /-- Settled constraints are drawn too, in gray. -/
  showSettled : Bool := false

namespace GraphStyle

def escape (s : String) : String :=
  String.ofList (s.toList.flatMap fun c => if c == '\\' || c == '"' then ['\\', c] else [c])

def labelled (body label : String) : String := body ++ ", label=\"" ++ label ++ "\"];\n"

def edge (a b : SlotId) (attributes label : String) : String :=
  labelled (a.text ++ " -> " ++ b.text ++ " [" ++ attributes) label

def undirected (a b : SlotId) (line color label : String) : String :=
  edge a b ("dir=none, style=" ++ line ++ ", color=" ++ color) label

def nodeName (mark label : String) : String :=
  mark ++ String.ofList (label.toList.map fun c => if c == '.' then '_' else c)

mutual

/-- The lines of a constraint. Preferences and conditional constraints have a node of their own. -/
def constraintLines (g : GraphStyle) (l : Lattice) (color : String) :
    Constraint SlotId → String → String
  | .subtype a b, label => edge a b ("style=" ++ g.subtypeLine ++ ", color=" ++ color) label
  | .equality a b, label => undirected a b g.equalityLine color label
  | .inequality a b, label => undirected a b g.inequalityLine color label
  | .comparable a b, label => undirected a b g.comparableLine color label
  | .preference s q w, label =>
    let node := nodeName "p_" label
    labelled (node ++ " [shape=note, color=" ++ color)
        ("prefer " ++ escape (l.nameOf q) ++ " (" ++ toString w.toNat ++ ")") ++
      node ++ " -> " ++ s.text ++ " [style=dashed, color=" ++ color ++ "];\n"
  | .existential s q thens otherwise, label =>
    let node := nodeName "e_" label
    labelled (node ++ " [shape=diamond, color=" ++ color)
      (s.text ++ " = " ++ escape (l.nameOf q)) ++
      s.text ++ " -> " ++ node ++ " [style=dotted, color=" ++ color ++ "];\n" ++
      branchLines g l color thens (label ++ ".then") 0 ++ branchLines g l color otherwise
        (label ++ ".else") 0

def branchLines (g : GraphStyle) (l : Lattice) (color : String) :
    List (Constraint SlotId) → String → Nat → String
  | [], _, _ => ""
  | c :: cs, label, i =>
    constraintLines g l color c (label ++ toString i) ++ branchLines g l color cs label (i + 1)

end

end GraphStyle

namespace ConstraintStore

def slotLine (g : GraphStyle) (l : Lattice) (solution : SlotId → Option Qualifier) (i : SlotId)
    (s : Slot) : String :=
  let key := GraphStyle.escape s.location.key
  match s.init with
  | .fixed q =>
    GraphStyle.labelled (i.text ++ " [shape=" ++ g.constantShape)
      (GraphStyle.escape (l.nameOf q) ++ "\\n" ++ key)
  | .inferred _ =>
    let solved := match solution i with
      | some q => "\\n= " ++ GraphStyle.escape (l.nameOf q)
      | none => ""
    GraphStyle.labelled (i.text ++ " [shape=" ++ g.variableShape) (key ++ solved)

/-- The constraints as a Graphviz graph: constants on the first rank, then variables, then
constraints. -/
def graph (s : ConstraintStore) (l : Lattice) (solution : SlotId → Option Qualifier)
    (g : GraphStyle) : String :=
  let shown := s.numbered.filter fun (_, e) => e.status == .active || g.showSettled
  let used := shown.flatMap fun (_, e) => e.constraint.slots
  let drawn (keep : Slot → Bool) : String := String.join (s.slots.ids.map fun i =>
    match s.slots.get? i with
    | some x => if used.contains i && keep x then slotLine g l solution i x else ""
    | none => "")
  let line (c : ConstraintId × Entry) : String :=
    g.constraintLines l (if c.2.status == .active then "black" else "gray") c.2.constraint c.1.text
  "digraph constraints \x7b\nnode [fontsize=10];\nedge [fontsize=8];\n\x7b rank=source\n" ++
    drawn Slot.isConstant ++
    "\x7d\n" ++ drawn Slot.isVariable ++ String.join (shown.map line) ++ "\x7d\n"

end ConstraintStore

end Qualify
