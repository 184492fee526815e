import Qualify.Generation.Transfer

namespace Qualify

/-- The shapes where several become one, by block and local variable, in this order. -/
abbrev Merges := List ((BlockId × String) × Shape Location)

namespace Merges

def before (a b : BlockId × String) : Bool :=
  decide (a.1 < b.1) || (a.1 == b.1 && decide (a.2 < b.2))

def enter (key : BlockId × String) (shape : Shape Location) : Merges → Merges
  | [] => [(key, shape)]
  | (k, s) :: rest =>
    if before key k then (key, shape) :: (k, s) :: rest else (k, s) :: enter key shape rest

def ofBlock (ms : Merges) (b : BlockId) : List (String × Shape Location) :=
  (ms.filter (·.1.1 == b)).map fun m => (m.1.2, m.2)

end Merges

/-- What the blocks of a body are known to be entered and left with. -/
structure FlowState where
  inputs : Array (Option (FlowStore Location))
  edges : List ((BlockId × BlockId) × FlowStore Location) := []
  merges : Merges := []
  /-- The blocks to be visited, each at most once in the list. -/
  waiting : List BlockId

namespace MethodContext

variable (c : MethodContext)

/-- What may be visited at most: the bound grows with the blocks and the local variables. -/
def visitLimit : Nat :=
  let n := c.body.blocks.size + 1
  2 * n * n * (c.declared.size + 1)

mutual

def mergeShape (l : Location) : Shape Location → Shape Location
  | .mk _ args => .mk l (mergeShapes l 0 args)

def mergeShapes (l : Location) (i : Nat) : List (Shape Location) → List (Shape Location)
  | [] => []
  | s :: ss => mergeShape (Surroundings.argument l i .merge) s :: mergeShapes l (i + 1) ss

end

/-- The stores that enter a block: over the known edges, and the declarations where the body
starts. -/
def incoming (s : FlowState) (predecessors : Array (List BlockId)) (b : BlockId) :
    List (FlowStore Location) :=
  (predecessors.getD b []).filterMap (fun p => s.edges.lookup (p, b)) ++
    (if b = c.body.entry then [c.declared] else [])

/-- The merged shape of a local variable, made from the first of the given ones if there is none
yet. New ones are noted. -/
def resolve (b : BlockId) (name : String) (shapes : List (Shape Location)) :
    StateM (Merges × List (Shape Location)) (Shape Location) := do
  let (merges, made) ← get
  match merges.lookup (b, name), shapes with
  | some shape, _ => return shape
  | none, [] => return .leaf (c.location (c.mergePosition b name) .merge)
  | none, template :: _ =>
    let shape := mergeShape (c.location (c.mergePosition b name) .merge) template
    set (merges.enter (b, name) shape, made ++ [shape])
    return shape

/-- The store with which a block is entered. A merged shape stays, also if the stores agree
again. -/
def entering (s : FlowState) (predecessors : Array (List BlockId)) (b : BlockId) :
    Gen (FlowStore Location × Merges) := do
  let (joined, merges, made) :=
    (FlowStore.join (c.incoming s predecessors b) (c.resolve b)).run (s.merges, [])
  (made.flatMap Shape.slots).forM fun l => discard (c.surroundings.inferred l)
  return ((merges.ofBlock b).foldl
    (fun (store : FlowStore Location) (name, shape) => store.set name shape) joined, merges)

/-- Notes what leaves a block; whoever is entered with something new has to be visited. -/
def leave (b : BlockId) (s : FlowState) (out : BlockId × FlowStore Location) : FlowState :=
  if s.edges.lookup (b, out.1) = some out.2 then s
  else { s with
    edges := ((b, out.1), out.2) :: s.edges.filter (·.1 != (b, out.1))
    waiting := if s.waiting.contains out.1 then s.waiting else s.waiting ++ [out.1] }

def visit (predecessors : Array (List BlockId)) (s : FlowState) (b : BlockId) : Gen FlowState := do
  let (input, merges) ← c.entering s predecessors b
  let s := { s with merges }
  if s.inputs.getD b none = some input then return s
  else
    let outs ← c.transfer b input
    return outs.foldl (leave b) { s with inputs := s.inputs.setIfInBounds b (some input) }

def settle (predecessors : Array (List BlockId)) : Nat → FlowState → Gen FlowState
  | visits, s =>
    match s.waiting with
    | [] => return s
    | b :: rest =>
      match visits with
      | 0 => Gen.fail (.noFixpoint c.qualified c.visitLimit)
      | visits + 1 => do
        let s ← c.visit predecessors { s with waiting := rest } b
        settle predecessors visits s

def fixpoint : Gen FlowState := do
  let _ ← c.block c.body.entry
  c.settle c.body.predecessors c.visitLimit
    { inputs := Array.replicate c.body.blocks.size none, waiting := [c.body.entry] }

/-- What a local variable has in a store flows into its merged shape, if it is a different one. -/
def mergeFlow (b : BlockId) (name : String) (merged : Shape Location) (store : FlowStore Location) :
    Gen Unit :=
  match store.get? name with
  | some shape =>
    if shape = merged then return ()
    else c.surroundings.flowInto shape merged (c.mergePosition b name) .merge
  | none => return ()

def mergeFlows (s : FlowState) (predecessors : Array (List BlockId)) : Gen Unit :=
  s.merges.forM fun ((b, name), merged) => (c.incoming s predecessors b).forM
    (c.mergeFlow b name merged)

def readBlock (s : FlowState) (b : BlockId) : Gen Unit :=
  match s.inputs.getD b none with
  | some input => discard (c.transfer b input)
  | none => return ()

/-- Reads a body: first what flows through it, which only requests slots, and then every block that
is entered, with its constraints. -/
def readBody : Gen Unit := do
  let s ← c.fixpoint.requestsOnly
  (List.range c.body.blocks.size).forM (c.readBlock s)
  c.mergeFlows s c.body.predecessors

end MethodContext

end Qualify
