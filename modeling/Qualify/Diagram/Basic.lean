import Qualify.Literal
import Qualify.Diagram.UniqueTable
import Qualify.Diagram.ResultCache

namespace Qualify

/-- A reference to a node of a decision diagram, possibly negated. -/
structure Edge where
  node : Nat
  negated : Bool
deriving DecidableEq, Inhabited

namespace Edge

/-- The terminal is the first node; it stands for true. -/
def terminal : Nat := 1

def one : Edge := ⟨terminal, false⟩

def zero : Edge := ⟨terminal, true⟩

instance : Neg Edge := ⟨fun e => ⟨e.node, !e.negated⟩⟩

def negateIf (e : Edge) (b : Bool) : Edge := if b then -e else e

def isTerminal (e : Edge) : Bool := e.node == terminal

def code (e : Edge) : Nat := 2 * e.node + e.negated.toNat

def nodeText (i : Nat) : String := "@" ++ toString i

def text (e : Edge) : String := if e.negated then "~" ++ nodeText e.node else nodeText e.node

end Edge

/-- A node tests its variable: `high` where it is true, `low` where it is false. -/
structure Node where
  var : Nat
  low : Edge
  high : Edge
deriving DecidableEq, Inhabited

/-- The terminal tests nothing: variable zero, and edges to no node. -/
def Node.terminal : Node := ⟨0, ⟨0, false⟩, ⟨0, false⟩⟩

instance : WordHash Node :=
  ⟨fun n => pair3 n.var.toUInt64 n.low.code.toUInt64 n.high.code.toUInt64⟩

instance : WordHash (Edge × Edge × Edge) :=
  ⟨fun k => pair3 k.1.code.toUInt64 k.2.1.code.toUInt64 k.2.2.code.toUInt64⟩

/-- Sizes as powers of two: buckets to start with, and lines of the result cache. -/
structure Sizing where
  storageBits : Fin 32 := 16
  cacheBits : Fin 32 := 16

def Sizing.bits? (n : Nat) : Option (Fin 32) := if h : n < 32 then some ⟨n, h⟩ else none

/-- A shared, reduced, ordered binary decision diagram with negated edges. Variables are tested in
increasing order. -/
structure Diagram where
  sizing : Sizing
  table : UniqueTable Node
  cache : ResultCache (Edge × Edge × Edge) Edge

namespace Diagram

def terminalTable (bits : Fin 32) : UniqueTable Node :=
  ((UniqueTable.empty bits).addLoose Node.terminal).2

def new (sizing : Sizing) : Diagram :=
  ⟨sizing, terminalTable sizing.storageBits, ResultCache.empty sizing.cacheBits⟩

def blank : Diagram := ⟨⟨0, 0⟩, ⟨#[Node.terminal], #[none], #[]⟩, ⟨#[], 0, 0⟩⟩

instance : Inhabited Diagram := ⟨blank⟩

def nodeCount (d : Diagram) : Nat := d.table.size

def node (d : Diagram) (i : Nat) : Node := (d.table.value? i).getD Node.terminal

def varOf (d : Diagram) (e : Edge) : Nat := (d.node e.node).var

def low (d : Diagram) (e : Edge) : Edge := (d.node e.node).low.negateIf e.negated

def high (d : Diagram) (e : Edge) : Edge := (d.node e.node).high.negateIf e.negated

/-- The node that tests `v`. A negated high edge is moved to the reference, and no node is made for
equal edges. -/
def mkNode (d : Diagram) (v : Nat) (low high : Edge) : Edge × Diagram :=
  if low = high then (low, d)
  else
    let flip := high.negated
    let (i, table) := d.table.put ⟨v, low.negateIf flip, high.negateIf flip⟩
    (⟨i, flip⟩, { d with table })

def mkVar (d : Diagram) (v : Var) : Edge × Diagram := d.mkNode v.number .zero .one

def mkLit (d : Diagram) (l : Lit) : Edge × Diagram :=
  let (e, d) := d.mkVar l.var
  (e.negateIf l.isNegated, d)

/-- What `e` becomes where `v` is false and where it is true, for a `v` that is not below its top
variable. -/
def cofactors? (d : Diagram) (e : Edge) (v : Nat) : Option (Edge × Edge) :=
  if v = 0 then none
  else if e.isTerminal || v < d.varOf e then some (e, e)
  else if v = d.varOf e then some (d.low e, d.high e)
  else none

def statistics (d : Diagram) : String :=
  "Bdd \x7b nodes: " ++ toString d.nodeCount ++ ", buckets: " ++ toString d.table.buckets.size ++
    ", cache_hits: " ++ toString d.cache.hits ++ ", cache_misses: " ++
    toString d.cache.misses ++ " \x7d"

end Diagram

end Qualify
