import Qualify.Pairing
import Qualify.Weight
import Qualify.IndexSet
import Qualify.Literal
import Qualify.Formula.Basic
import Qualify.Formula.Dimacs
import Qualify.Diagram.UniqueTable
import Qualify.Diagram.ResultCache
import Qualify.Diagram.Basic
import Qualify.Diagram.Literals
import Qualify.Diagram.Conditional
import Qualify.Diagram.Restriction
import Qualify.Diagram.Collection
import Qualify.Diagram.Models
import Qualify.Diagram.Optimum
import Qualify.Solver.Backend
import Qualify.Solver.DiagramSolver
import Qualify.Json.Basic
import Qualify.Json.Scanner
import Qualify.Json.Reader
import Qualify.Json.Printer
import Qualify.Json.Decode
import Qualify.Kind
import Qualify.Names
import Qualify.Lattice.Basic
import Qualify.Lattice.Load
import Qualify.Slot
import Qualify.Provenance
import Qualify.Constraint.Basic
import Qualify.Constraint.Canonical
import Qualify.Store.Basic
import Qualify.Store.Simplify
import Qualify.Solution
import Qualify.Store.Graph
import Qualify.Store.Json
import Qualify.Constraint.Json
import Qualify.TypeSystem.Basic
import Qualify.TypeSystem.Json
import Qualify.Program.Basic
import Qualify.Program.Symbols
import Qualify.Program.Json
import Qualify.Flow.Shape
import Qualify.Flow.FlowStore
import Qualify.Generation.Trace
import Qualify.Generation.Declaration
import Qualify.Generation.Transfer
import Qualify.Generation.Fixpoint
import Qualify.Generation.Units
import Qualify.Encoding.VarMap
import Qualify.Encoding.Basic
import Qualify.Encoding.Decode
import Qualify.Encoding.TieBreak
import Qualify.Encoding.Conflict
import Qualify.Solver.Counted
import Qualify.Diagnostic
import Qualify.Inference.Config
import Qualify.Inference.Error
import Qualify.Inference.Generated
import Qualify.Inference.Run
import Qualify.Inference.Report
import Qualify.Lattice.Table
import Qualify.Proofs.Pairing
import Qualify.Proofs.IndexSet
import Qualify.Proofs.IndexSet.Refinement
import Qualify.Proofs.Lattice
import Qualify.Proofs.Lists
import Qualify.Proofs.Lattice.Order
import Qualify.Proofs.Lattice.Declared
import Qualify.Proofs.Formula
import Qualify.Proofs.Weight
import Qualify.Proofs.Formula.Wcnf
import Qualify.Proofs.UniqueTable
import Qualify.Proofs.Diagram.Canonical
import Qualify.Proofs.Diagram.Growth
import Qualify.Proofs.Diagram.Conditional
import Qualify.Proofs.Diagram.Literals
import Qualify.Proofs.Diagram.Restriction
import Qualify.Proofs.Diagram.Collection
import Qualify.Proofs.Diagram.Models
import Qualify.Proofs.Diagram.Gains
import Qualify.Proofs.Diagram.Optimum
import Qualify.Proofs.Diagram.Alike
import Qualify.Proofs.Diagram.Session
import Qualify.Proofs.Diagram.Junction
import Qualify.Proofs.Diagram.Support
import Qualify.Proofs.Diagram.Implicant
import Qualify.Proofs.Diagram.Survivors
import Qualify.Proofs.Diagram.Expansion
import Qualify.Proofs.Diagram.BestModel
import Qualify.Proofs.Constraint
import Qualify.Proofs.Constraint.Order
import Qualify.Proofs.Constraint.Rearrangement
import Qualify.Proofs.Store.Growth
import Qualify.Proofs.Store.Slots
import Qualify.Proofs.Store.Union
import Qualify.Proofs.Store.Simplify
import Qualify.Proofs.Solution
import Qualify.Proofs.Store.Equivalence
import Qualify.Proofs.Store.Invariant
import Qualify.Proofs.Store.Absorption
import Qualify.Proofs.Solver.Work
import Qualify.Proofs.Solver.Selectors
import Qualify.Proofs.Solver.Compilation
import Qualify.Proofs.Solver.Core
import Qualify.Proofs.Solver.Query
import Qualify.Proofs.Solver.Correct
import Qualify.Proofs.Solver.Reliable
import Qualify.Proofs.Solver.History
import Qualify.Proofs.Solver.Assumptions
import Qualify.Proofs.Solver.Counting
import Qualify.Proofs.Solver.MinimalCore
import Qualify.Proofs.Encoding.Clauses
import Qualify.Proofs.Encoding.Variables
import Qualify.Proofs.Encoding.Exact
import Qualify.Proofs.Encoding.Bounds
import Qualify.Proofs.Encoding.Conflict
import Qualify.Proofs.Encoding.TieBreak
import Qualify.Proofs.Inference.Preservation
import Qualify.Proofs.Inference.Correct
import Qualify.Proofs.Inference.Conflict
import Qualify.Proofs.Generation.Reading
import Qualify.Proofs.Generation.Simulation
import Qualify.Proofs.Generation.Worklist
import Qualify.Proofs.Generation.Paths
import Qualify.Proofs.Generation.Merging
import Qualify.Proofs.Generation.Ledger
import Qualify.Proofs.Generation.Flows
import Qualify.Proofs.Generation.TypeArguments
import Qualify.Proofs.Generation.Convergence
import Qualify.Proofs.Generation.Locality
import Qualify.Proofs.Generation.Origins
import Qualify.Proofs.Generation.Refinement
import Qualify.Proofs.Inference.UnitOrder
import Qualify.Proofs.Inference.Schedule
import Qualify.Proofs.Solution.Annotations
import Qualify.Proofs.Generation.Replay
import Qualify.Proofs.UniqueTable.Interning
