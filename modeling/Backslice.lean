import Backslice.About
import Backslice.Config
import Backslice.Data.Position
import Backslice.Data.Sort
import Backslice.Data.Table
import Backslice.Dependence.Control
import Backslice.Dependence.PostDominator
import Backslice.Fault
import Backslice.Flow
import Backslice.Graph.Basic
import Backslice.Graph.Block
import Backslice.Graph.Edges
import Backslice.Graph.Printer
import Backslice.Graph.Traversal
import Backslice.Immediate
import Backslice.Instruction
import Backslice.Join
import Backslice.Label
import Backslice.Literal
import Backslice.Number
import Backslice.Occurrence
import Backslice.Proofs.Action
import Backslice.Proofs.Aliasing
import Backslice.Proofs.Annotated
import Backslice.Proofs.Bare
import Backslice.Proofs.Data.Distinct
import Backslice.Proofs.Data.Success
import Backslice.Proofs.Data.Table
import Backslice.Proofs.Dependence.Control
import Backslice.Proofs.Dependence.Pass
import Backslice.Proofs.Dependence.PostDominance
import Backslice.Proofs.Dependence.PostDominator
import Backslice.Proofs.Dependence.Tree
import Backslice.Proofs.Dependence.Unbounded
import Backslice.Proofs.Dominance
import Backslice.Proofs.EdgeOrder
import Backslice.Proofs.Fixpoint
import Backslice.Proofs.Graph.Acyclic
import Backslice.Proofs.Graph.Paths
import Backslice.Proofs.Graph.Postorder
import Backslice.Proofs.Graph.Traversal
import Backslice.Proofs.History
import Backslice.Proofs.Join
import Backslice.Proofs.Machine
import Backslice.Proofs.Names
import Backslice.Proofs.Naming
import Backslice.Proofs.Numbering
import Backslice.Proofs.OnePass
import Backslice.Proofs.Parametric
import Backslice.Proofs.Placewise
import Backslice.Proofs.Provenance
import Backslice.Proofs.Reannotation
import Backslice.Proofs.Shape
import Backslice.Proofs.Slice.Closure
import Backslice.Proofs.Slice.Code
import Backslice.Proofs.Slice.Content
import Backslice.Proofs.Slice.Contraction
import Backslice.Proofs.Slice.Criterion
import Backslice.Proofs.Slice.Dropped
import Backslice.Proofs.Slice.Influence
import Backslice.Proofs.Slice.Labels
import Backslice.Proofs.Slice.Landing
import Backslice.Proofs.Slice.Lockstep
import Backslice.Proofs.Slice.Needs
import Backslice.Proofs.Slice.Operands
import Backslice.Proofs.Slice.Outline
import Backslice.Proofs.Slice.Reanalysis
import Backslice.Proofs.Slice.Renaming
import Backslice.Proofs.Slice.Replay
import Backslice.Proofs.Slice.Restrict
import Backslice.Proofs.Slice.Totality
import Backslice.Proofs.Slice.Tracking
import Backslice.Proofs.Slice.Twins
import Backslice.Proofs.Slice.Wiring
import Backslice.Proofs.SlotOrder
import Backslice.Proofs.Solver
import Backslice.Proofs.Stability.Cells
import Backslice.Proofs.Stability.Convergence
import Backslice.Proofs.Stability.Endless
import Backslice.Proofs.Stability.Flags
import Backslice.Proofs.Stability.Slots
import Backslice.Proofs.Transfer
import Backslice.Proofs.UseDef.Balance
import Backslice.Proofs.UseDef.Build
import Backslice.Proofs.UseDef.Collect
import Backslice.Proofs.UseDef.Instruction
import Backslice.Proofs.UseDef.Merge
import Backslice.Proofs.UseDef.SingleAssignment
import Backslice.Proofs.UseDef.Stores
import Backslice.Proofs.Visit
import Backslice.Slice.Build
import Backslice.Slice.Criterion
import Backslice.Slice.Placeholder
import Backslice.Solver
import Backslice.State
import Backslice.Text.Printable
import Backslice.Text.Quoted
import Backslice.Transfer
import Backslice.UseDef.Build
import Backslice.UseDef.Chains
import Backslice.UseDef.Instruction
import Backslice.UseDef.Merge
import Backslice.Var
