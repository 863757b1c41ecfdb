import Backslice.Graph.Block
import Backslice.Graph.Edges

/-! # Flow graphs of functions -/

namespace Backslice

set_option autoImplicit false

structure Signature where
  args : List ValueType := []
  locals : List ValueType := []
  globals : List ValueType := []
  results : List ValueType := []
deriving DecidableEq, Repr

/-- The number of local slots: arguments, then declared locals. -/
def Signature.localCount (s : Signature) : Nat := s.args.length + s.locals.length

/-- The state at the start of a function with this signature. -/
def Signature.entryState (s : Signature) : State := .entry s.localCount s.globals.length

/-- A flow graph: blocks by index, edges in both directions, and the two ends of the function. -/
structure Graph where
  signature : Signature
  blocks : Table Int Block
  edges : Edges
  backEdges : Edges
  entry : Int
  exit : Int
  name : String := ""
  index : Int := 0
deriving DecidableEq

/-- An edge with its source. -/
structure Arrow where
  source : Int
  target : Int
  cond : Option Bool := none
deriving DecidableEq, Repr

namespace Graph

/-- The graph with the given blocks and edges; the backward edges are derived. -/
def ofArrows (signature : Signature) (blocks : List (Int × Block)) (arrows : List Arrow) (entry exit : Int)
    (name : String) (index : Int) : Graph where
  signature := signature
  blocks := Table.ofList blocks
  edges := arrows.foldl (fun es a => Edges.add es a.source ⟨a.target, a.cond⟩) ∅
  backEdges := arrows.foldl (fun es a => Edges.add es a.target ⟨a.source, a.cond⟩) ∅
  entry := entry
  exit := exit
  name := name
  index := index

/-! ## Blocks and instructions -/

def hasBlock (g : Graph) (index : Int) : Bool := g.blocks.contains index

def findBlock (g : Graph) (index : Int) : Except Fault Block :=
  match g.blocks.find? index with
  | some b => pure b
  | none => throw (.noBlock index)

def successors (g : Graph) (index : Int) : List Int := g.edges.targets index

def predecessors (g : Graph) (index : Int) : List Edge := g.backEdges.leaving index

/-- Indices of the blocks in ascending order. -/
def indices (g : Graph) : List Int := sortBy (· ≤ ·) g.blocks.keys

/-- The blocks with their indices in ascending order. -/
def sortedBlocks (g : Graph) : List (Int × Block) := sortBy (fun a b => a.1 ≤ b.1) g.blocks.entries

/-- All instructions, block after block. -/
def instrs (g : Graph) : List Instr := g.blocks.values.flatMap Block.instrs

/-- The instructions by label. Of several with one label the last counts, in the place of the first. -/
def instrTable (g : Graph) : Table Label Instr := Table.ofList (g.instrs.map fun i => (i.label, i))

def findInstr (g : Graph) (l : Label) : Except Fault Instr :=
  match g.instrs.reverse.find? (·.label = l) with
  | some i => pure i
  | none => throw (.noInstr l)

/-- The block that holds an instruction, or the join point with that label. -/
def blockOf (g : Graph) (l : Label) : Except Fault (Int × Block) :=
  match g.blocks.entries.reverse.find? fun e => l ∈ e.2.labels e.1 with
  | some e => pure e
  | none => throw (.noHome l)

/-- The instructions in the order of their labels. -/
def sortedInstrs (g : Graph) : List (Label × Instr) := sortBy (fun a b => a.1.le b.1) g.instrTable.entries

/-- Labels of the instructions, in order. -/
def instrLabels (g : Graph) : List Label := sortLabels g.instrTable.keys

def mergeBlocks (g : Graph) : List (Int × Block) := g.blocks.entries.filter (·.2.isMerge)

/-! ## Annotations -/

/-- Replaces the annotations of the listed blocks and instructions. -/
def annotate (g : Graph) (blocks : Table Int Note) (instrs : Table Label Note) : Graph :=
  { g with blocks := g.blocks.map fun index b =>
      let b := b.annotateInstrs instrs
      { b with note := (blocks.find? index).or b.note } }

def clear (g : Graph) : Graph := { g with blocks := g.blocks.map fun _ b => b.clear }

def blockNote (g : Graph) (index : Int) : Except Fault Note := do
  match (← g.findBlock index).note with
  | some a => pure a
  | none => throw (.blockUnannotated index)

/-- All annotations of the graph. -/
def notes (g : Graph) : List Note :=
  g.blocks.values.flatMap fun b => b.note.toList ++ b.instrs.flatMap fun i => i.note.toList

/-- The different names in the annotations. -/
def vars (g : Graph) : List Var :=
  (g.notes.flatMap fun a => a.before.state.vars ++ a.after.state.vars).eraseDups

end Graph
end Backslice
