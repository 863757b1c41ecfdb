import Backslice.Graph.Printer
import Backslice.Graph.Traversal
import Backslice.Join
import Backslice.Transfer

/-! # The naming analysis

Blocks are visited until nothing changes, always the first pending one in reverse postorder. A visit joins
what comes in, runs the block, records the states around the block and its instructions, and makes the
successors pending if what leaves the block has changed. The number of visits is limited. -/

namespace Backslice

set_option autoImplicit false

/-! ## One block -/

/-- What a visit finds out. -/
structure Visit where
  outcome : Outcome
  note : Note
  instrs : List (Label × Note) := []

/-- Runs instructions one after the other and records the states around each. -/
def runData (c : Config) : List DataInstr → Flow → Except Fault (Flow × List (Label × Note))
  | [], f => pure (f, [])
  | i :: rest, f => do
    let after ← i.transfer c f
    let (last, notes) ← runData c rest after
    return (last, (i.label, ⟨f, after⟩) :: notes)

namespace Graph

/-- Visits a block with the given incoming states. -/
def visit (g : Graph) (c : Config) (index : Int) (b : Block) (incoming : List Flow) : Except Fault Visit := do
  let start ← g.merge index b incoming
  match b.body with
  | .merge =>
    let before := incoming.foldl (fun acc f => if f.isBottom then acc else acc.join f) start
    return { outcome := .simple start, note := ⟨before, start⟩ }
  | .control i =>
    let outcome ← i.transfer g.signature start
    let note := ⟨start, outcome.main⟩
    return { outcome, note, instrs := [(i.label, note)] }
  | .data instrs =>
    let (last, notes) ← runData c instrs start
    return { outcome := .simple last, note := ⟨start, last⟩, instrs := notes }

/-- What comes in along the edges of a block, unknown where the predecessor has not been visited. -/
def incoming (g : Graph) (outcomes : Table Int Outcome) (index : Int) : List Flow :=
  (g.predecessors index).map fun e => match outcomes.find? e.target with
    | some outcome => outcome.along e.cond
    | none => .bottom

end Graph

/-! ## The iteration -/

/-- The progress of an analysis. -/
structure Run where
  outcomes : Table Int Outcome := ∅
  blocks : Table Int Note := ∅
  instrs : Table Label Note := ∅
  /-- Blocks that wait for a visit, in visiting order. -/
  pending : List Int
  visits : Nat := 0

namespace Run

/-- Whether a visit has changed what leaves the block. -/
def changes (r : Run) (index : Int) (outcome : Outcome) : Bool :=
  match r.outcomes.find? index with
  | some previous => !(previous == outcome)
  | none => true

/-- The waiting blocks after a change: `rest`, and the successors of the block. -/
def wake (order rest successors : List Int) : List Int :=
  order.filter fun b => rest.contains b || successors.contains b

/-- Visits the block `index`, with `rest` still waiting. -/
def step (g : Graph) (c : Config) (order : List Int) (r : Run) (index : Int) (rest : List Int) :
    Except Fault Run := do
  let b ← g.findBlock index
  let v ← g.visit c index b (g.incoming r.outcomes index)
  return {
    outcomes := r.outcomes.insert index v.outcome
    blocks := r.blocks.insert index v.note
    instrs := v.instrs.foldl (fun t e => t.insert e.1 e.2) r.instrs
    pending := if r.changes index v.outcome then wake order rest (g.successors index) else rest
    visits := r.visits + 1 }

/-- Visits pending blocks, at most `limit` times. -/
def advance (g : Graph) (c : Config) (order : List Int) : Nat → Run → Except Fault Run
  | 0, r => pure r
  | limit + 1, r => match r.pending with
    | [] => pure r
    | index :: rest => do
      let r ← r.step g c order index rest
      advance g c order limit r

def converged (r : Run) : Bool := r.pending.isEmpty

end Run

namespace Graph

/-- Runs the analysis with at most `limit` visits. -/
def solve (g : Graph) (c : Config) (limit : Nat) : Except Fault Run :=
  Run.advance g c g.order limit { pending := g.order }

/-- The message for an analysis that has hit its limit. -/
def solveWarnings (g : Graph) (r : Run) : List String :=
  if r.converged then []
  else [s!"{g.title}: stopped after {r.visits} iterations without reaching a fixpoint"]

def withRun (g : Graph) (r : Run) : Graph := g.annotate r.blocks r.instrs

/-- The graph with the states of its analysis. -/
def analyze (g : Graph) (c : Config) (limit : Nat) : Except Fault Graph :=
  return g.withRun (← g.solve c limit)

end Graph
end Backslice
