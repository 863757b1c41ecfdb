import Backslice.Graph.Traversal
import Backslice.Slice.Criterion
import Backslice.Slice.Placeholder

/-! # Slices

The slice of a graph for a criterion holds the kept instructions, with placeholders in the gaps. Join points
and kept control instructions stay; other control instructions become placeholders. A block that has become
empty is removed and its edges are spliced, unless it is the entry, the exit, or entered from several sides.
-/

namespace Backslice

set_option autoImplicit false

/-! ## Instructions -/

/-- The slice of straight-line code. `run` holds the instructions dropped since the last kept one, and `next`
is the number of the next placeholder, which is handed on. -/
def sliceInstrs (keep : List Label) (run : List DataInstr) (next : Int) :
    List DataInstr → Except Fault (List DataInstr × Int)
  | [] => do
    let net ← runEffect run
    return (placeholders net next, next + net.natAbs)
  | i :: rest =>
    if keep.contains i.label then do
      let net ← runEffect run
      let (sliced, last) ← sliceInstrs keep [] (next + net.natAbs) rest
      return (placeholders net next ++ { i with note := none } :: sliced, last)
    else sliceInstrs keep (run ++ [i]) next rest

/-! ## Edges -/

/-- The edges of a graph in both directions. -/
structure Wiring where
  edges : Edges
  backEdges : Edges
deriving DecidableEq

namespace Wiring

/-- Adds an edge in both directions. -/
def connect (w : Wiring) (source target : Int) (cond : Option Bool) : Wiring where
  edges := Edges.add w.edges source ⟨target, cond⟩
  backEdges := Edges.add w.backEdges target ⟨source, cond⟩

/-- Removes a block, and leads each edge that enters it to each of its successors, except back to where it
came from. -/
def splice (w : Wiring) (index : Int) : Wiring :=
  let preds := w.backEdges.leaving index
  let succs := w.edges.targets index
  let joined := preds.foldl (fun (w : Wiring) p =>
    let w := { w with edges := Edges.remove w.edges p.target index }
    succs.foldl (fun w s => if s = p.target then w else w.connect p.target s p.cond) w) w
  { edges := Edges.removeSource joined.edges index
    backEdges := Edges.removeSource (succs.foldl (fun es s => Edges.remove es s index) joined.backEdges) index }

/-- Removes the edges into the exit from blocks that are gone or cannot be reached. -/
def prune (w : Wiring) (entry exit : Int) (removed : List Int) : Wiring :=
  let reachable := w.edges.reachable entry
  (w.backEdges.leaving exit).foldl (fun w e =>
    if removed.contains e.target || !reachable.contains e.target then
      { edges := Edges.remove w.edges e.target exit, backEdges := Edges.remove w.backEdges exit e.target }
    else w) w

end Wiring

/-! ## Blocks -/

/-- The part of a slice that has been built. -/
structure Cut where
  blocks : Table Int Block := ∅
  wiring : Wiring
  removed : List Int := []
  /-- The number of the next placeholder. -/
  next : Int := 0

namespace Cut

/-- Whether a block stays although it is empty. -/
def structural (t : Cut) (g : Graph) (index : Int) : Bool :=
  index = g.entry || index = g.exit || 1 < (t.wiring.backEdges.leaving index).length

def keepBlock (t : Cut) (index : Int) (b : Block) : Cut := { t with blocks := t.blocks.insert index b }

/-- Adds a data block, or removes it if it is empty and nothing needs it. -/
def addInstrs (t : Cut) (g : Graph) (index : Int) (instrs : List DataInstr) (next : Int) : Cut :=
  if instrs.isEmpty && !t.structural g index then
    { t with wiring := t.wiring.splice index, removed := index :: t.removed, next }
  else { t.keepBlock index { body := .data instrs } with next }

def addBlock (g : Graph) (keep : List Label) (t : Cut) (index : Int) (b : Block) : Except Fault Cut :=
  match b.body with
  | .merge => pure (t.keepBlock index b.clear)
  | .control i =>
    if keep.contains i.label then pure (t.keepBlock index b.clear)
    else do
      let net ← g.blockEffect index
      return t.addInstrs g index (placeholders net t.next) (t.next + net.natAbs)
  | .data instrs => do
    let (sliced, next) ← sliceInstrs keep [] t.next instrs
    return t.addInstrs g index sliced next

end Cut

namespace Graph

/-- The graph that holds only the kept labels. -/
def restrict (g : Graph) (keep : List Label) : Except Fault Graph := do
  let start : Cut := { wiring := ⟨g.edges, g.backEdges⟩ }
  let cut ← g.sortedBlocks.foldlM (fun t (index, b) => t.addBlock g keep index b) start
  let wiring := cut.wiring.prune g.entry g.exit cut.removed
  return { g with blocks := cut.blocks, edges := wiring.edges, backEdges := wiring.backEdges }

/-- The slice for a criterion, which has to be an instruction or a join point of the graph. -/
def slice (g : Graph) (criterion : Label) (control : Option BlockDeps) : Except Fault Graph := do
  discard (g.blockOf criterion)
  g.restrict (← g.keep criterion none control)

/-- Labels of the indirect calls, in order. -/
def indirectCalls (g : Graph) : List Label :=
  sortLabels <| g.instrTable.entries.filterMap fun (l, i) => match i with
    | .control k => if k.op = .callIndirect then some l else none
    | .data _ => none

end Graph
end Backslice
