import Backslice.Dependence.PostDominator
import Backslice.Occurrence

/-! # Control dependence

A block depends on a branch if some way out of the branch leads to it for certain and the branch itself does
not: for each edge out of a branch, the blocks on the way up the tree of post-dominators, from the target of
the edge to below the immediate post-dominator of the branch. -/

namespace Backslice

set_option autoImplicit false

/-- The branches that each block depends on. -/
abbrev BlockDeps := Table Int (List Int)

namespace BlockDeps

/-- The nodes met on the way up from `n`, as far as `stop`, the root, or a node that has been met. -/
def climb (tree : Table Int Int) (stop : Int) : Nat → Int → List Int → List Int
  | 0, _, _ => []
  | steps + 1, n, met =>
    if n = stop || met.contains n then []
    else match tree.find? n with
      | none => []
      | some up => n :: if up = n then [] else climb tree stop steps up (n :: met)

def addDep (deps : BlockDeps) (n branch : Int) : BlockDeps :=
  deps.alter n fun bs =>
    let bs := bs.getD []
    if bs.contains branch then bs else bs ++ [branch]

/-- The blocks that depend on a branch. -/
def governed (succs : Adjacency) (tree : Table Int Int) (branch : Int) : List Int :=
  match tree.find? branch with
  | none => []
  | some stop => (succs.next branch).flatMap fun n => climb tree stop (tree.size + 1) n []

/-- The dependences of all blocks, from a tree of post-dominators and the branches. -/
def ofTree (succs : Adjacency) (tree : Table Int Int) (branches : List Int) : BlockDeps :=
  branches.foldl (fun deps a => (governed succs tree a).foldl (fun deps n => addDep deps n a) deps) ∅

def of (deps : BlockDeps) (index : Int) : List Int := (deps.find? index).getD []

end BlockDeps

namespace Graph

/-- The edges between blocks. -/
def forward (g : Graph) : Adjacency := g.blocks.map fun index _ => g.blockSuccessors index

/-- The same edges in the other direction. -/
def backward (g : Graph) : Adjacency :=
  g.blocks.map fun index _ => ((g.predecessors index).map (·.target)).filter g.hasBlock

def isPredicate (g : Graph) (index : Int) : Bool := (g.blocks.find? index).any Block.isPredicate

def blockDeps (g : Graph) : BlockDeps :=
  let succs := g.forward
  BlockDeps.ofTree succs (postDominators succs g.backward g.exit) (g.blocks.keys.filter g.isPredicate)

/-- The label of the control instruction of a block. -/
def branchLabel (g : Graph) (index : Int) : Except Fault Label := do
  match (← g.findBlock index).body with
  | .control i => return i.label
  | _ => throw (.notControl index)

/-- The branches that a use depends on. At a join point these are the branches of the block and of its
predecessors, and the predecessors that are branches. -/
def governing (g : Graph) (deps : BlockDeps) (u : Use) : Except Fault (List Label) := do
  let blocks ← match u with
    | .instr site _ => do
      let (index, _) ← g.blockOf site
      pure (deps.of index)
    | .merge block _ => pure (deps.of block ++ (g.predecessors block).flatMap fun e =>
        deps.of e.target ++ if g.isPredicate e.target then [e.target] else [])
  let labels ← (sortBy (· ≤ ·) blocks.eraseDups).mapM g.branchLabel
  return labels.eraseDups

end Graph
end Backslice
