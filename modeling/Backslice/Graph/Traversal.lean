import Backslice.Graph.Basic

/-! # Depth-first traversal

A walk visits nodes depth first and in the order of the successor lists. It records the nodes it has entered,
and the nodes it has left, the last one first, so that the second list is a reverse postorder. A bound on the
depth makes the definition total; the number of nodes is enough, since the nodes on the way to the present one
are all different. -/

namespace Backslice

set_option autoImplicit false

structure Walk where
  /-- Nodes entered so far, the latest first. -/
  seen : List Int := []
  /-- Nodes left so far, the latest first. -/
  finished : List Int := []
deriving DecidableEq, Repr

namespace Walk

/-- Visits `n`, and from there all that has not been seen, if it has not been seen itself. -/
def visit (succ : Int → List Int) : Nat → Walk → Int → Walk
  | 0, w, _ => w
  | depth + 1, w, n =>
    if n ∈ w.seen then w
    else
      let inner := (succ n).foldl (visit succ depth) { w with seen := n :: w.seen }
      { inner with finished := n :: inner.finished }

end Walk

namespace Graph

/-- The successors that are blocks. -/
def blockSuccessors (g : Graph) (index : Int) : List Int := (g.successors index).filter g.hasBlock

/-- The blocks in reverse postorder from the entry, followed by the blocks that the entry does not reach. -/
def order (g : Graph) : List Int :=
  let visit := Walk.visit g.blockSuccessors g.blocks.size
  let reached := if g.hasBlock g.entry then visit {} g.entry else {}
  let rest := g.indices.foldl visit { reached with finished := [] }
  reached.finished ++ rest.finished

end Graph

/-- The blocks that can be reached from `source`, itself included. -/
def Edges.reachable (es : Edges) (source : Int) : List Int :=
  (Walk.visit es.targets (es.count + 1) {} source).seen

end Backslice
