import Backslice.Graph.Traversal

/-! # Post-dominators

A node is post-dominated by the nodes on all its paths to the exit. The immediate post-dominators are found by
passes over the nodes in reverse postorder of the reversed graph: each node gets the nearest common ancestor,
in the tree built so far, of its successors in the tree. Passes are repeated until one changes nothing. -/

namespace Backslice

set_option autoImplicit false

/-- A finite directed graph by its adjacency lists, in one direction. -/
abbrev Adjacency := Table Int (List Int)

def Adjacency.next (a : Adjacency) (n : Int) : List Int := (a.find? n).getD []

namespace PostDominator

/-- Nodes that reach the exit, in reverse postorder of the reversed graph. -/
def order (preds : Adjacency) (exit : Int) : List Int :=
  (Walk.visit preds.next (preds.values.flatten.length + 1) {} exit).finished

/-- The nearest common ancestor of two nodes: the one with the greater number steps up until they meet. -/
def intersect (number : Int → Nat) (up : Int → Int) : Nat → Int → Int → Int
  | 0, a, _ => a
  | steps + 1, a, b =>
    if a = b then a
    else if number b < number a then intersect number up steps (up a) b
    else intersect number up steps a (up b)

/-- The nearest common ancestor of the successors of `n` that are in the tree, if there are any. -/
def candidate (succs : Adjacency) (nodes : List Int) (tree : Table Int Int) (n : Int) : Option Int :=
  match (succs.next n).filter tree.contains with
  | [] => none
  | first :: others =>
    let up m := (tree.find? m).getD m
    some (others.foldl (intersect (nodes.idxOf ·) up (nodes.length * nodes.length)) first)

/-- One node of a pass; the flag tells whether anything has changed. -/
def update (succs : Adjacency) (nodes : List Int) (exit : Int) (acc : Table Int Int × Bool) (n : Int) :
    Table Int Int × Bool :=
  if n = exit then acc
  else match candidate succs nodes acc.1 n with
    | none => acc
    | some d => if acc.1.find? n = some d then acc else (acc.1.insert n d, true)

/-- Passes until nothing changes, at most `limit` of them. -/
def iterate (succs : Adjacency) (nodes : List Int) (exit : Int) : Nat → Table Int Int → Table Int Int
  | 0, tree => tree
  | limit + 1, tree =>
    let (tree, changed) := nodes.foldl (update succs nodes exit) (tree, false)
    if changed then iterate succs nodes exit limit tree else tree

end PostDominator

/-- The immediate post-dominator of every node that reaches the exit; the exit is its own. A pass depends on
nothing but the tree, and there are no more than `(n + 1) ^ n` trees on `n` nodes, so that this many passes
are enough if any are. -/
def postDominators (succs preds : Adjacency) (exit : Int) : Table Int Int :=
  let nodes := PostDominator.order preds exit
  let limit := Nat.pow (nodes.length + 1) nodes.length + 1
  PostDominator.iterate succs nodes exit limit ((∅ : Table Int Int).insert exit exit)

end Backslice
