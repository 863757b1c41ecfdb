import Backslice.Dependence.Control
import Backslice.UseDef.Build

/-! # What a criterion depends on

A label depends on the definitions of the names it uses, on the branches that decide about those uses, and, at
a join point, on the stores behind the memory slots that it renames. -/

namespace Backslice

set_option autoImplicit false

/-- All that is needed to follow dependences. -/
structure Dependences where
  chains : Chains
  control : BlockDeps
  stores : StoreSites

namespace Dependences

/-- The dependences of an annotated graph, with chains and control dependences of its own unless they are
given. -/
def ofGraph (g : Graph) (chains : Option Chains) (control : Option BlockDeps) : Except Fault Dependences := do
  let chains ← match chains with
    | some chains => pure chains
    | none => do pure (← g.useDef).2
  let stores ← g.storeSites
  return { chains, control := control.getD g.blockDeps, stores }

/-- The labels behind one use: its definition, and the branches that decide about it. -/
def ofUse (d : Dependences) (g : Graph) (u : Use) : Except Fault (List Label) := do
  let source ← Chains.get d.chains u
  let branches ← g.governing d.control u
  return source.label?.toList ++ branches

/-- The labels that a label depends on directly. -/
def direct (d : Dependences) (g : Graph) (l : Label) : Except Fault (List Label) := do
  let sources ← (← g.labelUses l).mapM fun v => d.ofUse g (.ofLabel l v)
  let stores ← g.labelStores d.stores l
  return sources.flatten ++ stores

/-- Follows dependences from the labels in `stack`, with `kept` already followed, for at most `limit` new
labels. -/
def follow (d : Dependences) (g : Graph) : Nat → List Label → List Label → Except Fault (List Label)
  | 0, kept, _ => pure kept
  | limit + 1, kept, stack => match stack.dropWhile kept.contains with
    | [] => pure kept
    | l :: rest => do
      let next ← d.direct g l
      follow d g limit (l :: kept) (next.reverse ++ rest)

/-- The labels that a criterion depends on, itself included. Only instructions and blocks have dependences to
follow, so that their number limits the search. -/
def closure (d : Dependences) (g : Graph) (criterion : Label) : Except Fault (List Label) :=
  d.follow g (g.instrs.length + g.blocks.size + 1) [] [criterion]

end Dependences

/-- The labels that a slice for the criterion keeps. -/
def Graph.keep (g : Graph) (criterion : Label) (chains : Option Chains) (control : Option BlockDeps) :
    Except Fault (List Label) := do
  (← Dependences.ofGraph g chains control).closure g criterion

end Backslice
