import Backslice.Graph.Basic

/-! # Join points

At a join point the states of the predecessors are compared place by place. Where all agree the common name
stays; the other places get new names, numbered from one through stack, locals, globals and memory. A memory
slot that some state does not bind is forgotten. -/

namespace Backslice

set_option autoImplicit false

/-- The common name of two values, or a hole. -/
def Var.agree (a b : Var) : Var := if a == b then a else .hole

namespace State

/-- The names on which two states agree, with holes elsewhere. -/
def meet (acc other : State) : State where
  stack := List.zipWith Var.agree acc.stack other.stack
  locals := List.zipWith Var.agree acc.locals other.locals
  globals := List.zipWith Var.agree acc.globals other.globals
  memory := acc.memory.filterMap fun slot v => (other.memory.find? slot).map v.agree

/-- Names the holes of a list, from number `n` on; gives the next number as well. -/
def plug (block : Int) : Nat → List Var → List Var × Nat
  | n, [] => ([], n)
  | n, v :: vs =>
    if v == .hole then
      let (ws, m) := plug block (n + 1) vs
      (.phi block n :: ws, m)
    else
      let (ws, m) := plug block n vs
      (v :: ws, m)

/-- Names all holes of a state. -/
def plugAll (block : Int) (s : State) : State :=
  let (stack, n₁) := plug block 1 s.stack
  let (locals, n₂) := plug block n₁ s.locals
  let (globals, n₃) := plug block n₂ s.globals
  let (values, _) := plug block n₃ s.memory.values
  { stack, locals, globals, memory := s.memory.withValues values }

def partLength (s : State) : Part → Nat
  | .stack => s.stack.length
  | .locals => s.locals.length
  | .globals => s.globals.length

/-- Refuses two states whose parts differ in length. -/
def requireShape (block : Int) (first other : State) : Except Fault Unit :=
  [Part.stack, .locals, .globals].forM fun part =>
    if first.partLength part = other.partLength part then pure ()
    else throw (.shape part block (first.partLength part) (other.partLength part))

/-- The state behind a join point, from the known states in front of it. -/
def joinAll (block : Int) (first : State) (others : List State) : Except Fault State := do
  others.forM (requireShape block first)
  return (others.foldl meet first).plugAll block

end State

/-- The top of the stack at the exit is the result of the function. -/
def Flow.markResult (f : Flow) : Flow :=
  match f.state.stack with
  | [] => f
  | _ :: rest => .known { f.state with stack := .returned :: rest }

namespace Graph

def joinFlows (g : Graph) (index : Int) (flows : List Flow) : Except Fault Flow :=
  match flows with
  | [] => pure (.known g.signature.entryState)
  | [f] => pure f
  | _ => match flows.filterMap Flow.state? with
    | [] => throw (.unanalyzed index)
    | [s] => pure (.known s)
    | first :: others => return .known (← State.joinAll index first others)

/-- What is known at the start of a block, from what comes in along its edges. A block that is no join point
has at most one of them, and none at the start of the function. -/
def merge (g : Graph) (index : Int) (b : Block) (flows : List Flow) : Except Fault Flow :=
  if b.isMerge then do
    let f ← g.joinFlows index flows
    return if g.exit = index then f.markResult else f
  else match flows with
    | [] => pure (.known g.signature.entryState)
    | [f] => pure f
    | _ => throw (.crowded index)

end Graph
end Backslice
