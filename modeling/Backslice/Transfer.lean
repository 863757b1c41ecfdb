import Backslice.Config
import Backslice.Graph.Basic

/-! # Effects of instructions on abstract states -/

namespace Backslice

set_option autoImplicit false

/-! ## Data instructions -/

namespace DataInstr

/-- The name of the value that the instruction makes. -/
def fresh (i : DataInstr) : Var := .pushed i.label

/-- Takes `n` operands and pushes a fresh value. -/
def compute (i : DataInstr) (n : Int) (s : State) : Except Fault State :=
  return (← s.drop n i.text).push i.fresh

/-- The two topmost operands of a store, and the state without them. -/
def storeOperands (i : DataInstr) (s : State) : Except Fault (Var × Var × State) :=
  match s.stack with
  | value :: address :: rest => pure (value, address, { s with stack := rest })
  | _ => throw (.underflow 2 s.stack.length i.text)

def apply (c : Config) (i : DataInstr) (s : State) : Except Fault State :=
  match i.op with
  | .nop => pure s
  | .memorySize => i.compute 0 s
  | .memoryGrow | .unary | .test | .convert | .load => i.compute 1 s
  | .binary | .compare => i.compute 2 s
  | .select => i.compute 3 s
  | .drop => s.drop 1 i.text
  | .localGet =>
    if c.propagateLocals then do
      return s.push (← State.valueAt s.locals (← i.source))
    else pure (s.push i.fresh)
  | .localSet => do
    let (v, rest) ← s.pop i.text
    rest.setLocal (← i.target) (if c.propagateLocals then v else i.fresh)
  | .localTee => do
    let (v, _) ← s.pop i.text
    s.setLocal (← i.target) (if c.propagateLocals then v else i.fresh)
  | .globalGet =>
    if c.propagateGlobals then do
      return s.push (← State.valueAt s.globals (← i.source))
    else pure (s.push i.fresh)
  | .globalSet => do
    let (v, rest) ← s.pop i.text
    rest.setGlobal (← i.target) (if c.propagateGlobals then v else i.fresh)
  | .const => pure (s.push (if c.useConstants then .constant i.arg else i.fresh))
  | .store => do
    let (value, address, rest) ← i.storeOperands s
    return rest.setMemory address i.offset value

/-- The effect at a program point: `nop` hands on what is there, everything else makes the point known. -/
def transfer (c : Config) (i : DataInstr) (f : Flow) : Except Fault Flow :=
  if i.op = .nop then pure f else return .known (← i.apply c f.state)

end DataInstr

/-! ## Control instructions -/

/-- What follows a control instruction: one state, or one for each way out of a conditional branch. -/
inductive Outcome where
  | simple (f : Flow)
  | branch (taken passed : Flow)
deriving DecidableEq

namespace Outcome

/-- The state recorded behind the instruction. -/
def main : Outcome → Flow
  | simple f => f
  | branch taken _ => taken

/-- The state that flows along an edge. -/
def along : Outcome → Option Bool → Flow
  | simple f, _ => f
  | branch _ passed, some false => passed
  | branch taken _, _ => taken

instance : BEq Outcome := ⟨fun a b => match a, b with
  | simple f, simple g => f == g
  | branch f₁ f₂, branch g₁ g₂ => f₁ == g₁ && f₂ == g₂
  | _, _ => false⟩

end Outcome

namespace ControlInstr

def fresh (i : ControlInstr) : Var := .pushed i.label

/-- A call takes its inputs and gives one named result, or none that is named. -/
def applyCall (i : ControlInstr) (inputs : Int) (s : State) : Except Fault State := do
  let rest ← s.drop inputs i.text
  return if i.arity.outputs = 1 then rest.push i.fresh else rest

def transfer (sig : Signature) (i : ControlInstr) (f : Flow) : Except Fault Outcome :=
  let s := f.state
  match i.op with
  | .call => return .simple (.known (← i.applyCall i.arity.inputs s))
  | .callIndirect => return .simple (.known (← i.applyCall (i.arity.inputs + 1) s))
  | .br => pure (.simple f)
  | .brIf | .cond => do
    let popped := Flow.known (← s.drop 1 i.text)
    return .branch popped popped
  | .brTable => return .simple (.known (← s.drop 1 i.text))
  | .ret =>
    if sig.results.length = 1 then do
      return .simple (.known { s with stack := ← s.top 1 i.text })
    else pure (.simple (.known { s with stack := [] }))
  | .unreachable => pure (.simple (.known { s with stack := [] }))
  | .block | .loop => throw (.unsupported i.text)

end ControlInstr
end Backslice
