import Backslice.Graph.Basic

/-! # Names used and defined by one instruction

Everything is read off the states recorded around the instruction. -/

namespace Backslice

set_option autoImplicit false

namespace DataOp

/-- How many operands an operation takes from the stack. -/
def operandCount : DataOp → Nat
  | nop | memorySize | const | localGet | globalGet => 0
  | drop | memoryGrow | unary | test | convert | localSet | localTee | globalSet | load => 1
  | binary | compare | store => 2
  | select => 3

/-- Whether an operation leaves a value on the stack. -/
def pushes : DataOp → Bool
  | select | memorySize | memoryGrow | const | unary | test | convert | binary | compare | load => true
  | localGet | globalGet => true
  | nop | drop | localSet | localTee | globalSet | store => false

end DataOp

namespace DataInstr

def uses (i : DataInstr) (before : State) : Except Fault (List Var) :=
  match i.op with
  | .localGet => return [← State.valueAt before.locals (← i.source)]
  | .globalGet => return [← State.valueAt before.globals (← i.source)]
  | op => pure (before.stack.take op.operandCount)

/-- The name that a store has put into its slot. -/
def storedName (i : DataInstr) (before after : State) : Except Fault Var := do
  let address ← State.valueAt before.stack 1
  match after.memory.find? (address, i.offset) with
  | some v => pure v
  | none => throw (.slotUnbound i.label address i.offset)

def exposed (i : DataInstr) (before after : State) : Except Fault (List Var) :=
  if i.op.pushes then pure (after.stack.take 1)
  else match i.op with
    | .localSet | .localTee => return [← State.valueAt after.locals (← i.source)]
    | .globalSet => return [← State.valueAt after.globals (← i.source)]
    | .store => return [← i.storedName before after]
    | _ => pure []

end DataInstr

namespace ControlInstr

def uses (i : ControlInstr) (before : State) : List Var :=
  match i.op with
  | .cond | .brIf | .brTable => before.stack.take 1
  | .call => Position.takeTo before.stack i.arity.inputs
  | .callIndirect => Position.takeTo before.stack (i.arity.inputs + 1)
  | _ => []

def exposed (i : ControlInstr) (after : State) : List Var :=
  if i.op.isCall then Position.takeTo after.stack i.arity.outputs else []

end ControlInstr

namespace Instr

/-- The names that an instruction consumes. -/
def uses (i : Instr) : Except Fault (List Var) := do
  let note ← i.requireNote
  match i with
  | .data d => d.uses note.before.state
  | .control k => pure (k.uses note.before.state)

/-- The names that an instruction writes into the state behind it, new or not. -/
def exposed (i : Instr) : Except Fault (List Var) := do
  let note ← i.requireNote
  match i with
  | .data d => d.exposed note.before.state note.after.state
  | .control k => pure (k.exposed note.after.state)

def isConst : Instr → Bool
  | .data d => d.op = .const
  | .control _ => false

/-- The names that an instruction introduces: those it writes that were not there before. Equal constants share
a name, and each instruction that pushes one introduces it. -/
def defs (i : Instr) : Except Fault (List Var) := do
  let note ← i.requireNote
  let written ← i.exposed
  return if i.isConst then written else written.filter fun v => !note.before.state.vars.contains v

end Instr
end Backslice
