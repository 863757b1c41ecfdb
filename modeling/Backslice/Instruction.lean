import Backslice.Flow

/-! # Labelled instructions -/

namespace Backslice

set_option autoImplicit false

/-! ## Data instructions -/

/-- The classes of instructions that run straight on. -/
inductive DataOp where
  | nop | memorySize | memoryGrow | drop | select
  | localGet | localSet | localTee | globalGet | globalSet
  | const | unary | test | convert | binary | compare | load | store
deriving DecidableEq, Repr

def DataOp.text : DataOp → String
  | nop => "nop"
  | memorySize => "memory.size"
  | memoryGrow => "memory.grow"
  | drop => "drop"
  | select => "select"
  | localGet => "local.get"
  | localSet => "local.set"
  | localTee => "local.tee"
  | globalGet => "global.get"
  | globalSet => "global.set"
  | const => "const"
  | unary => "unary"
  | test => "test"
  | convert => "convert"
  | binary => "binary"
  | compare => "compare"
  | load => "load"
  | store => "store"

structure DataInstr where
  label : Label
  op : DataOp
  arg : Immediate := .absent
  /-- The concrete name of the instruction, for display. -/
  mnemonic : String := ""
  note : Option Note := none
deriving DecidableEq

namespace DataInstr

/-- The byte offset of a load or store, zero unless given. -/
def offset (i : DataInstr) : Int := i.arg.int?.getD 0

/-- The local or global that the instruction reads. -/
def source (i : DataInstr) : Except Fault Int :=
  match i.arg.int? with
  | some n => pure n
  | none => throw (.noSource i.arg)

/-- The local or global that the instruction assigns. -/
def target (i : DataInstr) : Except Fault Int :=
  match i.arg.int? with
  | some n => pure n
  | none => throw (.noTarget i.arg)

def text (i : DataInstr) : String :=
  let name := if i.mnemonic = "" then i.op.text else i.mnemonic
  match i.arg with
  | .absent => s!"{i.label.text}: {name}"
  | arg => s!"{i.label.text}: {name} {arg.text}"

end DataInstr

/-! ## Control instructions -/

inductive ControlOp where
  | block | loop | cond | br | brIf | brTable | call | callIndirect | ret | unreachable
deriving DecidableEq, Repr

namespace ControlOp

def text : ControlOp → String
  | block => "block"
  | loop => "loop"
  | cond => "if"
  | br => "br"
  | brIf => "br_if"
  | brTable => "br_table"
  | call => "call"
  | callIndirect => "call_indirect"
  | ret => "return"
  | unreachable => "unreachable"

/-- Whether the instruction decides between several successors. -/
def isBranching : ControlOp → Bool
  | cond | brIf | brTable => true
  | _ => false

def isCall : ControlOp → Bool
  | call | callIndirect => true
  | _ => false

end ControlOp

/-- A branch depth or callee, or the row of a branch table. -/
inductive Target where
  | one (n : Int)
  | row (ns : List Int)
deriving DecidableEq, Repr

def Target.text : Target → String
  | one n => toString n
  | row ns => Text.tuple ns

/-- How many values a call takes and gives. -/
structure Arity where
  inputs : Int := 0
  outputs : Int := 0
deriving DecidableEq, Repr

structure ControlInstr where
  label : Label
  op : ControlOp
  arity : Arity := {}
  arg : Option Target := none
  note : Option Note := none
deriving DecidableEq

def ControlInstr.text (i : ControlInstr) : String :=
  let head := s!"{i.label.text}: {i.op.text}"
  if i.op.isCall then
    let arg := (i.arg.map Target.text).getD "None"
    let arity := Text.tuple [i.arity.inputs, i.arity.outputs]
    s!"{head} {arg} {arity}"
  else match i.arg with
    | none => head
    | some arg => s!"{head} {arg.text}"

/-! ## Both kinds -/

inductive Instr where
  | data (i : DataInstr)
  | control (i : ControlInstr)
deriving DecidableEq

namespace Instr

def label : Instr → Label
  | data i => i.label
  | control i => i.label

def note : Instr → Option Note
  | data i => i.note
  | control i => i.note

def text : Instr → String
  | data i => i.text
  | control i => i.text

/-- The annotation, which has to be there. -/
def requireNote (i : Instr) : Except Fault Note :=
  match i.note with
  | some a => pure a
  | none => throw (.instrUnannotated i.label)

end Instr
end Backslice
