import Backslice.Data.Position
import Backslice.Data.Table
import Backslice.Fault

/-! # Abstract states

A state names the values on the operand stack (top first), in the locals and globals, and in the memory slots
whose content is known. A slot is an address and an offset. -/

namespace Backslice

set_option autoImplicit false

abbrev Slot := Var × Int

abbrev Memory := Table Slot Var

structure State where
  stack : List Var := []
  locals : List Var := []
  globals : List Var := []
  memory : Memory := ∅
deriving DecidableEq

namespace State

/-- States are equal if their parts are; memory is compared as a map. -/
instance : BEq State := ⟨fun s t =>
  s.stack == t.stack && s.locals == t.locals && s.globals == t.globals && s.memory.same t.memory⟩

/-- The state at the start of a function: every local and global has a name of its own. -/
def entry (locals globals : Nat) : State where
  locals := (List.range locals).map fun (i : Nat) => .entryLocal i
  globals := (List.range globals).map fun (i : Nat) => .entryGlobal i

/-! ## The operand stack -/

def require (s : State) (n : Int) (site : String) : Except Fault Unit :=
  if (s.stack.length : Int) < n then throw (.underflow n s.stack.length site) else pure ()

/-- The `n` topmost values. -/
def top (s : State) (n : Int) (site : String) : Except Fault (List Var) := do
  s.require n site
  return Position.takeTo s.stack n

def drop (s : State) (n : Int) (site : String) : Except Fault State := do
  s.require n site
  return { s with stack := Position.dropTo s.stack n }

def push (s : State) (v : Var) : State := { s with stack := v :: s.stack }

/-- Splits the top value from the rest. -/
def pop (s : State) (site : String) : Except Fault (Var × State) :=
  match s.stack with
  | v :: rest => pure (v, { s with stack := rest })
  | [] => throw (.underflow 1 0 site)

/-! ## Locals, globals and memory -/

def setAt (vs : List Var) (index : Int) (v : Var) : Except Fault (List Var) :=
  if 0 ≤ index ∧ index < vs.length then pure (vs.set index.toNat v) else throw (.slotRange index vs.length)

def setLocal (s : State) (index : Int) (v : Var) : Except Fault State :=
  return { s with locals := ← setAt s.locals index v }

def setGlobal (s : State) (index : Int) (v : Var) : Except Fault State :=
  return { s with globals := ← setAt s.globals index v }

def setMemory (s : State) (address : Var) (offset : Int) (v : Var) : State :=
  { s with memory := s.memory.insert (address, offset) v }

/-- The value known at a slot, or the name of its unknown content. -/
def lookup (s : State) (address : Var) (offset : Int) : Var :=
  (s.memory.find? (address, offset)).getD (.cell address offset)

/-- The value at a position, counted from either end. A position without a value is out of range, or too large
for a word. -/
def valueAt (vs : List Var) (index : Int) : Except Fault Var :=
  match Position.get? vs index with
  | some v => pure v
  | none => throw (if Position.fits index then .positionRange else .positionWidth)

/-! ## Names in a state -/

/-- All names of a state: stack, locals, globals, then address and value of each memory slot. -/
def vars (s : State) : List Var :=
  s.stack ++ s.locals ++ s.globals ++ s.memory.entries.flatMap fun e => [e.1.1, e.2]

/-- The places where two lists name different values, up to the end of the shorter one. -/
def mismatches (before after : List Var) : List (Var × Var) :=
  (before.zip after).filter fun p => p.1 != p.2

/-- The memory slots that both states bind, to different values: slot, old value and new value. -/
def reboundSlots (before after : State) : List (Slot × Var × Var) :=
  after.memory.entries.filterMap fun e => match before.memory.find? e.1 with
    | some old => if old != e.2 then some (e.1, old, e.2) else none
    | none => none

/-- Old and new name at every place where two states differ. -/
def differences (before after : State) : List (Var × Var) :=
  mismatches before.stack after.stack ++ mismatches before.locals after.locals ++
    mismatches before.globals after.globals ++ (reboundSlots before after).map (·.2)

/-! ## Text -/

def row (vs : List Var) : String := "[" ++ ", ".intercalate (vs.map Var.text) ++ "]"

def text (s : State) : String :=
  let heap := s.memory.entries.map fun e => s!"{e.1.1.text}+{e.1.2}: {e.2.text}"
  "\x7bvstack: " ++ row s.stack ++ ",\n locals: " ++ row s.locals ++ ",\n globals: " ++ row s.globals ++
    ",\n heap: [" ++ ", ".intercalate heap ++ "]\n\x7d"

end State
end Backslice
