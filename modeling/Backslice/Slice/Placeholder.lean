import Backslice.Graph.Basic

/-! # Placeholders

Instructions that a slice removes are replaced by drops and pushes of zero with the same effect on the height
of the stack. -/

namespace Backslice

set_option autoImplicit false

/-- How much higher the stack is behind an annotated piece of code than in front of it. -/
def Note.rise (first last : Note) : Int :=
  (last.after.state.stack.length : Int) - first.before.state.stack.length

/-- The net effect of a block on the height of the stack. -/
def Graph.blockEffect (g : Graph) (index : Int) : Except Fault Int := do
  let note ← g.blockNote index
  return Note.rise note note

/-- The net effect of a run of instructions on the height of the stack. -/
def runEffect (run : List DataInstr) : Except Fault Int :=
  match run.head?, run.getLast? with
  | some first, some last => match first.note, last.note with
    | some a, some b => pure (Note.rise a b)
    | _, _ => throw .runUnannotated
  | _, _ => pure 0

/-- A drop if the stack has to sink, a push of zero otherwise. -/
def placeholder (sinks : Bool) (id : Int) : DataInstr :=
  if sinks then { label := .dummy id, op := .drop, mnemonic := "drop" }
  else { label := .dummy id, op := .const, arg := .literal (.i32 0), mnemonic := "i32.const" }

/-- Placeholders that change the height of the stack by `net`, numbered from `next`. -/
def placeholders (net next : Int) : List DataInstr :=
  (List.range net.natAbs).map fun (k : Nat) => placeholder (net < 0) (next + k)

end Backslice
