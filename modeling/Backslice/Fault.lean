import Backslice.Occurrence
import Backslice.Text.Quoted

/-! # Faults

A fault is the cause of a failed analysis step. Most of them are reported under a stable code: 1000 for
states, 2000 for joins, 3000 for uses and definitions, 4000 for look-ups and annotations. The wording of every
fault is in this module. -/

namespace Backslice

set_option autoImplicit false

/-! ## Coded reports -/

inductive Category where
  | general | underflow | unsupported | shape | merge | duplicate | missing | inconsistent | lookup
deriving DecidableEq, Repr

def Category.code : Category → String
  | general => "SSL-0000"
  | underflow => "SSL-1001"
  | unsupported => "SSL-1002"
  | shape => "SSL-2001"
  | merge => "SSL-2002"
  | duplicate => "SSL-3001"
  | missing => "SSL-3002"
  | inconsistent => "SSL-4001"
  | lookup => "SSL-4002"

structure Report where
  category : Category
  message : String
  details : List (String × String) := []

/-- The code, the message, and the details in the order of their names. -/
def Report.text (r : Report) : String :=
  let details := (sortBy (fun a b => a.1 ≤ b.1) r.details).map fun d => s!"{d.1}={d.2}"
  let line := s!"[{r.category.code}] {r.message}"
  if r.details.isEmpty then line else line ++ " (" ++ ", ".intercalate details ++ ")"

/-! ## Causes -/

/-- The parts of a state that have a length. -/
inductive Part where
  | stack | locals | globals
deriving DecidableEq, Repr

def Part.text : Part → String
  | stack => "vstack"
  | locals => "locals"
  | globals => "globals"

inductive Fault where
  /-- An instruction needs more operands than the stack holds. -/
  | underflow (needed available : Int) (site : String)
  /-- A control instruction that has no effect of its own. -/
  | unsupported (instr : String)
  /-- Two states at a join point differ in the length of a part. -/
  | shape (part : Part) (block : Int) (first other : Nat)
  /-- A block that is no join point has several incoming states. -/
  | crowded (block : Int)
  /-- No incoming state of a join point is known. -/
  | unanalyzed (block : Int)
  | redefined (v : Var) (existing new : Def)
  | rechained (u : Use) (existing new : Def)
  | undefined (v : Var)
  | unresolved (u : Use)
  | blockUnannotated (block : Int)
  | instrUnannotated (label : Label)
  | mergeUnannotated (block : Int)
  /-- The state after a store does not bind the slot that it writes. -/
  | slotUnbound (label : Label) (address : Var) (offset : Int)
  | noBlock (block : Int)
  | noInstr (label : Label)
  | noHome (label : Label)
  /-- An assignment to a slot that does not exist. -/
  | slotRange (index : Int) (size : Nat)
  /-- A read of a position that does not exist. -/
  | positionRange
  /-- A read of a position that does not fit a word. -/
  | positionWidth
  /-- A store with fewer than two values recorded in front of it. -/
  | storeOperands (available : Nat)
  /-- The height of a run of instructions is asked for and its ends are not annotated. -/
  | runUnannotated
  /-- A block is named as a branch and holds no control instruction. -/
  | notControl (block : Int)
  /-- An instruction reads a local or global, and its immediate is no index. -/
  | noSource (arg : Immediate)
  /-- An instruction assigns a local or global, and its immediate is no index. -/
  | noTarget (arg : Immediate)
deriving DecidableEq, Repr

namespace Fault

def report? : Fault → Option Report
  | underflow needed available site => some ⟨.underflow, "not enough elements in stack",
      [("needed", toString needed), ("available", toString available),
        ("where", if site = "" then "?" else site)]⟩
  | unsupported instr => some ⟨.unsupported, "unsupported control instruction", [("instr", instr)]⟩
  | shape part block first other => some ⟨.shape, s!"predecessor states disagree on {part.text} length",
      [("block", toString block), ("lengths", Text.tuple [first, other])]⟩
  | crowded block => some ⟨.merge, "invalid block with multiple input states", [("block", toString block)]⟩
  | unanalyzed block =>
    some ⟨.merge, "no predecessor of a merge block has been analyzed", [("block", toString block)]⟩
  | redefined v existing new => some ⟨.duplicate, "more than one definition for a variable",
      [("var", v.text), ("existing", existing.text), ("new", new.text)]⟩
  | rechained u existing new => some ⟨.duplicate, "cannot have more than one definition for a use",
      [("use", u.text), ("existing", existing.text), ("new", new.text)]⟩
  | undefined v =>
    some ⟨.missing, "use-def chain incorrect: could not find def of variable", [("var", v.text)]⟩
  | unresolved u =>
    some ⟨.missing, "use-def lookup did not find a definition for a use", [("use", u.text)]⟩
  | blockUnannotated block => some ⟨.inconsistent, "block is not annotated", [("block", toString block)]⟩
  | instrUnannotated label => some ⟨.inconsistent, "instruction is not annotated", [("label", label.text)]⟩
  | mergeUnannotated block => some ⟨.inconsistent, "merge block is not annotated", [("block", toString block)]⟩
  | slotUnbound label address offset => some ⟨.inconsistent, "wrong memory annotation",
      [("label", label.text), ("address", address.text), ("offset", toString offset)]⟩
  | noBlock block => some ⟨.lookup, "no such block", [("block", toString block)]⟩
  | noInstr label => some ⟨.lookup, "no such instruction", [("label", label.text)]⟩
  | noHome label => some ⟨.lookup, "label not in any block", [("label", label.text)]⟩
  | slotRange .. | positionRange | positionWidth | storeOperands _ | noSource _ | noTarget _ => none
  | runUnannotated | notControl _ => none

/-- The wording of a fault; a run without annotations and a block without a branch have none. -/
def message? (f : Fault) : Option String :=
  match f with
  | slotRange index size => some s!"index {index} out of range for {size} slots"
  | positionRange => some "tuple index out of range"
  | positionWidth => some "cannot fit 'int' into an index-sized integer"
  | storeOperands available => some s!"not enough values to unpack (expected 2, got {available})"
  | noSource arg => some s!"tuple indices must be integers or slices, not {arg.kind}"
  | noTarget arg => some s!"'<=' not supported between instances of 'int' and '{arg.kind}'"
  | _ => f.report?.map Report.text

end Fault
end Backslice
