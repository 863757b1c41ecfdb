import Backslice.Instruction

/-! # Basic blocks -/

namespace Backslice

set_option autoImplicit false

inductive Body where
  /-- Instructions that run straight through. -/
  | data (instrs : List DataInstr)
  /-- A single control instruction. -/
  | control (instr : ControlInstr)
  /-- A join point, without instructions. -/
  | merge
deriving DecidableEq

structure Block where
  body : Body
  note : Option Note := none
deriving DecidableEq

namespace Block

def kind (b : Block) : String :=
  match b.body with
  | .data _ => "data"
  | .control _ => "control"
  | .merge => "merge"

def isMerge (b : Block) : Bool :=
  match b.body with
  | .merge => true
  | _ => false

/-- Whether the block decides between several successors. -/
def isPredicate (b : Block) : Bool :=
  match b.body with
  | .control i => i.op.isBranching
  | _ => false

/-- The instructions of a data block. -/
def run (b : Block) : List DataInstr :=
  match b.body with
  | .data instrs => instrs
  | _ => []

def instrs (b : Block) : List Instr :=
  match b.body with
  | .data instrs => instrs.map .data
  | .control instr => [.control instr]
  | .merge => []

/-- The label of a control instruction, or of the join point at `index`. -/
def label? (b : Block) (index : Int) : Option Label :=
  match b.body with
  | .data _ => none
  | .control instr => some instr.label
  | .merge => some (.merge index)

/-- All labels that the block at `index` answers to. -/
def labels (b : Block) (index : Int) : List Label :=
  if b.isMerge then [.merge index] else b.instrs.map Instr.label

/-- Replaces the annotations of the instructions that `notes` lists. -/
def annotateInstrs (b : Block) (notes : Table Label Note) : Block :=
  match b.body with
  | .data instrs =>
    { b with body := .data (instrs.map fun i => { i with note := (notes.find? i.label).or i.note }) }
  | .control i => { b with body := .control { i with note := (notes.find? i.label).or i.note } }
  | .merge => b

def clear (b : Block) : Block where
  body := match b.body with
    | .data instrs => .data (instrs.map fun i => { i with note := none })
    | .control i => .control { i with note := none }
    | .merge => .merge
  note := none

def text (b : Block) (index : Int) : String :=
  let head := s!"block {index} ({b.kind})"
  if b.isMerge then head else head ++ ": " ++ "; ".intercalate (b.instrs.map Instr.text)

end Block
end Backslice
