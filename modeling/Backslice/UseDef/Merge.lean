import Backslice.UseDef.Instruction

/-! # Names used and defined at join points, and the stores behind memory slots -/

namespace Backslice

set_option autoImplicit false

namespace Graph

/-! ## Join points -/

/-- The annotation of a block that is looked at as a join point. -/
def mergeNote (index : Int) (b : Block) : Except Fault Note :=
  match b.note with
  | some a => pure a
  | none => throw (.mergeUnannotated index)

/-- The states that a join point renames: the one in front of it, and those behind its annotated predecessors.
-/
def mergeSources (g : Graph) (index : Int) (b : Block) : Except Fault (List State) := do
  let note ← mergeNote index b
  let behind ← (g.predecessors index).mapM fun e => return (← g.findBlock e.target).note
  return note.before.state :: (behind.filterMap id).map (·.after.state)

/-- Old and new name at each place that a join point renames. -/
def mergeUses (g : Graph) (index : Int) (b : Block) : Except Fault (List (Var × Var)) := do
  let note ← mergeNote index b
  let sources ← g.mergeSources index b
  return (sources.flatMap fun s => s.differences note.after.state).eraseDups

/-- Slot and old name of each memory slot that a join point renames. -/
def mergeMemoryUses (g : Graph) (index : Int) (b : Block) : Except Fault (List (Slot × Var)) := do
  let note ← mergeNote index b
  let sources ← g.mergeSources index b
  return (sources.flatMap fun s => (s.reboundSlots note.after.state).map fun r => (r.1, r.2.1)).eraseDups

/-- The names used at a label, an instruction or a join point. -/
def labelUses (g : Graph) (l : Label) : Except Fault (List Var) :=
  match l with
  | .merge index => do
    let b ← g.findBlock index
    return (← g.mergeUses index b).map (·.1)
  | l => do
    let i ← g.findInstr l
    i.uses

end Graph

/-! ## Stores -/

/-- The stores that put a name into a slot. -/
abbrev StoreSites := Table (Slot × Var) (List Label)

/-- Slot and value written by a store, or nothing for another instruction. -/
def Instr.stored (i : Instr) : Except Fault (Option (Slot × Var)) :=
  match i with
  | .data d =>
    if d.op = .store then do
      let note ← i.requireNote
      match note.before.state.stack with
      | value :: address :: _ => return some ((address, d.offset), value)
      | stack => throw (.storeOperands stack.length)
    else pure none
  | .control _ => pure none

namespace Graph

def storeSites (g : Graph) : Except Fault StoreSites :=
  g.instrTable.entries.foldlM (fun sites (l, i) => do
    match ← i.stored with
    | some site => return sites.alter site fun ls => ls.getD [] ++ [l]
    | none => return sites) ∅

/-- The stores whose slots a join point reads; none for an instruction. -/
def labelStores (g : Graph) (sites : StoreSites) (l : Label) : Except Fault (List Label) :=
  match l with
  | .merge index => do
    let b ← g.findBlock index
    return ((← g.mergeMemoryUses index b).flatMap fun use => (sites.find? use).getD []).eraseDups
  | _ => pure []

/-- The stores that a label depends on, with the sites read off the graph if it is a join point. -/
def storesAt (g : Graph) (l : Label) : Except Fault (List Label) :=
  if l.isMerge then do
    g.labelStores (← g.storeSites) l
  else pure []

end Graph
end Backslice
