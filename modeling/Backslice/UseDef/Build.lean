import Backslice.UseDef.Chains
import Backslice.UseDef.Merge

/-! # Definitions, uses and chains of an annotated graph

Every name has one definition: the start of the function, a join point, or an instruction. A constant that a
single instruction pushes is defined there; one that several push has no single producer. -/

namespace Backslice

set_option autoImplicit false

structure UseDef where
  defs : Table Var Def := ∅
  uses : Table Var (List Use) := ∅
  /-- Constants with the instructions that push them. -/
  producers : Table Var (List Label) := ∅

namespace UseDef

def define (t : UseDef) (v : Var) (d : Def) : Except Fault UseDef :=
  match t.defs.find? v with
  | some existing => throw (.redefined v existing d)
  | none => pure { t with defs := t.defs.insert v d }

def use (t : UseDef) (u : Use) : UseDef :=
  { t with uses := t.uses.alter u.var fun us =>
      let us := us.getD []
      if us.contains u then us else us ++ [u] }

def produce (t : UseDef) (v : Var) (l : Label) : UseDef :=
  { t with producers := t.producers.alter v fun ls => ls.getD [] ++ [l] }

/-! ## Collecting -/

/-- The names in front of the entry are defined by the start of the function. -/
def addEntry (t : UseDef) (g : Graph) : Except Fault UseDef := do
  let note ← g.blockNote g.entry
  note.before.state.vars.eraseDups.foldlM (fun t v => t.define v (.entry v)) t

/-- A join point defines its new names, each once, and uses the old ones. -/
def addMerge (t : UseDef) (g : Graph) (index : Int) (b : Block) : Except Fault UseDef := do
  let pairs ← g.mergeUses index b
  let (t, _) ← pairs.foldlM (fun (t, (here : List Var)) (old, new) => do
    let t ← if here.contains new then pure t else t.define new (.merge index new)
    return (t.use (.merge index old), new :: here)) (t, [])
  return t

def addInstr (t : UseDef) (l : Label) (i : Instr) : Except Fault UseDef := do
  let t ← (← i.defs).foldlM (fun t v => if v.isConstant then pure (t.produce v l) else t.define v (.instr l v)) t
  return (← i.uses).foldl (fun t v => t.use (.instr l v)) t

/-- The definition of a constant, from the instructions that push it. -/
def constantDef (v : Var) : List Label → Def
  | l :: ls => if ls.all (· = l) then .instr l v else .constant v
  | [] => .constant v

/-- Constants that nothing else defines are defined by their producers. -/
def addConstants (t : UseDef) : UseDef :=
  t.producers.entries.foldl (fun t (v, ls) =>
    if t.defs.contains v then t else { t with defs := t.defs.insert v (constantDef v ls) }) t

/-- All definitions and uses of an annotated graph. -/
def collect (g : Graph) : Except Fault UseDef := do
  let t ← ({} : UseDef).addEntry g
  let t ← (g.sortedBlocks.filter (·.2.isMerge)).foldlM (fun t (index, b) => t.addMerge g index b) t
  let t ← g.sortedInstrs.foldlM (fun t (l, i) => t.addInstr l i) t
  return t.addConstants

/-- The chain of every use. -/
def chains (t : UseDef) : Except Fault Chains :=
  t.uses.entries.foldlM (fun (cs : Chains) (v, us) =>
    match t.defs.find? v with
    | some d => us.foldlM (fun cs u => Chains.add cs u d) cs
    | none => throw (.undefined v)) ∅

end UseDef

/-- Definitions, uses and chains of an annotated graph. -/
def Graph.useDef (g : Graph) : Except Fault (UseDef × Chains) := do
  let t ← UseDef.collect g
  return (t, ← t.chains)

end Backslice
