import Backslice.Var

/-! # Where names are used and defined -/

namespace Backslice

set_option autoImplicit false

/-- A name consumed by an instruction, or replaced at a join point. -/
inductive Use where
  | instr (site : Label) (v : Var)
  | merge (block : Int) (v : Var)
deriving DecidableEq, Repr

namespace Use

/-- The use of `v` at a label, an instruction or a join point. -/
def ofLabel (l : Label) (v : Var) : Use :=
  match l with
  | .merge block => merge block v
  | site => instr site v

def label : Use → Label
  | instr site _ => site
  | merge block _ => .merge block

def var : Use → Var
  | instr _ v | merge _ v => v

def key : Use → Use
  | instr site v => instr site v.key
  | merge block v => merge block v.key

instance : BEq Use := ⟨fun a b => decide (a.key = b.key)⟩

theorem beq_iff {a b : Use} : (a == b) = true ↔ a.key = b.key := decide_eq_true_iff

instance : EquivBEq Use where
  symm h := beq_iff.mpr (beq_iff.mp h).symm
  trans h₁ h₂ := beq_iff.mpr ((beq_iff.mp h₁).trans (beq_iff.mp h₂))
  rfl := beq_iff.mpr rfl

def text : Use → String
  | instr site v => s!"iuse({site.text}, {v.text})"
  | merge block v => s!"muse({block}, {v.text})"

end Use

/-- What gives a name its value: an instruction, a join point, the start of the function, or, for a constant
that several instructions push, the constant itself. -/
inductive Def where
  | instr (site : Label) (v : Var)
  | merge (block : Int) (v : Var)
  | entry (v : Var)
  | constant (v : Var)
deriving DecidableEq, Repr

namespace Def

/-- The instruction or join point behind a definition, if there is a single one. -/
def label? : Def → Option Label
  | instr site _ => some site
  | merge block _ => some (.merge block)
  | entry _ | constant _ => none

def key : Def → Def
  | instr site v => instr site v.key
  | merge block v => merge block v.key
  | entry v => entry v.key
  | constant v => constant v.key

instance : BEq Def := ⟨fun a b => decide (a.key = b.key)⟩

def text : Def → String
  | instr site v => s!"idef({site.text}, {v.text})"
  | merge block v => s!"mdef({block}, {v.text})"
  | entry v => s!"edef({v.text})"
  | constant v => s!"cdef({v.text})"

end Def
end Backslice
