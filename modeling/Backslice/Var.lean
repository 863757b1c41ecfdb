import Backslice.Immediate
import Backslice.Label

/-! # Symbolic names of values

Every value that the analysis meets has a name that says where it comes from. Names are compared with `==`,
which looks through the spelling of literals; `Var.key` picks one name from each class. -/

namespace Backslice

set_option autoImplicit false

inductive Var where
  /-- The value pushed by an instruction. -/
  | pushed (site : Label)
  /-- What a local holds when the function starts. -/
  | entryLocal (index : Int)
  /-- What a global holds when the function starts. -/
  | entryGlobal (index : Int)
  /-- What a `const` instruction pushes, told by its immediate. -/
  | constant (value : Immediate)
  /-- The `n`th name made at a join point, for a place where the incoming values differ. -/
  | phi (block n : Int)
  /-- The unknown content of memory at an address. -/
  | cell (address : Var) (offset : Int)
  /-- The result of the function, on top of the stack at its exit. -/
  | returned
  /-- Marks a place whose values differ while states are being joined. -/
  | hole
deriving DecidableEq, Repr

namespace Var

def key : Var → Var
  | constant value => constant value.key
  | cell address offset => cell address.key offset
  | v => v

instance : BEq Var := ⟨fun a b => decide (a.key = b.key)⟩

theorem beq_iff {a b : Var} : (a == b) = true ↔ a.key = b.key := decide_eq_true_iff

instance : EquivBEq Var where
  symm h := beq_iff.mpr (beq_iff.mp h).symm
  trans h₁ h₂ := beq_iff.mpr ((beq_iff.mp h₁).trans (beq_iff.mp h₂))
  rfl := beq_iff.mpr rfl

def isConstant : Var → Bool
  | constant _ => true
  | _ => false

def text : Var → String
  | pushed site => "i" ++ site.text
  | entryLocal index => s!"l{index}"
  | entryGlobal index => s!"g{index}"
  | constant value => "c" ++ value.text
  | phi block n => s!"m{block}_{n}"
  | cell address offset => s!"mem[{address.text}+{offset}]"
  | returned => "ret"
  | hole => "_"

end Var
end Backslice
