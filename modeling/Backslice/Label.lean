import Backslice.Data.Sort

/-! # Labels of instructions and join points -/

namespace Backslice

set_option autoImplicit false

/-- A label names an instruction of the function, a join point by the index of its block, or an instruction
that stands in for removed ones. -/
inductive Label where
  | code (id : Int)
  | merge (block : Int)
  | dummy (id : Int)
deriving DecidableEq, Repr

namespace Label

def id : Label → Int
  | code n | merge n | dummy n => n

def rank : Label → Nat
  | code _ => 0
  | merge _ => 1
  | dummy _ => 2

def isMerge : Label → Bool
  | merge _ => true
  | _ => false

/-- The order of labels: by number, and among equal numbers instructions, join points, stand-ins. -/
def le (a b : Label) : Bool := a.id < b.id || (a.id == b.id && a.rank ≤ b.rank)

def text : Label → String
  | code n => toString n
  | merge n => s!"merge({n})"
  | dummy n => s!"dummy({n})"

end Label

def sortLabels (ls : List Label) : List Label := sortBy Label.le ls

end Backslice
