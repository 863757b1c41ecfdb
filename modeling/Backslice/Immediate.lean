import Backslice.Literal

/-! # Immediates

An immediate is what an instruction carries in the code: the index of a local or global, a byte offset, a
literal, or nothing. Which of them an operation can work with is decided where the operation runs. -/

namespace Backslice

set_option autoImplicit false

inductive Immediate where
  | absent
  | int (n : Int)
  | literal (c : Literal)
deriving DecidableEq, Repr

namespace Immediate

def key : Immediate → Immediate
  | literal c => literal c.key
  | i => i

def text : Immediate → String
  | absent => "None"
  | int n => toString n
  | literal c => c.text

/-- What kind of thing the immediate is, for messages. -/
def kind : Immediate → String
  | absent => "NoneType"
  | int _ => "int"
  | literal _ => "PrimValue"

/-- The whole number that the immediate is, if it is one. -/
def int? : Immediate → Option Int
  | int n => some n
  | absent | literal _ => none

end Immediate
end Backslice
