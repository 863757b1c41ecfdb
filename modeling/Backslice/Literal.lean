import Backslice.Number

/-! # Typed literals -/

namespace Backslice

set_option autoImplicit false

inductive ValueType where
  | i32 | i64 | f32 | f64
deriving DecidableEq, Repr

def ValueType.text : ValueType → String
  | i32 => "i32"
  | i64 => "i64"
  | f32 => "f32"
  | f64 => "f64"

structure Literal where
  type : ValueType
  value : Number
deriving DecidableEq, Repr

namespace Literal

def i32 (n : Int) : Literal := ⟨.i32, .int n⟩

def i64 (n : Int) : Literal := ⟨.i64, .int n⟩

def key (c : Literal) : Literal := ⟨c.type, c.value.key⟩

/-- Literals are equal if type and numeric value agree. -/
instance : BEq Literal := ⟨fun a b => decide (a.key = b.key)⟩

def text (c : Literal) : String := s!"{c.type.text}:{c.value.text}"

end Literal
end Backslice
