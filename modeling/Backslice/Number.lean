/-! # Numbers in literals

A number is an integer, or the text of a binary floating-point number. It is printed back as it was written,
and compared by value: an integer equals a text that denotes it, and the two zeros are equal. A text gives the
fewest digits that read back as its number, so two texts without a whole value denote the same number only if
they are the same. The exception is `nan`, which denotes no number: a literal written so equals itself wherever
the analysis carries it, and no other literal written so. Its occurrence in the input tells it apart. -/

namespace Backslice

set_option autoImplicit false

inductive Number where
  | int (n : Int)
  /-- A finite or infinite number. -/
  | float (text : String)
  /-- Not a number, written at the given occurrence. -/
  | nan (occurrence : Nat)
deriving DecidableEq, Repr

namespace Number

/-- The nearest number with at most `bits` significant binary digits; a tie goes to the even one. -/
def roundBinary (bits n : Nat) : Nat :=
  let unit := Nat.pow 2 (n.log2 + 1 - bits)
  let (q, r) := (n / unit, n % unit)
  (if unit < 2 * r || (2 * r == unit && q % 2 == 1) then q + 1 else q) * unit

/-- Significant binary digits of a floating-point number. -/
def precision : Nat := 53

def digits? (cs : List Char) : Option Nat :=
  if cs.all Char.isDigit then some (cs.foldl (fun n c => 10 * n + (c.toNat - '0'.toNat)) 0) else none

def signed? : List Char → Option Int
  | '-' :: cs => (digits? cs).map fun n => -(n : Int)
  | '+' :: cs => (digits? cs).map Int.ofNat
  | cs => (digits? cs).map Int.ofNat

/-- The whole number `m * 10 ^ e`, if it is one. -/
def scaled? (m : Nat) (e : Int) : Option Nat :=
  let scale := Nat.pow 10 e.natAbs
  if 0 ≤ e then some (m * scale) else if m % scale = 0 then some (m / scale) else none

/-- The decimal number written by `cs` (digits, a point, an exponent), if its value is whole. -/
def decimal? (cs : List Char) : Option Nat := do
  let mantissa := cs.takeWhile (· ≠ 'e')
  let whole := mantissa.takeWhile (· ≠ '.')
  let fraction := (mantissa.dropWhile (· ≠ '.')).drop 1
  let exponent ← signed? ((cs.dropWhile (· ≠ 'e')).drop 1)
  scaled? (← digits? (whole ++ fraction)) (exponent - fraction.length)

/-- The integer that a floating-point text denotes, if its value is whole. -/
def whole? (text : String) : Option Int :=
  match text.toList with
  | '-' :: cs => (decimal? cs).map fun n => -(roundBinary precision n : Int)
  | cs => (decimal? cs).map fun n => (roundBinary precision n : Int)

/-- One representative of all spellings of a value. -/
def key : Number → Number
  | .int n => .int n
  | .float text => match whole? text with
    | some n => .int n
    | none => .float text
  | .nan occurrence => .nan occurrence

instance : BEq Number := ⟨fun a b => decide (a.key = b.key)⟩

def text : Number → String
  | .int n => toString n
  | .float text => text
  | .nan _ => "nan"

/-- The number that a floating-point text denotes at an occurrence in the input. -/
def ofText (occurrence : Nat) (text : String) : Number :=
  if text = "nan" then .nan occurrence else .float text

end Number
end Backslice
