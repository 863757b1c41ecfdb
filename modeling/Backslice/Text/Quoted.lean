import Backslice.Text.Printable

/-! # Quoted text

A text is written between single quotes, or between double quotes if it holds a single quote and no double
one. Inside, the backslash, the chosen quote and the unprintable characters are escaped; everything else
stands for itself. -/

namespace Backslice.Text

set_option autoImplicit false

def hexDigits (width n : Nat) : String :=
  let digits := Nat.toDigits 16 n
  String.ofList (List.replicate (width - digits.length) '0' ++ digits)

/-- The quote around a text. -/
def quoteFor (s : String) : Char := if s.toList.contains '\'' && !s.toList.contains '"' then '"' else '\''

def escape (quote c : Char) : String :=
  if c = '\\' then "\\\\"
  else if c = quote then String.ofList ['\\', quote]
  else if c = '\n' then "\\n"
  else if c = '\r' then "\\r"
  else if c = '\t' then "\\t"
  else if isPrintable c then String.singleton c
  else if c.toNat < 0x100 then "\\x" ++ hexDigits 2 c.toNat
  else if c.toNat < 0x10000 then "\\u" ++ hexDigits 4 c.toNat
  else "\\U" ++ hexDigits 8 c.toNat

def quoted (s : String) : String :=
  let quote := quoteFor s
  String.singleton quote ++ String.join (s.toList.map (escape quote)) ++ String.singleton quote

/-- A row of integers in round brackets; a single one is followed by a comma. -/
def tuple : List Int → String
  | [n] => s!"({n},)"
  | ns => "(" ++ ", ".intercalate (ns.map toString) ++ ")"

end Backslice.Text
