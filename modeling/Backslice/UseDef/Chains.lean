import Backslice.Data.Table
import Backslice.Fault

/-! # Chains from uses to definitions -/

namespace Backslice

set_option autoImplicit false

/-- Each use with its definition, in the order in which they were added. -/
abbrev Chains := Table Use Def

namespace Chains

/-- Adds the definition of a use that has none. -/
def add (cs : Chains) (u : Use) (d : Def) : Except Fault Chains :=
  match cs.find? u with
  | some existing => throw (.rechained u existing d)
  | none => pure (cs.insert u d)

def get (cs : Chains) (u : Use) : Except Fault Def :=
  match cs.find? u with
  | some d => pure d
  | none => throw (.unresolved u)

def text (cs : Chains) : String := ", ".intercalate (cs.entries.map fun e => s!"{e.1.text} -> {e.2.text}")

def summary (cs : Chains) : String := s!"UseDefChains({cs.size} chains)"

end Chains
end Backslice
