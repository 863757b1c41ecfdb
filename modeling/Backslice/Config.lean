import Backslice.Text.Quoted

/-! # Precision of the analysis

None of the settings changes which code is legal, only how often two program points share a name. A setting
should be a truth value; others are taken by whether they are empty or zero, with a warning. -/

namespace Backslice

set_option autoImplicit false

structure Config where
  /-- A read of a local pushes the name that it holds, a write stores the name on the stack. -/
  propagateLocals : Bool := true
  /-- The same for globals. -/
  propagateGlobals : Bool := true
  /-- A literal is its own name, so that equal literals are identified. -/
  useConstants : Bool := true
deriving DecidableEq, Repr

/-- Names and constants stay where they are. -/
def Config.bare : Config := ⟨false, false, false⟩

inductive Setting where
  | flag (b : Bool)
  | number (n : Int)
  | text (s : String)
  | unset
deriving DecidableEq, Repr

namespace Setting

def isOn : Setting → Bool
  | flag b => b
  | number n => n ≠ 0
  | text s => s ≠ ""
  | unset => false

/-- How a value that is no truth value is shown. -/
def odd? : Setting → Option String
  | flag _ => none
  | number n => some (toString n)
  | text s => some (Text.quoted s)
  | unset => some "None"

end Setting

/-- The settings as they were given. -/
structure Options where
  propagateLocals : Setting := .flag true
  propagateGlobals : Setting := .flag true
  useConstants : Setting := .flag true
deriving DecidableEq, Repr

namespace Options

def config (o : Options) : Config := ⟨o.propagateLocals.isOn, o.propagateGlobals.isOn, o.useConstants.isOn⟩

def issues (o : Options) : List String :=
  [("propagate_locals", o.propagateLocals), ("propagate_globals", o.propagateGlobals),
    ("use_constants", o.useConstants)].filterMap fun (name, setting) =>
      setting.odd?.map fun shown => s!"{name} should be a bool, got {shown}"

def warnings (o : Options) : List String := o.issues.map ("AnalysisConfig: " ++ ·)

end Options
end Backslice
