/-! # Version and parts of the analyser -/

namespace Backslice

set_option autoImplicit false

def version : String := "0.1.0"

/-- The parts of the analyser, by the names under which they are listed. -/
inductive Component where
  | controlDependence | flowGraph | solver | faults | instructions
  | slicing | transfer | states | useDef | names
deriving DecidableEq, Repr

def Component.all : List Component :=
  [controlDependence, flowGraph, solver, faults, instructions, slicing, transfer, states, useDef, names]

end Backslice
