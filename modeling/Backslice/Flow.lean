import Backslice.State

/-! # What is known at a program point

Before a point has been analysed nothing is known about it. An operation applied there works on the empty
state and makes the point known; only what hands its input on untouched leaves it unknown. Equality compares
states alone, so an unanalysed point equals an empty state without being one. -/

namespace Backslice

set_option autoImplicit false

inductive Flow where
  | bottom
  | known (s : State)
deriving DecidableEq

namespace Flow

def state : Flow → State
  | bottom => {}
  | known s => s

def state? : Flow → Option State
  | bottom => none
  | known s => some s

def isBottom : Flow → Bool
  | bottom => true
  | known _ => false

instance : BEq Flow := ⟨fun a b => a.state == b.state⟩

/-- Of two states for one point the most recent counts. -/
def join (_old new : Flow) : Flow := new

def widen (_old new : Flow) : Flow := new

end Flow

/-- What is known in front of and behind an instruction or a block. -/
structure Note where
  before : Flow
  after : Flow
deriving DecidableEq

end Backslice
