import Backslice.Proofs.Graph.Paths
import Backslice.Proofs.Visit

/-! # Instructions without propagation

If no name is propagated, an instruction takes values off the stack and puts a value of its own at one place, or it
stores. Which of this it does depends on the state only through the height of the stack. -/

namespace Backslice

set_option autoImplicit false

/-! ## Actions -/

/-- Where an instruction puts the value that it makes. -/
inductive Dest where
  | nowhere
  | stack
  | locals (n : Nat)
  | globals (n : Nat)

inductive Action where
  /-- Takes `d` values off the stack, leaves at most `m` of those below and puts a value at `dest`. -/
  | put (d m : Nat) (dest : Dest)
  /-- Stores the value on top of the stack at the address under it. -/
  | store (offset : Int)

namespace State

def trim (s : State) (d m : Nat) : State := { s with stack := (s.stack.drop d).take m }

def put (s : State) (x : Var) : Dest → State
  | .nowhere => s
  | .stack => s.push x
  | .locals n => { s with locals := s.locals.set n x }
  | .globals n => { s with globals := s.globals.set n x }

end State

/-- The action leads from `s` to `t`; `x` is the name of the value that it makes. -/
inductive Action.Leads (x : Var) (s : State) : Action → State → Prop
  | put {d m : Nat} {dest : Dest} (hd : d ≤ s.stack.length) : Leads x s (.put d m dest) ((s.trim d m).put x dest)
  | store {offset : Int} {value address : Var} {rest : List Var} (hs : s.stack = value :: address :: rest) :
      Leads x s (.store offset) { s with stack := rest, memory := s.memory.insert (address, offset) value }

/-- The values that the action does not take stay on the stack of this height. -/
def Action.Level (height : Nat) : Action → Prop
  | .put d m _ => height ≤ d + m
  | .store _ => True

/-! ## The actions of instructions -/

namespace DataInstr

def index (i : DataInstr) : Nat := (i.arg.int?.getD 0).toNat

theorem index_of_arg {i : DataInstr} {n : Nat} (h : i.arg = .int n) : i.index = n := by
  rw [index, h]
  rfl

def action (i : DataInstr) (height : Nat) : Action :=
  match i.op with
  | .nop => .put 0 height .nowhere
  | .drop => .put 1 height .nowhere
  | .localGet | .globalGet | .const => .put 0 height .stack
  | .localSet => .put 1 height (.locals i.index)
  | .localTee => .put 0 height (.locals i.index)
  | .globalSet => .put 1 height (.globals i.index)
  | .store => .store i.offset
  | op => .put (op.computes?.getD 0) height .stack

theorem action_of_computes {i : DataInstr} {n : Nat} (h : i.op.computes? = some n) (height : Nat) :
    i.action height = .put n height .stack := by
  unfold action
  cases hop : i.op <;> simp_all [DataOp.computes?]

theorem level_action (i : DataInstr) (height : Nat) : (i.action height).Level height := by
  unfold action
  cases i.op <;> simp [Action.Level]

theorem store_of_action {i : DataInstr} {height : Nat} {offset : Int} (h : i.action height = .store offset) :
    i.op = .store ∧ i.offset = offset := by
  unfold action at h
  cases hop : i.op <;> rw [hop] at h <;> first | exact ⟨rfl, Action.store.inj h⟩ | cases h

theorem Effect.leads {i : DataInstr} {s t : State} (h : i.Effect .bare s t) :
    (i.action s.stack.length).Leads i.fresh s t := by
  have hput : ∀ (d : Nat) (dest : Dest) {t : State}, i.action s.stack.length = .put d s.stack.length dest →
      d ≤ s.stack.length → ({ s with stack := s.stack.drop d } : State).put i.fresh dest = t →
      (i.action s.stack.length).Leads i.fresh s t := by
    rintro d dest t ha hd rfl
    have htrim : s.trim d s.stack.length = { s with stack := s.stack.drop d } := by
      simp [State.trim, List.take_of_length_le]
    rw [ha, ← htrim]
    exact .put hd
  cases h with
  | nop hop => exact hput 0 .nowhere (by simp [action, hop]) (Nat.zero_le _) rfl
  | compute hop hn => exact hput _ .stack (action_of_computes hop _) hn rfl
  | drop hop hs => exact hput 1 .nowhere (by simp [action, hop]) (by simp [hs]) (by simp [State.put, hs])
  | localGet hop hv =>
    cases hv
    exact hput 0 .stack (by simp [action, hop]) (Nat.zero_le _) rfl
  | globalGet hop hv =>
    cases hv
    exact hput 0 .stack (by simp [action, hop]) (Nat.zero_le _) rfl
  | const hop => exact hput 0 .stack (by simp [action, hop]) (Nat.zero_le _) rfl
  | @localSet v rest n hop hs harg _ =>
    exact hput 1 (.locals n) (by simp [action, hop, index_of_arg harg]) (by simp [hs]) (by rw [hs]; rfl)
  | @localTee v rest n hop hs harg _ =>
    exact hput 0 (.locals n) (by simp [action, hop, index_of_arg harg]) (Nat.zero_le _) rfl
  | @globalSet v rest n hop hs harg _ =>
    exact hput 1 (.globals n) (by simp [action, hop, index_of_arg harg]) (by simp [hs]) (by rw [hs]; rfl)
  | store hop hs =>
    have ha : i.action s.stack.length = .store i.offset := by simp [action, hop]
    rw [ha]
    exact .store hs

end DataInstr

namespace ControlInstr

def action (sig : Signature) (i : ControlInstr) (height : Nat) : Action :=
  match i.op with
  | .call | .callIndirect => .put i.takes.toNat height (if i.arity.outputs = 1 then .stack else .nowhere)
  | .brIf | .cond | .brTable => .put 1 height .nowhere
  | .ret => if sig.results.length = 1 then .put 0 1 .nowhere else .put height height .nowhere
  | .unreachable => .put height height .nowhere
  | .br | .block | .loop => .put 0 height .nowhere

theorem Effect.leads {sig : Signature} {i : ControlInstr} {s t : State} (h : i.Effect sig s t)
    (hfits : i.op.isCall = true → 0 ≤ i.arity.inputs) : (i.action sig s.stack.length).Leads i.fresh s t := by
  have hput : ∀ {d m : Nat} {dest : Dest} {t : State}, i.action sig s.stack.length = .put d m dest →
      d ≤ s.stack.length → (s.trim d m).put i.fresh dest = t → (i.action sig s.stack.length).Leads i.fresh s t := by
    rintro d m dest t ha hd rfl
    exact ha ▸ .put hd
  have htrim : ∀ d : Nat, s.trim d s.stack.length = { s with stack := s.stack.drop d } := by
    intro d
    simp [State.trim, List.take_of_length_le]
  cases h with
  | call hop hn =>
    have htakes : i.takes = (i.takes.toNat : Int) := by
      have hinputs := hfits hop
      unfold takes
      split <;> omega
    have ha : i.action sig s.stack.length =
        .put i.takes.toNat s.stack.length (if i.arity.outputs = 1 then .stack else .nowhere) := by
      unfold action
      cases hop' : i.op <;> rw [hop'] at hop <;> first | rfl | cases hop
    refine hput ha (by omega) ?_
    rw [htrim, results, htakes, Position.dropTo_ofNat, Int.toNat_natCast]
    split <;> rfl
  | br hop =>
    have ha : i.action sig s.stack.length = .put 0 s.stack.length .nowhere := by simp [action, hop]
    exact hput ha (Nat.zero_le _) (by rw [htrim]; rfl)
  | branch hop hs =>
    have ha : i.action sig s.stack.length = .put 1 s.stack.length .nowhere := by
      unfold action
      cases hop' : i.op <;> rw [hop'] at hop <;> first | rfl | cases hop
    exact hput ha (by simp [hs]) (by rw [htrim]; simp [State.put, hs])
  | ret hop hr hs =>
    have ha : i.action sig s.stack.length = .put 0 1 .nowhere := by simp [action, hop, hr]
    exact hput ha (Nat.zero_le _) (by simp [State.trim, State.put, hs])
  | leave hop =>
    have ha : i.action sig s.stack.length = .put s.stack.length s.stack.length .nowhere := by
      rcases hop with hop | ⟨hop, hr⟩
      · simp [action, hop]
      · simp [action, hop, hr]
    exact hput ha (Nat.le_refl _) (by simp [State.trim, State.put])

theorem level_action {sig : Signature} {i : ControlInstr} {height : Nat}
    (h : i.op = .ret → sig.results.length = 1 → height ≤ 1) : (i.action sig height).Level height := by
  unfold action
  cases hop : i.op <;> simp only [Action.Level, Nat.le_add_left]
  case ret =>
    by_cases hr : sig.results.length = 1
    · rw [if_pos hr]
      exact h hop hr
    · rw [if_neg hr]
      exact Nat.le_add_left ..

theorem action_ne_store (sig : Signature) (i : ControlInstr) (height : Nat) (offset : Int) :
    i.action sig height ≠ .store offset := by
  intro h
  unfold action at h
  cases hop : i.op <;> rw [hop] at h
  case ret => by_cases hr : sig.results.length = 1 <;> simp [hr] at h
  all_goals cases h

end ControlInstr

namespace Instr

variable {sig : Signature} {i : Instr} {s t : State}

def action (sig : Signature) (height : Nat) : Instr → Action
  | .data i => i.action height
  | .control i => i.action sig height

/-- An instruction does what its action does. -/
theorem Effect.leads (h : i.Effect sig .bare s t) (hfits : i.Fits sig) :
    (i.action sig s.stack.length).Leads (.pushed i.label) s t := by
  cases i with
  | data d => exact DataInstr.Effect.leads h
  | control k => exact ControlInstr.Effect.leads h hfits

/-- Only stores store. -/
theorem exists_store_of_action {height : Nat} {offset : Int} (h : i.action sig height = .store offset) :
    ∃ d, i = .data d ∧ d.op = .store ∧ d.offset = offset := by
  cases i with
  | data d => exact ⟨d, rfl, DataInstr.store_of_action h⟩
  | control k => exact absurd h (k.action_ne_store sig height offset)

def isReturn : Instr → Bool
  | .data _ => false
  | .control i => i.op = .ret

/-- The instruction gives back the result of the function. -/
def Yields (sig : Signature) : Instr → Prop
  | .data _ => False
  | .control i => i.op = .ret ∧ sig.results.length = 1

theorem isReturn_of_yields (h : i.Yields sig) : i.isReturn = true := by
  cases i with
  | data d => cases h
  | control k => exact decide_eq_true h.1

theorem level_action {height : Nat} (h : i.Yields sig → height ≤ 1) : (i.action sig height).Level height := by
  cases i with
  | data d => exact d.level_action height
  | control k => exact ControlInstr.level_action fun hop hr => h ⟨hop, hr⟩

end Instr
end Backslice
