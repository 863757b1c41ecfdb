import Backslice.Transfer
import Backslice.Proofs.Data.Success
import Backslice.Proofs.Graph.Paths
import Backslice.Proofs.Names

/-! # What instructions do to states

For each kind of instruction, the relation between the state in front of it and the state behind it, as rules
that say exactly when the instruction succeeds and with what result. -/

namespace Backslice

set_option autoImplicit false

/-! ## Data instructions -/

/-- The number of operands of an operation that computes a fresh value from them. -/
def DataOp.computes? : DataOp → Option Nat
  | memorySize => some 0
  | memoryGrow | unary | test | convert | load => some 1
  | binary | compare => some 2
  | select => some 3
  | nop | drop | localGet | localSet | localTee | globalGet | globalSet | const | store => none

/-- The name at a place that an instruction reads: the one that is there if names are propagated, otherwise a
fresh one. -/
def DataInstr.Reads (i : DataInstr) (propagate : Bool) (places : List Var) (v : Var) : Prop :=
  if propagate then ∃ n, i.arg = .int n ∧ Position.get? places n = some v else v = i.fresh

/-- The name that an instruction leaves at a place that it assigns. -/
def DataInstr.written (i : DataInstr) (propagate : Bool) (v : Var) : Var := if propagate then v else i.fresh

inductive DataInstr.Effect (c : Config) (i : DataInstr) (s : State) : State → Prop
  | nop (hop : i.op = .nop) : Effect c i s s
  | compute {n : Nat} (hop : i.op.computes? = some n) (hn : n ≤ s.stack.length) :
      Effect c i s { s with stack := i.fresh :: s.stack.drop n }
  | drop {v : Var} {rest : List Var} (hop : i.op = .drop) (hs : s.stack = v :: rest) :
      Effect c i s { s with stack := rest }
  | localGet {v : Var} (hop : i.op = .localGet) (hv : i.Reads c.propagateLocals s.locals v) :
      Effect c i s (s.push v)
  | localSet {v : Var} {rest : List Var} {n : Nat} (hop : i.op = .localSet) (hs : s.stack = v :: rest)
      (harg : i.arg = .int n) (hn : n < s.locals.length) :
      Effect c i s { s with stack := rest, locals := s.locals.set n (i.written c.propagateLocals v) }
  | localTee {v : Var} {rest : List Var} {n : Nat} (hop : i.op = .localTee) (hs : s.stack = v :: rest)
      (harg : i.arg = .int n) (hn : n < s.locals.length) :
      Effect c i s { s with locals := s.locals.set n (i.written c.propagateLocals v) }
  | globalGet {v : Var} (hop : i.op = .globalGet) (hv : i.Reads c.propagateGlobals s.globals v) :
      Effect c i s (s.push v)
  | globalSet {v : Var} {rest : List Var} {n : Nat} (hop : i.op = .globalSet) (hs : s.stack = v :: rest)
      (harg : i.arg = .int n) (hn : n < s.globals.length) :
      Effect c i s { s with stack := rest, globals := s.globals.set n (i.written c.propagateGlobals v) }
  | const (hop : i.op = .const) :
      Effect c i s (s.push (if c.useConstants then .constant i.arg else i.fresh))
  | store {value address : Var} {rest : List Var} (hop : i.op = .store) (hs : s.stack = value :: address :: rest) :
      Effect c i s { s with stack := rest, memory := s.memory.insert (address, i.offset) value }

/-! ### The parts of an instruction -/

theorem State.require_eq_ok {s : State} {n : Int} {site : String} {u : Unit} :
    s.require n site = .ok u ↔ n ≤ s.stack.length := by
  unfold State.require
  split
  · rename_i h
    exact ⟨fun h' => absurd h' throw_ne_ok, fun h' => absurd h (by omega)⟩
  · rename_i h
    exact ⟨fun _ => by omega, fun _ => rfl⟩

theorem State.require_bind_eq_ok {α : Type} {s : State} {n : Int} {site : String} {a b : α} :
    (do s.require n site; pure a) = Except.ok b ↔ n ≤ s.stack.length ∧ b = a := by
  simp only [bind_eq_ok, State.require_eq_ok, pure_eq_ok]
  constructor
  · rintro ⟨_, h, rfl⟩
    exact ⟨h, rfl⟩
  · rintro ⟨h, rfl⟩
    exact ⟨(), h, rfl⟩

theorem State.drop_eq_ok {s t : State} {n : Int} {site : String} : s.drop n site = .ok t ↔
    n ≤ s.stack.length ∧ t = { s with stack := Position.dropTo s.stack n } :=
  State.require_bind_eq_ok

theorem State.top_eq_ok {s : State} {vs : List Var} {n : Int} {site : String} : s.top n site = .ok vs ↔
    n ≤ s.stack.length ∧ vs = Position.takeTo s.stack n :=
  State.require_bind_eq_ok

theorem State.pop_eq_ok {s t : State} {v : Var} {site : String} :
    s.pop site = .ok (v, t) ↔ ∃ rest, s.stack = v :: rest ∧ t = { s with stack := rest } := by
  unfold State.pop
  split
  · rename_i w rest hs
    rw [pure_eq_ok, Prod.mk.injEq]
    constructor
    · rintro ⟨rfl, rfl⟩
      exact ⟨rest, hs, rfl⟩
    · rintro ⟨rest', hs', rfl⟩
      obtain ⟨rfl, rfl⟩ := List.cons.inj (hs.symm.trans hs')
      exact ⟨rfl, rfl⟩
  · rename_i hs
    refine ⟨fun h => absurd h throw_ne_ok, ?_⟩
    rintro ⟨rest, hs', _⟩
    rw [hs] at hs'
    cases hs'

theorem State.setAt_eq_ok {vs ws : List Var} {index : Int} {v : Var} : State.setAt vs index v = .ok ws ↔
    ∃ n : Nat, index = n ∧ n < vs.length ∧ ws = vs.set n v := by
  unfold State.setAt
  split
  · rename_i h
    rw [pure_eq_ok]
    constructor
    · rintro rfl
      exact ⟨index.toNat, by omega, by omega, rfl⟩
    · rintro ⟨n, rfl, _, rfl⟩
      simp
  · rename_i h
    refine ⟨fun h' => absurd h' throw_ne_ok, ?_⟩
    rintro ⟨n, rfl, hn, _⟩
    omega

theorem State.valueAt_eq_ok {vs : List Var} {index : Int} {v : Var} :
    State.valueAt vs index = .ok v ↔ Position.get? vs index = some v := by
  unfold State.valueAt
  split
  · rename_i w hw
    rw [pure_eq_ok, hw, Option.some.injEq]
  · rename_i hw
    rw [hw]
    exact ⟨fun h => absurd h throw_ne_ok, fun h => nomatch h⟩

theorem DataInstr.source_eq_ok {i : DataInstr} {n : Int} : i.source = .ok n ↔ i.arg = .int n := by
  unfold DataInstr.source
  cases i.arg <;> simp [Immediate.int?, pure_eq_ok, throw, throwThe, MonadExceptOf.throw]

theorem DataInstr.target_eq_ok {i : DataInstr} {n : Int} : i.target = .ok n ↔ i.arg = .int n := by
  unfold DataInstr.target
  cases i.arg <;> simp [Immediate.int?, pure_eq_ok, throw, throwThe, MonadExceptOf.throw]

theorem DataInstr.compute_eq_ok {i : DataInstr} {n : Nat} {s t : State} : i.compute n s = .ok t ↔
    n ≤ s.stack.length ∧ t = { s with stack := i.fresh :: s.stack.drop n } := by
  unfold DataInstr.compute
  simp only [bind_eq_ok, State.drop_eq_ok, pure_eq_ok, Position.dropTo_ofNat, Int.ofNat_le]
  constructor
  · rintro ⟨_, ⟨hn, rfl⟩, rfl⟩
    exact ⟨hn, rfl⟩
  · rintro ⟨hn, rfl⟩
    exact ⟨_, ⟨hn, rfl⟩, rfl⟩

theorem DataInstr.read_eq_ok {i : DataInstr} {propagate : Bool} {places : List Var} {s t : State} :
    (if propagate then do return s.push (← State.valueAt places (← i.source)) else pure (s.push i.fresh) :
      Except Fault State) = .ok t ↔ ∃ v, i.Reads propagate places v ∧ t = s.push v := by
  unfold DataInstr.Reads
  cases propagate with
  | true =>
    simp only [if_true, bind_eq_ok, DataInstr.source_eq_ok, State.valueAt_eq_ok, pure_eq_ok]
    constructor
    · rintro ⟨n, hn, v, hv, rfl⟩
      exact ⟨v, ⟨n, hn, hv⟩, rfl⟩
    · rintro ⟨v, ⟨n, hn, hv⟩, rfl⟩
      exact ⟨n, hn, v, hv, rfl⟩
  | false =>
    simp only [Bool.false_eq_true, if_false, pure_eq_ok]
    constructor
    · rintro rfl
      exact ⟨_, rfl, rfl⟩
    · rintro ⟨_, rfl, rfl⟩
      rfl

/-- An assignment takes the top of the stack and puts a name for it at a place that exists. -/
theorem DataInstr.assign_eq_ok {i : DataInstr} {s t : State} (w : Var → Var) (places : State → List Var)
    (result : State → List Var → State) :
    (do
      let (v, rest) ← s.pop i.text
      let ws ← State.setAt (places rest) (← i.target) (w v)
      return result rest ws : Except Fault State) = .ok t ↔
      ∃ v stack, ∃ n : Nat, s.stack = v :: stack ∧ i.arg = .int n ∧
        n < (places { s with stack }).length ∧
        t = result { s with stack } ((places { s with stack }).set n (w v)) := by
  constructor
  · intro h
    obtain ⟨⟨v, rest⟩, hpop, h⟩ := bind_eq_ok.mp h
    obtain ⟨n, htarget, h⟩ := bind_eq_ok.mp h
    obtain ⟨ws, hset, h⟩ := bind_eq_ok.mp h
    obtain ⟨stack, hs, rfl⟩ := State.pop_eq_ok.mp hpop
    obtain ⟨k, rfl, hk, rfl⟩ := State.setAt_eq_ok.mp hset
    exact ⟨v, stack, k, hs, target_eq_ok.mp htarget, hk, (pure_eq_ok.mp h).symm⟩
  · rintro ⟨v, stack, n, hs, harg, hn, rfl⟩
    rw [State.pop_eq_ok.mpr ⟨stack, hs, rfl⟩, ok_bind]
    dsimp only
    rw [target_eq_ok.mpr harg, ok_bind, State.setAt_eq_ok.mpr ⟨n, rfl, hn, rfl⟩, ok_bind]
    rfl

theorem DataInstr.storeOperands_eq_ok {i : DataInstr} {s t : State} {value address : Var} :
    i.storeOperands s = .ok (value, address, t) ↔
      ∃ rest, s.stack = value :: address :: rest ∧ t = { s with stack := rest } := by
  unfold DataInstr.storeOperands
  split
  · rename_i v a rest hs
    rw [pure_eq_ok, Prod.mk.injEq, Prod.mk.injEq]
    constructor
    · rintro ⟨rfl, rfl, rfl⟩
      exact ⟨rest, hs, rfl⟩
    · rintro ⟨rest', hs', rfl⟩
      simp only [hs, List.cons.injEq] at hs'
      obtain ⟨rfl, rfl, rfl⟩ := hs'
      exact ⟨rfl, rfl, rfl⟩
  · rename_i hs
    refine ⟨fun h => absurd h throw_ne_ok, ?_⟩
    rintro ⟨rest, hs', _⟩
    exact absurd hs' (hs value address rest)

/-- An instruction succeeds exactly with the results that the rules allow. -/
theorem DataInstr.apply_eq_ok {c : Config} {i : DataInstr} {s t : State} :
    i.apply c s = .ok t ↔ i.Effect c s t := by
  constructor
  · intro h
    have hcompute : ∀ n : Nat, i.op.computes? = some n → i.compute n s = .ok t → i.Effect c s t := by
      intro n hn hc
      obtain ⟨hlen, rfl⟩ := compute_eq_ok.mp hc
      exact .compute hn hlen
    unfold DataInstr.apply at h
    cases hop : i.op <;> rw [hop] at h hcompute <;> dsimp only at h
    case nop =>
      rw [pure_eq_ok] at h
      exact h ▸ .nop hop
    case memorySize => exact hcompute 0 rfl h
    case memoryGrow | unary | test | convert | load => exact hcompute 1 rfl h
    case binary | compare => exact hcompute 2 rfl h
    case select => exact hcompute 3 rfl h
    case drop =>
      obtain ⟨hlen, rfl⟩ := State.drop_eq_ok.mp h
      cases hs : s.stack with
      | nil =>
        rw [hs] at hlen
        simp at hlen
      | cons v rest => exact .drop hop hs
    case localGet =>
      obtain ⟨v, hv, rfl⟩ := read_eq_ok.mp h
      exact .localGet hop hv
    case globalGet =>
      obtain ⟨v, hv, rfl⟩ := read_eq_ok.mp h
      exact .globalGet hop hv
    case localSet =>
      obtain ⟨v, rest, n, hs, harg, hn, rfl⟩ := (assign_eq_ok (i.written c.propagateLocals) (fun rest => rest.locals)
        (fun rest ws => { rest with locals := ws })).mp h
      exact .localSet hop hs harg hn
    case localTee =>
      obtain ⟨v, rest, n, hs, harg, hn, rfl⟩ := (assign_eq_ok (i.written c.propagateLocals) (fun _ => s.locals)
        (fun _ ws => { s with locals := ws })).mp h
      exact .localTee hop hs harg hn
    case globalSet =>
      obtain ⟨v, rest, n, hs, harg, hn, rfl⟩ := (assign_eq_ok (i.written c.propagateGlobals)
        (fun rest => rest.globals) (fun rest ws => { rest with globals := ws })).mp h
      exact .globalSet hop hs harg hn
    case const =>
      rw [pure_eq_ok] at h
      exact h ▸ .const hop
    case store =>
      obtain ⟨⟨value, address, rest⟩, hops, h⟩ := bind_eq_ok.mp h
      obtain ⟨stack, hs, rfl⟩ := storeOperands_eq_ok.mp hops
      rw [pure_eq_ok] at h
      exact h ▸ .store hop hs
  · intro h
    cases h with
    | nop hop => simp [DataInstr.apply, hop, pure_eq_ok]
    | @compute n hop hn =>
      have hc := (compute_eq_ok (i := i) (t := { s with stack := i.fresh :: s.stack.drop n })).mpr ⟨hn, rfl⟩
      unfold DataInstr.apply
      cases hop' : i.op <;> rw [hop'] at hop <;> cases hop <;> exact hc
    | drop hop hs =>
      simp only [DataInstr.apply, hop]
      exact State.drop_eq_ok.mpr ⟨by rw [hs, List.length_cons]; omega, by rw [hs]; rfl⟩
    | localGet hop hv =>
      simp only [DataInstr.apply, hop]
      exact read_eq_ok.mpr ⟨_, hv, rfl⟩
    | globalGet hop hv =>
      simp only [DataInstr.apply, hop]
      exact read_eq_ok.mpr ⟨_, hv, rfl⟩
    | localSet hop hs harg hn =>
      simp only [DataInstr.apply, hop]
      exact (assign_eq_ok (i.written c.propagateLocals) (fun rest => rest.locals)
        (fun rest ws => { rest with locals := ws })).mpr ⟨_, _, _, hs, harg, hn, rfl⟩
    | localTee hop hs harg hn =>
      simp only [DataInstr.apply, hop]
      exact (assign_eq_ok (i.written c.propagateLocals) (fun _ => s.locals)
        (fun _ ws => { s with locals := ws })).mpr ⟨_, _, _, hs, harg, hn, rfl⟩
    | globalSet hop hs harg hn =>
      simp only [DataInstr.apply, hop]
      exact (assign_eq_ok (i.written c.propagateGlobals) (fun rest => rest.globals)
        (fun rest ws => { rest with globals := ws })).mpr ⟨_, _, _, hs, harg, hn, rfl⟩
    | const hop => simp [DataInstr.apply, hop, pure_eq_ok]
    | store hop hs =>
      simp only [DataInstr.apply, hop]
      rw [storeOperands_eq_ok.mpr ⟨_, hs, rfl⟩, ok_bind]
      rfl

theorem DataInstr.transfer_known {c : Config} {i : DataInstr} {s : State} {f : Flow} :
    i.transfer c (.known s) = .ok f ↔ ∃ t, i.Effect c s t ∧ f = .known t := by
  unfold DataInstr.transfer
  split
  · rename_i hop
    rw [pure_eq_ok]
    constructor
    · rintro rfl
      exact ⟨s, .nop hop, rfl⟩
    · rintro ⟨t, ht, rfl⟩
      have h := apply_eq_ok.mpr ht
      simp only [DataInstr.apply, hop, pure_eq_ok] at h
      rw [h]
  · rw [bind_eq_ok]
    simp only [pure_eq_ok, apply_eq_ok, Flow.state]
    exact exists_congr fun t => and_congr_right fun _ => eq_comm

/-! ## Control instructions -/

namespace ControlInstr

/-- How many values a call takes from the stack. -/
def takes (i : ControlInstr) : Int := if i.op = .callIndirect then i.arity.inputs + 1 else i.arity.inputs

/-- The named results of a call. -/
def results (i : ControlInstr) : List Var := if i.arity.outputs = 1 then [i.fresh] else []

inductive Effect (sig : Signature) (i : ControlInstr) (s : State) : State → Prop
  | call (hop : i.op.isCall = true) (hn : i.takes ≤ s.stack.length) :
      Effect sig i s { s with stack := i.results ++ Position.dropTo s.stack i.takes }
  | br (hop : i.op = .br) : Effect sig i s s
  | branch {v : Var} {rest : List Var} (hop : i.op.isBranching = true) (hs : s.stack = v :: rest) :
      Effect sig i s { s with stack := rest }
  | ret {v : Var} {rest : List Var} (hop : i.op = .ret) (hr : sig.results.length = 1) (hs : s.stack = v :: rest) :
      Effect sig i s { s with stack := [v] }
  | leave (hop : i.op = .unreachable ∨ i.op = .ret ∧ sig.results.length ≠ 1) : Effect sig i s { s with stack := [] }

/-- What follows an instruction that ends in a state: both ways out of a conditional branch start there. -/
def outcome (i : ControlInstr) (t : State) : Outcome :=
  if i.op = .cond ∨ i.op = .brIf then .branch (.known t) (.known t) else .simple (.known t)

theorem main_outcome (i : ControlInstr) (t : State) : (i.outcome t).main = .known t := by
  unfold outcome
  split <;> rfl

theorem along_outcome (i : ControlInstr) (t : State) (cond : Option Bool) :
    (i.outcome t).along cond = .known t := by
  unfold outcome
  split
  · rcases cond with _ | _ | _ <;> rfl
  · rfl

theorem applyCall_eq_ok {i : ControlInstr} {n : Int} {s t : State} : i.applyCall n s = .ok t ↔
    n ≤ s.stack.length ∧ t = { s with stack := i.results ++ Position.dropTo s.stack n } := by
  unfold applyCall results
  simp only [bind_eq_ok, State.drop_eq_ok, pure_eq_ok]
  constructor
  · rintro ⟨_, ⟨hn, rfl⟩, rfl⟩
    refine ⟨hn, ?_⟩
    split <;> rfl
  · rintro ⟨hn, rfl⟩
    refine ⟨_, ⟨hn, rfl⟩, ?_⟩
    split <;> rfl

theorem one_le_length_iff {vs : List Var} : (1 : Int) ≤ vs.length ↔ ∃ v rest, vs = v :: rest := by
  cases vs with
  | nil => simp
  | cons v rest =>
    have hlength : (1 : Int) ≤ (v :: rest).length := by
      rw [List.length_cons]
      omega
    exact iff_of_true hlength ⟨v, rest, rfl⟩

theorem drop_one_eq_ok {s t : State} {site : String} :
    s.drop 1 site = .ok t ↔ ∃ v rest, s.stack = v :: rest ∧ t = { s with stack := rest } := by
  rw [State.drop_eq_ok, one_le_length_iff]
  constructor
  · rintro ⟨⟨v, rest, hs⟩, rfl⟩
    exact ⟨v, rest, hs, by rw [hs]; rfl⟩
  · rintro ⟨v, rest, hs, rfl⟩
    exact ⟨⟨v, rest, hs⟩, by rw [hs]; rfl⟩

theorem top_one_eq_ok {s : State} {vs : List Var} {site : String} :
    s.top 1 site = .ok vs ↔ ∃ v rest, s.stack = v :: rest ∧ vs = [v] := by
  rw [State.top_eq_ok, one_le_length_iff]
  constructor
  · rintro ⟨⟨v, rest, hs⟩, rfl⟩
    exact ⟨v, rest, hs, by rw [hs]; rfl⟩
  · rintro ⟨v, rest, hs, rfl⟩
    exact ⟨⟨v, rest, hs⟩, by rw [hs]; rfl⟩

theorem outcome_of_not_conditional {i : ControlInstr} (h : i.op ≠ .cond ∧ i.op ≠ .brIf) (t : State) :
    i.outcome t = .simple (.known t) := by
  unfold outcome
  rw [if_neg (not_or.mpr h)]

theorem transfer_known {sig : Signature} {i : ControlInstr} {s : State} {o : Outcome} :
    i.transfer sig (.known s) = .ok o ↔ ∃ t, i.Effect sig s t ∧ o = i.outcome t := by
  constructor
  · intro h
    unfold transfer at h
    cases hop : i.op <;> rw [hop] at h <;> dsimp only [Flow.state] at h
    case block | loop => exact absurd h throw_ne_ok
    case call | callIndirect =>
      obtain ⟨t, ht, h⟩ := bind_eq_ok.mp h
      obtain ⟨hn, rfl⟩ := applyCall_eq_ok.mp ht
      have htakes : i.takes ≤ s.stack.length := by simpa [takes, hop] using hn
      refine ⟨_, .call (by rw [hop]; rfl) htakes, ?_⟩
      rw [outcome_of_not_conditional (by simp [hop]), ← pure_eq_ok.mp h]
      simp [takes, hop]
    case br =>
      refine ⟨s, .br hop, ?_⟩
      rw [outcome_of_not_conditional (by simp [hop]), ← pure_eq_ok.mp h]
    case brIf | cond =>
      obtain ⟨t, ht, h⟩ := bind_eq_ok.mp h
      obtain ⟨v, rest, hs, rfl⟩ := drop_one_eq_ok.mp ht
      refine ⟨_, .branch (by rw [hop]; rfl) hs, ?_⟩
      rw [← pure_eq_ok.mp h]
      simp [outcome, hop]
    case brTable =>
      obtain ⟨t, ht, h⟩ := bind_eq_ok.mp h
      obtain ⟨v, rest, hs, rfl⟩ := drop_one_eq_ok.mp ht
      refine ⟨_, .branch (by rw [hop]; rfl) hs, ?_⟩
      rw [outcome_of_not_conditional (by simp [hop]), ← pure_eq_ok.mp h]
    case ret =>
      split at h
      · rename_i hr
        obtain ⟨vs, hvs, h⟩ := bind_eq_ok.mp h
        obtain ⟨v, rest, hs, rfl⟩ := top_one_eq_ok.mp hvs
        refine ⟨_, .ret hop hr hs, ?_⟩
        rw [outcome_of_not_conditional (by simp [hop]), ← pure_eq_ok.mp h]
      · rename_i hr
        refine ⟨_, .leave (Or.inr ⟨hop, hr⟩), ?_⟩
        rw [outcome_of_not_conditional (by simp [hop]), ← pure_eq_ok.mp h]
    case unreachable =>
      refine ⟨_, .leave (Or.inl hop), ?_⟩
      rw [outcome_of_not_conditional (by simp [hop]), ← pure_eq_ok.mp h]
  · rintro ⟨t, ht, rfl⟩
    unfold transfer
    cases ht with
    | call hop hn =>
      cases hop' : i.op <;> rw [hop'] at hop <;> cases hop <;> dsimp only [Flow.state]
      all_goals
        rw [outcome_of_not_conditional (by simp [hop'])]
        simp only [takes, hop'] at hn ⊢
        exact bind_eq_ok.mpr ⟨_, applyCall_eq_ok.mpr ⟨by simpa using hn, rfl⟩, by simp [pure_eq_ok]⟩
    | br hop =>
      rw [outcome_of_not_conditional (by simp [hop]), hop]
      rfl
    | branch hop hs =>
      cases hop' : i.op <;> rw [hop'] at hop <;> cases hop <;> dsimp only [Flow.state]
      all_goals
        rw [drop_one_eq_ok.mpr ⟨_, _, hs, rfl⟩, ok_bind]
        simp [outcome, hop', pure_eq_ok]
    | ret hop hr hs =>
      rw [outcome_of_not_conditional (by simp [hop]), hop]
      dsimp only [Flow.state]
      rw [if_pos hr, top_one_eq_ok.mpr ⟨_, _, hs, rfl⟩]
      rfl
    | leave hop =>
      rcases hop with hop | ⟨hop, hr⟩
      · rw [outcome_of_not_conditional (by simp [hop]), hop]
        rfl
      · rw [outcome_of_not_conditional (by simp [hop]), hop]
        dsimp only [Flow.state]
        rw [if_neg hr]
        rfl

end ControlInstr

/-! ## The names behind an instruction -/

/-- The names that an instruction may make. -/
def DataInstr.Makes (i : DataInstr) (v : Var) : Prop := v = i.fresh ∨ (i.op = .const ∧ v = .constant i.arg)

theorem DataInstr.Reads.mem {i : DataInstr} {propagate : Bool} {places : List Var} {v : Var}
    (h : i.Reads propagate places v) : v ∈ places ∨ v = i.fresh := by
  unfold DataInstr.Reads at h
  split at h
  · obtain ⟨n, _, hv⟩ := h
    exact Or.inl (Position.mem_of_get? hv)
  · exact Or.inr h

theorem DataInstr.written_cases (i : DataInstr) (propagate : Bool) (v : Var) :
    i.written propagate v = v ∨ i.written propagate v = i.fresh := by
  unfold DataInstr.written
  split
  · exact Or.inl rfl
  · exact Or.inr rfl

/-- Nothing comes into a state but what an instruction makes. -/
theorem DataInstr.Effect.mem_vars {c : Config} {i : DataInstr} {s t : State} (h : i.Effect c s t) {w : Var}
    (hw : w ∈ t.vars) : w ∈ s.vars ∨ i.Makes w := by
  -- One name is put somewhere, and it was there before or is made.
  have hput : ∀ {x : Var}, x ∈ s.vars ∨ i.Makes x → w ∈ s.vars ∨ w = x → w ∈ s.vars ∨ i.Makes w := by
    rintro x hx (hs | rfl)
    · exact Or.inl hs
    · exact hx
  have hwritten : ∀ {p : Bool} {v : Var} {rest : List Var}, s.stack = v :: rest →
      i.written p v ∈ s.vars ∨ i.Makes (i.written p v) := by
    intro p v rest hs
    rcases i.written_cases p v with heq | heq <;> rw [heq]
    · exact Or.inl (State.mem_vars.mpr (Or.inl (by rw [hs]; exact List.mem_cons_self ..)))
    · exact Or.inr (Or.inl rfl)
  have htail : ∀ {v : Var} {rest : List Var} {x : Var}, s.stack = v :: rest → ∀ y ∈ rest, y ∈ s.stack ∨ y = x := by
    intro v rest x hs y hy
    exact Or.inl (by rw [hs]; exact List.mem_cons_of_mem _ hy)
  cases h with
  | nop => exact Or.inl hw
  | compute =>
    refine hput (Or.inr (Or.inl rfl)) (State.mem_vars_of_parts hw (fun y hy => ?_) (fun y hy => Or.inl hy)
      (fun y hy => Or.inl hy) rfl)
    exact (List.mem_cons.mp hy).symm.imp_left List.mem_of_mem_drop
  | drop _ hs =>
    exact hput (Or.inr (Or.inl rfl)) (State.mem_vars_of_parts hw (htail hs) (fun y hy => Or.inl hy)
      (fun y hy => Or.inl hy) rfl)
  | localGet _ hv =>
    exact hput (hv.mem.imp (fun hv => State.mem_vars.mpr (Or.inr (Or.inl hv))) Or.inl)
      (State.mem_vars_of_parts hw (fun y hy => (List.mem_cons.mp hy).symm) (fun y hy => Or.inl hy)
        (fun y hy => Or.inl hy) rfl)
  | globalGet _ hv =>
    exact hput (hv.mem.imp (fun hv => State.mem_vars.mpr (Or.inr (Or.inr (Or.inl hv)))) Or.inl)
      (State.mem_vars_of_parts hw (fun y hy => (List.mem_cons.mp hy).symm) (fun y hy => Or.inl hy)
        (fun y hy => Or.inl hy) rfl)
  | const hop =>
    refine hput (Or.inr ?_) (State.mem_vars_of_parts hw (fun y hy => (List.mem_cons.mp hy).symm)
      (fun y hy => Or.inl hy) (fun y hy => Or.inl hy) rfl)
    split
    · exact Or.inr ⟨hop, rfl⟩
    · exact Or.inl rfl
  | localSet _ hs =>
    exact hput (hwritten hs) (State.mem_vars_of_parts hw (htail hs) (fun y hy => List.mem_or_eq_of_mem_set hy)
      (fun y hy => Or.inl hy) rfl)
  | localTee _ hs =>
    exact hput (hwritten hs) (State.mem_vars_of_parts hw (fun y hy => Or.inl hy)
      (fun y hy => List.mem_or_eq_of_mem_set hy) (fun y hy => Or.inl hy) rfl)
  | globalSet _ hs =>
    exact hput (hwritten hs) (State.mem_vars_of_parts hw (htail hs) (fun y hy => Or.inl hy)
      (fun y hy => List.mem_or_eq_of_mem_set hy) rfl)
  | store _ hs => exact Or.inl (State.mem_vars_of_store hs hw)

theorem ControlInstr.Effect.mem_vars {sig : Signature} {i : ControlInstr} {s t : State} (h : i.Effect sig s t)
    {w : Var} (hw : w ∈ t.vars) : w ∈ s.vars ∨ w = i.fresh := by
  rw [State.mem_vars] at hw ⊢
  cases h with
  | call _ _ =>
    rcases hw with hw | hw
    · rcases List.mem_append.mp hw with hw | hw
      · unfold ControlInstr.results at hw
        split at hw
        · exact Or.inr (List.mem_singleton.mp hw)
        · cases hw
      · exact Or.inl (Or.inl (List.mem_of_mem_drop hw))
    · exact Or.inl (Or.inr hw)
  | br => exact Or.inl hw
  | branch _ hs =>
    rw [hs]
    exact Or.inl (hw.imp_left (List.mem_cons_of_mem _))
  | ret _ _ hs =>
    refine Or.inl (hw.imp_left fun hw => ?_)
    rw [hs, List.mem_singleton.mp hw]
    exact List.mem_cons_self ..
  | leave => exact Or.inl (hw.imp_left fun hw => by cases hw)

/-! ## Annotations do not matter -/

theorem DataInstr.Effect.withNote {c : Config} {i : DataInstr} {s t : State} (h : i.Effect c s t)
    (note : Option Note) : { i with note := note }.Effect c s t := by
  have happly : i.apply c s = .ok t := DataInstr.apply_eq_ok.mpr h
  exact DataInstr.apply_eq_ok.mp happly

theorem ControlInstr.Effect.withNote {sig : Signature} {i : ControlInstr} {s t : State} (h : i.Effect sig s t)
    (note : Option Note) : { i with note := note }.Effect sig s t := by
  cases h with
  | call hop hn => exact .call hop hn
  | br hop => exact .br hop
  | branch hop hs => exact .branch hop hs
  | ret hop hr hs => exact .ret hop hr hs
  | leave hop => exact .leave hop

/-! ## Locals and globals stay -/

theorem DataInstr.Effect.lengths {c : Config} {i : DataInstr} {s t : State} (h : i.Effect c s t) :
    t.locals.length = s.locals.length ∧ t.globals.length = s.globals.length := by
  cases h <;> simp [State.push]

theorem ControlInstr.Effect.lengths {sig : Signature} {i : ControlInstr} {s t : State} (h : i.Effect sig s t) :
    t.locals.length = s.locals.length ∧ t.globals.length = s.globals.length := by
  cases h <;> simp

end Backslice
