import Backslice.Proofs.UseDef.Instruction

/-! # Uses and definitions against effects

How many operands an operation takes is said twice, by its effect and by the table of its uses, and a third table says
whether it pushes. The three agree: what an instruction uses is what it takes off the stack, what it writes is what it
pushes, and what it defines is all that is new behind it. -/

namespace Backslice

set_option autoImplicit false

/-! ## The stack -/

namespace DataInstr

variable {c : Config} {i : DataInstr} {s t : State}

/-- An instruction replaces as many values as it is said to take by as many as it is said to push. -/
theorem Effect.stack (h : i.Effect c s t) : ∃ popped pushed rest, s.stack = popped ++ rest ∧ t.stack = pushed ++ rest ∧
    popped.length = (if i.op.consumes then i.op.operandCount else 0) ∧
    pushed.length = (if i.op.pushes then 1 else 0) := by
  -- A rule for one operation meets its rows by evaluation; the rule for computing operations meets nine at once.
  cases h with
  | nop hop => exact ⟨[], [], s.stack, rfl, rfl, by rw [hop]; rfl, by rw [hop]; rfl⟩
  | @compute n hop hn =>
    obtain ⟨hcount, hconsumes, hpushes⟩ := DataOp.tables_of_computes hop
    refine ⟨s.stack.take n, [i.fresh], s.stack.drop n, (List.take_append_drop n s.stack).symm, rfl, ?_, ?_⟩
    · rw [if_pos hconsumes, hcount, List.length_take, Nat.min_eq_left hn]
    · rw [if_pos hpushes, List.length_singleton]
  | @drop v rest hop hs => exact ⟨[v], [], rest, hs, rfl, by rw [hop]; rfl, by rw [hop]; rfl⟩
  | @localGet v hop _ => exact ⟨[], [v], s.stack, rfl, rfl, by rw [hop]; rfl, by rw [hop]; rfl⟩
  | @localSet v rest n hop hs _ _ => exact ⟨[v], [], rest, hs, rfl, by rw [hop]; rfl, by rw [hop]; rfl⟩
  | localTee hop _ _ _ => exact ⟨[], [], s.stack, rfl, rfl, by rw [hop]; rfl, by rw [hop]; rfl⟩
  | @globalGet v hop _ => exact ⟨[], [v], s.stack, rfl, rfl, by rw [hop]; rfl, by rw [hop]; rfl⟩
  | @globalSet v rest n hop hs _ _ => exact ⟨[v], [], rest, hs, rfl, by rw [hop]; rfl, by rw [hop]; rfl⟩
  | const hop => exact ⟨[], [_], s.stack, rfl, rfl, by rw [hop]; rfl, by rw [hop]; rfl⟩
  | @store value address rest hop hs =>
    exact ⟨[value, address], [], rest, hs, rfl, by rw [hop]; rfl, by rw [hop]; rfl⟩

/-- The names taken off the stack are those used, and the names put on it are those written. -/
theorem Effect.balance (h : i.Effect c s t) {used written : List Var} (huses : i.uses s = .ok used)
    (hexposed : i.exposed s t = .ok written) :
    ∃ rest, s.stack = (if i.op.consumes then used else []) ++ rest ∧
      t.stack = (if i.op.pushes then written else []) ++ rest := by
  obtain ⟨popped, pushed, rest, hs, ht, hpopped, hpushed⟩ := h.stack
  refine ⟨rest, ?_, ?_⟩
  · by_cases hop : i.op.consumes = true
    · -- What is used is counted off the top by one table, what is popped has that length by the other.
      have htop : i.uses s = .ok (s.stack.take i.op.operandCount) :=
        uses_of_not_read (fun hget => by simp [hget, DataOp.consumes] at hop)
          (fun hget => by simp [hget, DataOp.consumes] at hop) s
      rw [if_pos hop] at hpopped ⊢
      rw [htop, ← hpopped, hs, List.take_left, Except.ok.injEq] at huses
      rw [hs, huses]
    · rw [if_neg hop] at hpopped ⊢
      rw [hs, List.eq_nil_of_length_eq_zero hpopped]
  · by_cases hop : i.op.pushes = true
    · have htop : i.exposed s t = .ok (t.stack.take 1) := by
        simp only [exposed, hop, if_true]
        rfl
      rw [if_pos hop] at hpushed ⊢
      rw [htop, ← hpushed, ht, List.take_left, Except.ok.injEq] at hexposed
      rw [ht, hexposed]
    · rw [if_neg hop] at hpushed ⊢
      rw [ht, List.eq_nil_of_length_eq_zero hpushed]

/-! ## Points that are not known -/

theorem effect_of_transfer {f f' : Flow} (h : i.transfer c f = .ok f') : i.Effect c f.state f'.state := by
  unfold transfer at h
  split at h
  · rename_i hop
    obtain rfl := pure_eq_ok.mp h
    exact .nop hop
  · obtain ⟨t, ht, h⟩ := bind_eq_ok.mp h
    obtain rfl := pure_eq_ok.mp h
    exact apply_eq_ok.mp ht

end DataInstr

/-- An instruction that works on a point that is not known works on the empty state; a jump hands the point on. -/
theorem ControlInstr.effect_of_transfer {sig : Signature} {i : ControlInstr} {f : Flow} {o : Outcome}
    (h : i.transfer sig f = .ok o) (cond : Option Bool) : i.Effect sig f.state (o.along cond).state := by
  have hknown : ∀ {s : State}, i.transfer sig (.known s) = .ok o → i.Effect sig s (o.along cond).state := by
    intro s hs
    obtain ⟨t, ht, rfl⟩ := transfer_known.mp hs
    rw [along_outcome]
    exact ht
  cases f with
  | known s => exact hknown h
  | bottom =>
    by_cases hop : i.op = .br
    · simp only [transfer, hop] at h
      obtain rfl := pure_eq_ok.mp h
      exact .br hop
    · have heq : i.transfer sig .bottom = i.transfer sig (.known {}) := by
        unfold transfer
        cases hop' : i.op
        case br => exact absurd hop' hop
        all_goals rfl
      exact hknown (heq ▸ h)

/-! ## Annotated instructions -/

namespace Instr

def withNote (note : Note) : Instr → Instr
  | .data i => .data { i with note := some note }
  | .control i => .control { i with note := some note }

/-- What the instruction can hand on from a point: a conditional branch has two ways out. -/
inductive HandsOn (sig : Signature) (c : Config) : Instr → Flow → Flow → Prop
  | data {i : DataInstr} {f f' : Flow} (h : i.transfer c f = .ok f') : HandsOn sig c (.data i) f f'
  | control {i : ControlInstr} {f : Flow} {o : Outcome} (h : i.transfer sig f = .ok o) (cond : Option Bool) :
      HandsOn sig c (.control i) f (o.along cond)

variable {sig : Signature} {c : Config} {i : Instr} {f f' : Flow}

theorem requireNote_withNote (i : Instr) (note : Note) : (i.withNote note).requireNote = .ok note := by
  cases i <;> rfl

theorem Finds.withNote {s : State} (h : i.Finds s) (note : Note) : (i.withNote note).Finds s := by
  cases i <;> exact h

theorem HandsOn.effect (h : i.HandsOn sig c f f') (note : Note) :
    (i.withNote note).Effect sig c f.state f'.state := by
  cases h with
  | data h => exact (DataInstr.effect_of_transfer h).withNote (some note)
  | control h cond => exact (ControlInstr.effect_of_transfer h cond).withNote (some note)

theorem exposed_ok (hnote : i.requireNote = .ok ⟨f, f'⟩) (he : i.Effect sig c f.state f'.state) :
    ∃ ws, i.exposed = .ok ws := by
  cases i with
  | data d =>
    obtain ⟨ws, hws, -⟩ := DataInstr.Effect.writes he
    exact ⟨ws, (exposed_data hnote).trans hws⟩
  | control k => exact ⟨_, exposed_control hnote⟩

/-- The tables account for what an instruction does. They can be read off the states around every instruction that
succeeds: what it uses is named in front of it, what it defines is named behind it, and all other names behind it were
there before. An instruction that runs straight on leaves the `rest` of the stack alone. On top of it stood what the
instruction uses, unless it takes nothing off the stack, and then stands what it writes, if it pushes. -/
theorem transfer_balanced (h : i.HandsOn sig c f f') (hfinds : i.Finds f.state) :
    ∃ used written defined, (i.withNote ⟨f, f'⟩).uses = .ok used ∧ (i.withNote ⟨f, f'⟩).exposed = .ok written ∧
      (i.withNote ⟨f, f'⟩).defs = .ok defined ∧ used ⊆ f.state.vars ∧ defined ⊆ f'.state.vars ∧
      f'.state.vars ⊆ f.state.vars ++ defined ∧
      ∀ d, i = .data d → ∃ rest, f.state.stack = (if d.op.consumes then used else []) ++ rest ∧
        f'.state.stack = (if d.op.pushes then written else []) ++ rest := by
  have hnote := requireNote_withNote i ⟨f, f'⟩
  have heffect := h.effect ⟨f, f'⟩
  obtain ⟨used, huses, hused⟩ := uses_ok hnote (hfinds.withNote ⟨f, f'⟩)
  obtain ⟨written, hexposed⟩ := exposed_ok hnote heffect
  obtain ⟨defined, hdefs, -, hdefined, hall⟩ := defs_ok hnote heffect
  have hnames : f'.state.vars ⊆ f.state.vars ++ defined := fun y hy => List.mem_append.mpr (hall y hy)
  refine ⟨used, written, defined, huses, hexposed, hdefs, hused, hdefined, hnames, ?_⟩
  rintro d rfl
  exact DataInstr.Effect.balance heffect ((uses_data hnote).symm.trans huses) ((exposed_data hnote).symm.trans hexposed)

end Instr

/-- Adds the two values on top of the stack. -/
def Instr.sum : Instr := .data { label := .code 7, op := .binary }

/-- Two operands above a constant. The second has come from a local. -/
def State.twoOperands : State where
  stack := [.pushed (.code 5), .entryLocal 0, .constant (.literal (.i32 5))]
  locals := [.entryLocal 0]

def State.afterSum : State :=
  { State.twoOperands with stack := [.pushed (.code 7), .constant (.literal (.i32 5))] }

/-- The two operands are used and the sum is written, above the constant. -/
theorem Instr.transfer_balanced_sum :
    sum.Finds State.twoOperands ∧ sum.HandsOn {} {} (.known State.twoOperands) (.known State.afterSum) ∧
    ∃ used written defined,
      used = [.pushed (.code 5), .entryLocal 0] ∧ written = [.pushed (.code 7)] ∧ defined = [.pushed (.code 7)] ∧
      used ⊆ State.twoOperands.vars ∧ defined ⊆ State.afterSum.vars ∧
      State.afterSum.vars ⊆ State.twoOperands.vars ++ defined ∧
      ∃ rest, State.twoOperands.stack = used ++ rest ∧ State.afterSum.stack = written ++ rest := by
  have hfinds : sum.Finds State.twoOperands := ⟨fun hop => (by cases hop), fun hop => (by cases hop)⟩
  have hhands : sum.HandsOn {} {} (.known State.twoOperands) (.known State.afterSum) := .data rfl
  obtain ⟨used, written, defined, huses, hexposed, hdefs, hused, hdefined, hall, hstack⟩ :=
    transfer_balanced hhands hfinds
  obtain ⟨rest, hbefore, hafter⟩ := hstack _ rfl
  exact ⟨hfinds, hhands, used, written, defined, (Except.ok.inj huses).symm, (Except.ok.inj hexposed).symm,
    (Except.ok.inj hdefs).symm, hused, hdefined, hall, rest, hbefore, hafter⟩

end Backslice
