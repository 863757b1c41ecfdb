import Backslice.Proofs.Annotated
import Backslice.UseDef.Instruction

/-! # Names used and defined by one instruction

What an instruction uses stands in front of it. What it defines is at most one name, its own or its constant,
and every name behind it was there before or is the one that it defines. -/

namespace Backslice

set_option autoImplicit false

/-! ## The tables -/

namespace DataOp

/-- Whether an operation takes what it uses off the stack. A read finds it in a local or global, and `local.tee` leaves
it where it is. -/
def consumes : DataOp → Bool
  | localGet | globalGet | localTee => false
  | _ => true

/-- An operation that computes uses its operands and pushes the result. -/
theorem tables_of_computes {op : DataOp} {n : Nat} (h : op.computes? = some n) :
    op.operandCount = n ∧ op.consumes = true ∧ op.pushes = true := by
  cases op <;> cases h <;> exact ⟨rfl, rfl, rfl⟩

end DataOp

/-! ## Data instructions -/

namespace DataInstr

variable {c : Config} {i : DataInstr} {s t : State}

/-- The index of the instruction has a place among these, counted from either end. -/
def Names (i : DataInstr) (places : List Var) : Prop :=
  ∃ n : Int, i.arg = .int n ∧ -(places.length : Int) ≤ n ∧ n < places.length

/-- The local or global that the instruction reads exists. An assignment looks for its place itself. -/
def Finds (i : DataInstr) (s : State) : Prop :=
  (i.op = .localGet → i.Names s.locals) ∧ (i.op = .globalGet → i.Names s.globals)

theorem InRange.finds (h : i.InRange s.locals.length s.globals.length) : i.Finds s := by
  have hnames : ∀ {places : List Var}, (∃ n : Nat, i.arg = .int n ∧ n < places.length) → i.Names places := by
    rintro places ⟨n, harg, hn⟩
    exact ⟨n, harg, by omega, by omega⟩
  exact ⟨fun hop => hnames (h.1 (Or.inl hop)), fun hop => hnames (h.2 (Or.inl hop))⟩

theorem Names.read {places : List Var} (h : i.Names places) : ∃ (n : Int) (v : Var), i.arg = .int n ∧
    Position.get? places n = some v ∧
    (do return [← State.valueAt places (← i.source)] : Except Fault _) = .ok [v] := by
  obtain ⟨n, harg, hlow, hhigh⟩ := h
  obtain ⟨v, hv⟩ := Position.exists_get? hlow hhigh
  refine ⟨n, v, harg, hv, ?_⟩
  rw [source_eq_ok.mpr harg, ok_bind, State.valueAt_eq_ok.mpr hv]
  rfl

theorem uses_of_not_read (hlocal : i.op ≠ .localGet) (hglobal : i.op ≠ .globalGet) (s : State) :
    i.uses s = .ok (s.stack.take i.op.operandCount) := by
  unfold uses
  cases hop : i.op
  case localGet => exact absurd hop hlocal
  case globalGet => exact absurd hop hglobal
  all_goals rfl

theorem uses_ok (h : i.Finds s) : ∃ vs, i.uses s = .ok vs ∧ ∀ v ∈ vs, v ∈ s.vars := by
  by_cases hlocal : i.op = .localGet
  · obtain ⟨n, v, -, hget, hread⟩ := (h.1 hlocal).read
    refine ⟨[v], by simpa only [uses, hlocal] using hread, ?_⟩
    simpa using State.mem_vars.mpr (Or.inr (Or.inl (Position.mem_of_get? hget)))
  by_cases hglobal : i.op = .globalGet
  · obtain ⟨n, v, -, hget, hread⟩ := (h.2 hglobal).read
    refine ⟨[v], by simpa only [uses, hglobal] using hread, ?_⟩
    simpa using State.mem_vars.mpr (Or.inr (Or.inr (Or.inl (Position.mem_of_get? hget))))
  exact ⟨_, uses_of_not_read hlocal hglobal s, fun v hv => State.mem_vars.mpr (Or.inl (List.mem_of_mem_take hv))⟩

/-- The names that an instruction writes: at most one, and it accounts for all that is new. -/
def Writes (i : DataInstr) (s t : State) (ws : List Var) : Prop :=
  i.exposed s t = .ok ws ∧ ws.length ≤ 1 ∧ (∀ x ∈ ws, x ∈ t.vars) ∧ ∀ y ∈ t.vars, y ∈ s.vars ∨ y ∈ ws

theorem writes_push {x : Var} {rest : List Var} (hop : i.op.pushes = true) (hrest : ∀ y ∈ rest, y ∈ s.stack) :
    i.Writes s { s with stack := x :: rest } [x] := by
  refine ⟨?_, by simp, fun y hy => ?_, fun y hy => ?_⟩
  · simp only [exposed, hop, if_true]
    rfl
  · rw [List.mem_singleton.mp hy]
    exact State.mem_vars.mpr (Or.inl (by simp))
  · rw [List.mem_singleton]
    refine State.mem_vars_of_parts hy (fun v hv => ?_) (fun v hv => Or.inl hv) (fun v hv => Or.inl hv) rfl
    exact (List.mem_cons.mp hv).symm.imp_left (hrest v)

theorem valueAt_set {places : List Var} {n : Nat} {x : Var} (harg : i.arg = .int n) (hn : n < places.length) :
    (do return [← State.valueAt (places.set n x) (← i.source)] : Except Fault _) = .ok [x] := by
  have hvalue : State.valueAt (places.set n x) n = .ok x := by
    rw [State.valueAt_eq_ok, Position.get?_ofNat, List.getElem?_set_self hn]
  rw [source_eq_ok.mpr harg, ok_bind, hvalue]
  rfl

theorem Effect.of_const (h : i.Effect c s t) (hop : i.op = .const) :
    ∃ x, t = s.push x ∧ (x = i.fresh ∨ x = .constant i.arg) := by
  cases h with
  | const =>
    refine ⟨_, rfl, ?_⟩
    split
    · exact Or.inr rfl
    · exact Or.inl rfl
  | nop hop' | compute hop' | drop hop' | localGet hop' | localSet hop' | localTee hop' | globalGet hop'
  | globalSet hop' | store hop' =>
    rw [hop] at hop'
    cases hop'

/-- An assignment puts one name at one place, and leaves the others as they were. -/
theorem writes_assign {x : Var} (hexposed : i.exposed s t = .ok [x]) (hx : x ∈ t.locals ∨ x ∈ t.globals)
    (hstack : ∀ y ∈ t.stack, y ∈ s.stack) (hlocals : ∀ y ∈ t.locals, y ∈ s.locals ∨ y = x)
    (hglobals : ∀ y ∈ t.globals, y ∈ s.globals ∨ y = x) (hmemory : t.memory = s.memory) : i.Writes s t [x] := by
  refine ⟨hexposed, by simp, fun y hy => ?_, fun y hy => ?_⟩
  · rw [List.mem_singleton.mp hy, State.mem_vars]
    exact Or.inr (hx.imp_right Or.inl)
  · rw [List.mem_singleton]
    exact State.mem_vars_of_parts hy (fun v hv => Or.inl (hstack v hv)) hlocals hglobals hmemory

/-- An instruction writes at most one name, and finds it again behind it. -/
theorem Effect.writes (h : i.Effect c s t) : ∃ ws, i.Writes s t ws := by
  cases h with
  | nop hop =>
    refine ⟨[], ?_, by simp, by simp, fun y hy => Or.inl hy⟩
    simp only [exposed, hop, DataOp.pushes]
    rfl
  | @compute n hop hn =>
    obtain ⟨-, -, hpushes⟩ := DataOp.tables_of_computes hop
    exact ⟨_, writes_push hpushes fun y hy => List.mem_of_mem_drop hy⟩
  | drop hop hs =>
    refine ⟨[], ?_, by simp, by simp, fun y hy => Or.inl ?_⟩
    · simp only [exposed, hop, DataOp.pushes]
      rfl
    · rw [State.mem_vars] at hy ⊢
      exact hy.imp_left fun hy => hs ▸ List.mem_cons_of_mem _ hy
  | localGet hop _ => exact ⟨_, writes_push (by rw [hop]; rfl) fun y hy => hy⟩
  | globalGet hop _ => exact ⟨_, writes_push (by rw [hop]; rfl) fun y hy => hy⟩
  | const hop => exact ⟨_, writes_push (by rw [hop]; rfl) fun y hy => hy⟩
  | @localSet v rest n hop hs harg hn =>
    refine ⟨_, writes_assign ?_ (Or.inl (List.mem_set hn _)) (fun y hy => hs ▸ List.mem_cons_of_mem v hy)
      (fun y hy => List.mem_or_eq_of_mem_set hy) (fun y hy => Or.inl hy) rfl⟩
    simp only [exposed, hop, DataOp.pushes]
    exact valueAt_set harg hn
  | @localTee v rest n hop hs harg hn =>
    refine ⟨_, writes_assign ?_ (Or.inl (List.mem_set hn _)) (fun y hy => hy)
      (fun y hy => List.mem_or_eq_of_mem_set hy) (fun y hy => Or.inl hy) rfl⟩
    simp only [exposed, hop, DataOp.pushes]
    exact valueAt_set harg hn
  | @globalSet v rest n hop hs harg hn =>
    refine ⟨_, writes_assign ?_ (Or.inr (List.mem_set hn _)) (fun y hy => hs ▸ List.mem_cons_of_mem v hy)
      (fun y hy => Or.inl hy) (fun y hy => List.mem_or_eq_of_mem_set hy) rfl⟩
    simp only [exposed, hop, DataOp.pushes]
    exact valueAt_set harg hn
  | @store value address rest hop hs =>
    have hfound : (s.memory.insert (address, i.offset) value).find? (address, i.offset) = some value := by simp
    refine ⟨[value], ?_, by simp, fun x hx => ?_, fun y hy => Or.inl (State.mem_vars_of_store hs hy)⟩
    · have haddress : State.valueAt s.stack 1 = .ok address := by
        rw [State.valueAt_eq_ok, hs]
        rfl
      simp only [exposed, hop, DataOp.pushes, storedName, haddress, ok_bind, hfound]
      rfl
    · obtain ⟨k, hk, _⟩ := Table.exists_mem_of_find? hfound
      exact State.mem_vars.mpr (Or.inr (Or.inr (Or.inr ⟨_, hk, Or.inr (List.mem_singleton.mp hx)⟩)))

end DataInstr

/-! ## Control instructions -/

namespace ControlInstr

variable {sig : Signature} {i : ControlInstr} {s t : State}

theorem uses_mem {v : Var} (hv : v ∈ i.uses s) : v ∈ s.vars := by
  refine State.mem_vars.mpr (Or.inl ?_)
  unfold uses at hv
  cases hop : i.op <;> rw [hop] at hv <;> dsimp only at hv
  case cond | brIf | brTable => exact List.mem_of_mem_take hv
  case call | callIndirect => exact List.mem_of_mem_take hv
  all_goals cases hv

/-- A call with one result writes its own name; nothing else writes a name that was not there. -/
theorem Effect.exposed (h : i.Effect sig s t) :
    (∀ x ∈ i.exposed t, x ∈ t.vars) ∧ (∀ y ∈ t.vars, y ∈ s.vars ∨ y ∈ i.exposed t) ∧
      ((∀ x ∈ i.exposed t, x ∈ s.vars) ∨ i.exposed t = [i.fresh]) := by
  have hvars : ∀ x ∈ i.exposed t, x ∈ t.stack := by
    intro x hx
    unfold ControlInstr.exposed at hx
    split at hx
    · exact List.mem_of_mem_take hx
    · cases hx
  refine ⟨fun x hx => State.mem_vars.mpr (Or.inl (hvars x hx)), ?_⟩
  have hsub : ∀ {rest : List Var}, t = { s with stack := rest } → (∀ y ∈ rest, y ∈ s.stack) →
      (∀ y ∈ t.vars, y ∈ s.vars ∨ y ∈ i.exposed t) ∧
        ((∀ x ∈ i.exposed t, x ∈ s.vars) ∨ i.exposed t = [i.fresh]) := by
    rintro rest rfl hrest
    refine ⟨fun y hy => Or.inl ?_, Or.inl fun x hx => State.mem_vars.mpr (Or.inl (hrest x (hvars x hx)))⟩
    rw [State.mem_vars] at hy ⊢
    exact hy.imp_left (hrest y)
  have hmem : ∀ y ∈ t.vars, y ∈ s.vars ∨ y = i.fresh := fun y hy => h.mem_vars hy
  cases h with
  | call hop hn =>
    by_cases hone : i.arity.outputs = 1
    · have hexposed : i.exposed { s with stack := i.results ++ Position.dropTo s.stack i.takes } = [i.fresh] := by
        simp only [ControlInstr.exposed, results, hop, hone, if_true]
        exact Position.takeTo_ofNat _ 1
      rw [hexposed]
      exact ⟨fun y hy => (hmem y hy).imp_right List.mem_singleton.mpr, Or.inr rfl⟩
    · refine hsub rfl fun y hy => ?_
      rw [results, if_neg hone, List.nil_append] at hy
      exact List.mem_of_mem_drop hy
  | br => exact hsub rfl fun y hy => hy
  | branch _ hs => exact hsub rfl fun y hy => hs ▸ List.mem_cons_of_mem _ hy
  | ret _ _ hs =>
    refine hsub rfl fun y hy => ?_
    rw [List.mem_singleton.mp hy, hs]
    exact List.mem_cons_self ..
  | leave => exact hsub rfl fun y hy => by cases hy

end ControlInstr

/-! ## Annotated instructions -/

namespace Instr

variable {sig : Signature} {c : Config} {i : Instr} {u : State} {f f' : Flow}

/-- What the instruction reads from a local or global is there. -/
def Finds (s : State) : Instr → Prop
  | .data i => i.Finds s
  | .control _ => True

theorem InRange.finds (h : i.InRange sig) (hlocals : u.locals.length = sig.localCount)
    (hglobals : u.globals.length = sig.globals.length) : i.Finds u := by
  cases i with
  | data d =>
    have hslots : d.InRange u.locals.length u.globals.length := by
      rw [hlocals, hglobals]
      exact h
    exact hslots.finds
  | control k => trivial

theorem uses_data {d : DataInstr} (hnote : (Instr.data d).requireNote = .ok ⟨f, f'⟩) :
    (Instr.data d).uses = d.uses f.state := by
  simp only [uses, hnote, ok_bind]

theorem uses_ok (hnote : i.requireNote = .ok ⟨f, f'⟩) (hfinds : i.Finds f.state) :
    ∃ vs, i.uses = .ok vs ∧ ∀ v ∈ vs, v ∈ f.state.vars := by
  cases i with
  | data d =>
    rw [uses_data hnote]
    exact DataInstr.uses_ok hfinds
  | control k =>
    simp only [uses, hnote, ok_bind]
    exact ⟨_, rfl, fun v hv => ControlInstr.uses_mem hv⟩

theorem exposed_data {d : DataInstr} (hnote : (Instr.data d).requireNote = .ok ⟨f, f'⟩) :
    (Instr.data d).exposed = d.exposed f.state f'.state := by
  simp only [exposed, hnote, ok_bind]

theorem exposed_control {k : ControlInstr} (hnote : (Instr.control k).requireNote = .ok ⟨f, f'⟩) :
    (Instr.control k).exposed = .ok (k.exposed f'.state) := by
  simp only [exposed, hnote, ok_bind]
  rfl

theorem mem_filter_new {ws : List Var} {x : Var} :
    x ∈ ws.filter (fun v => !u.vars.contains v) ↔ x ∈ ws ∧ ¬ u.Mentions x := by
  rw [List.mem_filter, State.mentions_iff_contains]
  simp

theorem filter_new_cases {ws : List Var} (h : (∀ x ∈ ws, x ∈ u.vars) ∨ ws.length ≤ 1) :
    ws.filter (fun v => !u.vars.contains v) = [] ∨ ∃ x, ws.filter (fun v => !u.vars.contains v) = [x] := by
  rcases h with hold | hlen
  · left
    refine List.eq_nil_iff_forall_not_mem.mpr fun x hx => ?_
    obtain ⟨hx, hnot⟩ := mem_filter_new.mp hx
    exact hnot (State.mentions_of_mem (hold x hx))
  · have hle := Nat.le_trans (List.length_filter_le (fun v => !u.vars.contains v) ws) hlen
    match ws.filter (fun v => !u.vars.contains v), hle with
    | [], _ => exact Or.inl rfl
    | [x], _ => exact Or.inr ⟨x, rfl⟩
    | _ :: _ :: _, hle => simp at hle

/-- Only a constant brings in another spelling of a name that was there before. -/
theorem Effect.mem_vars_of_mentions {s t : State} (he : i.Effect sig c s t) (hconst : i.isConst = false) {y : Var}
    (hy : y ∈ t.vars) (hm : s.Mentions y) : y ∈ s.vars := by
  have hpushed : ∀ l : Label, y = .pushed l → y ∈ s.vars := by
    rintro l rfl
    obtain ⟨v, hv, hkey⟩ := hm
    have hv' : v = .pushed l := by cases v <;> simp_all [Var.key]
    exact hv' ▸ hv
  cases i with
  | data d =>
    rcases DataInstr.Effect.mem_vars he hy with hs | hfresh | ⟨hop, -⟩
    · exact hs
    · exact hpushed _ hfresh
    · simp [isConst, hop] at hconst
  | control k => exact (ControlInstr.Effect.mem_vars he hy).elim id (hpushed _)

/-- An instruction defines at most one name, which it makes. Every name behind the instruction is that one, or
was there before. -/
theorem defs_ok (hnote : i.requireNote = .ok ⟨f, f'⟩) (he : i.Effect sig c f.state f'.state) :
    ∃ vs, i.defs = .ok vs ∧ (vs = [] ∨ ∃ x, vs = [x] ∧ i.Makes x) ∧ (∀ x ∈ vs, x ∈ f'.state.vars) ∧
      ∀ y ∈ f'.state.vars, y ∈ f.state.vars ∨ y ∈ vs := by
  -- All but constants are defined only if they were not there before.
  have hfilter : ∀ {ws : List Var}, i.exposed = .ok ws → i.isConst = false → (∀ x ∈ ws, x ∈ f'.state.vars) →
      (∀ y ∈ f'.state.vars, y ∈ f.state.vars ∨ y ∈ ws) → (∀ x ∈ ws, x ∈ f.state.vars) ∨ ws.length ≤ 1 →
      ∃ vs, i.defs = .ok vs ∧ (vs = [] ∨ ∃ x, vs = [x] ∧ i.Makes x) ∧ (∀ x ∈ vs, x ∈ f'.state.vars) ∧
        ∀ y ∈ f'.state.vars, y ∈ f.state.vars ∨ y ∈ vs := by
    intro ws hexposed hconst hsub hall hone
    refine ⟨ws.filter fun v => !f.state.vars.contains v, ?_, ?_, fun x hx => hsub x (mem_filter_new.mp hx).1, ?_⟩
    · simp only [defs, hnote, hexposed, hconst, ok_bind]
      rfl
    · refine (filter_new_cases hone).imp_right fun ⟨x, hx⟩ => ⟨x, hx, ?_⟩
      have hnew := mem_filter_new.mp (hx ▸ List.mem_singleton_self x)
      exact (he.mentions (State.mentions_of_mem (hsub x hnew.1))).resolve_left hnew.2
    · intro y hy
      by_cases hm : f.state.Mentions y
      · exact Or.inl (he.mem_vars_of_mentions hconst hy hm)
      · exact Or.inr (mem_filter_new.mpr ⟨(hall y hy).resolve_left fun hu => hm (State.mentions_of_mem hu), hm⟩)
  cases i with
  | control k =>
    obtain ⟨hsub, hall, hone⟩ := ControlInstr.Effect.exposed he
    exact hfilter (exposed_control hnote) rfl hsub hall (hone.imp_right fun h => by simp [h])
  | data d =>
    obtain ⟨ws, hws, hlen, hsub, hall⟩ := DataInstr.Effect.writes he
    have hexposed : (Instr.data d).exposed = .ok ws := (exposed_data hnote).trans hws
    by_cases hop : d.op = .const
    · obtain ⟨x, ht, hx⟩ := DataInstr.Effect.of_const he hop
      have hpush : d.Writes f.state f'.state [x] := by
        rw [ht]
        exact DataInstr.writes_push (by rw [hop]; rfl) fun y hy => hy
      obtain rfl : [x] = ws := Except.ok.inj (hpush.1.symm.trans hws)
      refine ⟨[x], ?_, Or.inr ⟨x, rfl, ?_⟩, hsub, hall⟩
      · have hconst : (Instr.data d).isConst = true := by simpa [isConst] using hop
        simp only [defs, hnote, hexposed, hconst, ok_bind]
        rfl
      · exact hx.imp_right fun heq => ⟨d, rfl, hop, Var.beq_iff.mpr (congrArg Var.key heq)⟩
    · exact hfilter hexposed (by simpa [isConst] using hop) hsub hall (Or.inr hlen)

end Instr
end Backslice
