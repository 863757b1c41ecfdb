import Backslice.Proofs.Visit

/-! # A stack machine with names

The machine runs the code on values of any kind. Beside them it carries what every name stands for: an
instruction gives a value to its own name, a join point gives values to the names that it makes. As long as the
name of an instruction does not occur in front of it, a step keeps the values in step with the names. -/

namespace Backslice

set_option autoImplicit false

variable {α : Type}

/-- What the code leaves open. -/
structure World (α : Type) where
  literal : Immediate → α
  literal_congr : ∀ a b, a.key = b.key → literal a = literal b
  /-- The values that operations compute and calls return, one after the other. -/
  supply : Nat → α

structure Machine (α : Type) where
  stack : List α := []
  locals : List α
  globals : List α
  names : Var → α
  /-- How many values have been computed. -/
  clock : Nat := 0

namespace Machine

/-- Equal names stand for one value. -/
def value (m : Machine α) (v : Var) : α := m.names v.key

/-- Gives a value to the name of an instruction. -/
def name (m : Machine α) (l : Label) (x : α) : Machine α :=
  { m with names := fun v => if v = .pushed l then x else m.names v }

def push (m : Machine α) (x : α) : Machine α := { m with stack := x :: m.stack }

def drop? (m : Machine α) (n : Nat) : Option (Machine α) :=
  if n ≤ m.stack.length then some { m with stack := m.stack.drop n } else none

/-- Pushes a computed value. -/
def compute (w : World α) (l : Label) (m : Machine α) : Machine α :=
  { (m.name l (w.supply m.clock)).push (w.supply m.clock) with clock := m.clock + 1 }

end Machine

/-! ## Instructions -/

/-- The local or global that the instruction works on. -/
def DataInstr.slot? (i : DataInstr) : Option Nat :=
  match i.arg with
  | .int (.ofNat n) => some n
  | _ => none

def DataInstr.read? (i : DataInstr) (places : List α) : Option α := do places[← i.slot?]?

def DataInstr.assign? (i : DataInstr) (places : List α) (x : α) : Option (List α) := do
  let n ← i.slot?
  if n < places.length then some (places.set n x) else none

def DataInstr.execute (w : World α) (i : DataInstr) (m : Machine α) : Option (Machine α) :=
  match i.op with
  | .nop => some m
  | .drop => m.drop? 1
  | .store => m.drop? 2
  | .const => some ((m.name i.label (w.literal i.arg)).push (w.literal i.arg))
  | .localGet => do
    let x ← i.read? m.locals
    return (m.name i.label x).push x
  | .globalGet => do
    let x ← i.read? m.globals
    return (m.name i.label x).push x
  | .localSet => do
    let x ← m.stack.head?
    return { m.name i.label x with stack := m.stack.tail, locals := ← i.assign? m.locals x }
  | .localTee => do
    let x ← m.stack.head?
    return { m.name i.label x with locals := ← i.assign? m.locals x }
  | .globalSet => do
    let x ← m.stack.head?
    return { m.name i.label x with stack := m.stack.tail, globals := ← i.assign? m.globals x }
  | .memorySize | .memoryGrow | .select | .unary | .test | .convert | .binary | .compare | .load => do
    let rest ← m.drop? (← i.op.computes?)
    return rest.compute w i.label

def ControlInstr.execute (sig : Signature) (w : World α) (i : ControlInstr) (m : Machine α) : Option (Machine α) :=
  match i.op with
  | .call | .callIndirect => do
    let rest ← m.drop? i.takes.toNat
    return if i.arity.outputs = 1 then rest.compute w i.label else rest
  | .br => some m
  | .cond | .brIf | .brTable => m.drop? 1
  | .ret =>
    if sig.results.length = 1 then do
      let x ← m.stack.head?
      return { m with stack := [x] }
    else some { m with stack := [] }
  | .unreachable => some { m with stack := [] }
  | .block | .loop => none

def Instr.execute (sig : Signature) (w : World α) (m : Machine α) : Instr → Option (Machine α)
  | .data i => i.execute w m
  | .control i => i.execute sig w m

/-! ## Names that a step leaves alone -/

theorem Machine.names_drop? {m m' : Machine α} {n : Nat} (h : m.drop? n = some m') : m'.names = m.names := by
  unfold Machine.drop? at h
  split at h
  · cases h
    rfl
  · cases h

theorem Machine.names_compute (w : World α) {l : Label} (m : Machine α) {v : Var} (hv : v ≠ .pushed l) :
    (m.compute w l).names v = m.names v := if_neg hv

/-- An instruction gives a value to no name but its own. -/
theorem Instr.names_execute {sig : Signature} {w : World α} {i : Instr} {m m' : Machine α}
    (h : i.execute sig w m = some m') {v : Var} (hv : v ≠ .pushed i.label) : m'.names v = m.names v := by
  cases i with
  | data i =>
    cases hop : i.op <;> simp only [Instr.execute, DataInstr.execute, hop] at h
    case nop => cases h; rfl
    case drop | store => rw [Machine.names_drop? h]
    case const => cases h; exact if_neg hv
    case localGet | globalGet =>
      obtain ⟨x, _, h⟩ := Option.bind_eq_some_iff.mp h
      cases h
      exact if_neg hv
    case localSet | localTee | globalSet =>
      obtain ⟨x, _, h⟩ := Option.bind_eq_some_iff.mp h
      obtain ⟨xs, _, h⟩ := Option.bind_eq_some_iff.mp h
      cases h
      exact if_neg hv
    case memorySize | memoryGrow | select | unary | test | convert | binary | compare | load =>
      obtain ⟨n, _, h⟩ := Option.bind_eq_some_iff.mp h
      obtain ⟨rest, hrest, h⟩ := Option.bind_eq_some_iff.mp h
      cases h
      exact (Machine.names_compute w rest hv).trans (congrFun (Machine.names_drop? hrest) v)
  | control i =>
    cases hop : i.op <;> simp only [Instr.execute, ControlInstr.execute, hop] at h
    case call | callIndirect =>
      obtain ⟨rest, hrest, h⟩ := Option.bind_eq_some_iff.mp h
      cases h
      split
      · exact (Machine.names_compute w rest hv).trans (congrFun (Machine.names_drop? hrest) v)
      · rw [Machine.names_drop? hrest]
    case br | unreachable => cases h; rfl
    case cond | brIf | brTable => rw [Machine.names_drop? h]
    case ret =>
      split at h
      · obtain ⟨x, _, h⟩ := Option.bind_eq_some_iff.mp h
        cases h
        rfl
      · cases h
        rfl
    case block | loop => cases h

/-! ## Values and names in step -/

namespace Machine

/-- Stack, locals and globals hold the values of the names in the state. -/
structure Matches (m : Machine α) (s : State) : Prop where
  stack : m.stack = s.stack.map m.value
  locals : m.locals = s.locals.map m.value
  globals : m.globals = s.globals.map m.value

/-- The names match, literals have their values, and the locals and globals are those of the function. -/
structure Agrees (w : World α) (sig : Signature) (m : Machine α) (s : State) : Prop extends Matches m s where
  literal : ∀ a, m.value (.constant a) = w.literal a
  localCount : s.locals.length = sig.localCount
  globalCount : s.globals.length = sig.globals.length

variable {w : World α} {sig : Signature} {m : Machine α} {s t : State} {l : Label} {x : α}

theorem value_congr (m : Machine α) {v v' : Var} (h : v.key = v'.key) : m.value v = m.value v' :=
  congrArg m.names h

theorem value_name (m : Machine α) (l : Label) (x : α) : (m.name l x).value (.pushed l) = x := if_pos rfl

theorem value_name_of_ne {v : Var} (h : v.key ≠ .pushed l) : (m.name l x).value v = m.value v := if_neg h

theorem Matches.of_beq (h : m.Matches t) (hst : (s == t) = true) : m.Matches s := by
  have hmap : ∀ {l l' : List Var}, l.map Var.key = l'.map Var.key → l.map m.value = l'.map m.value := by
    intro l l' hl
    have := congrArg (List.map m.names) hl
    rwa [List.map_map, List.map_map] at this
  obtain ⟨h₁, h₂, h₃, _⟩ := State.beq_iff.mp hst
  exact ⟨by rw [h.stack, hmap h₁], by rw [h.locals, hmap h₂], by rw [h.globals, hmap h₃]⟩

theorem Agrees.of_beq (h : m.Agrees w sig t) (hst : (s == t) = true) : m.Agrees w sig s where
  toMatches := h.toMatches.of_beq hst
  literal := h.literal
  localCount := (State.length_locals_of_beq hst).trans h.localCount
  globalCount := (State.length_globals_of_beq hst).trans h.globalCount

/-- A name that does not occur may be given any value. -/
theorem Agrees.name (h : m.Agrees w sig s) (hl : ¬ s.Mentions (.pushed l)) (x : α) :
    (m.name l x).Agrees w sig s := by
  have hmap : ∀ {vs : List Var}, (∀ v ∈ vs, v ∈ s.vars) → vs.map (m.name l x).value = vs.map m.value := by
    intro vs hvs
    refine List.map_congr_left fun v hv => value_name_of_ne fun hkey => hl ⟨v, hvs v hv, hkey⟩
  refine ⟨⟨?_, ?_, ?_⟩, ?_, h.localCount, h.globalCount⟩
  · rw [hmap fun v hv => State.mem_vars.mpr (Or.inl hv)]
    exact h.stack
  · rw [hmap fun v hv => State.mem_vars.mpr (Or.inr (Or.inl hv))]
    exact h.locals
  · rw [hmap fun v hv => State.mem_vars.mpr (Or.inr (Or.inr (Or.inl hv)))]
    exact h.globals
  · intro a
    rw [value_name_of_ne (by simp [Var.key])]
    exact h.literal a

theorem Agrees.drop? (h : m.Agrees w sig s) {n : Nat} (hn : n ≤ s.stack.length) :
    ∃ m', m.drop? n = some m' ∧ m'.Agrees w sig { s with stack := s.stack.drop n } := by
  have hlen : n ≤ m.stack.length := by rwa [h.stack, List.length_map]
  refine ⟨_, if_pos hlen, ⟨⟨?_, h.locals, h.globals⟩, h.literal, h.localCount, h.globalCount⟩⟩
  show m.stack.drop n = (s.stack.drop n).map m.value
  rw [h.stack, List.map_drop]

theorem Agrees.push (h : m.Agrees w sig s) {v : Var} (hv : m.value v = x) : (m.push x).Agrees w sig (s.push v) := by
  refine ⟨⟨?_, h.locals, h.globals⟩, h.literal, h.localCount, h.globalCount⟩
  show x :: m.stack = m.value v :: s.stack.map m.value
  rw [hv, ← h.stack]

theorem Agrees.compute (h : m.Agrees w sig s) (hl : ¬ s.Mentions (.pushed l)) :
    (m.compute w l).Agrees w sig (s.push (.pushed l)) :=
  have hpush := (h.name hl (w.supply m.clock)).push (value_name m l _)
  ⟨⟨hpush.stack, hpush.locals, hpush.globals⟩, hpush.literal, hpush.localCount, hpush.globalCount⟩

/-! ## Data instructions keep step -/

variable {i : DataInstr} {places : List Var} {v : Var} {n : Nat}

theorem slot?_of_arg (h : i.arg = .int n) : i.slot? = some n := by
  simp only [DataInstr.slot?, h]

theorem exists_read (hl : ∀ u ∈ places, u.key ≠ .pushed i.label) {propagate : Bool}
    (hv : i.Reads propagate places v) (hn : ∃ n : Nat, i.arg = .int n ∧ n < places.length) :
    ∃ x, i.read? (places.map m.value) = some x ∧ (m.name i.label x).value v = x := by
  obtain ⟨n, harg, hlt⟩ := hn
  obtain ⟨u, hu⟩ : ∃ u, places[n]? = some u := ⟨_, List.getElem?_eq_getElem hlt⟩
  refine ⟨m.value u, by simp [DataInstr.read?, slot?_of_arg harg, hu], ?_⟩
  unfold DataInstr.Reads at hv
  split at hv
  · obtain ⟨k, hk, hget⟩ := hv
    have hkn : k = n := by simpa [harg] using hk.symm
    rw [hkn, Position.get?_ofNat, hu, Option.some.injEq] at hget
    subst hget
    exact value_name_of_ne (hl u (List.mem_of_getElem? hu))
  · subst hv
    exact value_name ..

theorem assign_eq (harg : i.arg = .int n) (hlt : n < places.length) (hv : (m.name i.label x).value v = x)
    (propagate : Bool) : i.assign? (places.map (m.name i.label x).value) x =
      some ((places.set n (i.written propagate v)).map (m.name i.label x).value) := by
  have hwritten : (m.name i.label x).value (i.written propagate v) = x := by
    rcases i.written_cases propagate v with h | h <;> rw [h]
    · exact hv
    · exact value_name ..
  simp [DataInstr.assign?, slot?_of_arg harg, hlt, List.map_set, hwritten]

/-- The value on top of the stack, and what naming it again leaves unchanged. -/
theorem Agrees.top (h : m.Agrees w sig s) (hl : ¬ s.Mentions (.pushed l)) {rest : List Var}
    (hs : s.stack = v :: rest) : m.stack = m.value v :: rest.map (m.name l (m.value v)).value ∧
      (m.name l (m.value v)).value v = m.value v := by
  have hv : (m.name l (m.value v)).value v = m.value v := by
    refine value_name_of_ne fun hkey => hl ⟨v, State.mem_vars.mpr (Or.inl ?_), hkey⟩
    rw [hs]
    exact List.mem_cons_self ..
  have hstack := (h.name hl (m.value v)).stack
  rw [hs, List.map_cons, hv] at hstack
  exact ⟨hstack, hv⟩

end Machine

section
variable {w : World α} {sig : Signature} {m : Machine α} {s t : State}

theorem State.Mentions.of_subset {v : Var} (h : t.Mentions v) (hsub : ∀ u ∈ t.vars, u ∈ s.vars) : s.Mentions v := by
  obtain ⟨u, hu, huv⟩ := h
  exact ⟨u, hsub u hu, huv⟩

theorem State.vars_drop_subset (s : State) (n : Nat) : ∀ u ∈ { s with stack := s.stack.drop n }.vars, u ∈ s.vars := by
  intro u hu
  rw [State.mem_vars] at hu ⊢
  exact hu.imp_left List.mem_of_mem_drop

theorem DataInstr.execute_of_computes {i : DataInstr} {n : Nat} (h : i.op.computes? = some n) (m : Machine α) :
    i.execute w m = (m.drop? n).map (Machine.compute w i.label) := by
  rw [Option.map_eq_bind]
  cases hop : i.op <;> rw [hop] at h <;> cases h <;> simp only [execute, hop] <;> rfl

theorem DataInstr.Effect.agrees {c : Config} {i : DataInstr} (he : i.Effect c s t) (h : m.Agrees w sig s)
    (hl : ¬ s.Mentions (.pushed i.label)) (hrange : i.InRange sig.localCount sig.globals.length) :
    ∃ m', i.execute w m = some m' ∧ m'.Agrees w sig t := by
  have hlocals : ∀ u ∈ s.locals, u.key ≠ .pushed i.label :=
    fun u hu hkey => hl ⟨u, State.mem_vars.mpr (Or.inr (Or.inl hu)), hkey⟩
  have hglobals : ∀ u ∈ s.globals, u.key ≠ .pushed i.label :=
    fun u hu hkey => hl ⟨u, State.mem_vars.mpr (Or.inr (Or.inr (Or.inl hu))), hkey⟩
  cases he with
  | nop hop => exact ⟨m, by simp [execute, hop], h⟩
  | @compute n hop hn =>
    obtain ⟨m', hm', hag⟩ := h.drop? hn
    refine ⟨m'.compute w i.label, by rw [execute_of_computes hop, hm']; rfl, hag.compute fun hcon => hl ?_⟩
    exact hcon.of_subset (s.vars_drop_subset n)
  | drop hop hs =>
    obtain ⟨m', hm', hag⟩ := h.drop? (n := 1) (by simp [hs])
    rw [hs] at hag
    exact ⟨m', by simp [execute, hop, hm'], hag⟩
  | store hop hs =>
    obtain ⟨m', hm', hag⟩ := h.drop? (n := 2) (by simp [hs])
    rw [hs] at hag
    refine ⟨m', by simp [execute, hop, hm'], ⟨hag.stack, hag.locals, hag.globals⟩, ?_, ?_, ?_⟩
    · exact hag.literal
    · exact hag.localCount
    · exact hag.globalCount
  | const hop =>
    refine ⟨_, by simp only [execute, hop]; rfl, (h.name hl _).push ?_⟩
    split
    · rw [Machine.value_name_of_ne (by simp [Var.key])]
      exact h.literal i.arg
    · exact Machine.value_name ..
  | localGet hop hv =>
    obtain ⟨x, hx, hvx⟩ := Machine.exists_read hlocals hv (by rw [h.localCount]; exact hrange.1 (Or.inl hop))
    rw [← h.locals] at hx
    exact ⟨_, by simp only [execute, hop, hx]; rfl, (h.name hl x).push hvx⟩
  | globalGet hop hv =>
    obtain ⟨x, hx, hvx⟩ := Machine.exists_read hglobals hv (by rw [h.globalCount]; exact hrange.2 (Or.inl hop))
    rw [← h.globals] at hx
    exact ⟨_, by simp only [execute, hop, hx]; rfl, (h.name hl x).push hvx⟩
  | @localSet v rest n hop hs harg hn =>
    obtain ⟨hstack, hv⟩ := h.top hl hs
    have hnamed := h.name hl (m.value v)
    have hassign : i.assign? m.locals (m.value v) = some _ :=
      hnamed.locals ▸ Machine.assign_eq harg hn hv c.propagateLocals
    have hexec : i.execute w m = some { m.name i.label (m.value v) with
        stack := rest.map (m.name i.label (m.value v)).value
        locals := (s.locals.set n (i.written c.propagateLocals v)).map (m.name i.label (m.value v)).value } := by
      simp [execute, hop, hstack, hassign]
    refine ⟨_, hexec, ⟨rfl, rfl, hnamed.globals⟩, hnamed.literal, ?_, h.globalCount⟩
    rw [List.length_set, h.localCount]
  | @localTee v rest n hop hs harg hn =>
    obtain ⟨hstack, hv⟩ := h.top hl hs
    have hnamed := h.name hl (m.value v)
    have hassign : i.assign? m.locals (m.value v) = some _ :=
      hnamed.locals ▸ Machine.assign_eq harg hn hv c.propagateLocals
    have hexec : i.execute w m = some { m.name i.label (m.value v) with
        locals := (s.locals.set n (i.written c.propagateLocals v)).map (m.name i.label (m.value v)).value } := by
      simp [execute, hop, hstack, hassign]
    refine ⟨_, hexec, ⟨hnamed.stack, rfl, hnamed.globals⟩, hnamed.literal, ?_, h.globalCount⟩
    rw [List.length_set, h.localCount]
  | @globalSet v rest n hop hs harg hn =>
    obtain ⟨hstack, hv⟩ := h.top hl hs
    have hnamed := h.name hl (m.value v)
    have hassign : i.assign? m.globals (m.value v) = some _ :=
      hnamed.globals ▸ Machine.assign_eq harg hn hv c.propagateGlobals
    have hexec : i.execute w m = some { m.name i.label (m.value v) with
        stack := rest.map (m.name i.label (m.value v)).value
        globals := (s.globals.set n (i.written c.propagateGlobals v)).map (m.name i.label (m.value v)).value } := by
      simp [execute, hop, hstack, hassign]
    refine ⟨_, hexec, ⟨rfl, hnamed.locals, rfl⟩, hnamed.literal, h.localCount, ?_⟩
    rw [List.length_set, h.globalCount]

/-! ## Control instructions keep step -/

theorem ControlInstr.Effect.agrees {i : ControlInstr} (he : i.Effect sig s t) (h : m.Agrees w sig s)
    (hl : ¬ s.Mentions (.pushed i.label)) (harity : i.op.isCall = true → 0 ≤ i.arity.inputs) :
    ∃ m', i.execute sig w m = some m' ∧ m'.Agrees w sig t := by
  have hpop : ∀ {v rest}, s.stack = v :: rest →
      ∃ m', m.drop? 1 = some m' ∧ m'.Agrees w sig { s with stack := rest } := by
    intro v rest hs
    obtain ⟨m', hm', hag⟩ := h.drop? (n := 1) (by simp [hs])
    rw [hs] at hag
    exact ⟨m', hm', hag⟩
  have hempty : Machine.Agrees w sig { m with stack := [] } { s with stack := [] } :=
    ⟨⟨rfl, h.locals, h.globals⟩, h.literal, h.localCount, h.globalCount⟩
  cases he with
  | call hop hn =>
    have htakes : 0 ≤ i.takes := by
      have := harity hop
      unfold takes
      split <;> omega
    obtain ⟨n, hnat⟩ := Int.eq_ofNat_of_zero_le htakes
    have hn' : n ≤ s.stack.length := by omega
    obtain ⟨m', hm', hag⟩ := h.drop? hn'
    have hl' : ¬ State.Mentions { s with stack := s.stack.drop n } (.pushed i.label) :=
      fun hcon => hl (hcon.of_subset (s.vars_drop_subset n))
    have hexec : i.execute sig w m = some (if i.arity.outputs = 1 then m'.compute w i.label else m') := by
      cases hop' : i.op <;> rw [hop'] at hop <;> cases hop <;>
        simp only [execute, hop', hnat, Int.toNat_natCast, hm'] <;> rfl
    refine ⟨_, hexec, ?_⟩
    rw [hnat, Position.dropTo_ofNat]
    unfold results
    split
    · exact hag.compute hl'
    · exact hag
  | br hop => exact ⟨m, by simp [execute, hop], h⟩
  | branch hop hs =>
    obtain ⟨m', hm', hag⟩ := hpop hs
    refine ⟨m', ?_, hag⟩
    cases hop' : i.op <;> rw [hop'] at hop <;> cases hop <;> simp [execute, hop', hm']
  | @ret v rest hop hr hs =>
    have hstack := h.stack
    rw [hs, List.map_cons] at hstack
    refine ⟨{ m with stack := [m.value v] }, by simp [execute, hop, hr, hstack], ?_⟩
    exact hempty.push (v := v) rfl
  | leave hop =>
    refine ⟨_, ?_, hempty⟩
    rcases hop with hop | ⟨hop, hr⟩
    · simp [execute, hop]
    · simp [execute, hop, hr]

end
end Backslice
