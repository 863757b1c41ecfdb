import Backslice.Proofs.Dominance
import Backslice.Proofs.Machine

/-! # What is known of memory, and memory

A store binds a slot, which is the name of an address and an offset, and it writes to a cell. Two slots with different
names may denote one cell, and a store through one of them leaves the binding of the other as it is. So the state knows,
of each slot, what was last stored through it, while the cell holds what was last stored to it. -/

namespace Backslice

set_option autoImplicit false

variable {α : Type}

/-! ## A machine with a memory -/

/-- What the code leaves open, and the addresses that values stand for. -/
structure AddressWorld (α : Type) extends World α where
  address : α → Int

structure MemoryMachine (α : Type) extends Machine α where
  memory : Int → α

/-- The cell that a slot denotes if `ρ` gives the values of the names. -/
def AddressWorld.cell (w : AddressWorld α) (ρ : Var → α) (k : Slot) : Int := w.address (ρ k.1) + k.2

namespace DataInstr

/-- The address and the value that a store takes from the stack. -/
def stores? {β : Type} (i : DataInstr) : List β → Option (β × β)
  | value :: address :: _ => if i.op = .store then some (address, value) else none
  | _ => none

/-- The slot that a store binds, and the name that it binds it to. -/
def binding? (i : DataInstr) (s : State) : Option (Slot × Var) :=
  (i.stores? s.stack).map fun e => ((e.1, i.offset), e.2)

/-- A store writes its value where its address and offset point to. Nothing else changes the memory. -/
def perform (w : AddressWorld α) (i : DataInstr) (x : MemoryMachine α) : Option (MemoryMachine α) := do
  let m ← i.execute w.toWorld x.toMachine
  return { m with memory := (i.stores? x.stack).elim x.memory fun e =>
    Function.update x.memory (w.address e.1 + i.offset) e.2 }

end DataInstr

def performAll (w : AddressWorld α) (is : List DataInstr) (x : MemoryMachine α) : Option (MemoryMachine α) :=
  is.foldlM (fun x i => i.perform w x) x

/-- The bindings that the stores make in a run with these notes, the latest first. -/
def bindings (is : List DataInstr) (notes : List (Label × Note)) : List (Slot × Var) :=
  ((is.zip notes).filterMap fun e => e.1.binding? e.2.2.before.state).reverse

/-- The bindings made since the slot was last bound, the latest first. -/
def bindingsSince (made : List (Slot × Var)) (k : Slot) : List (Slot × Var) := made.takeWhile fun e => !(e.1 == k)

/-! ## One instruction -/

section
variable {w : AddressWorld α} {c : Config} {i : DataInstr} {s t : State} {x x' y : MemoryMachine α}

theorem DataInstr.stores?_map {β γ : Type} (i : DataInstr) (f : β → γ) (stack : List β) :
    i.stores? (stack.map f) = (i.stores? stack).map (Prod.map f f) := by
  rcases stack with _ | ⟨v, _ | ⟨a, rest⟩⟩
  · rfl
  · rfl
  · simp only [List.map_cons, stores?]
    split <;> rfl

theorem DataInstr.stores?_of_store {β : Type} {stack rest : List β} {value address : β} (hop : i.op = .store)
    (hs : stack = value :: address :: rest) : i.stores? stack = some (address, value) := by
  rw [hs, stores?, if_pos hop]

theorem DataInstr.stores?_of_ne {β : Type} (hop : i.op ≠ .store) (stack : List β) : i.stores? stack = none := by
  unfold stores?
  split
  · rw [if_neg hop]
  · rfl

theorem DataInstr.mem_of_stores? {β : Type} {stack : List β} {e : β × β} (h : i.stores? stack = some e) :
    e.1 ∈ stack ∧ e.2 ∈ stack := by
  unfold stores? at h
  split at h
  · split at h
    · cases h
      simp
    · cases h
  · cases h

theorem DataInstr.perform_eq_some (h : i.perform w x = some x') :
    i.execute w.toWorld x.toMachine = some x'.toMachine ∧ x'.memory = (i.stores? x.stack).elim x.memory fun e =>
      Function.update x.memory (w.address e.1 + i.offset) e.2 := by
  obtain ⟨m, hm, h⟩ := Option.bind_eq_some_iff.mp h
  cases h
  exact ⟨hm, rfl⟩

/-- A store inserts its binding, and nothing else changes what is known of memory. -/
theorem DataInstr.Effect.memory_eq (h : i.Effect c s t) :
    t.memory = (i.binding? s).elim s.memory fun e => s.memory.insert e.1 e.2 := by
  by_cases hop : i.op = .store
  · cases h with
    | store _ hs =>
      rw [binding?, stores?_of_store hop hs]
      rfl
    | compute hop' =>
      rw [hop] at hop'
      cases hop'
    | _ => simp_all
  · rw [binding?, stores?_of_ne hop]
    cases h with
    | store hop' => exact absurd hop' hop
    | _ => rfl

theorem DataInstr.arg_of_slot? {n : Nat} (h : i.slot? = some n) : i.arg = .int n := by
  unfold slot? at h
  split at h
  · rename_i hn
    cases h
    exact hn
  · cases h

theorem DataInstr.inRange_of_execute {w : World α} {m m' : Machine α} (h : i.execute w m = some m') :
    i.InRange m.locals.length m.globals.length := by
  have hread : ∀ {places : List α} {v : α}, i.read? places = some v →
      ∃ n : Nat, i.arg = .int n ∧ n < places.length := by
    intro places v hv
    obtain ⟨n, hn, hv⟩ := Option.bind_eq_some_iff.mp hv
    exact ⟨n, arg_of_slot? hn, (List.getElem?_eq_some_iff.mp hv).1⟩
  have hassign : ∀ {places places' : List α} {v : α}, i.assign? places v = some places' →
      ∃ n : Nat, i.arg = .int n ∧ n < places.length := by
    intro places places' v hv
    obtain ⟨n, hn, hv⟩ := Option.bind_eq_some_iff.mp hv
    refine ⟨n, arg_of_slot? hn, ?_⟩
    by_contra hcon
    rw [if_neg hcon] at hv
    cases hv
  constructor
  · rintro (hop | hop | hop) <;> simp only [execute, hop] at h
    · obtain ⟨v, hv, -⟩ := Option.bind_eq_some_iff.mp h
      exact hread hv
    all_goals
      obtain ⟨v, -, h⟩ := Option.bind_eq_some_iff.mp h
      obtain ⟨places, hplaces, -⟩ := Option.bind_eq_some_iff.mp h
      exact hassign hplaces
  · rintro (hop | hop) <;> simp only [execute, hop] at h
    · obtain ⟨v, hv, -⟩ := Option.bind_eq_some_iff.mp h
      exact hread hv
    · obtain ⟨v, -, h⟩ := Option.bind_eq_some_iff.mp h
      obtain ⟨places, hplaces, -⟩ := Option.bind_eq_some_iff.mp h
      exact hassign hplaces

theorem DataInstr.Effect.agrees_of_execute {w : World α} {sig : Signature} {m m' : Machine α} (h : i.Effect c s t)
    (hm : m.Agrees w sig s) (hl : ¬ s.Mentions (.pushed i.label)) (hexec : i.execute w m = some m') :
    m'.Agrees w sig t := by
  have hrange := inRange_of_execute hexec
  rw [hm.locals, hm.globals, List.length_map, List.length_map, hm.localCount, hm.globalCount] at hrange
  obtain ⟨m₁, hm₁, hagrees⟩ := h.agrees hm hl hrange
  rw [hexec] at hm₁
  cases hm₁
  exact hagrees

/-- A name keeps its value while instructions with other labels run. -/
theorem value_performAll {is : List DataInstr} (h : performAll w is x = some y) {v : Var}
    (hv : ∀ i ∈ is, v.key ≠ .pushed i.label) : y.value v = x.value v := by
  induction is generalizing x with
  | nil =>
    cases h
    rfl
  | cons i rest ih =>
    rw [performAll, List.foldlM_cons] at h
    obtain ⟨x₁, hx₁, h⟩ := Option.bind_eq_some_iff.mp h
    rw [List.forall_mem_cons] at hv
    have hexec : (Instr.data i).execute {} w.toWorld x.toMachine = some x₁.toMachine :=
      (DataInstr.perform_eq_some hx₁).1
    rw [ih h hv.2]
    exact Instr.names_execute hexec hv.1

end

/-! ## A run -/

/-- The bindings `made` so far, the latest first, account for what is known of memory and for the memory, which was
`start`: a slot has what was last stored through it, and a cell what was last stored to it. -/
structure Accounts (w : AddressWorld α) (ρ : Var → α) (start : Int → α) (made : List (Slot × Var)) (s : State)
    (memory : Int → α) : Prop where
  slot : ∀ k, s.memory.find? k = (made.find? fun e => e.1 == k).map (·.2)
  cell : ∀ n, memory n = ((made.find? fun e => w.cell ρ e.1 = n).map fun e => ρ e.2).getD (start n)

section
variable {w : AddressWorld α} {ρ : Var → α} {start memory : Int → α} {made : List (Slot × Var)} {c : Config}
  {i : DataInstr} {s t : State} {x x' y : MemoryMachine α} {notes : List (Label × Note)}

theorem Accounts.store (h : Accounts w ρ start made s memory) (e : Slot × Var)
    (ht : t.memory = s.memory.insert e.1 e.2) :
    Accounts w ρ start (e :: made) t (Function.update memory (w.cell ρ e.1) (ρ e.2)) where
  slot k := by
    rw [ht, Table.find?_insert, List.find?_cons, h.slot]
    split <;> simp_all
  cell n := by
    rw [List.find?_cons, Function.update_apply, h.cell]
    by_cases hn : w.cell ρ e.1 = n
    · simp [hn]
    · simp [hn, Ne.symm hn]

theorem Accounts.step {sig : Signature} (h : Accounts w ρ start made s x.memory) (heffect : i.Effect c s t)
    (hm : x.toMachine.Agrees w.toWorld sig s) (hρ : ∀ v, s.Mentions v → ρ v = x.value v)
    (hx : i.perform w x = some x') : Accounts w ρ start ((i.binding? s).toList ++ made) t x'.memory := by
  have hknown := heffect.memory_eq
  have hwritten := (DataInstr.perform_eq_some hx).2
  rw [hm.stack, DataInstr.stores?_map] at hwritten
  unfold DataInstr.binding? at hknown ⊢
  cases hstores : i.stores? s.stack with
  | none =>
    rw [hstores] at hknown hwritten
    rw [show x'.memory = x.memory from hwritten]
    exact ⟨fun k => (congrArg (·.find? k) hknown).trans (h.slot k), h.cell⟩
  | some e =>
    rw [hstores] at hknown hwritten
    obtain ⟨haddress, hstored⟩ := DataInstr.mem_of_stores? hstores
    have hvalue : ∀ v ∈ s.stack, x.value v = ρ v := fun v hv =>
      (hρ v (State.mentions_of_mem (State.mem_vars.mpr (Or.inl hv)))).symm
    have hcell : x'.memory = Function.update x.memory (w.cell ρ (e.1, i.offset)) (ρ e.2) := by
      rw [AddressWorld.cell, ← hvalue e.1 haddress, ← hvalue e.2 hstored]
      exact hwritten
    rw [hcell]
    exact h.store ((e.1, i.offset), e.2) hknown

theorem bindings_cons (i : DataInstr) (is : List DataInstr) (e : Label × Note) (notes : List (Label × Note)) :
    bindings (i :: is) (e :: notes) = bindings is notes ++ (i.binding? e.2.before.state).toList := by
  rw [bindings, List.zip_cons_cons, List.filterMap_cons]
  cases i.binding? e.2.before.state with
  | none => simp [bindings]
  | some b => simp [bindings]

theorem performAll_append {is rest : List DataInstr} (hx : performAll w is x = some x')
    (hy : performAll w rest x' = some y) : performAll w (is ++ rest) x = some y := by
  unfold performAll at hx hy ⊢
  rw [List.foldlM_append, hx]
  exact hy

/-- The run of `is` that ends in `x'`, as part of one that goes on with `rest` and gives the names the values of `y`. -/
theorem Accounts.run {sig : Signature} {is rest : List DataInstr} (h : Accounts w y.value start made s x.memory)
    (hsteps : Steps sig c (is.map .data) s notes t) (hm : x.toMachine.Agrees w.toWorld sig s)
    (hlabels : ((is ++ rest).map DataInstr.label).Nodup) (hforeign : ∀ i ∈ is ++ rest, ¬ s.Mentions (.pushed i.label))
    (hx : performAll w is x = some x') (hy : performAll w rest x' = some y) :
    Accounts w y.value start (bindings is notes ++ made) t x'.memory := by
  induction is generalizing made s x notes with
  | nil =>
    cases hsteps
    cases hx
    exact h
  | cons i is ih =>
    have hρ : ∀ v, s.Mentions v → y.value v = x.value v := by
      intro v hv
      refine value_performAll (performAll_append hx hy) fun j hj hkey => hforeign j hj ?_
      exact (State.mentions_congr hkey).mp hv
    cases hsteps with
    | @cons _ _ _ u _ notes hi hrest =>
      rw [performAll, List.foldlM_cons] at hx
      obtain ⟨x₁, hx₁, hx⟩ := Option.bind_eq_some_iff.mp hx
      have hfirst : ¬ s.Mentions (.pushed i.label) := hforeign i (by simp)
      have hm₁ : x₁.toMachine.Agrees w.toWorld sig u :=
        DataInstr.Effect.agrees_of_execute hi hm hfirst (DataInstr.perform_eq_some hx₁).1
      rw [List.cons_append, List.map_cons, List.nodup_cons] at hlabels
      have hforeign₁ : ∀ j ∈ is ++ rest, ¬ u.Mentions (.pushed j.label) := by
        intro j hj hcon
        rcases hi.mentions hcon with hold | hnew | ⟨d, -, -, hconst⟩
        · exact hforeign j (by simp [hj]) hold
        · have hsame : j.label = i.label := Var.pushed.inj hnew
          exact hlabels.1 (hsame ▸ List.mem_map_of_mem hj)
        · cases Var.beq_iff.mp hconst
      have hstep := h.step hi hm hρ hx₁
      rw [bindings_cons, List.append_assoc]
      exact ih hstep hrest hm₁ hlabels.2 hforeign₁ hx

/-- What a cell holds if the bindings account for the memory: the last name stored to it, through whatever slot. -/
theorem Accounts.holds_iff {k : Slot} {v : Var} (h : Accounts w ρ start made s memory) (hk : s.memory.find? k = some v)
    (hρ : ∀ v v' : Var, v.key = v'.key → ρ v = ρ v') : memory (w.cell ρ k) = ρ v ↔
      ∀ e, (bindingsSince made k).find? (fun e => w.cell ρ e.1 = w.cell ρ k) = some e → ρ e.2 = ρ v := by
  rw [h.slot, Option.map_eq_some_iff] at hk
  obtain ⟨e, he, rfl⟩ := hk
  obtain ⟨hek, since, older, rfl, hother⟩ := List.find?_eq_some_iff_append.mp he
  have hsince : bindingsSince (since ++ e :: older) k = since := by
    rw [bindingsSince, List.takeWhile_append_of_pos hother, List.takeWhile_cons_of_neg (by simp [hek]), List.append_nil]
  have hcell : w.cell ρ e.1 = w.cell ρ k := by
    obtain ⟨hkey, hoffset⟩ := Prod.mk.inj ((Slot.beq_iff _ _).mp hek)
    rw [AddressWorld.cell, AddressWorld.cell, hρ _ _ hkey, hoffset]
  rw [hsince, h.cell, List.find?_append, List.find?_cons_of_pos (by simp [hcell])]
  cases hfind : since.find? fun e => decide (w.cell ρ e.1 = w.cell ρ k) with
  | none => simp
  | some e' => simp

end

/-! ## Runs from an empty memory -/

/-- Whether memory holds what a state knows of it. Each point of a run is a split of the list into what has run and the
rest, and names have the values that they get in the whole run. What is known of a slot is right unless, since the slot
was bound, another one was bound that denotes the same cell, and the last of these got another value. -/
theorem known_memory_holds_iff (w : AddressWorld α) {c : Config} {before rest : List DataInstr} {s₀ s : State}
    {notes : List (Label × Note)} {x₀ x y : MemoryMachine α}
    (hlabels : ((before ++ rest).map DataInstr.label).Nodup) (hempty : s₀.memory = ∅)
    (hforeign : ∀ i ∈ before ++ rest, ¬ s₀.Mentions (.pushed i.label)) (hmatches : x₀.Matches s₀)
    (hliteral : ∀ a, x₀.value (.constant a) = w.literal a)
    (hs : runData c before (.known s₀) = .ok (.known s, notes))
    (hx : performAll w before x₀ = some x) (hy : performAll w rest x = some y) {a v : Var} {o : Int}
    (hknown : s.memory.find? (a, o) = some v) : s.lookup a o = v ∧
      (x.memory (w.address (y.value a) + o) = y.value v ↔
        ∀ e, (bindingsSince (bindings before notes) (a, o)).find?
          (fun e => w.address (y.value e.1.1) + e.1.2 = w.address (y.value a) + o) = some e →
          y.value e.2 = y.value v) := by
  refine ⟨by rw [State.lookup, hknown, Option.getD_some], ?_⟩
  -- the steps do not depend on the signature, but for the number of locals and globals
  let sig : Signature :=
    { locals := List.replicate s₀.locals.length .i32, globals := List.replicate s₀.globals.length .i32 }
  have hagrees : x₀.toMachine.Agrees w.toWorld sig s₀ :=
    ⟨hmatches, hliteral, by simp [sig, Signature.localCount], by simp [sig]⟩
  obtain ⟨t, hsteps, heq⟩ := (runData_known sig).mp hs
  cases heq
  have hstart : Accounts w y.value x₀.memory [] s₀ x₀.memory := ⟨fun k => by rw [hempty]; rfl, fun n => rfl⟩
  have haccounts := hstart.run hsteps hagrees hlabels hforeign hx hy
  rw [List.append_nil] at haccounts
  exact haccounts.holds_iff hknown fun _ _ hkey => y.value_congr hkey

/-! ## Stores of constants -/

/-- The whole number that a literal is. -/
def Immediate.whole : Immediate → Int
  | .literal ⟨_, .int n⟩ => n
  | _ => 0

/-- The value of a constant, and zero for any other name. -/
def Var.whole : Var → Int
  | .constant a => a.key.whole
  | _ => 0

/-- Values are whole numbers, and a number is its own address. -/
def wholeWorld : AddressWorld Int where
  literal a := a.key.whole
  literal_congr _ _ h := congrArg Immediate.whole h
  supply _ := 0
  address n := n

/-- No locals, no globals and zeros in memory. -/
def zeroMachine : MemoryMachine Int := { locals := [], globals := [], names := Var.whole, memory := fun _ => 0 }

theorem zeroMachine_matches : zeroMachine.Matches {} := ⟨rfl, rfl, rfl⟩

theorem zeroMachine_value_constant (a : Immediate) : zeroMachine.value (.constant a) = wholeWorld.literal a :=
  wholeWorld.literal_congr _ _ a.key_key

/-- Stores a constant at a constant address. -/
def storing (id address offset value : Int) : List DataInstr :=
  [{ label := .code id, op := .const, arg := .literal (.i32 address) },
    { label := .code (id + 1), op := .const, arg := .literal (.i32 value) },
    { label := .code (id + 2), op := .store, arg := .int offset }]

/-- Before the cell 4 is stored to again, what is known of it is right. The store to the cell 8 in between does not
matter. -/
theorem known_memory_holds_between_stores : ∃ s notes x y,
    runData {} (storing 0 0 4 1 ++ storing 3 8 0 2) (.known {}) = .ok (.known s, notes) ∧
    performAll wholeWorld (storing 0 0 4 1 ++ storing 3 8 0 2) zeroMachine = some x ∧
    performAll wholeWorld (storing 6 4 0 3) x = some y ∧
    bindingsSince (bindings (storing 0 0 4 1 ++ storing 3 8 0 2) notes) (.constant (.literal (.i32 0)), 4) =
      [((.constant (.literal (.i32 8)), 0), .constant (.literal (.i32 2)))] ∧
    s.lookup (.constant (.literal (.i32 0))) 4 = .constant (.literal (.i32 1)) ∧
    x.memory (wholeWorld.address (y.value (.constant (.literal (.i32 0)))) + 4) =
      y.value (.constant (.literal (.i32 1))) := by
  have hlabels : ((storing 0 0 4 1 ++ storing 3 8 0 2 ++ storing 6 4 0 3).map DataInstr.label).Nodup := by decide
  have hforeign : ∀ i ∈ storing 0 0 4 1 ++ storing 3 8 0 2 ++ storing 6 4 0 3,
      ¬ State.Mentions {} (.pushed i.label) := by
    rintro i - ⟨v, hv, -⟩
    cases hv
  have hrun : ∃ s notes, runData {} (storing 0 0 4 1 ++ storing 3 8 0 2) (.known {}) = .ok (.known s, notes) ∧
      s.memory.find? (.constant (.literal (.i32 0)), 4) = some (.constant (.literal (.i32 1))) ∧
      bindingsSince (bindings (storing 0 0 4 1 ++ storing 3 8 0 2) notes) (.constant (.literal (.i32 0)), 4) =
        [((.constant (.literal (.i32 8)), 0), .constant (.literal (.i32 2)))] := ⟨_, _, rfl, by decide, by decide⟩
  have hexec : ∃ x y, performAll wholeWorld (storing 0 0 4 1 ++ storing 3 8 0 2) zeroMachine = some x ∧
      performAll wholeWorld (storing 6 4 0 3) x = some y ∧ y.value (.constant (.literal (.i32 0))) = 0 ∧
      y.value (.constant (.literal (.i32 8))) = 8 := ⟨_, _, rfl, rfl, by decide, by decide⟩
  obtain ⟨s, notes, hs, hknown, hsince⟩ := hrun
  obtain ⟨x, y, hx, hy, hzero, hother⟩ := hexec
  obtain ⟨hlookup, hiff⟩ := known_memory_holds_iff wholeWorld hlabels rfl hforeign zeroMachine_matches
    zeroMachine_value_constant hs hx hy hknown
  refine ⟨s, notes, x, y, hs, hx, hy, hsince, hlookup, hiff.mpr fun e he => ?_⟩
  simp [hsince, hzero, hother, wholeWorld] at he

/-- Stores 1 at the address 0 with the offset 4, and then 2 at the address 4. -/
def storeTwice : List DataInstr := storing 0 0 4 1 ++ storing 3 4 0 2

/-- After the second store the cell 4 holds 2. The state still binds the offset 4 from the address 0 to 1. -/
theorem overwritten_binding_is_kept : ∃ s notes x, (storeTwice.map DataInstr.label).Nodup ∧ zeroMachine.Matches {} ∧
    (∀ a, zeroMachine.value (.constant a) = wholeWorld.literal a) ∧
    runData {} storeTwice (.known {}) = .ok (.known s, notes) ∧
    performAll wholeWorld storeTwice zeroMachine = some x ∧
    s.lookup (.constant (.literal (.i32 0))) 4 = .constant (.literal (.i32 1)) ∧
    s.memory.find? (.constant (.literal (.i32 0)), 4) = some (.constant (.literal (.i32 1))) ∧
    x.memory (wholeWorld.address (x.value (.constant (.literal (.i32 0)))) + 4) = 2 ∧
    x.value (.constant (.literal (.i32 1))) = 1 :=
  ⟨_, _, _, by decide, zeroMachine_matches, zeroMachine_value_constant, rfl, rfl, by decide, by decide, by decide,
    by decide⟩

end Backslice
