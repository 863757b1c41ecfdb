import Backslice.Proofs.History
import Backslice.Proofs.Numbering
import Backslice.Proofs.Parametric

/-! # What every run keeps to

Whether a run has converged or not, something is known in front of each block that it visits, all states that it records
have the locals and globals of the function, and the names in them come from the graph. The visiting order is what makes
this work: a block stands behind one that leads to it, which has been visited by then, and from which the stack at the
start of the block has its height. -/

namespace Backslice

set_option autoImplicit false

/-! ## A fault that only join points raise -/

/-- The computation does not fail because nothing is known in front of a join point. -/
def Informed {α : Type} (x : Except Fault α) : Prop := ∀ block, x ≠ .error (.unanalyzed block)

namespace Informed

variable {α β : Type}

theorem pure (a : α) : Informed (Pure.pure a : Except Fault α) := fun _ h => by cases h

theorem throw {e : Fault} (he : ∀ block, e ≠ .unanalyzed block) : Informed (MonadExcept.throw e : Except Fault α) :=
  fun block h => he block (Except.error.inj h)

theorem bind_ok {x : Except Fault α} {f : α → Except Fault β} (hx : Informed x)
    (hf : ∀ a, x = .ok a → Informed (f a)) : Informed (x >>= f) := by
  cases x with
  | error e => exact fun block h => hx block (congrArg Except.error (Except.error.inj h))
  | ok a => exact hf a rfl

theorem bind {x : Except Fault α} {f : α → Except Fault β} (hx : Informed x) (hf : ∀ a, Informed (f a)) :
    Informed (x >>= f) :=
  hx.bind_ok fun a _ => hf a

theorem ite {p : Prop} [Decidable p] {x y : Except Fault α} (hx : Informed x) (hy : Informed y) :
    Informed (if p then x else y) := by
  split
  · exact hx
  · exact hy

theorem forM {f : α → Except Fault PUnit} (hf : ∀ a, Informed (f a)) (l : List α) : Informed (l.forM f) := by
  induction l with
  | nil => exact .pure _
  | cons a l ih => exact (hf a).bind fun _ => ih

end Informed

section
variable (s : State) (site : String)

theorem State.require_informed (n : Int) : Informed (s.require n site) := .ite (.throw (by simp)) (.pure _)

theorem State.drop_informed (n : Int) : Informed (s.drop n site) := (s.require_informed site n).bind fun _ => .pure _

theorem State.top_informed (n : Int) : Informed (s.top n site) := (s.require_informed site n).bind fun _ => .pure _

theorem State.pop_informed : Informed (s.pop site) := by
  unfold State.pop
  split
  · exact .pure _
  · exact .throw (by simp)

theorem State.setAt_informed (vs : List Var) (index : Int) (v : Var) : Informed (State.setAt vs index v) :=
  .ite (.pure _) (.throw (by simp))

theorem State.valueAt_informed (vs : List Var) (index : Int) : Informed (State.valueAt vs index) := by
  unfold State.valueAt
  split
  · exact .pure _
  · exact .throw (by split <;> simp)

end

theorem DataInstr.apply_informed (c : Config) (i : DataInstr) (s : State) : Informed (i.apply c s) := by
  have hsource : Informed i.source := by
    unfold DataInstr.source
    split
    · exact .pure _
    · exact .throw (by simp)
  have htarget : Informed i.target := by
    unfold DataInstr.target
    split
    · exact .pure _
    · exact .throw (by simp)
  have hcompute : ∀ n, Informed (i.compute n s) := fun n => (s.drop_informed i.text n).bind fun _ => .pure _
  have hread : ∀ places, Informed (do return s.push (← State.valueAt places (← i.source)) : Except Fault State) :=
    fun places => hsource.bind fun _ => (State.valueAt_informed places _).bind fun _ => .pure _
  have hlocal : ∀ (t : State) n v, Informed (t.setLocal n v) :=
    fun t n v => (State.setAt_informed t.locals n v).bind fun _ => .pure _
  have hglobal : ∀ (t : State) n v, Informed (t.setGlobal n v) :=
    fun t n v => (State.setAt_informed t.globals n v).bind fun _ => .pure _
  have hstore : Informed (i.storeOperands s) := by
    unfold DataInstr.storeOperands
    split
    · exact .pure _
    · exact .throw (by simp)
  unfold DataInstr.apply
  cases i.op with
  | nop => exact .pure s
  | memorySize => exact hcompute 0
  | memoryGrow | unary | test | convert | load => exact hcompute 1
  | binary | compare => exact hcompute 2
  | select => exact hcompute 3
  | drop => exact s.drop_informed i.text 1
  | localGet => exact .ite (hread s.locals) (.pure _)
  | localSet => exact (s.pop_informed i.text).bind fun _ => htarget.bind fun _ => hlocal _ _ _
  | localTee => exact (s.pop_informed i.text).bind fun _ => htarget.bind fun _ => hlocal _ _ _
  | globalGet => exact .ite (hread s.globals) (.pure _)
  | globalSet => exact (s.pop_informed i.text).bind fun _ => htarget.bind fun _ => hglobal _ _ _
  | const => exact .pure _
  | store => exact hstore.bind fun _ => .pure _

theorem ControlInstr.transfer_informed (sig : Signature) (i : ControlInstr) (f : Flow) :
    Informed (i.transfer sig f) := by
  have hcall : ∀ n, Informed (i.applyCall n f.state) := fun n => (f.state.drop_informed i.text n).bind fun _ => .pure _
  unfold ControlInstr.transfer
  cases i.op with
  | call => exact (hcall _).bind fun _ => .pure _
  | callIndirect => exact (hcall _).bind fun _ => .pure _
  | br => exact .pure _
  | brIf | cond => exact (f.state.drop_informed i.text 1).bind fun _ => .pure _
  | brTable => exact (f.state.drop_informed i.text 1).bind fun _ => .pure _
  | ret => exact .ite ((f.state.top_informed i.text 1).bind fun _ => .pure _) (.pure _)
  | unreachable => exact .pure _
  | block | loop => exact .throw (by simp)

theorem runData_informed (c : Config) (is : List DataInstr) (f : Flow) : Informed (runData c is f) := by
  induction is generalizing f with
  | nil => exact .pure _
  | cons i rest ih =>
    have htransfer : Informed (i.transfer c f) := .ite (.pure f) ((i.apply_informed c f.state).bind fun _ => .pure _)
    exact htransfer.bind fun after => (ih after).bind fun _ => .pure _

namespace Graph
variable {g : Graph} {c : Config} {index : Int} {b : Block} {flows : List Flow}

theorem merge_informed (hin : flows = [] ∨ flows.filterMap Flow.state? ≠ []) : Informed (g.merge index b flows) := by
  have hshapes : ∀ first other, Informed (State.requireShape index first other) :=
    fun first other => .forM (fun _ => .ite (.pure _) (.throw (by simp))) _
  have hjoin : Informed (g.joinFlows index flows) := by
    unfold joinFlows
    split
    · exact .pure _
    · exact .pure _
    · rename_i hnil _
      split
      · rename_i hnone
        exact (hin.elim hnil fun hne => hne hnone).elim
      · exact .pure _
      · exact (Informed.bind (.forM (hshapes _) _) fun _ => .pure _).bind fun _ => .pure _
  unfold merge
  refine .ite (hjoin.bind fun _ => .pure _) ?_
  split
  · exact .pure _
  · exact .pure _
  · exact .throw (by simp)

theorem visit_informed (hin : flows = [] ∨ flows.filterMap Flow.state? ≠ []) :
    Informed (g.visit c index b flows) := by
  unfold visit
  refine (merge_informed hin).bind fun start => ?_
  split
  · exact .pure _
  · exact (ControlInstr.transfer_informed g.signature _ start).bind fun _ => .pure _
  · exact (runData_informed c _ start).bind fun _ => .pure _

end Graph

section
variable {g : Graph} {c : Config} {index : Int}

theorem Run.step_informed (hg : g.Connected) {r : Run} (hr : r.Underway g) {rest : List Int}
    (hp : r.pending = index :: rest) : Informed (r.step g c g.order index rest) := by
  unfold Run.step
  have hfind : Informed (g.findBlock index) := by
    unfold Graph.findBlock
    split
    · exact .pure _
    · exact .throw (by simp)
  refine hfind.bind fun b => ?_
  exact (Graph.visit_informed ((hr.known_incoming hg hp).imp_left fun hnil => hnil.1)).bind fun _ => .pure _

theorem Run.advance_informed (hg : g.Connected) (limit : Nat) {r : Run} (hr : r.Underway g) :
    Informed (Run.advance g c g.order limit r) := by
  induction limit generalizing r with
  | zero => exact .pure r
  | succ limit ih =>
    unfold Run.advance
    split
    · exact .pure r
    · rename_i index rest hp
      refine (Run.step_informed hg hr hp).bind_ok fun r' hr' => ih ?_
      obtain ⟨b, v, -, hv, rfl⟩ := Run.step_eq_ok.mp hr'
      exact hr.record hg hp hv

end

/-! ## States of a graph -/

namespace Graph

/-- The names that may stand in a state: those of the start, what an instruction of the graph pushes, constants, the
result, and what a join point of the graph makes, with a positive number. -/
def Owns (g : Graph) : Var → Prop
  | .pushed site => ∃ i ∈ g.instrs, i.label = site
  | .phi block n => (∃ b, g.blocks.find? block = some b ∧ b.isMerge = true) ∧ 1 ≤ n
  | .cell _ _ | .hole => False
  | .entryLocal _ | .entryGlobal _ | .constant _ | .returned => True

/-- The state has the locals and the globals of the function, and its names come from the graph. -/
structure Houses (g : Graph) (s : State) : Prop where
  locals : s.locals.length = g.signature.localCount
  globals : s.globals.length = g.signature.globals.length
  names : ∀ v ∈ s.vars, g.Owns v

/-- What is known is known in full: there are states before and after, and they are states of the graph. -/
def Records (g : Graph) (note : Note) : Prop :=
  ∃ s t, note = ⟨.known s, .known t⟩ ∧ g.Houses s ∧ g.Houses t

variable {g : Graph} {c : Config} {r : Run} {k : Nat} {index : Int} {b : Block} {v : Visit} {s t : State}

theorem owns_of_key_eq {x y : Var} (h : x.key = y.key) (hx : g.Owns x) : g.Owns y := by
  cases x <;> cases y <;> simp_all [Var.key, Owns]

theorem Houses.mentions (h : g.Houses s) {x : Var} (hx : s.Mentions x) : g.Owns x := by
  obtain ⟨y, hy, hyx⟩ := hx
  exact owns_of_key_eq hyx (h.names y hy)

theorem Houses.whole (h : g.Houses s) : s.Whole :=
  fun _ hp => h.names .hole (State.mem_vars_of_nameAt hp)

theorem houses_entryState (g : Graph) : g.Houses g.signature.entryState where
  locals := by simp [Signature.entryState, State.entry]
  globals := by simp [Signature.entryState, State.entry]
  names v hv := by
    rw [State.mem_vars] at hv
    rcases hv with hv | hv | hv | ⟨e, he, _⟩
    · cases hv
    · obtain ⟨i, -, rfl⟩ := List.mem_map.mp hv
      trivial
    · obtain ⟨i, -, rfl⟩ := List.mem_map.mp hv
      trivial
    · cases he

theorem owns_of_makes {i : Instr} (hi : i ∈ g.instrs) {x : Var} (hx : i.Makes x) : g.Owns x := by
  rcases hx with rfl | ⟨d, -, -, hx⟩
  · exact ⟨i, hi, rfl⟩
  · exact owns_of_key_eq (Var.beq_iff.mp hx).symm trivial

theorem Houses.step {i : Instr} (hi : i ∈ g.instrs) (h : g.Houses s) (heffect : i.Effect g.signature c s t) :
    g.Houses t where
  locals := heffect.lengths.1.trans h.locals
  globals := heffect.lengths.2.trans h.globals
  names x hx := by
    rcases heffect.mentions (State.mentions_of_mem hx) with hs | hmakes
    · exact h.mentions hs
    · exact owns_of_makes hi hmakes

theorem Houses.run {is : List Instr} {notes : List (Label × Note)} (his : ∀ i ∈ is, i ∈ g.instrs) (h : g.Houses s)
    (hsteps : Steps g.signature c is s notes t) : g.Houses t ∧ ∀ e ∈ notes, g.Records e.2 := by
  induction hsteps with
  | nil => exact ⟨h, fun e he => by cases he⟩
  | cons hi _ ih =>
    obtain ⟨hfirst, hrest⟩ := List.forall_mem_cons.mp his
    have hu := h.step hfirst hi
    obtain ⟨ht, hnotes⟩ := ih hrest hu
    exact ⟨ht, List.forall_mem_cons.mpr ⟨⟨_, _, rfl, h, hu⟩, hnotes⟩⟩

/-- A state behind a join point is a state of the graph if those in front of it are. -/
theorem Houses.merge {flows : List Flow} (hb : g.blocks.find? index = some b) (hm : b.isMerge = true)
    (hne : flows.filterMap Flow.state? ≠ []) (h : ∀ s ∈ flows.filterMap Flow.state?, g.Houses s)
    (hmerge : g.merge index b flows = .ok (.known t)) : g.Houses t := by
  obtain ⟨t', ht', hjoined⟩ := merge_joined hm hne hmerge
  cases ht'
  obtain ⟨s, hs⟩ := List.exists_mem_of_ne_nil _ hne
  have hshape := hjoined.shape s hs
  refine ⟨?_, ?_, fun x hx => ?_⟩
  · exact (State.length_locals_of_shape hshape).symm.trans (h s hs).locals
  · exact (State.length_globals_of_shape hshape).symm.trans (h s hs).globals
  · rcases State.mentions_iff.mp (State.mentions_of_mem hx) with ⟨p, w, hp, hwx⟩ | ⟨slot, w, hslot, hx⟩
    · refine owns_of_key_eq hwx ?_
      rcases nameAt_merge_cases hm hne (fun s hs => (h s hs).whole) hmerge hp with
        ⟨-, rfl⟩ | ⟨-, hagree | ⟨-, n, hn, rfl⟩⟩
      · trivial
      · obtain ⟨y, hy, hyw⟩ := hagree s hs
        exact owns_of_key_eq hyw ((h s hs).names y (State.mem_vars_of_nameAt hy))
      · exact ⟨⟨b, hb, hm⟩, by omega⟩
    · obtain ⟨y, hy⟩ := hjoined.bound (.memory slot) w hslot s hs
      exact (h s hs).mentions (State.mentions_iff.mpr (Or.inr ⟨slot, y, hy, hx⟩))

/-! ## Visits -/

theorem Houses.start {flows : List Flow} (hb : g.blocks.find? index = some b)
    (hin : ∀ s ∈ flows.filterMap Flow.state?, g.Houses s) (hmerge : g.merge index b flows = .ok (.known s))
    (hstarts : g.Starts index b (flows.filterMap Flow.state?) s) : g.Houses s := by
  generalize hinputs : flows.filterMap Flow.state? = inputs at hstarts
  cases hstarts with
  | entry => exact houses_entryState g
  | join hne _ hone =>
    subst hinputs
    cases hm : b.isMerge with
    | true => exact Houses.merge hb hm hne hin hmerge
    | false => exact hin s (by rw [hone hm]; exact List.mem_singleton_self s)

/-- A visit that comes upon states of the graph records and leaves such states. -/
theorem VisitAt.houses_of_incoming (hg : g.Connected) (h : g.VisitAt c k r index b v)
    (hin : ∀ s ∈ (g.incoming r.outcomes index).filterMap Flow.state?, g.Houses s) :
    g.Records v.note ∧ (∀ e ∈ v.instrs, g.Records e.2) ∧ ∃ t, g.Houses t ∧ ∀ cond, v.outcome.along cond = .known t := by
  obtain ⟨s, t, hmerge, hstarts, hfound⟩ := h.runs hg
  have hs : g.Houses s := Houses.start h.block hin hmerge hstarts
  obtain ⟨ht, hnotes⟩ := hs.run (fun i hi => mem_instrs h.block hi) hfound.runs
  refine ⟨?_, hnotes, t, ht, hfound.along⟩
  cases hm : b.isMerge with
  | false =>
    refine ⟨s, t, ?_, hs, ht⟩
    rw [← hfound.before hm, ← hfound.after]
  | true =>
    obtain ⟨u, hu, hinput⟩ := hfound.before_merge hm
    refine ⟨u, t, by rw [← hu, ← hfound.after], ?_, ht⟩
    rcases hinput with hmem | ⟨-, rfl⟩
    · exact hin u hmem
    · exact hs

theorem mem_incoming {outcomes : Table Int Outcome} {s : State}
    (hs : s ∈ (g.incoming outcomes index).filterMap Flow.state?) :
    ∃ e o, e ∈ g.predecessors index ∧ outcomes.find? e.target = some o ∧ o.along e.cond = .known s := by
  obtain ⟨f, hf, hfs⟩ := List.mem_filterMap.mp hs
  obtain ⟨e, he, rfl⟩ := List.mem_map.mp hf
  cases ho : outcomes.find? e.target with
  | none => simp [ho, Flow.state?] at hfs
  | some o => exact ⟨e, o, he, ho, by simpa [ho, Flow.state?_eq_some] using hfs⟩

/-- Every visit comes upon states of the graph, and records only such. -/
theorem VisitAt.houses (hg : g.Connected) (h : g.VisitAt c k r index b v) :
    (∀ s ∈ (g.incoming r.outcomes index).filterMap Flow.state?, g.Houses s) ∧
      g.Records v.note ∧ (∀ e ∈ v.instrs, g.Records e.2) ∧
      ∃ t, g.Houses t ∧ ∀ cond, v.outcome.along cond = .known t := by
  -- What comes in was left on visits before this one.
  induction k using Nat.strongRecOn generalizing r index b v with
  | ind k ih =>
    have hin : ∀ s ∈ (g.incoming r.outcomes index).filterMap Flow.state?, g.Houses s := by
      intro s hs
      obtain ⟨e, o, -, ho, hes⟩ := mem_incoming hs
      obtain ⟨j, hj, x, b', v', hv', rfl, -⟩ := exists_visit h.solve ho
      obtain ⟨-, -, -, t, ht, halong⟩ := ih j hj hv'
      rw [halong] at hes
      exact Flow.known.inj hes ▸ ht
    exact ⟨hin, h.houses_of_incoming hg hin⟩

theorem whole_of_exits (hg : g.Connected) {limit : Nat} (hr : g.solve c limit = .ok r) (ht : r.Exits index t) :
    t.Whole := by
  obtain ⟨note, hnote, hafter⟩ := ht
  obtain ⟨j, -, x, b, v, hv, rfl⟩ := exists_visit_of_note hr hnote
  obtain ⟨s, t', hrecords, -, ht'⟩ := (hv.houses hg).2.1
  rw [hrecords] at hafter
  exact Flow.known.inj hafter ▸ ht'.whole

/-- No state that comes into a block has a place that waits for a name. -/
theorem Settled.whole_of_input (hg : g.Connected) {limit : Nat} (hr : g.solve c limit = .ok r) {inputs : List State}
    {notes : List (Label × Note)} (h : g.Settled c r index b inputs s t notes) {u : State} (hu : u ∈ inputs) :
    u.Whole := by
  obtain ⟨e, -, t', ht', hut⟩ := h.pred_of_input hu
  exact State.whole_of_beq hut (whole_of_exits hg hr ht')

/-! ## The height of the stack -/

/-- On a visit after `k` others the block `index` starts from what is known in `f`. -/
def EntersAt (g : Graph) (c : Config) (k : Nat) (index : Int) (f : Flow) : Prop :=
  ∃ r rest b, g.solve c k = .ok r ∧ r.pending = index :: rest ∧ g.blocks.find? index = some b ∧
    g.merge index b (g.incoming r.outcomes index) = .ok f

theorem EntersAt.known (hg : g.Connected) {f : Flow} (h : g.EntersAt c k index f) :
    ∃ s, f = .known s ∧ (index = g.entry → s.stack.length = 0) := by
  obtain ⟨r, rest, b, hr, hp, hb, hmerge⟩ := h
  rcases (Run.Underway.of_solve hg hr).known_incoming hg hp with ⟨hnil, -⟩ | hne
  · rw [hnil, merge_nil] at hmerge
    exact ⟨_, (Except.ok.inj hmerge).symm, fun _ => rfl⟩
  · obtain ⟨s, rfl, -⟩ := starts_of_merge hne hmerge
    refine ⟨s, rfl, fun hentry => absurd ?_ hne⟩
    rw [incoming, hentry, hg.entry_free]
    rfl

/-- Behind a block that comes first in the visiting order, a block starts with the stack that it has left on a visit. -/
theorem EntersAt.height_of_parent (hg : g.Connected) {pre post : List Int} (horder : g.order = pre ++ index :: post)
    {u : Int} (hu : u ∈ pre) (hsucc : index ∈ g.successors u) (h : g.EntersAt c k index (.known s)) :
    ∃ j bᵤ sᵤ tᵤ notes, g.blocks.find? u = some bᵤ ∧ g.EntersAt c j u (.known sᵤ) ∧ g.Houses sᵤ ∧
      Steps g.signature c bᵤ.instrs sᵤ notes tᵤ ∧ s.stack.length = tᵤ.stack.length := by
  obtain ⟨r, rest, b, hr, hp, hb, hmerge⟩ := h
  have hunderway := Run.Underway.of_solve hg hr
  obtain ⟨o, ho⟩ := hunderway.visited_before hg hp horder hu
  obtain ⟨j, -, x, bᵤ, v, hv, rfl, -⟩ := exists_visit hr ho
  obtain ⟨sᵤ, tᵤ, hmergeᵤ, hstartsᵤ, hfoundᵤ⟩ := hv.runs hg
  have henters : g.EntersAt c j u (.known sᵤ) := by
    obtain ⟨restᵤ, hpᵤ⟩ := hv.pending
    exact ⟨x, restᵤ, bᵤ, hv.solve, hpᵤ, hv.block, hmergeᵤ⟩
  refine ⟨j, bᵤ, sᵤ, tᵤ, v.instrs, hv.block, henters, Houses.start hv.block (hv.houses hg).1 hmergeᵤ hstartsᵤ,
    hfoundᵤ.runs, ?_⟩
  obtain ⟨cond, hpred⟩ := hg.exists_predecessor hsucc
  have hmem : tᵤ ∈ (g.incoming r.outcomes index).filterMap Flow.state? := by
    refine List.mem_filterMap.mpr ⟨.known tᵤ, List.mem_map.mpr ⟨⟨u, cond⟩, hpred, ?_⟩, rfl⟩
    simp only [ho, hfoundᵤ.along]
  obtain ⟨s', hs', hstarts⟩ := starts_of_merge (List.ne_nil_of_mem hmem) hmerge
  cases hs'
  exact (State.length_stack_of_shape (hstarts.shape hmem)).symm

/-- The stack at the start of a block has the same height on all visits. -/
theorem EntersAt.height_unique (hg : g.Connected) {k' : Nat} {s' : State} (h : g.EntersAt c k index (.known s))
    (h' : g.EntersAt c k' index (.known s')) : s.stack.length = s'.stack.length := by
  have hindex : index ∈ g.order := by
    obtain ⟨r, rest, b, hr, hp, -, -⟩ := h
    exact (Run.Underway.of_solve hg hr).pending.subset (hp ▸ List.mem_cons_self ..)
  obtain ⟨pre, post, horder⟩ := List.append_of_mem hindex
  -- Induction on the place in the visiting order: the block that leads here stands further to the front.
  induction hn : pre.length using Nat.strongRecOn generalizing index pre post k k' s s' with
  | ind n ih =>
    obtain ⟨x, hx, hzero⟩ := h.known hg
    obtain ⟨x', hx', hzero'⟩ := h'.known hg
    cases hx
    cases hx'
    rcases hg.order_parent horder with hentry | ⟨u, hu, hsucc⟩
    · rw [hzero hentry, hzero' hentry]
    · obtain ⟨j, bᵤ, sᵤ, tᵤ, notes, hbᵤ, henters, hhouses, hsteps, hheight⟩ := h.height_of_parent hg horder hu hsucc
      obtain ⟨j', bᵤ', sᵤ', tᵤ', notes', hbᵤ', henters', hhouses', hsteps', hheight'⟩ :=
        h'.height_of_parent hg horder hu hsucc
      obtain rfl : bᵤ = bᵤ' := Option.some.inj (hbᵤ.symm.trans hbᵤ')
      obtain ⟨pre₁, pre₂, rfl⟩ := List.append_of_mem hu
      have hshorter : pre₁.length < n := by
        rw [← hn, List.length_append, List.length_cons]
        omega
      have horderᵤ : g.order = pre₁ ++ u :: (pre₂ ++ index :: post) := by
        rw [horder, List.append_assoc]
        rfl
      have hstart : sᵤ.stack.length = sᵤ'.stack.length :=
        ih pre₁.length hshorter henters henters' (horderᵤ ▸ by simp) pre₁ _ horderᵤ rfl
      have hshape : sᵤ'.partLength = sᵤ.partLength := State.partLength_ext hstart.symm
        (hhouses'.locals.trans hhouses.locals.symm) (hhouses'.globals.trans hhouses.globals.symm)
      calc s.stack.length = tᵤ.stack.length := hheight
        _ = tᵤ'.stack.length := (State.length_stack_of_shape (hsteps.shape_eq hsteps' hshape)).symm
        _ = s'.stack.length := hheight'.symm

/-! ## All runs -/

/-- However many visits a run has made: in front of each block but the entry something is known when it is visited, so
that the analysis does not fail for want of it; all states that are recorded are known, and they are states of the
graph; and the stack at the start of a block has the same height on all visits. -/
theorem run_shape_and_origin (hg : g.WellFormed) (c : Config) :
    (∀ k r index rest, g.solve c k = .ok r → r.pending = index :: rest → index ≠ g.entry →
      ∃ s, Flow.known s ∈ g.incoming r.outcomes index) ∧
    (∀ k block, g.solve c k ≠ .error (.unanalyzed block)) ∧
    (∀ k r, g.solve c k = .ok r → (∀ index note, r.blocks.find? index = some note → g.Records note) ∧
      ∀ label note, r.instrs.find? label = some note → g.Records note) ∧
    ∀ index k k' f f', g.EntersAt c k index f → g.EntersAt c k' index f' →
      ∃ s s', f = .known s ∧ f' = .known s' ∧ s.stack.length = s'.stack.length := by
  have hg := hg.connected
  refine ⟨fun k r index rest hr hp hne => ?_, fun k => ?_, fun k r hr => ⟨fun index note hnote => ?_,
    fun label note hnote => ?_⟩, fun index k k' f f' h h' => ?_⟩
  · rcases (Run.Underway.of_solve hg hr).known_incoming hg hp with ⟨-, hentry⟩ | hknown
    · exact absurd hentry hne
    · obtain ⟨s, hs⟩ := List.exists_mem_of_ne_nil _ hknown
      obtain ⟨f, hf, hfs⟩ := List.mem_filterMap.mp hs
      exact ⟨s, Flow.state?_eq_some.mp hfs ▸ hf⟩
  · exact Run.advance_informed hg k (Run.underway_start g)
  · obtain ⟨j, -, x, b, v, hv, rfl⟩ := exists_visit_of_note hr hnote
    exact (hv.houses hg).2.1
  · obtain ⟨j, -, x, u, b, v, hv, hmem⟩ := exists_visit_of_instr hr hnote
    exact (hv.houses hg).2.2.1 _ hmem
  · obtain ⟨s, rfl, -⟩ := h.known hg
    obtain ⟨s', rfl, -⟩ := h'.known hg
    exact ⟨s, s', rfl, rfl, h.height_unique hg h'⟩

/-- The countdown, stopped in the middle of its first turn. -/
theorem run_shape_and_origin_countdown : ∃ r, countdown.solve {} 4 = .ok r ∧ r.converged = false ∧
    ∀ index note, r.blocks.find? index = some note → countdown.Records note := by
  obtain ⟨_, hlast, -⟩ := converges_iff.mp (show countdown.converges {} 20 = true by decide +kernel)
  obtain ⟨r, hr⟩ := solve_ok_of_le (show 4 ≤ 20 by decide) hlast
  refine ⟨r, hr, Bool.eq_false_iff.mpr fun hconv => ?_, ?_⟩
  · have hnot : countdown.converges {} 4 = false := by decide +kernel
    rw [converges_iff.mpr ⟨r, hr, hconv⟩] at hnot
    cases hnot
  · exact ((run_shape_and_origin countdown_wellFormed {}).2.2.1 4 r hr).1

end Graph
end Backslice
