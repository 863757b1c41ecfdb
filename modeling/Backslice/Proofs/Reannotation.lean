import Backslice.Proofs.Annotated

/-! # Annotations from an earlier analysis

An analysis reads the code of a graph and not its annotations, so what a graph brings along has no influence on the run. The
run replaces the annotations of what it has visited and leaves the others where they are. A run that has converged has been
everywhere; one that has hit its limit has not, and then states of two analyses may stand side by side. -/

namespace Backslice

set_option autoImplicit false

/-! ## Nothing reads an annotation -/

theorem runData_clear (c : Config) (is : List DataInstr) (f : Flow) :
    runData c (is.map fun i => { i with note := none }) f = runData c is f := by
  induction is generalizing f with
  | nil => rfl
  | cons i rest ih =>
    have htransfer : ({ i with note := none } : DataInstr).transfer c f = i.transfer c f := rfl
    simp only [List.map_cons, runData, htransfer, ih]

namespace Graph

variable (g : Graph) (c : Config)

@[simp] theorem find?_clear (index : Int) : g.clear.blocks.find? index = (g.blocks.find? index).map Block.clear :=
  Table.find?_map_of_lawful g.blocks _ index

theorem visit_clear (index : Int) (b : Block) (flows : List Flow) :
    g.clear.visit c index b.clear flows = g.visit c index b flows := by
  have hmerge : g.clear.merge index b.clear flows = g.merge index b flows := by
    have hb : b.clear.isMerge = b.isMerge := by
      cases hbody : b.body <;> simp [Block.clear, Block.isMerge, hbody]
    unfold merge
    rw [hb]
    rfl
  have htransfer : ∀ (i : ControlInstr) (f : Flow),
      ({ i with note := none } : ControlInstr).transfer g.clear.signature f = i.transfer g.signature f :=
    fun _ _ => rfl
  unfold visit
  rw [hmerge]
  cases hbody : b.body <;> simp only [Block.clear, hbody, runData_clear, htransfer]

theorem step_clear (order : List Int) (r : Run) (index : Int) (rest : List Int) :
    r.step g.clear c order index rest = r.step g c order index rest := by
  unfold Run.step findBlock
  rw [find?_clear]
  cases g.blocks.find? index with
  | none => rfl
  | some b =>
    have hvisit := g.visit_clear c index b (g.incoming r.outcomes index)
    exact congrArg (fun x => x >>= fun v => pure (r.record g order index rest v)) hvisit

theorem advance_clear (order : List Int) (limit : Nat) (r : Run) :
    Run.advance g.clear c order limit r = Run.advance g c order limit r := by
  induction limit generalizing r with
  | zero => rfl
  | succ limit ih =>
    rw [Run.advance, Run.advance]
    split
    · rfl
    · rw [step_clear]
      exact congrArg _ (funext ih)

theorem order_clear : g.clear.order = g.order := by
  have hkeys : g.clear.blocks.keys = g.blocks.keys := by simp [clear, Table.keys]
  have hblock : g.clear.hasBlock = g.hasBlock := by
    funext index
    rw [Bool.eq_iff_iff, hasBlock_iff_mem_keys, hasBlock_iff_mem_keys, hkeys]
  have hsucc : g.clear.blockSuccessors = g.blockSuccessors := by
    funext index
    rw [blockSuccessors, hblock]
    rfl
  have hsize : g.clear.blocks.size = g.blocks.size := by simp [clear, Table.size]
  have hindices : g.clear.indices = g.indices := by rw [indices, hkeys, indices]
  have hentry : g.clear.entry = g.entry := rfl
  unfold order
  rw [hblock, hsucc, hsize, hindices, hentry]

/-- The run is the same whatever annotations the graph brings along. -/
theorem solve_clear (limit : Nat) : g.clear.solve c limit = g.solve c limit := by
  rw [solve, order_clear, advance_clear, solve]

end Graph

/-! ## What a run records -/

namespace Run

variable {g : Graph} {c : Config} {r : Run}

/-- Every block that is not pending has recorded states, and so have its instructions. -/
def Covers (g : Graph) (r : Run) : Prop := ∀ index b, g.blocks.find? index = some b → index ∉ r.pending →
  r.blocks.contains index = true ∧ ∀ i ∈ b.instrs, r.instrs.contains i.label = true

theorem Covers.record {index : Int} {rest : List Int} {b : Block} {v : Visit} (h : r.Covers g)
    (hp : r.pending = index :: rest) (hb : g.blocks.find? index = some b)
    (hv : g.visit c index b (g.incoming r.outcomes index) = .ok v) : (r.record g g.order index rest v).Covers g := by
  intro u bᵤ hbᵤ hu
  have horder : u ∈ g.order := Graph.mem_order_of_hasBlock (Graph.hasBlock_iff.mpr ⟨bᵤ, hbᵤ⟩)
  rw [mem_pending_record horder, not_or] at hu
  by_cases hindex : index = u
  · subst hindex
    obtain rfl : b = bᵤ := Option.some.inj (hb.symm.trans hbᵤ)
    refine ⟨by simp [Run.record], fun i hi => ?_⟩
    rw [Run.record, Table.contains_foldl_insert, visit_labels hv]
    exact Or.inl (List.mem_map_of_mem hi)
  · have hold : u ∉ r.pending := by simp [hp, hu.1, Ne.symm hindex]
    obtain ⟨hblock, hinstrs⟩ := h u bᵤ hbᵤ hold
    refine ⟨by simp [Run.record, hblock], fun i hi => ?_⟩
    rw [Run.record, Table.contains_foldl_insert]
    exact Or.inr (hinstrs i hi)

theorem Covers.of_solve {limit : Nat} (h : g.solve c limit = .ok r) : r.Covers g := by
  refine advance_keeps (Covers g) (fun r index rest r' hr hp hstep => ?_) limit ?_ h
  · obtain ⟨b, v, hb, hv, rfl⟩ := step_eq_ok.mp hstep
    exact hr.record hp hb hv
  · exact fun index b hb hnot => absurd (Graph.mem_order_of_hasBlock (Graph.hasBlock_iff.mpr ⟨b, hb⟩)) hnot

/-- The run has recorded states wherever the graph has an annotation. -/
structure Renews (r : Run) (g : Graph) : Prop where
  blocks : ∀ index b, g.blocks.find? index = some b → b.note ≠ none → r.blocks.contains index = true
  instrs : ∀ i ∈ g.instrs, i.note ≠ none → r.instrs.contains i.label = true

theorem Covers.renews (h : r.Covers g) (hconv : r.converged = true) : r.Renews g := by
  have hp : r.pending = [] := List.isEmpty_iff.mp hconv
  have hall := fun index b hb => h index b hb (by simp [hp])
  refine ⟨fun index b hb _ => (hall index b hb).1, fun i hi _ => ?_⟩
  obtain ⟨index, b, hb, hib⟩ := Graph.exists_block_of_mem_instrs hi
  exact (hall index b hb).2 i hib

end Run

/-! ## Annotations that stay -/

theorem or_eq_left_iff {α : Type} (o a : Option α) : o.or a = o ↔ (a ≠ none → o.isSome = true) := by
  cases o <;> cases a <;> simp

theorem Block.withRun_eq_clear_iff (r : Run) (index : Int) (b : Block) : b.withRun r index = b.clear.withRun r index ↔
    (b.note ≠ none → r.blocks.contains index = true) ∧
      ∀ i ∈ b.instrs, i.note ≠ none → r.instrs.contains i.label = true := by
  cases hbody : b.body <;>
    simp [withRun, annotateInstrs, clear, instrs, hbody, or_eq_left_iff, Table.contains_eq_isSome_find?,
      Instr.note, Instr.label, and_comm]

namespace Graph

theorem withRun_eq_clear_iff (g : Graph) (r : Run) : g.withRun r = g.clear.withRun r ↔ r.Renews g := by
  have hentries : g.withRun r = g.clear.withRun r ↔
      ∀ e ∈ g.blocks.entries, e.2.withRun r e.1 = e.2.clear.withRun r e.1 := by
    simp [withRun, annotate, clear, Table.map, Block.withRun, Function.comp_def]
  rw [hentries]
  simp only [Block.withRun_eq_clear_iff]
  constructor
  · intro h
    refine ⟨fun index b hb => (h (index, b) (Table.find?_eq_some_iff_mem.mp hb)).1, fun i hi => ?_⟩
    obtain ⟨index, b, hb, hib⟩ := exists_block_of_mem_instrs hi
    exact (h (index, b) (Table.find?_eq_some_iff_mem.mp hb)).2 i hib
  · intro h e he
    have hb : g.blocks.find? e.1 = some e.2 := Table.find?_eq_some_iff_mem.mpr he
    exact ⟨h.blocks e.1 e.2 hb, fun i hi => h.instrs i (mem_instrs hb hi)⟩

/-- Whatever annotations a graph brings along, its analysis fails as that of the bare graph does, or both succeed. They
then give the same graph exactly if the run has recorded states wherever there was an annotation, and this is so if the
run has converged. -/
theorem analysis_replaces_annotations (g : Graph) (c : Config) (limit : Nat) :
    (∃ e, g.analyze c limit = .error e ∧ g.clear.analyze c limit = .error e) ∨
      ∃ r h h', g.solve c limit = .ok r ∧ g.analyze c limit = .ok h ∧ g.clear.analyze c limit = .ok h' ∧
        (h = h' ↔ r.Renews g) ∧ (r.converged = true → h = h') := by
  unfold analyze
  rw [solve_clear]
  cases hr : g.solve c limit with
  | error e => exact Or.inl ⟨e, rfl, rfl⟩
  | ok r =>
    have hiff := g.withRun_eq_clear_iff r
    exact Or.inr ⟨r, _, _, rfl, rfl, rfl, hiff, fun hconv => hiff.mpr ((Run.Covers.of_solve hr).renews hconv)⟩

/-- A second analysis of the loop, with another configuration, leaves nothing of the first. -/
theorem analysis_replaces_annotations_countdown : ∃ g r h h', countdown.analyze { useConstants := false } 40 = .ok g ∧
    g ≠ g.clear ∧ g.solve {} 40 = .ok r ∧ r.converged = true ∧ g.analyze {} 40 = .ok h ∧
    g.clear.analyze {} 40 = .ok h' ∧ h = h' := by
  have hrun : (do
      let g ← countdown.analyze { useConstants := false } 40
      let r ← g.solve {} 40
      return decide (g ≠ g.clear ∧ r.converged = true) : Except Fault Bool) = .ok true := by
    decide +kernel
  obtain ⟨g, hg, hrun⟩ := bind_eq_ok.mp hrun
  obtain ⟨r, hr, hrun⟩ := bind_eq_ok.mp hrun
  obtain ⟨hne, hconv⟩ := of_decide_eq_true (pure_eq_ok.mp hrun)
  rcases analysis_replaces_annotations g {} 40 with ⟨e, he, -⟩ | ⟨r', h, h', hr', hh, hh', -, heq⟩
  · simp [analyze, hr, bind, Except.bind, pure, Except.pure] at he
  · obtain rfl : r = r' := Except.ok.inj (hr.symm.trans hr')
    exact ⟨g, r, h, h', hg, hne, hr, hconv, hh, hh', heq hconv⟩

/-- One block pushes a literal, the next one drops it. -/
def relay : Graph :=
  .ofArrows {}
    [(0, { body := .data [{ label := .code 0, op := .const, arg := .literal (.i32 5) }] }),
      (1, { body := .data [{ label := .code 1, op := .drop }] })]
    [{ source := 0, target := 1 }] 0 1 "relay" 0

/-- If the second analysis stops after the first block, the other one keeps the states of the first analysis. -/
theorem stopped_analysis_mixes_states : ∃ g h h', relay.analyze {} 2 = .ok g ∧
    g.analyze { useConstants := false } 1 = .ok h ∧ g.clear.analyze { useConstants := false } 1 = .ok h' ∧ h ≠ h' := by
  have hrun : (do
      let g ← relay.analyze {} 2
      let h ← g.analyze { useConstants := false } 1
      let h' ← g.clear.analyze { useConstants := false } 1
      return decide (h ≠ h') : Except Fault Bool) = .ok true := by
    decide +kernel
  obtain ⟨g, hg, hrun⟩ := bind_eq_ok.mp hrun
  obtain ⟨h, hh, hrun⟩ := bind_eq_ok.mp hrun
  obtain ⟨h', hh', hrun⟩ := bind_eq_ok.mp hrun
  exact ⟨g, h, h', hg, hh, hh', of_decide_eq_true (pure_eq_ok.mp hrun)⟩

end Graph
end Backslice
