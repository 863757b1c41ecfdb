import Backslice.Proofs.Solver

/-! # What a converged run has recorded

The recorded states solve the equations of the analysis. In front of a block stands what its predecessor leaves, or at a
join point what the last of its predecessors leaves. Behind a join point stands what the join makes of all that its
predecessors leave, and behind any other block what its instructions make of the state in front of it. -/

namespace Backslice

set_option autoImplicit false

/-! ## States around instructions -/

namespace Run

/-- The states recorded around the instructions lead from `f` to `last`, each by the effect of its instruction. -/
inductive Chained (c : Config) (r : Run) : List DataInstr → Flow → Flow → Prop
  | nil (f : Flow) : Chained c r [] f f
  | cons {i : DataInstr} {rest : List DataInstr} {f next last : Flow} (hi : i.transfer c f = .ok next)
      (hnote : r.instrs.find? i.label = some ⟨f, next⟩) (hrest : Chained c r rest next last) :
      Chained c r (i :: rest) f last

theorem chained_of_runData {c : Config} {r : Run} {is : List DataInstr} {f last : Flow} {notes : List (Label × Note)}
    (h : runData c is f = .ok (last, notes)) (hnotes : ∀ e ∈ notes, r.instrs.find? e.1 = some e.2) :
    r.Chained c is f last := by
  induction is generalizing f notes with
  | nil =>
    obtain ⟨rfl, -⟩ := Prod.mk.inj (pure_eq_ok.mp h)
    exact .nil f
  | cons i rest ih =>
    obtain ⟨next, hi, h⟩ := bind_eq_ok.mp h
    obtain ⟨⟨last', notes'⟩, hrest, h⟩ := bind_eq_ok.mp h
    obtain ⟨rfl, rfl⟩ := Prod.mk.inj (pure_eq_ok.mp h)
    obtain ⟨hnote, htail⟩ := List.forall_mem_cons.mp hnotes
    exact .cons hi hnote (ih hrest htail)

end Run

/-! ## The equations -/

/-- The recorded states solve the equations of the analysis, up to equality of states. -/
structure Graph.IsFixpoint (g : Graph) (c : Config) (r : Run) : Prop where
  /-- The function starts in its first state. -/
  entry : r.Enters g.entry g.signature.entryState
  /-- A block that is no join point starts with what its only predecessor leaves. -/
  single : ∀ u b, g.blocks.find? u = some b → b.isMerge = false → u ≠ g.entry →
    ∃ e s t, g.predecessors u = [e] ∧ r.Enters u s ∧ r.Exits e.target t ∧ (s == t) = true
  /-- A join point leaves what the join makes of that which its predecessors leave. -/
  joined : ∀ u b, g.blocks.find? u = some b → b.isMerge = true →
    ∃ inputs t, List.Forall₂ (fun s e => ∃ t', r.Exits e.target t' ∧ (s == t') = true) inputs (g.predecessors u) ∧
      g.merge u b (inputs.map .known) = .ok (.known t) ∧ r.Exits u t
  /-- In front of a join point stands what the last of its predecessors leaves. -/
  latest : ∀ u b, g.blocks.find? u = some b → b.isMerge = true → ∀ e, (g.predecessors u).getLast? = some e →
    ∃ s t, r.Enters u s ∧ r.Exits e.target t ∧ (s == t) = true
  /-- The instructions of a data block lead from the state in front of it to the one behind it. -/
  chained : ∀ u b is, g.blocks.find? u = some b → b.body = .data is →
    ∃ s t, r.Enters u s ∧ r.Exits u t ∧ r.Chained c is (.known s) (.known t)
  /-- A control instruction leads from the state in front of its block to the one behind it, on all ways out. -/
  control : ∀ u b i, g.blocks.find? u = some b → b.body = .control i →
    ∃ s t o, r.Enters u s ∧ r.Exits u t ∧ r.instrs.find? i.label = some ⟨.known s, .known t⟩ ∧
      i.transfer g.signature (.known s) = .ok o ∧ ∀ cond, o.along cond = .known t

/-! ## The last visit of a block -/

namespace Run

variable {g : Graph} {c : Config} {r : Run} {index : Int} {b : Block} {inputs : List State} {v : Visit}

theorem Recorded.merge_known (h : r.Recorded g c index b (inputs.map .known) v) :
    ∃ s, g.merge index b (inputs.map .known) = .ok (.known s) := by
  rcases h.known with ⟨hnil, -⟩ | hne
  · exact ⟨_, hnil ▸ Graph.merge_nil g index b⟩
  · obtain ⟨f, hf, -⟩ := bind_eq_ok.mp h.visit
    obtain ⟨s, rfl, -⟩ := Graph.starts_of_merge hne hf
    exact ⟨s, hf⟩

theorem Recorded.joined (h : r.Recorded g c index b (inputs.map .known) v) (hm : b.isMerge = true) :
    ∃ s, g.merge index b (inputs.map .known) = .ok (.known s) ∧
      r.blocks.find? index = some ⟨Graph.lastKnown (.known s) (inputs.map .known), .known s⟩ := by
  obtain ⟨s, hs⟩ := h.merge_known
  obtain ⟨start, hstart, rfl⟩ := (Graph.visit_merge (Block.body_of_isMerge hm)).mp h.visit
  cases hs.symm.trans hstart
  exact ⟨s, hs, h.note⟩

theorem Recorded.chained (h : r.Recorded g c index b (inputs.map .known) v) {is : List DataInstr}
    (hbody : b.body = .data is) : ∃ s t, r.Enters index s ∧ r.Exits index t ∧ r.Chained c is (.known s) (.known t) := by
  obtain ⟨s, hs⟩ := h.merge_known
  obtain ⟨start, last, notes, hstart, hrun, rfl⟩ := (Graph.visit_data hbody).mp h.visit
  cases hs.symm.trans hstart
  obtain ⟨t, -, rfl⟩ := (runData_known g.signature).mp hrun
  exact ⟨s, t, ⟨_, h.note, rfl⟩, ⟨_, h.note, rfl⟩, chained_of_runData hrun h.instrs⟩

theorem Recorded.control (h : r.Recorded g c index b (inputs.map .known) v) {i : ControlInstr}
    (hbody : b.body = .control i) :
    ∃ s t o, r.Enters index s ∧ r.Exits index t ∧ r.instrs.find? i.label = some ⟨.known s, .known t⟩ ∧
      i.transfer g.signature (.known s) = .ok o ∧ ∀ cond, o.along cond = .known t := by
  obtain ⟨s, hs⟩ := h.merge_known
  obtain ⟨start, o, hstart, ho, rfl⟩ := (Graph.visit_control hbody).mp h.visit
  cases hs.symm.trans hstart
  obtain ⟨t, -, rfl⟩ := ControlInstr.transfer_known.mp ho
  have hmain := ControlInstr.main_outcome i t
  have hnote := h.instrs _ List.mem_cons_self
  rw [hmain] at hnote
  exact ⟨s, t, i.outcome t, ⟨_, h.note, rfl⟩, ⟨_, h.note, hmain⟩, hnote, ho, ControlInstr.along_outcome i t⟩

end Run

/-! ## Converged runs -/

namespace Graph

variable {g : Graph} {c : Config} {r : Run} {index : Int} {b : Block}

theorem lastKnown_concat (start : Flow) (states : List State) (s : State) :
    lastKnown start ((states ++ [s]).map .known) = .known s := by
  rw [lastKnown, List.map_append, List.foldl_append]
  rfl

theorem exists_concat_of_forall₂ {α β : Type} {R : α → β → Prop} {l : List α} {l' : List β}
    (h : List.Forall₂ R l l') {e : β} (he : l'.getLast? = some e) : ∃ init a, l = init ++ [a] ∧ R a e := by
  obtain ⟨init', rfl⟩ := List.getLast?_eq_some_iff.mp he
  have hrev := List.forall₂_reverse_iff.mpr h
  rw [List.reverse_concat] at hrev
  obtain ⟨a, init, hae, -, hl⟩ := List.forall₂_cons_right_iff.mp hrev
  exact ⟨init.reverse, a, by rw [← List.reverse_reverse l, hl, List.reverse_cons], hae⟩

theorem Solved.enters_single (h : g.Solved c r) (hb : g.blocks.find? index = some b) (hm : b.isMerge = false)
    (hne : index ≠ g.entry) :
    ∃ e s t, g.predecessors index = [e] ∧ r.Enters index s ∧ r.Exits e.target t ∧ (s == t) = true := by
  obtain ⟨inputs, s, t, notes, hset⟩ := h.settled index b hb
  cases hset.starts with
  | entry hentry => exact absurd hentry hne
  | join _ _ hone =>
    have hinputs := hset.inputs
    rw [hone hm] at hinputs
    obtain ⟨e, rest, ⟨t', ht', hst⟩, hrest, hpreds⟩ := List.forall₂_cons_left_iff.mp hinputs
    cases hrest
    exact ⟨e, s, t', hpreds, hset.before hm, ht', hst⟩

/-- When the analysis has converged, the recorded states are a fixpoint: no block is left with inputs other than what
its predecessors leave. -/
theorem solve_isFixpoint (hg : g.WellFormed) (hl : g.DistinctLabels) {limit : Nat} (hr : g.solve c limit = .ok r)
    (hconv : r.converged = true) : g.IsFixpoint c r := by
  have h := solved_of_converged hg.connected hl hr hconv
  have hlast : ∀ {u b}, g.blocks.find? u = some b → _ :=
    fun hb => (Run.Sound.of_solve hg.connected hl hr).recorded_of_converged hg.connected hconv hb
  refine ⟨h.enters_entry, fun u b hb => h.enters_single hb, fun u b hb hm => ?_, fun u b hb hm e he => ?_,
    fun u b is hb hbody => ?_, fun u b i hb hbody => ?_⟩
  · obtain ⟨inputs, v, hrec, hinputs⟩ := hlast hb
    obtain ⟨s, hs, hnote⟩ := hrec.joined hm
    exact ⟨inputs, s, hinputs, hs, _, hnote, rfl⟩
  · obtain ⟨inputs, v, hrec, hinputs⟩ := hlast hb
    obtain ⟨s, -, hnote⟩ := hrec.joined hm
    obtain ⟨init, x, rfl, t, ht, hxt⟩ := exists_concat_of_forall₂ hinputs he
    exact ⟨x, t, ⟨_, hnote, lastKnown_concat ..⟩, ht, hxt⟩
  · obtain ⟨inputs, v, hrec, -⟩ := hlast hb
    exact hrec.chained hbody
  · obtain ⟨inputs, v, hrec, -⟩ := hlast hb
    exact hrec.control hbody

theorem solve_isFixpoint_countdown : ∃ r, countdown.solve {} 20 = .ok r ∧ r.converged = true ∧
    countdown.IsFixpoint {} r := by
  obtain ⟨r, hr, hconv⟩ := converges_iff.mp (show countdown.converges {} 20 = true by decide +kernel)
  exact ⟨r, hr, hconv, solve_isFixpoint countdown_wellFormed (by decide) hr hconv⟩

end Graph
end Backslice
