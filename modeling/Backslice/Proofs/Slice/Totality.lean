import Backslice.Proofs.Slice.Criterion
import Backslice.Slice.Build

/-! # Slices of analyzed graphs

When the analysis has converged, all blocks and instructions are annotated, and then nothing can go wrong in a slice: it
exists for the labels of instructions and join points, and any other label is refused. -/

namespace Backslice

set_option autoImplicit false

/-! ## Annotated graphs -/

theorem runEffect_ok {run : List DataInstr} (h : ∀ i ∈ run, i.note.isSome = true) : ∃ net, runEffect run = .ok net := by
  unfold runEffect
  split
  · rename_i first last hfirst hlast
    obtain ⟨a, ha⟩ := Option.isSome_iff_exists.mp (h first (List.mem_of_head? hfirst))
    obtain ⟨b, hb⟩ := Option.isSome_iff_exists.mp (h last (List.mem_of_getLast? hlast))
    rw [ha, hb]
    exact ⟨_, rfl⟩
  · exact ⟨_, rfl⟩

theorem sliceInstrs_ok (keep : List Label) (run : List DataInstr) (next : Int) {is : List DataInstr}
    (hrun : ∀ i ∈ run, i.note.isSome = true) (his : ∀ i ∈ is, i.note.isSome = true) :
    ∃ sliced, sliceInstrs keep run next is = .ok sliced := by
  induction is generalizing run next with
  | nil =>
    obtain ⟨net, hnet⟩ := runEffect_ok hrun
    rw [sliceInstrs, hnet]
    exact ⟨_, rfl⟩
  | cons i rest ih =>
    obtain ⟨hi, hrest⟩ := List.forall_mem_cons.mp his
    rw [sliceInstrs]
    split
    · obtain ⟨net, hnet⟩ := runEffect_ok hrun
      obtain ⟨sliced, hsliced⟩ := ih [] (next + net.natAbs) (fun i hi => by cases hi) hrest
      rw [hnet, ok_bind, hsliced]
      exact ⟨_, rfl⟩
    · refine ih (run ++ [i]) next (fun j hj => ?_) hrest
      rcases List.mem_append.mp hj with hj | hj
      · exact hrun j hj
      · exact List.mem_singleton.mp hj ▸ hi

namespace Graph

variable {g : Graph} {c : Config} {r : Run} {index : Int} {b : Block} {l : Label}

/-- Every block and every instruction carries the states around it. -/
structure Annotated (g : Graph) : Prop where
  blocks : ∀ u b, g.blocks.find? u = some b → b.note.isSome = true
  instrs : ∀ i ∈ g.instrs, i.note.isSome = true

theorem Solved.annotated (h : g.Solved c r) : (g.withRun r).Annotated where
  blocks u b hb := by
    rw [find?_withRun, Option.map_eq_some_iff] at hb
    obtain ⟨b₀, hb₀, rfl⟩ := hb
    obtain ⟨inputs, s, t, notes, hset⟩ := h.settled u b₀ hb₀
    obtain ⟨note, hnote, -⟩ := hset.exits
    rw [note_withRun hnote]
    rfl
  instrs i hi := by
    obtain ⟨j, hj, rfl⟩ := mem_instrs_withRun.mp hi
    obtain ⟨u, w, hnote, -⟩ := h.instr hj
    rw [Instr.note_annotate hnote]
    rfl

theorem Annotated.addBlock_ok (h : g.Annotated) (hb : g.blocks.find? index = some b) (keep : List Label) (cut : Cut) :
    ∃ cut', cut.addBlock g keep index b = .ok cut' := by
  unfold Cut.addBlock
  split
  · exact ⟨_, rfl⟩
  · split
    · exact ⟨_, rfl⟩
    · obtain ⟨note, hnote⟩ := Option.isSome_iff_exists.mp (h.blocks index b hb)
      rw [blockEffect, blockNote_eq_ok.mpr ⟨b, hb, hnote⟩]
      exact ⟨_, rfl⟩
  · rename_i is hbody
    have his : ∀ i ∈ is, i.note.isSome = true := fun i hi =>
      h.instrs (.data i) (mem_instrs hb (by simp [Block.instrs, hbody, hi]))
    obtain ⟨sliced, hsliced⟩ := sliceInstrs_ok keep [] cut.next (fun i hi => by cases hi) his
    rw [hsliced]
    exact ⟨_, rfl⟩

theorem Annotated.restrict_ok (h : g.Annotated) (keep : List Label) : ∃ slice, g.restrict keep = .ok slice := by
  have hstep : ∀ done (e : Int × Block) rest (cut : Cut), g.sortedBlocks = done ++ e :: rest → True →
      ∃ cut', cut.addBlock g keep e.1 e.2 = .ok cut' ∧ True := by
    intro done e rest cut hsplit _
    have he : e ∈ g.sortedBlocks := by simp [hsplit]
    obtain ⟨cut', hok⟩ := h.addBlock_ok (mem_sortedBlocks.mp he) keep cut
    exact ⟨cut', hok, trivial⟩
  obtain ⟨cut, hfold, -⟩ := foldlM_succeeds (fun _ _ => True) g.sortedBlocks trivial hstep
  exact ⟨_, bind_eq_ok.mpr ⟨cut, hfold, rfl⟩⟩

/-! ## Slices for a criterion -/

theorem Solved.exists_slice (h : g.Solved c r) (ho : g.OrdinaryLabels)
    (hrange : ∀ i ∈ g.instrs, i.InRange g.signature) (hl : g.IsSite l) :
    ∃ labels slice, (g.withRun r).keep l none none = .ok labels ∧ (g.withRun r).slice l none = .ok slice ∧
      l ∈ labels ∧ ∀ l' ∈ labels, g.IsSite l' := by
  obtain ⟨home, hhome⟩ := blockOf_ok (isSite_withRun.mpr hl)
  obtain ⟨labels, hkeep, hmem, hsites⟩ := h.keep_ok ho hrange hl
  obtain ⟨slice, hslice⟩ := h.annotated.restrict_ok labels
  refine ⟨labels, slice, hkeep, ?_, hmem, hsites⟩
  rw [Graph.slice, hhome, hkeep]
  exact hslice

/-- For an instruction or a join point of an analyzed graph there are a slice and the labels that it keeps, the criterion
among them and all of them in the graph. Any other label is refused. -/
theorem slice_total (hg : g.WellFormed) (hlabels : g.DistinctLabels) (ho : g.OrdinaryLabels) (hrange : g.IndicesInRange)
    {limit : Nat} (hr : g.solve c limit = .ok r) (hconv : r.converged = true) (l : Label) :
    (g.IsSite l → ∃ labels slice, (g.withRun r).keep l none none = .ok labels ∧
      (g.withRun r).slice l none = .ok slice ∧ l ∈ labels ∧ ∀ l' ∈ labels, g.IsSite l') ∧
    (¬ g.IsSite l → ∀ control, (g.withRun r).slice l control = .error (.noHome l)) := by
  refine ⟨fun hl => ?_, fun hl control => ?_⟩
  · exact (solved_of_converged hg.connected hlabels hr hconv).exists_slice ho (fun i hi => hrange.instr hi) hl
  · rw [Graph.slice, blockOf_eq_error (mt isSite_withRun.mp hl)]
    rfl

theorem slice_total_countdown : ∃ r, countdown.solve {} 20 = .ok r ∧ r.converged = true ∧
    (∃ labels slice, (countdown.withRun r).keep (.merge 5) none none = .ok labels ∧
      (countdown.withRun r).slice (.merge 5) none = .ok slice ∧ .merge 5 ∈ labels) ∧
    (countdown.withRun r).slice (.merge 4) none = .error (.noHome (.merge 4)) := by
  obtain ⟨r, hr, hconv⟩ := converges_iff.mp (show countdown.converges {} 20 = true by decide +kernel)
  have htotal := slice_total countdown_wellFormed (by decide) (by decide) (by decide) hr hconv
  obtain ⟨labels, slice, hkeep, hslice, hmem, -⟩ := (htotal (.merge 5)).1 (by decide)
  exact ⟨r, hr, hconv, ⟨labels, slice, hkeep, hslice, hmem⟩, (htotal (.merge 4)).2 (by decide) none⟩

end Graph
end Backslice
