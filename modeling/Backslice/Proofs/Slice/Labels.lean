import Backslice.Proofs.Slice.Outline
import Backslice.Proofs.Slice.Replay

/-! # Labels of a slice

A slice has the labels that were kept, and besides them those of its placeholders, which are numbered from zero. Nobody
looks whether a kept instruction has such a number already, as it may in a graph that is a slice itself, so the labels of
a slice are different exactly if no kept instruction is in the way. -/

namespace Backslice

set_option autoImplicit false

/-! ## Instructions -/

theorem Label.dummies_add (next : Int) (m n : Nat) :
    dummies next (m + n) = dummies next m ++ dummies (next + m) n := by
  simp only [dummies, List.range_add, List.map_append, List.map_map, Function.comp_def, Int.natCast_add, Int.add_assoc]

theorem labels_sliceInstrs {keep : List Label} {run is sliced : List DataInstr} {next last : Int}
    (h : sliceInstrs keep run next is = .ok (sliced, last)) : ∃ m : Nat, last = next + m ∧
      (sliced.map DataInstr.label).Perm
        ((is.map DataInstr.label).filter (keep.contains ·) ++ Label.dummies next m) := by
  induction is generalizing run next sliced with
  | nil =>
    obtain ⟨net, -, rfl, rfl⟩ := eq_of_sliceInstrs_nil h
    exact ⟨net.natAbs, rfl, .of_eq (labels_placeholders net next)⟩
  | cons i rest ih =>
    rw [List.map_cons]
    rcases sliceInstrs_cons_cases h with ⟨hkeep, net, tail, -, htail, rfl⟩ | ⟨hdrop, h⟩
    · obtain ⟨m, rfl, hperm⟩ := ih htail
      refine ⟨net.natAbs + m, by omega, ?_⟩
      rw [List.map_append, List.map_cons, labels_placeholders, List.filter_cons_of_pos (by simpa using hkeep),
        Label.dummies_add]
      -- The kept label moves to the front, and the kept labels behind it pass the placeholders in front of it.
      refine ((hperm.cons i.label).append_left _).trans (List.perm_middle.trans (List.Perm.cons _ ?_))
      exact List.perm_append_comm_assoc ..
    · rw [List.filter_cons_of_neg (by simpa using hdrop)]
      exact ih h

/-! ## Blocks -/

namespace Cut

variable {g : Graph} {keep : List Label} {cut cut' : Cut} {index : Int} {b : Block}

/-- The labels in the blocks that have been built. -/
def labels (cut : Cut) : List Label := cut.blocks.entries.flatMap fun e => e.2.instrs.map Instr.label

theorem labels_keepBlock (hnew : cut.blocks.contains index = false) (b : Block) :
    (cut.keepBlock index b).labels = cut.labels ++ b.instrs.map Instr.label := by
  rw [labels, keepBlock, Table.entries_insert_of_fresh b hnew, List.flatMap_append, List.flatMap_singleton, labels]

theorem labels_addInstrs (hnew : cut.blocks.contains index = false) (instrs : List DataInstr) (next : Int) :
    (cut.addInstrs g index instrs next).labels = cut.labels ++ instrs.map DataInstr.label ∧
      (cut.addInstrs g index instrs next).next = next := by
  unfold addInstrs
  split
  · rename_i hempty
    rw [Bool.and_eq_true, List.isEmpty_iff] at hempty
    rw [hempty.1]
    exact ⟨(List.append_nil _).symm, rfl⟩
  · refine ⟨(labels_keepBlock hnew _).trans ?_, rfl⟩
    simp [Block.instrs, Instr.label, Function.comp_def]

theorem labels_addBlock (h : cut.addBlock g keep index b = .ok cut') (hnew : cut.blocks.contains index = false) :
    ∃ m : Nat, cut'.next = cut.next + m ∧ cut'.labels.Perm
      (cut.labels ++ ((b.instrs.map Instr.label).filter (keep.contains ·) ++ Label.dummies cut.next m)) := by
  cases adds_of_addBlock h with
  | merge hbody =>
    rw [labels_keepBlock hnew]
    refine ⟨0, (Int.add_zero _).symm, .of_eq ?_⟩
    simp [Block.clear, Block.instrs, hbody, Label.dummies]
  | kept hbody hkeep =>
    rw [labels_keepBlock hnew]
    refine ⟨0, (Int.add_zero _).symm, .of_eq ?_⟩
    simp [Block.clear, Block.instrs, hbody, Label.dummies, Instr.label, hkeep]
  | @dropped i net hbody hdrop hnet =>
    rw [(labels_addInstrs hnew _ _).1, (labels_addInstrs hnew _ _).2, labels_placeholders]
    refine ⟨net.natAbs, rfl, .of_eq ?_⟩
    simp [Block.instrs, hbody, Instr.label, hdrop]
  | data hbody hsliced =>
    obtain ⟨m, rfl, hperm⟩ := labels_sliceInstrs hsliced
    rw [(labels_addInstrs hnew _ _).1, (labels_addInstrs hnew _ _).2]
    refine ⟨m, rfl, List.Perm.append_left _ ?_⟩
    simpa [Block.instrs, hbody, Instr.label, Function.comp_def] using hperm

theorem contains_of_addBlock (h : cut.addBlock g keep index b = .ok cut') {u : Int}
    (hu : cut'.blocks.contains u = true) : cut.blocks.contains u = true ∨ u = index := by
  cases step_of_addBlock h with
  | keep =>
    rw [Table.contains_insert, Bool.or_eq_true, beq_iff_eq] at hu
    exact hu.symm.imp_right Eq.symm
  | remove => exact Or.inl hu

end Cut

namespace Graph

variable {g slice : Graph} {keep : List Label}

/-- What has been built from the blocks `done` has the labels that are kept, and those of the placeholders so far. -/
def Labelled (keep : List Label) (done : List (Int × Block)) (cut : Cut) : Prop :=
  (∀ u, cut.blocks.contains u = true → u ∈ done.map (·.1)) ∧
    ∃ m : Nat, cut.next = m ∧ cut.labels.Perm
      ((done.flatMap fun e => e.2.instrs.map Instr.label).filter (keep.contains ·) ++ Label.dummies 0 m)

theorem Labelled.addBlock {done : List (Int × Block)} {e : Int × Block} {cut cut' : Cut} (h : Labelled keep done cut)
    (he : e.1 ∉ done.map (·.1)) (hok : cut.addBlock g keep e.1 e.2 = .ok cut') : Labelled keep (done ++ [e]) cut' := by
  obtain ⟨hkeys, m, hnext, hperm⟩ := h
  have hnew : cut.blocks.contains e.1 = false := Bool.eq_false_iff.mpr fun hcon => he (hkeys _ hcon)
  obtain ⟨n, hnext', hperm'⟩ := Cut.labels_addBlock hok hnew
  rw [hnext] at hnext' hperm'
  refine ⟨fun u hu => ?_, m + n, by omega, hperm'.trans ?_⟩
  · rw [List.map_append, List.mem_append]
    rcases Cut.contains_of_addBlock hok hu with hu | rfl
    · exact Or.inl (hkeys u hu)
    · exact Or.inr (List.mem_singleton_self _)
  · rw [List.flatMap_append, List.flatMap_singleton, List.filter_append, Label.dummies_add, Int.zero_add,
      List.append_assoc]
    refine (hperm.append_right _).trans ?_
    rw [List.append_assoc]
    exact List.Perm.append_left _ (List.perm_append_comm_assoc ..)

/-- The labels of a restricted graph are the kept ones and those of its placeholders. -/
theorem restrict_labels (h : g.restrict keep = .ok slice) : ∃ m, (slice.instrs.map Instr.label).Perm
    ((g.instrs.map Instr.label).filter (keep.contains ·) ++ Label.dummies 0 m) := by
  obtain ⟨cut, hfold, h⟩ := bind_eq_ok.mp h
  have hstart : Labelled keep [] { wiring := ⟨g.edges, g.backEdges⟩ } :=
    ⟨fun u hu => (by cases hu), 0, rfl, .refl _⟩
  obtain ⟨-, m, -, hperm⟩ : Labelled keep g.sortedBlocks cut :=
    foldlM_carries (Labelled keep) hstart hfold fun done e rest cut cut' hsplit hcut hok =>
      hcut.addBlock (fst_not_mem_of_sortedBlocks hsplit) hok
  have hblocks : (g.sortedBlocks.flatMap fun e => e.2.instrs.map Instr.label).Perm (g.instrs.map Instr.label) := by
    rw [instrs, Table.values, List.map_flatMap, List.flatMap_map]
    exact (sortBy_perm _).flatMap_right _
  refine ⟨m, ?_⟩
  rw [← pure_eq_ok.mp h, instrs, Table.values, List.map_flatMap, List.flatMap_map]
  exact hperm.trans ((hblocks.filter _).append_right _)

/-- The instructions of a slice have the labels that are kept, and those of placeholders with numbers from zero. They are
different exactly if no kept instruction has the label of one of these placeholders. -/
theorem slice_distinctLabels_iff {criterion : Label} {control : Option BlockDeps} (hl : g.DistinctLabels)
    (hs : g.slice criterion control = .ok slice) : ∃ keep m, g.keep criterion none control = .ok keep ∧
      (slice.instrs.map Instr.label).Perm
        ((g.instrs.map Instr.label).filter (keep.contains ·) ++ Label.dummies 0 m) ∧
      (slice.DistinctLabels ↔ ∀ i ∈ g.instrs, i.label ∈ keep → i.label ∉ Label.dummies 0 m) := by
  obtain ⟨home, -, hs⟩ := bind_eq_ok.mp hs
  obtain ⟨keep, hkeep, hs⟩ := bind_eq_ok.mp hs
  obtain ⟨m, hperm⟩ := restrict_labels hs
  refine ⟨keep, m, hkeep, hperm, ?_⟩
  rw [DistinctLabels, hperm.nodup_iff, List.nodup_append]
  constructor
  · rintro ⟨-, -, hapart⟩ i hi hkept hdummy
    exact hapart i.label (List.mem_filter.mpr ⟨List.mem_map_of_mem hi, by simpa using hkept⟩) i.label hdummy rfl
  · intro hfree
    refine ⟨List.Nodup.filter _ hl, Label.nodup_dummies 0 m, ?_⟩
    rintro l hold _ hdummy rfl
    obtain ⟨hmem, hkept⟩ := List.mem_filter.mp hold
    obtain ⟨i, hi, rfl⟩ := List.mem_map.mp hmem
    exact hfree i hi (by simpa using hkept) hdummy

theorem slice_distinctLabels_iff_countdown : ∃ r slice, countdown.solve {} 20 = .ok r ∧
    (countdown.withRun r).DistinctLabels ∧ (countdown.withRun r).slice (.code 0) none = .ok slice ∧
    slice.DistinctLabels := by
  have hrun : (do
      let r ← countdown.solve {} 20
      let slice ← (countdown.withRun r).slice (.code 0) none
      return ()) = Except.ok () := by decide +kernel
  obtain ⟨r, hr, hrun⟩ := bind_eq_ok.mp hrun
  obtain ⟨slice, hslice, -⟩ := bind_eq_ok.mp hrun
  have hl : (countdown.withRun r).DistinctLabels := DistinctLabels.withRun (by decide) r
  obtain ⟨keep, m, -, -, hiff⟩ := slice_distinctLabels_iff hl hslice
  refine ⟨r, slice, hr, hl, hslice, hiff.mpr fun i hi _ hdummy => ?_⟩
  have hplain : countdown.NoPlaceholders := by decide
  obtain ⟨j, hj, rfl⟩ := mem_instrs_withRun.mp hi
  obtain ⟨k, -, hk⟩ := List.mem_map.mp hdummy
  have hlabel := hplain j hj
  rw [← j.label_annotate r.instrs, ← hk] at hlabel
  cases hlabel

/-! ## A slice of a slice -/

/-- Puts the size of the memory on the stack twice, and drops both. -/
def twoSizes : Graph :=
  .ofArrows {}
    [(0, { body := .data [{ label := .code 0, op := .memorySize }, { label := .code 1, op := .memorySize },
        { label := .code 2, op := .drop }, { label := .code 3, op := .drop }] }),
      (1, { body := .merge })]
    [{ source := 0, target := 1 }] 0 1 "twoSizes" 0

/-- In the slice for the first drop of `twoSizes` the first push has become the placeholder 0. The slice of that slice for
this placeholder has a drop to put in, and gives it the number 0 too. -/
theorem slice_of_slice_repeats_label : ∃ r slice r' slice', twoSizes.solve {} 20 = .ok r ∧ r.converged = true ∧
    (twoSizes.withRun r).slice (.code 2) none = .ok slice ∧ slice.DistinctLabels ∧
    slice.solve {} 20 = .ok r' ∧ r'.converged = true ∧
    (slice.withRun r').slice (.dummy 0) none = .ok slice' ∧
    slice'.instrs.map Instr.label = [.dummy 0, .dummy 0] ∧ ¬ slice'.DistinctLabels := by
  have hrun : (do
      let r ← twoSizes.solve {} 20
      let slice ← (twoSizes.withRun r).slice (.code 2) none
      let r' ← slice.solve {} 20
      let slice' ← (slice.withRun r').slice (.dummy 0) none
      return (r.converged, decide slice.DistinctLabels, r'.converged, slice'.instrs.map Instr.label)) =
      Except.ok (true, true, true, [.dummy 0, .dummy 0]) := by decide +kernel
  obtain ⟨r, hr, hrun⟩ := bind_eq_ok.mp hrun
  obtain ⟨slice, hslice, hrun⟩ := bind_eq_ok.mp hrun
  obtain ⟨r', hr', hrun⟩ := bind_eq_ok.mp hrun
  obtain ⟨slice', hslice', hrun⟩ := bind_eq_ok.mp hrun
  simp only [pure_eq_ok, Prod.mk.injEq, decide_eq_true_eq] at hrun
  obtain ⟨hconv, hdistinct, hconv', hlabels⟩ := hrun
  refine ⟨r, slice, r', slice', hr, hconv, hslice, hdistinct, hr', hconv', hslice', hlabels, ?_⟩
  rw [DistinctLabels, hlabels]
  decide

end Graph
end Backslice
