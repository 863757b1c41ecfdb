import Backslice.Proofs.Slice.Code
import Backslice.Proofs.Slice.Labels

/-! # The content of a slice

A slice is an excerpt of its graph. Each block has the kept instructions that it had, in their order and as they were, and
besides them only placeholders; no annotation is left. A block that is missing in the slice had no kept instruction. -/

namespace Backslice

set_option autoImplicit false

/-! ## Straight-line code -/

/-- Of the instructions `is` the kept ones are left in `js`, with placeholders between them. -/
inductive Filled (keep : List Label) : List Instr → List Instr → Prop
  | nil : Filled keep [] []
  | kept {i : Instr} {is js : List Instr} (hi : i.label ∈ keep) (hrest : Filled keep is js) :
      Filled keep (i :: is) (i.clear :: js)
  | dropped {i : Instr} {is js : List Instr} (hi : i.label ∉ keep) (hrest : Filled keep is js) :
      Filled keep (i :: is) js
  | filler (sinks : Bool) (id : Int) {is js : List Instr} (hrest : Filled keep is js) :
      Filled keep is (.data (placeholder sinks id) :: js)

@[simp] theorem Instr.note_clear (i : Instr) : i.clear.note = none := by cases i <;> rfl

@[simp] theorem isDummy_label_placeholder (sinks : Bool) (id : Int) :
    (Instr.data (placeholder sinks id)).label.isDummy = true := by
  cases sinks <;> rfl

@[simp] theorem note_placeholder (sinks : Bool) (id : Int) : (Instr.data (placeholder sinks id)).note = none := by
  cases sinks <;> rfl

namespace Filled

variable {keep : List Label} {is js : List Instr}

theorem placeholders_append (net next : Int) (h : Filled keep is js) :
    Filled keep is ((placeholders net next).map .data ++ js) := by
  unfold placeholders
  induction List.range net.natAbs with
  | nil => exact h
  | cons k ks ih => exact .filler _ _ ih

theorem of_sliceInstrs {run code sliced : List DataInstr} {next last : Int}
    (h : sliceInstrs keep run next code = .ok (sliced, last)) : Filled keep (code.map .data) (sliced.map .data) := by
  induction code generalizing run next sliced last with
  | nil =>
    obtain ⟨net, -, rfl, -⟩ := eq_of_sliceInstrs_nil h
    simpa using placeholders_append net next (nil : Filled keep [] [])
  | cons i rest ih =>
    rcases sliceInstrs_cons_cases h with ⟨hkeep, net, tail, -, htail, rfl⟩ | ⟨hdrop, h⟩
    · rw [List.map_append]
      exact placeholders_append net next (.kept (i := .data i) hkeep (ih htail))
    · exact .dropped (i := .data i) hdrop (ih h)

/-- Without the placeholders just the kept instructions are left, in their order. -/
theorem filter_eq (h : Filled keep is js) (hplain : ∀ i ∈ is, i.label.isDummy = false) :
    js.filter (fun j => !j.label.isDummy) = (is.filter fun i => keep.contains i.label).map Instr.clear := by
  induction h with
  | nil => rfl
  | @kept i is js hi hrest ih =>
    rw [List.forall_mem_cons] at hplain
    simp [hi, hplain.1, ih hplain.2]
  | @dropped i is js hi hrest ih =>
    rw [List.forall_mem_cons] at hplain
    simp [hi, ih hplain.2]
  | filler sinks id hrest ih =>
    rw [List.filter_cons_of_neg (by simp), ih hplain]

/-- The code that is left consists of kept instructions and placeholders. -/
theorem mem_code (h : Filled keep is js) {j : Instr} (hj : j ∈ js) :
    (∃ i ∈ is, j = i.clear) ∨ ∃ sinks id, j = .data (placeholder sinks id) := by
  induction h with
  | nil => cases hj
  | @kept i _ _ _ _ ih =>
    rcases List.mem_cons.mp hj with rfl | hj
    · exact Or.inl ⟨i, List.mem_cons_self, rfl⟩
    · exact (ih hj).imp_left fun ⟨k, hk, heq⟩ => ⟨k, List.mem_cons_of_mem _ hk, heq⟩
  | dropped _ _ ih => exact (ih hj).imp_left fun ⟨k, hk, heq⟩ => ⟨k, List.mem_cons_of_mem _ hk, heq⟩
  | filler sinks id _ ih =>
    rcases List.mem_cons.mp hj with rfl | hj
    · exact Or.inr ⟨sinks, id, rfl⟩
    · exact ih hj

theorem clear_mem (h : Filled keep is js) {i : Instr} (hi : i ∈ is) (hkeep : i.label ∈ keep) : i.clear ∈ js := by
  induction h with
  | nil => cases hi
  | kept _ _ ih =>
    rcases List.mem_cons.mp hi with rfl | hi
    · exact List.mem_cons_self
    · exact List.mem_cons_of_mem _ (ih hi)
  | dropped hdrop _ ih =>
    rcases List.mem_cons.mp hi with rfl | hi
    · exact absurd hkeep hdrop
    · exact ih hi
  | filler _ _ _ ih => exact List.mem_cons_of_mem _ (ih hi)

theorem dropped_append {run : List Instr} (hrun : ∀ i ∈ run, i.label ∉ keep) (h : Filled keep is js) :
    Filled keep (run ++ is) js := by
  induction run with
  | nil => exact h
  | cons i run ih =>
    rw [List.forall_mem_cons] at hrun
    exact .dropped hrun.1 (ih hrun.2)

theorem note_eq_none (h : Filled keep is js) : ∀ j ∈ js, j.note = none := by
  intro j hj
  rcases h.mem_code hj with ⟨i, -, rfl⟩ | ⟨sinks, id, rfl⟩
  · exact i.note_clear
  · exact note_placeholder sinks id

theorem eq_placeholder (h : Filled keep is js) (hplain : ∀ i ∈ is, i.label.isDummy = false) :
    ∀ j ∈ js, j.label.isDummy = true → ∃ sinks id, j = .data (placeholder sinks id) := by
  intro j hj hdummy
  rcases h.mem_code hj with ⟨i, hi, rfl⟩ | hplaceholder
  · rw [Instr.label_clear, hplain i hi] at hdummy
    cases hdummy
  · exact hplaceholder

end Filled

theorem Follows.filled {sig : Signature} {c : Config} {keep : List Label} {is js : List Instr} {s t : State}
    {notes : List (Label × Note)} (h : Follows sig c keep is s notes t js) : Filled keep is js := by
  induction h with
  | nil => exact .nil
  | kept hi _ _ ih => exact .kept hi ih
  | dropped next hrun _ _ ih => exact (ih.dropped_append hrun).placeholders_append _ next

namespace Graph

variable {g slice : Graph} {keep : List Label} {index : Int} {b : Block} {cut cut' : Cut}

/-! ## Blocks -/

/-- What a block, or its absence, leaves of the instructions `is`. -/
def Leaves (keep : List Label) (is : List Instr) (b' : Option Block) : Prop :=
  Filled keep is ((b'.map Block.instrs).getD []) ∧ ∀ x ∈ b', x.note = none

theorem leaves_addInstrs (g : Graph) (hnew : cut.blocks.find? index = none) {is : List Instr} {instrs : List DataInstr}
    (h : Filled keep is (instrs.map .data)) (next : Int) : ∃ b', Leaves keep is b' ∧
      ∀ u, (cut.addInstrs g index instrs next).blocks.find? u = if index = u then b' else cut.blocks.find? u := by
  obtain ⟨b', hcode, hplain, hfind⟩ := find?_addInstrs g hnew instrs next
  rw [← hcode] at h
  exact ⟨b', ⟨h, fun x hx => (hplain x hx).2⟩, hfind⟩

theorem leaves_keepBlock (h : Filled keep b.instrs b.clear.instrs) : ∃ b', Leaves keep b.instrs b' ∧
    ∀ u, (cut.keepBlock index b.clear).blocks.find? u = if index = u then b' else cut.blocks.find? u :=
  ⟨some b.clear, ⟨h, fun _ hx => by cases hx; rfl⟩, find?_keepBlock cut index _⟩

theorem leaves_addBlock (hnew : cut.blocks.find? index = none) (h : cut.addBlock g keep index b = .ok cut') :
    ∃ b', Leaves keep b.instrs b' ∧ ∀ u, cut'.blocks.find? u = if index = u then b' else cut.blocks.find? u := by
  cases Cut.adds_of_addBlock h with
  | merge hbody =>
    have hinstrs : b.instrs = [] := by simp [Block.instrs, hbody]
    apply leaves_keepBlock
    rw [Block.instrs_clear, hinstrs]
    exact .nil
  | @kept i hbody hkeep =>
    have hinstrs : b.instrs = [.control i] := by simp [Block.instrs, hbody]
    apply leaves_keepBlock
    rw [Block.instrs_clear, hinstrs]
    exact .kept hkeep .nil
  | @dropped i net hbody hdrop =>
    have hinstrs : b.instrs = [.control i] := by simp [Block.instrs, hbody]
    rw [hinstrs]
    apply leaves_addInstrs g hnew
    have hnil : Filled keep [.control i] [] := .dropped hdrop .nil
    simpa using hnil.placeholders_append net cut.next
  | @data instrs sliced next hbody hsliced =>
    have hinstrs : b.instrs = instrs.map .data := by simp [Block.instrs, hbody]
    rw [hinstrs]
    exact leaves_addInstrs g hnew (.of_sliceInstrs hsliced) next

/-! ## Graphs -/

/-- The instructions of a block, none if there is no such block. -/
def instrsAt (g : Graph) (u : Int) : List Instr := ((g.blocks.find? u).map Block.instrs).getD []

theorem instrsAt_of_find? (hb : g.blocks.find? index = some b) : g.instrsAt index = b.instrs := by
  rw [instrsAt, hb]
  rfl

theorem mem_instrs_of_mem_instrsAt {u : Int} {i : Instr} (h : i ∈ g.instrsAt u) : i ∈ g.instrs := by
  unfold instrsAt at h
  cases hb : g.blocks.find? u with
  | none =>
    rw [hb] at h
    cases h
  | some b =>
    rw [hb] at h
    exact mem_instrs hb h

theorem restrict_leaves (h : g.restrict keep = .ok slice) (u : Int) :
    Leaves keep (g.instrsAt u) (slice.blocks.find? u) := by
  have hleaves : if g.hasBlock u then Leaves keep (g.instrsAt u) (slice.blocks.find? u)
      else slice.blocks.find? u = none := by
    refine restrict_blocks (P := fun u => Leaves keep (g.instrsAt u)) h (fun index b cut cut' hb hnew hok => ?_) u
    rw [instrsAt_of_find? hb]
    exact leaves_addBlock hnew hok
  split at hleaves
  · exact hleaves
  · rename_i hno
    have hnone : g.blocks.find? u = none := by
      rw [← Option.not_isSome_iff_eq_none]
      exact fun hcon => hno (hasBlock_iff.mpr (Option.isSome_iff_exists.mp hcon))
    rw [hleaves, instrsAt, hnone]
    exact ⟨.nil, fun _ hx => by cases hx⟩

theorem clear_mem_of_restrict (h : g.restrict keep = .ok slice) {i : Instr} (hi : i ∈ g.instrs)
    (hkeep : i.label ∈ keep) : i.clear ∈ slice.instrs := by
  obtain ⟨u, b, hb, hib⟩ := exists_block_of_mem_instrs hi
  have hfilled := (restrict_leaves h u).1
  rw [instrsAt_of_find? hb] at hfilled
  exact mem_instrs_of_mem_instrsAt (hfilled.clear_mem hib hkeep)

/-- The content of a slice of `g` that keeps the labels `keep`. -/
structure Excerpt (g slice : Graph) (keep : List Label) : Prop where
  /-- The labels are those that are kept and those of the placeholders, which are numbered from zero. -/
  labels : ∃ m, (slice.instrs.map Instr.label).Perm
    ((g.instrs.map Instr.label).filter (keep.contains ·) ++ Label.dummies 0 m)
  distinct : slice.DistinctLabels
  /-- Besides its placeholders a block has the kept instructions it had, in the same order and only without annotation. -/
  code : ∀ u, (slice.instrsAt u).filter (fun j => !j.label.isDummy) =
    ((g.instrsAt u).filter fun i => keep.contains i.label).map Instr.clear
  /-- A placeholder drops a value or pushes a zero. -/
  fillers : ∀ j ∈ slice.instrs, j.label.isDummy = true → ∃ id,
    j = .data { label := .dummy id, op := .drop, mnemonic := "drop" } ∨
    j = .data { label := .dummy id, op := .const, arg := .literal (.i32 0), mnemonic := "i32.const" }
  bare : slice.notes = []
  fewer : (∃ i ∈ g.instrs, i.label ∉ keep) →
    slice.instrs.countP (fun j => !j.label.isDummy) < g.instrs.countP fun i => !i.label.isDummy

theorem notes_eq_nil (h : ∀ u b, g.blocks.find? u = some b → b.note = none ∧ ∀ i ∈ b.instrs, i.note = none) :
    g.notes = [] := by
  rw [notes, List.flatMap_eq_nil_iff]
  intro b hb
  obtain ⟨e, he, rfl⟩ := List.mem_map.mp hb
  obtain ⟨hnote, hinstrs⟩ := h e.1 e.2 (Table.find?_eq_some_iff_mem.mpr he)
  rw [hnote, Option.toList_none, List.nil_append, List.flatMap_eq_nil_iff]
  intro i hi
  rw [hinstrs i hi, Option.toList_none]

theorem countP_lt_of_labels (hplain : g.NoPlaceholders) {m : Nat} (hperm : (slice.instrs.map Instr.label).Perm
    ((g.instrs.map Instr.label).filter (keep.contains ·) ++ Label.dummies 0 m))
    (hdropped : ∃ i ∈ g.instrs, i.label ∉ keep) :
    slice.instrs.countP (fun j => !j.label.isDummy) < g.instrs.countP fun i => !i.label.isDummy := by
  have hplain' : ∀ i ∈ g.instrs, (!i.label.isDummy) = true := fun i hi => by rw [hplain i hi]; rfl
  have hdummies : (Label.dummies 0 m).countP (fun l => !l.isDummy) = 0 := by
    rw [List.countP_eq_zero]
    intro l hl
    obtain ⟨k, -, rfl⟩ := List.mem_map.mp hl
    exact Bool.false_ne_true
  calc slice.instrs.countP (fun j => !j.label.isDummy)
      = (slice.instrs.map Instr.label).countP (fun l => !l.isDummy) := by
        rw [List.countP_map]
        rfl
    _ = ((g.instrs.map Instr.label).filter (keep.contains ·)).countP (fun l => !l.isDummy) := by
        rw [hperm.countP_eq, List.countP_append, hdummies, Nat.add_zero]
    _ ≤ ((g.instrs.map Instr.label).filter (keep.contains ·)).length := List.countP_le_length
    _ < (g.instrs.map Instr.label).length := by
        rw [List.length_filter_lt_length_iff_exists]
        obtain ⟨i, hi, hnot⟩ := hdropped
        exact ⟨i.label, List.mem_map_of_mem hi, by simpa using hnot⟩
    _ = g.instrs.countP fun i => !i.label.isDummy := by rw [List.length_map, List.countP_eq_length.mpr hplain']

/-- The slice for a criterion has the kept instructions where and as they were, besides placeholders only. -/
theorem slice_excerpt {criterion : Label} {control : Option BlockDeps} (hl : g.DistinctLabels)
    (hplain : g.NoPlaceholders) (hs : g.slice criterion control = .ok slice) :
    ∃ keep, g.keep criterion none control = .ok keep ∧ g.Excerpt slice keep := by
  obtain ⟨home, -, hs⟩ := bind_eq_ok.mp hs
  obtain ⟨keep, hkeep, hs⟩ := bind_eq_ok.mp hs
  obtain ⟨m, hperm⟩ := restrict_labels hs
  have hplainAt : ∀ u, ∀ i ∈ g.instrsAt u, i.label.isDummy = false := fun u i hi =>
    hplain i (mem_instrs_of_mem_instrsAt hi)
  refine ⟨keep, hkeep, ⟨m, hperm⟩, ?_, fun u => ?_, fun j hj hdummy => ?_, ?_, countP_lt_of_labels hplain hperm⟩
  · rw [DistinctLabels, hperm.nodup_iff, List.nodup_append]
    refine ⟨List.Nodup.filter _ hl, Label.nodup_dummies 0 m, ?_⟩
    rintro l hold _ hdummy rfl
    obtain ⟨i, hi, rfl⟩ := List.mem_map.mp (List.mem_filter.mp hold).1
    obtain ⟨k, -, hk⟩ := List.mem_map.mp hdummy
    have hlabel := hplain i hi
    rw [← hk] at hlabel
    cases hlabel
  · exact (restrict_leaves hs u).1.filter_eq (hplainAt u)
  · obtain ⟨u, b, hb, hj⟩ := exists_block_of_mem_instrs hj
    have hfilled := (restrict_leaves hs u).1
    rw [hb] at hfilled
    obtain ⟨sinks, id, rfl⟩ := hfilled.eq_placeholder (hplainAt u) j hj hdummy
    cases sinks with
    | true => exact ⟨id, Or.inl rfl⟩
    | false => exact ⟨id, Or.inr rfl⟩
  · apply notes_eq_nil
    intro u b hb
    have hleaves := restrict_leaves hs u
    rw [hb] at hleaves
    exact ⟨hleaves.2 b rfl, hleaves.1.note_eq_none⟩

/-- In the slice of `countdown` for the decrement, kept instructions and placeholders take turns. -/
theorem slice_excerpt_countdown : ∃ r keep slice, countdown.solve {} 20 = .ok r ∧
    (countdown.withRun r).DistinctLabels ∧ (countdown.withRun r).NoPlaceholders ∧
    (countdown.withRun r).slice (.code 3) none = .ok slice ∧
    (countdown.withRun r).keep (.code 3) none none = .ok keep ∧ .code 1 ∉ keep ∧
    (countdown.withRun r).Excerpt slice keep := by
  have hrun : (do
      let r ← countdown.solve {} 20
      let keep ← (countdown.withRun r).keep (.code 3) none none
      let slice ← (countdown.withRun r).slice (.code 3) none
      return keep.contains (.code 1)) = Except.ok false := by decide +kernel
  obtain ⟨r, hr, hrun⟩ := bind_eq_ok.mp hrun
  obtain ⟨keep, hkeep, hrun⟩ := bind_eq_ok.mp hrun
  obtain ⟨slice, hslice, hrun⟩ := bind_eq_ok.mp hrun
  have hl : (countdown.withRun r).DistinctLabels := DistinctLabels.withRun (by decide) r
  have hplain : (countdown.withRun r).NoPlaceholders := NoPlaceholders.withRun (by decide) r
  obtain ⟨keep', hkeep', hexcerpt⟩ := slice_excerpt hl hplain hslice
  obtain rfl := Except.ok.inj (hkeep.symm.trans hkeep')
  exact ⟨r, keep, slice, hr, hl, hplain, hslice, hkeep, by simpa using pure_eq_ok.mp hrun, hexcerpt⟩

end Graph
end Backslice
