import Backslice.Proofs.Slice.Restrict

/-! # The code of a slice

In the place of the code of a block stand, in a slice, the kept instructions as they are and placeholders for each run of
others. A removed block is one that nothing would be left of. -/

namespace Backslice

set_option autoImplicit false

def Instr.clear : Instr → Instr
  | .data i => .data { i with note := none }
  | .control i => .control { i with note := none }

@[simp] theorem Instr.label_clear (i : Instr) : i.clear.label = i.label := by cases i <;> rfl

theorem Instr.effect_clear {sig : Signature} {c : Config} {i : Instr} {s t : State} (h : i.clear.Effect sig c s t) :
    i.Effect sig c s t := by
  cases i with
  | data d => exact DataInstr.Effect.withNote (i := { d with note := none }) h d.note
  | control k => exact ControlInstr.Effect.withNote (i := { k with note := none }) h k.note

@[simp] theorem Instr.clear_annotate (notes : Table Label Note) (i : Instr) : (i.annotate notes).clear = i.clear := by
  cases i <;> rfl

theorem Block.instrs_clear (b : Block) : b.clear.instrs = b.instrs.map Instr.clear := by
  cases hbody : b.body <;> simp [instrs, clear, hbody, Instr.clear, Function.comp_def]

theorem Block.body_eq_data_of_withRun {r : Run} {index : Int} {b : Block} {js : List DataInstr}
    (h : (b.withRun r index).body = .data js) :
    ∃ is, b.body = .data is ∧ js = is.map fun i => { i with note := (r.instrs.find? i.label).or i.note } := by
  rw [body_withRun] at h
  cases hbody : b.body with
  | data is =>
    rw [hbody] at h
    exact ⟨is, rfl, (Body.data.inj h).symm⟩
  | control k => simp [hbody] at h
  | merge => simp [hbody] at h

/-! ## Straight-line code -/

/-- The instructions run from `s` to `t`, and in a slice `js` stands in their place. -/
inductive Follows (sig : Signature) (c : Config) (keep : List Label) :
    List Instr → State → List (Label × Note) → State → List Instr → Prop
  | nil (s : State) : Follows sig c keep [] s [] s []
  | kept {i : Instr} {is js : List Instr} {s u t : State} {notes : List (Label × Note)} (hi : i.label ∈ keep)
      (heffect : i.Effect sig c s u) (hrest : Follows sig c keep is u notes t js) :
      Follows sig c keep (i :: is) s ((i.label, ⟨.known s, .known u⟩) :: notes) t (i.clear :: js)
  | dropped {run is js : List Instr} {s u t : State} {n₁ n₂ : List (Label × Note)} (next : Int)
      (hrun : ∀ i ∈ run, i.label ∉ keep) (hsteps : Steps sig c run s n₁ u)
      (hrest : Follows sig c keep is u n₂ t js) :
      Follows sig c keep (run ++ is) s (n₁ ++ n₂) t
        ((placeholders ((u.stack.length : Int) - s.stack.length) next).map .data ++ js)

section
variable {sig : Signature} {c : Config} {keep : List Label} {s t u : State} {n₁ n₂ : List (Label × Note)}

theorem Steps.follows_kept {is : List Instr} (h : Steps sig c is s n₁ t) (hkeep : ∀ i ∈ is, i.label ∈ keep) :
    Follows sig c keep is s n₁ t (is.map Instr.clear) := by
  induction h with
  | nil s => exact .nil s
  | cons hi _ ih => exact .kept (hkeep _ List.mem_cons_self) hi (ih fun i hi => hkeep i (List.mem_cons_of_mem _ hi))

theorem Steps.follows_dropped {is : List Instr} (h : Steps sig c is s n₁ t) (hdrop : ∀ i ∈ is, i.label ∉ keep)
    (next : Int) :
    Follows sig c keep is s n₁ t ((placeholders ((t.stack.length : Int) - s.stack.length) next).map .data) := by
  simpa using Follows.dropped next hdrop h (.nil t)

theorem Steps.runEffect_annotate {run : List DataInstr} {table : Table Label Note}
    (h : Steps sig c (run.map .data) s n₁ u) (hrecorded : ∀ e ∈ n₁, table.find? e.1 = some e.2) :
    runEffect (run.map fun i => { i with note := (table.find? i.label).or i.note }) =
      .ok ((u.stack.length : Int) - s.stack.length) := by
  obtain ⟨hsteps, hnotes⟩ := h.annotate hrecorded
  exact runEffect_eq hsteps hnotes

/-- The code that is built while `run` has been dropped and not yet been replaced. -/
theorem follows_sliceInstrs {table : Table Label Note} (run : List DataInstr) {is sliced : List DataInstr}
    {next last : Int} (hrun : Steps sig c (run.map .data) s n₁ u) (hdropped : ∀ i ∈ run.map Instr.data, i.label ∉ keep)
    (his : Steps sig c (is.map .data) u n₂ t) (hrecorded : ∀ e ∈ n₁ ++ n₂, table.find? e.1 = some e.2)
    (h : sliceInstrs keep (run.map fun i => { i with note := (table.find? i.label).or i.note }) next
      (is.map fun i => { i with note := (table.find? i.label).or i.note }) = .ok (sliced, last)) :
    Follows sig c keep ((run ++ is).map .data) s (n₁ ++ n₂) t (sliced.map .data) := by
  induction is generalizing run s u n₁ n₂ next sliced last with
  | nil =>
    cases his
    obtain ⟨net, hnet, rfl, -⟩ := eq_of_sliceInstrs_nil h
    rw [hrun.runEffect_annotate fun e he => hrecorded e (List.mem_append_left _ he), Except.ok.injEq] at hnet
    subst hnet
    simpa using hrun.follows_dropped hdropped next
  | cons i rest ih =>
    cases his with
    | @cons _ _ _ w _ n hi hrest =>
      rcases sliceInstrs_cons_cases h with ⟨hkept, net, code, hnet, hcode, rfl⟩ | ⟨hnot, h⟩
      · rw [hrun.runEffect_annotate fun e he => hrecorded e (List.mem_append_left _ he), Except.ok.injEq] at hnet
        subst hnet
        have hrecorded' : ∀ e ∈ [] ++ n, table.find? e.1 = some e.2 := fun e he =>
          hrecorded e (List.mem_append_right _ (List.mem_cons_of_mem _ he))
        have htail := ih [] (.nil w) (fun _ hj => by cases hj) hrest hrecorded' hcode
        rw [List.map_append, List.map_append]
        exact .dropped next hdropped hrun (.kept (i := .data i) hkept hi htail)
      · have hsnoc : Steps sig c ((run ++ [i]).map .data) s (n₁ ++ [(i.label, ⟨.known u, .known w⟩)]) w := by
          rw [List.map_append]
          exact hrun.append (.cons (i := .data i) hi (.nil w))
        have hdropped' : ∀ j ∈ (run ++ [i]).map Instr.data, j.label ∉ keep := by
          rw [List.map_append]
          intro j hj
          rcases List.mem_append.mp hj with hj | hj
          · exact hdropped j hj
          · rw [List.mem_singleton.mp hj]
            exact hnot
        have htail := ih (run ++ [i]) hsnoc hdropped' hrest (by simpa [Instr.label] using hrecorded)
          (by rwa [List.map_append])
        simpa [Instr.label] using htail

end

namespace Graph

variable {g slice : Graph} {c : Config} {r : Run} {keep : List Label} {index : Int} {b : Block} {inputs : List State}
  {s t : State} {notes : List (Label × Note)} {cut cut' : Cut}

/-! ## One block -/

/-- What stands in a slice in the place of the block `index`. Without it nothing would be left of the block. -/
def Rewrites (g : Graph) (c : Config) (r : Run) (keep : List Label) (index : Int) (b' : Option Block) : Prop :=
  ∀ b inputs s t notes, g.blocks.find? index = some b → g.Settled c r index b inputs s t notes →
    (∀ x ∈ b', x.isMerge = b.isMerge) ∧ Follows g.signature c keep b.instrs s notes t ((b'.map Block.instrs).getD [])

theorem rewrites_of_follows (hb : g.blocks.find? index = some b) {b' : Option Block}
    (hm : ∀ x ∈ b', x.isMerge = b.isMerge) (h : ∀ inputs s t notes, g.Settled c r index b inputs s t notes →
      Follows g.signature c keep b.instrs s notes t ((b'.map Block.instrs).getD [])) :
    g.Rewrites c r keep index b' := by
  intro b₁ inputs s t notes hb₁ hset
  cases hb.symm.trans hb₁
  exact ⟨hm, h inputs s t notes hset⟩

theorem find?_keepBlock (cut : Cut) (index : Int) (b' : Block) (u : Int) : (cut.keepBlock index b').blocks.find? u =
    if index = u then some b' else cut.blocks.find? u := by
  simp [Cut.keepBlock, Table.find?_insert]

/-- A data block that is removed has no instructions. -/
theorem find?_addInstrs (g : Graph) (hnew : cut.blocks.find? index = none) (instrs : List DataInstr) (next : Int) :
    ∃ b' : Option Block, (b'.map Block.instrs).getD [] = instrs.map .data ∧
      (∀ x ∈ b', x.isMerge = false ∧ x.note = none) ∧
      ∀ u, (cut.addInstrs g index instrs next).blocks.find? u = if index = u then b' else cut.blocks.find? u := by
  unfold Cut.addInstrs
  split
  · rename_i hempty
    obtain rfl : instrs = [] := List.isEmpty_iff.mp (Bool.and_eq_true_iff.mp hempty).1
    refine ⟨none, rfl, (fun _ hx => by cases hx), fun u => ?_⟩
    dsimp only
    split
    · rename_i hu
      exact hu ▸ hnew
    · rfl
  · refine ⟨some { body := .data instrs }, rfl, fun x hx => ?_, find?_keepBlock cut index _⟩
    cases hx
    exact ⟨rfl, rfl⟩

theorem rewrites_addInstrs (hb : g.blocks.find? index = some b) (hm : b.isMerge = false)
    (hnew : cut.blocks.find? index = none) {instrs : List DataInstr}
    (h : ∀ inputs s t notes, g.Settled c r index b inputs s t notes →
      Follows g.signature c keep b.instrs s notes t (instrs.map .data)) (next : Int) :
    ∃ b', g.Rewrites c r keep index b' ∧ ∀ u, (cut.addInstrs (g.withRun r) index instrs next).blocks.find? u =
      if index = u then b' else cut.blocks.find? u := by
  obtain ⟨b', hcode, hplain, hfind⟩ := find?_addInstrs (g.withRun r) hnew instrs next
  rw [← hcode] at h
  exact ⟨b', rewrites_of_follows hb (fun x hx => (hplain x hx).1.trans hm.symm) h, hfind⟩

/-- A block whose instructions are all kept stays as it is, without annotations. -/
theorem rewrites_clear (hb : g.blocks.find? index = some b) (hkeep : ∀ i ∈ (b.withRun r index).instrs, i.label ∈ keep) :
    g.Rewrites c r keep index (some (b.withRun r index).clear) := by
  have hm : ∀ x ∈ some (b.withRun r index).clear, x.isMerge = b.isMerge := by
    rintro x ⟨⟩
    rw [Block.isMerge_clear, Block.isMerge_withRun]
  have hinstrs : (b.withRun r index).clear.instrs = b.instrs.map Instr.clear := by
    simp [Block.instrs_clear, Block.instrs_withRun]
  refine rewrites_of_follows hb hm fun inputs s t notes hset => ?_
  rw [Option.map_some, Option.getD_some, hinstrs]
  simp only [Block.instrs_withRun, List.forall_mem_map, Instr.label_annotate] at hkeep
  exact hset.runs.follows_kept hkeep

theorem rewrites_addBlock (hb : g.blocks.find? index = some b) (hnew : cut.blocks.find? index = none)
    (hok : cut.addBlock (g.withRun r) keep index (b.withRun r index) = .ok cut') :
    ∃ b', g.Rewrites c r keep index b' ∧ ∀ u, cut'.blocks.find? u =
      if index = u then b' else cut.blocks.find? u := by
  cases Cut.adds_of_addBlock hok with
  | merge hbody =>
    refine ⟨_, rewrites_clear hb ?_, find?_keepBlock cut index _⟩
    simp [Block.instrs, hbody]
  | kept hbody hkeep =>
    refine ⟨_, rewrites_clear hb ?_, find?_keepBlock cut index _⟩
    simpa [Block.instrs, hbody, Instr.label] using hkeep
  | @dropped k net hbody hdrop hnet =>
    have hm : b.isMerge = false := by
      rw [← Block.isMerge_withRun r index, Block.isMerge, hbody]
    have hdropped : ∀ i ∈ (b.withRun r index).instrs, i.label ∉ keep := by
      simpa [Block.instrs, hbody, Instr.label] using hdrop
    simp only [Block.instrs_withRun, List.forall_mem_map, Instr.label_annotate] at hdropped
    refine rewrites_addInstrs hb hm hnew (fun inputs s t notes hset => ?_) _
    obtain rfl := Except.ok.inj (hnet.symm.trans (hset.blockEffect_eq hb hm))
    exact hset.runs.follows_dropped hdropped cut.next
  | data hannotated hsliced =>
    obtain ⟨is, hbody, rfl⟩ := Block.body_eq_data_of_withRun hannotated
    have hm : b.isMerge = false := by simp [Block.isMerge, hbody]
    have hinstrs : b.instrs = is.map .data := by simp [Block.instrs, hbody]
    refine rewrites_addInstrs hb hm hnew (fun inputs s t notes hset => ?_) _
    rw [hinstrs]
    exact follows_sliceInstrs [] (.nil s) (fun _ hi => by cases hi) (hinstrs ▸ hset.runs) hset.instrs hsliced

/-! ## All blocks -/

/-- What holds of each block of a restricted graph when it is built, or of its absence, holds in the end. -/
theorem restrict_blocks {P : Int → Option Block → Prop} (h : g.restrict keep = .ok slice)
    (hstep : ∀ (index : Int) (b : Block) (cut cut' : Cut), g.blocks.find? index = some b → cut.blocks.find? index = none →
      cut.addBlock g keep index b = .ok cut' →
      ∃ b', P index b' ∧ ∀ u, cut'.blocks.find? u = if index = u then b' else cut.blocks.find? u) (u : Int) :
    if g.hasBlock u then P u (slice.blocks.find? u) else slice.blocks.find? u = none := by
  obtain ⟨cut, hfold, h⟩ := bind_eq_ok.mp h
  rw [← pure_eq_ok.mp h]
  obtain ⟨hdone, hother⟩ : (∀ u ∈ g.sortedBlocks.map (·.1), P u (cut.blocks.find? u)) ∧
      ∀ u, u ∉ g.sortedBlocks.map (·.1) → cut.blocks.find? u = none := by
    refine foldlM_carries (fun done cut => (∀ u ∈ done.map (·.1), P u (cut.blocks.find? u)) ∧
      ∀ u, u ∉ done.map (·.1) → cut.blocks.find? u = none) ⟨by simp, fun _ _ => rfl⟩ hfold ?_
    rintro done e rest cut cut' hsplit ⟨hdone, hother⟩ hok
    have hb : g.blocks.find? e.1 = some e.2 := mem_sortedBlocks.mp (by simp [hsplit])
    obtain ⟨b', hb', hfind⟩ := hstep e.1 e.2 cut cut' hb (hother e.1 (fst_not_mem_of_sortedBlocks hsplit)) hok
    refine ⟨fun u hu => ?_, fun u hu => ?_⟩ <;> rw [List.map_append, List.map_singleton, List.mem_append] at hu <;>
      rw [hfind]
    · by_cases hui : e.1 = u
      · rw [if_pos hui]
        exact hui ▸ hb'
      · rw [if_neg hui]
        exact hdone u (hu.resolve_right fun hcon => hui (List.mem_singleton.mp hcon).symm)
    · obtain ⟨hold, hnew⟩ := not_or.mp hu
      rw [if_neg fun hcon => hnew (List.mem_singleton.mpr hcon.symm)]
      exact hother u hold
  split
  · rename_i hu
    exact hdone u (mem_fst_sortedBlocks.mpr hu)
  · rename_i hu
    exact hother u fun hcon => hu (mem_fst_sortedBlocks.mp hcon)

/-- In a restricted graph stands the code that is left of each block, and no block that nothing is left of. -/
theorem restrict_rewrites (c : Config) (h : (g.withRun r).restrict keep = .ok slice) (u : Int) :
    g.Rewrites c r keep u (slice.blocks.find? u) := by
  intro b inputs s t notes hb
  have hblock : (g.withRun r).hasBlock u = true := (hasBlock_withRun g r u).trans (hasBlock_iff.mpr ⟨b, hb⟩)
  have hrewrites : if (g.withRun r).hasBlock u then g.Rewrites c r keep u (slice.blocks.find? u)
      else slice.blocks.find? u = none := by
    refine restrict_blocks h (fun index b' cut cut' hb' hnew hok => ?_) u
    rw [find?_withRun, Option.map_eq_some_iff] at hb'
    obtain ⟨b, hb, rfl⟩ := hb'
    exact rewrites_addBlock hb hnew hok
  rw [if_pos hblock] at hrewrites
  exact hrewrites b inputs s t notes hb

end Graph
end Backslice
