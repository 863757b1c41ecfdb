import Backslice.Proofs.Slice.Contraction
import Backslice.Proofs.Slice.Influence
import Backslice.Proofs.Slice.Totality

/-! # The outline of a slice

A slice is a graph again, whatever the annotations of its blocks say. Its edges are listed at both ends and lead between
blocks that were kept, the ends of the function and the join points among them, and they are the contracted paths of
the original. -/

namespace Backslice

set_option autoImplicit false

/-! ## One block -/

theorem Block.isMerge_clear (b : Block) : b.clear.isMerge = b.isMerge := by
  unfold clear isMerge
  cases b.body <;> rfl

namespace Cut

variable {g : Graph} {cut cut' : Cut} {index : Int} {b : Block}

/-- The ways to add a block: join points and kept control instructions stay as they are, placeholders stand in for a
control instruction that is dropped, and the instructions of a data block are sliced. -/
inductive Adds (g : Graph) (keep : List Label) (index : Int) (b : Block) (cut : Cut) : Cut → Prop
  | merge (hbody : b.body = .merge) : Adds g keep index b cut (cut.keepBlock index b.clear)
  | kept {i : ControlInstr} (hbody : b.body = .control i) (hkeep : i.label ∈ keep) :
      Adds g keep index b cut (cut.keepBlock index b.clear)
  | dropped {i : ControlInstr} {net : Int} (hbody : b.body = .control i) (hdrop : i.label ∉ keep)
      (hnet : g.blockEffect index = .ok net) :
      Adds g keep index b cut (cut.addInstrs g index (placeholders net cut.next) (cut.next + net.natAbs))
  | data {instrs sliced : List DataInstr} {next : Int} (hbody : b.body = .data instrs)
      (hsliced : sliceInstrs keep [] cut.next instrs = .ok (sliced, next)) :
      Adds g keep index b cut (cut.addInstrs g index sliced next)

theorem adds_of_addBlock {keep : List Label} (h : cut.addBlock g keep index b = .ok cut') :
    Adds g keep index b cut cut' := by
  unfold addBlock at h
  split at h
  · rename_i hbody
    rw [← pure_eq_ok.mp h]
    exact .merge hbody
  · rename_i i hbody
    split at h
    · rename_i hkeep
      rw [← pure_eq_ok.mp h]
      exact .kept hbody (List.contains_iff_mem.mp hkeep)
    · rename_i hdrop
      obtain ⟨net, hnet, h⟩ := bind_eq_ok.mp h
      rw [← pure_eq_ok.mp h]
      exact .dropped hbody (fun hmem => hdrop (List.contains_iff_mem.mpr hmem)) hnet
  · rename_i instrs hbody
    obtain ⟨⟨sliced, next⟩, hsliced, h⟩ := bind_eq_ok.mp h
    rw [← pure_eq_ok.mp h]
    exact .data hbody hsliced

/-- What happens to a block: it stays in some form, or it is taken out. -/
inductive Step (g : Graph) (index : Int) (b : Block) (cut : Cut) : Cut → Prop
  | keep {b' : Block} {next : Int} (hkind : b'.isMerge = b.isMerge) :
      Step g index b cut { cut with blocks := cut.blocks.insert index b', next }
  | remove {next : Int} (hkind : b.isMerge = false) (hfree : cut.structural g index = false) :
      Step g index b cut { cut with wiring := cut.wiring.splice index, removed := index :: cut.removed, next }

theorem structural_eq_false : cut.structural g index = false ↔
    index ≠ g.entry ∧ index ≠ g.exit ∧ (cut.wiring.backEdges.leaving index).length ≤ 1 := by
  simp [structural, and_assoc]

theorem step_addInstrs (hkind : b.isMerge = false) (instrs : List DataInstr) (next : Int) :
    Step g index b cut (cut.addInstrs g index instrs next) := by
  unfold addInstrs
  split
  · rename_i hempty
    rw [Bool.and_eq_true, Bool.not_eq_true'] at hempty
    exact .remove hkind hempty.2
  · exact .keep hkind.symm

theorem step_of_addBlock {keep : List Label} (h : cut.addBlock g keep index b = .ok cut') : Step g index b cut cut' := by
  cases adds_of_addBlock h with
  | merge | kept => exact .keep (Block.isMerge_clear b)
  | dropped hbody | data hbody => exact step_addInstrs (by simp [Block.isMerge, hbody]) _ _

/-! ## Blocks that are left -/

variable {done : List Int} (hkept : ∀ u, cut.blocks.contains u = true ↔ u ∈ done ∧ u ∉ cut.removed)
  (hindex : index ∉ done)
include hkept hindex

theorem kept_insert (hremoved : ∀ u ∈ cut.removed, u ∈ done) (b : Block) (u : Int) :
    (cut.blocks.insert index b).contains u = true ↔ u ∈ done ++ [index] ∧ u ∉ cut.removed := by
  rw [Table.contains_insert, Bool.or_eq_true, hkept, beq_iff_eq, List.mem_append, List.mem_singleton]
  constructor
  · rintro (rfl | ⟨hu, hnot⟩)
    · exact ⟨Or.inr rfl, fun hcon => hindex (hremoved _ hcon)⟩
    · exact ⟨Or.inl hu, hnot⟩
  · rintro ⟨hu | rfl, hnot⟩
    · exact Or.inr ⟨hu, hnot⟩
    · exact Or.inl rfl

theorem kept_remove (u : Int) : cut.blocks.contains u = true ↔ u ∈ done ++ [index] ∧ u ∉ index :: cut.removed := by
  rw [hkept, List.mem_append, List.mem_singleton, List.mem_cons, not_or]
  constructor
  · rintro ⟨hu, hnot⟩
    exact ⟨Or.inl hu, fun heq => hindex (heq ▸ hu), hnot⟩
  · rintro ⟨hu, hne, hnot⟩
    exact ⟨hu.resolve_right hne, hnot⟩

end Cut

/-! ## All blocks -/

namespace Graph

variable {g slice : Graph} {index : Int} {b : Block} {done : List Int} {cut : Cut}

/-- The edges lead between blocks and are listed at both of their ends. -/
def Linked (g : Graph) : Prop := Wiring.Linked ⟨g.edges, g.backEdges⟩ fun u => g.hasBlock u = true

/-- The part of a slice that has been built from the blocks `done`. -/
structure Outlined (g : Graph) (done : List Int) (cut : Cut) : Prop where
  linked : cut.wiring.Linked fun u => g.hasBlock u = true ∧ u ∉ cut.removed
  contracts : cut.wiring.Contracts g.edges cut.removed
  unlisted : ∀ u ∈ cut.removed, ¬ cut.wiring.Lists u
  removed : ∀ u ∈ cut.removed, u ∈ done ∧ u ≠ g.entry ∧ u ≠ g.exit ∧
    ∀ b, g.blocks.find? u = some b → b.isMerge = false
  kept : ∀ u, cut.blocks.contains u = true ↔ u ∈ done ∧ u ∉ cut.removed
  kinds : ∀ u b', cut.blocks.find? u = some b' → ∃ b, g.blocks.find? u = some b ∧ b'.isMerge = b.isMerge
  reached : ∀ u, u ∉ cut.removed → (∃ p, g.Path p u) → ∃ p, cut.wiring.edges.Path g.entry p u
  unentered : ∀ u, g.predecessors u = [] → cut.wiring.backEdges.leaving u = []
  single : ∀ u, (g.predecessors u).length ≤ 1 → (cut.wiring.backEdges.leaving u).length ≤ 1

theorem outlined_start (hg : g.Linked) : g.Outlined [] { wiring := ⟨g.edges, g.backEdges⟩ } where
  linked := ⟨hg.inverse, fun u e he =>
    ⟨⟨(hg.ends u e he).1, List.not_mem_nil⟩, (hg.ends u e he).2, List.not_mem_nil⟩⟩
  contracts := Wiring.contracts_self ⟨g.edges, g.backEdges⟩
  unlisted u hu := by cases hu
  removed u hu := by cases hu
  kept u := by simp [Table.contains_eq_isSome_find?]
  kinds u b' hb' := by cases hb'
  reached _ _ h := h
  unentered _ h := h
  single _ h := h

theorem Outlined.keep (h : g.Outlined done cut) (hb : g.blocks.find? index = some b) (hindex : index ∉ done)
    {b' : Block} {next : Int} (hkind : b'.isMerge = b.isMerge) :
    g.Outlined (done ++ [index]) { cut with blocks := cut.blocks.insert index b', next } where
  linked := h.linked
  contracts := h.contracts
  unlisted := h.unlisted
  removed u hu := ⟨List.mem_append_left _ (h.removed u hu).1, (h.removed u hu).2⟩
  kept := Cut.kept_insert h.kept hindex (fun u hu => (h.removed u hu).1) b'
  kinds u x hx := by
    rw [Table.find?_insert] at hx
    split at hx
    · rename_i heq
      rw [← eq_of_beq heq, ← Option.some.inj hx]
      exact ⟨b, hb, hkind⟩
    · exact h.kinds u x hx
  reached := h.reached
  unentered := h.unentered
  single := h.single

theorem Outlined.remove (h : g.Outlined done cut) (hb : g.blocks.find? index = some b) (hindex : index ∉ done)
    {next : Int} (hkind : b.isMerge = false) (hfree : cut.structural g index = false) :
    g.Outlined (done ++ [index])
      { cut with wiring := cut.wiring.splice index, removed := index :: cut.removed, next } := by
  obtain ⟨hentry, hexit, hsingle⟩ := Cut.structural_eq_false.mp hfree
  have hnew : index ∉ cut.removed := fun hcon => hindex (h.removed index hcon).1
  constructor
  case linked =>
    refine (h.linked.splice hsingle).mono fun u hu => ⟨hu.1.1, ?_⟩
    exact fun hcon => (List.mem_cons.mp hcon).elim hu.2 hu.1.2
  case contracts => exact h.contracts.splice h.linked hsingle hnew
  case unlisted =>
    intro u hu hlists
    obtain ⟨hne, hold⟩ := h.linked.lists_splice hsingle hlists
    exact h.unlisted u ((List.mem_cons.mp hu).resolve_left hne) hold
  case removed =>
    intro u hu
    rcases List.mem_cons.mp hu with rfl | hu
    · refine ⟨List.mem_append_right _ (List.mem_singleton_self _), hentry, hexit, fun b' hb' => ?_⟩
      rw [hb, Option.some.injEq] at hb'
      exact hb' ▸ hkind
    · exact ⟨List.mem_append_left _ (h.removed u hu).1, (h.removed u hu).2⟩
  case kept => exact Cut.kept_remove h.kept hindex
  case kinds => exact h.kinds
  case reached =>
    -- the block is not the entry, so a path never starts on it and can go round it
    intro u hu hreach
    obtain ⟨hne, hold⟩ := not_or.mp (mt List.mem_cons.mpr hu)
    obtain ⟨q, hq⟩ := h.reached u hold hreach
    exact (h.linked.path_splice hsingle hentry hq).1 hne
  case unentered => exact fun u hu => h.linked.unentered_splice hsingle (h.unentered u hu)
  case single =>
    -- a list without repetition whose members are all equal has one member at most
    intro u hu
    have hold := h.single u hu
    refine length_le_one (Wiring.nodup_backEdges_splice hsingle (nodup_of_length_le_one hold)) ?_
    exact h.linked.unique_splice hsingle fun e he e' he' => eq_of_length_le_one hold he he'

theorem restrict_outlined (hg : g.Linked) {keep : List Label} (h : g.restrict keep = .ok slice) :
    ∃ cut, g.Outlined (g.sortedBlocks.map (·.1)) cut ∧ slice =
      { g with
        blocks := cut.blocks
        edges := (cut.wiring.prune g.entry g.exit cut.removed).edges
        backEdges := (cut.wiring.prune g.entry g.exit cut.removed).backEdges } := by
  obtain ⟨cut, hfold, h⟩ := bind_eq_ok.mp h
  refine ⟨cut, ?_, (pure_eq_ok.mp h).symm⟩
  refine foldlM_carries (fun done cut => g.Outlined (done.map (·.1)) cut) (outlined_start hg) hfold ?_
  intro done e rest cut cut' hsplit hcut hok
  have hb : g.blocks.find? e.1 = some e.2 := mem_sortedBlocks.mp (by simp [hsplit])
  have hindex := fst_not_mem_of_sortedBlocks hsplit
  rw [List.map_append, List.map_singleton]
  cases Cut.step_of_addBlock hok with
  | keep hkind => exact hcut.keep hb hindex hkind
  | remove hkind hfree => exact hcut.remove hb hindex hkind hfree

/-! ## The slice as a graph -/

theorem Outlined.kept_iff (h : g.Outlined (g.sortedBlocks.map (·.1)) cut) (u : Int) :
    cut.blocks.contains u = true ↔ g.hasBlock u = true ∧ u ∉ cut.removed :=
  (h.kept u).trans (and_congr_left fun _ => mem_fst_sortedBlocks)

/-- Nothing leads back to the entry, the entry reaches every block, and several edges enter join points only. -/
structure Rooted (g : Graph) : Prop where
  entry_free : g.predecessors g.entry = []
  reachable : ∀ u, g.hasBlock u = true → ∃ p, g.Path p u
  single : ∀ u b, g.blocks.find? u = some b → b.isMerge = false → (g.predecessors u).length ≤ 1

/-- `slice` is a graph of its own that consists of blocks of `g`, in some form. -/
structure IsReduct (g slice : Graph) : Prop where
  entry : slice.entry = g.entry
  exit : slice.exit = g.exit
  blocks : ∀ u b', slice.blocks.find? u = some b' → ∃ b, g.blocks.find? u = some b ∧ b'.isMerge = b.isMerge
  linked : slice.Linked
  /-- A block that was removed is not even listed without edges. -/
  unlisted : ∀ u, g.hasBlock u = true → slice.hasBlock u = false →
    slice.edges.contains u = false ∧ slice.backEdges.contains u = false
  /-- The two ends of the function and the join points stay. -/
  kept : ∀ u b, g.blocks.find? u = some b → u = g.entry ∨ u = g.exit ∨ b.isMerge = true → slice.hasBlock u = true
  exit_reached : ∀ e ∈ slice.predecessors slice.exit, ∃ p, slice.Path p e.target
  rooted : g.Rooted → slice.Rooted

theorem restrict_isReduct (hg : g.Linked) {keep : List Label} (h : g.restrict keep = .ok slice) : g.IsReduct slice := by
  obtain ⟨cut, hcut, rfl⟩ := restrict_outlined hg h
  have hkept := hcut.kept_iff
  have hremoved : ∀ u, g.hasBlock u = true ∧ u ∉ cut.removed → u ∉ cut.removed := fun u hu => hu.2
  constructor
  case entry => rfl
  case exit => rfl
  case blocks => exact hcut.kinds
  case linked => exact (hcut.linked.prune hremoved).mono fun u hu => (hkept u).mpr hu
  case unlisted =>
    intro u hu hgone
    have hmem : u ∈ cut.removed := by
      by_contra hcon
      exact Bool.false_ne_true (hgone.symm.trans ((hkept u).mpr ⟨hu, hcon⟩))
    have hnot := hcut.unlisted u hmem
    rw [← cut.wiring.lists_prune g.entry g.exit cut.removed, Wiring.Lists, not_or] at hnot
    exact ⟨Bool.eq_false_iff.mpr hnot.1, Bool.eq_false_iff.mpr hnot.2⟩
  case kept =>
    intro u b hb hstays
    refine (hkept u).mpr ⟨hasBlock_iff.mpr ⟨b, hb⟩, fun hcon => ?_⟩
    obtain ⟨-, hentry, hexit, hkind⟩ := hcut.removed u hcon
    rcases hstays with rfl | rfl | hm
    · exact hentry rfl
    · exact hexit rfl
    · rw [hkind b hb] at hm
      cases hm
  case exit_reached =>
    intro e he
    obtain ⟨-, hreach⟩ := (hcut.linked.mem_backEdges_prune hremoved).mp he
    obtain ⟨q, hq⟩ := hreach rfl
    exact ⟨q, hcut.linked.path_prune hremoved hq⟩
  case rooted =>
    -- the entry still reaches all that is left, so that nothing is cut off the exit
    intro hroot
    have hreach : ∀ u, g.hasBlock u = true ∧ u ∉ cut.removed → ∃ p, cut.wiring.edges.Path g.entry p u :=
      fun u hu => hcut.reached u hu.2 (hroot.reachable u hu.1)
    rw [hcut.linked.prune_eq hremoved hreach]
    refine ⟨hcut.unentered g.entry hroot.entry_free, fun u hu => hreach u ((hkept u).mp hu), fun u b' hb' hm => ?_⟩
    obtain ⟨b, hb, hkind⟩ := hcut.kinds u b' hb'
    exact hcut.single u (hroot.single u b hb (hkind ▸ hm))

theorem hasBlock_entry_of_keep {criterion : Label} {control : Option BlockDeps} {labels : List Label}
    (h : g.keep criterion none control = .ok labels) : g.hasBlock g.entry = true := by
  obtain ⟨d, hd, -⟩ := bind_eq_ok.mp h
  obtain ⟨useDef, huseDef, -⟩ := bind_eq_ok.mp hd
  obtain ⟨t, hcollect, -⟩ := bind_eq_ok.mp huseDef
  obtain ⟨start, hstart, -⟩ := bind_eq_ok.mp hcollect
  obtain ⟨note, hnote, -⟩ := bind_eq_ok.mp hstart
  obtain ⟨b, hb, -⟩ := blockNote_eq_ok.mp hnote
  exact hasBlock_iff.mpr ⟨b, hb⟩

theorem Connected.linked (h : g.Connected) : g.Linked := ⟨h.inverse, h.ends⟩

theorem Linked.withRun (h : g.Linked) (r : Run) : (g.withRun r).Linked :=
  h.mono fun u hu => (hasBlock_withRun g r u).trans hu

/-- The slice of an annotated graph is a graph of its own again. It has the entry of the original. -/
theorem slice_isReduct (hg : g.Linked) {criterion : Label} {control : Option BlockDeps}
    (hs : g.slice criterion control = .ok slice) : slice.hasBlock slice.entry = true ∧ g.IsReduct slice := by
  obtain ⟨home, -, hs⟩ := bind_eq_ok.mp hs
  obtain ⟨labels, hkeep, hs⟩ := bind_eq_ok.mp hs
  have hslice := restrict_isReduct hg hs
  obtain ⟨b, hb⟩ := hasBlock_iff.mp (hasBlock_entry_of_keep hkeep)
  exact ⟨hslice.entry ▸ hslice.kept g.entry b hb (Or.inl rfl), hslice⟩

/-- The slice for the last instruction of `nested` lacks the block of the outer branch that does nothing. -/
theorem nested_slice : ∃ r slice, nested.solve {} 20 = .ok r ∧ r.converged = true ∧
    (nested.withRun r).slice (.code 8) none = .ok slice ∧ slice.hasBlock 1 = true ∧ slice.hasBlock 6 = false ∧
    slice.hasBlock 7 = true := by
  have hrun : (do
      let r ← nested.solve {} 20
      let slice ← (nested.withRun r).slice (.code 8) none
      return (r.converged, slice.hasBlock 1, slice.hasBlock 6, slice.hasBlock 7)) =
      Except.ok (true, true, false, true) := by decide +kernel
  obtain ⟨r, hr, hrun⟩ := bind_eq_ok.mp hrun
  obtain ⟨slice, hslice, hrun⟩ := bind_eq_ok.mp hrun
  simp only [pure_eq_ok, Prod.mk.injEq] at hrun
  obtain ⟨hconv, h₁, h₆, h₇⟩ := hrun
  exact ⟨r, slice, hr, hconv, hslice, h₁, h₆, h₇⟩

theorem slice_isReduct_nested : ∃ r slice, nested.solve {} 20 = .ok r ∧ (nested.withRun r).Linked ∧
    (nested.withRun r).slice (.code 8) none = .ok slice ∧ slice.hasBlock 6 = false ∧
    slice.hasBlock slice.entry = true ∧ (nested.withRun r).IsReduct slice := by
  obtain ⟨r, slice, hr, -, hslice, -, h₆, -⟩ := nested_slice
  have hlinked := nested_wellFormed.connected.linked.withRun r
  exact ⟨r, slice, hr, hlinked, hslice, h₆, slice_isReduct hlinked hslice⟩

/-! ## Contracted paths -/

/-- A path of `g` from `u` to `v` through blocks that `slice` lacks, at least one, whose first edge has the condition
`cond`. -/
def Bypasses (g slice : Graph) (u : Int) (cond : Option Bool) (v : Int) : Prop :=
  ∃ d p, p ≠ [] ∧ ⟨d, cond⟩ ∈ g.edges.leaving u ∧ g.edges.Path d p v ∧
    ∀ x ∈ p, g.hasBlock x = true ∧ slice.hasBlock x = false

theorem bypasses_withRun {r : Run} {u v : Int} {cond : Option Bool} :
    (g.withRun r).Bypasses slice u cond v ↔ g.Bypasses slice u cond v := by
  simp only [Bypasses, hasBlock_withRun]
  exact Iff.rfl

theorem Outlined.mem_removed_iff (h : g.Outlined (g.sortedBlocks.map (·.1)) cut) {x : Int} :
    x ∈ cut.removed ↔ g.hasBlock x = true ∧ cut.blocks.contains x = false := by
  rw [← Bool.not_eq_true, h.kept_iff]
  constructor
  · exact fun hx => ⟨mem_fst_sortedBlocks.mp (h.removed x hx).1, fun hcon => hcon.2 hx⟩
  · exact fun ⟨hblock, hnot⟩ => not_not.mp fun hx => hnot ⟨hblock, hx⟩

/-- Where the entry reaches all blocks, the edges of a slice are the edges between its blocks and the contracted paths
from one of them to another. -/
theorem mem_edges_restrict (hg : g.Linked) (hreach : ∀ u, g.hasBlock u = true → ∃ p, g.Path p u) {keep : List Label}
    (h : g.restrict keep = .ok slice) {u v : Int} {cond : Option Bool} (hu : slice.hasBlock u = true)
    (hv : slice.hasBlock v = true) : ⟨v, cond⟩ ∈ slice.edges.leaving u ↔
      ⟨v, cond⟩ ∈ g.edges.leaving u ∨ (u ≠ v ∧ g.Bypasses slice u cond v) := by
  obtain ⟨cut, hcut, rfl⟩ := restrict_outlined hg h
  have hleft : ∀ u, g.hasBlock u = true ∧ u ∉ cut.removed → ∃ p, cut.wiring.edges.Path g.entry p u :=
    fun u hu => hcut.reached u hu.2 (hreach u hu.1)
  rw [hcut.linked.prune_eq (fun u hu => hu.2) hleft,
    hcut.contracts u v cond ((hcut.kept_iff u).mp hu).2 ((hcut.kept_iff v).mp hv).2, Edges.through_iff_path]
  constructor
  · rintro (he | ⟨hne, d, p, hd, hp, hinner⟩)
    · exact Or.inl he
    · by_cases hnil : p = []
      · subst hnil
        exact Or.inl (hp.source_eq ▸ hd)
      · exact Or.inr ⟨hne, d, p, hnil, hd, hp, fun x hx => hcut.mem_removed_iff.mp (hinner x hx)⟩
  · rintro (he | ⟨hne, d, p, -, hd, hp, hinner⟩)
    · exact Or.inl he
    · exact Or.inr ⟨hne, d, p, hd, hp, fun x hx => hcut.mem_removed_iff.mpr (hinner x hx)⟩

/-- The slice of an analyzed graph exists. An edge leads from one of its blocks to another if the original has this edge,
or a path with the same condition between them through removed blocks. -/
theorem slice_edges_iff_bypasses {c : Config} {r : Run} (hg : g.WellFormed) (hl : g.DistinctLabels)
    (ho : g.OrdinaryLabels) (hrange : g.IndicesInRange) {limit : Nat} (hr : g.solve c limit = .ok r)
    (hconv : r.converged = true) {criterion : Label} (hsite : g.IsSite criterion) :
    (∃ slice, (g.withRun r).slice criterion none = .ok slice) ∧
      ∀ control slice, (g.withRun r).slice criterion control = .ok slice →
        ∀ u v cond, slice.hasBlock u = true → slice.hasBlock v = true → (⟨v, cond⟩ ∈ slice.edges.leaving u ↔
          ⟨v, cond⟩ ∈ g.edges.leaving u ∨ (u ≠ v ∧ g.Bypasses slice u cond v)) := by
  constructor
  · have h := solved_of_converged hg.connected hl hr hconv
    obtain ⟨labels, slice, -, hslice, -⟩ := h.exists_slice ho (fun i hi => hrange.instr hi) hsite
    exact ⟨slice, hslice⟩
  · intro control slice hs u v cond hu hv
    obtain ⟨home, -, hs⟩ := bind_eq_ok.mp hs
    obtain ⟨labels, -, hs⟩ := bind_eq_ok.mp hs
    have hreach : ∀ u, (g.withRun r).hasBlock u = true → ∃ p, (g.withRun r).Path p u :=
      fun u hu => hg.reachable u (hasBlock_withRun g r u ▸ hu)
    refine (mem_edges_restrict (hg.connected.linked.withRun r) hreach hs hu hv).trans ?_
    exact or_congr_right (and_congr_right fun _ => bypasses_withRun)

/-- The removed block leaves an edge from the outer branch to the last join point, on the side on which it was. -/
theorem slice_edges_iff_bypasses_nested : ∃ r slice, nested.solve {} 20 = .ok r ∧ r.converged = true ∧
    nested.IsSite (.code 8) ∧ (nested.withRun r).slice (.code 8) none = .ok slice ∧
    ⟨7, some false⟩ ∉ nested.edges.leaving 1 ∧ nested.Bypasses slice 1 (some false) 7 ∧
    ⟨7, some false⟩ ∈ slice.edges.leaving 1 := by
  obtain ⟨r, slice, hr, hconv, hslice, h₁, h₆, h₇⟩ := nested_slice
  have hsite : nested.IsSite (.code 8) := by decide
  have hpath : nested.edges.Path 6 [6] 7 := .edge (e := ⟨7, none⟩) .start (by decide)
  have hbypass : nested.Bypasses slice 1 (some false) 7 :=
    ⟨6, [6], by decide, by decide, hpath, fun x hx => List.mem_singleton.mp hx ▸ ⟨by decide, h₆⟩⟩
  refine ⟨r, slice, hr, hconv, hsite, hslice, by decide, hbypass, ?_⟩
  have hedges := (slice_edges_iff_bypasses nested_wellFormed (by decide) (by decide) (by decide) hr hconv hsite).2
  exact (hedges none slice hslice 1 7 (some false) h₁ h₇).mpr (Or.inr ⟨by decide, hbypass⟩)

end Graph
end Backslice
