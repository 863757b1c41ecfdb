import Backslice.Proofs.UseDef.Build
import Backslice.Proofs.UseDef.Merge

/-! # Definitions and uses of a whole graph

A graph is readable if its annotations tell what every site defines and uses, with each site defining only names
of its own. From such a graph all definitions and uses can be collected. -/

namespace Backslice

set_option autoImplicit false

theorem Instr.Makes.eq_pushed {i : Instr} {v : Var} (h : i.Makes v) (hv : v.isConstant = false) :
    v = .pushed i.label := by
  rcases h with rfl | ⟨d, _, _, hd⟩
  · rfl
  · rw [Var.beq_iff] at hd
    cases v <;> simp_all [Var.key, Var.isConstant]

theorem Use.ofLabel_ordinary {l : Label} (h : l.isMerge = false) (v : Var) : Use.ofLabel l v = .instr l v := by
  cases l <;> first | rfl | cases h

/-- The instruction introduces the name, as a constant or not. -/
def Instr.Introduces (i : Instr) (constant : Bool) (v : Var) : Prop :=
  ∃ ds, i.defs = .ok ds ∧ ∃ x ∈ ds, x.isConstant = constant ∧ (x == v) = true

/-- The use is one of the instruction. -/
def Instr.Consumes (i : Instr) (u : Use) : Prop :=
  ∃ vs, i.uses = .ok vs ∧ ∃ x ∈ vs, (Use.instr i.label x == u) = true

namespace Graph

structure Readable (g : Graph) : Prop where
  labels : g.DistinctLabels
  ordinary : g.OrdinaryLabels
  entry : ∃ note, g.blockNote g.entry = .ok note ∧ ∀ v, note.before.state.Mentions v → g.signature.Names v
  merge : ∀ index b, g.blocks.find? index = some b → b.isMerge = true →
    ∃ pairs, g.mergeUses index b = .ok pairs ∧ ∀ e ∈ pairs, g.BornAt index e.2
  instr : ∀ i ∈ g.instrs, ∃ ds vs, i.defs = .ok ds ∧ i.uses = .ok vs ∧ (ds = [] ∨ ∃ x, ds = [x] ∧ i.Makes x)

variable {g : Graph} {index : Int} {b : Block} {i : Instr} {v : Var} {u : Use}

/-! ## Sites -/

/-- The new names at a join point. -/
def DefinedAt (g : Graph) (index : Int) (b : Block) (v : Var) : Prop :=
  ∃ pairs, g.mergeUses index b = .ok pairs ∧ ∃ e ∈ pairs, (e.2 == v) = true

/-- The uses at a join point. -/
def UsedAt (g : Graph) (index : Int) (b : Block) (u : Use) : Prop :=
  ∃ pairs, g.mergeUses index b = .ok pairs ∧ ∃ e ∈ pairs, (Use.merge index e.1 == u) = true

/-- A name that the start of the function, a join point or an instruction defines. -/
def Defines (g : Graph) (v : Var) : Prop :=
  (∃ note, g.blockNote g.entry = .ok note ∧ note.before.state.Mentions v) ∨
  (∃ index b, g.blocks.find? index = some b ∧ b.isMerge = true ∧ g.DefinedAt index b v) ∨
  ∃ i ∈ g.instrs, ∃ ds, i.defs = .ok ds ∧ ∃ x ∈ ds, (x == v) = true

/-- An instruction or a join point has the label. -/
def IsSite (g : Graph) (l : Label) : Prop :=
  (∃ i ∈ g.instrs, i.label = l) ∨ ∃ index b, g.blocks.find? index = some b ∧ b.isMerge = true ∧ l = .merge index

/-- The name of the use is among those that its site uses. -/
def HasUse (g : Graph) (u : Use) : Prop :=
  ∃ l, g.IsSite l ∧ ∃ vs, g.labelUses l = .ok vs ∧ ∃ v ∈ vs, (Use.ofLabel l v == u) = true

theorem labelUses_instr (hl : g.DistinctLabels) (ho : g.OrdinaryLabels) (hi : i ∈ g.instrs) :
    g.labelUses i.label = i.uses := by
  have hordinary := ho i hi
  unfold labelUses
  split
  · rename_i index heq
    rw [heq] at hordinary
    cases hordinary
  · rw [hl.findInstr hi]
    rfl

theorem labelUses_merge (hb : g.blocks.find? index = some b) {pairs : List (Var × Var)}
    (hpairs : g.mergeUses index b = .ok pairs) : g.labelUses (.merge index) = .ok (pairs.map (·.1)) := by
  rw [labelUses, findBlock_of_find? hb, ok_bind, hpairs]
  rfl

theorem Readable.labelUses_ok (h : g.Readable) {l : Label} (hl : g.IsSite l) : ∃ vs, g.labelUses l = .ok vs := by
  rcases hl with ⟨i, hi, rfl⟩ | ⟨index, b, hb, hm, rfl⟩
  · obtain ⟨_, vs, _, hvs, _⟩ := h.instr i hi
    exact ⟨vs, (labelUses_instr h.labels h.ordinary hi).trans hvs⟩
  · obtain ⟨pairs, hpairs, _⟩ := h.merge index b hb hm
    exact ⟨_, labelUses_merge hb hpairs⟩

theorem Readable.hasUse_iff (h : g.Readable) : g.HasUse u ↔
    (∃ index b, g.blocks.find? index = some b ∧ b.isMerge = true ∧ g.UsedAt index b u) ∨
      ∃ i ∈ g.instrs, i.Consumes u := by
  constructor
  · rintro ⟨l, ⟨i, hi, rfl⟩ | ⟨index, b, hb, hm, rfl⟩, vs, hvs, v, hv, heq⟩
    · rw [labelUses_instr h.labels h.ordinary hi] at hvs
      rw [Use.ofLabel_ordinary (h.ordinary i hi)] at heq
      exact Or.inr ⟨i, hi, vs, hvs, v, hv, heq⟩
    · obtain ⟨pairs, hpairs, _⟩ := h.merge index b hb hm
      rw [labelUses_merge hb hpairs, Except.ok.injEq] at hvs
      obtain ⟨e, he, rfl⟩ := List.mem_map.mp (hvs ▸ hv)
      exact Or.inl ⟨index, b, hb, hm, pairs, hpairs, e, he, heq⟩
  · rintro (⟨index, b, hb, hm, pairs, hpairs, e, he, heq⟩ | ⟨i, hi, vs, hvs, x, hx, heq⟩)
    · exact ⟨.merge index, Or.inr ⟨index, b, hb, hm, rfl⟩, _, labelUses_merge hb hpairs, e.1,
        List.mem_map_of_mem he, heq⟩
    · refine ⟨i.label, Or.inl ⟨i, hi, rfl⟩, vs, (labelUses_instr h.labels h.ordinary hi).trans hvs, x, hx, ?_⟩
      rwa [Use.ofLabel_ordinary (h.ordinary i hi)]

/-! ## Collecting -/

theorem mem_mergeBlocks {e : Int × Block} :
    e ∈ g.sortedBlocks.filter (·.2.isMerge) ↔ g.blocks.find? e.1 = some e.2 ∧ e.2.isMerge = true := by
  rw [List.mem_filter, sortedBlocks, mem_sortBy, Table.find?_eq_some_iff_mem]

theorem DistinctLabels.mem_sortedInstrs (h : g.DistinctLabels) {e : Label × Instr} :
    e ∈ g.sortedInstrs ↔ e.2 ∈ g.instrs ∧ e.2.label = e.1 := by
  rw [sortedInstrs, mem_sortBy, h.entries_instrTable, List.mem_map]
  constructor
  · rintro ⟨i, hi, rfl⟩
    exact ⟨hi, rfl⟩
  · rintro ⟨hi, hl⟩
    exact ⟨e.2, hi, Prod.ext hl rfl⟩

theorem exists_mergeBlock {P : Int → Block → Prop} : (∃ e ∈ g.sortedBlocks.filter (·.2.isMerge), P e.1 e.2) ↔
    ∃ index b, g.blocks.find? index = some b ∧ b.isMerge = true ∧ P index b := by
  simp only [mem_mergeBlocks, Prod.exists, and_assoc]

theorem DistinctLabels.exists_sortedInstr (h : g.DistinctLabels) {P : Instr → Prop} :
    (∃ e ∈ g.sortedInstrs, P e.2) ↔ ∃ i ∈ g.instrs, P i := by
  simp only [h.mem_sortedInstrs]
  constructor
  · rintro ⟨e, ⟨hi, _⟩, hp⟩
    exact ⟨e.2, hi, hp⟩
  · rintro ⟨i, hi, hp⟩
    exact ⟨(i.label, i), ⟨hi, rfl⟩, hp⟩

theorem bornAt_unique {index' : Int} (h : g.BornAt index v) (h' : g.BornAt index' v) : index = index' := by
  rcases h with ⟨n, rfl⟩ | ⟨rfl, rfl⟩ <;> rcases h' with ⟨m, hm⟩ | ⟨rfl, hm⟩ <;> cases hm <;> rfl

theorem Readable.bornAt_of_definedAt (h : g.Readable) (hb : g.blocks.find? index = some b) (hm : b.isMerge = true)
    (hv : g.DefinedAt index b v) : g.BornAt index v := by
  obtain ⟨pairs, hpairs, e, he, hev⟩ := hv
  obtain ⟨pairs', hpairs', hborn⟩ := h.merge index b hb hm
  rw [hpairs, Except.ok.injEq] at hpairs'
  have hborn := hborn e (hpairs' ▸ he)
  exact bornAt_of_key_eq hborn (Var.beq_iff.mp hev) ▸ hborn

theorem Readable.eq_pushed (h : g.Readable) (hi : i ∈ g.instrs) {ds : List Var} (hds : i.defs = .ok ds) {x : Var}
    (hx : x ∈ ds) (hconst : x.isConstant = false) (hxv : (x == v) = true) : v = .pushed i.label := by
  obtain ⟨ds', _, hds', _, hone⟩ := h.instr i hi
  rw [hds, Except.ok.injEq] at hds'
  rcases hone with hnil | ⟨y, hy, hmakes⟩
  · rw [hds', hnil] at hx
    cases hx
  · rw [hds', hy] at hx
    rw [← List.mem_singleton.mp hx] at hmakes
    obtain rfl := hmakes.eq_pushed hconst
    rw [Var.beq_iff] at hxv
    cases v <;> simp_all [Var.key]

open UseDef in
theorem Readable.addMerges_ok (h : g.Readable) {t : UseDef}
    (hnew : ∀ index v, g.BornAt index v → t.defs.contains v = false) :
    ∃ t', (g.sortedBlocks.filter (·.2.isMerge)).foldlM (fun t (e : Int × Block) => t.addMerge g e.1 e.2) t = .ok t' ∧
      Adds t t' (fun v => ∃ index b, g.blocks.find? index = some b ∧ b.isMerge = true ∧ g.DefinedAt index b v)
        (fun u => ∃ index b, g.blocks.find? index = some b ∧ b.isMerge = true ∧ g.UsedAt index b u)
        fun _ => False := by
  have hborn : ∀ e ∈ g.sortedBlocks.filter (·.2.isMerge), ∀ v, g.DefinedAt e.1 e.2 v → g.BornAt e.1 v :=
    fun e he v hv => h.bornAt_of_definedAt (mem_mergeBlocks.mp he).1 (mem_mergeBlocks.mp he).2 hv
  have hapart : (g.sortedBlocks.filter (·.2.isMerge)).Pairwise fun a b =>
      ∀ v, g.DefinedAt a.1 a.2 v → ¬ g.DefinedAt b.1 b.2 v := by
    refine (g.sortedBlocks_pairwise.filter _).imp_of_mem fun ha hb hne v hva hvb => ?_
    exact hne (bornAt_unique (hborn _ ha v hva) (hborn _ hb v hvb))
  have hstep : ∀ e ∈ g.sortedBlocks.filter (·.2.isMerge), ∀ t : UseDef,
      (∀ v, g.DefinedAt e.1 e.2 v → t.defs.contains v = false) →
      ∃ t', t.addMerge g e.1 e.2 = .ok t' ∧
        Adds t t' (g.DefinedAt e.1 e.2) (g.UsedAt e.1 e.2) fun _ => False := by
    intro e he t hfresh
    obtain ⟨pairs, hpairs, _⟩ := h.merge e.1 e.2 (mem_mergeBlocks.mp he).1 (mem_mergeBlocks.mp he).2
    obtain ⟨t', hok, hadds⟩ := addMerge_adds hpairs fun x hx => hfresh x.2 ⟨pairs, hpairs, x, hx, BEq.rfl⟩
    exact ⟨t', hok, hadds.congr (by simp [DefinedAt, hpairs]) (by simp [UsedAt, hpairs]) (by simp)⟩
  obtain ⟨t', hok, hadds⟩ := foldlM_adds _ (fun e he v hv => hnew e.1 v (hborn e he v hv)) hapart hstep
  refine ⟨t', hok, hadds.congr (fun v => ?_) (fun u => ?_) (by simp)⟩
  · exact exists_mergeBlock (P := fun index b => g.DefinedAt index b v)
  · exact exists_mergeBlock (P := fun index b => g.UsedAt index b u)

open UseDef in
theorem Readable.addInstrs_ok (h : g.Readable) {t : UseDef} (hnew : ∀ l, t.defs.contains (.pushed l) = false) :
    ∃ t', g.sortedInstrs.foldlM (fun t (e : Label × Instr) => t.addInstr e.1 e.2) t = .ok t' ∧
      Adds t t' (fun v => ∃ i ∈ g.instrs, i.Introduces false v) (fun u => ∃ i ∈ g.instrs, i.Consumes u)
        fun v => ∃ i ∈ g.instrs, i.Introduces true v := by
  have hpushed : ∀ e ∈ g.sortedInstrs, ∀ v, e.2.Introduces false v → v = .pushed e.1 := by
    rintro e he v ⟨ds, hds, x, hx, hconst, hxv⟩
    obtain ⟨hi, hl⟩ := h.labels.mem_sortedInstrs.mp he
    exact hl ▸ h.eq_pushed hi hds hx hconst hxv
  have hapart : g.sortedInstrs.Pairwise fun a b => ∀ v, a.2.Introduces false v → ¬ b.2.Introduces false v := by
    have hsorted : g.sortedInstrs.Pairwise fun a b => a.1 ≠ b.1 :=
      (sortBy_perm _).symm.pairwise g.instrTable.pairwise_fst_ne fun hab => hab.symm
    refine hsorted.imp_of_mem fun ha hb hne v hva hvb => hne ?_
    exact Var.pushed.inj ((hpushed _ ha v hva).symm.trans (hpushed _ hb v hvb))
  have hstep : ∀ e ∈ g.sortedInstrs, ∀ t : UseDef, (∀ v, e.2.Introduces false v → t.defs.contains v = false) →
      ∃ t', t.addInstr e.1 e.2 = .ok t' ∧ Adds t t' (e.2.Introduces false) e.2.Consumes (e.2.Introduces true) := by
    intro e he t hfresh
    obtain ⟨hi, hl⟩ := h.labels.mem_sortedInstrs.mp he
    obtain ⟨ds, vs, hds, hvs, hone⟩ := h.instr e.2 hi
    have hdistinct : ds.Pairwise fun a b => (a == b) = false := by
      rcases hone with rfl | ⟨x, rfl, -⟩ <;> simp
    obtain ⟨t', hok, hadds⟩ := addInstr_adds hds hvs hdistinct
      fun x hx hconst => hfresh x ⟨ds, hds, x, hx, hconst, BEq.rfl⟩
    exact ⟨t', hok, hadds.congr (by simp [Instr.Introduces, hds]) (by simp [Instr.Consumes, hvs, hl])
      (by simp [Instr.Introduces, hds])⟩
  obtain ⟨t', hok, hadds⟩ := foldlM_adds _ (fun e he v hv => hpushed e he v hv ▸ hnew e.1) hapart hstep
  refine ⟨t', hok, hadds.congr (fun v => ?_) (fun u => ?_) fun v => ?_⟩
  · exact h.labels.exists_sortedInstr (P := fun i => i.Introduces false v)
  · exact h.labels.exists_sortedInstr (P := fun i => i.Consumes u)
  · exact h.labels.exists_sortedInstr (P := fun i => i.Introduces true v)

/-- Apart from the names at the start, a name is defined where a join point makes it, or where an instruction does. -/
theorem defines_iff {note : Note} (hnote : g.blockNote g.entry = .ok note) : g.Defines v ↔
    note.before.state.Mentions v ∨
      (∃ index b, g.blocks.find? index = some b ∧ b.isMerge = true ∧ g.DefinedAt index b v) ∨
      (∃ i ∈ g.instrs, i.Introduces false v) ∨ ∃ i ∈ g.instrs, i.Introduces true v := by
  refine or_congr ?_ (or_congr Iff.rfl ?_)
  · rw [hnote]
    simp
  · constructor
    · rintro ⟨i, hi, ds, hds, x, hx, hxv⟩
      cases hconst : x.isConstant with
      | false => exact Or.inl ⟨i, hi, ds, hds, x, hx, hconst, hxv⟩
      | true => exact Or.inr ⟨i, hi, ds, hds, x, hx, hconst, hxv⟩
    · rintro (⟨i, hi, ds, hds, x, hx, -, hxv⟩ | ⟨i, hi, ds, hds, x, hx, -, hxv⟩)
      · exact ⟨i, hi, ds, hds, x, hx, hxv⟩
      · exact ⟨i, hi, ds, hds, x, hx, hxv⟩

/-- A readable graph is collected without a clash, and the tables hold its definitions and its uses. -/
theorem Readable.collect_ok (h : g.Readable) : ∃ t, UseDef.collect g = .ok t ∧ t.Tidy ∧
    (∀ v, t.defs.contains v = true ↔ g.Defines v) ∧ ∀ u, t.Uses u ↔ g.HasUse u := by
  obtain ⟨note, hnote, hnames⟩ := h.entry
  obtain ⟨t₁, hok₁, hadds₁⟩ := UseDef.addEntry_adds (t := {}) hnote fun v _ => rfl
  have hnew₁ : ∀ index v, g.BornAt index v → t₁.defs.contains v = false := by
    intro index v hborn
    rw [Bool.eq_false_iff, ne_eq, hadds₁.defs]
    rintro (hcon | hv)
    · cases hcon
    · exact not_passed_of_bornAt (p := []) List.not_mem_nil hborn (Or.inl (hnames v hv))
  obtain ⟨t₂, hok₂, hadds₂⟩ := h.addMerges_ok hnew₁
  have hnew₂ : ∀ l, t₂.defs.contains (.pushed l) = false := by
    intro l
    rw [Bool.eq_false_iff, ne_eq, (hadds₁.trans hadds₂).defs]
    rintro (hcon | hv | ⟨index, b, hb, hm, hv⟩)
    · cases hcon
    · obtain ⟨_, ⟨_, hcon⟩ | ⟨_, hcon⟩⟩ := hnames _ hv <;> cases hcon
    · obtain ⟨_, hcon⟩ | ⟨_, hcon⟩ := h.bornAt_of_definedAt hb hm hv <;> cases hcon
  obtain ⟨t₃, hok₃, hadds₃⟩ := h.addInstrs_ok hnew₂
  have hadds := (hadds₁.trans hadds₂).trans hadds₃
  obtain ⟨hdefs, huses⟩ := t₃.addConstants_spec
  refine ⟨t₃.addConstants, ?_, ?_, fun v => ?_, fun u => ?_⟩
  · rw [UseDef.collect, hok₁, ok_bind]
    exact bind_eq_ok.mpr ⟨t₂, hok₂, bind_eq_ok.mpr ⟨t₃, hok₃, rfl⟩⟩
  · unfold UseDef.Tidy
    rw [huses]
    exact hadds.tidy fun v us hv => nomatch hv
  · have hdefs₀ : ({} : UseDef).defs.contains v = false := rfl
    have hproducers₀ : ({} : UseDef).producers.contains v = false := rfl
    rw [hdefs, hadds.defs, hadds.producers, defines_iff hnote, hdefs₀, hproducers₀]
    simp only [Bool.false_eq_true, false_or, or_assoc]
  · have hempty : ¬ ({} : UseDef).Uses u := fun ⟨_, hcon, _⟩ => nomatch hcon
    unfold UseDef.Uses
    rw [huses]
    refine (hadds.uses u).trans ?_
    rw [h.hasUse_iff]
    simp only [hempty, false_or]

end Graph
end Backslice
