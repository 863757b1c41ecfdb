import Backslice.Proofs.Dominance

/-! # The annotated graph

The states that a solution records, with the principle that an invariant of them has to hold at the start and to
survive instructions and join points, and how they are found again in the annotated graph. -/

namespace Backslice

set_option autoImplicit false

/-! ## The states of a solution -/

namespace Graph

variable {g : Graph} {c : Config} {r : Run} {index : Int} {b : Block}

/-- The state stands at the start of a block, or behind one of its instructions. -/
def Reached (g : Graph) (c : Config) (r : Run) (s : State) : Prop :=
  ∃ index b inputs start t notes pre post n, g.blocks.find? index = some b ∧
    g.Settled c r index b inputs start t notes ∧ b.instrs = pre ++ post ∧ Steps g.signature c pre start n s ∧
    n ⊆ notes

variable {inputs : List State} {s t : State} {notes : List (Label × Note)}

theorem Settled.reached_start (h : g.Settled c r index b inputs s t notes) (hb : g.blocks.find? index = some b) :
    g.Reached c r s :=
  ⟨index, b, inputs, s, t, notes, [], b.instrs, [], hb, h, rfl, .nil s, List.nil_subset _⟩

theorem Settled.reached_exit (h : g.Settled c r index b inputs s t notes) (hb : g.blocks.find? index = some b) :
    g.Reached c r t :=
  ⟨index, b, inputs, s, t, notes, b.instrs, [], notes, hb, h, (List.append_nil _).symm, h.runs,
    List.Subset.refl _⟩

theorem Solved.reached_of_input (h : g.Solved c r) (hset : g.Settled c r index b inputs s t notes) {u : State}
    (hu : u ∈ inputs) : ∃ t', g.Reached c r t' ∧ (u == t') = true := by
  obtain ⟨e, he, t', ht', hut⟩ := hset.pred_of_input hu
  have hedge := (h.connected.inverse e.target index e.cond).mpr he
  obtain ⟨bₑ, hbₑ⟩ := hasBlock_iff.mp (h.connected.ends e.target _ hedge).1
  obtain ⟨_, _, tₑ, _, hsetₑ⟩ := h.settled e.target bₑ hbₑ
  obtain rfl : tₑ = t' := hsetₑ.exits.unique ht'
  exact ⟨tₑ, hsetₑ.reached_exit hbₑ, hut⟩

theorem Solved.instr (h : g.Solved c r) {i : Instr} (hi : i ∈ g.instrs) :
    ∃ u w, r.instrs.find? i.label = some ⟨.known u, .known w⟩ ∧ i.Effect g.signature c u w ∧
      ¬ u.Mentions (.pushed i.label) ∧ g.Reached c r u ∧ g.Reached c r w := by
  obtain ⟨index, b', hfind, hib⟩ := exists_block_of_mem_instrs hi
  obtain ⟨pre, post, hsplit⟩ := List.append_of_mem hib
  obtain ⟨inputs, s, t, notes, hset⟩ := h.settled index b' hfind
  have hruns := hset.runs
  rw [hsplit] at hruns
  obtain ⟨n₁, n₂, u, rfl, hpre, hpost⟩ := hruns.split
  cases hpost with
  | @cons _ _ _ w _ n₃ heffect hrest =>
    refine ⟨u, w, hset.instrs _ (List.mem_append_right _ (List.mem_cons_self ..)), heffect,
      h.not_mentions_pushed hfind hsplit hset hpre, ?_, ?_⟩
    · exact ⟨index, b', inputs, s, t, _, pre, i :: post, n₁, hfind, hset, hsplit, hpre, List.subset_append_left ..⟩
    · refine ⟨index, b', inputs, s, t, _, pre ++ [i], post, _, hfind, hset, ?_,
        hpre.append (.cons heffect (.nil w)), ?_⟩
      · rw [hsplit, List.append_assoc]
        rfl
      · exact List.append_subset.mpr ⟨List.subset_append_left .., by simp⟩

/-- What holds at the start of the function, and survives instructions and join points, holds of all states of a
solution. At a join point it is enough that it holds of one state in front of it: along a path it does. -/
theorem Solved.invariant (h : g.Solved c r) (P : State → Prop) (hentry : P g.signature.entryState)
    (hbeq : ∀ s t, (s == t) = true → P t → P s)
    (hstep : ∀ i u w, i ∈ g.instrs → r.instrs.find? i.label = some ⟨.known u, .known w⟩ →
      i.Effect g.signature c u w → P u → P w)
    (hjoin : ∀ index b inputs s t notes, g.blocks.find? index = some b →
      g.Settled c r index b inputs s t notes → ∀ u ∈ inputs, P u → P s) :
    ∀ s, g.Reached c r s → P s := by
  have hrun : ∀ {index b inputs s t notes}, g.blocks.find? index = some b →
      g.Settled c r index b inputs s t notes → ∀ {is x n u}, Steps g.signature c is x n u →
      is ⊆ b.instrs → n ⊆ notes → P x → P u := by
    intro index b inputs s t notes hb hset is x n u hsteps
    induction hsteps with
    | nil => exact fun _ _ hx => hx
    | @cons i rest x y z n hi _ ih =>
      intro his hn hx
      obtain ⟨hib, hrest⟩ := List.cons_subset.mp his
      obtain ⟨hnote, hnrest⟩ := List.cons_subset.mp hn
      exact ih hrest hnrest (hstep i x y (mem_instrs hb hib) (hset.instrs _ hnote) hi hx)
  have hstart : ∀ {p index}, g.Path p index → ∀ {b inputs s t notes}, g.blocks.find? index = some b →
      g.Settled c r index b inputs s t notes → P s := by
    intro p index hp
    induction hp with
    | start =>
      intro b inputs s t notes _ hset
      rw [(h.entry_start hset).2]
      exact hentry
    | @edge p u e _ he ih =>
      intro b inputs s t notes hb hset
      obtain ⟨bᵤ, _, sᵤ, tᵤ, _, hbᵤ, hsetᵤ, v, hv, hvt⟩ := h.input_along he hset
      have hs := ih hbᵤ hsetᵤ
      have htᵤ := hrun hbᵤ hsetᵤ hsetᵤ.runs (List.Subset.refl _) (List.Subset.refl _) hs
      exact hjoin e.target b inputs s t notes hb hset v hv (hbeq v tᵤ hvt htᵤ)
  rintro s ⟨index, b, inputs, start, t, notes, pre, post, n, hb, hset, hsplit, hsteps, hn⟩
  obtain ⟨p, hp⟩ := h.connected.reachable index (hasBlock_iff.mpr ⟨b, hb⟩)
  have hs := hstart hp hb hset
  exact hrun hb hset hsteps (hsplit ▸ List.subset_append_left ..) hn hs

theorem Solved.lengths (h : g.Solved c r) (hs : g.Reached c r s) :
    s.locals.length = g.signature.localCount ∧ s.globals.length = g.signature.globals.length := by
  refine h.invariant
    (fun s => s.locals.length = g.signature.localCount ∧ s.globals.length = g.signature.globals.length)
    ?_ ?_ ?_ ?_ s hs
  · simp [Signature.entryState, State.entry]
  · intro s t hst ht
    exact ⟨(State.length_locals_of_beq hst).trans ht.1, (State.length_globals_of_beq hst).trans ht.2⟩
  · intro i u w _ _ hi hu
    have hlengths := hi.lengths
    exact ⟨hlengths.1.trans hu.1, hlengths.2.trans hu.2⟩
  · intro index b inputs s t notes _ hset u hu hlen
    have hshape := hset.starts.shape hu
    exact ⟨(State.length_locals_of_shape hshape).symm.trans hlen.1,
      (State.length_globals_of_shape hshape).symm.trans hlen.2⟩

end Graph

/-! ## Annotations -/

/-- The instruction with the states that are recorded for its label. -/
def Instr.annotate (notes : Table Label Note) : Instr → Instr
  | .data i => .data { i with note := (notes.find? i.label).or i.note }
  | .control i => .control { i with note := (notes.find? i.label).or i.note }

@[simp] theorem Instr.label_annotate (notes : Table Label Note) (i : Instr) : (i.annotate notes).label = i.label := by
  cases i <;> rfl

theorem Instr.note_annotate {notes : Table Label Note} {i : Instr} {a : Note} (h : notes.find? i.label = some a) :
    (i.annotate notes).note = some a := by
  cases i with
  | data d => simp [annotate, note, show notes.find? d.label = some a from h]
  | control k => simp [annotate, note, show notes.find? k.label = some a from h]

theorem Instr.requireNote_annotate {notes : Table Label Note} {i : Instr} {a : Note}
    (h : notes.find? i.label = some a) : (i.annotate notes).requireNote = .ok a := by
  unfold requireNote
  rw [note_annotate h]
  rfl

theorem Block.instrs_annotateInstrs (notes : Table Label Note) (b : Block) :
    (b.annotateInstrs notes).instrs = b.instrs.map (Instr.annotate notes) := by
  unfold annotateInstrs
  cases hbody : b.body <;> simp [instrs, hbody, Instr.annotate, Function.comp_def]

/-- The block with the states that a run has recorded. -/
def Block.withRun (r : Run) (index : Int) (b : Block) : Block :=
  { b.annotateInstrs r.instrs with note := (r.blocks.find? index).or (b.annotateInstrs r.instrs).note }

theorem Block.instrs_withRun (r : Run) (index : Int) (b : Block) :
    (b.withRun r index).instrs = b.instrs.map (Instr.annotate r.instrs) :=
  b.instrs_annotateInstrs r.instrs

@[simp] theorem Block.isMerge_withRun (r : Run) (index : Int) (b : Block) :
    (b.withRun r index).isMerge = b.isMerge := by
  unfold withRun annotateInstrs
  cases hbody : b.body <;> simp [isMerge, hbody]

namespace Graph

variable {g : Graph} {c : Config} {r : Run} {index : Int} {b : Block}

@[simp] theorem find?_withRun (g : Graph) (r : Run) (index : Int) :
    (g.withRun r).blocks.find? index = (g.blocks.find? index).map (Block.withRun r index) := by
  exact Table.find?_map_of_lawful g.blocks _ index

theorem find?_withRun_of_find? (hb : g.blocks.find? index = some b) (r : Run) :
    (g.withRun r).blocks.find? index = some (b.withRun r index) := by
  rw [find?_withRun, hb]
  rfl

theorem hasBlock_withRun (g : Graph) (r : Run) (index : Int) : (g.withRun r).hasBlock index = g.hasBlock index := by
  rw [Bool.eq_iff_iff, hasBlock_iff, hasBlock_iff, find?_withRun]
  cases g.blocks.find? index <;> simp

theorem findBlock_withRun (hb : g.blocks.find? index = some b) :
    (g.withRun r).findBlock index = .ok (b.withRun r index) :=
  findBlock_of_find? (find?_withRun_of_find? hb r)

theorem note_withRun {note : Note} (h : r.blocks.find? index = some note) : (b.withRun r index).note = some note := by
  simp [Block.withRun, h]

theorem blockNote_eq_ok {a : Note} :
    g.blockNote index = .ok a ↔ ∃ b, g.blocks.find? index = some b ∧ b.note = some a := by
  unfold blockNote findBlock
  cases g.blocks.find? index with
  | none => exact ⟨(nomatch ·), fun ⟨_, h, _⟩ => nomatch h⟩
  | some b =>
    simp only [pure_bind, Option.some.injEq, exists_eq_left']
    cases b.note with
    | none => exact ⟨(nomatch ·), (nomatch ·)⟩
    | some a' => rw [pure_eq_ok, Option.some.injEq]

@[simp] theorem predecessors_withRun (g : Graph) (r : Run) (index : Int) :
    (g.withRun r).predecessors index = g.predecessors index := rfl

theorem mem_entries_withRun {e : Int × Block} : e ∈ (g.withRun r).blocks.entries ↔
    ∃ b, g.blocks.find? e.1 = some b ∧ e.2 = b.withRun r e.1 := by
  rw [← Table.find?_eq_some_iff_mem, find?_withRun, Option.map_eq_some_iff]
  exact exists_congr fun b => and_congr_right fun _ => eq_comm

theorem instrs_withRun (g : Graph) (r : Run) : (g.withRun r).instrs = g.instrs.map (Instr.annotate r.instrs) := by
  have hentries : (g.withRun r).blocks.entries = g.blocks.entries.map fun e => (e.1, e.2.withRun r e.1) := rfl
  rw [instrs, Table.values, hentries, List.map_map, List.flatMap_map, instrs, Table.values, List.flatMap_map,
    List.map_flatMap]
  exact congrArg (fun f => g.blocks.entries.flatMap f) (funext fun e => Block.instrs_withRun r e.1 e.2)

theorem mem_instrs_withRun {i : Instr} : i ∈ (g.withRun r).instrs ↔ ∃ j ∈ g.instrs, j.annotate r.instrs = i := by
  rw [instrs_withRun, List.mem_map]

theorem sortedBlocks_pairwise (g : Graph) : g.sortedBlocks.Pairwise fun a b => a.1 ≠ b.1 :=
  (sortBy_perm _).symm.pairwise g.blocks.pairwise_fst_ne fun hab => hab.symm

theorem mem_sortedBlocks {e : Int × Block} : e ∈ g.sortedBlocks ↔ g.blocks.find? e.1 = some e.2 :=
  mem_sortBy.trans Table.find?_eq_some_iff_mem.symm

theorem mem_fst_sortedBlocks {u : Int} : u ∈ g.sortedBlocks.map (·.1) ↔ g.hasBlock u = true := by
  rw [List.mem_map, hasBlock_iff]
  constructor
  · rintro ⟨e, he, rfl⟩
    exact ⟨e.2, mem_sortedBlocks.mp he⟩
  · rintro ⟨b, hb⟩
    exact ⟨(u, b), mem_sortedBlocks.mpr hb, rfl⟩

theorem fst_not_mem_of_sortedBlocks {done rest : List (Int × Block)} {e : Int × Block}
    (h : g.sortedBlocks = done ++ e :: rest) : e.1 ∉ done.map (·.1) := by
  have hdistinct := g.sortedBlocks_pairwise
  rw [h, List.pairwise_append] at hdistinct
  intro hcon
  obtain ⟨a, ha, hae⟩ := List.mem_map.mp hcon
  exact hdistinct.2.2 a ha e List.mem_cons_self hae

theorem DistinctLabels.withRun (h : g.DistinctLabels) (r : Run) : (g.withRun r).DistinctLabels := by
  unfold DistinctLabels at h ⊢
  rw [instrs_withRun, List.map_map]
  simpa [Function.comp_def] using h

theorem OrdinaryLabels.withRun (h : g.OrdinaryLabels) (r : Run) : (g.withRun r).OrdinaryLabels := by
  intro i hi
  obtain ⟨j, hj, rfl⟩ := mem_instrs_withRun.mp hi
  rw [Instr.label_annotate]
  exact h j hj

theorem NoPlaceholders.withRun (h : g.NoPlaceholders) (r : Run) : (g.withRun r).NoPlaceholders := by
  intro i hi
  obtain ⟨j, hj, rfl⟩ := mem_instrs_withRun.mp hi
  rw [Instr.label_annotate]
  exact h j hj

theorem DistinctLabels.findInstr (h : g.DistinctLabels) {i : Instr} (hi : i ∈ g.instrs) :
    g.findInstr i.label = .ok i := by
  unfold Graph.findInstr
  have hfind : g.instrs.reverse.find? (fun j => decide (j.label = i.label)) = some i := by
    have hsome : (g.instrs.reverse.find? fun j => decide (j.label = i.label)).isSome := by
      rw [List.find?_isSome]
      exact ⟨i, List.mem_reverse.mpr hi, by simp⟩
    obtain ⟨j, hj⟩ := Option.isSome_iff_exists.mp hsome
    have hmem : j ∈ g.instrs := List.mem_reverse.mp (List.mem_of_find?_eq_some hj)
    have hlabel : j.label = i.label := by simpa using List.find?_some hj
    rw [hj, List.inj_on_of_nodup_map h hmem hi hlabel]
  rw [hfind]
  rfl

theorem DistinctLabels.entries_instrTable (h : g.DistinctLabels) :
    g.instrTable.entries = g.instrs.map fun i => (i.label, i) := by
  refine Table.entries_ofList ?_
  rw [List.map_map]
  exact List.Pairwise.imp (fun {a b} hab => by simpa using hab) h

end Graph
end Backslice
