import Backslice.Proofs.Bare
import Backslice.Proofs.Slice.Reanalysis

/-! # A graph beside its slice

A slice of a graph without cycles has none either. With the analyses of both at hand, what the slice has in the place of
a removed block is what the last block left that leads there, so that each block of the graph can be followed in the
slice from the same predecessors. -/

namespace Backslice

set_option autoImplicit false

/-! ## The instructions of a slice -/

theorem Instr.fits_clear {sig : Signature} {i : Instr} (h : i.Fits sig) : i.clear.Fits sig := by
  cases i with
  | data d => exact h
  | control k => exact h

theorem fits_placeholder (sig : Signature) (sinks : Bool) (id : Int) :
    (Instr.data (placeholder sinks id)).Fits sig := by
  cases sinks <;> simp [Instr.Fits, DataInstr.InRange, placeholder]

namespace Graph

variable {g slice : Graph} {r r' : Run} {keep : List Label} {u v : Int} {b : Block} {inputs : List State}
  {s t t' : State} {notes : List (Label × Note)}

/-! ## Two analyses -/

/-- The block has been removed. -/
def Gone (g slice : Graph) (u : Int) : Prop := g.hasBlock u = true ∧ slice.hasBlock u = false

/-- A graph without cycles and its slice, both analyzed without propagation. -/
structure Sliced (g : Graph) (r : Run) (keep : List Label) (slice : Graph) (r' : Run) : Prop where
  exact : g.Exact r
  exact' : slice.Exact r'
  signature : slice.signature = g.signature
  entry : slice.entry = g.entry
  exit : slice.exit = g.exit
  blocks : ∀ u, slice.hasBlock u = true → g.hasBlock u = true
  gone : ∀ u b, g.Gone slice u → g.blocks.find? u = some b → u ≠ g.entry ∧ b.isMerge = false
  rewrites : ∀ u, g.Rewrites .bare r keep u (slice.blocks.find? u)
  edges : ∀ u v cond, slice.hasBlock u = true → slice.hasBlock v = true →
    (⟨v, cond⟩ ∈ slice.edges.leaving u ↔ g.edges.Through (g.Gone slice) u cond v)

theorem before_of_through {inner : Int → Prop} {cond : Option Bool} (h : g.edges.Through inner u cond v) :
    g.Before u v := by
  induction h with
  | edge he => exact before_of_edge he
  | step _ _ he ih => exact ih.trans (before_of_edge he)

theorem mem_edges_restrict_acyclic (hg : g.Connected) (hacyclic : g.Acyclic)
    (h : (g.withRun r).restrict keep = .ok slice) {cond : Option Bool} (hu : slice.hasBlock u = true)
    (hv : slice.hasBlock v = true) :
    ⟨v, cond⟩ ∈ slice.edges.leaving u ↔ g.edges.Through (g.Gone slice) u cond v := by
  have hreach : ∀ u, (g.withRun r).hasBlock u = true → ∃ p, (g.withRun r).Path p u :=
    fun u hu => hg.reachable u (hasBlock_withRun g r u ▸ hu)
  rw [mem_edges_restrict (hg.linked.withRun r) hreach h hu hv, bypasses_withRun]
  constructor
  · rintro (he | ⟨-, d, p, -, hd, hp, hinner⟩)
    · exact .edge he
    · exact Edges.through_iff_path.mpr ⟨d, p, hd, hp, hinner⟩
  · intro hthrough
    have hne : u ≠ v := by
      rintro rfl
      exact hacyclic u (before_of_through hthrough)
    obtain ⟨d, p, hd, hp, hinner⟩ := Edges.through_iff_path.mp hthrough
    by_cases hnil : p = []
    · subst hnil
      exact Or.inl (hp.source_eq ▸ hd)
    · exact Or.inr ⟨hne, d, p, hnil, hd, hp, hinner⟩

/-- The edges of a slice are contracted ways, so that a cycle in it would be one in the graph. -/
theorem restrict_acyclic (hg : g.Connected) (hacyclic : g.Acyclic) (hconn : slice.Connected)
    (h : (g.withRun r).restrict keep = .ok slice) : slice.Acyclic := by
  have hstep : ∀ u v, v ∈ slice.successors u → g.Before u v := by
    intro u v hv
    obtain ⟨e, he, rfl⟩ := mem_successors.mp hv
    obtain ⟨hu, hv⟩ := hconn.ends u e he
    exact before_of_through ((mem_edges_restrict_acyclic hg hacyclic h hu hv).mp he)
  intro u hcycle
  exact hacyclic u (Relation.TransGen.closed hstep u u hcycle)

theorem Solved.mem_instrs_slice (h : g.Solved .bare r) (hblocks : ∀ u, slice.hasBlock u = true → g.hasBlock u = true)
    (hrewrites : ∀ u, g.Rewrites .bare r keep u (slice.blocks.find? u)) {j : Instr} (hj : j ∈ slice.instrs) :
    (∃ i ∈ g.instrs, j = i.clear) ∨ ∃ sinks id, j = .data (placeholder sinks id) := by
  obtain ⟨u, b', hb', hjb⟩ := exists_block_of_mem_instrs hj
  obtain ⟨b, hb⟩ := hasBlock_iff.mp (hblocks u (hasBlock_iff.mpr ⟨b', hb'⟩))
  obtain ⟨inputs, s, t, notes, hset⟩ := h.settled u b hb
  obtain ⟨-, hfollows⟩ := hrewrites u b inputs s t notes hb hset
  rw [hb', Option.map_some, Option.getD_some] at hfollows
  refine (hfollows.filled.mem_code hjb).imp_left ?_
  rintro ⟨i, hi, rfl⟩
  exact ⟨i, mem_instrs hb hi, rfl⟩

theorem sliced_of_restrict (h : g.Exact r) (hof : g.SliceOf .bare r slice)
    (hok : (g.withRun r).restrict keep = .ok slice) {limit : Nat} (hr' : slice.solve .bare limit = .ok r')
    (hconv : r'.converged = true) : g.Sliced r keep slice r' := by
  have hreduct := restrict_isReduct (h.solved.connected.linked.withRun r) hok
  have hblocks : ∀ u, slice.hasBlock u = true → g.hasBlock u = true := by
    intro u hu
    obtain ⟨b', hb'⟩ := hasBlock_iff.mp hu
    obtain ⟨b, _, _, _, _, hb, _⟩ := hof.retained u b' hb'
    exact hasBlock_iff.mpr ⟨b, hb⟩
  have hfits : ∀ i ∈ slice.instrs, i.Fits slice.signature := by
    intro j hj
    rw [hof.signature]
    rcases h.solved.mem_instrs_slice hblocks (restrict_rewrites .bare hok) hj with ⟨i, hi, rfl⟩ | ⟨sinks, id, rfl⟩
    · exact Instr.fits_clear (h.fits i hi)
    · exact fits_placeholder ..
  have hacyclic := restrict_acyclic h.solved.connected h.acyclic hof.connected hok
  exact {
    exact := h
    exact' := exact_of_converged hof.connected hof.labels hfits hacyclic hr' hconv
    signature := hof.signature
    entry := hof.entry
    exit := hreduct.exit
    blocks := hblocks
    gone := fun u b hgone hb => by
      have hkept := hreduct.kept u (b.withRun r u) (find?_withRun_of_find? hb r)
      rw [hgone.2, Block.isMerge_withRun] at hkept
      obtain ⟨hentry, hrest⟩ := not_or.mp fun hcon => Bool.false_ne_true (hkept hcon)
      exact ⟨hentry, Bool.eq_false_iff.mpr (not_or.mp hrest).2⟩
    rewrites := restrict_rewrites .bare hok
    edges := fun u v cond hu hv => mem_edges_restrict_acyclic h.solved.connected h.acyclic hok hu hv }

/-! ## Landing in the slice -/

/-- The state that the slice has behind the place of the block `u`. -/
inductive Lands (g slice : Graph) (r' : Run) : Int → State → Prop
  | stays {u : Int} {t' : State} (hu : slice.hasBlock u = true) (ht' : r'.Exits u t') : Lands g slice r' u t'
  | passes {u : Int} {e : Edge} {t' : State} (hu : g.Gone slice u) (he : e ∈ g.predecessors u)
      (h : Lands g slice r' e.target t') : Lands g slice r' u t'

namespace Sliced

theorem bornAt (h : g.Sliced r keep slice r') (u : Int) : slice.BornAt u = g.BornAt u := by
  funext v
  rw [BornAt, BornAt, h.exit]

theorem hasBlock_of_isMerge (h : g.Sliced r keep slice r') (hb : g.blocks.find? u = some b) (hm : b.isMerge = true) :
    slice.hasBlock u = true := by
  cases hu : slice.hasBlock u with
  | true => rfl
  | false =>
    have hgone : g.Gone slice u := ⟨hasBlock_iff.mpr ⟨b, hb⟩, hu⟩
    exact absurd ((h.gone u b hgone hb).2.symm.trans hm) Bool.false_ne_true

theorem isMerge_eq (h : g.Sliced r keep slice r') (hb : g.blocks.find? u = some b) {b' : Block}
    (hb' : slice.blocks.find? u = some b') : b'.isMerge = b.isMerge := by
  obtain ⟨inputs, s, t, notes, hset⟩ := h.exact.solved.settled u b hb
  exact (h.rewrites u b inputs s t notes hb hset).1 b' hb'

theorem ordinaryLabels (h : g.Sliced r keep slice r') (ho : g.OrdinaryLabels) : slice.OrdinaryLabels := by
  intro j hj
  rcases h.exact.solved.mem_instrs_slice h.blocks h.rewrites hj with ⟨i, hi, rfl⟩ | ⟨sinks, id, rfl⟩
  · rw [Instr.label_clear]
    exact ho i hi
  · rw [show (Instr.data (placeholder sinks id)).label = .dummy id from label_placeholder sinks id]
    rfl

theorem lands_unique (h : g.Sliced r keep slice r') (hu : g.Lands slice r' u t) (hu' : g.Lands slice r' u t') :
    t = t' := by
  induction hu with
  | stays hu ht => cases hu' with
    | stays _ ht' => exact ht.unique ht'
    | passes hgone => exact absurd (hgone.2.symm.trans hu) Bool.false_ne_true
  | @passes u e t hgone he _ ih => cases hu' with
    | stays hu => exact absurd (hgone.2.symm.trans hu) Bool.false_ne_true
    | @passes _ e' _ _ he' hlands =>
      obtain ⟨b, hb⟩ := hasBlock_iff.mp hgone.1
      obtain rfl := h.exact.solved.single_pred hb (h.gone u b hgone hb).2 e he e' he'
      exact ih hlands

theorem lands_of_through (h : g.Sliced r keep slice r') {cond : Option Bool} (hu : slice.hasBlock u = true)
    (ht' : r'.Exits u t') (hthrough : g.edges.Through (g.Gone slice) u cond v) :
    ∃ e ∈ g.predecessors v, g.Lands slice r' e.target t' := by
  have hback : ∀ {u e}, e ∈ g.edges.leaving u → ⟨u, e.cond⟩ ∈ g.predecessors e.target :=
    fun he => (h.exact.solved.connected.inverse _ _ _).mp he
  induction hthrough with
  | edge he => exact ⟨_, hback he, .stays hu ht'⟩
  | step _ hgone he ih =>
    obtain ⟨e', he', hlands⟩ := ih
    exact ⟨_, hback he, .passes hgone he' hlands⟩

theorem through_of_lands (h : g.Sliced r keep slice r') (hlands : g.Lands slice r' u t') : ∃ w,
    slice.hasBlock w = true ∧ r'.Exits w t' ∧
      ((slice.hasBlock u = true ∧ w = u) ∨ (g.Gone slice u ∧ ∃ cond, g.edges.Through (g.Gone slice) w cond u)) := by
  induction hlands with
  | stays hu ht' => exact ⟨_, hu, ht', Or.inl ⟨hu, rfl⟩⟩
  | @passes u e t' hgone he _ ih =>
    obtain ⟨w, hw, ht', hcase⟩ := ih
    have hedge : ⟨u, e.cond⟩ ∈ g.edges.leaving e.target := (h.exact.solved.connected.inverse _ _ _).mpr he
    refine ⟨w, hw, ht', Or.inr ⟨hgone, ?_⟩⟩
    rcases hcase with ⟨-, rfl⟩ | ⟨hgone', cond, hthrough⟩
    · exact ⟨_, .edge hedge⟩
    · exact ⟨cond, .step hthrough hgone' hedge⟩

/-- What comes into a block of the slice is what lands behind its predecessors in the graph. -/
theorem feeds_iff_lands (h : g.Sliced r keep slice r') (hv : slice.hasBlock v = true) :
    slice.Feeds r' v t' ↔ ∃ e ∈ g.predecessors v, g.Lands slice r' e.target t' := by
  have hinverse := h.exact'.solved.connected.inverse
  constructor
  · rintro ⟨e, he, ht'⟩
    have hedge : ⟨v, e.cond⟩ ∈ slice.edges.leaving e.target := (hinverse _ _ _).mpr he
    have hu := (h.exact'.solved.connected.ends _ _ hedge).1
    exact h.lands_of_through hu ht' ((h.edges _ _ _ hu hv).mp hedge)
  · rintro ⟨e, he, hlands⟩
    have hedge : ⟨v, e.cond⟩ ∈ g.edges.leaving e.target := (h.exact.solved.connected.inverse _ _ _).mpr he
    obtain ⟨w, hw, ht', hcase⟩ := h.through_of_lands hlands
    obtain ⟨cond, hthrough⟩ : ∃ cond, g.edges.Through (g.Gone slice) w cond v := by
      rcases hcase with ⟨-, rfl⟩ | ⟨hgone, cond, hthrough⟩
      · exact ⟨_, .edge hedge⟩
      · exact ⟨cond, .step hthrough hgone hedge⟩
    exact ⟨⟨w, cond⟩, (hinverse _ _ _).mp ((h.edges _ _ _ hw hv).mpr hthrough), ht'⟩

theorem exists_lands (h : g.Sliced r keep slice r') (hu : g.hasBlock u = true) : ∃ t', g.Lands slice r' u t' := by
  refine h.exact.acyclic.induction h.exact.solved.connected (P := fun u => ∃ t', g.Lands slice r' u t') ?_ hu
  intro v hv ih
  cases hv' : slice.hasBlock v with
  | true =>
    obtain ⟨b', hb'⟩ := hasBlock_iff.mp hv'
    obtain ⟨_, _, t', _, hset'⟩ := h.exact'.solved.settled v b' hb'
    exact ⟨t', .stays hv' hset'.exits⟩
  | false =>
    obtain ⟨b, hb⟩ := hasBlock_iff.mp hv
    obtain ⟨inputs, s, t, notes, hset⟩ := h.exact.solved.settled v b hb
    cases hset.starts with
    | entry hentry => exact absurd hentry (h.gone v b ⟨hv, hv'⟩ hb).1
    | join hne _ _ =>
      obtain ⟨x, hx⟩ := List.exists_mem_of_ne_nil inputs hne
      obtain ⟨e, he, -⟩ := hset.pred_of_input hx
      obtain ⟨t', ht'⟩ := ih e.target (h.exact.solved.connected.before_of_predecessor he)
      exact ⟨t', .passes ⟨hv, hv'⟩ he ht'⟩

/-! ## Blocks in the slice -/

/-- From the state in front of the place of a block in the slice to the one behind it. -/
structure Landed (g : Graph) (slice : Graph) (r' : Run) (u : Int) (b : Block) (code : List Instr) (s' t' : State)
    (notes' : List (Label × Note)) : Prop where
  lands : g.Lands slice r' u t'
  instrs : ∀ j ∈ code, j ∈ slice.instrs
  runs : Steps g.signature .bare code s' notes' t'
  recorded : ∀ e ∈ notes', r'.instrs.find? e.1 = some e.2
  entry : u = g.entry → s' = g.signature.entryState
  joins : u ≠ g.entry → State.Joins (fun v => b.isMerge = true ∧ g.BornAt u v)
    (fun p => b.isMerge = true ∧ u = g.exit ∧ p = .stack 0)
    (fun x => ∃ e ∈ g.predecessors u, g.Lands slice r' e.target x) s'
  exits : b.isMerge = true → s' = t' ∧ r'.Exits u t'

theorem landed_retained (h : g.Sliced r keep slice r') (hb : g.blocks.find? u = some b)
    (hset : g.Settled .bare r u b inputs s t notes) {b' : Block} (hb' : slice.blocks.find? u = some b') :
    ∃ s' t' notes', Follows g.signature .bare keep b.instrs s notes t b'.instrs ∧
      Landed g slice r' u b b'.instrs s' t' notes' := by
  obtain ⟨-, hfollows⟩ := h.rewrites u b inputs s t notes hb hset
  rw [hb', Option.map_some, Option.getD_some] at hfollows
  have hu : slice.hasBlock u = true := hasBlock_iff.mpr ⟨b', hb'⟩
  obtain ⟨inputs', s', t', notes', hset'⟩ := h.exact'.solved.settled u b' hb'
  refine ⟨s', t', notes', hfollows, .stays hu hset'.exits, fun j hj => mem_instrs hb' hj, h.signature ▸ hset'.runs,
    hset'.instrs, fun hentry => ?_, fun hentry => ?_, fun hm => ⟨hset'.exit_eq_start ?_, hset'.exits⟩⟩
  · subst hentry
    rw [← h.signature]
    rw [← h.entry] at hset'
    exact (h.exact'.solved.entry_start hset').2
  · have hfeeds : slice.Feeds r' u = fun x => ∃ e ∈ g.predecessors u, g.Lands slice r' e.target x :=
      funext fun x => propext (h.feeds_iff_lands hu)
    have hjoins := h.exact'.joins hb' hset' (h.entry ▸ hentry)
    rwa [hfeeds, h.isMerge_eq hb hb', h.bornAt, h.exit] at hjoins
  · exact (h.isMerge_eq hb hb').trans hm

theorem landed_gone (h : g.Sliced r keep slice r') (hb : g.blocks.find? u = some b)
    (hset : g.Settled .bare r u b inputs s t notes) (hgone : g.Gone slice u) :
    ∃ s', Follows g.signature .bare keep b.instrs s notes t [] ∧ Landed g slice r' u b [] s' s' [] := by
  obtain ⟨hentry, hm⟩ := h.gone u b hgone hb
  obtain ⟨-, hfollows⟩ := h.rewrites u b inputs s t notes hb hset
  have hnone : slice.blocks.find? u = none := by
    rw [← Option.not_isSome_iff_eq_none, ← Table.contains_eq_isSome_find?]
    exact Bool.eq_false_iff.mp hgone.2
  rw [hnone] at hfollows
  obtain ⟨t', ht'⟩ := h.exists_lands hgone.1
  refine ⟨t', hfollows, ht', fun j hj => (by cases hj), .nil t', fun e he => (by cases he),
    fun hcon => absurd hcon hentry, fun _ => ?_, fun hcon => absurd (hm.symm.trans hcon) Bool.false_ne_true⟩
  have hsingle : ∀ x, (∃ e ∈ g.predecessors u, g.Lands slice r' e.target x) ↔ x = t' := by
    intro x
    constructor
    · rintro ⟨e, he, hx⟩
      exact h.lands_unique (.passes hgone he hx) ht'
    · rintro rfl
      cases ht' with
      | stays hu => exact absurd (hgone.2.symm.trans hu) Bool.false_ne_true
      | passes _ he hx => exact ⟨_, he, hx⟩
  simp only [hsingle, hm, Bool.false_eq_true, false_and]
  exact .alone t'

/-- Each block can be followed in the slice. -/
theorem landed (h : g.Sliced r keep slice r') (hb : g.blocks.find? u = some b)
    (hset : g.Settled .bare r u b inputs s t notes) :
    ∃ code s' t' notes', Follows g.signature .bare keep b.instrs s notes t code ∧
      Landed g slice r' u b code s' t' notes' := by
  cases hu : slice.hasBlock u with
  | true =>
    obtain ⟨b', hb'⟩ := hasBlock_iff.mp hu
    exact ⟨b'.instrs, h.landed_retained hb hset hb'⟩
  | false =>
    obtain ⟨s', hfollows, hlanded⟩ := h.landed_gone hb hset ⟨hasBlock_iff.mpr ⟨b, hb⟩, hu⟩
    exact ⟨[], s', s', [], hfollows, hlanded⟩

end Sliced
end Graph
end Backslice
