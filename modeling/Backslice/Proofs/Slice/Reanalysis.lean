import Backslice.Proofs.Slice.Content
import Backslice.Proofs.Slice.Criterion

/-! # Analyzing a slice

A visit of a slice starts in the shape in which the original block starts, so it succeeds and leaves the shape that
the original block leaves. That is what each visit keeps, under any configuration and whether or not the second run
converges, and with it the height of the stack wherever the two analyses record a state for the same place. -/

namespace Backslice

set_option autoImplicit false

namespace Graph

variable {g slice : Graph} {c c' : Config} {r r' : Run} {index : Int} {b' : Block} {flows : List Flow} {v : Visit}

/-! ## One visit -/

/-- The state has the shape of the one that the block `index` starts with. -/
def StartsLike (g : Graph) (c : Config) (r : Run) (index : Int) (x : State) : Prop :=
  ∀ b inputs s t notes, g.Settled c r index b inputs s t notes → x.partLength = s.partLength

/-- The state has the shape of the one that the block `index` leaves. -/
def EndsLike (g : Graph) (c : Config) (r : Run) (index : Int) (x : State) : Prop :=
  ∀ b inputs s t notes, g.Settled c r index b inputs s t notes → x.partLength = t.partLength

theorem SliceOf.startsLike (h : g.SliceOf c r slice) (hsol : g.Solved c r) {xs : List State} {s' : State}
    (hs' : slice.Starts index b' xs s') (hxs : ∀ x ∈ xs, g.StartsLike c r index x) : g.StartsLike c r index s' := by
  intro b inputs s t notes hset
  cases hs' with
  | entry hentry =>
    rw [h.entry] at hentry
    subst hentry
    rw [h.signature, (hsol.entry_start hset).2]
  | join hne hjoined _ =>
    obtain ⟨x, hx⟩ := List.exists_mem_of_ne_nil xs hne
    exact (hjoined.shape x hx).symm.trans (hxs x hx _ _ _ _ _ hset)

theorem SliceOf.merge_ok (h : g.SliceOf c r slice) (hb' : slice.blocks.find? index = some b')
    (hknown : (flows = [] ∧ index = slice.entry) ∨ flows.filterMap Flow.state? ≠ [])
    (hlength : b'.isMerge = false → flows.length ≤ 1)
    (hflows : ∀ x ∈ flows.filterMap Flow.state?, g.StartsLike c r index x) :
    ∃ s', slice.merge index b' flows = .ok (.known s') ∧
      slice.Starts index b' (flows.filterMap Flow.state?) s' := by
  rcases hknown with ⟨rfl, hentry⟩ | hne
  · exact ⟨_, merge_nil .., .entry hentry⟩
  · obtain ⟨_, _, s, _, _, _, hset, _⟩ := h.retained index b' hb'
    exact starts_of_shape hne hlength fun x hx => hflows x hx _ _ _ _ _ hset

theorem SliceOf.visit_ok (h : g.SliceOf c r slice) (c' : Config) (hsol : g.Solved c r)
    (hb' : slice.blocks.find? index = some b')
    (hknown : (flows = [] ∧ index = slice.entry) ∨ flows.filterMap Flow.state? ≠ [])
    (hlength : b'.isMerge = false → flows.length ≤ 1)
    (hflows : ∀ x ∈ flows.filterMap Flow.state?, g.StartsLike c r index x) :
    ∃ v, slice.visit c' index b' flows = .ok v := by
  obtain ⟨s', hmerge, hs'⟩ := h.merge_ok hb' hknown hlength hflows
  obtain ⟨_, _, s, _, _, _, hset, _, hreplays⟩ := h.retained index b' hb'
  obtain ⟨notes', t', hsteps, _⟩ := hreplays c' s' (h.startsLike hsol hs' hflows _ _ _ _ _ hset)
  rw [← h.signature] at hsteps
  exact visit_succeeds hmerge hsteps

theorem SliceOf.visit_heights (h : g.SliceOf c r slice) (hsol : g.Solved c r)
    (hb' : slice.blocks.find? index = some b')
    (hknown : (flows = [] ∧ index = slice.entry) ∨ flows.filterMap Flow.state? ≠ [])
    (hflows : ∀ x ∈ flows.filterMap Flow.state?, g.StartsLike c r index x)
    (hv : slice.visit c' index b' flows = .ok v) :
    (∀ cond t', v.outcome.along cond = .known t' → g.EndsLike c r index t') ∧
      (∃ note, r.blocks.find? index = some note ∧ note.SameHeights v.note) ∧
      ∀ e ∈ v.instrs, e.1.isDummy = true ∨ ∃ note, r.instrs.find? e.1 = some note ∧ note.SameHeights e.2 := by
  obtain ⟨s', t', hs', hfound⟩ := visit_runs hknown hv
  obtain ⟨b, inputs, s, t, notes, hb, hset, hmerge, hreplays⟩ := h.retained index b' hb'
  have hstart := h.startsLike hsol hs' hflows _ _ _ _ _ hset
  obtain ⟨notes', t'', hsteps, hend, hnotes⟩ := hreplays c' s' hstart
  have hruns := hfound.runs
  rw [h.signature] at hruns
  -- The run of the block is the only one from its start, so what can be replayed is what the visit did.
  obtain ⟨rfl, rfl⟩ := hsteps.unique hruns
  obtain ⟨x, hnote, hx⟩ := hset.note_shape
  obtain ⟨y, hnote', hy⟩ := hfound.note_shape hs'
  refine ⟨?_, ⟨_, hnote, x, t, y, t'', rfl, hnote', ?_, State.length_stack_of_shape hend⟩, ?_⟩
  · intro cond z hz b₁ inputs₁ s₁ t₁ notes₁ hset₁
    rw [hfound.along] at hz
    rw [← Flow.known.inj hz, hend, hset.exits.unique hset₁.exits]
  · refine State.length_stack_of_shape ?_
    calc y.partLength = s'.partLength := hy
      _ = s.partLength := hstart
      _ = x.partLength := hx.symm
  · intro e he
    refine (hnotes e he).imp_right ?_
    rintro ⟨a, ha, hsame⟩
    exact ⟨a, hset.instrs _ ha, hsame⟩

/-! ## Every run -/

/-- A run of the analysis on a slice agrees with the run `r` on the original graph. -/
structure Agrees (g : Graph) (c : Config) (r : Run) (slice : Graph) (c' : Config) (r' : Run) : Prop where
  sound : r'.Sound slice c'
  ends : ∀ u o cond t', r'.outcomes.find? u = some o → o.along cond = .known t' → g.EndsLike c r u t'
  blocks : ∀ u note', r'.blocks.find? u = some note' →
    ∃ note, r.blocks.find? u = some note ∧ note.SameHeights note'
  instrs : ∀ l note', r'.instrs.find? l = some note' →
    l.isDummy = true ∨ ∃ note, r.instrs.find? l = some note ∧ note.SameHeights note'

theorem agrees_start (g : Graph) (c : Config) (r : Run) (slice : Graph) (c' : Config) :
    g.Agrees c r slice c' { pending := slice.order } where
  sound := Run.sound_start slice c'
  ends u o cond t' ho := by cases ho
  blocks u note' hnote' := by cases hnote'
  instrs l note' hnote' := by cases hnote'

/-- What comes into a block of a slice has the shape of what the original block starts with. -/
theorem Agrees.incoming (ha : g.Agrees c r slice c' r') (h : g.SliceOf c r slice) (u : Int) :
    ∀ x ∈ (slice.incoming r'.outcomes u).filterMap Flow.state?, g.StartsLike c r u x := by
  intro x hx b inputs s t notes hset
  obtain ⟨f, hf, hfx⟩ := List.mem_filterMap.mp hx
  obtain ⟨e, he, rfl⟩ := List.mem_map.mp hf
  have hedge : ⟨u, e.cond⟩ ∈ slice.edges.leaving e.target := (h.connected.inverse e.target u e.cond).mpr he
  obtain ⟨bₑ, hbₑ⟩ := hasBlock_iff.mp (h.connected.ends e.target _ hedge).1
  obtain ⟨_, _, _, t', _, _, hsetₑ, _⟩ := h.retained e.target bₑ hbₑ
  cases ho : r'.outcomes.find? e.target with
  | none =>
    rw [ho] at hfx
    cases hfx
  | some o =>
    rw [ho] at hfx
    have hknown : o.along e.cond = .known x := Flow.state?_eq_some.mp hfx
    calc x.partLength = t'.partLength := ha.ends e.target o e.cond x ho hknown _ _ _ _ _ hsetₑ
      _ = s.partLength := h.along e.target _ hedge _ _ _ _ _ _ _ _ _ _ hsetₑ hset

theorem Agrees.step (ha : g.Agrees c r slice c' r') (h : g.SliceOf c r slice) (hsol : g.Solved c r) {rest : List Int}
    (hp : r'.pending = index :: rest) :
    ∃ r'', r'.step slice c' slice.order index rest = .ok r'' ∧ g.Agrees c r slice c' r'' := by
  have hmem : index ∈ slice.order := ha.sound.mem_order hp (List.mem_cons_self ..)
  obtain ⟨b', hb'⟩ := hasBlock_iff.mp (h.connected.mem_order.mp hmem)
  have hknown := ha.sound.known_incoming h.connected hp
  have hlength : b'.isMerge = false → (slice.incoming r'.outcomes index).length ≤ 1 := by
    intro hm
    rw [Graph.incoming, List.length_map]
    exact h.single index b' hb' hm
  obtain ⟨v, hv⟩ := h.visit_ok c' hsol hb' hknown hlength (ha.incoming h index)
  obtain ⟨hends, hblock, hinstrs⟩ := h.visit_heights hsol hb' hknown (ha.incoming h index) hv
  refine ⟨_, Run.step_eq_ok.mpr ⟨b', v, hb', hv, rfl⟩, ha.sound.record h.connected h.labels hp hb' hv, ?_, ?_, ?_⟩
  · intro u o cond t' ho ht'
    rw [Run.record, Table.find?_insert] at ho
    split at ho
    · rename_i heq
      rw [← eq_of_beq heq]
      exact hends cond t' (Option.some.inj ho ▸ ht')
    · exact ha.ends u o cond t' ho ht'
  · intro u note' hnote'
    rw [Run.record, Table.find?_insert] at hnote'
    split at hnote'
    · rename_i heq
      rw [← eq_of_beq heq, ← Option.some.inj hnote']
      exact hblock
    · exact ha.blocks u note' hnote'
  · intro l note' hnote'
    rcases Table.mem_of_find?_foldl_insert _ _ hnote' with he | hold
    · exact hinstrs (l, note') he
    · exact ha.instrs l note' hold

theorem SliceOf.solve_ok (h : g.SliceOf c r slice) (hsol : g.Solved c r) (c' : Config) (limit : Nat) :
    ∃ r', slice.solve c' limit = .ok r' ∧ g.Agrees c r slice c' r' :=
  Run.advance_succeeds (g.Agrees c r slice c') (fun _ _ _ ha hp => ha.step h hsol hp) limit
    (agrees_start g c r slice c')

theorem Agrees.complete (ha : g.Agrees c r slice c' r') (h : g.SliceOf c r slice) (hconv : r'.converged = true) :
    (∀ u, slice.hasBlock u = true → ∃ note', r'.blocks.find? u = some note') ∧
      ∀ i ∈ slice.instrs, ∃ note', r'.instrs.find? i.label = some note' := by
  constructor
  · intro u hu
    obtain ⟨b, hb⟩ := hasBlock_iff.mp hu
    obtain ⟨_, v, hrec, -⟩ := ha.sound.exists_recorded h.connected hconv hb
    exact ⟨v.note, hrec.note⟩
  · intro i hi
    obtain ⟨u, b, hb, hib⟩ := exists_block_of_mem_instrs hi
    obtain ⟨_, v, hrec, -⟩ := ha.sound.exists_recorded h.connected hconv hb
    have hlabel : i.label ∈ v.instrs.map (·.1) := by
      rw [Run.visit_labels hrec.visit]
      exact List.mem_map_of_mem hib
    obtain ⟨e, he, hei⟩ := List.mem_map.mp hlabel
    exact ⟨e.2, hei ▸ hrec.instrs e he⟩

/-- At the end of the second run every kept instruction has been recorded, with the heights of the first. -/
theorem Agrees.kept (ha : g.Agrees c r slice c' r') (h : g.SliceOf c r slice) (hplain : g.NoPlaceholders)
    {keep : List Label} (hok : (g.withRun r).restrict keep = .ok slice) (hconv : r'.converged = true) :
    ∀ i ∈ g.instrs, i.label ∈ keep → ∃ note note', r.instrs.find? i.label = some note ∧
      r'.instrs.find? i.label = some note' ∧ note.SameHeights note' := by
  intro i hi hkeep
  have hmem : i.clear ∈ slice.instrs := by
    rw [← Instr.clear_annotate r.instrs i]
    exact clear_mem_of_restrict hok (mem_instrs_withRun.mpr ⟨i, hi, rfl⟩) (i.label_annotate r.instrs ▸ hkeep)
  obtain ⟨note', hnote'⟩ := (ha.complete h hconv).2 i.clear hmem
  rw [Instr.label_clear] at hnote'
  rcases ha.instrs i.label note' hnote' with hdummy | ⟨note, hnote, hsame⟩
  · rw [hplain i hi] at hdummy
    cases hdummy
  · exact ⟨note, note', hnote, hnote', hsame⟩

/-! ## Slices for a criterion -/

theorem Solved.slice_ok (h : g.Solved c r) (ho : g.OrdinaryLabels) (hfits : ∀ i ∈ g.instrs, i.Fits g.signature)
    (hplain : g.NoPlaceholders) (hnodup : ∀ u, (g.predecessors u).Nodup) {criterion : Label}
    (hsite : g.IsSite criterion) :
    ∃ keep slice, (g.withRun r).keep criterion none none = .ok keep ∧ (g.withRun r).slice criterion none = .ok slice ∧
      (g.withRun r).restrict keep = .ok slice ∧ g.SliceOf c r slice := by
  obtain ⟨home, hhome⟩ := blockOf_ok (isSite_withRun.mpr hsite)
  obtain ⟨keep, hkeep, -⟩ := h.keep_ok ho (fun i hi => (hfits i hi).inRange) hsite
  obtain ⟨slice, hslice, hof⟩ := h.restrict_ok hfits hplain hnodup keep
  refine ⟨keep, slice, hkeep, ?_, hslice, hof⟩
  rw [Graph.slice, hhome, hkeep]
  exact hslice

/-- The slice of an analyzed graph exists, and the analysis of the slice never fails, however it is configured and
wherever it stops. What it records about a block that has stayed, and about an instruction that has been kept, has the
stack heights that are recorded for the original graph. If it converges, that is all blocks and instructions of the
slice, and among them all instructions that are to be kept. -/
theorem slice_reanalysis_keeps_heights (hg : g.WellFormed) (hl : g.DistinctLabels) (ho : g.OrdinaryLabels)
    (hplain : g.NoPlaceholders) (hrange : g.IndicesInRange) (harity : g.ArityNonneg) {limit : Nat}
    (hr : g.solve c limit = .ok r) (hconv : r.converged = true) {criterion : Label} (hsite : g.IsSite criterion) :
    ∃ keep slice, (g.withRun r).keep criterion none none = .ok keep ∧ (g.withRun r).slice criterion none = .ok slice ∧
      ∀ c' limit', ∃ r', slice.solve c' limit' = .ok r' ∧
      (∀ u note', r'.blocks.find? u = some note' →
        ∃ note, r.blocks.find? u = some note ∧ note.SameHeights note') ∧
      (∀ l note', r'.instrs.find? l = some note' →
        l.isDummy = true ∨ ∃ note, r.instrs.find? l = some note ∧ note.SameHeights note') ∧
      (r'.converged = true → (∀ u, slice.hasBlock u = true → ∃ note', r'.blocks.find? u = some note') ∧
        (∀ i ∈ slice.instrs, ∃ note', r'.instrs.find? i.label = some note') ∧
        ∀ i ∈ g.instrs, i.label ∈ keep → ∃ note note', r.instrs.find? i.label = some note ∧
          r'.instrs.find? i.label = some note' ∧ note.SameHeights note') := by
  have h := solved_of_converged hg.connected hl hr hconv
  have hfits : ∀ i ∈ g.instrs, i.Fits g.signature := fun i hi => fits_of_legal hrange harity hi
  obtain ⟨keep, slice, hkeep, hslice, hok, hof⟩ :=
    h.slice_ok ho hfits hplain (Edges.nodup_predecessors hg.built) hsite
  refine ⟨keep, slice, hkeep, hslice, fun c' limit' => ?_⟩
  obtain ⟨r', hr', hagrees⟩ := hof.solve_ok h c' limit'
  refine ⟨r', hr', hagrees.blocks, hagrees.instrs, fun hconv' => ?_⟩
  obtain ⟨hblocks, hinstrs⟩ := hagrees.complete hof hconv'
  exact ⟨hblocks, hinstrs, hagrees.kept hof hplain hok hconv'⟩

/-- The slice for the first constant of the countdown, whose branch is not kept. It is analyzed again without
propagation, and has the constant at the height at which it was. -/
theorem slice_reanalysis_keeps_heights_countdown : ∃ r keep slice, countdown.solve {} 20 = .ok r ∧ r.converged = true ∧
    countdown.IsSite (.code 0) ∧ (countdown.withRun r).keep (.code 0) none none = .ok keep ∧ .code 0 ∈ keep ∧
    (countdown.withRun r).slice (.code 0) none = .ok slice ∧
    (∀ c' limit', ∃ r', slice.solve c' limit' = .ok r' ∧ ∀ u note', r'.blocks.find? u = some note' →
      ∃ note, r.blocks.find? u = some note ∧ note.SameHeights note') ∧
    ∃ r' note note', slice.solve .bare 20 = .ok r' ∧ r'.converged = true ∧ r.instrs.find? (.code 0) = some note ∧
      r'.instrs.find? (.code 0) = some note' ∧ note.SameHeights note' := by
  have hrun : (do
      let r ← countdown.solve {} 20
      let keep ← (countdown.withRun r).keep (.code 0) none none
      let slice ← (countdown.withRun r).slice (.code 0) none
      let r' ← slice.solve .bare 20
      return (r.converged, keep.contains (.code 0), r'.converged)) = Except.ok (true, true, true) := by decide +kernel
  obtain ⟨r, hr, hrun⟩ := bind_eq_ok.mp hrun
  obtain ⟨keep, hkeep, hrun⟩ := bind_eq_ok.mp hrun
  obtain ⟨slice, hslice, hrun⟩ := bind_eq_ok.mp hrun
  obtain ⟨r', hr', hrun⟩ := bind_eq_ok.mp hrun
  simp only [pure_eq_ok, Prod.mk.injEq, List.contains_iff_mem] at hrun
  obtain ⟨hconv, hkept, hconv'⟩ := hrun
  have hmem : Instr.data { label := .code 0, op := .const, arg := .literal (.i32 9) } ∈ countdown.instrs := by decide
  have hsite : countdown.IsSite (.code 0) := Or.inl ⟨_, hmem, rfl⟩
  obtain ⟨keep₁, slice₁, hkeep₁, hslice₁, hall⟩ := slice_reanalysis_keeps_heights countdown_wellFormed (by decide)
    (by decide) (by decide) (by decide) (by decide) hr hconv hsite
  obtain rfl := Except.ok.inj (hkeep.symm.trans hkeep₁)
  obtain rfl := Except.ok.inj (hslice.symm.trans hslice₁)
  refine ⟨r, keep, slice, hr, hconv, hsite, hkeep, hkept, hslice, fun c' limit' => ?_, r', ?_⟩
  · obtain ⟨r'', hr'', hblocks, -⟩ := hall c' limit'
    exact ⟨r'', hr'', hblocks⟩
  · obtain ⟨r'', hr'', -, -, hend⟩ := hall .bare 20
    obtain rfl := Except.ok.inj (hr'.symm.trans hr'')
    obtain ⟨-, -, hheights⟩ := hend hconv'
    obtain ⟨note, note', hnote, hnote', hsame⟩ := hheights _ hmem hkept
    exact ⟨note, note', hr', hconv', hnote, hnote', hsame⟩

end Graph
end Backslice
