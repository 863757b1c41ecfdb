import Backslice.Proofs.Slice.Reanalysis

/-! # Shapes do not depend on the configuration

The configuration decides about the names that an instruction leaves behind, but neither whether it runs nor how long
the parts of the state behind it are. A graph stands in for itself as a slice does that keeps all, so where the analysis
has converged once it succeeds under every configuration, and the two runs stay in step on every block. -/

namespace Backslice

set_option autoImplicit false

/-! ## Instructions -/

/-- Two annotations with states of the same shape, before and after. -/
def Note.SameShape (a b : Note) : Prop :=
  ∃ s t s' t', a = ⟨.known s, .known t⟩ ∧ b = ⟨.known s', .known t'⟩ ∧
    s'.partLength = s.partLength ∧ t'.partLength = t.partLength

section
variable {sig : Signature} {c c' : Config} {is : List Instr} {s t s' t' : State} {notes notes' : List (Label × Note)}

theorem Steps.replays (h : Steps sig c is s notes t) (hfits : ∀ i ∈ is, i.Fits sig)
    (hlocals : s.locals.length = sig.localCount) (hglobals : s.globals.length = sig.globals.length) :
    Replays sig is s t notes := by
  induction h with
  | nil => exact .nil rfl
  | cons hi _ ih =>
    obtain ⟨hfirst, hrest⟩ := List.forall_mem_cons.mp hfits
    have hlengths := hi.lengths
    have htail := ih hrest (hlengths.1.trans hlocals) (hlengths.2.trans hglobals)
    exact (Replays.instr hi hfirst hlocals hglobals).append htail

/-- Two runs of the same instructions from states of one shape record states of one shape. -/
theorem Steps.sameShape (h : Steps sig c is s notes t) (h' : Steps sig c' is s' notes' t')
    (hfits : ∀ i ∈ is, i.Fits sig) (hlocals : s.locals.length = sig.localCount)
    (hglobals : s.globals.length = sig.globals.length) (hs : s'.partLength = s.partLength) :
    List.Forall₂ (fun e e' => e.1 = e'.1 ∧ e.2.SameShape e'.2) notes notes' := by
  induction h generalizing s' notes' with
  | nil =>
    cases h'
    exact .nil
  | @cons i rest s u t notes hi _ ih =>
    cases h' with
    | @cons _ _ _ u' _ notes' hi' hrest' =>
      obtain ⟨hfirst, hrest⟩ := List.forall_mem_cons.mp hfits
      obtain ⟨x, hx, hshape⟩ := hi.again c' hfirst hlocals hglobals hs
      obtain rfl : x = u' := hx.unique hi'
      have hlengths := hi.lengths
      have htail := ih hrest' hrest (hlengths.1.trans hlocals) (hlengths.2.trans hglobals) hshape
      exact .cons ⟨rfl, s, u, s', x, rfl, rfl, hs, hshape⟩ htail

end

namespace Graph

variable {g : Graph} {c c' : Config} {r r' : Run}

/-! ## A graph as a slice of itself -/

theorem Solved.sliceOf_self (h : g.Solved c r) (hfits : ∀ i ∈ g.instrs, i.Fits g.signature)
    (hnodup : ∀ u, (g.predecessors u).Nodup) : g.SliceOf c r g where
  signature := rfl
  entry := rfl
  connected := h.connected
  labels := h.labels
  retained u b hb := by
    obtain ⟨inputs, s, t, notes, hset⟩ := h.settled u b hb
    obtain ⟨hlocals, hglobals⟩ := h.lengths (hset.reached_start hb)
    have hreplays := hset.runs.replays (fun i hi => hfits i (mem_instrs hb hi)) hlocals hglobals
    exact ⟨b, inputs, s, t, notes, hb, hset, rfl, hreplays⟩
  along _ _ he := h.hands he
  single u _ hb hm := length_le_one (hnodup u) (h.single_pred hb hm)

/-! ## Two solutions -/

/-- What two solutions record for a block and for its instructions has the same shape. -/
theorem Solved.sameShape (h : g.Solved c r) (h' : g.Solved c' r') (hagrees : g.Agrees c r g c' r')
    (hfits : ∀ i ∈ g.instrs, i.Fits g.signature) {index : Int} {b : Block} (hb : g.blocks.find? index = some b) :
    (∃ note note', r.blocks.find? index = some note ∧ r'.blocks.find? index = some note' ∧ note.SameShape note') ∧
      ∀ i ∈ b.instrs, ∃ note note', r.instrs.find? i.label = some note ∧ r'.instrs.find? i.label = some note' ∧
        note.SameShape note' := by
  obtain ⟨inputs, s, t, notes, hset⟩ := h.settled index b hb
  obtain ⟨inputs', s', t', notes', hset'⟩ := h'.settled index b hb
  obtain ⟨x, hnote, hx⟩ := hset.note_shape
  obtain ⟨x', hnote', hx'⟩ := hset'.note_shape
  obtain ⟨hlocals, hglobals⟩ := h.lengths (hset.reached_start hb)
  obtain ⟨hlocals', hglobals'⟩ := h'.lengths (hset'.reached_start hb)
  obtain ⟨hlocalsₜ, hglobalsₜ⟩ := h.lengths (hset.reached_exit hb)
  obtain ⟨hlocalsₜ', hglobalsₜ'⟩ := h'.lengths (hset'.reached_exit hb)
  -- The heights agree from run to run, and the signature fixes the other two lengths.
  have hheights : x'.stack.length = x.stack.length ∧ t'.stack.length = t.stack.length := by
    obtain ⟨note, hfind, y, z, y', z', hyz, hyz', hy, hz⟩ := hagrees.blocks index _ hnote'
    rw [hnote, Option.some.injEq] at hfind
    cases hfind.trans hyz
    cases hyz'
    exact ⟨hy, hz⟩
  have hends : t'.partLength = t.partLength :=
    State.partLength_ext hheights.2 (hlocalsₜ'.trans hlocalsₜ.symm) (hglobalsₜ'.trans hglobalsₜ.symm)
  have hstarts : s'.partLength = s.partLength := by
    refine State.partLength_ext ?_ (hlocals'.trans hlocals.symm) (hglobals'.trans hglobals.symm)
    calc s'.stack.length = x'.stack.length := (State.length_stack_of_shape hx').symm
      _ = x.stack.length := hheights.1
      _ = s.stack.length := State.length_stack_of_shape hx
  refine ⟨⟨_, _, hnote, hnote', x, t, x', t', rfl, rfl, hx'.trans (hstarts.trans hx.symm), hends⟩, fun i hi => ?_⟩
  have hpairs := hset.runs.sameShape hset'.runs (fun i hi => hfits i (mem_instrs hb hi)) hlocals hglobals hstarts
  have hlabel : i.label ∈ notes.map (·.1) := hset.runs.labels ▸ List.mem_map_of_mem hi
  obtain ⟨e, he, hei⟩ := List.mem_map.mp hlabel
  obtain ⟨e', he', hee', hsame⟩ := exists_of_forall₂ hpairs he
  refine ⟨e.2, e'.2, hei ▸ hset.instrs e he, ?_, hsame⟩
  rw [← hei, hee']
  exact hset'.instrs e' he'

/-- The analysis fails under one configuration if and only if it fails under the other. If it succeeds, what the two
runs record before and after every block and every instruction has the same shape. -/
theorem config_keeps_shapes (hg : g.WellFormed) (hl : g.DistinctLabels) (hrange : g.IndicesInRange)
    (harity : g.ArityNonneg) {limit limit' : Nat} (hstop : ∀ r, g.solve c limit = .ok r → r.converged = true)
    (hstop' : ∀ r', g.solve c' limit' = .ok r' → r'.converged = true) :
    ((∃ e, g.solve c limit = .error e) ↔ ∃ e, g.solve c' limit' = .error e) ∧
      ∀ r r', g.solve c limit = .ok r → g.solve c' limit' = .ok r' →
        (∀ index, g.hasBlock index = true → ∃ note note', r.blocks.find? index = some note ∧
          r'.blocks.find? index = some note' ∧ note.SameShape note') ∧
        ∀ i ∈ g.instrs, ∃ note note', r.instrs.find? i.label = some note ∧
          r'.instrs.find? i.label = some note' ∧ note.SameShape note' := by
  have hfits : ∀ i ∈ g.instrs, i.Fits g.signature := fun i hi => fits_of_legal hrange harity hi
  have hsolved : ∀ {c limit r}, (∀ r, g.solve c limit = .ok r → r.converged = true) → g.solve c limit = .ok r →
      g.Solved c r := fun hstop hr => solved_of_converged hg.connected hl hr (hstop _ hr)
  have hagain : ∀ {c limit r}, (∀ r, g.solve c limit = .ok r → r.converged = true) → g.solve c limit = .ok r →
      ∀ c' limit', ∃ r', g.solve c' limit' = .ok r' ∧ g.Agrees c r g c' r' := by
    intro c limit r hstop hr c' limit'
    have h := hsolved hstop hr
    exact (h.sliceOf_self hfits (Edges.nodup_predecessors hg.built)).solve_ok h c' limit'
  have hfails : ∀ {c c' limit limit'}, (∀ r', g.solve c' limit' = .ok r' → r'.converged = true) →
      (∃ e, g.solve c limit = .error e) → ∃ e, g.solve c' limit' = .error e := by
    rintro c c' limit limit' hstop' ⟨e, he⟩
    cases hr' : g.solve c' limit' with
    | error e' => exact ⟨e', rfl⟩
    | ok r' =>
      obtain ⟨r, hr, -⟩ := hagain hstop' hr' c limit
      cases he.symm.trans hr
  refine ⟨⟨hfails hstop', hfails hstop⟩, fun r r' hr hr' => ?_⟩
  obtain ⟨r'', hr'', hagrees⟩ := hagain hstop hr c' limit'
  obtain rfl : r'' = r' := Except.ok.inj (hr''.symm.trans hr')
  have hsame := fun index b (hb : g.blocks.find? index = some b) =>
    (hsolved hstop hr).sameShape (hsolved hstop' hr') hagrees hfits hb
  constructor
  · intro index hindex
    obtain ⟨b, hb⟩ := hasBlock_iff.mp hindex
    exact (hsame index b hb).1
  · intro i hi
    obtain ⟨index, b, hb, hib⟩ := exists_block_of_mem_instrs hi
    exact (hsame index b hb).2 i hib

/-- The countdown with all names and constants propagated, and with none. -/
theorem config_keeps_shapes_countdown : ∃ r r', countdown.solve {} 20 = .ok r ∧ r.converged = true ∧
    countdown.solve ⟨false, false, false⟩ 20 = .ok r' ∧ r'.converged = true ∧
    ∀ i ∈ countdown.instrs, ∃ note note', r.instrs.find? i.label = some note ∧
      r'.instrs.find? i.label = some note' ∧ note.SameShape note' := by
  obtain ⟨r, hr, hconv⟩ := converges_iff.mp (show countdown.converges {} 20 = true by decide +kernel)
  obtain ⟨r', hr', hconv'⟩ :=
    converges_iff.mp (show countdown.converges ⟨false, false, false⟩ 20 = true by decide +kernel)
  have hshapes := config_keeps_shapes countdown_wellFormed (by decide) (by decide) (by decide)
    (fun x hx => Except.ok.inj (hr.symm.trans hx) ▸ hconv) (fun x hx => Except.ok.inj (hr'.symm.trans hx) ▸ hconv')
  exact ⟨r, r', hr, hconv, hr', hconv', (hshapes.2 r r' hr hr').2⟩

end Graph
end Backslice
